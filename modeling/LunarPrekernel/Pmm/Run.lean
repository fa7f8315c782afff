import LunarPrekernel.Pmm.Within
import LunarPrekernel.Pmm.Firmware

/-!
# Runs of the allocator

Once the firmware's ranges are in the map, the pre-kernel only allocates and frees.  A `PmmState`
is the map together with the allocations that are out, `PmmCall` is one call, and `run` makes any
sequence of them.

`PmmState.Inv` is what every run keeps: the map is well formed, it covers what the firmware listed,
and every allocation that is out lies inside one live entry of its type.  The last part is what
makes `pmm_free` safe: its range is always inside a single entry, and such a range is clean
(`clean_of_within`).

* `pmmAllocExt_spec`, `pmmFree_spec` — one call, on any well-formed map.
* `pmm_run` — what holds at every point of a run, and of any call made there.
-/

set_option autoImplicit false

namespace LunarPrekernel

open SpanMap Span PmmMap

/-! ## The search for a free entry -/

/-- The block at `u` lies in a free entry, at a multiple of the alignment. -/
def FoundIn (m : PmmMap) (length alignment u : Nat) : Prop :=
  ∃ e ∈ m.live, e.type = .free ∧ e.base ≤ u ∧ u < e.stop ∧ u + length ≤ e.stop ∧ alignment ∣ u

/-- What `pmm_alloc_ext` finds: a free entry that holds the whole block. -/
theorem allocFit_spec {m : PmmMap} {length alignment n i u : Nat} (hwf : m.Wf)
    (ha : 1 ≤ alignment)
    (hr : ∀ e ∈ m.live, e.type = .free → e.base + alignment - 1 < 2 ^ 64)
    (hn : i + n ≤ m.size) (h : allocFit m length alignment n i = some u) :
    ∃ e ∈ m.live, e.type = .free ∧ e.base ≤ u ∧ u < e.stop ∧ u + length ≤ e.stop ∧
      alignment ∣ u := by
  induction n generalizing i with
  | zero => cases h
  | succ n ih =>
    rw [allocFit] at h
    have hmem := slots_mem_live m (i := i) (by omega)
    have hb := hwf.bound _ hmem
    split at h
    · exact ih (by omega) h
    rename_i hfree
    have hfree : (m.slots i).type = .free := not_not.mp hfree
    dsimp only at h
    obtain ⟨h1, h2, h3⟩ := mathCeil_spec ha (hr _ hmem hfree)
    rw [add64_eq hb] at h
    split at h
    · exact ih (by omega) h
    rename_i hlt
    simp only [Span.stop] at hb
    rw [sub64_eq (b := (m.slots i).base) (by omega) h1, sub64_eq (by omega) (by omega)] at h
    split at h
    · exact ih (by omega) h
    rename_i hfit
    obtain rfl := Option.some.inj h
    refine ⟨_, hmem, hfree, h1, ?_, ?_, h3⟩ <;> simp only [Span.stop] <;> omega

theorem allocFit_congr {m m₀ : PmmMap} (h : m.live = m₀.live) (length alignment n i : Nat)
    (hn : i + n ≤ m.size) :
    allocFit m length alignment n i = allocFit m₀ length alignment n i := by
  induction n generalizing i with
  | zero => rfl
  | succ n ih => rw [allocFit, allocFit, slots_eq_of_live h (by omega), ih (i + 1) (by omega)]

/-! ## One call on a well-formed map -/

/-- How the allocator stops: it panics, or it reads past the array when that is full. -/
def AllocStop (m : PmmMap) (e : Stop) : Prop :=
  (∃ fmt, e = .panic fmt []) ∨ e = .fault ∧ m.size = pmmMapMaxEntries

theorem AllocStop.panic {m : PmmMap} {e : Stop} (h : AllocStop m e)
    (hsize : m.size < pmmMapMaxEntries) : ∃ fmt, e = .panic fmt [] :=
  h.resolve_right fun hf ↦ hsize.ne hf.2

/-- A forced call on a range inside one entry: it returns with the range, and only the range,
changed, or stops on a full array. -/
theorem pmmMapSet_force_within {m : PmmMap} (base length : Nat) (type : PmmMapType) (h : m.Wf)
    (hb : base < 2 ^ 64)
    (hw : 0 < length → Within m.live base (base + length)) :
    (∃ m', pmmMapSet m base length type true = .ok m' ∧ m'.Wf ∧
      typeAt m'.live = overwrite (typeAt m.live) base (base + length) (fun _ ↦ type) ∧
      (∀ p q, p < q → (∀ a, p ≤ a → a < q → ¬ (base ≤ a ∧ a < base + length)) →
        Within m.live p q → Within m'.live p q) ∧
      (0 < length → Within m'.live base (base + length))) ∨
    ∃ e, pmmMapSet m base length type true = .error e ∧ AllocStop m e := by
  rcases Nat.eq_zero_or_pos length with rfl | hl
  · refine Or.inl ⟨m, pmmMapSet_zero h hb, h, ?_, fun _ _ _ _ hpq ↦ hpq, fun h ↦ by omega⟩
    funext a
    exact (overwrite_of_not_mem (by omega)).symm
  · have hlt : base < base + length := by omega
    obtain ⟨e, he, h1, h2⟩ := hw hl
    have hstop := h.bound e he
    have hspec := pmmMapSet_spec type true h rfl hlt (by omega)
      (clean_of_within h.tiled hlt ⟨e, he, h1, h2⟩)
    have hres : setResult m base (base + length) type true =
        overwrite (typeAt m.live) base (base + length) fun _ ↦ type := by
      funext a
      simp only [setResult, overwrite, settle_force]
    cases hm' : pmmMapSet m base length type true with
    | ok m' =>
      rw [hm', hres] at hspec
      refine Or.inl ⟨m', rfl, hspec.wf, hspec.typeAt_eq, fun p q hpq hd ↦ hspec.keeps p q hpq ?_,
        fun _ ↦ hspec.whole rfl hlt⟩
      by_contra hno
      exact hd (max p base) (le_max_left _ _) (by omega) (by omega)
    | error s =>
      rw [hm'] at hspec
      refine Or.inr ⟨s, rfl, ?_⟩
      rcases hspec with rfl | ⟨rfl, hf⟩
      · exact Or.inl ⟨_, rfl⟩
      · exact Or.inr ⟨rfl, (hf rfl).1⟩

/-! ## Runs -/

/-- An allocation: where it is, and what it was asked for with. -/
structure Allocation where
  address : Nat
  pageCount : Nat
  type : PmmMapType
deriving DecidableEq, Repr

namespace Allocation

/-- The addresses of the allocation, as a range of the map. -/
def span (x : Allocation) : PmmMapEntry := ⟨x.address, x.pageCount * ptmPageGranularity, x.type⟩

/-- The allocation holds the address `a`. -/
def Contains (x : Allocation) (a : Nat) : Prop := x.span.Contains a

instance (x : Allocation) (a : Nat) : Decidable (x.Contains a) :=
  inferInstanceAs (Decidable (x.span.Contains a))

end Allocation

/-- The allocator between two calls. -/
structure PmmState where
  map : PmmMap
  /-- The allocations that are out, the latest first. -/
  held : List Allocation

/-- A call of the allocator. -/
inductive PmmCall where
  /-- `pmm_alloc_ext`. -/
  | allocExt (pageCount alignment : Nat) (type : PmmMapType)
  /-- `pmm_alloc`. -/
  | alloc (pageCount : Nat)
  /-- `pmm_free` of the `k`-th allocation that is out. -/
  | free (k : Nat)

namespace PmmState

/-- The allocator after a block was handed out. -/
def hand (s : PmmState) (pageCount : Nat) (type : PmmMapType) (r : Nat × PmmMap) : PmmState :=
  ⟨r.2, ⟨r.1, pageCount, type⟩ :: s.held⟩

/-- One call. -/
def call (s : PmmState) : PmmCall → Except Stop PmmState
  | .allocExt n alignment type => (pmmAllocExt s.map n alignment type).map (s.hand n type)
  | .alloc n => (pmmAlloc s.map n).map (s.hand n .allocated)
  | .free k =>
    match s.held[k]? with
    | some x => (pmmFree s.map x.address x.pageCount).map fun m ↦ ⟨m, s.held.eraseIdx k⟩
    | none => .ok s

/-- A request that `pmm_alloc_ext` can be asked to serve: nothing wraps, and the type is not the
one that means "not allocated". -/
def Serves (s : PmmState) (pageCount alignment : Nat) (type : PmmMapType) : Prop :=
  1 ≤ alignment ∧ type ≠ .free ∧ pageCount * ptmPageGranularity < 2 ^ 64 ∧
    ∀ e ∈ s.map.live, e.type = .free → e.base + alignment - 1 < 2 ^ 64

instance (s : PmmState) (pageCount alignment : Nat) (type : PmmMapType) :
    Decidable (s.Serves pageCount alignment type) :=
  inferInstanceAs (Decidable (_ ∧ _))

/-- The calls a run makes: there is room in the array, and what is freed is out. -/
def Admits (s : PmmState) (c : PmmCall) : Prop :=
  s.map.size < pmmMapMaxEntries ∧
    match c with
    | .allocExt n alignment type => s.Serves n alignment type
    | .alloc n => s.Serves n ptmPageGranularity .allocated
    | .free k => k < s.held.length

instance (s : PmmState) : (c : PmmCall) → Decidable (s.Admits c)
  | .allocExt n alignment type => inferInstanceAs (Decidable (_ ∧ s.Serves n alignment type))
  | .alloc n => inferInstanceAs (Decidable (_ ∧ s.Serves n ptmPageGranularity .allocated))
  | .free _ => inferInstanceAs (Decidable (_ ∧ _ < _))

/-- The state after a sequence of calls, if each of them is admitted and returns. -/
def run (s : PmmState) : List PmmCall → Option PmmState
  | [] => some s
  | c :: cs => if s.Admits c then (s.call c).toOption.bind (·.run cs) else none

/-- What every run keeps; `C` is what the firmware listed. -/
structure Inv (C : Nat → Prop) (s : PmmState) : Prop where
  wf : s.map.Wf
  covers : ∀ a, typeAt s.map.live a ≠ none ↔ C a
  typed : ∀ x ∈ s.held, ∀ a, x.Contains a → typeAt s.map.live a = some x.type
  not_free : ∀ x ∈ s.held, x.type ≠ .free
  bound : ∀ x ∈ s.held, x.address < 2 ^ 64 ∧ x.pageCount * ptmPageGranularity < 2 ^ 64
  within : ∀ x ∈ s.held, 0 < x.span.length → Within s.map.live x.span.base x.span.stop
  apart : s.held.Pairwise fun x y ↦ ∀ a, x.Contains a → ¬ y.Contains a

/-- What is written down about a call that hands out a block of `n` pages at `a`. -/
structure Handed (s s' : PmmState) (n alignment : Nat) (type : PmmMapType) (a : Nat) : Prop where
  held : s'.held = ⟨a, n, type⟩ :: s.held
  aligned : alignment ∣ a
  was_free : ∀ b, (⟨a, n, type⟩ : Allocation).Contains b → typeAt s.map.live b = some .free
  disjoint : ∀ x ∈ s.held, ∀ b, x.Contains b → ¬ (⟨a, n, type⟩ : Allocation).Contains b
  typeAt_eq : ∀ b, typeAt s'.map.live b =
    if (⟨a, n, type⟩ : Allocation).Contains b then some type else typeAt s.map.live b

/-- What is written down about a call that takes back the allocation `x`. -/
structure TakenBack (s s' : PmmState) (k : Nat) (x : Allocation) : Prop where
  was_held : s.held[k]? = some x
  held : s'.held = s.held.eraseIdx k
  was_typed : ∀ b, x.Contains b → typeAt s.map.live b = some x.type
  typeAt_eq : ∀ b, typeAt s'.map.live b =
    if x.Contains b then some .free else typeAt s.map.live b

/-- How a call can end. -/
def Ends (s : PmmState) (c : PmmCall) : Except Stop PmmState → Prop
  | .error e => ∃ fmt, e = .panic fmt []
  | .ok s' =>
    match c with
    | .allocExt n alignment type => ∃ a, Handed s s' n alignment type a
    | .alloc n => ∃ a, Handed s s' n ptmPageGranularity .allocated a
    | .free k => ∃ x, TakenBack s s' k x

/-- What a caller can see: the live entries, and what is out. -/
def view (s : PmmState) : List PmmMapEntry × List Allocation := (s.map.live, s.held)

/-- The state with the dead slots of the array cleared. -/
def scrub (s : PmmState) : PmmState := { s with map := s.map.scrub }

/-! ## What one call does -/

section Calls

variable {C : Nat → Prop} {s : PmmState} {m' : PmmMap} {base stop : Nat} {type : PmmMapType}

/-- An update of addresses that are covered already covers nothing new. -/
theorem Inv.covers_overwrite (h : s.Inv C)
    (ht : typeAt m'.live = overwrite (typeAt s.map.live) base stop fun _ ↦ type)
    (hc : ∀ a, base ≤ a → a < stop → typeAt s.map.live a ≠ none) (a : Nat) :
    typeAt m'.live a ≠ none ↔ C a := by
  rw [← h.covers a, ht]
  by_cases ha : base ≤ a ∧ a < stop
  · rw [overwrite_of_mem ha.1 ha.2]
    simp [hc a ha.1 ha.2]
  · rw [overwrite_of_not_mem ha]

/-- An allocation that is out does not notice an update elsewhere. -/
theorem Inv.kept (h : s.Inv C)
    (ht : typeAt m'.live = overwrite (typeAt s.map.live) base stop fun _ ↦ type)
    (hk : ∀ p q, p < q → (∀ a, p ≤ a → a < q → ¬ (base ≤ a ∧ a < stop)) →
      Within s.map.live p q → Within m'.live p q)
    {x : Allocation} (hx : x ∈ s.held) (hd : ∀ a, x.Contains a → ¬ (base ≤ a ∧ a < stop)) :
    (∀ a, x.Contains a → typeAt m'.live a = some x.type) ∧
      (0 < x.span.length → Within m'.live x.span.base x.span.stop) := by
  refine ⟨fun a ha ↦ ?_, fun hp ↦ ?_⟩
  · rw [ht, overwrite_of_not_mem (hd a ha)]
    exact h.typed x hx a ha
  · refine hk _ _ (by simp only [Span.stop]; omega) (fun a h1 h2 ↦ hd a ⟨h1, h2⟩) ?_
    exact h.within x hx hp

/-- **`pmm_alloc_ext`**, where its search ends inside a free entry: the block it hands out was free,
and becomes one more allocation. -/
theorem Inv.pmmAllocExt_found (h : s.Inv C) {n alignment : Nat} (htype : type ≠ .free)
    (hn : n * ptmPageGranularity < 2 ^ 64)
    (hfound : ∀ u, allocFit s.map (n * ptmPageGranularity) alignment s.map.size 0 = some u →
      FoundIn s.map (n * ptmPageGranularity) alignment u) :
    (∃ r, pmmAllocExt s.map n alignment type = .ok r ∧ (s.hand n type r).Inv C ∧
      Handed s (s.hand n type r) n alignment type r.1) ∨
    ∃ e, pmmAllocExt s.map n alignment type = .error e ∧ AllocStop s.map e := by
  rw [pmmAllocExt, mul64_eq hn]
  cases hfit : allocFit s.map (n * ptmPageGranularity) alignment s.map.size 0 with
  | none => exact Or.inr ⟨_, rfl, Or.inl ⟨_, rfl⟩⟩
  | some u =>
    obtain ⟨e, he, hfree, h1, h2, h3, hdvd⟩ := hfound u hfit
    have hestop := h.wf.bound e he
    have hwas : ∀ b, (⟨u, n, type⟩ : Allocation).Contains b →
        typeAt s.map.live b = some .free := by
      intro b hb
      have : e.Contains b := ⟨h1.trans hb.1, hb.2.trans_le h3⟩
      rw [h.wf.tiled.typeAt_of_within he this, hfree]
    have hdisj : ∀ x ∈ s.held, ∀ b, x.Contains b → ¬ (⟨u, n, type⟩ : Allocation).Contains b := by
      intro x hx b hxb hb
      have htb := h.typed x hx b hxb
      rw [hwas b hb] at htb
      exact h.not_free x hx (Option.some.inj htb).symm
    rcases pmmMapSet_force_within u (n * ptmPageGranularity) type h.wf (by omega)
      fun _ ↦ ⟨e, he, h1, h3⟩ with ⟨m', hm', hwf, ht, hk, hw⟩ | ⟨e', herr, hstop⟩
    swap
    · exact Or.inr ⟨e', by simp only [herr]; rfl, hstop⟩
    refine Or.inl ⟨(u, m'), by simp only [hm']; rfl, ?_, rfl, hdvd, hwas, hdisj, fun b ↦ ?_⟩
    · have hkept := fun x (hx : x ∈ s.held) ↦ h.kept ht hk hx fun a hxa ↦ hdisj x hx a hxa
      exact
        { wf := hwf
          covers := h.covers_overwrite ht fun a h1 h2 ↦ by rw [hwas a ⟨h1, h2⟩]; simp
          typed := by
            rintro x hx
            rcases List.mem_cons.mp hx with rfl | hx
            · intro a hxa
              show typeAt m'.live a = _
              rw [ht]
              exact overwrite_of_mem hxa.1 hxa.2
            · exact (hkept x hx).1
          not_free := by
            rintro x hx
            rcases List.mem_cons.mp hx with rfl | hx
            · exact htype
            · exact h.not_free x hx
          bound := by
            rintro x hx
            rcases List.mem_cons.mp hx with rfl | hx
            · exact ⟨by show u < _; omega, hn⟩
            · exact h.bound x hx
          within := by
            rintro x hx
            rcases List.mem_cons.mp hx with rfl | hx
            · exact hw
            · exact (hkept x hx).2
          apart := List.pairwise_cons.mpr ⟨fun x hx a hxa hxb ↦ hdisj x hx a hxb hxa, h.apart⟩ }
    · show typeAt m'.live b = _
      rw [ht]
      rfl

/-- **`pmm_alloc_ext`**, on a request it can be asked to serve. -/
theorem Inv.pmmAllocExt_spec (h : s.Inv C) {n alignment : Nat}
    (hs : s.Serves n alignment type) :
    (∃ r, pmmAllocExt s.map n alignment type = .ok r ∧ (s.hand n type r).Inv C ∧
      Handed s (s.hand n type r) n alignment type r.1) ∨
    ∃ e, pmmAllocExt s.map n alignment type = .error e ∧ AllocStop s.map e :=
  h.pmmAllocExt_found hs.2.1 hs.2.2.1 fun _ hu ↦ allocFit_spec h.wf hs.1 hs.2.2.2 (by omega) hu

/-- **`pmm_free`** of an allocation that is out: its addresses, and no others, are free again. -/
theorem Inv.pmmFree_spec (h : s.Inv C) {k : Nat} {x : Allocation}
    (hx : s.held[k]? = some x) :
    (∃ m', pmmFree s.map x.address x.pageCount = .ok m' ∧
      PmmState.Inv C ⟨m', s.held.eraseIdx k⟩ ∧ TakenBack s ⟨m', s.held.eraseIdx k⟩ k x) ∨
    ∃ e, pmmFree s.map x.address x.pageCount = .error e ∧ AllocStop s.map e := by
  have hmem : x ∈ s.held := List.mem_of_getElem? hx
  obtain ⟨ha, hn⟩ := h.bound x hmem
  rw [pmmFree, mul64_eq hn]
  rcases pmmMapSet_force_within x.address (x.pageCount * ptmPageGranularity) .free h.wf ha
    (h.within x hmem) with ⟨m', hm', hwf, ht, hk, -⟩ | ⟨e, herr, hstop⟩
  swap
  · exact Or.inr ⟨e, herr, hstop⟩
  refine Or.inl ⟨m', hm', ?_, hx, rfl, h.typed x hmem, fun b ↦ by rw [ht]; rfl⟩
  -- the allocations that stay out are apart from the one taken back
  have hapart : ∀ y ∈ s.held.eraseIdx k, ∀ a, y.Contains a → ¬ x.Contains a := by
    obtain ⟨hk', rfl⟩ := List.getElem?_eq_some_iff.mp hx
    have hp := h.apart
    rw [← List.take_append_drop k s.held, List.drop_eq_getElem_cons hk', List.pairwise_append,
      List.pairwise_cons] at hp
    intro y hy a hya hxa
    rw [List.eraseIdx_eq_take_drop_succ, List.mem_append] at hy
    rcases hy with hy | hy
    · exact hp.2.2 y hy _ List.mem_cons_self a hya hxa
    · exact hp.2.1.1 y hy a hxa hya
  have hsub : ∀ y ∈ s.held.eraseIdx k, y ∈ s.held := fun y hy ↦ List.mem_of_mem_eraseIdx hy
  have hkept := fun y (hy : y ∈ s.held.eraseIdx k) ↦
    h.kept ht hk (hsub y hy) fun a hya ↦ hapart y hy a hya
  exact
    { wf := hwf
      covers := h.covers_overwrite ht fun a h1 h2 ↦ by rw [h.typed x hmem a ⟨h1, h2⟩]; simp
      typed := fun y hy ↦ (hkept y hy).1
      not_free := fun y hy ↦ h.not_free y (hsub y hy)
      bound := fun y hy ↦ h.bound y (hsub y hy)
      within := fun y hy ↦ (hkept y hy).2
      apart := h.apart.sublist (List.eraseIdx_sublist _ _) }

/-- The block `pmm_alloc_ext` hands out, and what it does to the live entries, are the same with
the dead slots cleared. -/
theorem Inv.pmmAllocExt_scrub (h : s.Inv C) {n alignment : Nat}
    (hs : s.Serves n alignment type) :
    (pmmAllocExt s.map n alignment type).map (Prod.map id live) =
      (pmmAllocExt s.map.scrub n alignment type).map (Prod.map id live) := by
  obtain ⟨ha, -, hn, hround⟩ := hs
  rw [pmmAllocExt, pmmAllocExt, mul64_eq hn]
  have hfit := allocFit_congr (scrub_live s.map).symm (n * ptmPageGranularity) alignment
    s.map.size 0 (by omega)
  rw [show s.map.scrub.size = s.map.size from rfl, ← hfit]
  cases hu : allocFit s.map (n * ptmPageGranularity) alignment s.map.size 0 with
  | none => rfl
  | some u =>
    obtain ⟨e, he, -, h1, h2, h3, -⟩ := allocFit_spec h.wf ha hround (by omega) hu
    have hestop := h.wf.bound e he
    have hset : (pmmMapSet s.map u (n * ptmPageGranularity) type true).map live =
        (pmmMapSet s.map.scrub u (n * ptmPageGranularity) type true).map live := by
      rcases Nat.eq_zero_or_pos (n * ptmPageGranularity) with hz | hp
      · rw [hz, pmmMapSet_zero h.wf (by omega), pmmMapSet_zero h.wf.scrub (by omega)]
        exact congrArg Except.ok (scrub_live s.map).symm
      · exact pmmMapSet_live h.wf h.wf.scrub (scrub_live s.map).symm hp ⟨e, he, h1, h3⟩
    have hpair : ∀ r : Except Stop PmmMap,
        (r.bind fun m ↦ .ok (u, m)).map (Prod.map id live) = (r.map live).map fun l ↦ (u, l) := by
      intro r
      cases r <;> rfl
    exact (hpair _).trans ((congrArg _ hset).trans (hpair _).symm)

theorem Inv.pmmFree_scrub (h : s.Inv C) {x : Allocation} (hx : x ∈ s.held) :
    (pmmFree s.map x.address x.pageCount).map live =
      (pmmFree s.map.scrub x.address x.pageCount).map live := by
  obtain ⟨ha, hn⟩ := h.bound x hx
  rw [pmmFree, pmmFree, mul64_eq hn]
  rcases Nat.eq_zero_or_pos (x.pageCount * ptmPageGranularity) with hz | hp
  · rw [hz, pmmMapSet_zero h.wf ha, pmmMapSet_zero h.wf.scrub ha]
    exact congrArg Except.ok (scrub_live s.map).symm
  · exact pmmMapSet_live h.wf h.wf.scrub (scrub_live s.map).symm hp (h.within x hx hp)

end Calls

/-! ## What holds in every run -/

/-- Both kinds of allocation end alike. -/
theorem ends_hand {C : Nat → Prop} {s : PmmState} {n alignment : Nat} {type : PmmMapType}
    (h : s.Inv C) (hsize : s.map.size < pmmMapMaxEntries) (hs : s.Serves n alignment type) :
    (∃ u, (pmmAllocExt s.map n alignment type).map (s.hand n type) = .ok u ∧ u.Inv C ∧
      ∃ a, Handed s u n alignment type a) ∨
    ∃ fmt, (pmmAllocExt s.map n alignment type).map (s.hand n type) = .error (.panic fmt []) := by
  rcases h.pmmAllocExt_spec hs with ⟨r, hr, hinv, hh⟩ | ⟨e, herr, hstop⟩
  · exact Or.inl ⟨_, by rw [hr]; rfl, hinv, r.1, hh⟩
  · obtain ⟨fmt, rfl⟩ := hstop.panic hsize
    exact Or.inr ⟨fmt, by rw [herr]; rfl⟩

/-- One call keeps the invariant and ends as it should. -/
theorem Inv.call {C : Nat → Prop} {s : PmmState} (h : s.Inv C) {c : PmmCall} (ha : s.Admits c) :
    s.Ends c (s.call c) ∧ ∀ u, s.call c = .ok u → u.Inv C := by
  obtain ⟨hsize, hc⟩ := ha
  cases c with
  | allocExt n alignment type =>
    rw [PmmState.call]
    rcases ends_hand h hsize hc with ⟨u, hu, hinv, hh⟩ | ⟨fmt, herr⟩
    · rw [hu]
      exact ⟨hh, fun v hv ↦ by rw [← Except.ok.inj hv]; exact hinv⟩
    · rw [herr]
      exact ⟨⟨fmt, rfl⟩, fun v hv ↦ by cases hv⟩
  | alloc n =>
    rw [PmmState.call, pmmAlloc]
    rcases ends_hand h hsize hc with ⟨u, hu, hinv, hh⟩ | ⟨fmt, herr⟩
    · rw [hu]
      exact ⟨hh, fun v hv ↦ by rw [← Except.ok.inj hv]; exact hinv⟩
    · rw [herr]
      exact ⟨⟨fmt, rfl⟩, fun v hv ↦ by cases hv⟩
  | free k =>
    have hk : s.held[k]? = some s.held[k] := List.getElem?_eq_getElem hc
    rw [PmmState.call, hk]
    rcases h.pmmFree_spec hk with ⟨m', hm', hinv, ht⟩ | ⟨e, herr, hstop⟩
    · simp only [hm']
      exact ⟨⟨_, ht⟩, fun v hv ↦ by rw [← Except.ok.inj hv]; exact hinv⟩
    · obtain ⟨fmt, rfl⟩ := hstop.panic hsize
      simp only [herr]
      exact ⟨⟨fmt, rfl⟩, fun v hv ↦ by cases hv⟩

/-- A caller cannot tell whether the dead slots were cleared. -/
theorem Inv.call_scrub {C : Nat → Prop} {s : PmmState} (h : s.Inv C) {c : PmmCall}
    (ha : s.Admits c) : (s.call c).map view = (s.scrub.call c).map view := by
  obtain ⟨hsize, hc⟩ := ha
  have hview : ∀ (n : Nat) (type : PmmMapType) (r : Except Stop (Nat × PmmMap)),
      (r.map (s.hand n type)).map view = (r.map (Prod.map id live)).map
        fun p ↦ (p.2, (⟨p.1, n, type⟩ : Allocation) :: s.held) := by
    intro n type r
    cases r <;> rfl
  have hscrub : ∀ (n : Nat) (type : PmmMapType), s.scrub.hand n type = s.hand n type :=
    fun _ _ ↦ rfl
  cases c with
  | allocExt n alignment type =>
    rw [PmmState.call, PmmState.call, hscrub, hview, hview, h.pmmAllocExt_scrub hc]
    rfl
  | alloc n =>
    rw [PmmState.call, PmmState.call, hscrub, hview, hview, pmmAlloc, pmmAlloc,
      h.pmmAllocExt_scrub hc]
    rfl
  | free k =>
    have hk : s.held[k]? = some s.held[k] := List.getElem?_eq_getElem hc
    have hfree := h.pmmFree_scrub (List.mem_of_getElem? hk)
    rw [PmmState.call, PmmState.call, show s.scrub.held = s.held from rfl, hk]
    show Except.map view (Except.map _ _) = Except.map view (Except.map _ (pmmFree s.map.scrub _ _))
    have hmap : ∀ r : Except Stop PmmMap,
        (r.map fun m ↦ (⟨m, s.held.eraseIdx k⟩ : PmmState)).map view =
          (r.map live).map fun l ↦ (l, s.held.eraseIdx k) := by
      intro r
      cases r <;> rfl
    rw [hmap, hmap, hfree]

/-- The map the firmware's ranges make, with nothing handed out. -/
theorem Inv.start {l : List PmmMapEntry} (hl : Ranges l) {m : PmmMap}
    (hm : addAll .empty l = .ok m) : PmmState.Inv (fun a ↦ ∃ r ∈ l, r.Contains a) ⟨m, []⟩ := by
  obtain ⟨hwf, hin, hout⟩ := addAll_spec hl Wf.empty (fun _ _ s hs ↦ by
    simp [PmmMap.empty, live] at hs) hm
  refine ⟨hwf, fun a ↦ ?_, by simp, by simp, by simp, by simp, List.Pairwise.nil⟩
  by_cases ha : ∃ r ∈ l, r.Contains a
  · obtain ⟨r, hr, hra⟩ := ha
    exact ⟨fun _ ↦ ⟨r, hr, hra⟩, fun _ ↦ by rw [hin r hr a hra]; simp⟩
  · have hno : ∀ r ∈ l, ¬ r.Contains a := fun r hr hra ↦ ha ⟨r, hr, hra⟩
    refine ⟨fun h ↦ absurd ?_ h, fun h ↦ absurd h ha⟩
    rw [hout a hno]
    simp [PmmMap.empty, live]

/-- The invariant holds at every point of a run. -/
theorem Inv.run {C : Nat → Prop} {s u : PmmState} (h : s.Inv C) {cs : List PmmCall}
    (hr : s.run cs = some u) : u.Inv C := by
  induction cs generalizing s with
  | nil =>
    cases hr
    exact h
  | cons c cs ih =>
    rw [PmmState.run] at hr
    split at hr
    · rename_i ha
      obtain ⟨t, ht, hrt⟩ := Option.bind_eq_some_iff.mp hr
      cases hc : s.call c with
      | ok t' =>
        rw [hc] at ht
        cases ht
        exact ih ((h.call ha).2 _ hc) hrt
      | error e =>
        rw [hc] at ht
        cases ht
    · cases hr

end PmmState

open PmmState in
/-- **Every run of the allocator.**  Fill the empty map with disjoint ranges and make any calls.
Then the live entries are non-empty, sorted and disjoint, they cover exactly what was added, no two
allocations that are out meet, and whichever call comes next returns what it should or panics —
whatever the dead slots hold. -/
theorem pmm_run {l : List PmmMapEntry} (hl : Ranges l) {m : PmmMap}
    (hm : addAll .empty l = .ok m) {cs : List PmmCall} {s : PmmState}
    (hr : PmmState.run ⟨m, []⟩ cs = some s) :
    Tiled s.map.live ∧ (s.map.live.Pairwise fun e f ↦ e.base < f.base) ∧
      (∀ a, typeAt s.map.live a ≠ none ↔ ∃ r ∈ l, r.Contains a) ∧
      (s.held.Pairwise fun x y ↦ ∀ a, x.Contains a → ¬ y.Contains a) ∧
      ∀ c, s.Admits c → s.Ends c (s.call c) ∧ (s.call c).map view = (s.scrub.call c).map view := by
  have h := (Inv.start hl hm).run hr
  exact ⟨h.wf.tiled, h.wf.tiled.sorted, h.covers, h.apart,
    fun c hc ↦ ⟨(h.call hc).1, h.call_scrub hc⟩⟩

/-- Two ranges listed out of order, two blocks handed out with an alignment of their own, and the
first of them taken back. -/
theorem pmm_run_two_blocks : ∃ m s,
    addAll .empty [⟨0x9000, 0x3000, .reserved⟩, ⟨0x1800, 0x7800, .free⟩] = .ok m ∧
      PmmState.run ⟨m, []⟩ [.allocExt 2 0x2000 .used, .allocExt 1 0x2000 .allocated, .free 1] =
        some s ∧
      s.held = [⟨0x4000, 1, .allocated⟩] ∧ Tiled s.map.live := by
  have h : ((addAll .empty [⟨0x9000, 0x3000, .reserved⟩, ⟨0x1800, 0x7800, .free⟩]).toOption.bind
      fun m ↦ PmmState.run ⟨m, []⟩
        [.allocExt 2 0x2000 .used, .allocExt 1 0x2000 .allocated, .free 1]).map PmmState.held =
      some [⟨0x4000, 1, .allocated⟩] := by decide +kernel
  obtain ⟨s, hs, hheld⟩ := Option.map_eq_some_iff.mp h
  obtain ⟨m, hm, hr⟩ := Option.bind_eq_some_iff.mp hs
  have hm' : addAll .empty [⟨0x9000, 0x3000, .reserved⟩, ⟨0x1800, 0x7800, .free⟩] = .ok m := by
    cases hk : addAll .empty [⟨0x9000, 0x3000, .reserved⟩, ⟨0x1800, 0x7800, .free⟩] with
    | ok k => rw [hk] at hm; cases hm; rfl
    | error e => rw [hk] at hm; cases hm
  exact ⟨m, s, hm', hr, hheld, (pmm_run ⟨by decide, by decide, by decide⟩ hm' hr).1⟩

end LunarPrekernel
