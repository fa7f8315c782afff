import LunarPrekernel.Pmm.SetSpec

/-!
# The firmware's ranges

Both front ends fill the empty map with one `pmm_map_add` for each range the firmware lists.  The
ranges may overlap, and an address that several of them cover is meant to end up with the largest
of their types.

* `addAll_typeAt` — as long as every range is clean when it is added, an address takes up the types
  of the ranges that cover it one after the other (`settle`).
* `firmware_map` — and so it ends up with the largest of them, in one entry, whatever the order.
* `addAll_spec` — ranges that do not meet at all are always clean.

`CleanRun` is the condition, one `Clean` for each range, on the map as it is when the range is
added.  Without it the claim fails: `firmware_map_flush` is a short list whose second range has an
endpoint in common with the first.
-/

set_option autoImplicit false

namespace LunarPrekernel

open SpanMap Span PmmMap

/-! ## Adding a list of ranges -/

/-- `pmm_map_add` on each range in turn. -/
def addAll (m : PmmMap) (l : List PmmMapEntry) : Except Stop PmmMap :=
  l.foldlM (fun m r ↦ pmmMapAdd m r.base r.length r.type) m

theorem addAll_nil (m : PmmMap) : addAll m [] = .ok m := rfl

theorem addAll_cons {m m' : PmmMap} {r : PmmMapEntry} {l : List PmmMapEntry}
    (h : addAll m (r :: l) = .ok m') :
    ∃ k, pmmMapAdd m r.base r.length r.type = .ok k ∧ addAll k l = .ok m' := by
  rw [addAll, List.foldlM_cons] at h
  cases hk : pmmMapAdd m r.base r.length r.type with
  | error e => rw [hk] at h; cases h
  | ok k => rw [hk] at h; exact ⟨k, rfl, h⟩

/-- Every range is clean when its turn comes. -/
def CleanRun (m : PmmMap) : List PmmMapEntry → Prop
  | [] => True
  | r :: l => (0 < r.length → Clean r.type false m.live r.base r.stop) ∧
    match pmmMapAdd m r.base r.length r.type with
    | .ok k => CleanRun k l
    | .error _ => True

instance : (m : PmmMap) → (l : List PmmMapEntry) → Decidable (CleanRun m l)
  | _, [] => inferInstanceAs (Decidable True)
  | m, r :: l =>
    have : Decidable (match pmmMapAdd m r.base r.length r.type with
        | .ok k => CleanRun k l
        | .error _ => True) :=
      match pmmMapAdd m r.base r.length r.type with
      | .ok k => instDecidableCleanRun k l
      | .error _ => inferInstanceAs (Decidable True)
    inferInstanceAs (Decidable (_ ∧ _))

/-- The type of an address after one more range. -/
def take (r : PmmMapEntry) (a : Nat) (o : Option PmmMapType) : Option PmmMapType :=
  if r.Contains a then some (settle r.type false o) else o

/-- Adding one clean range. -/
theorem pmmMapAdd_spec {m m' : PmmMap} {r : PmmMapEntry} (h : m.Wf) (hb : r.stop < 2 ^ 64)
    (hc : 0 < r.length → Clean r.type false m.live r.base r.stop)
    (hm' : pmmMapAdd m r.base r.length r.type = .ok m') :
    m'.Wf ∧ ∀ a, typeAt m'.live a = take r a (typeAt m.live a) := by
  rw [pmmMapAdd] at hm'
  split at hm'
  · rename_i hz
    cases hm'
    refine ⟨h, fun a ↦ (if_neg fun hc ↦ ?_).symm⟩
    simp only [Contains, Span.stop] at hc; omega
  · have hlt : r.base < r.stop := by simp only [Span.stop]; omega
    have hspec := pmmMapSet_spec r.type false h rfl hlt hb (hc (by omega))
    rw [show r.base + r.length = r.stop from rfl, hm'] at hspec
    exact ⟨hspec.wf, fun a ↦ congrFun hspec.typeAt_eq a⟩

/-- **Clean ranges settle one after the other.** -/
theorem addAll_typeAt {l : List PmmMapEntry} {m m' : PmmMap} (h : m.Wf)
    (hb : ∀ r ∈ l, r.stop < 2 ^ 64) (hc : CleanRun m l) (hm' : addAll m l = .ok m') :
    m'.Wf ∧ ∀ a, typeAt m'.live a = l.foldl (fun o r ↦ take r a o) (typeAt m.live a) := by
  induction l generalizing m with
  | nil =>
    cases hm'
    exact ⟨h, fun _ ↦ rfl⟩
  | cons r l ih =>
    obtain ⟨k, hk, hkl⟩ := addAll_cons hm'
    rw [CleanRun, hk] at hc
    obtain ⟨hwf, ht⟩ := pmmMapAdd_spec h (hb r (by simp)) hc.1 hk
    obtain ⟨hwf', ht'⟩ := ih hwf (fun s hs ↦ hb s (by simp [hs])) hc.2 hkl
    refine ⟨hwf', fun a ↦ ?_⟩
    rw [ht', ht, List.foldl_cons]

/-! ## The largest type -/

/-- `t` is the largest type of the ranges of `l` that cover `a`. -/
def Top (l : List PmmMapEntry) (a : Nat) (t : PmmMapType) : Prop :=
  (∃ r ∈ l, r.Contains a ∧ r.type = t) ∧ ∀ r ∈ l, r.Contains a → r.type.val ≤ t.val

theorem Top.unique {l k : List PmmMapEntry} {a : Nat} {t u : PmmMapType} (hlk : k.Perm l)
    (ht : Top l a t) (hu : Top k a u) : t = u := by
  obtain ⟨⟨r, hr, hra, rfl⟩, hmax⟩ := ht
  obtain ⟨⟨s, hs, hsa, rfl⟩, hmax'⟩ := hu
  have h1 := hmax s (hlk.mem_iff.mp hs) hsa
  have h2 := hmax' r (hlk.mem_iff.mpr hr) hra
  exact PmmMapType.val_injective (le_antisymm h2 h1)

/-- Of the type an address has and the type of a range, the larger one stays. -/
theorem settle_val (type old : PmmMapType) :
    (settle type false (some old)).val = max old.val type.val := by
  rw [settle, overrides, Bool.or_false]
  split <;> rename_i h <;> simp only [decide_eq_true_eq] at h <;> omega

/-- Settling from `o` on gives the largest of `o` and the types that come. -/
theorem foldl_take {l : List PmmMapEntry} {a : Nat} {o : Option PmmMapType} {t : PmmMapType}
    (h : l.foldl (fun o r ↦ take r a o) o = some t) :
    (o = some t ∨ ∃ r ∈ l, r.Contains a ∧ r.type = t) ∧
      (∀ u, o = some u → u.val ≤ t.val) ∧ ∀ r ∈ l, r.Contains a → r.type.val ≤ t.val := by
  induction l generalizing o with
  | nil =>
    refine ⟨Or.inl h, fun u hu ↦ ?_, by simp⟩
    rw [show o = some t from h] at hu
    exact (congrArg PmmMapType.val (Option.some.inj hu)).ge
  | cons r l ih =>
    rw [List.foldl_cons] at h
    obtain ⟨hfrom, hmax, hl⟩ := ih h
    rw [take] at hfrom hmax
    by_cases hr : r.Contains a
    · rw [if_pos hr] at hfrom hmax
      have hs := hmax _ rfl
      cases o with
      | none =>
        refine ⟨Or.inr ?_, by simp, fun s hs' hsa ↦ ?_⟩
        · rcases hfrom with hfrom | ⟨s, hs', hsa⟩
          · exact ⟨r, by simp, hr, Option.some.inj hfrom⟩
          · exact ⟨s, by simp [hs'], hsa⟩
        · rcases List.mem_cons.mp hs' with rfl | hs'
          · exact hs
          · exact hl s hs' hsa
      | some old =>
        rw [settle_val] at hs
        refine ⟨?_, fun u hu ↦ ?_, fun s hs' hsa ↦ ?_⟩
        · rcases hfrom with hfrom | ⟨s, hs', hsa⟩
          · rw [settle] at hfrom
            split at hfrom
            · exact Or.inr ⟨r, by simp, hr, Option.some.inj hfrom⟩
            · exact Or.inl hfrom
          · exact Or.inr ⟨s, by simp [hs'], hsa⟩
        · cases hu
          exact (le_max_left _ _).trans hs
        · rcases List.mem_cons.mp hs' with rfl | hs'
          · exact (le_max_right _ _).trans hs
          · exact hl s hs' hsa
    · rw [if_neg hr] at hfrom hmax
      refine ⟨?_, hmax, fun s hs hsa ↦ ?_⟩
      · rcases hfrom with hfrom | ⟨s, hs, hsa⟩
        · exact Or.inl hfrom
        · exact Or.inr ⟨s, by simp [hs], hsa⟩
      · rcases List.mem_cons.mp hs with rfl | hs
        · exact absurd hsa hr
        · exact hl s hs hsa

theorem foldl_take_eq_none {l : List PmmMapEntry} {a : Nat} :
    l.foldl (fun o r ↦ take r a o) none = none ↔ ∀ r ∈ l, ¬ r.Contains a := by
  induction l with
  | nil => simp
  | cons r l ih =>
    rw [List.foldl_cons, List.forall_mem_cons, take]
    by_cases hr : r.Contains a
    · rw [if_pos hr]
      refine ⟨fun h ↦ ?_, fun h ↦ absurd hr h.1⟩
      have : ∀ (k : List PmmMapEntry) (t : PmmMapType),
          k.foldl (fun o r ↦ take r a o) (some t) ≠ none := by
        intro k
        induction k with
        | nil => simp
        | cons s k ih =>
          intro t
          rw [List.foldl_cons, take]
          split
          · exact ih _
          · exact ih _
      exact absurd h (this _ _)
    · rw [if_neg hr, ih]
      exact ⟨fun h ↦ ⟨hr, h⟩, fun h ↦ h.2⟩

/-- The map `m` shows the ranges `l` as it is meant to. -/
structure FirmwareMap (l : List PmmMapEntry) (m : PmmMap) : Prop where
  tiled : Tiled m.live
  sorted : m.live.Pairwise fun e f ↦ e.base < f.base
  /-- A covered address lies in exactly one entry, which has the largest type. -/
  covered : ∀ a, (∃ r ∈ l, r.Contains a) →
    ∃ e, (e ∈ m.live ∧ e.Contains a ∧ ∀ f ∈ m.live, f.Contains a → f = e) ∧ Top l a e.type
  /-- No other address lies in an entry. -/
  uncovered : ∀ a, (∀ r ∈ l, ¬ r.Contains a) → ∀ e ∈ m.live, ¬ e.Contains a

/-- From the empty map, an address ends up with the largest type, or with none. -/
theorem addAll_top {l : List PmmMapEntry} (hb : ∀ r ∈ l, r.stop < 2 ^ 64)
    (hc : CleanRun .empty l) {m : PmmMap} (hm : addAll .empty l = .ok m) :
    m.Wf ∧ (∀ a t, typeAt m.live a = some t → Top l a t) ∧
      ∀ a, typeAt m.live a = none ↔ ∀ r ∈ l, ¬ r.Contains a := by
  obtain ⟨hwf, ht⟩ := addAll_typeAt Wf.empty hb hc hm
  have hempty : ∀ a, typeAt PmmMap.empty.live a = none := fun a ↦ by simp [PmmMap.empty, live]
  refine ⟨hwf, fun a t hat ↦ ?_, fun a ↦ ?_⟩
  · rw [ht, hempty] at hat
    obtain ⟨hfrom, -, hmax⟩ := foldl_take hat
    exact ⟨hfrom.resolve_left (by simp), hmax⟩
  · rw [ht, hempty]
    exact foldl_take_eq_none

/-- **The firmware's map.**  If every range is clean when its turn comes, the map has the largest
type everywhere, and any other order that is clean as well gives the same types. -/
theorem firmware_map {l : List PmmMapEntry} (hb : ∀ r ∈ l, r.stop < 2 ^ 64)
    (hc : CleanRun .empty l) {m : PmmMap} (hm : addAll .empty l = .ok m) :
    FirmwareMap l m ∧ ∀ l' m', l'.Perm l → CleanRun .empty l' → addAll .empty l' = .ok m' →
      ∀ a, typeAt m'.live a = typeAt m.live a := by
  obtain ⟨hwf, htop, hnone⟩ := addAll_top hb hc hm
  refine ⟨⟨hwf.tiled, hwf.tiled.sorted, fun a ha ↦ ?_, fun a ha ↦ ?_⟩, ?_⟩
  · have hne : typeAt m.live a ≠ none := fun h ↦ by
      obtain ⟨r, hr, hra⟩ := ha
      exact (hnone a).mp h r hr hra
    obtain ⟨e, he, hea⟩ := typeAt_isSome.mp hne
    exact ⟨e, ⟨he, hea, fun f hf hfa ↦ hwf.tiled.unique hf he hfa hea⟩,
      htop a _ (hwf.tiled.typeAt_of_within he hea)⟩
  · exact typeAt_eq_none.mp ((hnone a).mpr ha)
  · intro l' m' hp hc' hm' a
    obtain ⟨-, htop', hnone'⟩ := addAll_top (fun r hr ↦ hb r (hp.mem_iff.mp hr)) hc' hm'
    cases hat : typeAt m.live a with
    | none =>
      rw [hnone']
      exact fun r hr ↦ (hnone a).mp hat r (hp.mem_iff.mp hr)
    | some t =>
      cases hat' : typeAt m'.live a with
      | none =>
        obtain ⟨r, hr, hra, -⟩ := (htop a t hat).1
        exact absurd hra ((hnone' a).mp hat' r (hp.mem_iff.mpr hr))
      | some u => rw [(htop a t hat).unique hp (htop' a u hat')]

/-- A list with overlaps on which every range is clean: the second range reaches into the first and
past it, and the third lies in both. -/
theorem firmware_map_overlap : ∃ m,
    addAll .empty [⟨0x1000, 0x3000, .free⟩, ⟨0x3000, 0x2000, .reserved⟩,
      ⟨0x2000, 0x2000, .acpiNvs⟩] = .ok m ∧
    FirmwareMap [⟨0x1000, 0x3000, .free⟩, ⟨0x3000, 0x2000, .reserved⟩,
      ⟨0x2000, 0x2000, .acpiNvs⟩] m := by
  have h : (addAll .empty [⟨0x1000, 0x3000, .free⟩, ⟨0x3000, 0x2000, .reserved⟩,
      ⟨0x2000, 0x2000, .acpiNvs⟩]).isOk = true := by decide +kernel
  cases hm : addAll .empty [⟨0x1000, 0x3000, .free⟩, ⟨0x3000, 0x2000, .reserved⟩,
      ⟨0x2000, 0x2000, .acpiNvs⟩] with
  | error e => rw [hm] at h; cases h
  | ok m => exact ⟨m, rfl, (firmware_map (by decide) (by decide +kernel) hm).1⟩

/-- **Two ranges with one endpoint in common.**  The free range begins where the reserved one does,
so it passes every test of the loop, and the reserved one is inserted over it. -/
theorem firmware_map_flush : ∃ m,
    addAll .empty [⟨0x1000, 0x1000, .free⟩, ⟨0x1000, 0x2000, .reserved⟩] = .ok m ∧
      m.live = [⟨0x1000, 0x1000, .free⟩, ⟨0x1000, 0x2000, .reserved⟩] ∧
      ¬ FirmwareMap [⟨0x1000, 0x1000, .free⟩, ⟨0x1000, 0x2000, .reserved⟩] m := by
  have h : (addAll .empty [⟨0x1000, 0x1000, .free⟩, ⟨0x1000, 0x2000, .reserved⟩]).toOption.map
      live = some [⟨0x1000, 0x1000, .free⟩, ⟨0x1000, 0x2000, .reserved⟩] := by decide +kernel
  cases hm : addAll .empty [⟨0x1000, 0x1000, .free⟩, ⟨0x1000, 0x2000, .reserved⟩] with
  | error e => rw [hm] at h; cases h
  | ok m =>
    rw [hm] at h
    have hlive : m.live = [⟨0x1000, 0x1000, .free⟩, ⟨0x1000, 0x2000, .reserved⟩] :=
      Option.some.inj h
    refine ⟨m, rfl, hlive, fun hmap ↦ ?_⟩
    have hs := hmap.sorted
    rw [hlive] at hs
    exact absurd hs (by decide)

/-! ## Ranges that do not meet -/

/-- The ranges are non-empty, end below `2 ^ 64`, and no two of them meet. -/
structure Ranges (l : List PmmMapEntry) : Prop where
  pos : ∀ r ∈ l, 0 < r.length
  bound : ∀ r ∈ l, r.stop < 2 ^ 64
  disjoint : l.Pairwise fun r s ↦ r.Clear s.base s.stop

/-- A range that meets no entry is added as it is. -/
theorem pmmMapAdd_clear {m m' : PmmMap} {r : PmmMapEntry} (h : m.Wf) (hp : 0 < r.length)
    (hb : r.stop < 2 ^ 64) (hc : ∀ s ∈ m.live, s.Clear r.base r.stop)
    (hm' : pmmMapAdd m r.base r.length r.type = .ok m') :
    m'.Wf ∧ typeAt m'.live = overwrite (typeAt m.live) r.base r.stop fun _ ↦ r.type := by
  have hlt : r.base < r.stop := by simp only [Span.stop]; omega
  have hspec := pmmMapSet_spec r.type false h rfl hlt hb
    (clean_of_clear h.tiled hlt hc)
  rw [pmmMapAdd, if_neg (by omega)] at hm'
  rw [hm'] at hspec
  exact ⟨hspec.wf, hspec.typeAt_eq.trans (setResult_of_clear hc)⟩

/-- **Adding disjoint ranges** gives a well-formed map with exactly those ranges and types. -/
theorem addAll_spec {l : List PmmMapEntry} (hl : Ranges l) {m m' : PmmMap} (h : m.Wf)
    (hc : ∀ r ∈ l, ∀ s ∈ m.live, s.Clear r.base r.stop) (hm' : addAll m l = .ok m') :
    m'.Wf ∧ (∀ r ∈ l, ∀ a, r.Contains a → typeAt m'.live a = some r.type) ∧
      ∀ a, (∀ r ∈ l, ¬ r.Contains a) → typeAt m'.live a = typeAt m.live a := by
  induction l generalizing m with
  | nil =>
    cases hm'
    exact ⟨h, by simp, fun _ _ ↦ rfl⟩
  | cons r l ih =>
    obtain ⟨k, hk, hkl⟩ := addAll_cons hm'
    obtain ⟨hdr, hdl⟩ := List.pairwise_cons.mp hl.disjoint
    have hbr := hl.bound r (by simp)
    obtain ⟨hkwf, hkt⟩ := pmmMapAdd_clear h (hl.pos r (by simp)) hbr (hc r (by simp)) hk
    have hl' : Ranges l := ⟨fun s hs ↦ hl.pos s (by simp [hs]),
      fun s hs ↦ hl.bound s (by simp [hs]), hdl⟩
    have hck : ∀ s ∈ l, ∀ x ∈ k.live, x.Clear s.base s.stop := by
      intro s hs
      have hps := hl'.pos s hs
      refine hkwf.tiled.clear_of_typeAt (by simp only [Span.stop]; omega) fun a ha1 ha2 ↦ ?_
      have hrs := hdr s hs
      simp only [Clear] at hrs
      rw [hkt, overwrite_of_not_mem (by omega)]
      exact typeAt_eq_none_of_clear (hc s (by simp [hs])) ha1 ha2
    obtain ⟨hwf, hin, hout⟩ := ih hl' hkwf hck hkl
    refine ⟨hwf, fun s hs a ha ↦ ?_, fun a ha ↦ ?_⟩
    · rcases List.mem_cons.mp hs with rfl | hs
      · rw [hout a fun x hx hxa ↦ ?_, hkt, overwrite_of_mem ha.1 ha.2]
        have := hdr x hx
        simp only [Clear, Contains] at *; omega
      · exact hin s hs a ha
    · rw [hout a fun x hx ↦ ha x (by simp [hx]), hkt]
      exact overwrite_of_not_mem (ha r (by simp))

end LunarPrekernel
