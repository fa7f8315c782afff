import LunarPrekernel.Pmm.Paged

/-!
# Runs with any alignment and any count of pages

`PmmReach` collects the states of the allocator that calls lead to when nothing is known about where
ranges begin and end: ranges that are not in the table yet are added, blocks of any count of pages
are taken with any alignment, and allocations that are out are given back.

Two things about `pmm_alloc_ext` are the caller's business.  A count of pages whose length passes
`2 ^ 64` is cut to what fits in a word, and the same count gives back what was taken; so the
invariant of `LunarPrekernel.Pmm.Run` holds with the counts cut, see `PmmState.cut`.  And the base of
a free entry that lies in the last `alignment` bytes of the address space rounds up to 0: `RoundsUp`
asks that an earlier entry serves the request.
-/

set_option autoImplicit false

namespace LunarPrekernel

open SpanMap Span PmmMap

/-! ## The search, where rounding up can wrap -/

/-- The block fits into the entry behind its first aligned address, and rounding up to that does not
wrap. -/
def HasRoom (e : PmmMapEntry) (length alignment : Nat) : Prop :=
  e.base + alignment - 1 < 2 ^ 64 ∧ mathCeil e.base alignment < e.stop ∧
    mathCeil e.base alignment + length ≤ e.stop

instance (e : PmmMapEntry) (length alignment : Nat) : Decidable (HasRoom e length alignment) :=
  inferInstanceAs (Decidable (_ ∧ _))

/-- No block is taken from an entry whose base wraps when it is rounded up: an earlier entry has room
for it. -/
def RoundsUp (m : PmmMap) (length alignment : Nat) : Prop :=
  ∀ j < m.size, (m.slots j).type = .free → 2 ^ 64 ≤ (m.slots j).base + alignment - 1 →
    ∃ i < j, (m.slots i).type = .free ∧ HasRoom (m.slots i) length alignment

instance (m : PmmMap) (length alignment : Nat) : Decidable (RoundsUp m length alignment) :=
  inferInstanceAs (Decidable (∀ _ < _, _))

/-- The search then ends inside a free entry. -/
theorem allocFit_roundsUp {m : PmmMap} {length alignment u : Nat} (hwf : m.Wf) (ha : 1 ≤ alignment)
    (hr : RoundsUp m length alignment)
    (h : allocFit m length alignment m.size 0 = some u) : FoundIn m length alignment u := by
  -- from index `i` on, with no room in the entries before it
  suffices hfrom : ∀ n i, i + n = m.size →
      (∀ j < i, (m.slots j).type = .free → ¬ HasRoom (m.slots j) length alignment) →
      allocFit m length alignment n i = some u → FoundIn m length alignment u from
    hfrom m.size 0 (Nat.zero_add _) (fun j hj ↦ absurd hj (Nat.not_lt_zero j)) h
  clear h
  intro n
  induction n with
  | zero =>
    intro i _ _ h
    cases h
  | succ n ih =>
    intro i hn hno h
    have hmem := slots_mem_live m (i := i) (by omega)
    have hb := hwf.bound _ hmem
    have hnext : ((m.slots i).type = .free → ¬ HasRoom (m.slots i) length alignment) →
        allocFit m length alignment n (i + 1) = some u → FoundIn m length alignment u := by
      intro hi
      refine ih (i + 1) (by omega) fun j hj ↦ ?_
      rcases Nat.lt_succ_iff_lt_or_eq.mp hj with hj | rfl
      · exact hno j hj
      · exact hi
    rw [allocFit] at h
    dsimp only at h
    split at h
    · rename_i hused
      exact hnext (fun hfree ↦ absurd hfree hused) h
    rename_i hfree
    have hfree : (m.slots i).type = .free := not_not.mp hfree
    have hround : (m.slots i).base + alignment - 1 < 2 ^ 64 := by
      by_contra hge
      obtain ⟨j, hj, hjfree, hroom⟩ := hr i (by omega) hfree (not_lt.mp hge)
      exact hno j hj hjfree hroom
    obtain ⟨h1, h2, h3⟩ := mathCeil_spec ha hround
    rw [add64_eq hb] at h
    split at h
    · rename_i hle
      refine hnext (fun _ hroom ↦ ?_) h
      have := hroom.2.1
      simp only [Span.stop] at this; omega
    rename_i hlt
    simp only [Span.stop] at hb
    rw [sub64_eq (b := (m.slots i).base) (by omega) h1, sub64_eq (by omega) (by omega)] at h
    split at h
    · rename_i hlen
      refine hnext (fun _ hroom ↦ ?_) h
      have := hroom.2.2
      simp only [Span.stop] at this; omega
    rename_i hfit
    obtain rfl := Option.some.inj h
    refine ⟨_, hmem, hfree, h1, ?_, ?_, h3⟩ <;> simp only [Span.stop] <;> omega

/-! ## Counts of pages that do not fit -/

/-- The count of pages whose length is what is left of `n` pages in a word. -/
def cutCount (n : Nat) : Nat := n % 2 ^ 52

theorem mul64_page (n : Nat) : mul64 n ptmPageGranularity = cutCount n * ptmPageGranularity :=
  Nat.mul_mod_mul_right 4096 n (2 ^ 52)

theorem cutCount_lt (n : Nat) : cutCount n * ptmPageGranularity < 2 ^ 64 := by
  have := Nat.mod_lt n (Nat.two_pow_pos 52)
  unfold cutCount ptmPageGranularity
  omega

theorem mul64_cutCount (n : Nat) :
    mul64 (cutCount n) ptmPageGranularity = mul64 n ptmPageGranularity := by
  rw [mul64_eq (cutCount_lt n), mul64_page]

/-- The allocation as long as it really is. -/
def Allocation.cut (x : Allocation) : Allocation := { x with pageCount := cutCount x.pageCount }

/-- The state with every allocation as long as it really is. -/
def PmmState.cut (s : PmmState) : PmmState := ⟨s.map, s.held.map Allocation.cut⟩

/-! ## Runs -/

/-- The states that calls with any arguments lead to: ranges of which no address is in the table are
added, blocks are taken for a type that is not the one of free memory, and allocations that are out
are given back. -/
inductive PmmReach : PmmState → Prop
  | empty : PmmReach ⟨.empty, []⟩
  | add {s : PmmState} {r : PmmMapEntry} {m : PmmMap} (h : PmmReach s) (hs : r.stop < 2 ^ 64)
      (hc : ∀ a, r.Contains a → typeAt s.map.live a = none)
      (hm : pmmMapAdd s.map r.base r.length r.type = .ok m) : PmmReach ⟨m, s.held⟩
  | alloc {s : PmmState} {n alignment : Nat} {type : PmmMapType} {r : Nat × PmmMap}
      (h : PmmReach s) (ha : 1 ≤ alignment) (ht : type ≠ .free)
      (hr : RoundsUp s.map (mul64 n ptmPageGranularity) alignment)
      (hm : pmmAllocExt s.map n alignment type = .ok r) : PmmReach (s.hand n type r)
  | free {s : PmmState} {k : Nat} {x : Allocation} {m : PmmMap} (h : PmmReach s)
      (hx : s.held[k]? = some x) (hm : pmmFree s.map x.address x.pageCount = .ok m) :
      PmmReach ⟨m, s.held.eraseIdx k⟩

/-- **Every state of a run** keeps the invariant, with the allocations as long as they really
are. -/
theorem PmmReach.inv {s : PmmState} (h : PmmReach s) : ∃ C, s.cut.Inv C := by
  induction h with
  | empty =>
    refine ⟨fun _ ↦ False, ?_⟩
    exact ⟨.empty, by simp [PmmState.cut, live, PmmMap.empty], by simp [PmmState.cut],
      by simp [PmmState.cut], by simp [PmmState.cut], by simp [PmmState.cut], List.Pairwise.nil⟩
  | @add s r m h hs hc hm ih =>
    obtain ⟨C, hinv⟩ := ih
    rcases Nat.eq_zero_or_pos r.length with hz | hl
    · -- an empty range is not looked at
      rw [pmmMapAdd, if_pos hz] at hm
      obtain rfl := Except.ok.inj hm
      exact ⟨C, hinv⟩
    · refine ⟨_, hinv.add hl hs (fun e he ↦ ?_) hm⟩
      refine clear_of_forall (hinv.wf.tiled.pos e he) (by simp only [Span.stop]; omega)
        fun a h1 h2 hea ↦ ?_
      exact typeAt_eq_none.mp (hc a ⟨h1, h2⟩) e he hea
  | @alloc s n alignment type r h ha ht hr hm ih =>
    obtain ⟨C, hinv⟩ := ih
    have hcut : pmmAllocExt s.cut.map (cutCount n) alignment type = .ok r := by
      rw [← hm, pmmAllocExt, pmmAllocExt, mul64_cutCount]
      rfl
    have hround : RoundsUp s.cut.map (cutCount n * ptmPageGranularity) alignment := by
      rwa [← mul64_page]
    rcases hinv.pmmAllocExt_found ht (cutCount_lt n)
        fun u hu ↦ allocFit_roundsUp hinv.wf ha hround hu with
      ⟨r', hr', hinv', -⟩ | ⟨e, herr, -⟩
    swap
    · rw [hcut] at herr
      cases herr
    rw [hcut] at hr'
    obtain rfl := Except.ok.inj hr'
    exact ⟨C, hinv'⟩
  | @free s k x m h hx hm ih =>
    obtain ⟨C, hinv⟩ := ih
    have hcut : s.cut.held[k]? = some x.cut := by
      rw [PmmState.cut, List.getElem?_map, hx]
      rfl
    have hm' : pmmFree s.cut.map x.cut.address x.cut.pageCount = .ok m := by
      rw [← hm, pmmFree, pmmFree, Allocation.cut, mul64_cutCount]
      rfl
    rcases hinv.pmmFree_spec hcut with ⟨m', hok, hinv', -⟩ | ⟨e, herr, -⟩
    swap
    · rw [hm'] at herr
      cases herr
    rw [hm'] at hok
    obtain rfl := Except.ok.inj hok
    refine ⟨C, ?_⟩
    rwa [PmmState.cut, ← List.eraseIdx_map] at *

end LunarPrekernel
