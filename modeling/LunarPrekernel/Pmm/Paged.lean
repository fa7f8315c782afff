import LunarPrekernel.Pmm.Force
import LunarPrekernel.Pmm.Run

/-!
# Runs on whole pages

The boot loaders list whole pages, and the pre-kernel allocates and frees whole pages.  `PageReach`
collects the states of the allocator that such calls lead to; its parameter is a condition on every
range that becomes free, which is where the results about it differ.

`PagedInv` is what every such state keeps: the invariant of `LunarPrekernel.Pmm.Run`, every end of a
live entry on a page boundary, and every allocation that is out on one.
-/

set_option autoImplicit false

namespace LunarPrekernel

open SpanMap Span PmmMap

/-! ## The search for a free entry, in both outcomes -/

/-- Where rounding up wraps, it gives 0. -/
theorem mathCeil_wrap {base alignment : Nat} (ha : 1 ≤ alignment) (hb : base < 2 ^ 64)
    (hal : alignment < 2 ^ 64) (h : 2 ^ 64 ≤ base + alignment - 1) :
    mathCeil base alignment = 0 := by
  have hdiv : sub64 (add64 base alignment) 1 = base + alignment - 1 - 2 ^ 64 := by
    unfold sub64 add64; omega
  rw [mathCeil, mathDivCeil, hdiv, Nat.div_eq_of_lt (by omega), mul64, Nat.zero_mul, Nat.zero_mod]

/-- Rounding up to a multiple never passes a multiple further on. -/
theorem mathCeil_le {base alignment a : Nat} (ha : 1 ≤ alignment)
    (h : base + alignment - 1 < 2 ^ 64) (hba : base ≤ a) (hdvd : alignment ∣ a) :
    mathCeil base alignment ≤ a := by
  obtain ⟨h1, h2, h3⟩ := mathCeil_spec ha h
  obtain ⟨q, rfl⟩ := hdvd
  obtain ⟨k, hk⟩ := h3
  rw [hk] at h2 ⊢
  refine Nat.mul_le_mul_left _ ?_
  by_contra hlt
  have hle : alignment * (q + 1) ≤ alignment * k := Nat.mul_le_mul_left _ (by omega)
  rw [Nat.mul_add] at hle
  omega

section Fit

variable {m : PmmMap} {length alignment n i u : Nat}

/-- The entry whose block `pmm_alloc_ext` takes. -/
theorem allocFit_eq_some (hn : i + n ≤ m.size) (h : allocFit m length alignment n i = some u) :
    ∃ e ∈ m.live, e.type = .free ∧ u = mathCeil e.base alignment ∧
      u < add64 e.base e.length ∧ length ≤ sub64 e.length (sub64 u e.base) := by
  induction n generalizing i with
  | zero => cases h
  | succ n ih =>
    rw [allocFit] at h
    dsimp only at h
    split at h
    · exact ih (by omega) h
    rename_i hfree
    split at h
    · exact ih (by omega) h
    rename_i hlt
    split at h
    · exact ih (by omega) h
    rename_i hfit
    obtain rfl := Option.some.inj h
    exact ⟨_, slots_mem_live m (by omega), not_not.mp hfree, rfl, by omega, by omega⟩

/-- If it finds none, no free entry has room past its first aligned address. -/
theorem allocFit_eq_none (hn : i + n ≤ m.size) (h : allocFit m length alignment n i = none) :
    ∀ j, i ≤ j → j < i + n → (m.slots j).type = .free →
      add64 (m.slots j).base (m.slots j).length ≤ mathCeil (m.slots j).base alignment ∨
      sub64 (m.slots j).length (sub64 (mathCeil (m.slots j).base alignment) (m.slots j).base) <
        length := by
  induction n generalizing i with
  | zero => intro j h1 h2; omega
  | succ n ih =>
    rw [allocFit] at h
    dsimp only at h
    intro j h1 h2 hfree
    have hrest : allocFit m length alignment n (i + 1) = none → i + 1 ≤ j → _ := fun hr hj ↦
      ih (by omega) hr j hj (by omega) hfree
    split at h
    · rename_i hno
      rcases eq_or_lt_of_le h1 with rfl | hlt
      · exact absurd hfree hno
      · exact hrest h hlt
    split at h
    · rename_i hle
      rcases eq_or_lt_of_le h1 with rfl | hlt
      · exact Or.inl hle
      · exact hrest h hlt
    split at h
    · rename_i hle
      rcases eq_or_lt_of_le h1 with rfl | hlt
      · exact Or.inr hle
      · exact hrest h hlt
    · cases h

end Fit

/-! ## Where entries begin and end -/

/-- Every live entry begins and ends at addresses that `P` holds of. -/
def Ends (P : Nat → Prop) (m : PmmMap) : Prop := ∀ e ∈ m.live, P e.base ∧ P e.stop

section Ends

variable {P : Nat → Prop} {m m' : PmmMap} {base length stop : Nat} {type : PmmMapType}

theorem Ends.setInsert (h : Ends P m) (hl : 0 < length) (hstop : base + length = stop)
    (hs : stop < 2 ^ 64) (hb : ∀ s ∈ m.live, s.stop < 2 ^ 64) (hPb : P base) (hPs : P stop)
    (hm' : setInsert m base length type = .ok m') : Ends P m' := by
  intro y hy
  rcases setInsert_cases hm' hl hstop hs hb with ⟨pre, p, post, hlive, hp, hlive'⟩ |
    ⟨pre, q, post, hlive, hq, hlive'⟩ | ⟨pre, post, hlive, hlive'⟩ | ⟨-, -, hlive'⟩
  · simp only [hlive', List.mem_append, List.mem_cons] at hy
    rcases hy with hy | rfl | hy
    · exact h y (by rw [hlive]; simp [hy])
    · refine ⟨(h p (by rw [hlive]; simp)).1, ?_⟩
      rwa [show Span.stop _ = stop by simp only [Span.stop] at hp ⊢; omega]
    · exact h y (by rw [hlive]; simp [hy])
  · simp only [hlive', List.mem_append, List.mem_cons] at hy
    rcases hy with hy | rfl | hy
    · exact h y (by rw [hlive]; simp [hy])
    · refine ⟨hPb, ?_⟩
      have := (h q (by rw [hlive]; simp)).2
      rwa [show Span.stop _ = q.stop by simp only [Span.stop]; omega]
    · exact h y (by rw [hlive]; simp [hy])
  · simp only [hlive', List.mem_append, List.mem_cons] at hy
    rcases hy with hy | rfl | hy
    · exact h y (by rw [hlive]; simp [hy])
    · exact ⟨hPb, by rwa [Span.stop_mk, hstop]⟩
    · exact h y (by rw [hlive]; simp [hy])
  · exact h y (by rwa [hlive'] at hy)

/-- A forced call puts ends of entries nowhere but at the ends of its range. -/
theorem Ends.force (h : Ends P m) (ht : Tiled m.live) (hb : ∀ s ∈ m.live, s.stop < 2 ^ 64)
    (hl : base + length = stop) (hbs : base < stop) (hs : stop < 2 ^ 64) (hPb : P base)
    (hPs : P stop) (hm' : pmmMapSet m base length type true = .ok m') : Ends P m' := by
  by_cases hno : ∀ s ∈ m.live, ¬ (s.base < base ∧ stop < s.stop)
  · obtain ⟨m₁, hm₁, hlive, -⟩ := pmmMapSet_remains type ht hb hl hbs hs hno
    rw [hm₁] at hm'
    refine Ends.setInsert (fun y hy ↦ ?_) (by omega) hl hs (bound_of_remains ht hb hlive) hPb hPs
      hm'
    rw [hlive] at hy
    obtain ⟨x, hx, hy⟩ := List.mem_flatMap.mp hy
    obtain ⟨hxb, hxs⟩ := h x hx
    rw [remains] at hy
    split at hy
    · rw [List.mem_singleton.mp hy]
      exact ⟨hxb, hxs⟩
    rcases List.mem_append.mp hy with hy | hy
    · rw [beforeRange] at hy
      split at hy
      · rw [List.mem_singleton.mp hy]
        refine ⟨hxb, ?_⟩
        rcases Nat.le_total x.stop base with hle | hle
        · rwa [show Span.stop _ = x.stop by simp only [Span.stop] at *; omega]
        · rwa [show Span.stop _ = base by simp only [Span.stop] at *; omega]
      · simp at hy
    · rw [afterRange] at hy
      split at hy
      · rw [List.mem_singleton.mp hy]
        constructor
        · rcases Nat.le_total x.base stop with hle | hle
          · rwa [show Span.base _ = stop from max_eq_right hle]
          · rwa [show Span.base _ = x.base from max_eq_left hle]
        · rwa [show Span.stop _ = x.stop by simp only [Span.stop] at *; omega]
      · simp at hy
  · push Not at hno
    obtain ⟨x, hx, h1, h2⟩ := hno
    obtain ⟨pre, post, hlive⟩ := List.append_of_mem hx
    obtain ⟨ht₁, hb₁, -⟩ := leftOf_spec hlive ht hb h1 h2 hbs
    rw [pmmMapSet_inside type hlive ht hb hl hbs h1 h2] at hm'
    obtain ⟨m₂, hm₂, hm'⟩ := bind_eq_ok hm'
    have hstop : stop + (x.stop - stop) = x.stop := by omega
    have h₁ : Ends P (leftOf m pre.length base x) := by
      intro y hy
      rw [leftOf, live_set hlive] at hy
      simp only [List.mem_append, List.mem_cons] at hy
      rcases hy with hy | rfl | hy
      · exact h y (by rw [hlive]; simp [hy])
      · exact ⟨(h x hx).1, by rwa [show Span.stop _ = base by simp only [Span.stop]; omega]⟩
      · exact h y (by rw [hlive]; simp [hy])
    have h₂ := h₁.setInsert (by omega) hstop (hb x hx) hb₁ hPs (h x hx).2 hm₂
    exact h₂.setInsert (by omega) hl hs
      (clear_of_insert_end hlive ht hb h1 h2 hbs hm₂).2.1 hPb hPs hm'

end Ends

/-! ## Runs on whole pages -/

/-- The states that calls on whole pages lead to: ranges that meet no live entry are added, blocks
are taken with an alignment that is a multiple of the page size, and allocations that are out are
given back.  `ok` is asked of each range that becomes free. -/
inductive PageReach (ok : PmmMap → Nat → Nat → Prop) : PmmState → Prop
  | empty : PageReach ok ⟨.empty, []⟩
  | add {s : PmmState} {r : PmmMapEntry} {m : PmmMap} (h : PageReach ok s) (hl : 0 < r.length)
      (hs : r.stop < 2 ^ 64) (hb : ptmPageGranularity ∣ r.base) (he : ptmPageGranularity ∣ r.stop)
      (hc : ∀ e ∈ s.map.live, e.Clear r.base r.stop)
      (hok : r.type = .free → ok s.map r.base r.stop)
      (hm : pmmMapAdd s.map r.base r.length r.type = .ok m) : PageReach ok ⟨m, s.held⟩
  | alloc {s : PmmState} {n alignment : Nat} {type : PmmMapType} {r : Nat × PmmMap}
      (h : PageReach ok s) (hs : s.Serves n alignment type) (ha : ptmPageGranularity ∣ alignment)
      (hr : pmmAllocExt s.map n alignment type = .ok r) : PageReach ok (s.hand n type r)
  | free {s : PmmState} {k : Nat} {x : Allocation} {m : PmmMap} (h : PageReach ok s)
      (hx : s.held[k]? = some x) (hok : ok s.map x.span.base x.span.stop)
      (hm : pmmFree s.map x.address x.pageCount = .ok m) : PageReach ok ⟨m, s.held.eraseIdx k⟩

/-- What holds in each of them. -/
structure PagedInv (s : PmmState) : Prop where
  inv : ∃ C, s.Inv C
  ends : Ends (ptmPageGranularity ∣ ·) s.map
  held : ∀ x ∈ s.held, ptmPageGranularity ∣ x.address

theorem pmmAllocExt_ok {m : PmmMap} {n alignment : Nat} {type : PmmMapType} {r : Nat × PmmMap}
    (hr : pmmAllocExt m n alignment type = .ok r) :
    allocFit m (mul64 n ptmPageGranularity) alignment m.size 0 = some r.1 ∧
      pmmMapSet m r.1 (mul64 n ptmPageGranularity) type true = .ok r.2 := by
  rw [pmmAllocExt] at hr
  cases hfit : allocFit m (mul64 n ptmPageGranularity) alignment m.size 0 with
  | none =>
    rw [hfit] at hr
    cases hr
  | some u =>
    rw [hfit] at hr
    obtain ⟨m', hm', hr⟩ := bind_eq_ok hr
    cases hr
    exact ⟨rfl, hm'⟩

/-- `pmm_alloc` gives out whole pages. -/
theorem pmmAlloc_dvd {m : PmmMap} {n : Nat} {r : Nat × PmmMap} (hr : pmmAlloc m n = .ok r) :
    ptmPageGranularity ∣ r.1 := by
  obtain ⟨e, -, -, he, -⟩ := allocFit_eq_some (Nat.zero_add _).le (pmmAllocExt_ok hr).1
  rw [he, mathCeil, mul64]
  exact (Nat.dvd_mod_iff (by decide)).mpr (Nat.dvd_mul_left _ _)

/-- A range added beside what is there leaves the allocations alone. -/
theorem PmmState.Inv.add {C : Nat → Prop} {s : PmmState} (h : s.Inv C) {r : PmmMapEntry}
    {m : PmmMap} (hl : 0 < r.length) (hs : r.stop < 2 ^ 64)
    (hc : ∀ e ∈ s.map.live, e.Clear r.base r.stop)
    (hm : pmmMapAdd s.map r.base r.length r.type = .ok m) :
    PmmState.Inv (fun a ↦ C a ∨ r.Contains a) ⟨m, s.held⟩ := by
  obtain ⟨hwf, ht⟩ := pmmMapAdd_clear h.wf hl hs hc hm
  have hlt : r.base < r.stop := by simp only [Span.stop]; omega
  rw [pmmMapAdd, if_neg (by omega)] at hm
  have hspec := pmmMapSet_spec r.type false h.wf rfl hlt hs (clean_of_clear h.wf.tiled hlt hc)
  rw [hm] at hspec
  have hout : ∀ {x : Allocation}, x ∈ s.held → ∀ a, x.Contains a → ¬ (r.base ≤ a ∧ a < r.stop) := by
    intro x hx a hxa ha
    have h1 := h.typed x hx a hxa
    rw [typeAt_eq_none_of_clear hc ha.1 ha.2] at h1
    cases h1
  exact
    { wf := hwf
      covers := fun a ↦ by
        rw [ht]
        by_cases ha : r.base ≤ a ∧ a < r.stop
        · rw [overwrite_of_mem ha.1 ha.2]
          simp only [ne_eq, reduceCtorEq, not_false_eq_true, true_iff]
          exact Or.inr ha
        · rw [overwrite_of_not_mem ha, h.covers]
          exact ⟨Or.inl, fun hca ↦ hca.resolve_right ha⟩
      typed := fun x hx a hxa ↦ by
        rw [ht, overwrite_of_not_mem (hout hx a hxa)]
        exact h.typed x hx a hxa
      not_free := h.not_free
      bound := h.bound
      within := fun x hx hp ↦ by
        have hw := h.within x hx hp
        refine hspec.keeps _ _ (by simp only [Span.stop]; omega) ?_ hw
        obtain ⟨e, he, h1, h2⟩ := hw
        rcases hc e he with hce | hce
        · exact Or.inl (h2.trans hce)
        · exact Or.inr (hce.trans h1)
      apart := h.apart }

/-- **Every state of a run on whole pages** keeps the invariant. -/
theorem PageReach.pagedInv {ok : PmmMap → Nat → Nat → Prop} {s : PmmState} (h : PageReach ok s) :
    PagedInv s := by
  induction h with
  | empty =>
    refine ⟨⟨fun _ ↦ False, ?_⟩, fun e he ↦ ?_, fun x hx ↦ ?_⟩
    · exact ⟨.empty, by simp [live, PmmMap.empty], by simp, by simp, by simp, by simp,
        List.Pairwise.nil⟩
    · simp [live, PmmMap.empty] at he
    · simp at hx
  | @add s r m h hl hs hb he hc hok hm ih =>
    obtain ⟨C, hinv⟩ := ih.inv
    refine ⟨⟨_, hinv.add hl hs hc hm⟩, ?_, ih.held⟩
    rw [pmmMapAdd, if_neg (by omega), pmmMapSet, setFrom_clear hinv.wf.tiled hinv.wf.bound hs
      (Nat.zero_le _) (by have := size_lt_fuel s.map; unfold setFuel; omega)
      fun j _ hj ↦ hc _ (slots_mem_live _ hj)] at hm
    exact ih.ends.setInsert hl rfl hs hinv.wf.bound hb he hm
  | @alloc s n alignment type r h hs ha hr ih =>
    obtain ⟨C, hinv⟩ := ih.inv
    rcases hinv.pmmAllocExt_spec hs with ⟨r', hr', hinv', hh⟩ | ⟨e, herr, -⟩
    swap
    · rw [hr] at herr
      cases herr
    rw [hr] at hr'
    obtain rfl := Except.ok.inj hr'
    have hal : ptmPageGranularity ∣ r.1 := ha.trans hh.aligned
    refine ⟨⟨C, hinv'⟩, ?_, fun x hx ↦ ?_⟩
    · obtain ⟨hfit, hset⟩ := pmmAllocExt_ok hr
      rw [mul64_eq hs.2.2.1] at hfit hset
      have hbound := (hinv'.bound ⟨r.1, n, type⟩ (by simp [PmmState.hand])).1
      rcases Nat.eq_zero_or_pos (n * ptmPageGranularity) with hz | hp
      · rw [hz, pmmMapSet_zero hinv.wf hbound] at hset
        rw [show (s.hand n type r).map = s.map from (Except.ok.inj hset).symm]
        exact ih.ends
      · obtain ⟨e, he, -, h1, h2, h3, -⟩ := allocFit_spec hinv.wf hs.1 hs.2.2.2 (by omega) hfit
        have := hinv.wf.bound e he
        exact ih.ends.force hinv.wf.tiled hinv.wf.bound rfl (by omega) (by omega) hal
          (Dvd.dvd.add hal (Nat.dvd_mul_left _ _)) hset
    · rcases List.mem_cons.mp hx with rfl | hx
      · exact hal
      · exact ih.held x hx
  | @free s k x m h hx hok hm ih =>
    obtain ⟨C, hinv⟩ := ih.inv
    have hmem : x ∈ s.held := List.mem_of_getElem? hx
    rcases hinv.pmmFree_spec hx with ⟨m', hm', hinv', -⟩ | ⟨e, herr, -⟩
    swap
    · rw [hm] at herr
      cases herr
    rw [hm] at hm'
    obtain rfl := Except.ok.inj hm'
    refine ⟨⟨C, hinv'⟩, ?_, fun y hy ↦ ih.held y (List.mem_of_mem_eraseIdx hy)⟩
    obtain ⟨hb, hn⟩ := hinv.bound x hmem
    rw [pmmFree, mul64_eq hn] at hm
    rcases Nat.eq_zero_or_pos (x.pageCount * ptmPageGranularity) with hz | hp
    · rw [hz, pmmMapSet_zero hinv.wf hb] at hm
      obtain rfl := Except.ok.inj hm
      exact ih.ends
    · obtain ⟨e, he, h1, h2⟩ := hinv.within x hmem hp
      have := hinv.wf.bound e he
      simp only [Allocation.span, Span.stop_mk] at h2
      exact ih.ends.force hinv.wf.tiled hinv.wf.bound rfl (by omega) (by omega) (ih.held x hmem)
        (Dvd.dvd.add (ih.held x hmem) (Nat.dvd_mul_left _ _)) hm

end LunarPrekernel
