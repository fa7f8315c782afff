import LunarPrekernel.Pmm.Paged

/-!
# Free memory is found

Both allocators look at one entry at a time, so they find a free block only where a single free entry
holds it.  That is where every free block is as long as no two free entries touch (`Merged`), and
then `pmm_alloc_ext` runs out of memory only when there is none, and `pmm_alloc_at` takes a block
exactly when it is free.

The insertion of `pmm_map_set` glues a range to the entry before it or to the one after it, never to
both.  So a range that becomes free and fills the gap between two free entries (`Closes`) leaves two
free entries that touch; no other call does.

* `alloc_complete` — the two allocators, in every run in which no range closes such a gap.
* `alloc_incomplete` — a run with one that does, after which a free block is not found.
-/

set_option autoImplicit false

namespace LunarPrekernel

open SpanMap Span PmmMap

/-! ## The gap between two free entries -/

/-- A free entry ends where the range begins, and another begins where it ends. -/
def Closes (m : PmmMap) (base stop : Nat) : Prop :=
  (∃ e ∈ m.live, e.type = .free ∧ e.stop = base) ∧ ∃ e ∈ m.live, e.type = .free ∧ e.base = stop

instance (m : PmmMap) (base stop : Nat) : Decidable (Closes m base stop) :=
  inferInstanceAs (Decidable ((∃ e ∈ m.live, _) ∧ ∃ e ∈ m.live, _))

section Merged

variable {m m₁ m' : PmmMap} {s : PmmMapEntry} {base stop : Nat} {type : PmmMapType}

/-- An entry that runs up to the inserted range with its type ends up in one entry with it. -/
theorem Inserted.within_prev (h : Inserted m₁ m' s) (ht : Tiled m₁.live) (hs : 0 < s.length)
    {p : PmmMapEntry} (hp : p ∈ m₁.live) (htype : p.type = s.type) (hstop : p.stop = s.base) :
    Within m'.live p.base s.stop := by
  obtain ⟨pre, post, hlive, hpre, hpost, hj, -⟩ := h
  rw [hlive] at hp ht
  have hmem : p ∈ pre := by
    refine (List.mem_append.mp hp).resolve_right fun hp' ↦ ?_
    have := hpost p hp'
    have := ht.pos p hp
    simp only [Span.stop] at *; omega
  obtain ⟨l', -, hk⟩ := hj.of_prev (tiled_append.mp ht).1 hpre hmem htype hstop
  refine ⟨{ p with length := p.length + s.length }, by rw [hk]; simp, le_rfl, ?_⟩
  simp only [Span.stop] at *; omega

/-- So does an entry that runs on from it, if none runs up to it. -/
theorem Inserted.within_next (h : Inserted m₁ m' s) (ht : Tiled m₁.live) (hs : 0 < s.length)
    (hno : ∀ p ∈ m₁.live, ¬ (p.type = s.type ∧ p.stop = s.base)) {q : PmmMapEntry}
    (hq : q ∈ m₁.live) (htype : q.type = s.type) (hbase : q.base = s.stop) :
    Within m'.live s.base q.stop := by
  obtain ⟨pre, post, hlive, hpre, hpost, hj, -⟩ := h
  rw [hlive] at hq ht hno
  have hmem : q ∈ post := by
    refine (List.mem_append.mp hq).resolve_left fun hq' ↦ ?_
    have := hpre q hq'
    simp only [Span.stop] at *; omega
  cases post with
  | nil => simp at hmem
  | cons z r =>
    -- `q` is the first entry after the range
    obtain rfl : q = z := by
      refine (List.mem_cons.mp hmem).resolve_right fun hqr ↦ ?_
      have h1 := (tiled_cons.mp (tiled_append.mp ht).2.1).2.1 q hqr
      have h2 := hpost z (by simp)
      have h3 := ht.pos z (by simp)
      simp only [Span.stop] at *; omega
    have hk := hj.of_next (fun p hp ↦ hno p (by simp [hp])) htype hbase
    refine ⟨⟨s.base, q.length + s.length, q.type⟩, by rw [hk]; simp, le_rfl, ?_⟩
    simp only [Span.stop] at *; omega

/-- An insertion closes no gap between free entries but one it fills. -/
theorem merged_of_inserted (hm : Merged .free m.live) (ht : Tiled m.live)
    (ht₁ : Tiled m₁.live) (hins : Inserted m₁ m' s) (hs : 0 < s.length)
    (hout : ∀ a, typeAt m₁.live a = if s.base ≤ a ∧ a < s.stop then none else typeAt m.live a)
    (hkeep : Keeps m.live m'.live s.base s.stop)
    (hfree : s.type = .free → ¬ Closes m s.base s.stop ∧
      ∀ a, s.base ≤ a → a < s.stop → typeAt m.live a ≠ some .free) :
    Merged .free m'.live := by
  have ht' := tiled_of_inserted hins hs ht₁
  have hty : ∀ a, typeAt m'.live a =
      if s.base ≤ a ∧ a < s.stop then some s.type else typeAt m.live a := by
    intro a
    rw [typeAt_of_inserted hins, overwrite, hout]
    split <;> rfl
  have hss : s.base < s.stop := by simp only [Span.stop]; omega
  -- entries of the cut table that reach the range are entries that reach it before
  have hbefore : (∃ p ∈ m₁.live, p.type = .free ∧ p.stop = s.base) → s.type = .free →
      ∃ e ∈ m.live, e.type = .free ∧ e.stop = s.base := by
    rintro ⟨p, hp, hpt, hps⟩ hsf
    have hpp := ht₁.pos p hp
    have h1 : typeAt m₁.live (s.base - 1) = some .free := by
      rw [ht₁.typeAt_of_within hp (by simp only [Contains, Span.stop] at *; omega), hpt]
    rw [hout, if_neg (by simp only [Span.stop] at *; omega)] at h1
    obtain ⟨e, he, hec, het⟩ := ht.typeAt_eq_some.mp h1
    refine ⟨e, he, het, ?_⟩
    have h2 := (hfree hsf).2 s.base le_rfl hss
    by_contra hne
    refine h2 (ht.typeAt_eq_some.mpr ⟨e, he, ?_, het⟩)
    have := hec.base_le; have := hec.lt_stop
    simp only [Span.stop] at hps
    exact ⟨by omega, by omega⟩
  have hafter : (∃ q ∈ m₁.live, q.type = .free ∧ q.base = s.stop) → s.type = .free →
      ∃ e ∈ m.live, e.type = .free ∧ e.base = s.stop := by
    rintro ⟨q, hq, hqt, hqb⟩ hsf
    have hqp := ht₁.pos q hq
    have h1 : typeAt m₁.live s.stop = some .free := by
      rw [ht₁.typeAt_of_within hq (by simp only [Contains, Span.stop] at *; omega), hqt]
    rw [hout, if_neg (by omega)] at h1
    obtain ⟨e, he, hec, het⟩ := ht.typeAt_eq_some.mp h1
    refine ⟨e, he, het, ?_⟩
    have h2 := (hfree hsf).2 (s.stop - 1) (by omega) (by omega)
    by_contra hne
    refine h2 (ht.typeAt_eq_some.mpr ⟨e, he, ?_, het⟩)
    have := hec.base_le; have := hec.lt_stop
    exact ⟨by omega, by omega⟩
  refine Merged.of_pairs ht' fun c hc h1 h2 ↦ ?_
  rw [hty] at h1 h2
  by_cases hin1 : s.base ≤ c - 1 ∧ c - 1 < s.stop
  · rw [if_pos hin1, Option.some.injEq] at h1
    by_cases hin2 : s.base ≤ c ∧ c < s.stop
    · -- both in the range
      obtain ⟨g, hg, hg1, hg2⟩ := within_of_inserted hins
      exact ⟨g, hg, by omega, by omega⟩
    · -- the range ends at `c`
      have hcs : c = s.stop := by omega
      rw [if_neg hin2] at h2
      have h3 : typeAt m₁.live c = some .free := by rw [hout, if_neg hin2, h2]
      obtain ⟨q, hq, hqc, hqt⟩ := ht₁.typeAt_eq_some.mp h3
      have hqb : q.base = s.stop := by
        by_contra hne
        have hlt := hqc.base_le
        have h4 : typeAt m₁.live (s.stop - 1) ≠ none := by
          rw [ht₁.typeAt_of_within hq ⟨by omega, by have := hqc.lt_stop; omega⟩]
          simp
        rw [hout, if_pos (by omega)] at h4
        exact h4 rfl
      have hno : ∀ p ∈ m₁.live, ¬ (p.type = s.type ∧ p.stop = s.base) := by
        rintro p hp ⟨hpt, hps⟩
        exact (hfree h1).1 ⟨hbefore ⟨p, hp, hpt.trans h1, hps⟩ h1,
          hafter ⟨q, hq, hqt, hqb⟩ h1⟩
      obtain ⟨g, hg, hg1, hg2⟩ := hins.within_next ht₁ hs hno hq (hqt.trans h1.symm) hqb
      have := hqc.lt_stop
      exact ⟨g, hg, by omega, by omega⟩
  · rw [if_neg hin1] at h1
    by_cases hin2 : s.base ≤ c ∧ c < s.stop
    · -- the range begins at `c`
      have hcb : c = s.base := by omega
      rw [if_pos hin2, Option.some.injEq] at h2
      have h3 : typeAt m₁.live (c - 1) = some .free := by rw [hout, if_neg hin1, h1]
      obtain ⟨p, hp, hpc, hpt⟩ := ht₁.typeAt_eq_some.mp h3
      have hps : p.stop = s.base := by
        by_contra hne
        have hlt := hpc.lt_stop
        have h4 : typeAt m₁.live s.base ≠ none := by
          rw [ht₁.typeAt_of_within hp ⟨by have := hpc.base_le; omega, by omega⟩]
          simp
        rw [hout, if_pos (by omega)] at h4
        exact h4 rfl
      obtain ⟨g, hg, hg1, hg2⟩ := hins.within_prev ht₁ hs hp (hpt.trans h2.symm) hps
      have := hpc.base_le
      exact ⟨g, hg, by omega, by omega⟩
    · -- both outside
      rw [if_neg hin2] at h2
      refine hkeep _ _ (by omega) (by omega) (hm.within ht (by omega) fun a h3 h4 ↦ ?_)
      rcases (by omega : a = c - 1 ∨ a = c) with rfl | rfl
      · exact h1
      · exact h2

/-- A forced call for a range inside one entry. -/
theorem merged_of_within (hwf : m.Wf) (hm : Merged .free m.live) {e : PmmMapEntry} {length : Nat}
    (hl : 0 < length) (he : e ∈ m.live) (h1 : e.base ≤ base) (h2 : base + length ≤ e.stop)
    (hfree : type = .free → ¬ Closes m base (base + length) ∧ e.type ≠ .free)
    (h : pmmMapSet m base length type true = .ok m') : Merged .free m'.live := by
  have hlt : base < base + length := by omega
  have hs := hwf.bound e he
  have hwithin : Within m.live base (base + length) := ⟨e, he, h1, h2⟩
  have hf : ∀ x ∈ m.live, ¬ Flush base (base + length) x := by
    intro x hx hf
    have hpos := hwf.tiled.pos x hx
    obtain rfl := hwf.tiled.unique hx he (a := x.base)
      (by simp only [Contains, Span.stop]; omega)
      (by simp only [Contains, Flush, Span.stop] at *; omega)
    simp only [Flush] at hf; omega
  obtain ⟨m₁, ht₁, hins, hout⟩ := force_inserted hwf.tiled hwf.bound rfl hlt (by omega) hf
    (hwf.not_swallowed hlt) h
  have hspec := pmmMapSet_spec type true hwf rfl hlt (by omega)
    (clean_of_within hwf.tiled hlt hwithin)
  rw [h] at hspec
  refine merged_of_inserted hm hwf.tiled ht₁ hins hl hout hspec.keeps fun ht ↦
    ⟨(hfree ht).1, fun a h3 h4 hty ↦ (hfree ht).2 ?_⟩
  simp only [Span.stop_mk] at h3 h4
  rw [hwf.tiled.typeAt_of_within he ⟨by omega, by omega⟩] at hty
  exact Option.some.inj hty

/-- A range added beside what is there. -/
theorem merged_of_add (hwf : m.Wf) (hm : Merged .free m.live) {r : PmmMapEntry}
    (hl : 0 < r.length) (hs : r.stop < 2 ^ 64) (hc : ∀ e ∈ m.live, e.Clear r.base r.stop)
    (hfree : r.type = .free → ¬ Closes m r.base r.stop)
    (h : pmmMapAdd m r.base r.length r.type = .ok m') : Merged .free m'.live := by
  have hsz := size_lt_fuel m
  rw [pmmMapAdd, if_neg (by omega), pmmMapSet] at h
  rcases setFrom_insert r.base r.length setFuel r.type false hwf.tiled hwf.bound hwf.stale hl hs
    (by unfold setFuel; omega) hc typeAt_isSome.mp with ⟨k, hk, hins⟩ | ⟨-, herr⟩
  · rw [h] at hk
    obtain rfl := Except.ok.inj hk
    have hnone : ∀ a, r.base ≤ a → a < r.stop → typeAt m.live a = none := fun a h1 h2 ↦
      typeAt_eq_none_of_clear hc h1 h2
    refine merged_of_inserted hm hwf.tiled hwf.tiled hins hl (fun a ↦ ?_)
      ((covers_of_inserted hins).keeps _ _) fun ht ↦ ⟨hfree ht, fun a h1 h2 ↦ ?_⟩
    · split
      · rename_i ha
        exact hnone a ha.1 ha.2
      · rfl
    · rw [hnone a h1 h2]
      simp
  · rcases herr with herr | ⟨herr, -⟩ <;> rw [h] at herr <;> cases herr

end Merged

/-! ## Runs in which no gap is closed -/

/-- In such a run no two free entries ever touch. -/
theorem PageReach.merged {s : PmmState} (h : PageReach (fun m b e ↦ ¬ Closes m b e) s) :
    Merged .free s.map.live := by
  induction h with
  | empty => intro e he; simp [live, PmmMap.empty] at he
  | @add s r m h hl hs _ _ hc hok hm ih =>
    obtain ⟨C, hinv⟩ := h.pagedInv.inv
    exact merged_of_add hinv.wf ih hl hs hc hok hm
  | @alloc s n alignment type r h hs ha hr ih =>
    obtain ⟨C, hinv⟩ := h.pagedInv.inv
    obtain ⟨hfit, hset⟩ := pmmAllocExt_ok hr
    rw [mul64_eq hs.2.2.1] at hfit hset
    obtain ⟨e, he, hfree, h1, h2, h3, -⟩ := allocFit_spec hinv.wf hs.1 hs.2.2.2 (by omega) hfit
    rcases Nat.eq_zero_or_pos (n * ptmPageGranularity) with hz | hp
    · have := hinv.wf.bound e he
      rw [hz, pmmMapSet_zero hinv.wf (by omega)] at hset
      rw [show (s.hand n type r).map = s.map from (Except.ok.inj hset).symm]
      exact ih
    · exact merged_of_within hinv.wf ih hp he h1 h3 (fun ht ↦ absurd ht hs.2.1) hset
  | @free s k x m h hx hok hm ih =>
    obtain ⟨C, hinv⟩ := h.pagedInv.inv
    have hmem : x ∈ s.held := List.mem_of_getElem? hx
    obtain ⟨hb, hn⟩ := hinv.bound x hmem
    rw [pmmFree, mul64_eq hn] at hm
    rcases Nat.eq_zero_or_pos (x.pageCount * ptmPageGranularity) with hz | hp
    · rw [hz, pmmMapSet_zero hinv.wf hb] at hm
      rw [← Except.ok.inj hm]
      exact ih
    · obtain ⟨e, he, h1, h2⟩ := hinv.within x hmem hp
      refine merged_of_within hinv.wf ih hp he h1 h2 (fun _ ↦ ⟨hok, fun hfree ↦ ?_⟩) hm
      -- what is out is not free
      have hx0 : x.Contains x.address := ⟨le_rfl, by simp only [Allocation.span, Span.stop]; omega⟩
      have h3 := hinv.typed x hmem x.address hx0
      rw [hinv.wf.tiled.typeAt_of_within he (a := x.address)
        ⟨h1, by have := hx0.2; omega⟩, hfree] at h3
      exact hinv.not_free x hmem (Option.some.inj h3).symm

/-! ## The two allocators -/

section Search

variable {m : PmmMap} {type : PmmMapType}

/-- The block `pmm_alloc_ext` takes ends below `2 ^ 64`, even where rounding up wraps. -/
theorem allocFit_stop (hwf : m.Wf) {length alignment u : Nat} (ha : 1 ≤ alignment)
    (hal : alignment < 2 ^ 64) (h : allocFit m length alignment m.size 0 = some u) :
    u + length < 2 ^ 64 := by
  obtain ⟨e, he, -, rfl, hlt, hfit⟩ := allocFit_eq_some (by omega) h
  have hb := hwf.bound e he
  rw [add64_eq hb] at hlt
  simp only [Span.stop] at hb
  rcases Nat.lt_or_ge (e.base + alignment - 1) (2 ^ 64) with hno | hwrap
  · obtain ⟨h1, -, -⟩ := mathCeil_spec ha hno
    rw [sub64_eq (b := e.base) (by omega) h1, sub64_eq (by omega) (by omega)] at hfit
    omega
  · rw [mathCeil_wrap ha (by omega) hal hwrap] at hfit ⊢
    have hsub : sub64 e.length (sub64 0 e.base) = e.base + e.length := by
      unfold sub64; omega
    omega

/-- A free entry that holds an aligned block is found. -/
theorem allocFit_ne_none (hwf : m.Wf) {length alignment a : Nat} {e : PmmMapEntry}
    (ha : 1 ≤ alignment) (hal : alignment < 2 ^ 64) (hl : 0 < length) (he : e ∈ m.live)
    (hfree : e.type = .free) (h1 : e.base ≤ a) (h2 : a + length ≤ e.stop) (hdvd : alignment ∣ a) :
    allocFit m length alignment m.size 0 ≠ none := by
  intro hnone
  obtain ⟨j, hj, rfl⟩ := mem_live.mp he
  have hb := hwf.bound _ he
  generalize hej : m.slots j = e at *
  have hfit := allocFit_eq_none (by omega) hnone j (Nat.zero_le _) (by omega) (by rw [hej]; exact hfree)
  rw [hej, add64_eq hb] at hfit
  simp only [Span.stop] at h2 hb
  rcases Nat.lt_or_ge (e.base + alignment - 1) (2 ^ 64) with hno | hwrap
  · have hle := mathCeil_le ha hno h1 hdvd
    obtain ⟨hge, -, -⟩ := mathCeil_spec ha hno
    rw [sub64_eq (b := e.base) (by omega) hge, sub64_eq (by omega) (by omega)] at hfit
    omega
  · rw [mathCeil_wrap ha (by omega) hal hwrap] at hfit
    have hsub : sub64 e.length (sub64 0 e.base) = e.base + e.length := by
      unfold sub64; omega
    rw [hsub] at hfit
    omega

/-- What `pmm_alloc_at` tests. -/
theorem allocAtFit_eq_true {address length : Nat} (hwf : m.Wf) (hs : address + length < 2 ^ 64)
    {n i : Nat} (hn : i + n ≤ m.size) : allocAtFit m address length n i = true ↔
      ∃ j, i ≤ j ∧ j < i + n ∧ (m.slots j).type = .free ∧ (m.slots j).base ≤ address ∧
        address + length ≤ (m.slots j).stop := by
  induction n generalizing i with
  | zero =>
    simp only [allocAtFit, Bool.false_eq_true, false_iff]
    rintro ⟨j, h1, h2, -⟩
    omega
  | succ n ih =>
    have hb := hwf.bound _ (slots_mem_live m (i := i) (by omega))
    have hrest : (¬ ((m.slots i).type = .free ∧ (m.slots i).base ≤ address ∧
        address + length ≤ (m.slots i).stop)) →
        ((∃ j, i + 1 ≤ j ∧ j < i + 1 + n ∧ (m.slots j).type = .free ∧ (m.slots j).base ≤ address ∧
          address + length ≤ (m.slots j).stop) ↔
        ∃ j, i ≤ j ∧ j < i + (n + 1) ∧ (m.slots j).type = .free ∧ (m.slots j).base ≤ address ∧
          address + length ≤ (m.slots j).stop) := by
      intro hno
      constructor
      · rintro ⟨j, h1, h2, h3⟩
        exact ⟨j, by omega, by omega, h3⟩
      · rintro ⟨j, h1, h2, h3⟩
        rcases eq_or_lt_of_le h1 with rfl | hlt
        · exact absurd h3 hno
        · exact ⟨j, hlt, by omega, h3⟩
    rw [allocAtFit, add64_eq hb, add64_eq hs]
    split
    · rename_i hno
      rw [ih (by omega), hrest fun h ↦ hno h.1]
    split
    · rename_i hno
      rw [ih (by omega), hrest fun h ↦ by simp only [Span.stop] at h; omega]
    · rename_i hfree hfit
      simp only [true_iff]
      exact ⟨i, le_rfl, by omega, not_not.mp hfree, by omega, by simp only [Span.stop]; omega⟩

end Search

/-- Every page of the block is free. -/
def AllFree (m : PmmMap) (address length : Nat) : Prop :=
  ∀ a, address ≤ a → a < address + length → typeAt m.live a = some .free

/-- A free block lies in one free entry, if no two free entries touch. -/
theorem AllFree.within {m : PmmMap} {address length : Nat} (h : AllFree m address length)
    (hwf : m.Wf) (hm : Merged .free m.live) (hl : 0 < length) :
    ∃ e ∈ m.live, e.type = .free ∧ e.base ≤ address ∧ address + length ≤ e.stop := by
  obtain ⟨e, he, h1, h2⟩ := hm.within hwf.tiled (show address < address + length by omega) h
  have hty := h address le_rfl (by omega)
  rw [hwf.tiled.typeAt_of_within he ⟨h1, by omega⟩] at hty
  exact ⟨e, he, Option.some.inj hty, h1, h2⟩

theorem allFree_of_within {m : PmmMap} {address length : Nat} (hwf : m.Wf) {e : PmmMapEntry}
    (he : e ∈ m.live) (hfree : e.type = .free) (h1 : e.base ≤ address)
    (h2 : address + length ≤ e.stop) : AllFree m address length := by
  intro a ha1 ha2
  rw [hwf.tiled.typeAt_of_within he ⟨by omega, by omega⟩, hfree]

/-- What `pmm_alloc_at` says about a block: it is free exactly if the call takes it, and a call that
does not take it changes nothing.  A table without a free slot stops a call that would take it. -/
def AtEnds (m : PmmMap) (address length : Nat) : Except Stop (Bool × PmmMap) → Prop
  | .ok (true, _) => AllFree m address length
  | .ok (false, m') => m' = m ∧ ¬ AllFree m address length
  | .error e => TableFull e ∧ AllFree m address length

/-- **The allocators find what is free**, in every run on whole pages in which no range that becomes
free fills the gap between two free entries. -/
theorem alloc_complete {s : PmmState} (h : PageReach (fun m b e ↦ ¬ Closes m b e) s) {n : Nat}
    (hn : 1 ≤ n) (type : PmmMapType) :
    (∀ alignment, 1 ≤ alignment → alignment < 2 ^ 64 → ptmPageGranularity ∣ alignment →
      pmmAllocExt s.map n alignment type = .error (.panic "out of memory" []) →
      ¬ ∃ a, alignment ∣ a ∧ AllFree s.map a (n * ptmPageGranularity)) ∧
    ∀ a, ptmPageGranularity ∣ a → a + n * ptmPageGranularity < 2 ^ 64 →
      AtEnds s.map a (n * ptmPageGranularity) (pmmAllocAt s.map a n type) := by
  obtain ⟨C, hinv⟩ := h.pagedInv.inv
  have hwf := hinv.wf
  have hpos : 0 < n * ptmPageGranularity := Nat.mul_pos hn (by decide)
  constructor
  · rintro alignment ha hal - herr ⟨a, hdvd, hall⟩
    obtain ⟨e, he, hfree, h1, h2⟩ := hall.within hwf h.merged hpos
    have hb := hwf.bound e he
    rw [pmmAllocExt, mul64_eq (by omega)] at herr
    cases hfit : allocFit s.map (n * ptmPageGranularity) alignment s.map.size 0 with
    | none => exact allocFit_ne_none hwf ha hal hpos he hfree h1 h2 hdvd hfit
    | some u =>
      simp only [hfit] at herr
      cases hset : pmmMapSet s.map u (n * ptmPageGranularity) type true with
      | ok m =>
        rw [hset] at herr
        cases herr
      | error e' =>
        rw [hset] at herr
        cases herr
        rcases pmmMapSet_force_error hwf.tiled hwf.bound rfl (by omega)
          (allocFit_stop hwf ha hal hfit) hset with hp | hp
        · simp at hp
        · cases hp
  · intro a _ hs
    rw [pmmAllocAt, mul64_eq (by omega)]
    have hiff := allocAtFit_eq_true hwf hs (n := s.map.size) (i := 0) (by omega)
    by_cases hfit : allocAtFit s.map a (n * ptmPageGranularity) s.map.size 0 = true
    · rw [if_pos hfit]
      obtain ⟨j, -, hj, hfree, h1, h2⟩ := hiff.mp hfit
      have hall := allFree_of_within hwf (slots_mem_live _ (by omega)) hfree h1 h2
      cases hset : pmmMapSet s.map a (n * ptmPageGranularity) type true with
      | ok m => exact hall
      | error e => exact ⟨pmmMapSet_force_error hwf.tiled hwf.bound rfl (by omega) hs hset, hall⟩
    · rw [if_neg hfit]
      refine ⟨rfl, fun hall ↦ hfit (hiff.mpr ?_)⟩
      obtain ⟨e, he, hfree, h1, h2⟩ := hall.within hwf h.merged hpos
      obtain ⟨j, hj, rfl⟩ := mem_live.mp he
      exact ⟨j, Nat.zero_le _, by omega, hfree, h1, h2⟩

/-- A block is taken and given back, which closes no gap; a block of all three pages is found. -/
theorem alloc_complete_three : ∃ s, PageReach (fun m b e ↦ ¬ Closes m b e) s ∧
    AllFree s.map 0x1000 (3 * ptmPageGranularity) ∧
    pmmAllocExt s.map 3 0x1000 .used ≠ .error (.panic "out of memory" []) := by
  have hrun : ((pmmMapAdd .empty 0x1000 0x3000 .free).toOption.bind fun m ↦
      (pmmAllocExt m 1 0x1000 .used).toOption.bind fun r ↦
        (pmmFree r.2 r.1 1).toOption.map fun m' ↦
          (m.live, r.1, decide (Closes r.2 0x1000 0x2000), m'.live)) =
      some ([⟨0x1000, 0x3000, .free⟩], 0x1000, false, [⟨0x1000, 0x3000, .free⟩]) := by
    decide +kernel
  obtain ⟨m, hm, hrun⟩ := Option.bind_eq_some_iff.mp hrun
  obtain ⟨r, hr, hrun⟩ := Option.bind_eq_some_iff.mp hrun
  obtain ⟨m', hm', hfacts⟩ := Option.map_eq_some_iff.mp hrun
  simp only [Prod.mk.injEq, decide_eq_false_iff_not] at hfacts
  obtain ⟨hlive, haddr, hgap, hlive'⟩ := hfacts
  have h₁ : PageReach (fun m b e ↦ ¬ Closes m b e) ⟨m, []⟩ :=
    PageReach.empty.add (r := ⟨0x1000, 0x3000, .free⟩) (by decide) (by decide) (by decide)
      (by decide) (by simp [live, PmmMap.empty])
      (fun _ hc ↦ by obtain ⟨⟨e, he, -⟩, -⟩ := hc; simp [live, PmmMap.empty] at he)
      (toOption_eq_some hm)
  have h₂ := h₁.alloc (n := 1) (r := r)
    ⟨by decide, by decide, by decide, by rw [show (⟨m, []⟩ : PmmState).map = m from rfl, hlive]; decide⟩
    (by decide) (toOption_eq_some hr)
  have h₃ := h₂.free (k := 0) (x := ⟨r.1, 1, .used⟩) rfl
    (by rw [haddr]; exact hgap) (toOption_eq_some hm')
  have hall : AllFree m' 0x1000 (3 * ptmPageGranularity) := by
    intro a h1 h2
    rw [hlive', typeAt_cons, if_pos ⟨h1, h2⟩]
  exact ⟨_, h₃, hall, fun herr ↦
    (alloc_complete h₃ (by decide) .used).1 0x1000 (by decide) (by decide) (by decide) herr
      ⟨0x1000, by decide, hall⟩⟩

/-- **The gap between two free entries.**  Three pages are free; the first two are taken one by one
and given back in that order.  All three are free again, but in two entries. -/
theorem alloc_incomplete : ∃ s, PageReach (fun _ _ _ ↦ True) s ∧
    s.map.live = [⟨0x1000, 0x2000, .free⟩, ⟨0x3000, 0x1000, .free⟩] ∧
    AllFree s.map 0x1000 (3 * ptmPageGranularity) ∧
    pmmAllocExt s.map 3 0x1000 .used = .error (.panic "out of memory" []) ∧
    (pmmAllocAt s.map 0x1000 3 .used).map Prod.fst = .ok false := by
  have hrun : ((pmmMapAdd .empty 0x1000 0x3000 .free).toOption.bind fun m ↦
      (pmmAllocExt m 1 0x1000 .used).toOption.bind fun r ↦
        (pmmAllocExt r.2 1 0x1000 .used).toOption.bind fun r' ↦
          (pmmFree r'.2 r.1 1).toOption.bind fun m₁ ↦
            (pmmFree m₁ r'.1 1).toOption.map fun m₂ ↦
              ([m.live, r.2.live, m₂.live],
                decide (stopOf (pmmAllocExt m₂ 3 0x1000 .used) =
                  some (.panic "out of memory" [])),
                (pmmAllocAt m₂ 0x1000 3 .used).toOption.map Prod.fst)) =
      some ([[⟨0x1000, 0x3000, .free⟩], [⟨0x1000, 0x1000, .used⟩, ⟨0x2000, 0x2000, .free⟩],
        [⟨0x1000, 0x2000, .free⟩, ⟨0x3000, 0x1000, .free⟩]], true, some false) := by
    decide +kernel
  obtain ⟨m, hm, hrun⟩ := Option.bind_eq_some_iff.mp hrun
  obtain ⟨r, hr, hrun⟩ := Option.bind_eq_some_iff.mp hrun
  obtain ⟨r', hr', hrun⟩ := Option.bind_eq_some_iff.mp hrun
  obtain ⟨m₁, hm₁, hrun⟩ := Option.bind_eq_some_iff.mp hrun
  obtain ⟨m₂, hm₂, hfacts⟩ := Option.map_eq_some_iff.mp hrun
  simp only [Prod.mk.injEq, List.cons.injEq, decide_eq_true_eq, and_true] at hfacts
  obtain ⟨⟨hlive, hlive₁, hlive₂⟩, hext, hat⟩ := hfacts
  have h₁ : PageReach (fun _ _ _ ↦ True) ⟨m, []⟩ :=
    PageReach.empty.add (r := ⟨0x1000, 0x3000, .free⟩) (by decide) (by decide) (by decide)
      (by decide) (by simp [live, PmmMap.empty]) (fun _ ↦ trivial) (toOption_eq_some hm)
  have h₂ := h₁.alloc (n := 1) (r := r)
    ⟨by decide, by decide, by decide, by rw [show (⟨m, []⟩ : PmmState).map = m from rfl, hlive]; decide⟩
    (by decide) (toOption_eq_some hr)
  have h₃ := h₂.alloc (n := 1) (r := r')
    ⟨by decide, by decide, by decide, by
      rw [show (PmmState.hand ⟨m, []⟩ 1 .used r).map = r.2 from rfl, hlive₁]; decide⟩
    (by decide) (toOption_eq_some hr')
  have h₄ := (h₃.free (k := 1) (x := ⟨r.1, 1, .used⟩) rfl trivial (toOption_eq_some hm₁)).free
    (k := 0) (x := ⟨r'.1, 1, .used⟩) rfl trivial (toOption_eq_some hm₂)
  refine ⟨_, h₄, hlive₂, fun a h1 h2 ↦ ?_, stopOf_eq_some hext, ?_⟩
  · rw [hlive₂, typeAt_cons, typeAt_cons]
    by_cases hlt : a < 0x3000
    · rw [if_pos ⟨h1, hlt⟩]
    · rw [if_neg fun hc ↦ hlt hc.2, if_pos ⟨not_lt.mp hlt, h2⟩]
  · obtain ⟨p, hp, hfst⟩ := Option.map_eq_some_iff.mp hat
    rw [toOption_eq_some hp, ← hfst]
    rfl

end LunarPrekernel
