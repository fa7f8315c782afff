import LunarPrekernel.Pmm.Paged
import LunarPrekernel.Pmm.Snapshot

/-!
# Giving a block back

`pmm_free` of the block `pmm_alloc_ext` has just handed out leaves the live entries exactly as they
were, as long as no two free entries touch.  On whole pages the block is the beginning of a free
entry `x`.  What the allocation leaves is the entries before `x`, the block, what remains of `x`, and
the entries after it, with the block glued to one of its neighbours if that has its type; and
whatever it is glued to, the free cuts the table back to the entries before the block and the ones
after it (`Join.cut`).  Into that, the range goes as `x` again (`Ready.refill`).

* `free_alloc` — for every request, and for the block of a snapshot.
-/

set_option autoImplicit false

namespace LunarPrekernel

open SpanMap Span PmmMap

/-! ## A forced call that splits no entry -/

section Cut

variable {m m₁ : PmmMap} {pre post : List PmmMapEntry} {x : PmmMapEntry} {base length stop : Nat}
  {type : PmmMapType}

theorem flatMap_remains_of_clear {l : List PmmMapEntry} (ht : Tiled l) (hbs : base < stop)
    (h : ∀ s ∈ l, s.Clear base stop) : l.flatMap (remains base stop) = l := by
  rw [List.flatMap_congr fun s hs ↦ remains_of_clear hbs (ht.pos s hs) (h s hs),
    List.flatMap_singleton']

/-- A table the range is about to go into: the entries `l` end before it, the entries `r` begin
after it, and no dead slot swallows it. -/
structure Ready (m : PmmMap) (l r : List PmmMapEntry) (base stop : Nat) (type : PmmMapType) :
    Prop where
  live : m.live = l ++ r
  tiled : Tiled m.live
  bound : ∀ s ∈ m.live, s.stop < 2 ^ 64
  before : ∀ s ∈ l, s.stop ≤ base
  after : ∀ s ∈ r, stop ≤ s.base
  dead : (∀ s ∈ m.live, s.base ≤ base) → (∀ s ∈ m.live, ¬ (s.type = type ∧ s.stop = base)) →
    ¬ DeadNext m stop type

theorem Ready.clear (h : Ready m pre post base stop type) : ∀ s ∈ m.live, s.Clear base stop := by
  intro s hs
  rw [h.live] at hs
  exact (List.mem_append.mp hs).imp (h.before s) (h.after s)

/-- A range in an entry that reaches out of it on one side at most cuts the entry, and goes in. -/
theorem force_ready (ht : Tiled m.live) (hb : ∀ s ∈ m.live, s.stop < 2 ^ 64)
    (hlive : m.live = pre ++ x :: post) (hl : base + length = stop) (hbs : base < stop)
    (h1 : x.base ≤ base) (h2 : stop ≤ x.stop) (hno : ¬ (x.base < base ∧ stop < x.stop))
    (hsw : ¬ Swallowed m base stop type) :
    ∃ m₁, pmmMapSet m base length type true = setInsert m₁ base length type ∧
      Ready m₁ (pre ++ beforeRange base x) (afterRange stop x ++ post) base stop type ∧
      DeadSlots m m₁ stop := by
  have hx : x ∈ m.live := by rw [hlive]; simp
  have hxb := hb x hx
  have hpre : ∀ s ∈ pre, s.stop ≤ base := by
    rw [hlive] at ht
    exact fun s hs ↦ ((tiled_append.mp ht).2.2 s hs x (by simp)).trans h1
  have hpost : ∀ s ∈ post, stop ≤ s.base := by
    rw [hlive] at ht
    exact fun s hs ↦ h2.trans ((tiled_cons.mp (tiled_append.mp ht).2.1).2.1 s hs)
  have hno' : ∀ s ∈ m.live, ¬ (s.base < base ∧ stop < s.stop) := by
    intro s hs
    simp only [hlive, List.mem_append, List.mem_cons] at hs
    rcases hs with hs | rfl | hs
    · have := hpre s hs
      omega
    · exact hno
    · have := hpost s hs
      omega
  have hf : ∀ s ∈ m.live, ¬ Flush base stop s := by
    intro s hs
    have hpos := ht.pos s hs
    simp only [hlive, List.mem_append, List.mem_cons] at hs
    rcases hs with hs | rfl | hs
    · have := hpre s hs
      simp only [Flush, Span.stop] at *; omega
    · simp only [Flush]; omega
    · have := hpost s hs
      simp only [Flush, Span.stop] at *; omega
  obtain ⟨m₁, hm₁, hlive₁, hdead⟩ := pmmMapSet_remains type ht hb hl hbs (by omega) hno'
  refine ⟨m₁, hm₁, ⟨?_, ?_, bound_of_remains ht hb hlive₁, fun s hs ↦ ?_, fun s hs ↦ ?_,
    fun hlow hprev hn ↦ hsw (swallowed_of_remains hbs hno' hf hlive₁ hdead hlow hprev hn)⟩,
    hdead⟩
  · rw [hlive, tiled_append, tiled_cons] at ht
    rw [hlive₁, hlive, List.flatMap_append, List.flatMap_cons,
      flatMap_remains_of_clear ht.1 hbs fun s hs ↦ Or.inl (hpre s hs),
      flatMap_remains_of_clear ht.2.1.2.2 hbs fun s hs ↦ Or.inr (hpost s hs), remains,
      if_neg (hf x hx)]
    simp only [List.append_assoc]
  · rw [hlive₁]
    exact tiled_remains hbs.le ht
  · rcases List.mem_append.mp hs with hs | hs
    · exact hpre s hs
    · rw [beforeRange] at hs
      split at hs
      · rw [List.mem_singleton.mp hs]
        simp only [Span.stop]; omega
      · simp at hs
  · rcases List.mem_append.mp hs with hs | hs
    · rw [afterRange] at hs
      split at hs
      · rw [List.mem_singleton.mp hs]
        exact le_max_right _ _
      · simp at hs
    · exact hpost s hs

/-- Two ways to cut a list at a range are one. -/
theorem split_unique {l r l' r' : List PmmMapEntry} (hbs : base < stop) (h : l ++ r = l' ++ r')
    (hl : ∀ s ∈ l, s.stop ≤ base) (hr : ∀ s ∈ r, stop ≤ s.base) (hl' : ∀ s ∈ l', s.stop ≤ base)
    (hr' : ∀ s ∈ r', stop ≤ s.base) : l = l' ∧ r = r' := by
  rcases List.append_eq_append_iff.mp h with ⟨c, rfl, rfl⟩ | ⟨c, rfl, rfl⟩
  · cases c with
    | nil => simp
    | cons y c =>
      have h1 := hl' y (by simp)
      have h2 := hr y (by simp)
      simp only [Span.stop] at h1; omega
  · cases c with
    | nil => simp
    | cons y c =>
      have h1 := hl y (by simp)
      have h2 := hr' y (by simp)
      simp only [Span.stop] at h1; omega

/-- Into such a table the range goes as a join. -/
theorem Ready.join (h : Ready m pre post base stop type) (hl : base + length = stop)
    (hbs : base < stop) (hs : stop < 2 ^ 64) {m' : PmmMap}
    (hm' : setInsert m base length type = .ok m') :
    Join ⟨base, length, type⟩ pre post m'.live := by
  have hins := inserted_of_insert h.tiled h.bound hl hbs hs h.clear h.dead hm'
  obtain ⟨l, r, hlr, hpre, hpost, hj, -⟩ := hins
  simp only [Span.stop_mk, hl] at hpre hpost
  obtain ⟨rfl, rfl⟩ := split_unique hbs (h.live.symm.trans hlr) h.before h.after hpre hpost
  exact hj

/-- There is room for it if the table is not full, or if an entry runs on from it. -/
theorem Ready.returns (h : Ready m pre post base stop type) (hl : base + length = stop)
    (hbs : base < stop) (hs : stop < 2 ^ 64)
    (hroom : m.size < pmmMapMaxEntries ∨ ∃ q ∈ post.head?, q.type = type ∧ q.base = stop) :
    ∃ m', setInsert m base length type = .ok m' := by
  subst hl
  rcases setInsert_spec type h.tiled h.bound h.clear (by omega) hs h.dead with
    ⟨m', hm', -⟩ | ⟨hfull, herr⟩
  · exact ⟨m', hm'⟩
  obtain ⟨q, hq, htype, hbase⟩ := hroom.resolve_left (by omega)
  obtain ⟨r, rfl⟩ : ∃ r, post = q :: r := by
    cases post with
    | nil => simp at hq
    | cons z r => exact ⟨r, by rw [Option.mem_some.mp hq]⟩
  obtain ⟨l, r', hlr, hidx, hpre, hpost⟩ := live_eq_of_clear h.tiled h.clear (by omega)
  obtain ⟨rfl, rfl⟩ := split_unique hbs (h.live.symm.trans hlr) h.before h.after hpre hpost
  obtain ⟨hi, hslot⟩ := slots_of_live h.live
  have hle := m.size_le
  rw [setInsert, if_neg (by omega)]
  simp only [← hidx]
  split
  · exact ⟨_, rfl⟩
  · rw [if_neg (by omega), if_pos ⟨by rw [hslot]; exact htype, by
      rw [hslot, add64_eq hs]; exact hbase⟩]
    exact ⟨_, rfl⟩

/-- Whatever the range was glued to: cutting it out of the entry it is in now gives the lists it was
put between. -/
theorem Join.cut {l r k : List PmmMapEntry} (h : Join ⟨base, length, type⟩ l r k)
    (hl : base + length = stop) (hbs : base < stop) (ht : Tiled (l ++ r)) :
    ∃ a z b, k = a ++ z :: b ∧ z.base ≤ base ∧ stop ≤ z.stop ∧
      ¬ (z.base < base ∧ stop < z.stop) ∧ a ++ beforeRange base z = l ∧
      afterRange stop z ++ b = r := by
  cases h with
  | @prev l r p hpt hpb =>
    have hp := ht.pos p (by simp)
    simp only at hpb
    have hz : ({ p with length := p.length + length } : PmmMapEntry).stop = stop := by
      simp only [Span.stop] at hpb ⊢; omega
    have hb : p.base < base := by simp only [Span.stop] at hpb; omega
    refine ⟨l, { p with length := p.length + length }, r, rfl, hb.le, hz.ge, by omega, ?_, ?_⟩
    · rw [beforeRange, if_pos hb, hz, min_eq_right hbs.le]
      simp only [Span.stop] at hpb
      rw [show base - p.base = p.length by omega]
    · rw [afterRange, if_neg (by omega), List.nil_append]
  | @next l r q _ hqt hqb =>
    have hq := ht.pos q (by simp)
    simp only [Span.stop_mk, hl] at hqb
    have hz : (⟨base, q.length + length, q.type⟩ : PmmMapEntry).stop = q.stop := by
      simp only [Span.stop]; omega
    have hqs : stop < q.stop := by simp only [Span.stop]; omega
    refine ⟨l, _, r, rfl, le_rfl, by rw [hz]; exact hqs.le, fun hc ↦ lt_irrefl _ hc.1, ?_, ?_⟩
    · rw [beforeRange, if_neg (lt_irrefl base), List.append_nil]
    · rw [afterRange, if_pos (by rw [hz]; exact hqs), hz, max_eq_right hbs.le, ← hqb, Span.stop,
        Nat.add_sub_cancel_left]
      rfl
  | alone _ _ =>
    have hz : (⟨base, length, type⟩ : PmmMapEntry).stop = stop := hl
    refine ⟨l, _, r, rfl, le_rfl, hz.ge, fun hc ↦ lt_irrefl _ hc.1, ?_, ?_⟩
    · rw [beforeRange, if_neg (lt_irrefl base), List.append_nil]
    · rw [afterRange, if_neg (by omega), List.nil_append]

/-- The range goes back as the entry it was the beginning of. -/
theorem Ready.refill (h : Ready m pre (afterRange stop x ++ post) base stop x.type)
    (hl : base + length = stop) (hbs : base < stop) (hs : stop < 2 ^ 64) (hx : x.base = base)
    (hstop : stop ≤ x.stop) (hprev : ∀ p ∈ pre, ¬ (p.type = x.type ∧ p.stop = base))
    (hnext : ∀ q ∈ post, ¬ (q.type = x.type ∧ q.base = x.stop))
    (hroom : pre.length + post.length < pmmMapMaxEntries) :
    ∃ m', setInsert m base length x.type = .ok m' ∧ m'.live = pre ++ x :: post := by
  subst hx
  rcases Nat.lt_or_ge stop x.stop with hlt | hge
  · -- what remains of the entry runs on from the range
    have hafter : afterRange stop x = [⟨stop, x.stop - stop, x.type⟩] := by
      rw [afterRange, if_pos hlt, max_eq_right hbs.le]
    rw [hafter, List.singleton_append] at h
    obtain ⟨m', hm'⟩ := h.returns hl hbs hs (Or.inr ⟨_, rfl, rfl, rfl⟩)
    refine ⟨m', hm', ?_⟩
    rw [(h.join hl hbs hs hm').of_next hprev rfl hl.symm]
    congr 2
    obtain ⟨b, n, t⟩ := x
    simp only [Span.stop_mk] at hl hlt ⊢
    congr 1; omega
  · have hafter : afterRange stop x = [] := by rw [afterRange, if_neg (by omega)]
    rw [hafter, List.nil_append] at h
    have hsize : m.size = pre.length + post.length := by
      rw [← live_length, h.live, List.length_append]
    obtain ⟨m', hm'⟩ := h.returns hl hbs hs (Or.inl (by omega))
    refine ⟨m', hm', ?_⟩
    have hxs : x.stop = stop := by omega
    rw [hxs] at hnext
    rw [(h.join hl hbs hs hm').of_alone hprev fun q hq ↦ by
      simp only [Span.stop_mk, hl]; exact hnext q hq]
    congr 2
    obtain ⟨b, n, t⟩ := x
    simp only [Span.stop_mk] at hl hxs ⊢
    congr 1; omega

end Cut

/-! ## Taking a block and giving it back -/

/-- The beginning of a free entry that touches no other free entry. -/
theorem free_set {m m' : PmmMap} {x : PmmMapEntry} {length : Nat} {type : PmmMapType}
    (hwf : m.Wf) (hm : Merged .free m.live) (hx : x ∈ m.live) (hfree : x.type = .free)
    (hl : 0 < length) (hstop : x.base + length ≤ x.stop)
    (h : pmmMapSet m x.base length type true = .ok m') :
    ∃ m'', pmmMapSet m' x.base length .free true = .ok m'' ∧ m''.live = m.live := by
  have hbs : x.base < x.base + length := by omega
  have hxb := hwf.bound x hx
  have hs : x.base + length < 2 ^ 64 := by omega
  obtain ⟨pre, post, hlive⟩ := List.append_of_mem hx
  have hwf' : m'.Wf := by
    have hspec := pmmMapSet_spec type true hwf rfl hbs hs
      (clean_of_within hwf.tiled hbs ⟨x, hx, le_rfl, hstop⟩)
    rw [h] at hspec
    exact hspec.wf
  -- the block goes in between what lies before it and what lies after it
  obtain ⟨m₁, hm₁, hready, -⟩ := force_ready hwf.tiled hwf.bound hlive rfl hbs le_rfl hstop
    (by omega) (hwf.not_swallowed hbs)
  rw [hm₁] at h
  rw [beforeRange, if_neg (lt_irrefl _), List.append_nil] at hready
  have hj := hready.join rfl hbs hs h
  have ht₁ := hready.tiled
  rw [hready.live] at ht₁
  -- and is cut out of there again
  obtain ⟨a, z, b, hlive', h1, h2, hno, hpre, hpost⟩ := Join.cut hj rfl hbs ht₁
  obtain ⟨m₂, hm₂, hready₂, -⟩ := force_ready hwf'.tiled hwf'.bound hlive' rfl hbs h1 h2 hno
    (show ¬ Swallowed m' x.base (x.base + length) .free from hwf'.not_swallowed hbs)
  rw [hpre, hpost, ← hfree] at hready₂
  have hsize : m.size = pre.length + (post.length + 1) := by
    rw [← live_length, hlive, List.length_append, List.length_cons]
  have hle := m.size_le
  obtain ⟨m'', hm'', hlive''⟩ := hready₂.refill rfl hbs hs rfl hstop
    (fun p hp hc ↦ hm p (by rw [hlive]; simp [hp]) x hx (hc.1.trans hfree) hfree hc.2)
    (fun q hq hc ↦ hm x hx q (by rw [hlive]; simp [hq]) hfree (hc.1.trans hfree) hc.2.symm)
    (by omega)
  rw [hfree] at hm''
  exact ⟨m'', by rw [hm₂, hm''], by rw [hlive'', hlive]⟩

/-- The block `pmm_alloc_ext` takes on a table of whole pages is the beginning of a free entry. -/
theorem allocFit_paged {m : PmmMap} (hwf : m.Wf) (he : Ends (ptmPageGranularity ∣ ·) m)
    {length u : Nat} (h : allocFit m length ptmPageGranularity m.size 0 = some u) :
    ∃ x ∈ m.live, x.type = .free ∧ u = x.base ∧ u + length ≤ x.stop := by
  obtain ⟨x, hx, hfree, hu, hlt, hfit⟩ := allocFit_eq_some (by omega) h
  have hb := hwf.bound x hx
  have hpos := hwf.tiled.pos x hx
  obtain ⟨hbase, hstop⟩ := he x hx
  rw [add64_eq hb] at hlt
  have hroom : x.base + ptmPageGranularity - 1 < 2 ^ 64 := by
    have hdvd : ptmPageGranularity ∣ x.length := by
      have := Nat.dvd_sub hstop hbase
      rwa [Span.stop, Nat.add_sub_cancel_left] at this
    have := Nat.le_of_dvd hpos hdvd
    simp only [Span.stop] at hb; omega
  have hle := mathCeil_le (by decide) hroom le_rfl hbase
  have hge := (mathCeil_spec (by decide) hroom).1
  have hub : u = x.base := by omega
  subst hub
  simp only [Span.stop] at hb
  rw [sub64_eq (b := x.base) (by omega) le_rfl, Nat.sub_self, sub64_eq (by omega) (Nat.zero_le _)]
    at hfit
  exact ⟨x, hx, hfree, rfl, by simp only [Span.stop]; omega⟩

/-- **Taking a block and giving it back** changes no live entry, in every state of a run on whole
pages in which no two free entries touch; and neither does a snapshot that is made and freed. -/
theorem free_alloc {s : PmmState} (h : PageReach (fun _ _ _ ↦ True) s)
    (hm : Merged .free s.map.live) :
    (∀ (n : Nat) (type : PmmMapType) (r : Nat × PmmMap), 1 ≤ n → type ≠ .free →
      pmmAllocExt s.map n ptmPageGranularity type = .ok r →
      ∃ m', pmmFree r.2 r.1 n = .ok m' ∧ m'.live = s.map.live) ∧
    ∀ x m₁, pmmCreateSnapshot s.map = .ok (x, m₁) →
      ∃ m', pmmFreeSnapshot m₁ x = .ok m' ∧ m'.live = s.map.live := by
  obtain ⟨⟨C, hinv⟩, hends, -⟩ := h.pagedInv
  have hwf := hinv.wf
  have halloc : ∀ (n : Nat) (type : PmmMapType) (r : Nat × PmmMap),
      pmmAllocExt s.map n ptmPageGranularity type = .ok r →
      ∃ m', pmmFree r.2 r.1 n = .ok m' ∧ m'.live = s.map.live := by
    intro n type r hr
    obtain ⟨hfit, hset⟩ := pmmAllocExt_ok hr
    obtain ⟨x, hx, hfree, hu, hstop⟩ := allocFit_paged hwf hends hfit
    have hxb := hwf.bound x hx
    rw [hu] at hset hstop
    rw [pmmFree, hu]
    rcases Nat.eq_zero_or_pos (mul64 n ptmPageGranularity) with hz | hp
    · -- the length wrapped to 0
      have hbase : x.base < 2 ^ 64 := by omega
      rw [hz] at hset ⊢
      rw [pmmMapSet_zero hwf hbase] at hset
      rw [← Except.ok.inj hset]
      exact ⟨s.map, pmmMapSet_zero hwf hbase, rfl⟩
    · exact free_set hwf hm hx hfree hp hstop hset
  refine ⟨fun n type r _ _ ↦ halloc n type r, fun x m₁ hx ↦ ?_⟩
  rw [pmmCreateSnapshot] at hx
  obtain ⟨r, hr, hx⟩ := bind_eq_ok hx
  have hxr : x.phys = r.1 ∧ x.bytes = snapshotBytes s.map ∧ m₁ = r.2 := by
    split at hx
    · cases hx
    split at hx
    · cases hx
    split at hx
    · cases hx
    · cases hx
      exact ⟨rfl, rfl, rfl⟩
  rw [pmmFreeSnapshot, hxr.1, hxr.2.1, hxr.2.2]
  exact halloc _ .allocated r hr

/-- A block that goes into a free entry whole and is glued to the block before it: the allocation
deletes an entry, and the free inserts it again. -/
theorem free_alloc_exact : ∃ s, PageReach (fun _ _ _ ↦ True) s ∧
    s.map.live = [⟨0x1000, 0x1000, .used⟩, ⟨0x2000, 0x1000, .free⟩, ⟨0x8000, 0x1000, .reserved⟩] ∧
    ∃ r m', pmmAllocExt s.map 1 ptmPageGranularity .used = .ok r ∧
      r.2.live = [⟨0x1000, 0x2000, .used⟩, ⟨0x8000, 0x1000, .reserved⟩] ∧
      pmmFree r.2 r.1 1 = .ok m' ∧ m'.live = s.map.live := by
  have hrun : ((pmmMapAdd .empty 0x1000 0x2000 .free).toOption.bind fun m ↦
      (pmmMapAdd m 0x8000 0x1000 .reserved).toOption.bind fun m₁ ↦
        (pmmAllocExt m₁ 1 0x1000 .used).toOption.bind fun r ↦
          (pmmAllocExt r.2 1 0x1000 .used).toOption.map fun r' ↦
            [m.live, m₁.live, r.2.live, r'.2.live]) =
      some [[⟨0x1000, 0x2000, .free⟩], [⟨0x1000, 0x2000, .free⟩, ⟨0x8000, 0x1000, .reserved⟩],
        [⟨0x1000, 0x1000, .used⟩, ⟨0x2000, 0x1000, .free⟩, ⟨0x8000, 0x1000, .reserved⟩],
        [⟨0x1000, 0x2000, .used⟩, ⟨0x8000, 0x1000, .reserved⟩]] := by
    decide +kernel
  obtain ⟨m, hm, hrun⟩ := Option.bind_eq_some_iff.mp hrun
  obtain ⟨m₁, hm₁, hrun⟩ := Option.bind_eq_some_iff.mp hrun
  obtain ⟨r, hr, hrun⟩ := Option.bind_eq_some_iff.mp hrun
  obtain ⟨r', hr', hfacts⟩ := Option.map_eq_some_iff.mp hrun
  simp only [List.cons.injEq, and_true] at hfacts
  obtain ⟨hlive, hlive₁, hlive₂, hlive₃⟩ := hfacts
  have h₁ : PageReach (fun _ _ _ ↦ True) ⟨m, []⟩ :=
    PageReach.empty.add (r := ⟨0x1000, 0x2000, .free⟩) (by decide) (by decide) (by decide)
      (by decide) (by simp [live, PmmMap.empty]) (fun _ ↦ trivial) (toOption_eq_some hm)
  have h₂ := h₁.add (r := ⟨0x8000, 0x1000, .reserved⟩) (by decide) (by decide) (by decide)
    (by decide) (by rw [show (⟨m, []⟩ : PmmState).map = m from rfl, hlive]; decide)
    (fun _ ↦ trivial) (toOption_eq_some hm₁)
  have h₃ := h₂.alloc (n := 1) (r := r)
    ⟨by decide, by decide, by decide, by
      rw [show (⟨m₁, []⟩ : PmmState).map = m₁ from rfl, hlive₁]; decide⟩
    (by decide) (toOption_eq_some hr)
  have hmerged : Merged .free r.2.live := by
    rw [hlive₂]
    unfold Merged
    decide
  obtain ⟨m', hm', hlive'⟩ :=
    (free_alloc h₃ hmerged).1 1 .used r' (by decide) (by decide) (toOption_eq_some hr')
  exact ⟨_, h₃, hlive₂, r', m', toOption_eq_some hr', hlive₃, hm', hlive'⟩

end LunarPrekernel
