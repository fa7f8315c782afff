import LunarPrekernel.Pagedb.Defs
import LunarPrekernel.Pmm.Paged

/-!
# The pages of the page database

Each page of the database costs a call of `pmm_alloc_ext` and one of `ptm_map`, which takes frames
of its own.  `PagedbInv` is what holds between two pages: what the tables say, and that the frames
of the database were free at the start and are out now.

* `PagedbInv.run_ok`, `PagedbInv.run_error` — how the pages of a run can end.
* `Mapper.Inv.pagedbSetup_ok` — what a call of `pagedb_setup` that returns has done.
-/

set_option autoImplicit false

namespace LunarPrekernel

open SpanMap Span PmmMap PageTable Sweep

/-! ## One page -/

/-- The call of `ptm_map` for a page and its frame. -/
def pageCall (p : Nat × Nat) : MapCall := ⟨p.1, p.2, ptmPageGranularity, hhdmFlags⟩

/-- The frame of a page, as an allocation. -/
def pageFrame (p : Nat × Nat) : Allocation := ⟨p.2, 1, .used⟩

/-- How the allocator says no. -/
def AllocError (e : Stop) : Prop := (∃ fmt, e = .panic fmt []) ∨ e = .fault

/-- What holds between two pages, in a call of `pagedb_setup` that began with the memory `mem` and
the allocator in the state `start`.  `W` are the addresses of the database. -/
structure PagedbInv {limit : Nat} {hlimit : limit ≤ 2 ^ 56} {P : Type}
    (m : Mapper (pmmFrames limit hlimit) P) (W : Nat → Prop) (mem : Memory) (start : PmmState)
    (s : Pagedb) : Prop where
  inv : ∃ U, m.Inv s.machine U
  laid : m.Laid W (s.pages.map pageCall) s.machine.mem
  translate : ∀ a, m.translate s.machine.mem a =
    (s.pages.map pageCall).foldl (m.paint a) (m.translate mem a)
  since : start.Since s.machine.frames
  aligned : ∀ p ∈ s.pages, 4096 ∣ p.1 ∧ 4096 ∣ p.2
  held : ∀ p ∈ s.pages, pageFrame p ∈ s.machine.frames.held
  was_free : ∀ p ∈ s.pages, ∀ b, (pageFrame p).Contains b → typeAt start.map.live b = some .free
  distinct : (s.pages.map Prod.snd).Nodup

/-- A page that `ptm_map` can map. -/
structure PageFits {limit : Nat} {hlimit : limit ≤ 2 ^ 56} {P : Type}
    (m : Mapper (pmmFrames limit hlimit) P) (W : Nat → Prop) (v : Nat) : Prop where
  aligned : 4096 ∣ v
  fits : ∀ g, g + 4096 ≤ limit → m.Fits (pageCall (v, g))
  mem : W v

section Page

variable {limit : Nat} {hlimit : limit ≤ 2 ^ 56} {P : Type}
  {m : Mapper (pmmFrames limit hlimit) P} {W : Nat → Prop} {mem : Memory} {start : PmmState}
  {s : Pagedb} {v : Nat}

theorem frame_stop_le {C : Nat → Prop} (hC : ∀ a, C a → a < limit) {frames : PmmState}
    (h : frames.Inv C) {p : Nat × Nat} (hp : pageFrame p ∈ frames.held) : p.2 + 4096 ≤ limit := by
  have := h.held_stop_le hC hp (show 0 < 1 * 4096 by decide)
  simpa [pageFrame, Allocation.span, Span.stop, ptmPageGranularity] using this

/-- A page of 4 KiB is not cut any further. -/
theorem pages_pageCall (p : Nat × Nat) (top : Nat) : (pageCall p).pages top = [(0, p.1)] := by
  have hheight : ∀ t, chooseHeight p.1 p.2 4096 t = 0 := by
    intro t
    induction t with
    | zero => rfl
    | succ t ih =>
      have h1 := span_pos t
      rw [chooseHeight, if_neg fun h ↦ ?_, ih]
      have h2 := h.2.2
      have h3 : 4096 ≤ span t := Nat.le_of_dvd h1 (page_dvd_span t)
      rw [span] at h2
      omega
  show pages top (4096 / 4096 + 1) p.1 p.2 4096 = _
  rw [pages, if_pos (by decide)]
  simp only [hheight, span, Nat.sub_self]
  rw [pages, if_neg (by decide)]

/-- Pages of 4 KiB never lie inside one another. -/
theorem not_clash_pageCall (p q : Nat × Nat) (top levels : Nat) :
    ¬ (pageCall p).Clash top levels (pageCall q) := by
  rintro ⟨Q, hQ, R, hR, hlt, -⟩
  rw [pages_pageCall] at hQ
  obtain rfl := List.mem_singleton.mp hQ
  exact Nat.not_lt_zero _ hlt

/-- An unaligned page cannot be mapped. -/
theorem pagedbPage_unaligned (hv : ¬ 4096 ∣ v) : ∃ e, pagedbPage m.call v s = .error e := by
  rw [pagedbPage]
  cases pmmAllocExt s.machine.frames.map 1 ptmPageGranularity .used with
  | error e => exact ⟨e, rfl⟩
  | ok r =>
    obtain ⟨e, he, -⟩ := m.unaligned ⟨s.machine.mem, s.machine.frames.hand 1 .used r⟩
      (c := pageCall (v, r.1)) (Or.inr (Or.inl fun h ↦ hv (Nat.dvd_of_mod_eq_zero h)))
    refine ⟨e, ?_⟩
    show Except.map _ (m.call _ (pageCall (v, r.1))) = _
    rw [he]
    rfl

/-- **One page** that was mapped. -/
theorem PagedbInv.page_ok (hkeeps : m.Keeps) (h : PagedbInv m W mem start s)
    (hv : ∀ g, g + 4096 ≤ limit → m.Fits (pageCall (v, g))) {t : Pagedb}
    (ht : pagedbPage m.call v s = .ok t) :
    4096 ∣ v ∧ PagedbInv m W mem start t ∧ s.machine.frames.Since t.machine.frames ∧
      ∃ g, t.pages = s.pages ++ [(v, g)] := by
  obtain ⟨U, hinv⟩ := h.inv
  obtain ⟨C, howns, hC, hU⟩ := hinv.owns
  have hserves : s.machine.frames.Serves 1 ptmPageGranularity .used :=
    ⟨by decide, by decide, by decide, (howns.serves_frame hC hlimit).2.2.2⟩
  rw [pagedbPage] at ht
  obtain ⟨r, hr, hmap⟩ := bind_eq_ok ht
  obtain ⟨t, hcall, rfl⟩ := map_eq_ok hmap
  have hcall : m.call ⟨s.machine.mem, s.machine.frames.hand 1 .used r⟩ (pageCall (v, r.1)) = .ok t :=
    hcall
  obtain ⟨r', hr', hown', hh⟩ | ⟨e, he, -⟩ := howns.pmmAllocExt_spec hserves
  swap
  · cases hr.symm.trans he
  obtain rfl : r = r' := Except.ok.inj (hr.symm.trans hr')
  have hheld : pageFrame (v, r.1) ∈ (s.machine.frames.hand 1 .used r).held := List.mem_cons_self
  have hinv' := hinv.hand hC hown' hU
  have hc := hv r.1 (frame_stop_le hC hown' hheld)
  have hsteady := hkeeps.since hinv' hc hcall
  have hstep : s.machine.frames.Since t.frames := (hh.since (by decide)).trans hsteady
  obtain ⟨hal, -, U', hinv'', -⟩ := hinv'.call_ok hc hcall
  refine ⟨(MapCall.aligned_of_not hal).2.1, ?_, hstep, r.1, rfl⟩
  refine ⟨⟨U', hinv''⟩, ?_, fun a ↦ ?_, h.since.trans hstep, fun p hp ↦ ?_, fun p hp ↦ ?_,
    fun p hp b hb ↦ ?_, ?_⟩
  · rw [List.map_append]
    have hlaid : m.Laid W (s.pages.map pageCall)
        (⟨s.machine.mem, s.machine.frames.hand 1 .used r⟩ : Machine PmmState).mem := h.laid
    exact hlaid.call hinv' hc hcall
  · rw [List.map_append, List.foldl_append, ← h.translate]
    exact hinv'.translate_call hc hcall a
  · rcases List.mem_append.mp hp with hp | hp
    · exact h.aligned p hp
    · obtain rfl := List.mem_singleton.mp hp
      exact ⟨(MapCall.aligned_of_not hal).2.1, hh.aligned⟩
  · rcases List.mem_append.mp hp with hp | hp
    · exact hstep.held _ (h.held p hp)
    · obtain rfl := List.mem_singleton.mp hp
      exact hsteady.held _ hheld
  · rcases List.mem_append.mp hp with hp | hp
    · exact h.was_free p hp b hb
    · obtain rfl := List.mem_singleton.mp hp
      exact h.since.free b (hh.was_free b hb)
  · rw [List.map_append]
    refine List.nodup_append.mpr ⟨h.distinct, by simp, fun g hg g' hg' ↦ ?_⟩
    obtain ⟨p, hp, rfl⟩ := List.mem_map.mp hg
    obtain rfl := List.mem_singleton.mp hg'
    -- a frame that was out already would meet the new one
    intro heq
    have heq : p.2 = r.1 := heq
    have hin : (pageFrame p).Contains p.2 :=
      ⟨le_rfl, by simp [pageFrame, Allocation.span, Span.stop, ptmPageGranularity]⟩
    refine hh.disjoint _ (h.held p hp) p.2 hin ?_
    rw [← heq]
    exact hin

/-- **One page** that was not mapped: only the allocator can have stopped it. -/
theorem PagedbInv.page_error (h : PagedbInv m W mem start s) (hv : PageFits m W v) {e : Stop}
    (he : pagedbPage m.call v s = .error e) : AllocError e := by
  obtain ⟨U, hinv⟩ := h.inv
  obtain ⟨C, howns, hC, hU⟩ := hinv.owns
  have hserves : s.machine.frames.Serves 1 ptmPageGranularity .used :=
    ⟨by decide, by decide, by decide, (howns.serves_frame hC hlimit).2.2.2⟩
  rw [pagedbPage] at he
  obtain ⟨r, hr, hown', hh⟩ | ⟨e', he', hstop⟩ := howns.pmmAllocExt_spec hserves
  swap
  · rw [he'] at he
    cases he
    exact hstop.imp_right fun hf ↦ hf.1
  rw [hr] at he
  have hheld : pageFrame (v, r.1) ∈ (s.machine.frames.hand 1 .used r).held := List.mem_cons_self
  have hal : 4096 ∣ r.1 := hh.aligned
  have hblocked : ¬ m.Blocked (pageCall (v, r.1)) s.machine.mem := by
    rw [h.laid.blocked_iff]
    · rintro ⟨c, hc, hclash⟩
      obtain ⟨p, -, rfl⟩ := List.mem_map.mp hc
      exact not_clash_pageCall _ _ _ _ hclash
    · intro Q hQ
      rw [pages_pageCall] at hQ
      obtain rfl := List.mem_singleton.mp hQ
      exact hv.mem
  have he : Except.map (fun t ↦ (⟨t, s.pages ++ [(v, r.1)]⟩ : Pagedb))
      (m.call ⟨s.machine.mem, s.machine.frames.hand 1 .used r⟩ (pageCall (v, r.1))) = .error e := he
  cases ht : m.call ⟨s.machine.mem, s.machine.frames.hand 1 .used r⟩ (pageCall (v, r.1)) with
  | ok t =>
    rw [ht] at he
    cases he
  | error e' =>
    rw [ht] at he
    cases he
    rcases (hinv.hand hC hown' hU).call_error (hv.fits r.1 (frame_stop_le hC hown' hheld)) ht with
      hf | ⟨hu | hb, -⟩
    · exact pmmFrames_fails hf
    · rcases hu with hu | hu | hu
      · exact absurd (Nat.mod_eq_zero_of_dvd hal) hu
      · exact absurd (Nat.mod_eq_zero_of_dvd hv.aligned) hu
      · exact absurd (Nat.mod_self _) hu
    · exact absurd hb hblocked

variable {base : Nat} {qs : List Nat}

/-- **All pages**, if the run returns. -/
theorem PagedbInv.run_ok (hkeeps : m.Keeps) (h : PagedbInv m W mem start s)
    (hqs : ∀ q ∈ qs, ∀ g, g + 4096 ≤ limit → m.Fits (pageCall (base + 4096 * q, g))) {t : Pagedb}
    (ht : pagedbRun m.call base qs s = .ok t) :
    PagedbInv m W mem start t ∧ s.machine.frames.Since t.machine.frames ∧
      (∀ q ∈ qs, 4096 ∣ base + 4096 * q) ∧
      t.pages.map Prod.fst = s.pages.map Prod.fst ++ qs.map fun q ↦ base + 4096 * q := by
  induction qs generalizing s with
  | nil =>
    cases ht
    exact ⟨h, .refl _, by simp, by simp⟩
  | cons q qs ih =>
    rw [pagedbRun_cons] at ht
    obtain ⟨u, hu, ht⟩ := bind_eq_ok ht
    obtain ⟨hal, hinv, hsince, g, hpages⟩ := h.page_ok hkeeps (hqs q List.mem_cons_self) hu
    obtain ⟨hinv', hsince', hals, hpages'⟩ :=
      ih hinv (fun p hp ↦ hqs p (List.mem_cons_of_mem _ hp)) ht
    refine ⟨hinv', hsince.trans hsince', List.forall_mem_cons.mpr ⟨hal, hals⟩, ?_⟩
    rw [hpages', hpages, List.map_append, List.append_assoc]
    rfl

/-- **All pages**, if the run does not return. -/
theorem PagedbInv.run_error (hkeeps : m.Keeps) (h : PagedbInv m W mem start s)
    (hqs : ∀ q ∈ qs, PageFits m W (base + 4096 * q)) {e : Stop}
    (he : pagedbRun m.call base qs s = .error e) : AllocError e := by
  induction qs generalizing s with
  | nil => cases he
  | cons q qs ih =>
    rw [pagedbRun_cons] at he
    have hq := hqs q List.mem_cons_self
    cases hu : pagedbPage m.call (base + 4096 * q) s with
    | error e' =>
      rw [hu] at he
      cases he
      exact h.page_error hq hu
    | ok u =>
      rw [hu] at he
      obtain ⟨-, hinv, -⟩ := h.page_ok hkeeps hq.fits hu
      exact ih hinv (fun p hp ↦ hqs p (List.mem_cons_of_mem _ hp)) he

end Page

/-! ## The snapshot -/

section Snapshot

variable {limit : Nat} {hlimit : limit ≤ 2 ^ 56} {P : Type}
  {m : Mapper (pmmFrames limit hlimit) P} {W : Nat → Prop} {s : Machine PmmState}
  {U : Nat → Prop} {r : Nat × PmmMap}

/-- What is known once the block of the snapshot has been handed out, about what is covered. -/
structure SnapshotTaken (m : PmmMap) (r : Nat × PmmMap) : Prop where
  covers : ∀ b, typeAt r.2.live b ≠ none ↔ typeAt m.live b ≠ none
  /-- The block holds a whole page. -/
  block : ∃ e ∈ r.2.live, e.type ≠ .bad ∧ e.base / 4096 < e.stop / 4096

/-- What holds before the first page. -/
theorem PagedbInv.start (h : m.Inv s U)
    (hr : pmmAlloc s.frames.map (snapshotBytes s.frames.map / ptmPageGranularity) = .ok r)
    (hempty : ∀ a, W a → m.translate s.mem a = none) :
    AfterAlloc limit s.frames r ∧ SnapshotTaken s.frames.map r ∧
      PagedbInv m W s.mem s.frames ⟨⟨s.mem, s.frames.hand
        (snapshotBytes s.frames.map / ptmPageGranularity) .allocated r⟩, []⟩ := by
  obtain ⟨C, hinv, hC, hU⟩ := h.owns
  obtain ⟨hafter, hhand⟩ := afterAlloc hinv hC hlimit hr
  have hserves := hinv.serves_snapshot fun a ha ↦ (hC a ha).trans_le hlimit
  have hheld : (⟨r.1, snapshotBytes s.frames.map / ptmPageGranularity, .allocated⟩ : Allocation) ∈
      (s.frames.hand (snapshotBytes s.frames.map / ptmPageGranularity) .allocated r).held :=
    List.mem_cons_self
  have hpos : 4096 ≤ snapshotBytes s.frames.map / ptmPageGranularity * ptmPageGranularity := by
    rw [snapshotBytes_eq]
    unfold ptmPageGranularity
    omega
  refine ⟨hafter, ⟨fun b ↦ (hhand.covers b).trans (hinv.covers b).symm, ?_⟩, ⟨U, h.hand hC hhand hU⟩,
    Mapper.Laid.nil hempty, fun a ↦ rfl, ?_, by simp, by simp, by simp, List.nodup_nil⟩
  · have hsome : 0 < snapshotBytes s.frames.map / ptmPageGranularity * ptmPageGranularity := by omega
    have hlt : r.1 < r.1 + snapshotBytes s.frames.map / ptmPageGranularity * ptmPageGranularity := by
      omega
    obtain ⟨e, he, h1, h2⟩ := hhand.within _ hheld hsome
    have htype := hhand.typed _ hheld r.1 ⟨le_rfl, hlt⟩
    have hin : e.Contains r.1 := ⟨h1, hlt.trans_le h2⟩
    rw [hhand.wf.tiled.typeAt_of_within he hin] at htype
    refine ⟨e, he, by rw [Option.some.inj htype]; simp, ?_⟩
    have hal := pmmAlloc_dvd hr
    have h1 : e.base ≤ r.1 := h1
    have h2 : r.1 + snapshotBytes s.frames.map / ptmPageGranularity * ptmPageGranularity ≤ e.stop :=
      h2
    rw [show ptmPageGranularity = 4096 from rfl] at hal hpos h2
    omega
  · rcases hinv.pmmAllocExt_spec hserves with ⟨r', hr', -, hh⟩ | ⟨e, he, -⟩
    · obtain rfl : r = r' := Except.ok.inj (hr.symm.trans hr')
      exact hh.since (by decide)
    · cases hr.symm.trans he

/-- No slot that is copied ends behind the map. -/
theorem SnapshotTaken.stop_le {m : PmmMap} (h : SnapshotTaken m r) (hwf : r.2.Wf) {size : Nat}
    (hsize : ∀ e ∈ m.live, e.stop ≤ size) : ∀ e ∈ snapshotEntries m r.2, e.stop ≤ size := by
  intro e he
  have hcovered : 0 < e.length → typeAt r.2.live (e.stop - 1) ≠ none → e.stop ≤ size := by
    intro hlen hb
    obtain ⟨d, hd, hdb⟩ := typeAt_isSome.mp ((h.covers _).mp hb)
    have h1 : e.stop = e.base + e.length := rfl
    have h2 := hdb.2
    have h3 := hsize d hd
    omega
  have hlast : 0 < e.length → e.Contains (e.stop - 1) := by
    intro hlen
    have h1 : e.stop = e.base + e.length := rfl
    exact ⟨by omega, by omega⟩
  rcases mem_snapshotEntries hwf he with he | rfl | ⟨hlen, hin⟩
  · have hlen := hwf.tiled.pos e he
    exact hcovered hlen (typeAt_isSome.mpr ⟨e, he, hlast hlen⟩)
  · exact Nat.zero_le _
  · exact hcovered hlen (hin _ (hlast hlen))

/-- The block of the snapshot is given back; other allocations stay. -/
theorem freeSnapshot_spec {C : Nat → Prop} {s s' : PmmState} (h : s.Inv C) {x : PmmMapSnapshot}
    (hx : x.allocation ∈ s.held) (hf : s.freeSnapshot x = .ok s') :
    s'.Inv C ∧ ∀ y ∈ s.held, y ≠ x.allocation → y ∈ s'.held := by
  obtain ⟨m', hm', hs'⟩ := map_eq_ok hf
  have hget : s.held[s.held.idxOf x.allocation]? = some x.allocation :=
    (List.getElem?_eq_getElem (List.idxOf_lt_length_of_mem hx)).trans
      (congrArg some (List.getElem_idxOf _))
  rcases h.pmmFree_spec hget with ⟨m'', hm'', hinv, -⟩ | ⟨e, he, -⟩
  · obtain rfl : m' = m'' := Except.ok.inj (hm'.symm.trans hm'')
    rw [List.eraseIdx_idxOf_eq_erase, hs'] at hinv
    refine ⟨hinv, fun y hy hne ↦ ?_⟩
    rw [← hs']
    exact (List.mem_erase_of_ne hne).mpr hy
  · cases hm'.symm.trans he

end Snapshot

/-! ## The whole function -/

/-- The addresses of the database, from `base` on, have room in the tables. -/
structure Mapper.DbWindow {A P : Type} {src : FrameSource A} (m : Mapper src P)
    (limit base pages : Nat) : Prop where
  inside : base % span m.levels + 4096 * pages ≤ span m.levels
  fits : ∀ v g, base ≤ v → v + 4096 ≤ base + 4096 * pages → g + 4096 ≤ limit →
    m.Fits (pageCall (v, g))

/-- Which addresses the call for a page holds. -/
theorem Mapper.DbWindow.meets_iff {A P : Type} {src : FrameSource A} {m : Mapper src P}
    {limit base pages : Nat} (h : m.DbWindow limit base pages) {q g a : Nat} (hq : q < pages)
    (ha : base ≤ a) (ha' : a < base + 4096 * pages) :
    (pageCall (base + 4096 * q, g)).Meets m.levels a ↔
      base + 4096 * q ≤ a ∧ a < base + 4096 * q + 4096 := by
  have hin := h.inside
  have hmod : ∀ n, n < 4096 * pages →
      (base + n) % span m.levels = base % span m.levels + n := by
    intro n hn
    rw [← Nat.mod_add_mod, Nat.mod_eq_of_lt (by omega)]
  obtain ⟨n, rfl⟩ := Nat.le.dest ha
  have hp := hmod (4096 * q) (by omega)
  have hn := hmod n (by omega)
  show (base + 4096 * q) % _ ≤ (base + n) % _ ∧ (base + n) % _ < (base + 4096 * q) % _ + 4096 ↔ _
  rw [hp, hn]
  omega

section Setup

variable {limit : Nat} {hlimit : limit ≤ 2 ^ 56} {P : Type}
  {m : Mapper (pmmFrames limit hlimit) P} {s : Machine PmmState} {U : Nat → Prop}
  {hhdmOffset size kernelBase es : Nat}

/-- `hhdm_size` is behind every entry. -/
theorem le_hhdmSize {initial : Nat} {m : PmmMap} (hb : ∀ e ∈ m.live, e.stop < 2 ^ 64) :
    ∀ e ∈ m.live, e.stop ≤ hhdmSize initial m := by
  rw [hhdmSize]
  generalize m.live = l at hb ⊢
  induction l using List.reverseRecOn with
  | nil => simp
  | append_singleton l d ih =>
    have ih := ih fun e he ↦ hb e (List.mem_append_left _ he)
    have hd : add64 d.base d.length = d.stop := add64_eq (hb d (by simp))
    rw [List.foldl_concat, hd]
    intro e he
    rcases List.mem_append.mp he with he | he
    · have := ih e he
      split <;> omega
    · obtain rfl := List.mem_singleton.mp he
      split <;> omega

/-- What a call that returns has done. -/
theorem Mapper.Inv.pagedbSetup_ok (h : m.Inv s U) (hfit : DbFits hhdmOffset size es)
    (hsize : ∀ e ∈ s.frames.map.live, e.stop ≤ size) {x : (Nat × Nat) × Pagedb}
    (hx : pagedbSetup m.call hhdmOffset size kernelBase es s = .ok x) :
    hhdmOffset + size + 4096 + 4096 * dbPages size es ≤ kernelBase ∧
      x.1 = (hhdmOffset + size + 4096, 4096 * dbPages size es) ∧
      s.frames.map.size + 2 ≤ pmmMapMaxEntries ∧
      ∃ r, pmmAlloc s.frames.map (snapshotBytes s.frames.map / ptmPageGranularity) = .ok r ∧
        r.1 ≠ 0 ∧
        ∃ y, pagedbRun m.call (hhdmOffset + size + 4096)
            (dbSweep es (snapshotEntries s.frames.map r.2)) ⟨⟨s.mem, s.frames.hand
              (snapshotBytes s.frames.map / ptmPageGranularity) .allocated r⟩, []⟩ = .ok y ∧
          ∃ frames, y.machine.frames.freeSnapshot ⟨snapshotEntries s.frames.map r.2, r.1,
              snapshotBytes s.frames.map⟩ = .ok frames ∧
            x.2 = ⟨⟨y.machine.mem, frames⟩, y.pages⟩ := by
  obtain ⟨C, hinv, hC, -⟩ := h.owns
  have hC56 : ∀ a, C a → a < 2 ^ 56 := fun a ha ↦ (hC a ha).trans_le hlimit
  have hkernel : hhdmOffset + size + 4096 + 4096 * dbPages size es ≤ kernelBase := by
    obtain ⟨hsize', hbase, hend⟩ := pagedb_layout hfit
    by_contra hlt
    rw [pagedbSetup, hsize', hbase, hend, if_pos (by omega)] at hx
    cases hx
  have hsnap : ∃ z, s.frames.createSnapshot = .ok z := by
    rw [pagedbSetup] at hx
    split at hx
    · cases hx
    · obtain ⟨z, hz, -⟩ := bind_eq_ok hx
      exact ⟨z, hz⟩
  obtain ⟨z, hz⟩ := hsnap
  obtain ⟨w, hw, -⟩ := map_eq_ok hz
  obtain ⟨r, hr, -⟩ := bind_eq_ok hw
  have hsnap := hinv.createSnapshot_eq hC56 hr
  by_cases h0 : r.1 = 0
  · rw [if_pos h0] at hsnap
    cases hz.symm.trans hsnap
  rw [if_neg h0] at hsnap
  by_cases hroom : pmmMapMaxEntries < s.frames.map.size + 2
  · rw [if_pos hroom] at hsnap
    cases hz.symm.trans hsnap
  rw [if_neg hroom] at hsnap
  obtain ⟨-, htaken, -⟩ := PagedbInv.start (W := fun _ ↦ False) h hr fun a ha ↦ ha.elim
  have hwf := (afterAlloc hinv hC hlimit hr).1.wf
  rw [pagedbSetup_eq hfit hkernel hsnap (htaken.stop_le hwf hsize)] at hx
  obtain ⟨y, hy, hx⟩ := bind_eq_ok hx
  obtain ⟨frames, hframes, rfl⟩ := map_eq_ok hx
  exact ⟨hkernel, rfl, Nat.not_lt.mp hroom, r, hr, h0, y, hy, frames, hframes, rfl⟩

end Setup

/-! ## The two architectures -/

section Arch

variable {limit : Nat} {hlimit : limit ≤ 2 ^ 56} {hhdmOffset size es : Nat}

/-- A window that begins in the upper half does not wrap. -/
theorem DbFits.inside {levels : Nat} (h : DbFits hhdmOffset size es) (hlevels : levels ≤ 5)
    (hup : 2 ^ 64 - 2 ^ (11 + 9 * levels) ≤ hhdmOffset) :
    (hhdmOffset + size + 4096) % span levels + 4096 * dbPages size es ≤ span levels := by
  have hwin := h.window
  have := mod_of_upper hlevels (show 2 ^ 64 - 2 ^ (11 + 9 * levels) ≤ hhdmOffset + size + 4096 by
    omega) (by omega)
  omega

/-- The pages of the database can be mapped on x86_64. -/
theorem DbFits.x86_window {ptm : X86.Ptm} (h : DbFits hhdmOffset size es)
    (hlimit' : limit ≤ 2 ^ 51) (hlevels : ptm.levelCount = 4 ∨ ptm.levelCount = 5)
    (hup : 2 ^ 64 - 2 ^ (11 + 9 * ptm.levelCount) ≤ hhdmOffset) :
    (@X86.mapper _ (pmmFrames limit hlimit) hlimit' ptm hlevels).DbWindow limit
      (hhdmOffset + size + 4096) (dbPages size es) := by
  have hwin := h.window
  refine ⟨h.inside (show ptm.levelCount ≤ 5 by omega) hup, fun v g hv hv' hg ↦ ⟨Or.inr ⟨?_, ?_⟩, ?_⟩⟩
  · show _ ≤ v
    omega
  · show v + 4096 ≤ _
    omega
  · show g + 4096 ≤ _
    omega

/-- The pages of the database can be mapped on riscv64. -/
theorem DbFits.riscv_window {ptm : Riscv.Ptm} (h : DbFits hhdmOffset size es)
    (hlevels : 3 ≤ ptm.levelCount ∧ ptm.levelCount ≤ 5)
    (hup : 2 ^ 64 - 2 ^ (11 + 9 * ptm.levelCount) ≤ hhdmOffset) :
    (@Riscv.mapper _ (pmmFrames limit hlimit) hlimit ptm hlevels).DbWindow limit
      (hhdmOffset + size + 4096) (dbPages size es) := by
  have hwin := h.window
  refine ⟨h.inside hlevels.2 hup, fun v g hv hv' hg ↦ ⟨?_, ?_, ?_, ?_⟩⟩
  · show v < _
    omega
  · show v % _ + 4096 ≤ _
    have := mod_of_upper hlevels.2 (show 2 ^ 64 - 2 ^ (11 + 9 * ptm.levelCount) ≤ v by omega)
      (by omega)
    rw [span_eq] at this
    omega
  · show g + 4096 ≤ _
    omega
  · show Riscv.ValidFlags hhdmFlags
    decide

end Arch

end LunarPrekernel
