import LunarPrekernel.Pmm.Run
import LunarPrekernel.Ptm.Frames

/-!
# Frames from the physical memory map

`pmmFrames` is the allocator the pre-kernel really takes its tables from: `pmm_alloc(1)` on the
physical memory map.  That a frame is fresh is what `PmmState.Inv` says about allocations, as long
as the map ends below the end of physical memory and nothing but allocations was counted as "out".
-/

set_option autoImplicit false

namespace LunarPrekernel

open SpanMap Span PmmMap PmmState

/-- `pmm_alloc(1)`, with the allocation written down. -/
def pmmFrame (s : PmmState) : Except Stop (Nat × PmmState) :=
  (pmmAlloc s.map 1).map fun r ↦ (r.1, s.hand 1 .allocated r)

/-- The frames of `U` lie in allocations that are out, and the map ends by `limit`. -/
def PmmOwns (limit : Nat) (s : PmmState) (U : Nat → Prop) : Prop :=
  ∃ C : Nat → Prop, s.Inv C ∧ (∀ a, C a → a < limit) ∧
    ∀ x, U x → 4096 ∣ x ∧ ∃ y ∈ s.held, y.span.base ≤ x ∧ x + 4096 ≤ y.span.stop

namespace PmmState

variable {limit : Nat} {s : PmmState} {C U : Nat → Prop}

theorem Inv.stop_le (h : s.Inv C) (hC : ∀ a, C a → a < limit) {e : PmmMapEntry}
    (he : e ∈ s.map.live) : e.stop ≤ limit := by
  have hpos := h.wf.tiled.pos e he
  have hlast : C (e.base + e.length - 1) := by
    rw [← h.covers]
    exact typeAt_isSome.mpr ⟨e, he, by omega, by simp only [Span.stop]; omega⟩
  have := hC _ hlast
  simp only [Span.stop]
  omega

theorem Inv.serves_frame (h : s.Inv C) (hC : ∀ a, C a → a < limit) (hlimit : limit ≤ 2 ^ 56) :
    s.Serves 1 ptmPageGranularity .allocated := by
  refine ⟨by decide, by decide, by decide, fun e he _ ↦ ?_⟩
  have := h.stop_le hC he
  have := h.wf.tiled.pos e he
  simp only [Span.stop] at *
  unfold ptmPageGranularity
  omega

/-- An allocation that is out ends below the limit. -/
theorem Inv.held_stop_le (h : s.Inv C) (hC : ∀ a, C a → a < limit) {y : Allocation}
    (hy : y ∈ s.held) (hpos : 0 < y.span.length) : y.span.stop ≤ limit := by
  obtain ⟨e, he, -, hstop⟩ := h.within y hy hpos
  exact hstop.trans (h.stop_le hC he)

/-- A block that is handed out meets no frame that is out already. -/
theorem Handed.not_owned {s' : PmmState} {n alignment a x : Nat} {type : PmmMapType}
    (hh : Handed s s' n alignment type a) {y : Allocation} (hy : y ∈ s.held)
    (hyx : y.span.base ≤ x ∧ x + 4096 ≤ y.span.stop) :
    ¬ (a ≤ x ∧ x < a + n * ptmPageGranularity) :=
  fun hx ↦ hh.disjoint y hy x ⟨hyx.1, by omega⟩ hx

end PmmState

/-- A well-formed map with nothing handed out. -/
theorem PmmOwns.of_wf {limit : Nat} {m : PmmMap} (h : m.Wf) (hb : ∀ e ∈ m.live, e.stop ≤ limit) :
    PmmOwns limit ⟨m, []⟩ fun _ ↦ False := by
  refine ⟨fun a ↦ typeAt m.live a ≠ none, ⟨h, fun _ ↦ Iff.rfl, by simp, by simp, by simp, by simp,
    List.Pairwise.nil⟩, fun a ha ↦ ?_, fun _ hx ↦ hx.elim⟩
  obtain ⟨e, he, hea⟩ := typeAt_isSome.mp ha
  exact hea.2.trans_le (hb e he)

/-- The map the firmware's ranges make, with no frame out. -/
theorem PmmOwns.start {limit : Nat} {l : List PmmMapEntry} (hl : Ranges l) {m : PmmMap}
    (hm : addAll .empty l = .ok m) (hb : ∀ r ∈ l, r.stop ≤ limit) :
    PmmOwns limit ⟨m, []⟩ fun _ ↦ False := by
  refine ⟨_, Inv.start hl hm, ?_, fun _ hx ↦ hx.elim⟩
  rintro a ⟨r, hr, hra⟩
  exact hra.2.trans_le (hb r hr)

/-- Any run, as long as no frame is out. -/
theorem PmmOwns.run {limit : Nat} {s t : PmmState} (h : PmmOwns limit s fun _ ↦ False)
    {cs : List PmmCall} (hr : s.run cs = some t) : PmmOwns limit t fun _ ↦ False := by
  obtain ⟨C, hinv, hC, -⟩ := h
  exact ⟨C, hinv.run hr, hC, fun _ hx ↦ hx.elim⟩

/-- A frame that is out is aligned and lies below the limit. -/
theorem PmmOwns.owned {limit : Nat} {s : PmmState} {U : Nat → Prop} {x : Nat}
    (ho : PmmOwns limit s U) (hx : U x) : 4096 ∣ x ∧ x < limit := by
  obtain ⟨C, h, hC, hU⟩ := ho
  obtain ⟨hal, y, hy, h1, h2⟩ := hU x hx
  have hstop := h.held_stop_le hC hy (by simp only [Span.stop] at h2; omega)
  exact ⟨hal, by omega⟩

/-- **The frames of `pmm_alloc(1)` are fresh.** -/
theorem PmmOwns.fresh {limit : Nat} (hlimit : limit ≤ 2 ^ 56) {s s' : PmmState}
    {U : Nat → Prop} {g : Nat} (ho : PmmOwns limit s U) (hg : pmmFrame s = .ok (g, s')) :
    ¬ U g ∧ PmmOwns limit s' fun x ↦ x = g ∨ U x := by
  obtain ⟨C, h, hC, hU⟩ := ho
  rw [pmmFrame, pmmAlloc] at hg
  rcases h.pmmAllocExt_spec (h.serves_frame hC hlimit) with ⟨r, hr, hinv, hh⟩ | ⟨e, herr, -⟩
  swap
  · rw [herr] at hg
    cases hg
  rw [hr] at hg
  cases hg
  refine ⟨fun hgU ↦ ?_, C, hinv, hC, fun x hx ↦ ?_⟩
  · obtain ⟨-, y, hy, hyg⟩ := hU _ hgU
    exact hh.not_owned hy hyg ⟨le_rfl, by unfold ptmPageGranularity; omega⟩
  · rcases hx with rfl | hx
    · refine ⟨hh.aligned, _, List.mem_cons_self, le_rfl, ?_⟩
      show r.1 + 4096 ≤ r.1 + 1 * ptmPageGranularity
      unfold ptmPageGranularity
      omega
    · obtain ⟨hal, y, hy, hyx⟩ := hU x hx
      exact ⟨hal, y, List.mem_cons_of_mem _ hy, hyx⟩

/-- The physical memory map as a source of frames. -/
def pmmFrames (limit : Nat) (hlimit : limit ≤ 2 ^ 56) : FrameSource PmmState where
  alloc := pmmFrame
  limit := limit
  Owns := PmmOwns limit
  owned := PmmOwns.owned
  fresh := PmmOwns.fresh hlimit

/-- How the physical memory map says that it has no frame. -/
theorem pmmFrames_fails {limit : Nat} {hlimit : limit ≤ 2 ^ 56} {e : Stop}
    (h : (pmmFrames limit hlimit).Fails e) : (∃ fmt, e = .panic fmt []) ∨ e = .fault := by
  obtain ⟨s, U, ⟨C, hinv, hC, -⟩, he⟩ := h
  rcases hinv.pmmAllocExt_spec (hinv.serves_frame hC hlimit) with ⟨r, hr, -⟩ | ⟨e', he', hstop⟩
  · have : pmmFrame s = .ok _ := congrArg (Except.map _) hr
    cases he.symm.trans this
  · have : pmmFrame s = .error e' := congrArg (Except.map _) he'
    cases he.symm.trans this
    exact hstop.imp_right fun hf ↦ hf.1

end LunarPrekernel
