import LunarPrekernel.Ptm.Alongside

/-!
# Two sets of tables in one memory

Until the handoff the cores run on the tables of the bootloader, and `ptm_map_at` maps into these as
well.  They are not in allocations of `pmm_alloc`, but in memory that the map has under another type,
which is therefore never handed out (`Foreign`); the frames that are added to them are from the
allocator, like those of the new tables.

* `pmmBeside` — the allocator with such frames beside its own.
* `Beside.call` — a call for one set of tables leaves the other one alone, whichever it is for.
-/

set_option autoImplicit false

namespace LunarPrekernel

open SpanMap Span PmmMap PageTable

/-! ## The allocator -/

/-- The frames of `G` are not free, and not handed out. -/
structure Foreign (G : Nat → Prop) (s : PmmState) : Prop where
  taken : ∀ x, G x → ∀ b, Page x b → typeAt s.map.live b ≠ some .free
  held : ∀ x, G x → ∀ b, Page x b → ∀ y ∈ s.held, ¬ y.Contains b

/-- All frames of `U` are the allocator's, or of `G`. -/
def BesideOwns (limit : Nat) (G : Nat → Prop) (s : PmmState) (U : Nat → Prop) : Prop :=
  Foreign G s ∧ ∃ V, PmmOwns limit s V ∧ ∀ x, U x → V x ∨ G x

section Alloc

variable {limit : Nat} {G U : Nat → Prop} {s s' : PmmState} {n alignment a g : Nat}
  {type : PmmMapType} {blocks : List Allocation}

/-- What is handed out was free. -/
theorem Foreign.not_handed (h : Foreign G s) (hh : s.Handed s' n alignment type a) {x b : Nat}
    (hx : G x) (hb : Page x b) : ¬ (⟨a, n, type⟩ : Allocation).Contains b :=
  fun hin ↦ h.taken x hx b hb (hh.was_free b hin)

theorem Foreign.hand (h : Foreign G s) (hh : s.Handed s' n alignment type a) : Foreign G s' where
  taken x hx b hb := by
    rw [hh.typeAt_eq, if_neg (h.not_handed hh hx hb)]
    exact h.taken x hx b hb
  held x hx b hb y hy := by
    rw [hh.held] at hy
    rcases List.mem_cons.mp hy with rfl | hy
    · exact h.not_handed hh hx hb
    · exact h.held x hx b hb y hy

theorem BesideOwns.fresh (hlimit : limit ≤ 2 ^ 56) (ho : BesideOwns limit G s U)
    (hg : pmmFrame s = .ok (g, s')) : ¬ U g ∧ BesideOwns limit G s' fun x ↦ x = g ∨ U x := by
  obtain ⟨hforeign, V, hown, hU⟩ := ho
  have hh := pmmFrame_handed hlimit hown hg
  obtain ⟨hfresh, hown'⟩ := PmmOwns.fresh hlimit hown hg
  refine ⟨fun hgU ↦ ?_, hforeign.hand hh, _, hown', fun x hx ↦ ?_⟩
  · rcases hU g hgU with hgV | hgG
    · exact hfresh hgV
    · refine hforeign.not_handed hh hgG (b := g) ⟨le_rfl, by omega⟩ ⟨le_rfl, ?_⟩
      show g < g + 1 * ptmPageGranularity
      unfold ptmPageGranularity
      omega
  · rcases hx with rfl | hx
    · exact Or.inl (Or.inl rfl)
    · exact (hU x hx).imp_left Or.inr

/-- The physical memory map as a source of frames, with the frames of `G` beside its own. -/
def pmmBeside (limit : Nat) (hlimit : limit ≤ 2 ^ 56) (G : Nat → Prop)
    (hG : ∀ x, G x → 4096 ∣ x ∧ x < limit) : FrameSource PmmState where
  alloc := pmmFrame
  limit := limit
  Owns := BesideOwns limit G
  owned := fun ⟨_, _, hown, hU⟩ hx ↦ (hU _ hx).elim (hown.owned) (hG _)
  fresh := BesideOwns.fresh hlimit

/-- A frame of either kind is apart from the blocks that are out already. -/
theorem Apart.beside (hlimit : limit ≤ 2 ^ 56) (ho : BesideOwns limit G s U)
    (hg : pmmFrame s = .ok (g, s')) (h : Apart blocks s U) :
    Apart blocks s' fun x ↦ x = g ∨ U x := by
  obtain ⟨-, V, ⟨C, hinv, hC, -⟩, -⟩ := ho
  have hframe := Apart.frame (U := fun _ ↦ False) hlimit ⟨C, hinv, hC, fun _ hx ↦ hx.elim⟩ hg
    fun y hy ↦ ⟨(h y hy).1, fun _ hx ↦ hx.elim⟩
  intro y hy
  obtain ⟨hheld, hgy⟩ := hframe y hy
  exact ⟨hheld, fun x hx ↦ hx.elim (fun hx ↦ hgy x (Or.inl hx)) ((h y hy).2 x)⟩

/-- A block that is handed out is apart from all of them. -/
theorem BesideOwns.hand (ho : BesideOwns limit G s U) (hs : s.Serves n alignment type)
    {r : Nat × PmmMap} (hr : pmmAllocExt s.map n alignment type = .ok r) (h : Apart blocks s U) :
    BesideOwns limit G (s.hand n type r) U ∧ Apart (⟨r.1, n, type⟩ :: blocks) (s.hand n type r) U ∧
      s.Handed (s.hand n type r) n alignment type r.1 := by
  obtain ⟨hforeign, V, ⟨C, hinv, hC, hV⟩, hU⟩ := ho
  rcases hinv.pmmAllocExt_spec hs with ⟨r', hr', hinv', hh⟩ | ⟨e, he, -⟩
  swap
  · cases hr.symm.trans he
  obtain rfl : r = r' := Except.ok.inj (hr.symm.trans hr')
  have hown' : PmmOwns limit (s.hand n type r) V :=
    ⟨C, hinv', hC, fun x hx ↦ (hV x hx).imp_right fun ⟨y, hy, hyx⟩ ↦
      ⟨y, List.mem_cons_of_mem _ hy, hyx⟩⟩
  refine ⟨⟨hforeign.hand hh, V, hown', hU⟩, fun y hy ↦ ?_, hh⟩
  rcases List.mem_cons.mp hy with rfl | hy
  · refine ⟨List.mem_cons_self, fun x hx b hb hyb ↦ ?_⟩
    rcases hU x hx with hx | hx
    · obtain ⟨-, y, hy, h1, h2⟩ := hV x hx
      refine hh.disjoint y hy b ⟨h1.trans hb.1, ?_⟩ hyb
      have := hb.2
      omega
    · exact hforeign.not_handed hh hx hb hyb
  · exact ⟨List.mem_cons_of_mem _ (h y hy).1, (h y hy).2⟩

theorem PmmOwns.beside (h : PmmOwns limit s U) (hforeign : Foreign G s) :
    BesideOwns limit G s fun x ↦ U x ∨ G x :=
  ⟨hforeign, U, h, fun _ hx ↦ hx⟩

/-- No frame is of both kinds. -/
theorem Foreign.not_owned (h : Foreign G s) (hown : PmmOwns limit s U) {x : Nat} (hx : U x) :
    ¬ G x := by
  intro hxG
  obtain ⟨C, -, -, hU⟩ := hown
  obtain ⟨-, y, hy, h1, h2⟩ := hU x hx
  exact h.held x hxG x ⟨le_rfl, by omega⟩ y hy ⟨h1, by omega⟩

theorem Apart.foreign (h : Apart blocks s U) (hforeign : Foreign G s) :
    Apart blocks s fun x ↦ U x ∨ G x :=
  fun y hy ↦ ⟨(h y hy).1, fun x hx b hb hyb ↦ hx.elim (fun hx ↦ (h y hy).2 x hx b hb hyb)
    fun hx ↦ hforeign.held x hx b hb y (h y hy).1 hyb⟩

end Alloc

/-! ## The calls do not depend on the bookkeeping -/

section Congr

variable {A : Type} {src src' : FrameSource A}

end Congr

/-! ## Both of them -/

/-- Two sets of tables that have no frame in common. -/
structure Mapper.Beside {A P Q : Type} {src : FrameSource A} (m : Mapper src P) (m' : Mapper src Q)
    (s : Machine A) (U : Nat → Prop) : Prop where
  left : m.Inv s U
  right : m'.Inv s U
  apart : ∀ x, Foot m.format s.mem m.levels m.root x → ¬ Foot m'.format s.mem m'.levels m'.root x

namespace Mapper

theorem Beside.symm {A P Q : Type} {src : FrameSource A} {m : Mapper src P} {m' : Mapper src Q}
    {s : Machine A} {U : Nat → Prop} (h : m.Beside m' s U) : m'.Beside m s U :=
  ⟨h.right, h.left, fun x hx hx' ↦ h.apart x hx' hx⟩

section Beside

variable {limit : Nat} {hlimit : limit ≤ 2 ^ 56} {G : Nat → Prop}
  {hG : ∀ x, G x → 4096 ∣ x ∧ x < limit} {P Q : Type} {m : Mapper (pmmBeside limit hlimit G hG) P}
  {m' : Mapper (pmmBeside limit hlimit G hG) Q} {s s' : Machine PmmState} {U : Nat → Prop}
  {blocks : List Allocation}

/-- Frames are pages. -/
theorem page_unique {x y b : Nat} (hx : 4096 ∣ x) (hy : 4096 ∣ y) (hxb : Page x b)
    (hyb : Page y b) : x = y := by
  have h1 := hxb.1
  have h2 := hxb.2
  have h3 := hyb.1
  have h4 := hyb.2
  omega

/-- **A call for one of them**: the other one is as it was, and so are the blocks. -/
theorem Beside.call (hkeeps : m.Keeps) (h : m.Beside m' s U) (hapart : Apart blocks s.frames U)
    {c : MapCall} (hc : m.Fits c) (hs' : m.call s c = .ok s') :
    ∃ U', m.Beside m' s' U' ∧ Apart blocks s'.frames U' ∧
      (∀ y ∈ blocks, ∀ b, y.Contains b → s'.mem b = s.mem b) ∧
      ∀ a, walk m'.format s'.mem m'.levels m'.root a = walk m'.format s.mem m'.levels m'.root a := by
  obtain ⟨U', hinv, hapart', hr⟩ := hkeeps (fun a V ↦ Apart blocks a V)
    (fun a a' V g ho hg hq ↦ hq.beside hlimit ho hg) h.left hapart hc hs'
  have hmem : ∀ x, Foot m'.format s.mem m'.levels m'.root x → ∀ b, Page x b →
      s'.mem b = s.mem b := by
    intro x hx b hb
    have hxU := h.right.foot x hx
    have hal := ((pmmBeside limit hlimit G hG).owned h.right.owns hxU).1
    refine hr.frame b (fun y hy hyb ↦ ?_) fun y hy hnew hyb ↦ ?_
    · have hyal := ((pmmBeside limit hlimit G hG).owned h.left.owns (h.left.foot y hy)).1
      exact h.apart y hy (page_unique hal hyal hb hyb ▸ hx)
    · exact hnew (page_unique hal (hr.aligned y hy hnew) hb hyb ▸ hxU)
  have hsame : SameWords m'.format s.mem s'.mem m'.levels m'.root :=
    fun g hg i hi ↦ word_congr hi (hmem g hg)
  have hfoot : ∀ x, Foot m'.format s'.mem m'.levels m'.root x ↔
      Foot m'.format s.mem m'.levels m'.root x := hsame.foot
  refine ⟨U', ⟨hinv, ⟨hinv.owns, hsame.tree h.right.tree, fun x hx ↦ ?_⟩, fun x hx hx' ↦ ?_⟩,
    hapart', fun y hy b hyb ↦ ?_, hsame.walk⟩
  · exact hr.mono x (h.right.foot x ((hfoot x).mp hx))
  · have hx' := (hfoot x).mp hx'
    rcases (hr.foot x hx).2 with hold | hnew
    · exact h.apart x hold hx'
    · exact hnew (h.right.foot x hx')
  · exact hr.frame b (fun x hx hxb ↦ (hapart y hy).2 x (h.left.foot x hx) b hxb hyb)
      fun x hx _ hxb ↦ (hapart' y hy).2 x hx b hxb hyb

/-- They do not notice an allocation and what is written to the blocks. -/
theorem Beside.hand (h : m.Beside m' s U) (hapart : Apart blocks s.frames U) {n alignment : Nat}
    {type : PmmMapType} (hs : s.frames.Serves n alignment type) {r : Nat × PmmMap}
    (hr : pmmAllocExt s.frames.map n alignment type = .ok r) :
    m.Beside m' ⟨s.mem, s.frames.hand n type r⟩ U ∧
      Apart (⟨r.1, n, type⟩ :: blocks) (s.frames.hand n type r) U := by
  obtain ⟨hown, hapart', -⟩ := BesideOwns.hand h.left.owns hs hr hapart
  exact ⟨⟨⟨hown, h.left.tree, h.left.foot⟩, ⟨hown, h.right.tree, h.right.foot⟩, h.apart⟩, hapart'⟩

theorem Beside.write (h : m.Beside m' s U) (hapart : Apart blocks s.frames U) {mem : Memory}
    (hmem : ∀ a, mem a ≠ s.mem a → ∃ y ∈ blocks, y.Contains a) : m.Beside m' ⟨mem, s.frames⟩ U ∧
      (∀ a, walk m.format mem m.levels m.root a = walk m.format s.mem m.levels m.root a) ∧
      ∀ a, walk m'.format mem m'.levels m'.root a = walk m'.format s.mem m'.levels m'.root a := by
  have hsame : ∀ x, U x → ∀ b, Page x b → mem b = s.mem b := by
    intro x hx b hb
    by_contra hne
    obtain ⟨y, hy, hyb⟩ := hmem b hne
    exact (hapart y hy).2 x hx b hb hyb
  have hl : SameWords m.format s.mem mem m.levels m.root :=
    fun g hg i hi ↦ word_congr hi (hsame g (h.left.foot g hg))
  have hr : SameWords m'.format s.mem mem m'.levels m'.root :=
    fun g hg i hi ↦ word_congr hi (hsame g (h.right.foot g hg))
  refine ⟨⟨(h.left.write hsame).1, (h.right.write hsame).1, fun x hx hx' ↦ ?_⟩, hl.walk, hr.walk⟩
  exact h.apart x ((hl.foot x).mp hx) ((hr.foot x).mp hx')

end Beside

end Mapper

end LunarPrekernel
