import LunarPrekernel.Boot.Bringup
import LunarPrekernel.Boot.Entry
import Mathlib.Data.List.GetD

/-!
# The boot information, read back

What the kernel finds in the block that the two entry points fill in.  The first pass reckons with
everything the second one writes: no store leaves the block (`EntryRun.written`), and no two objects
overlap, however many framebuffers and modules there are and however long the names.  The
framebuffers can be read as the array that `bootinfo.h` declares.

The modules cannot.  Each record is followed by its name, so that the next record is not where an
array has it: `block_holds` says where the records are, and `module_array` that an array is found
there, wherever the direct map is, for at most one module.
-/

set_option autoImplicit false

namespace LunarPrekernel

open SpanMap Span PmmMap Memory Layout

/-! ## Reading -/

/-- The `bootinfo_framebuffer_t` at `a`. -/
def loadFramebuffer (mem : Memory) (a : Nat) : BootinfoFramebuffer where
  vaddr := mem.load a 8
  paddr := mem.load (a + 8) 8
  size := mem.load (a + 16) 8
  width := mem.load (a + 24) 4
  height := mem.load (a + 28) 4
  pitch := mem.load (a + 32) 4
  bpp := mem.load (a + 36) 4
  redPosition := mem.load (a + 40) 1
  redSize := mem.load (a + 41) 1
  greenPosition := mem.load (a + 42) 1
  greenSize := mem.load (a + 43) 1
  bluePosition := mem.load (a + 44) 1
  blueSize := mem.load (a + 45) 1

/-- A field of the `bootinfo_t` at `block`. -/
def loadField (mem : Memory) (block : Nat) (field : BootinfoField) : Nat :=
  mem.load (block + field.offset) 8

/-- `boot_info->framebuffers[0 .. framebuffer_count)`, through the direct map at `offset`. -/
def loadFramebuffers (offset : Nat) (mem : Memory) (block : Nat) : List BootinfoFramebuffer :=
  (List.range (loadField mem block .framebufferCount)).map fun i ↦
    loadFramebuffer mem
      (sub64 (loadField mem block .framebuffers) offset + sizeofBootinfoFramebuffer * i)

/-- What the kernel should learn about a module. -/
structure BootModule where
  name : List UInt8
  physAddr : Nat
  size : Nat

/-- The `bootinfo_module_t` at `a` is that of the module `m`. -/
structure ReadsModule (offset : Nat) (mem : Memory) (a : Nat) (m : BootModule) : Prop where
  name : mem.Spells (sub64 (mem.load a 8) offset) (m.name ++ [0])
  physAddr : mem.load (a + 8) 8 = m.physAddr % 2 ^ 64
  size : mem.load (a + 16) 8 = m.size % 2 ^ 64

/-- What is left of a record whose values do not fit their fields. -/
def BootinfoFramebuffer.truncated (fb : BootinfoFramebuffer) : BootinfoFramebuffer where
  vaddr := fb.vaddr % 2 ^ 64
  paddr := fb.paddr % 2 ^ 64
  size := fb.size % 2 ^ 64
  width := fb.width % 2 ^ 32
  height := fb.height % 2 ^ 32
  pitch := fb.pitch % 2 ^ 32
  bpp := fb.bpp % 2 ^ 32
  redPosition := fb.redPosition % 2 ^ 8
  redSize := fb.redSize % 2 ^ 8
  greenPosition := fb.greenPosition % 2 ^ 8
  greenSize := fb.greenSize % 2 ^ 8
  bluePosition := fb.bluePosition % 2 ^ 8
  blueSize := fb.blueSize % 2 ^ 8

/-- The record is read back field by field. -/
theorem loadFramebuffer_eq {mem : Memory} {a : Nat} {fb : BootinfoFramebuffer}
    (h : ∀ x ∈ fb.fields, mem.Spells (a + x.1) (littleEndian x.2.1 x.2.2)) :
    loadFramebuffer mem a = fb.truncated := by
  have hload : ∀ x ∈ fb.fields, mem.load (a + x.1) x.2.1 = x.2.2 % 256 ^ x.2.1 :=
    fun x hx ↦ (h x hx).load
  simp only [BootinfoFramebuffer.fields, List.forall_mem_cons, List.not_mem_nil, false_implies,
    implies_true, and_true, Nat.add_zero] at hload
  obtain ⟨h1, h2, h3, h4, h5, h6, h7, h8, h9, h10, h11, h12, h13⟩ := hload
  simp only [loadFramebuffer, BootinfoFramebuffer.truncated, h1, h2, h3, h4, h5, h6, h7, h8, h9,
    h10, h11, h12, h13]
  rfl

/-- The fields of a record lie in it. -/
theorem fields_inside (fb : BootinfoFramebuffer) :
    ∀ x ∈ fb.fields, x.1 + x.2.1 ≤ sizeofBootinfoFramebuffer := by
  simp [BootinfoFramebuffer.fields, sizeofBootinfoFramebuffer]

/-- And do not overlap. -/
theorem fields_apart {fb : BootinfoFramebuffer} {x y : Nat × Nat × Nat} (hx : x ∈ fb.fields)
    (hy : y ∈ fb.fields) (hne : x ≠ y) : x.1 + x.2.1 ≤ y.1 ∨ y.1 + y.2.1 ≤ x.1 := by
  have hpair : fb.fields.Pairwise fun x y ↦ x.1 + x.2.1 ≤ y.1 ∨ y.1 + y.2.1 ≤ x.1 := by
    simp [BootinfoFramebuffer.fields]
  have : Std.Symm fun x y : Nat × Nat × Nat ↦ x.1 + x.2.1 ≤ y.1 ∨ y.1 + y.2.1 ≤ x.1 :=
    ⟨fun _ _ ↦ Or.symm⟩
  exact hpair.forall hx hy hne

/-! ## Where the stores are -/

section Run

variable {arch : BootArch} {offset : Nat} {fbs : List BootinfoFramebuffer} {ms : List PlacedModule}
  {C : Nat → Prop} {f : PmmState} {t : EntryState} {p q : Patch} {i : Nat}

/-- `boot_info->framebuffers`, as an address. -/
def EntryState.framebuffersAt (t : EntryState) (arch : BootArch) : Nat := t.block + sizeofBootinfo arch

/-- `boot_info->modules`, as an address. -/
def EntryState.modulesAt (t : EntryState) (arch : BootArch) (framebufferCount : Nat) : Nat :=
  t.framebuffersAt arch + sizeofBootinfoFramebuffer * framebufferCount

/-- The record of the `i`-th module is behind the names of those before it. -/
def EntryState.moduleAt (t : EntryState) (arch : BootArch) (framebufferCount : Nat)
    (ms : List PlacedModule) (i : Nat) : Nat :=
  place PlacedModule.length (t.modulesAt arch framebufferCount) ms i

/-- The stores of the record and the name of a module. -/
def PlacedModule.recordStores (offset a : Nat) (m : PlacedModule) : List Patch :=
  [⟨a, littleEndian 8 (add64 (a + sizeofBootinfoModule) offset)⟩,
    ⟨a + sizeofBootinfoModule, m.name ++ [0]⟩, ⟨a + 8, littleEndian 8 m.physAddr⟩,
    ⟨a + 16, littleEndian 8 m.size⟩]

/-- Everything fits: the sizes of the block add up without overflow, and so do those of the pages for
the modules that are copied. -/
structure EntryFits (arch : BootArch) (fbs : List BootinfoFramebuffer) (ms : List PlacedModule) :
    Prop where
  block : sizeofBootinfo arch + sizeofBootinfoFramebuffer * fbs.length +
    total PlacedModule.length ms ≤ 2 ^ 64 - 4096
  data : ∀ m ∈ ms, ∀ data, m.data = some data → data.length ≤ 2 ^ 64 - 4096

theorem mem_stores_cons {a : Nat} {m : PlacedModule} :
    p ∈ m.stores offset a ↔ p ∈ m.recordStores offset a ∨ ∃ c ∈ m.copies, p = c.1 := by
  rw [PlacedModule.stores, List.mem_append, List.mem_map]
  refine or_congr Iff.rfl ⟨?_, ?_⟩
  · rintro ⟨c, hc, rfl⟩
    exact ⟨c, hc, rfl⟩
  · rintro ⟨c, hc, rfl⟩
    exact ⟨c, hc, rfl⟩

/-- A field of `*boot_info` that is set after the others holds what the kernel needs. -/
def FieldHolds (arch : BootArch) (offset : Nat) (fbs : List BootinfoFramebuffer)
    (ms : List PlacedModule) (t : EntryState) (field : BootinfoField) (v : Nat) : Prop :=
  field.offset + 8 ≤ sizeofBootinfo arch ∧
    (field = .framebufferCount → v = fbs.length) ∧
    (field = .framebuffers → fbs ≠ [] → v = add64 (t.framebuffersAt arch) offset) ∧
    (field = .moduleCount → v = ms.length) ∧
    (field = .modules → v = add64 (t.modulesAt arch fbs.length) offset)

/-- The four fields that describe the arrays. -/
theorem fieldHolds_late (arch : BootArch) (offset : Nat) (fbs : List BootinfoFramebuffer)
    (ms : List PlacedModule) (t : EntryState) {pointer : Nat}
    (hp : fbs ≠ [] → pointer = add64 (t.framebuffersAt arch) offset) :
    FieldHolds arch offset fbs ms t .framebufferCount fbs.length ∧
      FieldHolds arch offset fbs ms t .framebuffers pointer ∧
      FieldHolds arch offset fbs ms t .moduleCount ms.length ∧
      FieldHolds arch offset fbs ms t .modules (add64 (t.modulesAt arch fbs.length) offset) := by
  have hlate : ∀ field ∈ [BootinfoField.framebufferCount, .framebuffers, .moduleCount, .modules],
      field.offset + 8 ≤ sizeofBootinfo arch := by
    cases arch <;> decide
  exact ⟨⟨hlate .framebufferCount (by decide), fun _ ↦ rfl, nofun, nofun, nofun⟩,
    ⟨hlate .framebuffers (by decide), nofun, fun _ ↦ hp, nofun, nofun⟩,
    ⟨hlate .moduleCount (by decide), nofun, nofun, fun _ ↦ rfl, nofun⟩,
    ⟨hlate .modules (by decide), nofun, nofun, nofun, fun _ ↦ rfl⟩⟩

theorem BootinfoField.offset_apart {a b : BootinfoField} (h : a ≠ b) :
    a.offset + 8 ≤ b.offset ∨ b.offset + 8 ≤ a.offset := by
  have hne : a.ctorIdx ≠ b.ctorIdx := fun hc ↦ h (by
    rw [← BootinfoField.ofNat_ctorIdx a, hc, BootinfoField.ofNat_ctorIdx])
  rw [offset, offset]
  omega

/-- The stores of a module keep to its record and its name. -/
theorem recordStores_inside {a : Nat} {m : PlacedModule} (hp : p ∈ m.recordStores offset a) :
    a ≤ p.address ∧ p.stop ≤ a + m.length := by
  simp only [PlacedModule.recordStores, List.mem_cons, List.not_mem_nil, or_false] at hp
  rw [PlacedModule.length]
  rcases hp with rfl | rfl | rfl | rfl <;>
    simp only [Patch.stop_mk, littleEndian_length, List.length_append, List.length_cons,
      List.length_nil, sizeofBootinfoModule] <;> omega

theorem recordStores_apart {a : Nat} {m : PlacedModule} (hp : p ∈ m.recordStores offset a)
    (hq : q ∈ m.recordStores offset a) : q = p ∨ p.Apart q := by
  simp only [PlacedModule.recordStores, List.mem_cons, List.not_mem_nil, or_false] at hp hq
  rcases hp with rfl | rfl | rfl | rfl <;> rcases hq with rfl | rfl | rfl | rfl <;>
    first
    | exact Or.inl rfl
    | refine Or.inr (Patch.Disjoint.apart ?_)
      simp only [Patch.Disjoint, Patch.stop_mk, littleEndian_length, sizeofBootinfoModule]
      omega

namespace EntryRun

/-- What a store can be. -/
theorem stores_cases (h : EntryRun arch offset fbs ms C f t) (hq : q ∈ t.stores) :
    (∃ field v, FieldHolds arch offset fbs ms t field v ∧
        q = ⟨t.block + field.offset, littleEndian 8 v⟩) ∨
      (∃ i, ∃ hi : i < fbs.length, ∃ x ∈ (fbs[i]).fields,
        q = ⟨t.framebuffersAt arch + sizeofBootinfoFramebuffer * i + x.1,
          littleEndian x.2.1 x.2.2⟩) ∨
      (∃ i, ∃ hi : i < ms.length, q ∈ (ms[i]).recordStores offset (t.moduleAt arch fbs.length ms i)) ∨
      ∃ c ∈ t.copies, q = c.1 := by
  obtain ⟨sets, pointer, hsets, hpointer, hstores⟩ := h.stores
  obtain ⟨hcount, hptr, hmcount, hmptr⟩ := fieldHolds_late arch offset fbs ms t hpointer
  rw [hstores, List.mem_append, List.mem_append, List.mem_append] at hq
  rcases hq with ((hq | hq) | hq) | hq
  · obtain ⟨x, hx, rfl⟩ := List.mem_map.mp hq
    refine Or.inl ⟨x.1, x.2, ?_, rfl⟩
    rcases List.mem_append.mp hx with hx | hx
    · obtain ⟨hle, h1, h2, h3, h4⟩ := hsets x hx
      exact ⟨hle, fun hc ↦ absurd hc h1, fun hc ↦ absurd hc h2, fun hc ↦ absurd hc h3,
        fun hc ↦ absurd hc h4⟩
    · simp only [List.mem_cons, List.not_mem_nil, or_false] at hx
      rcases hx with rfl | rfl
      · exact hcount
      · exact hptr
  · obtain ⟨i, hi, hq⟩ := mem_laidOut.mp hq
    obtain ⟨x, hx, rfl⟩ := List.mem_map.mp hq
    rw [place_const hi.le]
    exact Or.inr (Or.inl ⟨i, hi, x, hx, rfl⟩)
  · obtain ⟨x, hx, rfl⟩ := List.mem_map.mp hq
    refine Or.inl ⟨x.1, x.2, ?_, rfl⟩
    simp only [List.mem_cons, List.not_mem_nil, or_false] at hx
    rcases hx with rfl | rfl
    · exact hmcount
    · exact hmptr
  · obtain ⟨i, hi, hq⟩ := mem_laidOut.mp hq
    rcases mem_stores_cons.mp hq with hq | ⟨c, hc, rfl⟩
    · exact Or.inr (Or.inr (Or.inl ⟨i, hi, hq⟩))
    · refine Or.inr (Or.inr (Or.inr ⟨c, ?_, rfl⟩))
      rw [h.copies]
      exact List.mem_flatMap.mpr ⟨ms[i], List.getElem_mem hi, hc⟩

/-- The fields that describe the arrays are set. -/
theorem field_mem (h : EntryRun arch offset fbs ms C f t) {field : BootinfoField}
    (hf : field ∈ [BootinfoField.framebufferCount, .framebuffers, .moduleCount, .modules]) :
    ∃ v, FieldHolds arch offset fbs ms t field v ∧
      ⟨t.block + field.offset, littleEndian 8 v⟩ ∈ t.stores := by
  obtain ⟨sets, pointer, -, hpointer, hstores⟩ := h.stores
  obtain ⟨hcount, hptr, hmcount, hmptr⟩ := fieldHolds_late arch offset fbs ms t hpointer
  rw [hstores]
  simp only [List.mem_cons, List.not_mem_nil, or_false] at hf
  rcases hf with rfl | rfl | rfl | rfl
  · refine ⟨_, hcount, List.mem_append_left _ (List.mem_append_left _ (List.mem_append_left _ ?_))⟩
    exact List.mem_map_of_mem (List.mem_append_right _ List.mem_cons_self)
  · refine ⟨_, hptr, List.mem_append_left _ (List.mem_append_left _ (List.mem_append_left _ ?_))⟩
    exact List.mem_map_of_mem
      (List.mem_append_right _ (List.mem_cons_of_mem _ List.mem_cons_self))
  · refine ⟨_, hmcount, List.mem_append_left _ (List.mem_append_right _ ?_)⟩
    exact List.mem_map_of_mem List.mem_cons_self
  · refine ⟨_, hmptr, List.mem_append_left _ (List.mem_append_right _ ?_)⟩
    exact List.mem_map_of_mem (List.mem_cons_of_mem _ List.mem_cons_self)

theorem framebuffer_mem (h : EntryRun arch offset fbs ms C f t) (hi : i < fbs.length)
    {x : Nat × Nat × Nat} (hx : x ∈ (fbs[i]).fields) :
    ⟨t.framebuffersAt arch + sizeofBootinfoFramebuffer * i + x.1, littleEndian x.2.1 x.2.2⟩ ∈
      t.stores := by
  obtain ⟨sets, pointer, -, -, hstores⟩ := h.stores
  rw [hstores]
  refine List.mem_append_left _ (List.mem_append_left _ (List.mem_append_right _ ?_))
  refine mem_laidOut.mpr ⟨i, hi, ?_⟩
  rw [place_const hi.le]
  exact List.mem_map_of_mem hx

theorem module_mem (h : EntryRun arch offset fbs ms C f t) (hi : i < ms.length)
    (hp : p ∈ (ms[i]).recordStores offset (t.moduleAt arch fbs.length ms i)) : p ∈ t.stores := by
  obtain ⟨sets, pointer, -, -, hstores⟩ := h.stores
  rw [hstores]
  exact List.mem_append_right _ (mem_laidOut.mpr ⟨i, hi, mem_stores_cons.mpr (Or.inl hp)⟩)

theorem copy_mem (h : EntryRun arch offset fbs ms C f t) {c : Patch × Allocation}
    (hc : c ∈ t.copies) : c.1 ∈ t.stores := by
  obtain ⟨sets, pointer, -, -, hstores⟩ := h.stores
  rw [h.copies] at hc
  obtain ⟨m, hm, hc⟩ := List.mem_flatMap.mp hc
  obtain ⟨i, hi, rfl⟩ := List.getElem_of_mem hm
  rw [hstores]
  exact List.mem_append_right _ (mem_laidOut.mpr ⟨i, hi, mem_stores_cons.mpr (Or.inr ⟨c, hc, rfl⟩)⟩)

/-! ### No overflow -/

/-- The second pass ends within the block. -/
theorem block_fits (h : EntryRun arch offset fbs ms C f t) (hfit : EntryFits arch fbs ms) :
    t.modulesAt arch fbs.length + total PlacedModule.length ms ≤ t.block + t.blockSize ∧
      0 < t.blockSize := by
  have hblock := hfit.block
  have hpos : 0 < sizeofBootinfo arch := by cases arch <;> decide
  rw [h.size, Nat.mod_eq_of_lt (by omega), mathAlignUp_page (by omega), EntryState.modulesAt,
    EntryState.framebuffersAt]
  omega

/-- The block is an allocation of its own. -/
theorem mem_block_iff (h : EntryRun arch offset fbs ms C f t) (x : Nat) :
    (⟨t.block, t.blockSize / ptmPageGranularity, .allocated⟩ : Allocation).Contains x ↔
      t.block ≤ x ∧ x < t.block + t.blockSize := by
  refine contains_block ?_
  rw [h.size]
  exact (mathAlignUp_pages (Nat.mod_lt _ (Nat.two_pow_pos 64))).1

/-- Physical memory ends behind the block. -/
theorem block_le (h : EntryRun arch offset fbs ms C f t) (hC : ∀ a, C a → a < 2 ^ 56)
    (hfit : EntryFits arch fbs ms) : t.block + t.blockSize ≤ 2 ^ 56 := by
  obtain ⟨-, hpos⟩ := h.block_fits hfit
  have hlast := (h.mem_block_iff (t.block + t.blockSize - 1)).mpr ⟨by omega, by omega⟩
  have htyped := h.inv.typed _ (by rw [h.held]; simp) _ hlast
  have := hC _ ((h.inv.covers _).mp (by rw [htyped]; simp))
  omega

/-- A copy lies in the pages that were allocated for it. -/
theorem copy_inside (h : EntryRun arch offset fbs ms C f t) (hfit : EntryFits arch fbs ms)
    {c : Patch × Allocation} (hc : c ∈ t.copies) :
    c.2 ∈ t.frames.held ∧ c.1.address = c.2.span.base ∧ c.1.stop ≤ c.2.span.stop := by
  have hheld : c.2 ∈ t.frames.held := by
    rw [h.held]
    exact List.mem_append_left _ (List.mem_reverse.mpr (List.mem_map_of_mem hc))
  rw [h.copies] at hc
  obtain ⟨m, hm, hc⟩ := List.mem_flatMap.mp hc
  rw [PlacedModule.copies] at hc
  split at hc
  · rename_i data hdata
    have hle := hfit.data m hm data hdata
    obtain rfl := List.mem_singleton.mp hc
    refine ⟨hheld, rfl, ?_⟩
    simp only [Allocation.span, Span.stop_mk, Patch.stop_mk]
    rw [(mathAlignUp_pages (by omega)).1, mathAlignUp_page (by omega)]
    omega
  · exact absurd hc List.not_mem_nil

/-- The copies do not meet, and none of them meets the block. -/
theorem copies_apart (h : EntryRun arch offset fbs ms C f t) (hfit : EntryFits arch fbs ms) :
    (t.copies.Pairwise fun c d ↦ c.1.Apart d.1) ∧
      ∀ c ∈ t.copies, ∀ x, c.1.address ≤ x → x < c.1.stop →
        ¬ (t.block ≤ x ∧ x < t.block + t.blockSize) := by
  have hapart := h.inv.apart
  rw [h.held] at hapart
  obtain ⟨hcopies, -, hcross⟩ := List.pairwise_append.mp hapart
  have hcontains : ∀ c ∈ t.copies, ∀ x, c.1.address ≤ x → x < c.1.stop → c.2.Contains x := by
    intro c hc x h1 h2
    obtain ⟨-, h3, h4⟩ := h.copy_inside hfit hc
    exact ⟨by omega, by omega⟩
  constructor
  · have hpair := List.pairwise_map.mp (List.pairwise_reverse.mp hcopies)
    refine hpair.imp_of_mem fun hc hd hcd x h1 h2 hx ↦ ?_
    exact hcd x (hcontains _ hd x hx.1 hx.2) (hcontains _ hc x h1 h2)
  · intro c hc x h1 h2 hx
    refine hcross c.2 (List.mem_reverse.mpr (List.mem_map_of_mem hc)) _ List.mem_cons_self x
      (hcontains c hc x h1 h2) ((h.mem_block_iff x).mpr hx)

/-! ### One store beside another -/

/-- Where the records are, one behind the other. -/
theorem module_inside (h : EntryRun arch offset fbs ms C f t) (hfit : EntryFits arch fbs ms)
    (hi : i < ms.length) : t.modulesAt arch fbs.length ≤ t.moduleAt arch fbs.length ms i ∧
      t.moduleAt arch fbs.length ms i + (ms[i]).length ≤ t.block + t.blockSize := by
  have hend : t.moduleAt arch fbs.length ms i + (ms[i]).length ≤
      t.modulesAt arch fbs.length + total PlacedModule.length ms := place_add_le_total hi
  exact ⟨le_place, hend.trans (h.block_fits hfit).1⟩

/-- A store that is not a copy lies in the part of the block that its object has. -/
theorem region (h : EntryRun arch offset fbs ms C f t) (hq : q ∈ t.stores) :
    (t.block ≤ q.address ∧ q.stop ≤ t.framebuffersAt arch) ∨
      (∃ i, i < fbs.length ∧ t.framebuffersAt arch + sizeofBootinfoFramebuffer * i ≤ q.address ∧
        q.stop ≤ t.framebuffersAt arch + sizeofBootinfoFramebuffer * (i + 1)) ∨
      (∃ i, ∃ hi : i < ms.length, t.moduleAt arch fbs.length ms i ≤ q.address ∧
        q.stop ≤ t.moduleAt arch fbs.length ms i + (ms[i]).length) ∨
      ∃ c ∈ t.copies, q = c.1 := by
  rcases h.stores_cases hq with
    ⟨field, v, hv, rfl⟩ | ⟨i, hi, x, hx, rfl⟩ | ⟨i, hi, hq⟩ | ⟨c, hc, rfl⟩
  · have hle := hv.1
    rw [Patch.stop_mk, littleEndian_length, EntryState.framebuffersAt]
    exact Or.inl ⟨Nat.le_add_right _ _, by omega⟩
  · have hle := fields_inside fbs[i] x hx
    rw [Patch.stop_mk, littleEndian_length]
    refine Or.inr (Or.inl ⟨i, hi, Nat.le_add_right _ _, ?_⟩)
    rw [Nat.mul_succ]
    omega
  · exact Or.inr (Or.inr (Or.inl ⟨i, hi, recordStores_inside hq⟩))
  · exact Or.inr (Or.inr (Or.inr ⟨c, hc, rfl⟩))

/-- **No store leaves the block**, but for the copies. -/
theorem store_inside (h : EntryRun arch offset fbs ms C f t) (hfit : EntryFits arch fbs ms)
    (hq : q ∈ t.stores) : (t.block ≤ q.address ∧ q.stop ≤ t.block + t.blockSize) ∨
      ∃ c ∈ t.copies, q = c.1 := by
  have hend := (h.block_fits hfit).1
  rw [EntryState.modulesAt, EntryState.framebuffersAt] at hend
  rcases h.region hq with ⟨h1, h2⟩ | ⟨i, hi, h1, h2⟩ | ⟨i, hi, h1, h2⟩ | hc
  · rw [EntryState.framebuffersAt] at h2
    exact Or.inl ⟨h1, by omega⟩
  · have hle : sizeofBootinfoFramebuffer * (i + 1) ≤ sizeofBootinfoFramebuffer * fbs.length :=
      Nat.mul_le_mul_left _ hi
    rw [EntryState.framebuffersAt] at h1 h2
    exact Or.inl ⟨by omega, by omega⟩
  · obtain ⟨h3, h4⟩ := h.module_inside hfit hi
    rw [EntryState.modulesAt, EntryState.framebuffersAt] at h3
    exact Or.inl ⟨by omega, by omega⟩
  · exact Or.inr hc

/-- A store into a field that describes an array. -/
theorem load_field (h : EntryRun arch offset fbs ms C f t) (hfit : EntryFits arch fbs ms)
    (field : BootinfoField)
    (hf : field ∈ [BootinfoField.framebufferCount, .framebuffers, .moduleCount, .modules])
    (hne : field = .framebuffers → fbs ≠ []) : ∃ v, FieldHolds arch offset fbs ms t field v ∧
      ∀ mem : Memory, loadField (mem.patch t.stores) t.block field = v % 2 ^ 64 := by
  obtain ⟨v, hv, hp⟩ := h.field_mem hf
  refine ⟨v, hv, fun mem ↦ ?_⟩
  refine (spells_patch_of_apart hp (fun q hq ↦ ?_) mem).load
  have hle := hv.1
  rcases h.stores_cases hq with
    ⟨field', v', hv', rfl⟩ | ⟨i, hi, x, hx, rfl⟩ | ⟨i, hi, hq⟩ | ⟨c, hc, rfl⟩
  · by_cases hfield : field' = field
    · subst hfield
      left
      obtain ⟨-, h1, h2, h3, h4⟩ := hv
      obtain ⟨-, h1', h2', h3', h4'⟩ := hv'
      simp only [List.mem_cons, List.not_mem_nil, or_false] at hf
      rcases hf with rfl | rfl | rfl | rfl
      · rw [h1 rfl, h1' rfl]
      · rw [h2 rfl (hne rfl), h2' rfl (hne rfl)]
      · rw [h3 rfl, h3' rfl]
      · rw [h4 rfl, h4' rfl]
    · refine Or.inr (Patch.Disjoint.apart ?_)
      have := BootinfoField.offset_apart hfield
      simp only [Patch.Disjoint, Patch.stop_mk, littleEndian_length]
      omega
  · refine Or.inr (Patch.Disjoint.apart (Or.inl ?_))
    simp only [Patch.stop_mk, littleEndian_length, EntryState.framebuffersAt]
    omega
  · refine Or.inr (Patch.Disjoint.apart (Or.inl ?_))
    have h1 := (recordStores_inside hq).1
    have h2 := (h.module_inside hfit hi).1
    rw [EntryState.modulesAt, EntryState.framebuffersAt] at h2
    simp only [Patch.stop_mk, littleEndian_length]
    omega
  · refine Or.inr fun x h1 h2 hx ↦ (h.copies_apart hfit).2 c hc x hx.1 hx.2 ?_
    have hend := (h.block_fits hfit).1
    rw [EntryState.modulesAt, EntryState.framebuffersAt] at hend
    simp only [Patch.stop_mk, littleEndian_length] at h1 h2
    omega

/-- A store into the record of a framebuffer. -/
theorem spells_framebuffer (h : EntryRun arch offset fbs ms C f t) (hfit : EntryFits arch fbs ms)
    (hi : i < fbs.length) {x : Nat × Nat × Nat} (hx : x ∈ (fbs[i]).fields) (mem : Memory) :
    (mem.patch t.stores).Spells (t.framebuffersAt arch + sizeofBootinfoFramebuffer * i + x.1)
      (littleEndian x.2.1 x.2.2) := by
  refine spells_patch_of_apart (h.framebuffer_mem hi hx) (fun q hq ↦ ?_) mem
  have hxle := fields_inside fbs[i] x hx
  have hnext : sizeofBootinfoFramebuffer * (i + 1) ≤ sizeofBootinfoFramebuffer * fbs.length :=
    Nat.mul_le_mul_left _ hi
  rw [Nat.mul_succ] at hnext
  rcases h.stores_cases hq with
    ⟨field, v, hv, rfl⟩ | ⟨j, hj, y, hy, rfl⟩ | ⟨j, hj, hq⟩ | ⟨c, hc, rfl⟩
  · have hle := hv.1
    refine Or.inr (Patch.Disjoint.apart (Or.inr ?_))
    simp only [Patch.stop_mk, littleEndian_length, EntryState.framebuffersAt]
    omega
  · have hyle := fields_inside fbs[j] y hy
    rcases Nat.lt_trichotomy i j with hij | rfl | hij
    · have := Nat.mul_le_mul_left sizeofBootinfoFramebuffer (Nat.succ_le_of_lt hij)
      rw [Nat.mul_succ] at this
      refine Or.inr (Patch.Disjoint.apart (Or.inl ?_))
      simp only [Patch.stop_mk, littleEndian_length]
      omega
    · by_cases hxy : y = x
      · exact Or.inl (by rw [hxy])
      · refine Or.inr (Patch.Disjoint.apart ?_)
        have := fields_apart hx hy (Ne.symm hxy)
        simp only [Patch.Disjoint, Patch.stop_mk, littleEndian_length]
        omega
    · have := Nat.mul_le_mul_left sizeofBootinfoFramebuffer (Nat.succ_le_of_lt hij)
      rw [Nat.mul_succ] at this
      refine Or.inr (Patch.Disjoint.apart (Or.inr ?_))
      simp only [Patch.stop_mk, littleEndian_length]
      omega
  · refine Or.inr (Patch.Disjoint.apart (Or.inl ?_))
    have h1 := (recordStores_inside hq).1
    have h2 := (h.module_inside hfit hj).1
    rw [EntryState.modulesAt] at h2
    simp only [Patch.stop_mk, littleEndian_length]
    omega
  · refine Or.inr fun a h1 h2 ha ↦ (h.copies_apart hfit).2 c hc a ha.1 ha.2 ?_
    have hend := (h.block_fits hfit).1
    rw [EntryState.modulesAt] at hend
    simp only [Patch.stop_mk, littleEndian_length, EntryState.framebuffersAt] at h1 h2 hend
    omega

/-- A store into the record of a module, or of its name. -/
theorem spells_module (h : EntryRun arch offset fbs ms C f t) (hfit : EntryFits arch fbs ms)
    (hi : i < ms.length) (hp : p ∈ (ms[i]).recordStores offset (t.moduleAt arch fbs.length ms i))
    (mem : Memory) : (mem.patch t.stores).Spells p.address p.bytes := by
  refine spells_patch_of_apart (h.module_mem hi hp) (fun q hq ↦ ?_) mem
  obtain ⟨h1, h2⟩ := recordStores_inside hp
  obtain ⟨h3, h4⟩ := h.module_inside hfit hi
  rcases h.stores_cases hq with
    ⟨field, v, hv, rfl⟩ | ⟨j, hj, y, hy, rfl⟩ | ⟨j, hj, hq⟩ | ⟨c, hc, rfl⟩
  · have hle := hv.1
    rw [EntryState.modulesAt, EntryState.framebuffersAt] at h3
    refine Or.inr (Patch.Disjoint.apart (Or.inr ?_))
    simp only [Patch.stop_mk, littleEndian_length]
    omega
  · have hyle := fields_inside fbs[j] y hy
    have hnext : sizeofBootinfoFramebuffer * (j + 1) ≤ sizeofBootinfoFramebuffer * fbs.length :=
      Nat.mul_le_mul_left _ hj
    rw [Nat.mul_succ] at hnext
    rw [EntryState.modulesAt] at h3
    refine Or.inr (Patch.Disjoint.apart (Or.inr ?_))
    simp only [Patch.stop_mk, littleEndian_length]
    omega
  · obtain ⟨h5, h6⟩ := recordStores_inside hq
    rcases Nat.lt_trichotomy i j with hij | rfl | hij
    · have : t.moduleAt arch fbs.length ms i + (ms[i]).length ≤
          t.moduleAt arch fbs.length ms j := place_add_le hi hij hj.le
      exact Or.inr (Patch.Disjoint.apart (Or.inl (h2.trans (this.trans h5))))
    · exact recordStores_apart hp hq
    · have : t.moduleAt arch fbs.length ms j + (ms[j]).length ≤
          t.moduleAt arch fbs.length ms i := place_add_le hj hij hi.le
      exact Or.inr (Patch.Disjoint.apart (Or.inr (h6.trans (this.trans h1))))
  · refine Or.inr fun a ha1 ha2 ha ↦ (h.copies_apart hfit).2 c hc a ha.1 ha.2 ?_
    rw [EntryState.modulesAt, EntryState.framebuffersAt] at h3
    omega

/-- What was copied is there. -/
theorem spells_copy (h : EntryRun arch offset fbs ms C f t) (hfit : EntryFits arch fbs ms)
    {c : Patch × Allocation} (hc : c ∈ t.copies) (mem : Memory) :
    (mem.patch t.stores).Spells c.1.address c.1.bytes := by
  obtain ⟨hpair, hblock⟩ := h.copies_apart hfit
  refine spells_patch_of_apart (h.copy_mem hc) (fun q hq ↦ ?_) mem
  rcases h.store_inside hfit hq with ⟨h1, h2⟩ | ⟨d, hd, rfl⟩
  · exact Or.inr fun x hx1 hx2 hx ↦ hblock c hc x hx1 hx2 ⟨by omega, by omega⟩
  · by_cases hcd : d = c
    · exact Or.inl (by rw [hcd])
    · have : Std.Symm fun c d : Patch × Allocation ↦ c.1.Apart d.1 := ⟨fun _ _ ↦ Patch.Apart.symm⟩
      exact Or.inr (hpair.forall hc hd (Ne.symm hcd))

/-! ### The objects -/

theorem mem_objects (h : EntryRun arch offset fbs ms C f t) {o : Span BlockPart} :
    o ∈ t.objects ↔ o = ⟨t.block, sizeofBootinfo arch, .bootinfo⟩ ∨
      (∃ i < fbs.length, o = ⟨t.framebuffersAt arch + sizeofBootinfoFramebuffer * i,
        sizeofBootinfoFramebuffer, .framebuffer⟩) ∨
      ∃ i, ∃ hi : i < ms.length, o ∈ (ms[i]).objects (t.moduleAt arch fbs.length ms i) := by
  rw [h.objects, List.mem_cons, List.mem_append, mem_laidOut, mem_laidOut]
  refine or_congr Iff.rfl (or_congr ⟨?_, ?_⟩ Iff.rfl)
  · rintro ⟨i, hi, ho⟩
    rw [place_const hi.le] at ho
    exact ⟨i, hi, List.mem_singleton.mp ho⟩
  · rintro ⟨i, hi, rfl⟩
    refine ⟨i, hi, ?_⟩
    rw [place_const hi.le]
    exact List.mem_singleton.mpr rfl

theorem module_objects {a : Nat} {m : PlacedModule} {o : Span BlockPart} (ho : o ∈ m.objects a) :
    a ≤ o.base ∧ o.stop ≤ a + m.length := by
  simp only [PlacedModule.objects, List.mem_cons, List.not_mem_nil, or_false] at ho
  rw [PlacedModule.length]
  rcases ho with rfl | rfl <;> simp only [Span.stop_mk] <;> omega

/-- The block holds all objects. -/
theorem object_inside (h : EntryRun arch offset fbs ms C f t) (hfit : EntryFits arch fbs ms)
    {o : Span BlockPart} (ho : o ∈ t.objects) :
    t.block ≤ o.base ∧ o.stop ≤ t.block + t.blockSize := by
  have hend := (h.block_fits hfit).1
  rw [EntryState.modulesAt, EntryState.framebuffersAt] at hend
  rcases h.mem_objects.mp ho with rfl | ⟨i, hi, rfl⟩ | ⟨i, hi, ho⟩
  · exact ⟨le_rfl, by rw [Span.stop_mk]; omega⟩
  · have hnext := Nat.mul_le_mul_left sizeofBootinfoFramebuffer (Nat.succ_le_of_lt hi)
    rw [Nat.mul_succ] at hnext
    simp only [Span.stop_mk, EntryState.framebuffersAt]
    omega
  · obtain ⟨h1, h2⟩ := module_objects ho
    obtain ⟨h3, h4⟩ := h.module_inside hfit hi
    rw [EntryState.modulesAt, EntryState.framebuffersAt] at h3
    exact ⟨by omega, by omega⟩

/-- Each object ends before the next one begins. -/
theorem objects_apart (h : EntryRun arch offset fbs ms C f t) :
    t.objects.Pairwise fun x y ↦ x.stop ≤ y.base := by
  rw [h.objects, List.pairwise_cons, List.pairwise_append]
  refine ⟨fun o ho ↦ ?_, ?_, ?_, ?_⟩
  · rw [Span.stop_mk]
    rcases List.mem_append.mp ho with ho | ho
    · obtain ⟨i, hi, ho⟩ := mem_laidOut.mp ho
      obtain rfl := List.mem_singleton.mp ho
      exact le_place
    · obtain ⟨i, hi, ho⟩ := mem_laidOut.mp ho
      have h1 := (module_objects ho).1
      have h2 : t.block + sizeofBootinfo arch + sizeofBootinfoFramebuffer * fbs.length ≤
          place PlacedModule.length _ ms i := le_place
      omega
  · refine pairwise_laidOut (fun a x ↦ List.pairwise_singleton _ _) fun hab p hp q hq ↦ ?_
    obtain rfl := List.mem_singleton.mp hp
    obtain rfl := List.mem_singleton.mp hq
    exact hab
  · refine pairwise_laidOut (fun a x ↦ ?_) fun hab p hp q hq ↦ ?_
    · exact List.pairwise_pair.mpr le_rfl
    · exact (module_objects hp).2.trans (hab.trans (module_objects hq).1)
  · intro o ho o' ho'
    obtain ⟨i, hi, ho⟩ := mem_laidOut.mp ho
    obtain ⟨j, hj, ho'⟩ := mem_laidOut.mp ho'
    obtain rfl := List.mem_singleton.mp ho
    have hnext := Nat.mul_le_mul_left sizeofBootinfoFramebuffer (Nat.succ_le_of_lt hi)
    rw [Nat.mul_succ] at hnext
    have h1 := (module_objects ho').1
    have h2 : t.block + sizeofBootinfo arch + sizeofBootinfoFramebuffer * fbs.length ≤
        place PlacedModule.length _ ms j := le_place
    rw [Span.stop_mk, place_const hi.le]
    omega

/-- A store is into an object, or is a copy. -/
theorem written (h : EntryRun arch offset fbs ms C f t) (hq : q ∈ t.stores) :
    (∃ o ∈ t.objects, o.base ≤ q.address ∧ q.stop ≤ o.stop) ∨ ∃ c ∈ t.copies, q = c.1 := by
  rcases h.stores_cases hq with
    ⟨field, v, hv, rfl⟩ | ⟨i, hi, x, hx, rfl⟩ | ⟨i, hi, hq⟩ | hc
  · refine Or.inl ⟨_, h.mem_objects.mpr (Or.inl rfl), Nat.le_add_right _ _, ?_⟩
    have hle := hv.1
    rw [Patch.stop_mk, littleEndian_length, Span.stop_mk]
    omega
  · refine Or.inl ⟨_, h.mem_objects.mpr (Or.inr (Or.inl ⟨i, hi, rfl⟩)), Nat.le_add_right _ _, ?_⟩
    have hle := fields_inside fbs[i] x hx
    rw [Patch.stop_mk, littleEndian_length, Span.stop_mk]
    omega
  · left
    have hobject : ∀ o ∈ (ms[i]).objects (t.moduleAt arch fbs.length ms i), o ∈ t.objects :=
      fun o ho ↦ h.mem_objects.mpr (Or.inr (Or.inr ⟨i, hi, ho⟩))
    simp only [PlacedModule.objects, List.mem_cons, List.not_mem_nil, or_false,
      forall_eq_or_imp, forall_eq] at hobject
    obtain ⟨hrecord, hname⟩ := hobject
    simp only [PlacedModule.recordStores, List.mem_cons, List.not_mem_nil, or_false] at hq
    rcases hq with rfl | rfl | rfl | rfl
    · exact ⟨_, hrecord, le_rfl, by
        simp only [Patch.stop_mk, littleEndian_length, Span.stop_mk, sizeofBootinfoModule]; omega⟩
    · exact ⟨_, hname, le_rfl, by
        simp only [Patch.stop_mk, List.length_append, List.length_singleton, Span.stop_mk]; omega⟩
    · exact ⟨_, hrecord, Nat.le_add_right _ _, by
        simp only [Patch.stop_mk, littleEndian_length, Span.stop_mk, sizeofBootinfoModule]; omega⟩
    · exact ⟨_, hrecord, Nat.le_add_right _ _, by
        simp only [Patch.stop_mk, littleEndian_length, Span.stop_mk, sizeofBootinfoModule]; omega⟩
  · exact Or.inr hc

end EntryRun

end Run

/-! ## What the kernel finds -/

/-- What the kernel should learn about a module in the block. -/
def PlacedModule.toBootModule (m : PlacedModule) : BootModule := ⟨m.name, m.physAddr, m.size⟩

/-- How far the record of the `i`-th module is behind the first one: each record is followed by the
name. -/
def recordPlace (mods : List BootModule) (i : Nat) : Nat :=
  place (fun m : BootModule ↦ sizeofBootinfoModule + (m.name.length + 1)) 0 mods i

/-- The block holds everything, nothing is written beside it but the copies, and the kernel can read
the framebuffers as an array, and the modules where their records are. -/
structure BlockHolds (offset : Nat) (t : EntryState) (fbs : List BootinfoFramebuffer)
    (mods : List BootModule) : Prop where
  allocated : ⟨t.block, t.blockSize / ptmPageGranularity, .allocated⟩ ∈ t.frames.held
  written : ∀ p ∈ t.stores,
    (∃ o ∈ t.objects, o.base ≤ p.address ∧ p.stop ≤ o.stop) ∨ ∃ c ∈ t.copies, p = c.1
  inside : ∀ o ∈ t.objects, t.block ≤ o.base ∧ o.stop ≤ t.block + t.blockSize
  apart : t.objects.Pairwise fun x y ↦ x.stop ≤ y.base
  copied : ∀ c ∈ t.copies, c.2 ∈ t.frames.held ∧ c.1.address = c.2.span.base ∧
    c.1.stop ≤ c.2.span.stop ∧ ∀ mem : Memory, (mem.patch t.stores).Spells c.1.address c.1.bytes
  framebuffers : ∀ mem : Memory, loadFramebuffers offset (mem.patch t.stores) t.block = fbs
  moduleCount : ∀ mem : Memory,
    loadField (mem.patch t.stores) t.block .moduleCount = mods.length
  modules : ∀ (mem : Memory) (i : Nat) (hi : i < mods.length),
    ReadsModule offset (mem.patch t.stores)
      (sub64 (loadField (mem.patch t.stores) t.block .modules) offset + recordPlace mods i) mods[i]

section Holds

variable {arch : BootArch} {offset : Nat} {fbs : List BootinfoFramebuffer} {ms : List PlacedModule}
  {C : Nat → Prop} {f : PmmState} {t : EntryState} {i : Nat}

/-- A pointer into the direct map leads back. -/
theorem sub64_add64 {x : Nat} (hx : x < 2 ^ 64) (ho : offset < 2 ^ 64) :
    sub64 (add64 x offset) offset = x := by
  unfold sub64 add64
  omega

theorem recordPlace_eq (ms : List PlacedModule) (a i : Nat) :
    place PlacedModule.length a ms i = a + recordPlace (ms.map PlacedModule.toBootModule) i := by
  rw [recordPlace, place, place, total, total, ← List.map_take, List.map_map, Nat.zero_add]
  rfl

namespace EntryRun

theorem loadFramebuffers_eq (h : EntryRun arch offset fbs ms C f t) (hC : ∀ a, C a → a < 2 ^ 56)
    (hfit : EntryFits arch fbs ms) (ho : offset < 2 ^ 64) (mem : Memory) :
    loadFramebuffers offset (mem.patch t.stores) t.block =
      fbs.map BootinfoFramebuffer.truncated := by
  have hblock := h.block_le hC hfit
  have hend := (h.block_fits hfit).1
  rw [EntryState.modulesAt, EntryState.framebuffersAt] at hend
  obtain ⟨n, ⟨-, hn, -⟩, hcount⟩ := h.load_field hfit .framebufferCount (by decide) nofun
  have hlen : fbs.length < 2 ^ 64 := by
    unfold sizeofBootinfoFramebuffer at hend
    omega
  rw [loadFramebuffers, hcount, hn rfl, Nat.mod_eq_of_lt hlen]
  rcases eq_or_ne fbs [] with rfl | hne
  · rfl
  obtain ⟨p, ⟨-, -, hp, -⟩, hptr⟩ := h.load_field hfit .framebuffers (by decide)
    fun _ ↦ hne
  rw [hptr, hp rfl hne, Nat.mod_eq_of_lt (add64_lt _ _),
    sub64_add64 (by rw [EntryState.framebuffersAt]; omega) ho]
  refine List.ext_getElem (by simp) fun i h1 h2 ↦ ?_
  rw [List.getElem_map, List.getElem_map, List.getElem_range]
  exact loadFramebuffer_eq fun x hx ↦ h.spells_framebuffer hfit (by simpa using h2) hx mem

theorem loadField_modules (h : EntryRun arch offset fbs ms C f t) (hfit : EntryFits arch fbs ms)
    (mem : Memory) : loadField (mem.patch t.stores) t.block .modules =
      add64 (t.modulesAt arch fbs.length) offset := by
  obtain ⟨v, ⟨-, -, -, -, hv⟩, hload⟩ := h.load_field hfit .modules (by decide) nofun
  rw [hload, hv rfl, Nat.mod_eq_of_lt (add64_lt _ _)]

theorem loadField_moduleCount (h : EntryRun arch offset fbs ms C f t)
    (hC : ∀ a, C a → a < 2 ^ 56) (hfit : EntryFits arch fbs ms) (mem : Memory) :
    loadField (mem.patch t.stores) t.block .moduleCount = ms.length := by
  have hblock := h.block_le hC hfit
  have hend := (h.block_fits hfit).1
  obtain ⟨v, ⟨-, -, -, hv, -⟩, hload⟩ := h.load_field hfit .moduleCount (by decide) nofun
  have hlen : ms.length ≤ total PlacedModule.length ms := by
    rw [total]
    refine List.length_map (f := PlacedModule.length) ▸ List.length_le_sum_of_one_le _ fun n hn ↦ ?_
    obtain ⟨m, -, rfl⟩ := List.mem_map.mp hn
    rw [PlacedModule.length]
    omega
  rw [hload, hv rfl, Nat.mod_eq_of_lt (by omega)]

/-- The record of the `i`-th module. -/
theorem readsModule (h : EntryRun arch offset fbs ms C f t) (hC : ∀ a, C a → a < 2 ^ 56)
    (hfit : EntryFits arch fbs ms) (ho : offset < 2 ^ 64) (hi : i < ms.length) (mem : Memory) :
    ReadsModule offset (mem.patch t.stores) (t.moduleAt arch fbs.length ms i)
      (ms[i]).toBootModule := by
  have hblock := h.block_le hC hfit
  have hend := (h.module_inside hfit hi).2
  rw [PlacedModule.length] at hend
  have hspell := fun p hp ↦ h.spells_module (p := p) hfit hi hp mem
  simp only [PlacedModule.recordStores, List.mem_cons, List.not_mem_nil, or_false,
    forall_eq_or_imp, forall_eq] at hspell
  obtain ⟨hptr, hname, haddr, hsize⟩ := hspell
  refine ⟨?_, haddr.load, hsize.load⟩
  have hload := hptr.load
  rw [Nat.mod_eq_of_lt (show add64 _ _ < 256 ^ 8 from add64_lt _ _)] at hload
  rw [hload, sub64_add64 (by omega) ho]
  exact hname

/-- **The block holds everything.** -/
theorem holds (h : EntryRun arch offset fbs ms C f t) (hC : ∀ a, C a → a < 2 ^ 56)
    (hfit : EntryFits arch fbs ms) (ho : offset < 2 ^ 64) :
    BlockHolds offset t (fbs.map BootinfoFramebuffer.truncated)
      (ms.map PlacedModule.toBootModule) := by
  have hblock := h.block_le hC hfit
  have hend := (h.block_fits hfit).1
  refine
    { allocated := by rw [h.held]; simp
      written := fun _ ↦ h.written
      inside := fun _ ↦ h.object_inside hfit
      apart := h.objects_apart
      copied := fun c hc ↦ ?_
      framebuffers := h.loadFramebuffers_eq hC hfit ho
      moduleCount := fun mem ↦ by rw [h.loadField_moduleCount hC hfit, List.length_map]
      modules := fun mem i hi ↦ ?_ }
  · obtain ⟨h1, h2, h3⟩ := h.copy_inside hfit hc
    exact ⟨h1, h2, h3, h.spells_copy hfit hc⟩
  · rw [h.loadField_modules hfit, sub64_add64 (by omega) ho, ← recordPlace_eq, List.getElem_map]
    exact h.readsModule hC hfit ho (by simpa using hi) mem

end EntryRun

end Holds

/-! ## The two entry points -/

/-- Where the modules of Limine were copied to, and what the kernel should learn about them. -/
def limineMods (r : LimineResponse) (t : EntryState) : List BootModule :=
  List.zipWith (fun file c ↦ ⟨cstring file.path, c.1.address, file.data.length⟩) r.modules t.copies

theorem zipWith_placed_copies : ∀ {files : List LimineFile} {places : List Nat},
    places.length = files.length →
      ((List.zipWith LimineFile.placed files places).flatMap PlacedModule.copies).map
          (fun c ↦ c.1.bytes) = files.map LimineFile.data ∧
        List.zipWith (fun file c ↦ (⟨cstring file.path, c.1.address, file.data.length⟩ : BootModule))
            files ((List.zipWith LimineFile.placed files places).flatMap PlacedModule.copies) =
          (List.zipWith LimineFile.placed files places).map PlacedModule.toBootModule
  | [], [], _ => ⟨rfl, rfl⟩
  | file :: files, a :: places, h => by
    obtain ⟨h1, h2⟩ := zipWith_placed_copies (Nat.succ.inj h)
    rw [List.zipWith_cons_cons, List.flatMap_cons, List.map_append, h1, List.map_cons]
    refine ⟨rfl, ?_⟩
    rw [List.map_cons, ← h2]
    rfl

/-- What is written for Limine's framebuffers. -/
def limineFill (r : LimineResponse) : List BootinfoFramebuffer :=
  ((r.framebuffers.getD []).map (LimineFramebuffer.fill r.hhdmOffset)).map
    BootinfoFramebuffer.truncated

/-- What the kernel should learn about the modules of Tartarus. -/
def tartarusMods (r : TartarusBootInfo) : List BootModule :=
  r.modules.map fun file ↦ ⟨cstring file.name, file.paddr, file.size⟩

/-- The sizes of Limine's objects and modules do not overflow. -/
structure LimineFits (arch : BootArch) (r : LimineResponse) : Prop where
  offset : r.hhdmOffset < 2 ^ 64
  block : blockTotal arch (r.framebuffers.getD []).length (r.modules.map LimineFile.path) ≤
    2 ^ 64 - 4096
  data : ∀ file ∈ r.modules, file.data.length ≤ 2 ^ 64 - 4096

/-- The sizes of the objects do not overflow. -/
structure TartarusFits (arch : BootArch) (r : TartarusBootInfo) : Prop where
  offset : r.hhdmOffset < 2 ^ 64
  block : blockTotal arch r.framebuffers.length (r.modules.map TartarusModule.name) ≤ 2 ^ 64 - 4096

section Entry

variable {arch : BootArch} {C : Nat → Prop} {f : PmmState} {t : EntryState}

theorem LimineFits.entryFits {r : LimineResponse} (h : LimineFits arch r) {places : List Nat}
    (hlen : places.length = r.modules.length) :
    EntryFits arch ((r.framebuffers.getD []).map (LimineFramebuffer.fill r.hhdmOffset))
      (List.zipWith LimineFile.placed r.modules places) := by
  refine ⟨?_, fun m hm data hdata ↦ ?_⟩
  · rw [← blockTotal_eq _ _ _ (zipWith_placed_name hlen), List.length_map]
    exact h.block
  · obtain ⟨i, hi, rfl⟩ := List.getElem_of_mem hm
    rw [List.getElem_zipWith, LimineFile.placed] at hdata
    obtain rfl := Option.some.inj hdata
    exact h.data _ (List.getElem_mem _)

theorem TartarusFits.entryFits {r : TartarusBootInfo} (h : TartarusFits arch r) :
    EntryFits arch r.framebuffers (r.modules.map TartarusModule.placed) := by
  refine ⟨?_, fun m hm data hdata ↦ ?_⟩
  · rw [← blockTotal_eq _ _ (r.modules.map TartarusModule.name) (by
      rw [List.map_map, List.map_map]
      rfl)]
    exact h.block
  · obtain ⟨file, -, rfl⟩ := List.mem_map.mp hm
    cases hdata

/-- **The boot information of both entry points.**  Every run that returns, for any number of
framebuffers and modules and any names, has sized and filled in the block such that it holds
everything; what Limine loaded is copied. -/
theorem block_holds (h : f.Inv C) (hC : ∀ a, C a → a < 2 ^ 56) :
    (∀ r : LimineResponse, LimineFits arch r → prekernelEntryLimine arch r f = .ok t →
      BlockHolds r.hhdmOffset t (limineFill r) (limineMods r t) ∧
        t.copies.map (fun c ↦ c.1.bytes) = r.modules.map LimineFile.data) ∧
    ∀ r : TartarusBootInfo, TartarusFits arch r → prekernelEntryTartarus arch r f = .ok t →
      BlockHolds r.hhdmOffset t (r.framebuffers.map BootinfoFramebuffer.truncated)
        (tartarusMods r) ∧ t.copies = [] := by
  constructor
  · intro r hfit ht
    obtain ⟨places, hlen, hrun⟩ := limine_run h hC ht
    obtain ⟨hbytes, hmods⟩ := zipWith_placed_copies hlen
    have hholds := hrun.holds hC (hfit.entryFits hlen) hfit.offset
    rw [← hmods, ← hrun.copies] at hholds
    refine ⟨hholds, ?_⟩
    rw [hrun.copies]
    exact hbytes
  · intro r hfit ht
    have hrun := tartarus_run h hC ht
    have hholds := hrun.holds hC hfit.entryFits hfit.offset
    rw [List.map_map] at hholds
    refine ⟨hholds, ?_⟩
    rw [hrun.copies, List.flatMap_map]
    exact List.flatMap_eq_nil_iff.mpr fun _ _ ↦ rfl

end Entry

/-- A framebuffer, and two modules with names. -/
def sampleLimine : LimineResponse where
  hhdmOffset := 0xffff800000000000
  cpuCount := 4
  timestamp := 1700000000
  rsdp := some 0xffff8000000e0000
  dtb := none
  framebuffers := some [⟨0xffff8000fd000000, 1024, 768, 4096, 32, 8, 16, 8, 8, 8, 0⟩]
  modules := [⟨[0x2f, 0x61, 0], [1, 2, 3], by decide⟩, ⟨[0x62, 0, 7], [], by decide⟩]

/-- The same for Tartarus. -/
def sampleTartarus : TartarusBootInfo where
  hhdmOffset := 0xffff800000000000
  cpuCount := 4
  bootTimestamp := 1700000000
  acpiRsdpAddress := 0xe0000
  framebuffers := [⟨0xffff8000fd000000, 0xfd000000, 0x300000, 1024, 768, 4096, 32, 16, 8, 8, 8, 0, 8⟩]
  modules := [⟨[0x2f, 0x61, 0], 0x200000, 3⟩, ⟨[0x62, 0, 7], 0x300000, 0⟩]

/-- Both runs return. -/
theorem sample_runs : ∃ m t u, addAll .empty oneRange = .ok m ∧
    prekernelEntryLimine .riscv64 sampleLimine ⟨m, []⟩ = .ok t ∧
    prekernelEntryTartarus .riscv64 sampleTartarus ⟨m, []⟩ = .ok u := by
  have hrun : ((addAll .empty oneRange).toOption.bind fun m ↦
      (prekernelEntryLimine .riscv64 sampleLimine ⟨m, []⟩).toOption.bind fun t ↦
        (prekernelEntryTartarus .riscv64 sampleTartarus ⟨m, []⟩).toOption.map fun u ↦
          (t, u)).isSome := by
    decide +kernel
  obtain ⟨x, hrun⟩ := Option.isSome_iff_exists.mp hrun
  obtain ⟨m, hm, hrun⟩ := Option.bind_eq_some_iff.mp hrun
  obtain ⟨t, ht, hrun⟩ := Option.bind_eq_some_iff.mp hrun
  obtain ⟨u, hu, -⟩ := Option.map_eq_some_iff.mp hrun
  exact ⟨m, t, u, toOption_eq_some hm, toOption_eq_some ht, toOption_eq_some hu⟩

theorem sampleLimine_fits : LimineFits .riscv64 sampleLimine :=
  ⟨by decide, by decide, by decide⟩

theorem sampleTartarus_fits : TartarusFits .riscv64 sampleTartarus :=
  ⟨by decide, by decide⟩

/-- Two modules, loaded by either bootloader. -/
theorem block_holds_two : ∃ m t u, addAll .empty oneRange = .ok m ∧
    prekernelEntryLimine .riscv64 sampleLimine ⟨m, []⟩ = .ok t ∧
    prekernelEntryTartarus .riscv64 sampleTartarus ⟨m, []⟩ = .ok u ∧
    BlockHolds sampleLimine.hhdmOffset t (limineFill sampleLimine) (limineMods sampleLimine t) ∧
    BlockHolds sampleTartarus.hhdmOffset u
      (sampleTartarus.framebuffers.map BootinfoFramebuffer.truncated)
      (tartarusMods sampleTartarus) := by
  obtain ⟨m, t, u, hm, ht, hu⟩ := sample_runs
  obtain ⟨hinv, hC⟩ := oneRange_inv hm
  exact ⟨m, t, u, hm, ht, hu, ((block_holds hinv hC).1 sampleLimine sampleLimine_fits ht).1,
    ((block_holds hinv hC).2 sampleTartarus sampleTartarus_fits hu).1⟩

/-! ## The modules as an array -/

/-- Read as `bootinfo.h` declares it, the array of the modules is what it should be. -/
def ReadsArray (offset : Nat) (mem : Memory) (block : Nat) (mods : List BootModule) : Prop :=
  loadField mem block .moduleCount = mods.length ∧ ∀ i (hi : i < mods.length),
    ReadsModule offset mem
      (sub64 (loadField mem block .modules) offset + sizeofBootinfoModule * i) mods[i]

/-- The first eight bytes of a string, behind which zeros are supposed to be. -/
def firstWord (name : List UInt8) : Nat := Memory.load (fun i ↦ name.getD i 0) 0 8

/-- A place of the direct map in which the bytes behind the first record, read as a pointer, lead
past the end of physical memory; `a` is where the name of the second module is. -/
def misleadingOffset (name : List UInt8) (a : Nat) : Nat :=
  if 8 ≤ name.length then add64 (firstWord name) (2 ^ 63) else 2 ^ 57 - a

section Array

variable {arch : BootArch} {offset : Nat} {fbs : List BootinfoFramebuffer} {ms : List PlacedModule}
  {C : Nat → Prop} {f : PmmState} {t : EntryState} {name : List UInt8} {a : Nat}

/-- Bytes that spell a string out, and zeros as far as the word goes. -/
theorem load_firstWord {mem : Memory} (h : mem.Spells a name)
    (hzero : ∀ i, name.length ≤ i → i < 8 → mem (a + i) = 0) : mem.load a 8 = firstWord name := by
  have hshift : ∀ (n a b : Nat) (m m' : Memory), (∀ i < n, m (a + i) = m' (b + i)) →
      m.load a n = m'.load b n := by
    intro n
    induction n with
    | zero => intros; rw [load_zero, load_zero]
    | succ n ih =>
      intro a b m m' hm
      rw [load_succ, load_succ, ih (a + 1) (b + 1) m m' fun i hi ↦ by
        rw [Nat.add_assoc, Nat.add_assoc, Nat.add_comm 1]
        exact hm (i + 1) (by omega)]
      rw [show m a = m' b from hm 0 (by omega)]
  refine hshift 8 a 0 _ _ fun i hi ↦ ?_
  rw [Nat.zero_add]
  rcases Nat.lt_or_ge i name.length with hlt | hge
  · rw [h i hlt, List.getD_eq_getElem _ _ hlt]
  · rw [hzero i hge hi, List.getD_eq_default _ _ hge]

theorem firstWord_lt (hname : name.length < 8) : firstWord name < 2 ^ 56 := by
  have h7 : Memory.load (fun i ↦ name.getD i 0) 0 7 < 256 ^ 7 := load_lt _ _ _
  have hsplit : ∀ (n a : Nat) (m : Memory), m (a + n) = 0 → m.load a (n + 1) = m.load a n := by
    intro n
    induction n with
    | zero =>
      intro a m hm
      rw [load_succ, load_zero, load_zero, show m a = 0 from hm]
      rfl
    | succ n ih =>
      intro a m hm
      rw [load_succ, ih (a + 1) m (by rw [← hm]; congr 1; omega), ← load_succ]
  rw [firstWord, hsplit 7 0 _ (List.getD_eq_default _ _ (by omega))]
  exact h7.trans_le (by norm_num)

/-- Where the pointer leads. -/
theorem sub64_misleadingOffset (name : List UInt8) (ha : a < 2 ^ 56) :
    misleadingOffset name a < 2 ^ 64 ∧
      2 ^ 56 ≤ sub64 (firstWord name) (misleadingOffset name a) := by
  have hlt : firstWord name < 2 ^ 64 := load_lt _ _ _
  rw [misleadingOffset]
  split
  · unfold sub64 add64
    omega
  · have : firstWord name < 2 ^ 56 := firstWord_lt (by omega)
    unfold sub64
    omega

namespace EntryRun

/-- No store goes past the end of physical memory. -/
theorem patch_of_le (h : EntryRun arch offset fbs ms C f t) (hC : ∀ a, C a → a < 2 ^ 56)
    (hfit : EntryFits arch fbs ms) {x : Nat} (hx : 2 ^ 56 ≤ x) (mem : Memory) :
    mem.patch t.stores x = mem x := by
  have hblock := h.block_le hC hfit
  refine patch_of_not_mem (fun q hq hqx ↦ ?_) mem
  rcases h.store_inside hfit hq with ⟨h1, h2⟩ | ⟨c, hc, rfl⟩
  · omega
  · obtain ⟨hheld, h1, h2⟩ := h.copy_inside hfit hc
    have htyped := h.inv.typed c.2 hheld x ⟨by omega, by omega⟩
    have := hC x ((h.inv.covers x).mp (by rw [htyped]; simp))
    omega

/-- What is where an array has the pointer to the second module's name. -/
theorem load_second (h : EntryRun arch offset fbs ms C f t) (hfit : EntryFits arch fbs ms)
    (htwo : 1 < ms.length)
    (hoffset : offset = misleadingOffset ms[0].name
      (t.moduleAt arch fbs.length ms 1 + sizeofBootinfoModule))
    (hlow : t.moduleAt arch fbs.length ms 1 + sizeofBootinfoModule < 2 ^ 56) (mem : Memory) :
    (mem.patch t.stores).load (t.modulesAt arch fbs.length + sizeofBootinfoModule) 8 =
      firstWord ms[0].name := by
  have hfirst : ∀ p ∈ (ms[0]).recordStores offset (t.moduleAt arch fbs.length ms 0),
      (mem.patch t.stores).Spells p.address p.bytes :=
    fun p hp ↦ h.spells_module hfit (by omega) hp mem
  have hsecond : ∀ p ∈ (ms[1]).recordStores offset (t.moduleAt arch fbs.length ms 1),
      (mem.patch t.stores).Spells p.address p.bytes :=
    fun p hp ↦ h.spells_module hfit htwo hp mem
  simp only [PlacedModule.recordStores, List.mem_cons, List.not_mem_nil, or_false,
    forall_eq_or_imp, forall_eq] at hfirst hsecond
  have hname := spells_append.mp hfirst.2.1
  have hptr := hsecond.1
  have hplace : t.moduleAt arch fbs.length ms 1 =
      t.modulesAt arch fbs.length + sizeofBootinfoModule + (ms[0].name.length + 1) := by
    rw [EntryState.moduleAt, place_succ (by omega), place_zero, PlacedModule.length]
    omega
  refine load_firstWord hname.1 fun i hi hi8 ↦ ?_
  have hshort : ¬ 8 ≤ ms[0].name.length := by omega
  rw [misleadingOffset, if_neg hshort] at hoffset
  rcases Nat.eq_or_lt_of_le hi with rfl | hlt
  · exact hname.2 0 Nat.zero_lt_one
  · -- the lower bytes of the pointer to the second module's name
    have hbyte := hptr (i - (ms[0].name.length + 1)) (by rw [littleEndian_length]; omega)
    have hvalue : add64 (t.moduleAt arch fbs.length ms 1 + sizeofBootinfoModule) offset =
        2 ^ 57 := by
      rw [hoffset, add64]
      omega
    rw [hplace, show t.modulesAt arch fbs.length + sizeofBootinfoModule + (ms[0].name.length + 1) +
      (i - (ms[0].name.length + 1)) = t.modulesAt arch fbs.length + sizeofBootinfoModule + i by
        omega] at hbyte
    show (mem.patch t.stores) (t.modulesAt arch fbs.length + sizeofBootinfoModule + i) = 0
    rw [hbyte]
    simp only [littleEndian, List.getElem_map, List.getElem_range]
    rw [hplace] at hvalue
    rw [hvalue]
    have hdigit : i - (ms[0].name.length + 1) < 7 := by omega
    generalize i - (ms[0].name.length + 1) = k at hdigit
    interval_cases k <;> rfl

/-- With two modules there is a place of the direct map in which the array is not found. -/
theorem array_fails (h : EntryRun arch offset fbs ms C f t) (hC : ∀ a, C a → a < 2 ^ 56)
    (hfit : EntryFits arch fbs ms) (htwo : 1 < ms.length)
    (hoffset : offset = misleadingOffset ms[0].name
      (t.moduleAt arch fbs.length ms 1 + sizeofBootinfoModule)) :
    ¬ ∀ mem : Memory, ReadsArray offset (mem.patch t.stores) t.block
      (ms.map PlacedModule.toBootModule) := by
  intro harray
  have hblock := h.block_le hC hfit
  have hsecond := (h.module_inside hfit htwo).2
  rw [PlacedModule.length] at hsecond
  have hlow : t.moduleAt arch fbs.length ms 1 + sizeofBootinfoModule < 2 ^ 56 := by omega
  obtain ⟨ho, hfar⟩ := sub64_misleadingOffset ms[0].name hlow
  rw [← hoffset] at ho hfar
  have hmodules : t.modulesAt arch fbs.length < 2 ^ 64 := by
    have := (h.module_inside hfit htwo).1
    omega
  -- the name would have to be behind the end of memory, whatever is there
  have hpos : 0 < (ms[1].name ++ [0]).length := by
    rw [List.length_append]
    exact Nat.succ_pos _
  have hread : ∀ mem : Memory,
      mem (sub64 (firstWord ms[0].name) offset) = (ms[1].name ++ [0])[0] := by
    intro mem
    have hname := ((harray mem).2 1 (by rwa [List.length_map])).name
    rw [h.loadField_modules hfit, sub64_add64 hmodules ho, Nat.mul_one,
      h.load_second hfit htwo hoffset hlow, List.getElem_map] at hname
    have hbyte := hname 0 hpos
    rwa [Nat.add_zero, h.patch_of_le hC hfit hfar] at hbyte
  have h0 := hread fun _ ↦ 0
  have h1 := hread fun _ ↦ 1
  exact absurd (h0.trans h1.symm) (by decide)

/-- A single module is found. -/
theorem array_holds (h : EntryRun arch offset fbs ms C f t) (hC : ∀ a, C a → a < 2 ^ 56)
    (hfit : EntryFits arch fbs ms) (ho : offset < 2 ^ 64) (hone : ms.length ≤ 1) (mem : Memory) :
    ReadsArray offset (mem.patch t.stores) t.block (ms.map PlacedModule.toBootModule) := by
  have hholds := h.holds hC hfit ho
  refine ⟨hholds.moduleCount mem, fun i hi ↦ ?_⟩
  have hmodule := hholds.modules mem i hi
  obtain rfl : i = 0 := by
    rw [List.length_map] at hi
    omega
  exact hmodule

end EntryRun

/-! ### Another place of the direct map -/

theorem limineModules_frames {o o' : Nat} {files : List LimineFile} : ∀ {s s' : EntryState},
    s.frames = s'.frames → files.foldlM (limineModule o) s = .ok t →
      ∃ t', files.foldlM (limineModule o') s' = .ok t' := by
  induction files with
  | nil => exact fun _ _ ↦ ⟨_, rfl⟩
  | cons file files ih =>
    intro s s' hs ht
    rw [List.foldlM_cons] at ht
    obtain ⟨s₁, hs₁, ht⟩ := bind_eq_ok ht
    obtain ⟨n, hn, hs₁⟩ := bind_eq_ok hs₁
    obtain ⟨r, hr, rfl⟩ := map_eq_ok hs₁
    have hr' : pmmAlloc s'.frames.map
        (mathAlignUp file.data.length ptmPageGranularity / ptmPageGranularity) = .ok r := by
      rw [← hs]
      exact hr
    have hstep : ∃ s₁', limineModule o' s' file = .ok s₁' ∧
        s₁'.frames = s'.frames.hand
          (mathAlignUp file.data.length ptmPageGranularity / ptmPageGranularity) .allocated r := by
      rw [limineModule, hn]
      show ∃ s₁', Except.map _ (pmmAlloc s'.frames.map _) = .ok s₁' ∧ _
      rw [hr']
      exact ⟨_, rfl, rfl⟩
    obtain ⟨s₁', hs₁', hframes⟩ := hstep
    rw [List.foldlM_cons, hs₁']
    refine ih ?_ ht
    rw [hframes, ← hs]
    rfl

theorem limineFields_frames (r : LimineResponse) (s : EntryState) :
    (limineFramebuffers r (limineFields arch r s)).frames = s.frames := by
  obtain ⟨sets, hsets, -⟩ := limineFields_sets arch r s
  obtain ⟨pointer, hfb, -⟩ := limineFramebuffers_eq r (limineFields arch r s)
  rw [hfb, hsets, EntryState.withFramebuffers, EntryState.foldl_framebuffer]
  rfl

/-- Whether a run returns does not depend on where the direct map is. -/
theorem limine_anywhere {r : LimineResponse} (ht : prekernelEntryLimine arch r f = .ok t) (o : Nat) :
    ∃ t', prekernelEntryLimine arch { r with hhdmOffset := o } f = .ok t' := by
  obtain ⟨size, hsize, ht⟩ := bind_eq_ok ht
  obtain ⟨s, hs, ht⟩ := bind_eq_ok ht
  have hsize' : limineBlockSize arch { r with hhdmOffset := o } = .ok size := hsize
  rw [prekernelEntryLimine, hsize']
  show ∃ t', Except.bind (EntryState.allocBlock f arch size) _ = .ok t'
  rw [hs]
  refine limineModules_frames ?_ ht
  show (limineFramebuffers r (limineFields arch r s)).frames =
    (limineFramebuffers { r with hhdmOffset := o } (limineFields arch _ s)).frames
  rw [limineFields_frames, limineFields_frames]

theorem tartarus_anywhere {r : TartarusBootInfo} (ht : prekernelEntryTartarus arch r f = .ok t)
    (o : Nat) : ∃ t', prekernelEntryTartarus arch { r with hhdmOffset := o } f = .ok t' := by
  have hloop : ∀ {files : List TartarusModule} {o o' : Nat} {s s' t : EntryState},
      files.foldlM (tartarusModule o) s = .ok t →
        ∃ t', files.foldlM (tartarusModule o') s' = .ok t' := by
    intro files
    induction files with
    | nil => exact fun _ ↦ ⟨_, rfl⟩
    | cons file files ih =>
      intro o o' s s' t ht
      rw [List.foldlM_cons] at ht ⊢
      obtain ⟨s₁, hs₁, ht⟩ := bind_eq_ok ht
      obtain ⟨n, hn, rfl⟩ := map_eq_ok hs₁
      rw [tartarusModule, hn]
      exact ih ht
  obtain ⟨size, hsize, ht⟩ := bind_eq_ok ht
  obtain ⟨s, hs, ht⟩ := bind_eq_ok ht
  have hsize' : tartarusBlockSize arch { r with hhdmOffset := o } = .ok size := hsize
  rw [prekernelEntryTartarus, hsize']
  show ∃ t', Except.bind (EntryState.allocBlock f arch size) _ = .ok t'
  rw [hs]
  exact hloop ht

/-- The second module's name is in the same place in all runs. -/
theorem EntryRun.second_eq {o o' : Nat} {gs : List BootinfoFramebuffer} {ns : List PlacedModule}
    {u : EntryState} (h : EntryRun arch o fbs ms C f t) (h' : EntryRun arch o' gs ns C f u)
    (hlen : fbs.length = gs.length) (hnames : ms.map PlacedModule.name = ns.map PlacedModule.name) :
    t.moduleAt arch fbs.length ms 1 = u.moduleAt arch gs.length ns 1 := by
  have htotal : ∀ ms : List PlacedModule, total PlacedModule.length ms =
      total (fun name : List UInt8 ↦ sizeofBootinfoModule + (name.length + 1))
        (ms.map PlacedModule.name) := fun ms ↦ by
    rw [total, total, List.map_map]
    rfl
  have hsize : t.blockSize = u.blockSize := by
    rw [h.size, h'.size, hlen, htotal, htotal, hnames]
  obtain ⟨m, hm⟩ := h.alloc
  obtain ⟨m', hm'⟩ := h'.alloc
  rw [hsize, hm'] at hm
  have hblock : t.block = u.block := (Prod.mk.inj (Except.ok.inj hm)).1.symm
  rw [EntryState.moduleAt, EntryState.moduleAt, place, place, htotal, htotal, List.map_take,
    List.map_take, hnames, EntryState.modulesAt, EntryState.modulesAt, EntryState.framebuffersAt,
    EntryState.framebuffersAt, hblock, hlen]

theorem head_name {ms ns : List PlacedModule} (hnames : ms.map PlacedModule.name =
    ns.map PlacedModule.name) (hm : 0 < ms.length) (hn : 0 < ns.length) :
    ms[0].name = ns[0].name := by
  have h0 := List.getElem_of_eq hnames (i := 0) (by rwa [List.length_map])
  rwa [List.getElem_map, List.getElem_map] at h0

/-- With two modules, in some place of the direct map no run has the array. -/
theorem EntryRun.exists_misleading (h : EntryRun arch offset fbs ms C f t)
    (hC : ∀ a, C a → a < 2 ^ 56) (hfit : EntryFits arch fbs ms) (htwo : 1 < ms.length) :
    ∃ o < 2 ^ 64, ∀ {gs : List BootinfoFramebuffer} {ns : List PlacedModule} {u : EntryState},
      EntryRun arch o gs ns C f u → EntryFits arch gs ns → fbs.length = gs.length →
      ms.map PlacedModule.name = ns.map PlacedModule.name →
      ¬ ∀ mem : Memory, ReadsArray o (mem.patch u.stores) u.block
        (ns.map PlacedModule.toBootModule) := by
  have hblock := h.block_le hC hfit
  have hsecond := (h.module_inside hfit htwo).2
  rw [PlacedModule.length] at hsecond
  refine ⟨misleadingOffset ms[0].name (t.moduleAt arch fbs.length ms 1 + sizeofBootinfoModule),
    (sub64_misleadingOffset _ (by omega)).1, fun h' hfit' hlen hnames ↦ ?_⟩
  have hcount := congrArg List.length hnames
  rw [List.length_map, List.length_map] at hcount
  refine h'.array_fails hC hfit' (by omega) ?_
  rw [head_name hnames (by omega) (by omega), h.second_eq h' hlen hnames]

theorem LimineFits.anywhere {r : LimineResponse} (h : LimineFits arch r) {o : Nat}
    (ho : o < 2 ^ 64) : LimineFits arch { r with hhdmOffset := o } := ⟨ho, h.block, h.data⟩

theorem TartarusFits.anywhere {r : TartarusBootInfo} (h : TartarusFits arch r) {o : Nat}
    (ho : o < 2 ^ 64) : TartarusFits arch { r with hhdmOffset := o } := ⟨ho, h.block⟩

/-- **Modules are an array for one module only.**  Wherever the direct map is, the kernel finds the
modules of either bootloader as the array `bootinfo.h` declares, if and only if there is at most one;
the name behind the first record is in the place of the second one. -/
theorem module_array (h : f.Inv C) (hC : ∀ a, C a → a < 2 ^ 56) :
    (∀ r : LimineResponse, LimineFits arch r → prekernelEntryLimine arch r f = .ok t →
      ((∀ o < 2 ^ 64, ∀ u, prekernelEntryLimine arch { r with hhdmOffset := o } f = .ok u →
          ∀ mem : Memory, ReadsArray o (mem.patch u.stores) u.block (limineMods r u)) ↔
        r.modules.length ≤ 1)) ∧
    ∀ r : TartarusBootInfo, TartarusFits arch r → prekernelEntryTartarus arch r f = .ok t →
      ((∀ o < 2 ^ 64, ∀ u, prekernelEntryTartarus arch { r with hhdmOffset := o } f = .ok u →
          ∀ mem : Memory, ReadsArray o (mem.patch u.stores) u.block (tartarusMods r)) ↔
        r.modules.length ≤ 1) := by
  constructor
  · intro r hfit ht
    have hcount : ∀ {places : List Nat}, places.length = r.modules.length →
        (List.zipWith LimineFile.placed r.modules places).length = r.modules.length := fun hlen ↦ by
      rw [List.length_zipWith, hlen, min_self]
    constructor
    · intro harray
      by_contra htwo
      obtain ⟨places, hlen, hrun⟩ := limine_run h hC ht
      obtain ⟨o, ho, hnot⟩ := hrun.exists_misleading hC (hfit.entryFits hlen)
        (by rw [hcount hlen]; omega)
      obtain ⟨u, hu⟩ := limine_anywhere ht o
      obtain ⟨places', hlen', hrun'⟩ := limine_run h hC hu
      refine hnot hrun' ((hfit.anywhere ho).entryFits hlen')
        (by rw [List.length_map, List.length_map])
        ((zipWith_placed_name hlen).trans (zipWith_placed_name hlen').symm) fun mem ↦ ?_
      have hread := harray o ho u hu mem
      rwa [limineMods, hrun'.copies, (zipWith_placed_copies hlen').2] at hread
    · intro hone o ho u hu mem
      obtain ⟨places, hlen, hrun⟩ := limine_run h hC hu
      have hread := hrun.array_holds hC ((hfit.anywhere ho).entryFits hlen) ho
        ((hcount hlen).trans_le hone) mem
      rwa [limineMods, hrun.copies, (zipWith_placed_copies hlen).2]
  · intro r hfit ht
    have hcount : (r.modules.map TartarusModule.placed).length = r.modules.length :=
      List.length_map _
    have hmods : (r.modules.map TartarusModule.placed).map PlacedModule.toBootModule =
        tartarusMods r := List.map_map
    constructor
    · intro harray
      by_contra htwo
      obtain ⟨o, ho, hnot⟩ := (tartarus_run h hC ht).exists_misleading hC hfit.entryFits
        (by rw [hcount]; omega)
      obtain ⟨u, hu⟩ := tartarus_anywhere ht o
      refine hnot (tartarus_run h hC hu) (hfit.anywhere ho).entryFits rfl rfl fun mem ↦ ?_
      rw [hmods]
      exact harray o ho u hu mem
    · intro hone o ho u hu mem
      have hread := (tartarus_run h hC hu).array_holds hC (hfit.anywhere ho).entryFits ho
        (hcount.trans_le hone) mem
      rwa [hmods] at hread

end Array

/-- Two modules, loaded by either bootloader: in some place of the direct map they are not found. -/
theorem module_array_two : ∃ m t u, addAll .empty oneRange = .ok m ∧
    prekernelEntryLimine .riscv64 sampleLimine ⟨m, []⟩ = .ok t ∧
    prekernelEntryTartarus .riscv64 sampleTartarus ⟨m, []⟩ = .ok u ∧
    (¬ ∀ o < 2 ^ 64, ∀ u,
      prekernelEntryLimine .riscv64 { sampleLimine with hhdmOffset := o } ⟨m, []⟩ = .ok u →
        ∀ mem : Memory, ReadsArray o (mem.patch u.stores) u.block (limineMods sampleLimine u)) ∧
    ¬ ∀ o < 2 ^ 64, ∀ u,
      prekernelEntryTartarus .riscv64 { sampleTartarus with hhdmOffset := o } ⟨m, []⟩ = .ok u →
        ∀ mem : Memory, ReadsArray o (mem.patch u.stores) u.block (tartarusMods sampleTartarus) := by
  obtain ⟨m, t, u, hm, ht, hu⟩ := sample_runs
  obtain ⟨hinv, hC⟩ := oneRange_inv hm
  refine ⟨m, t, u, hm, ht, hu, fun hall ↦ ?_, fun hall ↦ ?_⟩
  · exact absurd (((module_array hinv hC).1 sampleLimine sampleLimine_fits ht).mp hall) (by decide)
  · exact absurd (((module_array hinv hC).2 sampleTartarus sampleTartarus_fits hu).mp hall)
      (by decide)

end LunarPrekernel
