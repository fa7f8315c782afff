import LunarPrekernel.Ptm.Alongside

/-!
# Loading the kernel

`loader/elfldr.c` takes the kernel out of the ELF image that is linked into the pre-kernel.  Each
`PT_LOAD` header is a segment: it is rounded outward to whole pages, gets a block of its own, is
mapped page by page, and then its bytes are cleared and copied through the direct map.

The image is read-only memory of its own, with the addresses from `_binary_kernel_elf_start` on.
What goes into `loader_info->segments` is kept as a list: its block is an allocation like any other,
and has room for one record for each `PT_LOAD` header.
-/

set_option autoImplicit false

namespace LunarPrekernel

open PmmMap

/-! ## The headers -/

/-- `elf64_elf_header_t`, without the fields nothing looks at. -/
structure ElfHeader where
  ident : List UInt8
  type : Nat
  machine : Nat
  entry : Nat
  phoff : Nat
  shoff : Nat
  phnum : Nat
  shnum : Nat
  shstrndx : Nat

/-- `elf64_program_header_t`, without the fields nothing looks at. -/
structure ElfProgramHeader where
  type : Nat
  flags : Nat
  offset : Nat
  vaddr : Nat
  filesz : Nat
  memsz : Nat
deriving DecidableEq, Repr

/-- The header at the beginning of the image. -/
def elfHeader (image : Memory) : ElfHeader where
  ident := (List.range 16).map image
  type := image.load 16 2
  machine := image.load 18 2
  entry := image.load 24 8
  phoff := image.load 32 8
  shoff := image.load 40 8
  phnum := image.load 56 2
  shnum := image.load 60 2
  shstrndx := image.load 62 2

/-- `sizeof(elf64_program_header_t)`. -/
def sizeofElfProgramHeader : Nat := 56

/-- The program header at `a`. -/
def elfProgramHeader (image : Memory) (a : Nat) : ElfProgramHeader where
  type := image.load a 4
  flags := image.load (a + 4) 4
  offset := image.load (a + 8) 8
  vaddr := image.load (a + 16) 8
  filesz := image.load (a + 32) 8
  memsz := image.load (a + 40) 8

/-- `phdrs[0 .. e_phnum)`. -/
def elfProgramHeaders (image : Memory) : List ElfProgramHeader :=
  (List.range (elfHeader image).phnum).map fun i ↦
    elfProgramHeader image ((elfHeader image).phoff + sizeofElfProgramHeader * i)

/-- `elf_supported`; `machine` is `EMACHINE_EXPECTED`. -/
def elfSupported (machine : Nat) (image : Memory) : Bool :=
  let header := elfHeader image
  header.ident.take 4 == [0x7f, 0x45, 0x4c, 0x46] && header.ident[4]? == some 2 &&
    header.ident[5]? == some 1 && header.machine == machine &&
      (header.type == 2 || header.type == 3)

/-- `PTYPE_LOAD`. -/
def ElfProgramHeader.isLoad (phdr : ElfProgramHeader) : Bool := phdr.type == 1

/-! ## One segment -/

/-- `bootinfo_segment_t`. -/
structure BootinfoSegment where
  vaddr : Nat
  paddr : Nat
  size : Nat
  flags : Nat
deriving DecidableEq, Repr

/-- `elfldr_loader_info_t`, as far as the segments are concerned. -/
structure LoaderInfo where
  kernelBase : Nat
  segments : List BootinfoSegment

namespace ElfProgramHeader

variable (phdr : ElfProgramHeader)

/-- `BOOTINFO_SEGMENT_FLAG_*` for `PFLAGS_*`. -/
def segmentFlags : Nat :=
  (if phdr.flags.testBit 2 then 1 <<< 0 else 0) ||| (if phdr.flags.testBit 1 then 1 <<< 1 else 0) |||
    (if phdr.flags.testBit 0 then 1 <<< 2 else 0)

/-- `PTM_FLAG_*` for `PFLAGS_*`. -/
def ptmFlags : Nat :=
  (if phdr.flags.testBit 2 then 1 <<< 2 else 0) ||| (if phdr.flags.testBit 1 then 1 <<< 1 else 0) |||
    (if phdr.flags.testBit 0 then 1 <<< 0 else 0)

/-- `start_vaddr`. -/
def startVaddr : Nat := mathFloor phdr.vaddr ptmPageGranularity

/-- `end_vaddr`. -/
def endVaddr : Nat := mathAlignUp (add64 phdr.vaddr phdr.memsz) ptmPageGranularity

/-- The bytes of `end_vaddr - start_vaddr`. -/
def blockSize : Nat := sub64 phdr.endVaddr phdr.startVaddr

end ElfProgramHeader

section Code

variable (ptmMap : Machine PmmState → MapCall → Except Stop (Machine PmmState))

/-- The loop of `internal_elf_handle_pt_load` that maps the pages from `j` on. -/
def elfMapPages (phdr : ElfProgramHeader) (paddr : Nat) :
    Nat → Nat → Machine PmmState → Except Stop (Machine PmmState)
  | 0, _, _ => .error .fuel
  | fuel + 1, j, s =>
    if j < phdr.endVaddr then
      (ptmMap s ⟨j, add64 paddr (sub64 j phdr.startVaddr), ptmPageGranularity, phdr.ptmFlags⟩).bind
        fun s ↦ elfMapPages phdr paddr fuel (add64 j ptmPageGranularity) s
    else .ok s

/-- The `memset` and the `memcpy` of `internal_elf_handle_pt_load`. -/
def elfCopy (image : Memory) (phdr : ElfProgramHeader) (paddr : Nat) (mem : Memory) : Memory :=
  let dest := paddr + (phdr.vaddr - phdr.startVaddr)
  fun x ↦ if dest ≤ x ∧ x < dest + phdr.filesz then image (phdr.offset + (x - dest))
    else mem.fill paddr phdr.blockSize 0 x

/-- `internal_elf_handle_pt_load`. -/
def elfHandlePtLoad (image : Memory) (phdr : ElfProgramHeader)
    (x : LoaderInfo × Machine PmmState) : Except Stop (LoaderInfo × Machine PmmState) :=
  let n := phdr.blockSize / ptmPageGranularity
  (pmmAllocExt x.2.frames.map n ptmPageGranularity .allocated).bind fun r ↦
    (elfMapPages ptmMap phdr r.1 (n + 2) phdr.startVaddr
        ⟨x.2.mem, x.2.frames.hand n .allocated r⟩).map fun s ↦
      (⟨if phdr.vaddr < x.1.kernelBase then phdr.vaddr else x.1.kernelBase,
          x.1.segments ++
            [⟨phdr.vaddr, r.1 + (phdr.vaddr - phdr.startVaddr), phdr.memsz, phdr.segmentFlags⟩]⟩,
        ⟨elfCopy image phdr r.1 s.mem, s.frames⟩)

/-- The loop of `internal_elf_load_image` over the program headers. -/
def elfLoadSegments (image : Memory) (phdrs : List ElfProgramHeader)
    (x : LoaderInfo × Machine PmmState) : Except Stop (LoaderInfo × Machine PmmState) :=
  phdrs.foldlM (fun x phdr ↦
    if phdr.isLoad then elfHandlePtLoad ptmMap image phdr x else .ok x) x

/-- `sizeof(bootinfo_segment_t)`. -/
def sizeofBootinfoSegment : Nat := 25

/-- `internal_elf_load_image`, up to the end of its loop over the program headers, called as
`elfldr_load_kernel` does: `kernel_base` is `UINTPTR_MAX`. -/
def elfLoadImage (image : Memory) (s : Machine PmmState) :
    Except Stop (LoaderInfo × Machine PmmState) :=
  let phdrs := elfProgramHeaders image
  let n := mathAlignUp (mul64 (phdrs.countP ElfProgramHeader.isLoad) sizeofBootinfoSegment)
    ptmPageGranularity / ptmPageGranularity
  (pmmAlloc s.frames.map n).bind fun r ↦
    elfLoadSegments ptmMap image phdrs
      (⟨2 ^ 64 - 1, []⟩, ⟨s.mem, s.frames.hand n .allocated r⟩)

end Code

/-! ## The pages of a segment -/

/-- The addresses of the pages that a segment is mapped at. -/
def ElfProgramHeader.Holds (phdr : ElfProgramHeader) (a : Nat) : Prop :=
  phdr.startVaddr ≤ a ∧ a < phdr.endVaddr

theorem elfProgramHeader_vaddr_lt (image : Memory) {phdr : ElfProgramHeader}
    (h : phdr ∈ elfProgramHeaders image) : phdr.vaddr < 2 ^ 64 := by
  obtain ⟨i, -, rfl⟩ := List.mem_map.mp h
  exact Memory.load_lt image _ 8

theorem ElfProgramHeader.startVaddr_eq {phdr : ElfProgramHeader} (h : phdr.vaddr < 2 ^ 64) :
    phdr.startVaddr = phdr.vaddr / 4096 * 4096 := by
  rw [startVaddr, mathFloor, show ptmPageGranularity = 4096 from rfl, mul64_eq (by omega)]

/-! ## The records, whatever the machine does -/

section Records

variable {ptmMap : Machine PmmState → MapCall → Except Stop (Machine PmmState)} {image : Memory}
  {phdrs : List ElfProgramHeader} {x y : LoaderInfo × Machine PmmState}

/-- `kernel_base` after these headers. -/
def kernelBase (base : Nat) (phdrs : List ElfProgramHeader) : Nat :=
  (phdrs.filter ElfProgramHeader.isLoad).foldl
    (fun base phdr ↦ if phdr.vaddr < base then phdr.vaddr else base) base

theorem elfLoadSegments_cons_load {phdr : ElfProgramHeader} (hload : phdr.isLoad = true) :
    elfLoadSegments ptmMap image (phdr :: phdrs) x =
      (elfHandlePtLoad ptmMap image phdr x).bind (elfLoadSegments ptmMap image phdrs) := by
  rw [elfLoadSegments, List.foldlM_cons, if_pos hload]
  rfl

theorem elfLoadSegments_cons_skip {phdr : ElfProgramHeader} (hload : ¬ phdr.isLoad = true) :
    elfLoadSegments ptmMap image (phdr :: phdrs) x = elfLoadSegments ptmMap image phdrs x := by
  rw [elfLoadSegments, List.foldlM_cons, if_neg hload]
  rfl

/-- It is not above any segment, and it is the beginning of one, if there are any. -/
theorem kernelBase_spec (base : Nat) (phdrs : List ElfProgramHeader) :
    (∀ phdr ∈ phdrs, phdr.isLoad = true → kernelBase base phdrs ≤ phdr.vaddr) ∧
      kernelBase base phdrs ≤ base ∧
      (kernelBase base phdrs = base ∨
        ∃ phdr ∈ phdrs, phdr.isLoad = true ∧ kernelBase base phdrs = phdr.vaddr) := by
  induction phdrs generalizing base with
  | nil => simp [kernelBase]
  | cons phdr phdrs ih =>
    by_cases hload : phdr.isLoad = true
    · have hcons : kernelBase base (phdr :: phdrs) =
          kernelBase (if phdr.vaddr < base then phdr.vaddr else base) phdrs := by
        rw [kernelBase, kernelBase, List.filter_cons_of_pos hload, List.foldl_cons]
      obtain ⟨h1, h2, h3⟩ := ih (if phdr.vaddr < base then phdr.vaddr else base)
      rw [hcons]
      refine ⟨List.forall_mem_cons.mpr ⟨fun _ ↦ ?_, h1⟩, ?_, ?_⟩
      · refine h2.trans ?_
        split <;> omega
      · refine h2.trans ?_
        split <;> omega
      · rcases h3 with h3 | ⟨d, hd, hd'⟩
        · by_cases hlt : phdr.vaddr < base
          · rw [if_pos hlt] at h3 ⊢
            exact Or.inr ⟨phdr, List.mem_cons_self, hload, h3⟩
          · rw [if_neg hlt] at h3 ⊢
            exact Or.inl h3
        · exact Or.inr ⟨d, List.mem_cons_of_mem _ hd, hd'⟩
    · have hcons : kernelBase base (phdr :: phdrs) = kernelBase base phdrs := by
        rw [kernelBase, kernelBase, List.filter_cons_of_neg hload]
      obtain ⟨h1, h2, h3⟩ := ih base
      rw [hcons]
      refine ⟨List.forall_mem_cons.mpr ⟨fun hl ↦ absurd hl hload, h1⟩, h2, h3.imp_right ?_⟩
      rintro ⟨d, hd, hd'⟩
      exact ⟨d, List.mem_cons_of_mem _ hd, hd'⟩

end Records

end LunarPrekernel
