import LunarPrekernel.Boot.Cpus
import LunarPrekernel.Library.Layout
import LunarPrekernel.Runtime.Mem
import Mathlib.Data.List.TakeWhile

/-!
# The two entry points, up to `prekernel_init`

`prekernel_entry_limine` and `prekernel_entry_tartarus` put what the bootloader tells about the
machine into one block of memory: a `bootinfo_t`, a record for each framebuffer, and then, module
after module, a record and the module's name.  A first pass adds the sizes up, and the block is
allocated; a second pass fills it in behind a pointer that moves along.  Limine's modules are copied
to pages of their own on the way, those of Tartarus stay where they are.

The stores are written down in program order, and so are the objects the code sees in the block, each
with its place and its size.  Addresses are physical, as in `Boot.Cpus`, and pointers that are stored
have `hhdm_offset` added.
-/

set_option autoImplicit false

namespace LunarPrekernel

open SpanMap Span PmmMap Memory

/-! ## The protocol -/

/-- What the pre-kernel is built for. -/
inductive BootArch where
  | x86_64
  | riscv64
deriving DecidableEq, Repr

/-- The fields of `bootinfo_t`, in their order; the last four are there on riscv64 only. -/
inductive BootinfoField where
  | bootTimestamp
  | coreCount
  | rdspPhysical
  | hhdmOffset
  | hhdmSize
  | pfndbStart
  | pfndbSize
  | cpulocalStart
  | cpulocalSize
  | mmEntryCount
  | mmEntries
  | kernelSegmentCount
  | kernelSegments
  | framebufferCount
  | framebuffers
  | moduleCount
  | modules
  | riscvBaseIsaString
  | riscvExtensionCount
  | riscvExtentions
  | dtbPhysical
deriving DecidableEq, Repr

/-- The record is packed, and all its fields are words. -/
def BootinfoField.offset (field : BootinfoField) : Nat := 8 * field.ctorIdx

/-- `sizeof(bootinfo_t)`. -/
def sizeofBootinfo : BootArch → Nat
  | .x86_64 => 136
  | .riscv64 => 168

/-- `bootinfo_framebuffer_t`. -/
structure BootinfoFramebuffer where
  vaddr : Nat
  paddr : Nat
  size : Nat
  width : Nat
  height : Nat
  pitch : Nat
  bpp : Nat
  redPosition : Nat
  redSize : Nat
  greenPosition : Nat
  greenSize : Nat
  bluePosition : Nat
  blueSize : Nat
deriving DecidableEq, Repr

/-- `sizeof(bootinfo_framebuffer_t)`. -/
def sizeofBootinfoFramebuffer : Nat := 46

/-- The fields of the record: their offsets, their sizes in bytes, and their values. -/
def BootinfoFramebuffer.fields (fb : BootinfoFramebuffer) : List (Nat × Nat × Nat) :=
  [(0, 8, fb.vaddr), (8, 8, fb.paddr), (16, 8, fb.size), (24, 4, fb.width), (28, 4, fb.height),
    (32, 4, fb.pitch), (36, 4, fb.bpp), (40, 1, fb.redPosition), (41, 1, fb.redSize),
    (42, 1, fb.greenPosition), (43, 1, fb.greenSize), (44, 1, fb.bluePosition), (45, 1, fb.blueSize)]

/-- `sizeof(bootinfo_module_t)`: the pointer to the name, `phys_addr` and `size`. -/
def sizeofBootinfoModule : Nat := 24

/-- What is written into the fields of a record at `a`; a value that is too large loses its upper
bytes. -/
def fieldStores (a : Nat) (fields : List (Nat × Nat × Nat)) : List Patch :=
  fields.map fun x ↦ ⟨a + x.1, littleEndian x.2.1 x.2.2⟩

/-! ## What the bootloader says -/

/-- What is used of a `limine_framebuffer`. -/
structure LimineFramebuffer where
  address : Nat
  width : Nat
  height : Nat
  pitch : Nat
  bpp : Nat
  redMaskSize : Nat
  redMaskShift : Nat
  greenMaskSize : Nat
  greenMaskShift : Nat
  blueMaskSize : Nat
  blueMaskShift : Nat

/-- What is used of a `limine_file`: the bytes from `path` on, and those at `address`. -/
structure LimineFile where
  path : List UInt8
  data : List UInt8
  /-- `size` is 64 bits wide. -/
  data_lt : data.length < 2 ^ 64

/-- What is used of the responses of Limine. -/
structure LimineResponse where
  hhdmOffset : Nat
  cpuCount : Nat
  timestamp : Nat
  /-- `address`, if there is a response. -/
  rsdp : Option Nat
  /-- `dtb_ptr`, if there is a response. -/
  dtb : Option Nat
  framebuffers : Option (List LimineFramebuffer)
  modules : List LimineFile

/-- What is used of a `tartarus_module_t`; `name` is the bytes from there on. -/
structure TartarusModule where
  name : List UInt8
  paddr : Nat
  size : Nat

/-- What is used of a `tartarus_boot_info_t`.  The fields of a framebuffer have the names of those
they are copied to. -/
structure TartarusBootInfo where
  hhdmOffset : Nat
  cpuCount : Nat
  bootTimestamp : Nat
  acpiRsdpAddress : Nat
  framebuffers : List BootinfoFramebuffer
  modules : List TartarusModule

/-! ## The code -/

/-- What an object in the block is. -/
inductive BlockPart where
  | bootinfo
  | framebuffer
  | module
  | name
deriving DecidableEq, Repr

/-- The machine, the local variables, and what was done. -/
structure EntryState where
  frames : PmmState
  /-- `boot_info`. -/
  block : Nat
  /-- `boot_info_block_size`. -/
  blockSize : Nat
  /-- `boot_info_block_pointer`. -/
  pointer : Nat
  stores : List Patch
  objects : List (Span BlockPart)
  /-- The modules that were copied, each with the pages that were allocated for it. -/
  copies : List (Patch × Allocation)

/-- `strlen(str) + 1`, which is an addition of `int`s. -/
def nameSize (str : List UInt8) : Except Stop Nat :=
  (strlen str).bind fun n ↦ if n + 1 < 2 ^ 31 then .ok (n + 1) else .error .fault

/-- The sizes of the names, added to `boot_info_block_size`. -/
def addNames (names : List (List UInt8)) (size : Nat) : Except Stop Nat :=
  names.foldlM (fun size name ↦ (nameSize name).map fun n ↦ add64 size n) size

namespace EntryState

/-- A store of `n` bytes. -/
def store (s : EntryState) (a n v : Nat) : EntryState :=
  { s with stores := s.stores ++ [⟨a, littleEndian n v⟩] }

/-- A `memcpy` of these bytes. -/
def write (s : EntryState) (a : Nat) (bytes : List UInt8) : EntryState :=
  { s with stores := s.stores ++ [⟨a, bytes⟩] }

/-- A store into a field of `*boot_info`. -/
def set (s : EntryState) (field : BootinfoField) (v : Nat) : EntryState :=
  s.store (s.block + field.offset) 8 v

/-- `boot_info` is `pmm_alloc(boot_info_block_size / PTM_PAGE_GRANULARITY)`. -/
def allocBlock (f : PmmState) (arch : BootArch) (size : Nat) : Except Stop EntryState :=
  (pmmAlloc f.map (size / ptmPageGranularity)).map fun r ↦
    { frames := f.hand (size / ptmPageGranularity) .allocated r
      block := r.1
      blockSize := size
      pointer := r.1 + sizeofBootinfo arch
      stores := []
      objects := [⟨r.1, sizeofBootinfo arch, .bootinfo⟩]
      copies := [] }

/-- The record of a framebuffer. -/
def framebuffer (s : EntryState) (fb : BootinfoFramebuffer) : EntryState :=
  { s with
    stores := s.stores ++ fieldStores s.pointer fb.fields
    objects := s.objects ++ [⟨s.pointer, sizeofBootinfoFramebuffer, .framebuffer⟩]
    pointer := s.pointer + sizeofBootinfoFramebuffer }

/-- The name of a module, and the pointer to it; the record and the name are `n + 24` bytes. -/
def moduleName (s : EntryState) (hhdmOffset n : Nat) (name : List UInt8) : EntryState :=
  let module := s.pointer
  let s := s.store module 8 (add64 (module + sizeofBootinfoModule) hhdmOffset)
  let s := s.write (module + sizeofBootinfoModule) (name.take n)
  { s with
    objects := s.objects ++ [⟨module, sizeofBootinfoModule, .module⟩,
      ⟨module + sizeofBootinfoModule, n, .name⟩]
    pointer := module + (sizeofBootinfoModule + n) }

end EntryState

/-- What `prekernel_entry_limine` assigns to the fields of a framebuffer's record. -/
def LimineFramebuffer.fill (hhdmOffset : Nat) (fb : LimineFramebuffer) : BootinfoFramebuffer where
  vaddr := fb.address
  paddr := sub64 fb.address hhdmOffset
  size := mul64 (mul64 fb.width fb.height) (fb.bpp / 8)
  width := fb.width
  height := fb.height
  pitch := fb.pitch
  bpp := fb.bpp
  redPosition := fb.redMaskShift
  redSize := fb.redMaskSize
  greenPosition := fb.greenMaskShift
  greenSize := fb.greenMaskSize
  bluePosition := fb.blueMaskShift
  blueSize := fb.blueMaskSize

/-- The body of the loop over the modules in `prekernel_entry_limine`. -/
def limineModule (hhdmOffset : Nat) (s : EntryState) (file : LimineFile) : Except Stop EntryState :=
  (nameSize file.path).bind fun n ↦
    let module := s.pointer
    let s := s.moduleName hhdmOffset n file.path
    let pages := mathAlignUp file.data.length ptmPageGranularity / ptmPageGranularity
    (pmmAlloc s.frames.map pages).map fun r ↦
      let s := { s with frames := s.frames.hand pages .allocated r }
      let s := s.store (module + 8) 8 r.1
      let s := s.store (module + 16) 8 file.data.length
      { s.write r.1 file.data with
        copies := s.copies ++ [(⟨r.1, file.data⟩, ⟨r.1, pages, .allocated⟩)] }

/-- The first pass of `prekernel_entry_limine`. -/
def limineBlockSize (arch : BootArch) (r : LimineResponse) : Except Stop Nat :=
  let size := sizeofBootinfo arch
  let size :=
    match r.framebuffers with
    | some fbs => add64 size (mul64 sizeofBootinfoFramebuffer fbs.length)
    | none => size
  let size := add64 size (mul64 sizeofBootinfoModule r.modules.length)
  (addNames (r.modules.map LimineFile.path) size).map fun size ↦
    mathAlignUp size ptmPageGranularity

/-- The fields of `*boot_info` that `prekernel_entry_limine` sets before the framebuffers. -/
def limineFields (arch : BootArch) (r : LimineResponse) (s : EntryState) : EntryState :=
  let s := s.set .coreCount r.cpuCount
  let s := s.set .bootTimestamp r.timestamp
  let s :=
    match r.rsdp with
    | some address => if address = 0 then s else s.set .rdspPhysical (sub64 address r.hhdmOffset)
    | none => s
  let s := s.set .hhdmOffset r.hhdmOffset
  match arch with
  | .x86_64 => s
  | .riscv64 =>
    let s := s.set .dtbPhysical 0
    let s := s.set .riscvBaseIsaString 0
    let s := s.set .riscvExtensionCount 0
    let s := s.set .riscvExtentions 0
    match r.dtb with
    | some dtb => if dtb = 0 then s else s.set .dtbPhysical (sub64 dtb r.hhdmOffset)
    | none => s

/-- The framebuffers in `prekernel_entry_limine`. -/
def limineFramebuffers (r : LimineResponse) (s : EntryState) : EntryState :=
  match r.framebuffers with
  | some fbs =>
    let s := s.set .framebufferCount fbs.length
    let s := s.set .framebuffers (add64 s.pointer r.hhdmOffset)
    (fbs.map (LimineFramebuffer.fill r.hhdmOffset)).foldl EntryState.framebuffer s
  | none =>
    let s := s.set .framebufferCount 0
    s.set .framebuffers 0

/-- `prekernel_entry_limine`, from the size of the block on. -/
def prekernelEntryLimine (arch : BootArch) (r : LimineResponse) (f : PmmState) :
    Except Stop EntryState :=
  (limineBlockSize arch r).bind fun size ↦
    (EntryState.allocBlock f arch size).bind fun s ↦
      let s := limineFramebuffers r (limineFields arch r s)
      let s := s.set .moduleCount r.modules.length
      let s := s.set .modules (add64 s.pointer r.hhdmOffset)
      r.modules.foldlM (limineModule r.hhdmOffset) s

/-- The body of the loop over the modules in `prekernel_entry_tartarus`. -/
def tartarusModule (hhdmOffset : Nat) (s : EntryState) (file : TartarusModule) :
    Except Stop EntryState :=
  (nameSize file.name).map fun n ↦
    let module := s.pointer
    let s := s.moduleName hhdmOffset n file.name
    let s := s.store (module + 8) 8 file.paddr
    s.store (module + 16) 8 file.size

/-- The first pass of `prekernel_entry_tartarus`. -/
def tartarusBlockSize (arch : BootArch) (r : TartarusBootInfo) : Except Stop Nat :=
  let size := sizeofBootinfo arch
  let size := add64 size (mul64 sizeofBootinfoFramebuffer r.framebuffers.length)
  let size := add64 size (mul64 sizeofBootinfoModule r.modules.length)
  (addNames (r.modules.map TartarusModule.name) size).map fun size ↦
    mathAlignUp size ptmPageGranularity

/-- `prekernel_entry_tartarus`, from the size of the block on. -/
def prekernelEntryTartarus (arch : BootArch) (r : TartarusBootInfo) (f : PmmState) :
    Except Stop EntryState :=
  (tartarusBlockSize arch r).bind fun size ↦
    (EntryState.allocBlock f arch size).bind fun s ↦
      let s := s.set .coreCount r.cpuCount
      let s := s.set .bootTimestamp r.bootTimestamp
      let s := s.set .rdspPhysical r.acpiRsdpAddress
      let s := s.set .hhdmOffset r.hhdmOffset
      let s := s.set .framebufferCount r.framebuffers.length
      let s := s.set .framebuffers (add64 s.pointer r.hhdmOffset)
      let s := r.framebuffers.foldl EntryState.framebuffer s
      let s := s.set .moduleCount r.modules.length
      let s := s.set .modules (add64 s.pointer r.hhdmOffset)
      r.modules.foldlM (tartarusModule r.hhdmOffset) s

/-! ## What a run does -/

/-- The string at the beginning of these bytes. -/
def cstring (str : List UInt8) : List UInt8 := str.takeWhile (· ≠ 0)

theorem ne_zero_of_mem_cstring {str : List UInt8} {c : UInt8} (h : c ∈ cstring str) : c ≠ 0 := by
  simpa using List.mem_takeWhile_imp h

theorem strlenFrom_cstring {str : List UInt8} {k n : Nat} (h : strlenFrom str k = .ok n) :
    n = k + (cstring str).length ∧ str.take ((cstring str).length + 1) = cstring str ++ [0] := by
  induction str generalizing k with
  | nil => cases h
  | cons c str ih =>
    rw [strlenFrom] at h
    by_cases hc : c = 0
    · rw [if_pos hc] at h
      obtain rfl := Except.ok.inj h
      subst hc
      exact ⟨rfl, rfl⟩
    · rw [if_neg hc] at h
      have hcons : cstring (c :: str) = c :: cstring str := by
        rw [cstring, List.takeWhile_cons_of_pos (by simpa using hc), cstring]
      split at h
      · cases h
      · obtain ⟨h1, h2⟩ := ih h
        rw [hcons, List.length_cons, List.take_succ_cons, h2, List.cons_append]
        exact ⟨by omega, rfl⟩

/-- `strlen(str) + 1` bytes are the string and its terminator. -/
theorem nameSize_ok {str : List UInt8} {n : Nat} (h : nameSize str = .ok n) :
    n = (cstring str).length + 1 ∧ str.take n = cstring str ++ [0] := by
  obtain ⟨k, hk, h⟩ := bind_eq_ok h
  obtain ⟨hlen, htake⟩ := strlenFrom_cstring hk
  rw [Nat.zero_add] at hlen
  split at h
  · obtain rfl := Except.ok.inj h
    rw [hlen]
    exact ⟨rfl, htake⟩
  · cases h

theorem addNames_ok {names : List (List UInt8)} {size n : Nat} (hsize : size < 2 ^ 64)
    (h : addNames names size = .ok n) :
    n = (size + Layout.total (fun s ↦ (cstring s).length + 1) names) % 2 ^ 64 := by
  induction names generalizing size with
  | nil =>
    obtain rfl := Except.ok.inj h
    rw [Layout.total_nil, Nat.add_zero, Nat.mod_eq_of_lt hsize]
  | cons str names ih =>
    rw [addNames, List.foldlM_cons] at h
    obtain ⟨k, hk, h⟩ := bind_eq_ok h
    obtain ⟨l, hl, rfl⟩ := map_eq_ok hk
    obtain ⟨rfl, -⟩ := nameSize_ok hl
    rw [ih (Nat.mod_lt _ (Nat.two_pow_pos 64)) h, Layout.total_cons]
    show ((size + _) % 2 ^ 64 + _) % 2 ^ 64 = _
    rw [Nat.mod_add_mod, Nat.add_assoc]

/-- A module in the block: its name, what its record says, and what was copied, if anything was. -/
structure PlacedModule where
  name : List UInt8
  physAddr : Nat
  size : Nat
  data : Option (List UInt8)

namespace PlacedModule

def length (m : PlacedModule) : Nat := sizeofBootinfoModule + (m.name.length + 1)

/-- The pages that a module was copied to. -/
def copies (m : PlacedModule) : List (Patch × Allocation) :=
  match m.data with
  | some data =>
    [(⟨m.physAddr, data⟩,
      ⟨m.physAddr, mathAlignUp data.length ptmPageGranularity / ptmPageGranularity, .allocated⟩)]
  | none => []

/-- What is stored for a module whose record is at `a`. -/
def stores (hhdmOffset a : Nat) (m : PlacedModule) : List Patch :=
  [⟨a, littleEndian 8 (add64 (a + sizeofBootinfoModule) hhdmOffset)⟩,
    ⟨a + sizeofBootinfoModule, m.name ++ [0]⟩, ⟨a + 8, littleEndian 8 m.physAddr⟩,
    ⟨a + 16, littleEndian 8 m.size⟩] ++ m.copies.map Prod.fst

def objects (a : Nat) (m : PlacedModule) : List (Span BlockPart) :=
  [⟨a, sizeofBootinfoModule, .module⟩, ⟨a + sizeofBootinfoModule, m.name.length + 1, .name⟩]

end PlacedModule

open PlacedModule Layout

/-- The stores into fields of the `bootinfo_t` at `block`. -/
def headerStores (block : Nat) (sets : List (BootinfoField × Nat)) : List Patch :=
  sets.map fun x ↦ ⟨block + x.1.offset, littleEndian 8 x.2⟩

namespace EntryState

/-- Stores into fields of `*boot_info`. -/
def setAll (s : EntryState) (sets : List (BootinfoField × Nat)) : EntryState :=
  { s with stores := s.stores ++ headerStores s.block sets }

theorem setAll_setAll (s : EntryState) (l k : List (BootinfoField × Nat)) :
    (s.setAll l).setAll k = s.setAll (l ++ k) := by
  simp only [setAll, headerStores, List.append_assoc, List.map_append]

theorem foldl_framebuffer (fbs : List BootinfoFramebuffer) (s : EntryState) :
    fbs.foldl framebuffer s =
      { s with
        stores := s.stores ++ laidOut (fun _ ↦ sizeofBootinfoFramebuffer)
          (fun a fb ↦ fieldStores a fb.fields) s.pointer fbs
        objects := s.objects ++ laidOut (fun _ ↦ sizeofBootinfoFramebuffer)
          (fun a _ ↦ [⟨a, sizeofBootinfoFramebuffer, .framebuffer⟩]) s.pointer fbs
        pointer := s.pointer + sizeofBootinfoFramebuffer * fbs.length } := by
  induction fbs generalizing s with
  | nil => simp only [List.foldl_nil, laidOut, List.append_nil, List.length_nil, Nat.mul_zero,
      Nat.add_zero]
  | cons fb fbs ih =>
    rw [List.foldl_cons, ih, framebuffer]
    simp only [laidOut, List.append_assoc, List.length_cons, Nat.mul_succ]
    rw [Nat.add_assoc, Nat.add_comm sizeofBootinfoFramebuffer]

/-- What the loop over the modules has done once `ms` are placed. -/
def withModules (s : EntryState) (hhdmOffset : Nat) (f : PmmState) (ms : List PlacedModule) :
    EntryState :=
  { s with
    frames := f
    stores := s.stores ++ laidOut PlacedModule.length (PlacedModule.stores hhdmOffset) s.pointer ms
    objects := s.objects ++ laidOut PlacedModule.length PlacedModule.objects s.pointer ms
    pointer := s.pointer + total PlacedModule.length ms
    copies := s.copies ++ ms.flatMap PlacedModule.copies }

theorem withModules_cons (s : EntryState) (hhdmOffset : Nat) (f g : PmmState) (m : PlacedModule)
    (ms : List PlacedModule) : (s.withModules hhdmOffset f [m]).withModules hhdmOffset g ms =
      s.withModules hhdmOffset g (m :: ms) := by
  simp only [withModules, laidOut, List.append_nil, List.append_assoc, total_cons, total_nil,
    Nat.add_zero, Nat.add_assoc, List.flatMap_cons, List.flatMap_nil]

end EntryState

section Run

variable {C : Nat → Prop} {f : PmmState} {s t : EntryState} {arch : BootArch} {offset : Nat}
  {n pages : Nat}

theorem PmmState.Inv.pmmAlloc_ok (h : f.Inv C) (hC : ∀ a, C a → a < 2 ^ 56)
    (hn : pages * ptmPageGranularity < 2 ^ 64) {r : Nat × PmmMap}
    (hr : pmmAlloc f.map pages = .ok r) :
    (f.hand pages .allocated r).Inv C ∧ ptmPageGranularity ∣ r.1 := by
  rcases h.pmmAllocExt_spec (h.serves hC (by decide : PmmMapType.allocated ≠ .free) hn) with
    ⟨q, hq, hinv, hh⟩ | ⟨e, herr, -⟩
  · obtain rfl := Except.ok.inj (hq.symm.trans hr)
    exact ⟨hinv, hh.aligned⟩
  · cases herr.symm.trans hr

/-- Rounded up to pages, and then counted in pages, a size is still a size. -/
theorem alignedPages_lt {x : Nat} (hx : x < 2 ^ 64) :
    mathAlignUp x ptmPageGranularity / ptmPageGranularity * ptmPageGranularity < 2 ^ 64 := by
  rw [(mathAlignUp_pages hx).1]
  exact (mathAlignUp_pages hx).2

/-- A module of Limine's is copied. -/
def LimineFile.placed (file : LimineFile) (physAddr : Nat) : PlacedModule :=
  ⟨cstring file.path, physAddr, file.data.length, some file.data⟩

/-- A module of Tartarus's stays where it is. -/
def TartarusModule.placed (file : TartarusModule) : PlacedModule :=
  ⟨cstring file.name, file.paddr, file.size, none⟩

theorem limineModule_ok (h : s.frames.Inv C) (hC : ∀ a, C a → a < 2 ^ 56) {file : LimineFile}
    (ht : limineModule offset s file = .ok t) : ∃ (g : PmmState) (a : Nat), g.Inv C ∧
      g.held = ((file.placed a).copies.map Prod.snd).reverse ++ s.frames.held ∧
      t = s.withModules offset g [file.placed a] := by
  obtain ⟨n, hn, ht⟩ := bind_eq_ok ht
  obtain ⟨rfl, hname⟩ := nameSize_ok hn
  obtain ⟨r, hr, ht⟩ := map_eq_ok ht
  obtain ⟨hinv, -⟩ := h.pmmAlloc_ok hC (alignedPages_lt file.data_lt) hr
  refine ⟨_, r.1, hinv, rfl, ?_⟩
  rw [← ht]
  simp only [EntryState.moduleName, EntryState.store, EntryState.write, EntryState.withModules,
    hname, laidOut, List.append_assoc, List.cons_append, List.nil_append, List.append_nil,
    total_cons, total_nil, Nat.add_zero, List.flatMap_cons, List.flatMap_nil]
  rfl

/-- **The loop over Limine's modules.** -/
theorem limineModules_ok (hC : ∀ a, C a → a < 2 ^ 56) {files : List LimineFile} :
    ∀ {s : EntryState}, s.frames.Inv C → files.foldlM (limineModule offset) s = .ok t →
      ∃ (g : PmmState) (places : List Nat), g.Inv C ∧ places.length = files.length ∧
        g.held = (((List.zipWith LimineFile.placed files places).flatMap copies).map
          Prod.snd).reverse ++ s.frames.held ∧
        t = s.withModules offset g (List.zipWith LimineFile.placed files places) := by
  induction files with
  | nil =>
    intro s h ht
    obtain rfl := Except.ok.inj ht
    refine ⟨s.frames, [], h, rfl, rfl, ?_⟩
    simp only [EntryState.withModules, List.zipWith_nil_left, laidOut, List.append_nil, total_nil,
      Nat.add_zero, List.flatMap_nil]
  | cons file files ih =>
    intro s h ht
    rw [List.foldlM_cons] at ht
    obtain ⟨s', hs', ht⟩ := bind_eq_ok ht
    obtain ⟨g, a, hg, hheld, rfl⟩ := limineModule_ok h hC hs'
    obtain ⟨g', places, hg', hlen, hheld', rfl⟩ := ih (by exact hg) ht
    refine ⟨g', a :: places, hg', by rw [List.length_cons, List.length_cons, hlen], ?_, ?_⟩
    · rw [hheld']
      show _ ++ g.held = _
      rw [hheld, List.zipWith_cons_cons, List.flatMap_cons, List.map_append, List.reverse_append,
        List.append_assoc]
    · rw [EntryState.withModules_cons, List.zipWith_cons_cons]

/-- **The loop over the modules of Tartarus.** -/
theorem tartarusModules_ok {files : List TartarusModule} : ∀ {s : EntryState},
    files.foldlM (tartarusModule offset) s = .ok t →
      t = s.withModules offset s.frames (files.map TartarusModule.placed) := by
  induction files with
  | nil =>
    intro s ht
    obtain rfl := Except.ok.inj ht
    simp only [EntryState.withModules, List.map_nil, laidOut, List.append_nil, total_nil,
      Nat.add_zero, List.flatMap_nil]
  | cons file files ih =>
    intro s ht
    rw [List.foldlM_cons] at ht
    obtain ⟨s', hs', ht⟩ := bind_eq_ok ht
    obtain ⟨n, hn, rfl⟩ := map_eq_ok hs'
    obtain ⟨rfl, hname⟩ := nameSize_ok hn
    rw [ih ht, List.map_cons, ← EntryState.withModules_cons s offset s.frames]
    simp only [EntryState.moduleName, EntryState.store, EntryState.write, EntryState.withModules,
      hname, laidOut, List.append_assoc, List.cons_append, List.nil_append, List.append_nil,
      total_cons, total_nil, Nat.add_zero, List.flatMap_cons, List.flatMap_nil]
    rfl

/-- The fields of `*boot_info` that are set before the framebuffers. -/
def EarlyField (arch : BootArch) (field : BootinfoField) : Prop :=
  field.offset + 8 ≤ sizeofBootinfo arch ∧ field ≠ .framebufferCount ∧ field ≠ .framebuffers ∧
    field ≠ .moduleCount ∧ field ≠ .modules

instance (arch : BootArch) (field : BootinfoField) : Decidable (EarlyField arch field) :=
  inferInstanceAs (Decidable (_ ∧ _))

/-- Fields of `*boot_info` were set, and nothing else was done. -/
def SetsEarly (arch : BootArch) (s t : EntryState) : Prop :=
  ∃ sets : List (BootinfoField × Nat), t = s.setAll sets ∧ ∀ x ∈ sets, EarlyField arch x.1

theorem SetsEarly.refl (arch : BootArch) (s : EntryState) : SetsEarly arch s s :=
  ⟨[], by rw [EntryState.setAll, headerStores, List.map_nil, List.append_nil], by simp⟩

theorem SetsEarly.set (h : SetsEarly arch s t) {field : BootinfoField}
    (hf : EarlyField arch field) (v : Nat) : SetsEarly arch s (t.set field v) := by
  obtain ⟨sets, rfl, hsets⟩ := h
  refine ⟨sets ++ [(field, v)], s.setAll_setAll sets [(field, v)], fun x hx ↦ ?_⟩
  rcases List.mem_append.mp hx with hx | hx
  · exact hsets x hx
  · rw [List.mem_singleton.mp hx]
    exact hf

theorem limineFields_sets (arch : BootArch) (r : LimineResponse) (s : EntryState) :
    SetsEarly arch s (limineFields arch r s) := by
  have hearly : ∀ field ∈ [BootinfoField.coreCount, .bootTimestamp, .rdspPhysical, .hhdmOffset],
      EarlyField arch field := by
    cases arch <;> decide
  have hstart := (SetsEarly.refl arch s).set (hearly .coreCount (by decide)) r.cpuCount
    |>.set (hearly .bootTimestamp (by decide)) r.timestamp
  have hrsdp : SetsEarly arch s
      (match r.rsdp with
        | some address =>
          if address = 0 then (s.set .coreCount r.cpuCount).set .bootTimestamp r.timestamp
          else ((s.set .coreCount r.cpuCount).set .bootTimestamp r.timestamp).set .rdspPhysical
            (sub64 address r.hhdmOffset)
        | none => (s.set .coreCount r.cpuCount).set .bootTimestamp r.timestamp) := by
    split
    · split
      · exact hstart
      · exact hstart.set (hearly .rdspPhysical (by decide)) _
    · exact hstart
  have hoffset := hrsdp.set (hearly .hhdmOffset (by decide)) r.hhdmOffset
  cases arch with
  | x86_64 => exact hoffset
  | riscv64 =>
    have hnone := hoffset.set (by decide : EarlyField .riscv64 .dtbPhysical) 0
      |>.set (by decide : EarlyField .riscv64 .riscvBaseIsaString) 0
      |>.set (by decide : EarlyField .riscv64 .riscvExtensionCount) 0
      |>.set (by decide : EarlyField .riscv64 .riscvExtentions) 0
    show SetsEarly .riscv64 s (match r.dtb with
      | some dtb => if dtb = 0 then _ else EntryState.set _ .dtbPhysical (sub64 dtb r.hhdmOffset)
      | none => _)
    split
    · split
      · exact hnone
      · exact hnone.set (by decide) _
    · exact hnone

/-- What the first pass adds up, over the natural numbers. -/
def blockTotal (arch : BootArch) (framebufferCount : Nat) (names : List (List UInt8)) : Nat :=
  sizeofBootinfo arch + sizeofBootinfoFramebuffer * framebufferCount +
    sizeofBootinfoModule * names.length + total (fun s ↦ (cstring s).length + 1) names

theorem blockTotal_eq (n : Nat) (ms : List PlacedModule) (names : List (List UInt8))
    (h : ms.map PlacedModule.name = names.map cstring) :
    blockTotal arch n names = sizeofBootinfo arch + sizeofBootinfoFramebuffer * n +
      total PlacedModule.length ms := by
  have htotal : total PlacedModule.length ms =
      sizeofBootinfoModule * names.length + total (fun s ↦ (cstring s).length + 1) names := by
    induction ms generalizing names with
    | nil =>
      rw [List.map_nil] at h
      rw [List.map_eq_nil_iff.mp h.symm]
      rfl
    | cons m ms ih =>
      cases names with
      | nil => cases h
      | cons name names =>
        obtain ⟨hname, h⟩ := List.cons.inj h
        rw [total_cons, total_cons, ih names h, PlacedModule.length, hname, List.length_cons,
          Nat.mul_succ]
        omega
  rw [blockTotal, htotal, Nat.add_assoc]

/-- The sizes as both first passes add them up. -/
theorem addNames_blockTotal {names : List (List UInt8)} {k n : Nat}
    (h : addNames names (add64 (add64 (sizeofBootinfo arch) (mul64 sizeofBootinfoFramebuffer k))
      (mul64 sizeofBootinfoModule names.length)) = .ok n) :
    n = blockTotal arch k names % 2 ^ 64 := by
  rw [addNames_ok (add64_lt _ _) h, blockTotal]
  simp only [add64, mul64, Nat.mod_add_mod, Nat.add_mod_mod]

/-- The framebuffers, with the pointer to them. -/
def EntryState.withFramebuffers (s : EntryState) (pointer : Nat) (fbs : List BootinfoFramebuffer) :
    EntryState :=
  fbs.foldl EntryState.framebuffer
    ((s.set .framebufferCount fbs.length).set .framebuffers pointer)

theorem limineFramebuffers_eq (r : LimineResponse) (s : EntryState) : ∃ pointer,
    limineFramebuffers r s = s.withFramebuffers pointer
        ((r.framebuffers.getD []).map (LimineFramebuffer.fill r.hhdmOffset)) ∧
      ((r.framebuffers.getD []).map (LimineFramebuffer.fill r.hhdmOffset) ≠ [] →
        pointer = add64 s.pointer r.hhdmOffset) := by
  rw [limineFramebuffers]
  cases r.framebuffers with
  | some fbs =>
    refine ⟨add64 s.pointer r.hhdmOffset, ?_, fun _ ↦ rfl⟩
    rw [Option.getD_some, EntryState.withFramebuffers, List.length_map]
    rfl
  | none => exact ⟨0, rfl, fun hne ↦ absurd rfl hne⟩

/-- What is known of a run that returns; the framebuffers are what is stored into their records, and
`f` is the allocator before it. -/
structure EntryRun (arch : BootArch) (offset : Nat) (fbs : List BootinfoFramebuffer)
    (ms : List PlacedModule) (C : Nat → Prop) (f : PmmState) (t : EntryState) : Prop where
  inv : t.frames.Inv C
  held : t.frames.held = (t.copies.map Prod.snd).reverse ++
    ⟨t.block, t.blockSize / ptmPageGranularity, .allocated⟩ :: f.held
  alloc : ∃ m, pmmAlloc f.map (t.blockSize / ptmPageGranularity) = .ok (t.block, m)
  size : t.blockSize = mathAlignUp ((sizeofBootinfo arch + sizeofBootinfoFramebuffer * fbs.length +
    total PlacedModule.length ms) % 2 ^ 64) ptmPageGranularity
  stores : ∃ (sets : List (BootinfoField × Nat)) (pointer : Nat),
    (∀ x ∈ sets, EarlyField arch x.1) ∧
    (fbs ≠ [] → pointer = add64 (t.block + sizeofBootinfo arch) offset) ∧
    t.stores =
      headerStores t.block (sets ++ [(.framebufferCount, fbs.length), (.framebuffers, pointer)]) ++
      laidOut (fun _ ↦ sizeofBootinfoFramebuffer) (fun a fb ↦ fieldStores a fb.fields)
        (t.block + sizeofBootinfo arch) fbs ++
      headerStores t.block [(.moduleCount, ms.length), (.modules, add64 (t.block +
        sizeofBootinfo arch + sizeofBootinfoFramebuffer * fbs.length) offset)] ++
      laidOut PlacedModule.length (PlacedModule.stores offset)
        (t.block + sizeofBootinfo arch + sizeofBootinfoFramebuffer * fbs.length) ms
  objects : t.objects = ⟨t.block, sizeofBootinfo arch, .bootinfo⟩ ::
    (laidOut (fun _ ↦ sizeofBootinfoFramebuffer)
      (fun a _ ↦ [⟨a, sizeofBootinfoFramebuffer, .framebuffer⟩])
      (t.block + sizeofBootinfo arch) fbs ++
    laidOut PlacedModule.length PlacedModule.objects
      (t.block + sizeofBootinfo arch + sizeofBootinfoFramebuffer * fbs.length) ms)
  copies : t.copies = ms.flatMap PlacedModule.copies

/-- The parts of a run, put together. -/
theorem EntryRun.of_parts {fbs : List BootinfoFramebuffer} {ms : List PlacedModule} (g : PmmState)
    (sets : List (BootinfoField × Nat)) {size : Nat} (pointer : Nat)
    (hs : EntryState.allocBlock f arch size = .ok s)
    (hsize : size = mathAlignUp ((sizeofBootinfo arch + sizeofBootinfoFramebuffer * fbs.length +
      total PlacedModule.length ms) % 2 ^ 64) ptmPageGranularity)
    (hsets : ∀ x ∈ sets, EarlyField arch x.1)
    (hpointer : fbs ≠ [] → pointer = add64 s.pointer offset) (hg : g.Inv C)
    (hheld : g.held = ((ms.flatMap PlacedModule.copies).map Prod.snd).reverse ++ s.frames.held)
    (ht : t = ((((s.setAll sets).withFramebuffers pointer fbs).set .moduleCount ms.length).set
      .modules (add64 (s.pointer + sizeofBootinfoFramebuffer * fbs.length) offset)).withModules
        offset g ms) : EntryRun arch offset fbs ms C f t := by
  obtain ⟨r, hr, rfl⟩ := map_eq_ok hs
  rw [EntryState.withFramebuffers, EntryState.foldl_framebuffer] at ht
  subst ht
  exact
    { inv := hg
      held := hheld
      alloc := ⟨r.2, hr⟩
      size := hsize
      stores := by
        refine ⟨sets, pointer, hsets, hpointer, ?_⟩
        simp only [EntryState.withModules, EntryState.set, EntryState.store, EntryState.setAll,
          headerStores, List.map_append, List.map_cons, List.map_nil, List.nil_append,
          List.append_assoc, List.cons_append]
      objects := rfl
      copies := rfl }

theorem allocBlock_inv (h : f.Inv C) (hC : ∀ a, C a → a < 2 ^ 56) {x : Nat} (hx : x < 2 ^ 64)
    (hs : EntryState.allocBlock f arch (mathAlignUp x ptmPageGranularity) = .ok s) :
    s.frames.Inv C := by
  obtain ⟨r, hr, rfl⟩ := map_eq_ok hs
  exact (h.pmmAlloc_ok hC (alignedPages_lt hx) hr).1

theorem zipWith_placed_name : ∀ {files : List LimineFile} {places : List Nat},
    places.length = files.length → (List.zipWith LimineFile.placed files places).map
      PlacedModule.name = (files.map LimineFile.path).map cstring
  | [], [], _ => rfl
  | _ :: files, _ :: places, h => by
    rw [List.zipWith_cons_cons, List.map_cons, List.map_cons, List.map_cons,
      zipWith_placed_name (Nat.succ.inj h)]
    rfl

/-- **Limine**: what a run has done. -/
theorem limine_run (h : f.Inv C) (hC : ∀ a, C a → a < 2 ^ 56) {r : LimineResponse}
    (ht : prekernelEntryLimine arch r f = .ok t) : ∃ places : List Nat,
      places.length = r.modules.length ∧
      EntryRun arch r.hhdmOffset
        ((r.framebuffers.getD []).map (LimineFramebuffer.fill r.hhdmOffset))
        (List.zipWith LimineFile.placed r.modules places) C f t := by
  obtain ⟨size, hsize, ht⟩ := bind_eq_ok ht
  obtain ⟨n, hn, rfl⟩ := map_eq_ok hsize
  obtain ⟨s, hs, ht⟩ := bind_eq_ok ht
  have hfbs : (match r.framebuffers with
      | some fbs => add64 (sizeofBootinfo arch) (mul64 sizeofBootinfoFramebuffer fbs.length)
      | none => sizeofBootinfo arch) = add64 (sizeofBootinfo arch)
        (mul64 sizeofBootinfoFramebuffer (r.framebuffers.getD []).length) := by
    cases r.framebuffers with
    | some fbs => rfl
    | none => cases arch <;> rfl
  rw [hfbs, ← List.length_map (f := LimineFile.path)] at hn
  have hn := addNames_blockTotal hn
  have hsinv := allocBlock_inv h hC (by rw [hn]; exact Nat.mod_lt _ (Nat.two_pow_pos 64)) hs
  obtain ⟨sets, hsets, hearly⟩ := limineFields_sets arch r s
  obtain ⟨pointer, hfb, hpointer⟩ := limineFramebuffers_eq r (limineFields arch r s)
  rw [hsets] at hfb hpointer
  dsimp only at ht
  rw [hsets, hfb] at ht
  obtain ⟨g, places, hg, hlen, hheld, ht⟩ := limineModules_ok hC (by
    rw [EntryState.withFramebuffers, EntryState.foldl_framebuffer]
    exact hsinv) ht
  have hcount : (List.zipWith LimineFile.placed r.modules places).length = r.modules.length := by
    rw [List.length_zipWith, hlen, min_self]
  refine ⟨places, hlen, .of_parts _ _ _ hs ?_ hearly hpointer hg ?_ ?_⟩
  · rw [hn, blockTotal_eq _ _ _ (zipWith_placed_name hlen), List.length_map]
  · rw [hheld, EntryState.withFramebuffers, EntryState.foldl_framebuffer]
    rfl
  · rw [ht, hcount, EntryState.withFramebuffers, EntryState.foldl_framebuffer]
    rfl

/-- **Tartarus**: what a run has done. -/
theorem tartarus_run (h : f.Inv C) (hC : ∀ a, C a → a < 2 ^ 56) {r : TartarusBootInfo}
    (ht : prekernelEntryTartarus arch r f = .ok t) :
    EntryRun arch r.hhdmOffset r.framebuffers (r.modules.map TartarusModule.placed) C f t := by
  obtain ⟨size, hsize, ht⟩ := bind_eq_ok ht
  obtain ⟨n, hn, rfl⟩ := map_eq_ok hsize
  obtain ⟨s, hs, ht⟩ := bind_eq_ok ht
  rw [← List.length_map (f := TartarusModule.name)] at hn
  have hn := addNames_blockTotal hn
  have hsinv := allocBlock_inv h hC (by rw [hn]; exact Nat.mod_lt _ (Nat.two_pow_pos 64)) hs
  have hearly : ∀ field ∈ [BootinfoField.coreCount, .bootTimestamp, .rdspPhysical, .hhdmOffset],
      EarlyField arch field := by
    cases arch <;> decide
  obtain ⟨sets, hsets, hearly⟩ := (SetsEarly.refl arch s).set (hearly .coreCount (by decide))
      r.cpuCount
    |>.set (hearly .bootTimestamp (by decide)) r.bootTimestamp
    |>.set (hearly .rdspPhysical (by decide)) r.acpiRsdpAddress
    |>.set (hearly .hhdmOffset (by decide)) r.hhdmOffset
  dsimp only at ht
  rw [hsets] at ht
  have ht := tartarusModules_ok ht
  refine .of_parts s.frames sets (add64 s.pointer r.hhdmOffset) hs ?_
    hearly (fun _ ↦ rfl) hsinv ?_ ?_
  · rw [hn, blockTotal_eq _ (r.modules.map TartarusModule.placed) _ (by
      rw [List.map_map, List.map_map]
      rfl)]
  · have hnone : (r.modules.map TartarusModule.placed).flatMap PlacedModule.copies = [] := by
      rw [List.flatMap_map]
      exact List.flatMap_eq_nil_iff.mpr fun _ _ ↦ rfl
    rw [hnone]
    rfl
  · rw [ht, List.length_map, EntryState.withFramebuffers, EntryState.foldl_framebuffer,
      EntryState.foldl_framebuffer]
    rfl

end Run

end LunarPrekernel
