import LunarPrekernel.Elf.Load
import LunarPrekernel.Runtime.Mem

/-!
# The kernel's information about itself

The kernel says how large its records are in a structure of its own, in a section that is found by
its name.  Where the structure is in memory is then read off the recorded segments: the first one
that has the address of the section decides.

* `elfldrLoadKernel` — the loader with the search at its end.
* `kernel_info_found` — what the search finds, and when that is the structure.
-/

set_option autoImplicit false

namespace LunarPrekernel

open SpanMap Span PmmMap PageTable

/-! ## The sections -/

/-- `elf64_section_header_t`, without the fields nothing looks at. -/
structure ElfSectionHeader where
  name : Nat
  addr : Nat
  offset : Nat
deriving DecidableEq, Repr

/-- `sizeof(elf64_section_header_t)`. -/
def sizeofElfSectionHeader : Nat := 64

/-- `shdrs[i]`. -/
def elfSectionHeader (image : Memory) (i : Nat) : ElfSectionHeader :=
  let a := (elfHeader image).shoff + sizeofElfSectionHeader * i
  ⟨image.load a 4, image.load (a + 16) 8, image.load (a + 24) 8⟩

/-- `shdrs[0 .. e_shnum)`. -/
def elfSectionHeaders (image : Memory) : List ElfSectionHeader :=
  (List.range (elfHeader image).shnum).map (elfSectionHeader image)

/-- `shstrtab`. -/
def elfShstrtab (image : Memory) : Nat := (elfSectionHeader image (elfHeader image).shstrndx).offset

/-- `"prekernel_boot_info"`, with the `NUL` that the comparison includes. -/
def infoSectionName : List UInt8 :=
  "prekernel_boot_info\x00".toList.map fun c ↦ UInt8.ofNat c.toNat

/-- The bytes of the image at the name of the section, as many as are compared. -/
def ElfSectionHeader.nameBytes (shdr : ElfSectionHeader) (image : Memory) : List UInt8 :=
  (List.range infoSectionName.length).map fun i ↦ image (elfShstrtab image + shdr.name + i)

/-! ## The search -/

/-- The record has the address `a`, as far as the search can tell. -/
def BootinfoSegment.Covers (seg : BootinfoSegment) (a : Nat) : Prop :=
  seg.vaddr ≤ a ∧ a < add64 seg.vaddr seg.size

instance (seg : BootinfoSegment) (a : Nat) : Decidable (seg.Covers a) :=
  inferInstanceAs (Decidable (_ ∧ _))

/-- The end of `internal_elf_load_image`: `kernel_info`, which is `0` for `nullptr`.  Both loops end
at the first section, and the first record, that they are looking for. -/
def elfFindKernelInfo (hhdmOffset : Nat) (image : Memory) (segments : List BootinfoSegment) : Nat :=
  match (elfSectionHeaders image).find? fun shdr ↦
      memcmp (shdr.nameBytes image) infoSectionName infoSectionName.length = .ok 0 with
  | none => 0
  | some shdr =>
    match segments.find? fun seg ↦ decide (seg.Covers shdr.addr) with
    | none => 0
    | some seg => add64 (add64 seg.paddr (sub64 shdr.addr seg.vaddr)) hhdmOffset

/-- What `elfldr_load_kernel` returns and leaves. -/
structure LoadedKernel where
  ok : Bool
  /-- `kernel_info`. -/
  kernelInfo : Nat
  loaded : LoaderInfo × Machine PmmState

/-- `elfldr_load_kernel`; `machine` is `EMACHINE_EXPECTED`, and `info` is what is in `out_info`
before.  The first branch leaves it alone. -/
def elfldrLoadKernel (machine hhdmOffset : Nat)
    (ptmMap : Machine PmmState → MapCall → Except Stop (Machine PmmState)) (image : Memory)
    (info : LoaderInfo) (s : Machine PmmState) : Except Stop LoadedKernel :=
  if !elfSupported machine image then .ok ⟨false, 0, info, s⟩
  else
    (elfLoadImage ptmMap image s).map fun y ↦
      if (elfHeader image).shoff = 0 ∨ (elfHeader image).shstrndx = 0 then ⟨false, 0, y⟩
      else
        let kernelInfo := elfFindKernelInfo hhdmOffset image y.1.segments
        ⟨decide (kernelInfo ≠ 0), kernelInfo, y⟩

/-- The first section with this very name. -/
def IsInfoSection (image : Memory) (shdr : ElfSectionHeader) : Prop :=
  (elfHeader image).shoff ≠ 0 ∧ (elfHeader image).shstrndx ≠ 0 ∧
    (elfSectionHeaders image).find? (fun shdr ↦ shdr.nameBytes image = infoSectionName) = some shdr

/-- The structure, which has `size` bytes, is found where the new tables show it; and it is found
if it lies in a segment. -/
structure KernelInfoFound {P : Type} (see : Memory → Nat → Option (Nat × P))
    (hhdmOffset size : Nat) (image : Memory) (r : LoadedKernel) : Prop where
  sound : r.ok = true → ∃ shdr, IsInfoSection image shdr ∧
    (∃ seg ∈ r.loaded.1.segments, hhdmOffset + seg.paddr ≤ r.kernelInfo ∧
      r.kernelInfo + size ≤ hhdmOffset + seg.paddr + seg.size) ∧
    ∀ o < size, ∃ b q, see r.loaded.2.mem (shdr.addr + o) = some (b, q) ∧
      r.kernelInfo + o = hhdmOffset + b
  complete : ∀ shdr, IsInfoSection image shdr → (∃ phdr ∈ elfLoads image,
    phdr.vaddr ≤ shdr.addr ∧ shdr.addr + size ≤ phdr.vaddr + phdr.memsz) → r.ok = true

/-- The header has the address `a`, as far as the search can tell. -/
def ElfProgramHeader.Covers (phdr : ElfProgramHeader) (a : Nat) : Prop :=
  phdr.vaddr ≤ a ∧ a < add64 phdr.vaddr phdr.memsz

instance (phdr : ElfProgramHeader) (a : Nat) : Decidable (phdr.Covers a) :=
  inferInstanceAs (Decidable (_ ∧ _))

/-- The first segment that has the address of the section has the whole structure, and each byte of
it can be seen in the end. -/
structure InfoVisible (n : Nat) (canonical leaf : Nat → Prop) (size : Nat) (image : Memory) :
    Prop where
  /-- No segment reaches from the first page of the address space to the last one. -/
  room : ∀ phdr ∈ elfLoads image, phdr.vaddr + phdr.memsz ≤ phdr.startVaddr + phdr.blockSize
  first : ∀ shdr, IsInfoSection image shdr → ∀ pre phdr post,
    elfLoads image = pre ++ phdr :: post → (∀ p ∈ pre, ¬ p.Covers shdr.addr) →
    phdr.Covers shdr.addr → shdr.addr + size ≤ phdr.vaddr + phdr.memsz ∧
      ∀ o < size, phdr.Visible n canonical leaf post (shdr.addr + o)
  /-- A segment that ends with the address space is not found by the search. -/
  found : ∀ shdr, IsInfoSection image shdr → (∀ phdr ∈ elfLoads image, ¬ phdr.Covers shdr.addr) →
    ∀ phdr ∈ elfLoads image,
      ¬ (phdr.vaddr ≤ shdr.addr ∧ shdr.addr + size ≤ phdr.vaddr + phdr.memsz)

/-! ## The search finds what is looked for -/

/-- Comparing the bytes tells whether they are the same. -/
theorem memcmp_eq_zero_iff {lhs rhs : List UInt8} (h : lhs.length = rhs.length) :
    memcmp lhs rhs rhs.length = .ok 0 ↔ lhs = rhs := by
  obtain ⟨v, hv, hcmp⟩ := memcmp_eq h.ge le_rfl
  rw [List.take_of_length_le h.le, List.take_length] at hcmp
  rw [hv]
  constructor
  · intro h0
    obtain rfl : v = 0 := Except.ok.inj h0
    exact (Std.compare_eq_iff_eq.mp hcmp.symm).symm
  · rintro rfl
    rw [Std.compare_self] at hcmp
    exact congrArg Except.ok (Std.compare_eq_iff_eq.mp hcmp)

section Search

variable {image : Memory} {shdr : ElfSectionHeader} {segments : List BootinfoSegment}
  {hhdmOffset : Nat} {seg : BootinfoSegment}

theorem find?_info (image : Memory) : (elfSectionHeaders image).find? (fun shdr ↦
      memcmp (shdr.nameBytes image) infoSectionName infoSectionName.length = .ok 0) =
    (elfSectionHeaders image).find? fun shdr ↦ shdr.nameBytes image = infoSectionName := by
  congr 1
  funext shdr
  have hlength : (shdr.nameBytes image).length = infoSectionName.length := by
    rw [ElfSectionHeader.nameBytes, List.length_map, List.length_range]
  rw [decide_eq_decide]
  exact memcmp_eq_zero_iff hlength

/-- There is no such section, or no segment for it. -/
theorem elfFindKernelInfo_eq_zero (hstr : (elfHeader image).shoff ≠ 0 ∧
    (elfHeader image).shstrndx ≠ 0) (h : ∀ shdr, IsInfoSection image shdr →
      ∀ seg ∈ segments, ¬ seg.Covers shdr.addr) :
    elfFindKernelInfo hhdmOffset image segments = 0 := by
  rw [elfFindKernelInfo, find?_info]
  split
  · rfl
  · rename_i shdr hfind
    rw [List.find?_eq_none.mpr fun seg hseg ↦ by simpa using h shdr ⟨hstr.1, hstr.2, hfind⟩ seg hseg]

/-- The first segment decides. -/
theorem elfFindKernelInfo_eq (h : IsInfoSection image shdr) {pre post : List BootinfoSegment}
    (hpre : ∀ p ∈ pre, ¬ p.Covers shdr.addr) (hseg : seg.Covers shdr.addr) :
    elfFindKernelInfo hhdmOffset image (pre ++ seg :: post) =
      add64 (add64 seg.paddr (sub64 shdr.addr seg.vaddr)) hhdmOffset := by
  rw [elfFindKernelInfo, find?_info, h.2.2]
  have hfind : (pre ++ seg :: post).find? (fun seg ↦ decide (seg.Covers shdr.addr)) = some seg :=
    List.find?_eq_some_iff_append.mpr ⟨by simpa using hseg, pre, post, rfl, fun p hp ↦ by
      simpa using hpre p hp⟩
  dsimp only
  rw [hfind]

end Search

/-! ## On the loaded kernel -/

section Main

variable {limit : Nat} {hlimit : limit ≤ 2 ^ 56} {P : Type}
  {g : Pager (pmmFrames limit hlimit) P} {s : Machine PmmState} {U : Nat → Prop}
  {image start : Memory} {y : LoaderInfo × Machine PmmState} {hhdmOffset size : Nat}
  {see : Memory → Nat → Option (Nat × P)} {canonical leaf : Nat → Prop}
  {done pre post : List ElfSegment} {d : ElfSegment} {shdr : ElfSectionHeader}

/-- The structure at the address of the section, if the segment `d` decides. -/
theorem ElfRun.kernelInfo_eq (h : ElfRun g image start (pre ++ d :: post) y U)
    (hhdm : 0 < hhdmOffset ∧ hhdmOffset + limit ≤ 2 ^ 64) (hs : IsInfoSection image shdr)
    (hpre : ∀ e ∈ pre, ¬ e.phdr.Covers shdr.addr) (hd : d.phdr.Covers shdr.addr) :
    shdr.addr < d.phdr.vaddr + d.phdr.memsz ∧
      d.record.paddr + (shdr.addr - d.phdr.vaddr) < limit ∧
      elfFindKernelInfo hhdmOffset image y.1.segments =
        hhdmOffset + (d.record.paddr + (shdr.addr - d.phdr.vaddr)) := by
  have hmem : d ∈ pre ++ d :: post := List.mem_append_right _ List.mem_cons_self
  have hsized := h.sized d hmem
  have hroom := hsized.room
  have hwrap := hsized.no_wrap
  have hstart := ElfProgramHeader.startVaddr_eq hsized.lt
  obtain ⟨h1, h2⟩ := hd
  have hlt : shdr.addr < d.phdr.vaddr + d.phdr.memsz := h2.trans_le (Nat.mod_le _ _)
  have hbelow := h.below d hmem (by omega)
  have hpaddr : d.record.paddr = d.paddr + (d.phdr.vaddr - d.phdr.startVaddr) := rfl
  have hinner : add64 d.record.paddr (shdr.addr - d.phdr.vaddr) =
      d.record.paddr + (shdr.addr - d.phdr.vaddr) := add64_eq (by omega)
  refine ⟨hlt, by omega, ?_⟩
  rw [h.segments, List.map_append, List.map_cons, elfFindKernelInfo_eq hs
    (List.forall_mem_map.mpr hpre) (show d.record.Covers shdr.addr from ⟨h1, h2⟩),
    show d.record.vaddr = d.phdr.vaddr from rfl, sub64_eq (by omega) h1, hinner,
    add64_eq (by omega), Nat.add_comm]

/-- The first segment that has an address, if there is one. -/
theorem exists_first_covers {a : Nat} (h : ∃ d ∈ done, d.phdr.Covers a) :
    ∃ pre d post, done = pre ++ d :: post ∧ (∀ e ∈ pre, ¬ e.phdr.Covers a) ∧ d.phdr.Covers a := by
  obtain ⟨d, hd⟩ := Option.isSome_iff_exists.mp
    ((List.find?_isSome (p := fun d : ElfSegment ↦ decide (d.phdr.Covers a))).mpr (by simpa using h))
  obtain ⟨hcov, pre, post, rfl, hpre⟩ := List.find?_eq_some_iff_append.mp hd
  exact ⟨pre, d, post, rfl, fun e he ↦ by simpa using hpre e he, by simpa using hcov⟩

/-- What `elfldr_load_kernel` comes to once the segments are loaded. -/
def foundKernel (hhdmOffset : Nat) (image : Memory) (y : LoaderInfo × Machine PmmState) :
    LoadedKernel :=
  if (elfHeader image).shoff = 0 ∨ (elfHeader image).shstrndx = 0 then ⟨false, 0, y⟩
  else
    ⟨decide (elfFindKernelInfo hhdmOffset image y.1.segments ≠ 0),
      elfFindKernelInfo hhdmOffset image y.1.segments, y⟩

theorem foundKernel_of_section (hs : IsInfoSection image shdr) : foundKernel hhdmOffset image y =
    ⟨decide (elfFindKernelInfo hhdmOffset image y.1.segments ≠ 0),
      elfFindKernelInfo hhdmOffset image y.1.segments, y⟩ :=
  if_neg (not_or.mpr ⟨hs.1, hs.2.1⟩)

theorem elfldrLoadKernel_ok {machine : Nat} {info : LoaderInfo} {r : LoadedKernel}
    {ptmMap : Machine PmmState → MapCall → Except Stop (Machine PmmState)}
    (hsupported : elfSupported machine image = true)
    (hr : elfldrLoadKernel machine hhdmOffset ptmMap image info s = .ok r) :
    ∃ y, elfLoadImage ptmMap image s = .ok y ∧ foundKernel hhdmOffset image y = r := by
  rw [elfldrLoadKernel, hsupported] at hr
  exact map_eq_ok hr

/-- The loader returns true only if there is a section and a segment for it. -/
theorem ElfRun.of_ok (h : ElfRun g image start done y U)
    (hok : (foundKernel hhdmOffset image y).ok = true) :
    ∃ shdr, IsInfoSection image shdr ∧ ∃ d ∈ done, d.phdr.Covers shdr.addr := by
  rw [foundKernel] at hok
  split at hok
  · cases hok
  · rename_i hstr
    by_contra hno
    push Not at hno
    have hzero : elfFindKernelInfo hhdmOffset image y.1.segments = 0 := by
      refine elfFindKernelInfo_eq_zero (not_or.mp hstr) fun shdr hs ↦ ?_
      rw [h.segments]
      exact List.forall_mem_map.mpr (hno shdr hs)
    rw [hzero] at hok
    cases hok

theorem IsInfoSection.unique {shdr' : ElfSectionHeader} (h : IsInfoSection image shdr)
    (h' : IsInfoSection image shdr') : shdr = shdr' :=
  Option.some.inj (h.2.2.symm.trans h'.2.2)

/-- **What the search finds**, if the structure can be seen. -/
theorem InfoVisible.kernelInfoFound (hv : InfoVisible g.levels canonical leaf size image)
    (hg : g.Sees see canonical leaf) (h : ElfRun g image start done y U)
    (hdone : done.map ElfSegment.phdr = elfLoads image)
    (hhdm : 0 < hhdmOffset ∧ hhdmOffset + limit ≤ 2 ^ 64) :
    KernelInfoFound see hhdmOffset size image (foundKernel hhdmOffset image y) := by
  constructor
  · intro hok
    obtain ⟨shdr, hs, hex⟩ := h.of_ok hok
    obtain ⟨pre, d, post, rfl, hpre, hd⟩ := exists_first_covers hex
    obtain ⟨hlt, hbelow, heq⟩ := h.kernelInfo_eq hhdm hs hpre hd
    rw [List.map_append, List.map_cons] at hdone
    obtain ⟨hend, hvis⟩ := hv.first shdr hs _ _ _ hdone.symm (List.forall_mem_map.mpr hpre) hd
    rw [foundKernel_of_section hs]
    have hle := hd.1
    refine ⟨shdr, hs, ⟨d.record, ?_, ?_⟩, fun o ho ↦ ?_⟩
    · rw [h.segments]
      exact List.mem_map_of_mem (List.mem_append_right _ List.mem_cons_self)
    · dsimp only
      have hsize : d.record.size = d.phdr.memsz := rfl
      omega
    · obtain ⟨q, hq⟩ := h.sees hg (Nat.le_add_right_of_le hle) (hvis o ho)
      refine ⟨_, q, hq, ?_⟩
      dsimp only
      omega
  · rintro shdr hs ⟨phdr, hphdr, h1, h2⟩
    rw [foundKernel_of_section hs]
    have hex : ∃ d ∈ done, d.phdr.Covers shdr.addr := by
      by_contra hno
      push Not at hno
      refine hv.found shdr hs ?_ phdr hphdr ⟨h1, h2⟩
      rw [← hdone]
      exact List.forall_mem_map.mpr hno
    obtain ⟨pre, d, post, rfl, hpre, hd⟩ := exists_first_covers hex
    obtain ⟨-, -, heq⟩ := h.kernelInfo_eq hhdm hs hpre hd
    rw [decide_eq_true_eq, heq]
    omega

/-- A byte of a recorded segment is in its block. -/
theorem ElfSegment.mem_block (hd : d.phdr.Sized) {b : Nat} (h1 : d.record.paddr ≤ b)
    (h2 : b < d.record.paddr + d.record.size) : d.block.Contains b := by
  have hroom := hd.room
  have hstart := ElfProgramHeader.startVaddr_eq hd.lt
  have hpaddr : d.record.paddr = d.paddr + (d.phdr.vaddr - d.phdr.startVaddr) := rfl
  have hsize : d.record.size = d.phdr.memsz := rfl
  rw [ElfSegment.block_contains hd.lt hd.no_wrap]
  omega

/-- No two segments have a byte of memory in common. -/
theorem ElfRun.eq_of_mem_block (h : ElfRun g image start (pre ++ d :: post) y U) {e : ElfSegment}
    (he : e ∈ pre ++ d :: post) {b : Nat} (hb : e.block.Contains b) (hb' : d.block.Contains b) :
    e = d := by
  have hdisj := h.disjoint
  rw [List.map_append, List.map_cons, List.pairwise_append, List.pairwise_cons] at hdisj
  obtain ⟨-, ⟨hpost, -⟩, hpre⟩ := hdisj
  rcases List.mem_append.mp he with he | he
  · exact absurd hb' (hpre _ (List.mem_map_of_mem he) _ List.mem_cons_self b hb)
  · rcases List.mem_cons.mp he with rfl | he
    · rfl
    · exact absurd hb (hpost _ (List.mem_map_of_mem he) b hb')

/-- **What the search has found can be seen.** -/
theorem KernelInfoFound.visible
    (hf : KernelInfoFound see hhdmOffset size image (foundKernel hhdmOffset image y))
    (hg : g.Sees see canonical leaf) (h : ElfRun g image start done y U)
    (hdone : done.map ElfSegment.phdr = elfLoads image)
    (hhdm : 0 < hhdmOffset ∧ hhdmOffset + limit ≤ 2 ^ 64) (hsize : 0 < size)
    (hfresh : ElfFresh see image start) : InfoVisible g.levels canonical leaf size image := by
  have hsized : ∀ phdr ∈ elfLoads image, phdr.Sized := by
    rw [← hdone]
    exact List.forall_mem_map.mpr h.sized
  refine ⟨fun phdr hphdr ↦ (hsized phdr hphdr).room, ?_, ?_⟩
  · intro shdr hs pre phdr post heq hpre hcov
    have hphdr : phdr ∈ elfLoads image := heq ▸ List.mem_append_right _ List.mem_cons_self
    rw [heq] at hdone
    obtain ⟨pre', rest, rfl, rfl, hrest⟩ := List.map_eq_append_iff.mp hdone
    obtain ⟨d, post', rfl, rfl, rfl⟩ := List.map_eq_cons_iff.mp hrest
    obtain ⟨hlt, hbelow, hinfo⟩ := h.kernelInfo_eq hhdm hs
      (fun e he ↦ hpre _ (List.mem_map_of_mem he)) hcov
    have hfound := @foundKernel_of_section image y hhdmOffset shdr hs
    rw [hfound] at hf
    obtain ⟨shdr', hs', ⟨seg, hseg, hlo, hhi⟩, hsee⟩ := hf.sound (by
      rw [decide_eq_true_eq, hinfo]
      omega)
    obtain rfl := hs.unique hs'
    dsimp only at hlo hhi hsee hseg
    rw [hinfo] at hlo hhi hsee
    -- the segment that the structure is in is the one that the search went by
    rw [h.segments] at hseg
    obtain ⟨e, he, rfl⟩ := List.mem_map.mp hseg
    have hle := hcov.1
    have hd := h.sized d (List.mem_append_right _ List.mem_cons_self)
    have hrecord : d.record.size = d.phdr.memsz := rfl
    obtain rfl : e = d := h.eq_of_mem_block he
      (ElfSegment.mem_block (b := d.record.paddr + (shdr.addr - d.phdr.vaddr)) (h.sized e he)
        (by omega) (by omega))
      (ElfSegment.mem_block hd (by omega) (by omega))
    refine ⟨by omega, fun o ho ↦ ?_⟩
    obtain ⟨b, q, hq, hb⟩ := hsee o ho
    have haddr : b = e.record.paddr + (shdr.addr + o - e.phdr.vaddr) := by omega
    refine h.of_see hg (Nat.le_add_right_of_le hle) (by omega) ?_ (q := q) (haddr ▸ hq)
    have hnone := hfresh e.phdr hphdr (shdr.addr + o - e.phdr.vaddr) (by omega)
    rwa [Nat.add_sub_cancel' (Nat.le_add_right_of_le hle)] at hnone
  · intro shdr hs hno phdr hphdr hin
    have hok := hf.complete shdr hs ⟨phdr, hphdr, hin⟩
    obtain ⟨shdr', hs', d, hd, hcov⟩ := h.of_ok hok
    obtain rfl := hs.unique hs'
    exact hno d.phdr (hdone ▸ List.mem_map_of_mem hd) hcov

/-- **Both ways.** -/
theorem Pager.Sees.kernelInfo (hg : g.Sees see canonical leaf) (h : g.Inv s U)
    {machine bytes : Nat} (himage : ElfImage machine bytes image) {info : LoaderInfo}
    {r : LoadedKernel} (hhdm : 0 < hhdmOffset ∧ hhdmOffset + limit ≤ 2 ^ 64) (hsize : 0 < size)
    (hr : elfldrLoadKernel machine hhdmOffset g.call image info s = .ok r) :
    (InfoVisible g.levels canonical leaf size image →
      KernelInfoFound see hhdmOffset size image r) ∧
    ((∀ phdr ∈ elfLoads image, phdr.vaddr + phdr.memsz ≤ phdr.startVaddr + phdr.blockSize) →
      ElfFresh see image s.mem → KernelInfoFound see hhdmOffset size image r →
      InfoVisible g.levels canonical leaf size image) := by
  obtain ⟨y, hy, rfl⟩ := elfldrLoadKernel_ok himage.supported hr
  have hrun : (∀ phdr ∈ elfLoads image, phdr.vaddr + phdr.memsz ≤
      phdr.startVaddr + phdr.blockSize) → ∃ done U', ElfRun g image s.mem done y U' ∧
        done.map ElfSegment.phdr = elfLoads image := fun hroom ↦
    elfLoadImage_run h (fun phdr hphdr ↦ ⟨elfLoads_lt hphdr, himage.file_le phdr hphdr,
      himage.no_wrap phdr hphdr, hroom phdr hphdr⟩) hy
  constructor
  · intro hv
    obtain ⟨done, U', hrun, hdone⟩ := hrun hv.room
    exact hv.kernelInfoFound hg hrun hdone hhdm
  · intro hroom hfresh hf
    obtain ⟨done, U', hrun, hdone⟩ := hrun hroom
    exact hf.visible hg hrun hdone hhdm hsize hfresh

end Main

section Arch

variable {limit : Nat} {hlimit : limit ≤ 2 ^ 56} {s : Machine PmmState} {image : Memory}
  {hhdmOffset bytes : Nat} {info : LoaderInfo} {r : LoadedKernel}

end Arch

/-! ## A structure at the end of a segment -/

end LunarPrekernel
