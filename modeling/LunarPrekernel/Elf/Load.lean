import LunarPrekernel.Elf.Defs
import LunarPrekernel.Ptm.Pager

/-!
# What the loaded kernel looks like

A segment has a block of its own, so nothing that is done for another segment changes its bytes.
Its addresses are another matter: they are rounded outward to whole pages, and a page that two
segments share is mapped to the block of the later one.

* `ElfRun` — what the loop over the program headers keeps.
* `ElfRun.shown_iff` — which bytes of a segment can be seen at their addresses in the end.
* `elf_loaded` — when all of them can.
-/

set_option autoImplicit false

namespace LunarPrekernel

open SpanMap Span PmmMap PageTable

/-! ## Rounding outward -/

namespace ElfProgramHeader

variable {phdr : ElfProgramHeader}

/-- The number of pages that the loop maps. -/
def pageCount (phdr : ElfProgramHeader) : Nat := (phdr.endVaddr - phdr.startVaddr) / 4096

/-- A header whose bytes do not wrap, and for which there is a block that holds them. -/
structure Sized (phdr : ElfProgramHeader) : Prop where
  lt : phdr.vaddr < 2 ^ 64
  file_le : phdr.filesz ≤ phdr.memsz
  no_wrap : phdr.vaddr + phdr.memsz ≤ 2 ^ 64
  room : phdr.vaddr + phdr.memsz ≤ phdr.startVaddr + phdr.blockSize

/-- The end, rounded up, if it is an address at all. -/
theorem endVaddr_eq (h : phdr.vaddr + phdr.memsz ≤ 2 ^ 64) :
    phdr.endVaddr = if phdr.vaddr + phdr.memsz ≤ 2 ^ 64 - 4096
      then (phdr.vaddr + phdr.memsz + 4095) / 4096 * 4096 else 0 := by
  rw [endVaddr]
  split
  · rw [add64_eq (by omega), mathAlignUp_page (by omega)]
  · rcases h.lt_or_eq with hlt | heq
    · rw [add64_eq hlt, mathAlignUp_wrap hlt (by omega)]
    · rw [add64, heq]
      rfl

theorem blockSize_eq (hlt : phdr.vaddr < 2 ^ 64) (h : phdr.vaddr + phdr.memsz ≤ 2 ^ 64) :
    phdr.blockSize = if phdr.vaddr + phdr.memsz ≤ 2 ^ 64 - 4096
      then phdr.endVaddr - phdr.startVaddr else (2 ^ 64 - phdr.startVaddr) % 2 ^ 64 := by
  have hend := endVaddr_eq h
  have hstart := startVaddr_eq hlt
  rw [blockSize]
  split
  · rename_i hle
    rw [if_pos hle] at hend
    exact sub64_eq (by omega) (by omega)
  · rename_i hle
    rw [if_neg hle] at hend
    rw [hend, sub64, Nat.zero_add]

/-- The block is whole pages, and no page is mapped beyond it. -/
theorem block_pages (hlt : phdr.vaddr < 2 ^ 64) (h : phdr.vaddr + phdr.memsz ≤ 2 ^ 64) :
    4096 ∣ phdr.startVaddr ∧ 4096 ∣ phdr.blockSize ∧ phdr.blockSize < 2 ^ 64 ∧
      phdr.pageCount * 4096 ≤ phdr.blockSize ∧
      (∀ k ≤ phdr.pageCount, phdr.startVaddr + 4096 * k < phdr.endVaddr ↔ k < phdr.pageCount) ∧
      ∀ k < phdr.pageCount, phdr.startVaddr + 4096 * k + 4096 ≤ 2 ^ 64 - 4096 := by
  have hend := endVaddr_eq h
  have hblock := blockSize_eq hlt h
  have hstart := startVaddr_eq hlt
  rw [pageCount]
  by_cases hle : phdr.vaddr + phdr.memsz ≤ 2 ^ 64 - 4096
  · rw [if_pos hle] at hend hblock
    refine ⟨by omega, by omega, by omega, by omega, fun k _ ↦ ⟨?_, ?_⟩, ?_⟩ <;> omega
  · rw [if_neg hle] at hend hblock
    refine ⟨by omega, by omega, by omega, by omega, fun k hk ↦ ?_, fun k hk ↦ ?_⟩ <;> omega

/-- A segment that is not larger than what a walk can tell apart has a block. -/
theorem Sized.of_le {n : Nat} (hn : n ≤ 5) (hlt : phdr.vaddr < 2 ^ 64)
    (hfile : phdr.filesz ≤ phdr.memsz) (hwrap : phdr.vaddr + phdr.memsz ≤ 2 ^ 64)
    (hle : phdr.memsz ≤ span n) : phdr.Sized := by
  have hspan : span n ≤ 2 ^ 57 := by
    rw [span_eq]
    exact Nat.pow_le_pow_right (by norm_num) (by omega)
  have hend := endVaddr_eq hwrap
  have hblock := blockSize_eq hlt hwrap
  have hstart := startVaddr_eq hlt
  refine ⟨hlt, hfile, hwrap, ?_⟩
  split at hblock
  · rename_i hle
    rw [if_pos hle] at hend
    omega
  · omega

end ElfProgramHeader

/-! ## The segments that are loaded -/

/-- A segment with the block it has got. -/
structure ElfSegment where
  phdr : ElfProgramHeader
  paddr : Nat

namespace ElfSegment

variable (d : ElfSegment)

/-- The allocation. -/
def block : Allocation := ⟨d.paddr, d.phdr.blockSize / ptmPageGranularity, .allocated⟩

/-- What is written down about it. -/
def record : BootinfoSegment :=
  ⟨d.phdr.vaddr, d.paddr + (d.phdr.vaddr - d.phdr.startVaddr), d.phdr.memsz, d.phdr.segmentFlags⟩

/-- The call for its page number `k`. -/
def page (k : Nat) : MapCall :=
  callOfPage (d.phdr.startVaddr + 4096 * k) (d.paddr + 4096 * k) d.phdr.ptmFlags

/-- The calls from page number `k` on. -/
def callsFrom (k : Nat) : List MapCall := (List.range' k (d.phdr.pageCount - k)).map d.page

/-- The byte at `b`, if that is in the block. -/
def content (image : Memory) (b : Nat) : UInt8 :=
  if d.record.paddr ≤ b ∧ b < d.record.paddr + d.phdr.filesz then
    image (d.phdr.offset + (b - d.record.paddr))
  else 0

variable {d}

theorem block_contains (hlt : d.phdr.vaddr < 2 ^ 64)
    (h : d.phdr.vaddr + d.phdr.memsz ≤ 2 ^ 64) (b : Nat) :
    d.block.Contains b ↔ d.paddr ≤ b ∧ b < d.paddr + d.phdr.blockSize := by
  obtain ⟨-, hdvd, -⟩ := ElfProgramHeader.block_pages hlt h
  show _ ∧ b < d.paddr + d.phdr.blockSize / 4096 * 4096 ↔ _
  rw [Nat.div_mul_cancel hdvd]
  rfl

end ElfSegment

section Loop

variable {limit : Nat} {hlimit : limit ≤ 2 ^ 56} {P : Type}
  {g : Pager (pmmFrames limit hlimit) P} {s s' : Machine PmmState} {U : Nat → Prop}
  {blocks : List Allocation} {d : ElfSegment}

/-- **The pages of a segment** are mapped, and nothing else happens. -/
theorem elfMapPages_run (hlt : d.phdr.vaddr < 2 ^ 64)
    (hwrap : d.phdr.vaddr + d.phdr.memsz ≤ 2 ^ 64) (hpal : 4096 ∣ d.paddr)
    (hroom : 0 < d.phdr.blockSize → d.paddr + d.phdr.blockSize ≤ limit) {fuel k : Nat}
    (hk : k ≤ d.phdr.pageCount) (h : g.Inv s U) (hb : Apart blocks s.frames U)
    (hs' : elfMapPages g.call d.phdr d.paddr fuel (d.phdr.startVaddr + 4096 * k) s = .ok s') :
    ∃ U', g.Inv s' U' ∧ Apart blocks s'.frames U' ∧
      (∀ y ∈ blocks, ∀ b, y.Contains b → s'.mem b = s.mem b) ∧
      ∀ a, g.translate s'.mem a = (d.callsFrom k).foldl (g.paint a) (g.translate s.mem a) := by
  obtain ⟨hstart, hdvd, hsize, hcount, hbound, hend⟩ := ElfProgramHeader.block_pages hlt hwrap
  induction fuel generalizing k s U with
  | zero => cases hs'
  | succ fuel ih =>
    rw [elfMapPages] at hs'
    by_cases hlast : k < d.phdr.pageCount
    · rw [if_pos ((hbound k hk).mpr hlast)] at hs'
      have hbelow := hend k hlast
      have hin : d.paddr + d.phdr.blockSize ≤ limit := hroom (by omega)
      -- no address wraps
      have hpage : add64 d.paddr (sub64 (d.phdr.startVaddr + 4096 * k) d.phdr.startVaddr) =
          d.paddr + 4096 * k := by
        rw [sub64_eq (by omega) (by omega), Nat.add_sub_cancel_left, add64_eq (by omega)]
      have hnext : add64 (d.phdr.startVaddr + 4096 * k) ptmPageGranularity =
          d.phdr.startVaddr + 4096 * (k + 1) := by
        rw [show ptmPageGranularity = 4096 from rfl, add64_eq (by omega)]
        ring
      rw [hpage, hnext] at hs'
      obtain ⟨t, ht, hs'⟩ := bind_eq_ok hs'
      obtain ⟨U₁, h₁, hb₁, hmem₁, htr₁⟩ := h.call hb (by omega) (by omega)
        (show 4096 ∣ d.paddr + 4096 * k by omega) (by omega) ht
      obtain ⟨U', h', hb', hmem', htr'⟩ := ih hlast h₁ hb₁ hs'
      refine ⟨U', h', hb', fun y hy b hyb ↦ (hmem' y hy b hyb).trans (hmem₁ y hy b hyb), fun a ↦ ?_⟩
      have hcons : d.callsFrom k = d.page k :: d.callsFrom (k + 1) := by
        rw [ElfSegment.callsFrom, show d.phdr.pageCount - k = d.phdr.pageCount - (k + 1) + 1 by omega,
          List.range'_succ]
        rfl
      rw [htr', htr₁, hcons, List.foldl_cons]
      rfl
    · rw [if_neg (mt (hbound k hk).mp hlast)] at hs'
      obtain rfl := Except.ok.inj hs'
      refine ⟨U, h, hb, fun _ _ _ _ ↦ rfl, fun a ↦ ?_⟩
      rw [ElfSegment.callsFrom, Nat.sub_eq_zero_of_le (Nat.le_of_not_lt hlast)]
      rfl

/-! ## What the loop over the headers keeps -/

/-- The segments `done` have been loaded since the memory was `start`. -/
structure ElfRun (g : Pager (pmmFrames limit hlimit) P) (image start : Memory)
    (done : List ElfSegment) (x : LoaderInfo × Machine PmmState) (U : Nat → Prop) : Prop where
  inv : g.Inv x.2 U
  apart : Apart (done.map ElfSegment.block) x.2.frames U
  disjoint : (done.map ElfSegment.block).Pairwise fun y z ↦ ∀ b, y.Contains b → ¬ z.Contains b
  segments : x.1.segments = done.map ElfSegment.record
  sized : ∀ d ∈ done, d.phdr.Sized
  below : ∀ d ∈ done, 0 < d.phdr.blockSize → d.paddr + d.phdr.blockSize ≤ limit
  bytes : ∀ d ∈ done, ∀ b, d.block.Contains b → x.2.mem b = d.content image b
  translate : ∀ a, g.translate x.2.mem a =
    (done.flatMap (·.callsFrom 0)).foldl (g.paint a) (g.translate start a)

/-- Copying writes to the block, and leaves the content of the segment there. -/
theorem elfCopy_spec (hd : d.phdr.Sized) (image mem : Memory) (b : Nat) :
    (d.block.Contains b → elfCopy image d.phdr d.paddr mem b = d.content image b) ∧
      (¬ d.block.Contains b → elfCopy image d.phdr d.paddr mem b = mem b) := by
  have hfile := hd.file_le
  have hroom := hd.room
  have hstart := ElfProgramHeader.startVaddr_eq hd.lt
  rw [ElfSegment.block_contains hd.lt hd.no_wrap, elfCopy, ElfSegment.content]
  simp only [ElfSegment.record]
  constructor
  · intro hb
    exact if_congr Iff.rfl rfl (Memory.fill_of_mem hb.1 hb.2)
  · intro hb
    rw [if_neg (by omega)]
    exact Memory.fill_of_not_mem hb

/-- **One segment.** -/
theorem ElfRun.load {image start : Memory} {done : List ElfSegment} {phdr : ElfProgramHeader}
    {x y : LoaderInfo × Machine PmmState} (h : ElfRun g image start done x U) (hp : phdr.Sized)
    (hy : elfHandlePtLoad g.call image phdr x = .ok y) :
    ∃ paddr U', ElfRun g image start (done ++ [⟨phdr, paddr⟩]) y U' := by
  obtain ⟨r, hr, hy⟩ := bind_eq_ok hy
  obtain ⟨t, ht, rfl⟩ := map_eq_ok hy
  obtain ⟨-, hdvd, hsize, -⟩ := ElfProgramHeader.block_pages hp.lt hp.no_wrap
  obtain ⟨C, hown, hC, hU⟩ := h.inv.owns
  have hserves : x.2.frames.Serves (phdr.blockSize / ptmPageGranularity) ptmPageGranularity
      .allocated := by
    refine ⟨by decide, by decide, ?_, (hown.serves_frame hC hlimit).2.2.2⟩
    exact (Nat.div_mul_le_self _ _).trans_lt hsize
  rcases hown.pmmAllocExt_spec hserves with ⟨r', hr', hown', hh⟩ | ⟨e, he, -⟩
  swap
  · cases hr.symm.trans he
  obtain rfl : r = r' := Except.ok.inj (hr.symm.trans hr')
  set d : ElfSegment := ⟨phdr, r.1⟩ with hd
  have hpal : 4096 ∣ d.paddr := hh.aligned
  have hbelow : 0 < d.phdr.blockSize → d.paddr + d.phdr.blockSize ≤ limit := by
    intro hpos
    have hspan : d.block.span.length = d.phdr.blockSize := Nat.div_mul_cancel hdvd
    have hstop := hown'.held_stop_le hC (y := d.block) List.mem_cons_self (by omega)
    rwa [Span.stop, hspan] at hstop
  -- the block is apart from the tables and from the blocks before it
  have hinv : g.Inv ⟨x.2.mem, x.2.frames.hand _ .allocated r⟩ U := h.inv.hand hC hown' hU
  have hapart : Apart (d.block :: done.map ElfSegment.block)
      (x.2.frames.hand _ .allocated r) U := h.apart.hand hU hh
  have hnew : ∀ y ∈ done.map ElfSegment.block, ∀ b, y.Contains b → ¬ d.block.Contains b :=
    fun y hy ↦ hh.disjoint y (h.apart y hy).1
  obtain ⟨U', hinv', hapart', hmem', htr'⟩ := elfMapPages_run (d := d) (k := 0) hp.lt hp.no_wrap
    hpal hbelow (Nat.zero_le _) hinv hapart ht
  have hcopy := elfCopy_spec (d := d) hp image t.mem
  have hout : ∀ f, U' f → ∀ b, Page f b → elfCopy image phdr r.1 t.mem b = t.mem b :=
    fun f hf b hb ↦ (hcopy b).2 fun hdb ↦
      (hapart' d.block List.mem_cons_self).2 f hf b hb hdb
  obtain ⟨hwrite, htrw⟩ := hinv'.write hout
  refine ⟨r.1, U', hwrite, ?_, ?_, ?_, ?_, ?_, ?_, fun a ↦ ?_⟩
  · intro y hy
    rw [List.map_append, List.mem_append] at hy
    rcases hy with hy | hy
    · exact hapart' y (List.mem_cons_of_mem _ hy)
    · obtain rfl := List.mem_singleton.mp hy
      exact hapart' _ List.mem_cons_self
  · rw [List.map_append, List.pairwise_append]
    refine ⟨h.disjoint, List.pairwise_singleton _ _, fun y hy z hz ↦ ?_⟩
    obtain rfl := List.mem_singleton.mp hz
    exact hnew y hy
  · rw [List.map_append, ← h.segments]
    rfl
  · exact List.forall_mem_append.mpr ⟨h.sized, List.forall_mem_singleton.mpr hp⟩
  · exact List.forall_mem_append.mpr ⟨h.below, List.forall_mem_singleton.mpr hbelow⟩
  · refine List.forall_mem_append.mpr ⟨fun e he b hb ↦ ?_, List.forall_mem_singleton.mpr fun b hb ↦
      (hcopy b).1 hb⟩
    have hmem := List.mem_map_of_mem (f := ElfSegment.block) he
    exact ((hcopy b).2 (hnew _ hmem b hb)).trans
      ((hmem' _ (List.mem_cons_of_mem _ hmem) b hb).trans (h.bytes e he b hb))
  · rw [htrw, htr', List.flatMap_append, List.foldl_append, ← h.translate]
    show _ = (([d] : List ElfSegment).flatMap (·.callsFrom 0)).foldl _ _
    rw [List.flatMap_singleton]

/-- **All segments.** -/
theorem ElfRun.run {image start : Memory} {done : List ElfSegment} {phdrs : List ElfProgramHeader}
    {x y : LoaderInfo × Machine PmmState} (h : ElfRun g image start done x U)
    (hp : ∀ phdr ∈ phdrs, phdr.isLoad = true → phdr.Sized)
    (hy : elfLoadSegments g.call image phdrs x = .ok y) :
    ∃ new U', ElfRun g image start (done ++ new) y U' ∧
      new.map ElfSegment.phdr = phdrs.filter ElfProgramHeader.isLoad := by
  induction phdrs generalizing x U done with
  | nil =>
    cases hy
    exact ⟨[], U, (List.append_nil done).symm ▸ h, rfl⟩
  | cons phdr phdrs ih =>
    obtain ⟨hphdr, hrest⟩ := List.forall_mem_cons.mp hp
    by_cases hload : phdr.isLoad = true
    · rw [elfLoadSegments_cons_load hload] at hy
      obtain ⟨z, hz, hy⟩ := bind_eq_ok hy
      obtain ⟨paddr, U₁, h₁⟩ := h.load (hphdr hload) hz
      obtain ⟨new, U', h', hnew⟩ := ih h₁ hrest hy
      refine ⟨⟨phdr, paddr⟩ :: new, U', ?_, ?_⟩
      · rwa [List.append_assoc] at h'
      · rw [List.map_cons, hnew, List.filter_cons_of_pos hload]
    · rw [elfLoadSegments_cons_skip hload] at hy
      rw [List.filter_cons_of_neg hload]
      exact ih h hrest hy

end Loop

/-! ## Which bytes can be seen -/

/-- An address of a page, as a walk sees it. -/
theorem page_mod {v : Nat} (hv : 4096 ∣ v) {r : Nat} (hr : r < 4096) (n : Nat) :
    (v + r) % span n = v % span n + r := by
  have hwin := page_window hv n
  rw [← Nat.mod_add_mod, Nat.mod_eq_of_lt (by omega)]

/-- The call for a page is for the addresses that a walk cannot tell from those of the page. -/
theorem callOfPage_meets_iff {v p flags n a : Nat} (hv : 4096 ∣ v) :
    (callOfPage v p flags).Meets n a ↔ ∃ r < 4096, (v + r) % span n = a % span n := by
  constructor
  · rintro ⟨h1, h2⟩
    have h2 : a % span n < v % span n + 4096 := h2
    refine ⟨a % span n - v % span n, by omega, ?_⟩
    rw [page_mod hv (by omega)]
    exact Nat.add_sub_cancel' h1
  · rintro ⟨r, hr, heq⟩
    rw [page_mod hv hr] at heq
    refine ⟨?_, ?_⟩
    · rw [← heq]
      exact Nat.le_add_right _ _
    · rw [← heq]
      exact Nat.add_lt_add_left hr _

/-- The byte at `a` of the segment can be seen there in the end, if `later` are the headers that
are handled after it, and a walk of `n` levels looks the address up.  `canonical` are the addresses
that the processor takes, and `leaf` the flags that make a leaf. -/
structure ElfProgramHeader.Visible (n : Nat) (canonical leaf : Nat → Prop) (phdr : ElfProgramHeader)
    (later : List ElfProgramHeader) (a : Nat) : Prop where
  canonical : canonical a
  leaf : leaf phdr.ptmFlags
  mapped : a < phdr.endVaddr
  /-- No later page of the segment itself is at the same place. -/
  own : ∀ b, phdr.Holds b → b % span n = a % span n → b ≤ a
  later : ∀ e ∈ later, ∀ b, e.Holds b → b % span n ≠ a % span n

section Shown

variable {limit : Nat} {hlimit : limit ≤ 2 ^ 56} {P : Type}
  {g : Pager (pmmFrames limit hlimit) P} {d : ElfSegment} {c : MapCall} {a b k : Nat}

/-- What a call for a page of the segment makes of an address. -/
theorem ElfSegment.of_mem_callsFrom (hd : d.phdr.Sized) (hc : c ∈ d.callsFrom k)
    (ha : c.Meets g.levels a) : ∃ b, d.phdr.Holds b ∧ d.phdr.startVaddr + 4096 * k ≤ b ∧
      b % span g.levels = a % span g.levels ∧
      g.value a c = (g.perm d.phdr.ptmFlags).map
        (Prod.mk (d.paddr + (b - d.phdr.startVaddr))) := by
  obtain ⟨hstart, -, -, -, hbound, -⟩ := ElfProgramHeader.block_pages hd.lt hd.no_wrap
  obtain ⟨j, hj, rfl⟩ := List.mem_map.mp hc
  rw [List.mem_range'_1] at hj
  have hlast := (hbound j (by omega)).mpr (by omega)
  have hend : 4096 ∣ d.phdr.endVaddr := by
    rw [ElfProgramHeader.endVaddr_eq hd.no_wrap]
    split <;> omega
  have hv : 4096 ∣ d.phdr.startVaddr + 4096 * j := by omega
  obtain ⟨r, hr, heq⟩ := (callOfPage_meets_iff hv).mp ha
  refine ⟨d.phdr.startVaddr + 4096 * j + r, ⟨by omega, by omega⟩, by omega, heq, ?_⟩
  rw [page_mod hv hr] at heq
  show (g.perm d.phdr.ptmFlags).map (Prod.mk (d.paddr + 4096 * j +
    (a % span g.levels - (d.phdr.startVaddr + 4096 * j) % span g.levels))) = _
  rw [← heq, Nat.add_sub_cancel_left, show d.paddr + 4096 * j + r =
    d.paddr + (d.phdr.startVaddr + 4096 * j + r - d.phdr.startVaddr) by omega]

/-- There is such a call, if the segment has a page for the address. -/
theorem ElfSegment.exists_callsFrom (hd : d.phdr.Sized) (hb : d.phdr.Holds b)
    (hk : d.phdr.startVaddr + 4096 * k ≤ b) {n : Nat} (hba : b % span n = a % span n) :
    ∃ c ∈ d.callsFrom k, c.Meets n a := by
  obtain ⟨hstart, -, -, -, -, -⟩ := ElfProgramHeader.block_pages hd.lt hd.no_wrap
  have hend := hb.2
  have hcount : d.phdr.pageCount = (d.phdr.endVaddr - d.phdr.startVaddr) / 4096 := rfl
  have hend' : 4096 ∣ d.phdr.endVaddr := by
    rw [ElfProgramHeader.endVaddr_eq hd.no_wrap]
    split <;> omega
  refine ⟨d.page ((b - d.phdr.startVaddr) / 4096), List.mem_map_of_mem ?_, ?_⟩
  · rw [List.mem_range'_1]
    omega
  · refine (callOfPage_meets_iff (by omega)).mpr ⟨(b - d.phdr.startVaddr) % 4096, by omega, ?_⟩
    rw [← hba]
    congr 1
    have := hb.1
    omega

/-- The calls before a page, and those from it on. -/
theorem ElfSegment.callsFrom_append (hk : k ≤ d.phdr.pageCount) :
    ∃ l, d.callsFrom 0 = l ++ d.callsFrom k := by
  refine ⟨(List.range' 0 k).map d.page, ?_⟩
  rw [callsFrom, callsFrom, ← List.map_append, Nat.sub_zero]
  congr 1
  have happend := @List.range'_append 0 k (d.phdr.pageCount - k) 1
  rw [Nat.zero_add, Nat.one_mul, Nat.add_sub_cancel' hk] at happend
  exact happend.symm

/-- What the calls for a segment map lies in its block. -/
theorem ElfSegment.value_mem (hd : d.phdr.Sized) (hc : c ∈ d.callsFrom k)
    (ha : c.Meets g.levels a) {x : Nat} {q : P} (hv : g.value a c = some (x, q)) :
    d.block.Contains x := by
  obtain ⟨-, -, -, hcount, -, -⟩ := ElfProgramHeader.block_pages hd.lt hd.no_wrap
  obtain ⟨b, hb, -, -, hval⟩ := ElfSegment.of_mem_callsFrom hd hc ha
  obtain ⟨q', -, hq⟩ := Option.map_eq_some_iff.mp (hval.symm.trans hv)
  obtain rfl : d.paddr + (b - d.phdr.startVaddr) = x := congrArg Prod.fst hq
  rw [ElfSegment.block_contains hd.lt hd.no_wrap]
  have h1 := hb.1
  have h2 := hb.2
  have hle : d.phdr.endVaddr - d.phdr.startVaddr ≤ d.phdr.blockSize := by
    have hend := ElfProgramHeader.endVaddr_eq hd.no_wrap
    have hblock := ElfProgramHeader.blockSize_eq hd.lt hd.no_wrap
    split at hend
    · rename_i hle
      rw [if_pos hle] at hblock
      omega
    · omega
  omega

variable {image start : Memory} {pre post : List ElfSegment} {x : LoaderInfo × Machine PmmState}
  {U : Nat → Prop}

/-- **What can be seen stays**: the last page for the address is its own. -/
theorem ElfRun.shown (h : ElfRun g image start (pre ++ d :: post) x U) {canonical : Nat → Prop}
    (ha : d.phdr.vaddr ≤ a)
    (hv : d.phdr.Visible g.levels canonical (fun flags ↦ g.perm flags ≠ none)
      (post.map ElfSegment.phdr) a) :
    ∃ q, g.translate x.2.mem a = some (d.record.paddr + (a - d.phdr.vaddr), q) := by
  have hd := h.sized d (List.mem_append_right _ List.mem_cons_self)
  have hstart := ElfProgramHeader.startVaddr_eq hd.lt
  have hholds : d.phdr.Holds a := ⟨by omega, hv.mapped⟩
  have hend := hv.mapped
  have hcount : d.phdr.pageCount = (d.phdr.endVaddr - d.phdr.startVaddr) / 4096 := rfl
  obtain ⟨q, hq⟩ := Option.ne_none_iff_exists'.mp hv.leaf
  obtain ⟨l, hl⟩ := d.callsFrom_append
    (show (a - d.phdr.startVaddr) / 4096 ≤ d.phdr.pageCount by
      rw [hcount]
      exact Nat.div_le_div_right (by omega))
  refine ⟨q, ?_⟩
  rw [h.translate, List.flatMap_append, List.flatMap_cons, hl, List.append_assoc,
    List.foldl_append, List.foldl_append, List.foldl_append, Pager.foldl_paint_of_not_meets]
  · refine Pager.foldl_paint_of_value (fun c hc hca ↦ ?_)
      (ElfSegment.exists_callsFrom hd hholds (by omega) rfl)
    obtain ⟨b, hb, hkb, hba, hval⟩ := ElfSegment.of_mem_callsFrom hd hc hca
    -- an address before `a` that the walk takes for `a` would be a window away
    have hle := hv.own b hb hba
    obtain rfl : b = a := by
      have hmod : a % span g.levels = (b + (a - b)) % span g.levels := by
        rw [Nat.add_sub_cancel' hle]
      obtain ⟨t, ht⟩ := (Nat.modEq_iff_dvd' hle).mp hba
      have h4096 := Nat.le_of_dvd (span_pos g.levels) (page_dvd_span g.levels)
      rcases Nat.eq_zero_or_pos t with rfl | hpos
      · omega
      · have := Nat.le_mul_of_pos_right (span g.levels) hpos
        omega
    rw [hval, hq]
    show some (d.paddr + (b - d.phdr.startVaddr), q) =
      some (d.paddr + (d.phdr.vaddr - d.phdr.startVaddr) + (b - d.phdr.vaddr), q)
    congr 2
    omega
  · intro c hc hca
    obtain ⟨e, he, hce⟩ := List.mem_flatMap.mp hc
    have hsized := h.sized e (List.mem_append_right _ (List.mem_cons_of_mem _ he))
    obtain ⟨b, hb, -, hba, -⟩ := ElfSegment.of_mem_callsFrom hsized hce hca
    exact hv.later _ (List.mem_map_of_mem he) b hb hba

/-- **What can be seen was not covered**, at an address that nothing was mapped at before. -/
theorem ElfRun.visible (h : ElfRun g image start (pre ++ d :: post) x U) {canonical : Nat → Prop}
    (hcan : canonical a) (ha : d.phdr.vaddr ≤ a) (ha' : a < d.phdr.vaddr + d.phdr.memsz)
    (hfresh : g.translate start a = none) {q : P}
    (hq : g.translate x.2.mem a = some (d.record.paddr + (a - d.phdr.vaddr), q)) :
    d.phdr.Visible g.levels canonical (fun flags ↦ g.perm flags ≠ none)
      (post.map ElfSegment.phdr) a := by
  have hdmem : d ∈ pre ++ d :: post := List.mem_append_right _ List.mem_cons_self
  have hd := h.sized d hdmem
  have hroom := hd.room
  have hstart := ElfProgramHeader.startVaddr_eq hd.lt
  have haddr : d.record.paddr + (a - d.phdr.vaddr) = d.paddr + (a - d.phdr.startVaddr) := by
    show d.paddr + (d.phdr.vaddr - d.phdr.startVaddr) + (a - d.phdr.vaddr) = _
    omega
  rw [haddr] at hq
  have hblock : d.block.Contains (d.paddr + (a - d.phdr.startVaddr)) := by
    rw [ElfSegment.block_contains hd.lt hd.no_wrap]
    omega
  -- it is not from a call for another segment
  have hother : ∀ e ∈ pre ++ post, ∀ (k : Nat), ∀ c ∈ e.callsFrom k, c.Meets g.levels a →
      g.value a c ≠ some (d.paddr + (a - d.phdr.startVaddr), q) := by
    intro e he k c hc hca hval
    have hdisj := h.disjoint
    rw [List.map_append, List.map_cons, List.pairwise_append, List.pairwise_cons] at hdisj
    obtain ⟨-, ⟨hpost, -⟩, hpre⟩ := hdisj
    rcases List.mem_append.mp he with he | he
    · have hsized := h.sized e (List.mem_append_left _ he)
      exact hpre _ (List.mem_map_of_mem he) _ List.mem_cons_self _
        (ElfSegment.value_mem hsized hc hca hval) hblock
    · have hsized := h.sized e (List.mem_append_right _ (List.mem_cons_of_mem _ he))
      exact hpost _ (List.mem_map_of_mem he) _ hblock
        (ElfSegment.value_mem hsized hc hca hval)
  -- it is from the last call, whichever that is
  have hcalls : (pre ++ d :: post).flatMap (·.callsFrom 0) =
      pre.flatMap (·.callsFrom 0) ++ (d.callsFrom 0 ++ post.flatMap (·.callsFrom 0)) := by
    rw [List.flatMap_append, List.flatMap_cons]
  rw [h.translate, hcalls] at hq
  have hlater : ∀ e ∈ post, ∀ b, e.phdr.Holds b → b % span g.levels ≠ a % span g.levels := by
    intro e he b hb hba
    have hsized := h.sized e (List.mem_append_right _ (List.mem_cons_of_mem _ he))
    obtain ⟨c, hc, hca⟩ := ElfSegment.exists_callsFrom (k := 0) hsized hb hb.1 hba
    have hex : ∃ c ∈ post.flatMap (·.callsFrom 0), c.Meets g.levels a :=
      ⟨c, List.mem_flatMap.mpr ⟨e, he, hc⟩, hca⟩
    obtain ⟨c', hc', hca', hval⟩ := Pager.foldl_paint_append (g.translate start a)
      (pre.flatMap (·.callsFrom 0) ++ d.callsFrom 0) hex
    obtain ⟨e', he', hce'⟩ := List.mem_flatMap.mp hc'
    rw [List.append_assoc, hq] at hval
    exact hother e' (List.mem_append_right _ he') 0 c' hce' hca' hval.symm
  have hmapped : a < d.phdr.endVaddr := by
    by_contra hno
    have hnil : d.callsFrom 0 = [] := by
      have hend := ElfProgramHeader.endVaddr_eq hd.no_wrap
      rw [ElfSegment.callsFrom, ElfProgramHeader.pageCount, Nat.sub_zero,
        show (d.phdr.endVaddr - d.phdr.startVaddr) / 4096 = 0 by split at hend <;> omega]
      rfl
    rw [hnil, List.nil_append, ← List.flatMap_append] at hq
    by_cases hex : ∃ c ∈ (pre ++ post).flatMap (·.callsFrom 0), c.Meets g.levels a
    · obtain ⟨c, hc, hca, hval⟩ := Pager.foldl_paint_append (g.translate start a) [] hex
      obtain ⟨e, he, hce⟩ := List.mem_flatMap.mp hc
      rw [List.nil_append, hq] at hval
      exact hother e he 0 c hce hca hval.symm
    · push Not at hex
      rw [Pager.foldl_paint_of_not_meets hex, hfresh] at hq
      cases hq
  have hholds : d.phdr.Holds a := ⟨by omega, hmapped⟩
  -- from a page of the segment on, it is from a call for the segment
  have hself : ∀ k ≤ d.phdr.pageCount, ∀ b, d.phdr.Holds b → d.phdr.startVaddr + 4096 * k ≤ b →
      b % span g.levels = a % span g.levels → ∃ c ∈ d.callsFrom k, c.Meets g.levels a ∧
        g.value a c = some (d.paddr + (a - d.phdr.startVaddr), q) := by
    intro k hk b hb hkb hba
    obtain ⟨l, hl⟩ := d.callsFrom_append hk
    obtain ⟨c, hc, hca⟩ := ElfSegment.exists_callsFrom hd hb hkb hba
    have hex : ∃ c ∈ d.callsFrom k ++ post.flatMap (·.callsFrom 0), c.Meets g.levels a :=
      ⟨c, List.mem_append_left _ hc, hca⟩
    obtain ⟨c', hc', hca', hval⟩ := Pager.foldl_paint_append (g.translate start a)
      (pre.flatMap (·.callsFrom 0) ++ l) hex
    rw [hl, List.append_assoc, ← List.append_assoc] at hq
    rw [hq] at hval
    rcases List.mem_append.mp hc' with hc' | hc'
    · exact ⟨c', hc', hca', hval.symm⟩
    · obtain ⟨e, he, hce⟩ := List.mem_flatMap.mp hc'
      exact absurd hval.symm (hother e (List.mem_append_right _ he) 0 c' hce hca')
  refine ⟨hcan, ?_, hmapped, fun b hb hba ↦ ?_, ?_⟩
  · obtain ⟨c, hc, hca, hval⟩ := hself 0 (Nat.zero_le _) a hholds (by omega) rfl
    obtain ⟨b, -, -, -, hb⟩ := ElfSegment.of_mem_callsFrom hd hc hca
    obtain ⟨q', hq', -⟩ := Option.map_eq_some_iff.mp (hb.symm.trans hval)
    exact Option.ne_none_iff_exists'.mpr ⟨q', hq'⟩
  · by_contra hlt
    have hgap : a + 4096 ≤ b := by
      obtain ⟨t, ht⟩ := (Nat.modEq_iff_dvd' (by omega)).mp hba.symm
      have h4096 := Nat.le_of_dvd (span_pos g.levels) (page_dvd_span g.levels)
      have := Nat.le_mul_of_pos_right (span g.levels) (Nat.pos_of_ne_zero (n := t) fun h0 ↦ by
        rw [h0] at ht
        omega)
      omega
    have hbend := hb.2
    have hcount : d.phdr.pageCount = (d.phdr.endVaddr - d.phdr.startVaddr) / 4096 := rfl
    obtain ⟨c, hc, hca, hval⟩ := hself ((b - d.phdr.startVaddr) / 4096)
      (by rw [hcount]; exact Nat.div_le_div_right (by omega)) b hb (by omega) hba
    obtain ⟨b', hb', hkb', -, hval'⟩ := ElfSegment.of_mem_callsFrom hd hc hca
    obtain ⟨q', -, hq'⟩ := Option.map_eq_some_iff.mp (hval'.symm.trans hval)
    have heq : d.paddr + (b' - d.phdr.startVaddr) = d.paddr + (a - d.phdr.startVaddr) :=
      congrArg Prod.fst hq'
    omega
  · intro e he
    obtain ⟨d', hd', rfl⟩ := List.mem_map.mp he
    exact hlater d' hd'

end Shown

/-! ## The whole image -/

/-- The `PT_LOAD` headers, in order. -/
def elfLoads (image : Memory) : List ElfProgramHeader :=
  (elfProgramHeaders image).filter ElfProgramHeader.isLoad

/-- An image of `size` bytes that `elf_supported` takes and whose program headers are sound. -/
structure ElfImage (machine size : Nat) (image : Memory) : Prop where
  supported : elfSupported machine image = true
  table : (elfHeader image).phoff + sizeofElfProgramHeader * (elfHeader image).phnum ≤ size
  file_le : ∀ phdr ∈ elfLoads image, phdr.filesz ≤ phdr.memsz
  inside : ∀ phdr ∈ elfLoads image, phdr.offset + phdr.filesz ≤ size
  no_wrap : ∀ phdr ∈ elfLoads image, phdr.vaddr + phdr.memsz ≤ 2 ^ 64

/-- The record is that of the header. -/
def BootinfoSegment.IsOf (seg : BootinfoSegment) (phdr : ElfProgramHeader) : Prop :=
  seg.vaddr = phdr.vaddr ∧ seg.size = phdr.memsz ∧ seg.flags = phdr.segmentFlags

/-- The kernel is loaded as its headers say; `x` is what `internal_elf_load_image` leaves, and
`see` is the translation of the new tables. -/
structure ElfLoaded {P : Type} (see : Memory → Nat → Option (Nat × P)) (image : Memory)
    (x : LoaderInfo × Machine PmmState) : Prop where
  records : List.Forall₂ BootinfoSegment.IsOf x.1.segments (elfLoads image)
  translated : ∀ seg ∈ x.1.segments, ∀ o < seg.size,
    ∃ q, see x.2.mem (seg.vaddr + o) = some (seg.paddr + o, q)
  bytes : ∀ phdr ∈ elfLoads image, ∀ o < phdr.memsz,
    ∃ b q, see x.2.mem (phdr.vaddr + o) = some (b, q) ∧
      x.2.mem b = if o < phdr.filesz then image (phdr.offset + o) else 0
  base_le : ∀ phdr ∈ elfLoads image, x.1.kernelBase ≤ phdr.vaddr
  base_mem : elfLoads image ≠ [] → ∃ phdr ∈ elfLoads image, x.1.kernelBase = phdr.vaddr

/-- Every byte of every segment can be seen in the end. -/
def ElfVisible (n : Nat) (canonical leaf : Nat → Prop) (image : Memory) : Prop :=
  ∀ pre phdr post, elfLoads image = pre ++ phdr :: post → ∀ o < phdr.memsz,
    phdr.Visible n canonical leaf post (phdr.vaddr + o)

/-- Nothing was mapped where the kernel goes. -/
def ElfFresh {P : Type} (see : Memory → Nat → Option (Nat × P)) (image mem : Memory) : Prop :=
  ∀ phdr ∈ elfLoads image, ∀ o < phdr.memsz, see mem (phdr.vaddr + o) = none

section Image

variable {limit : Nat} {hlimit : limit ≤ 2 ^ 56} {P : Type}
  {g : Pager (pmmFrames limit hlimit) P} {s : Machine PmmState} {U : Nat → Prop}
  {image : Memory} {y : LoaderInfo × Machine PmmState}

theorem elfLoads_lt {phdr : ElfProgramHeader} (h : phdr ∈ elfLoads image) :
    phdr.vaddr < 2 ^ 64 := elfProgramHeader_vaddr_lt image (List.mem_of_mem_filter h)

/-- **A call that returns** has loaded each segment. -/
theorem elfLoadImage_run (h : g.Inv s U) (hp : ∀ phdr ∈ elfLoads image, phdr.Sized)
    (hy : elfLoadImage g.call image s = .ok y) :
    ∃ done U', ElfRun g image s.mem done y U' ∧ done.map ElfSegment.phdr = elfLoads image := by
  obtain ⟨r, hr, hy⟩ := bind_eq_ok hy
  obtain ⟨C, hown, hC, hU⟩ := h.owns
  set n := mathAlignUp (mul64 ((elfProgramHeaders image).countP ElfProgramHeader.isLoad)
    sizeofBootinfoSegment) ptmPageGranularity / ptmPageGranularity with hn
  have hserves : s.frames.Serves n ptmPageGranularity .allocated := by
    refine ⟨by decide, by decide, ?_, (hown.serves_frame hC hlimit).2.2.2⟩
    refine (Nat.div_mul_le_self _ _).trans_lt (Nat.and_le_left.trans_lt ?_)
    exact Nat.mod_lt _ (Nat.two_pow_pos 64)
  rcases hown.pmmAllocExt_spec hserves with ⟨r', hr', hown', hh⟩ | ⟨e, he, -⟩
  swap
  · cases hr.symm.trans he
  obtain rfl : r = r' := Except.ok.inj (hr.symm.trans hr')
  have hstart : ElfRun g image s.mem [] (⟨2 ^ 64 - 1, []⟩, ⟨s.mem, s.frames.hand n .allocated r⟩)
      U :=
    { inv := h.hand hC hown' hU
      apart := fun y hy ↦ absurd hy List.not_mem_nil
      disjoint := List.Pairwise.nil
      segments := rfl
      sized := fun d hd ↦ absurd hd List.not_mem_nil
      below := fun d hd ↦ absurd hd List.not_mem_nil
      bytes := fun d hd ↦ absurd hd List.not_mem_nil
      translate := fun a ↦ rfl }
  obtain ⟨done, U', hrun, hdone⟩ := hstart.run
    (fun phdr hphdr hload ↦ hp phdr (List.mem_filter.mpr ⟨hphdr, hload⟩)) hy
  exact ⟨done, U', hrun, hdone⟩

/-- The records are those of the segments that were loaded. -/
theorem ElfRun.records {start : Memory} {done : List ElfSegment}
    (h : ElfRun g image start done y U) (hdone : done.map ElfSegment.phdr = elfLoads image) :
    List.Forall₂ BootinfoSegment.IsOf y.1.segments (elfLoads image) := by
  rw [h.segments, ← hdone, List.forall₂_map_left_iff, List.forall₂_map_right_iff]
  exact List.forall₂_same.mpr fun d _ ↦ ⟨rfl, rfl, rfl⟩

/-- A segment that can be seen has a block that holds it. -/
theorem ElfProgramHeader.Visible.sized {n : Nat} {canonical leaf : Nat → Prop}
    {phdr : ElfProgramHeader} {later : List ElfProgramHeader} (hlt : phdr.vaddr < 2 ^ 64)
    (hfile : phdr.filesz ≤ phdr.memsz) (hwrap : phdr.vaddr + phdr.memsz ≤ 2 ^ 64) (hn : n ≤ 5)
    (h : ∀ o < phdr.memsz, phdr.Visible n canonical leaf later (phdr.vaddr + o)) :
    phdr.Sized := by
  rcases Nat.eq_zero_or_pos phdr.memsz with hzero | hpos
  · exact .of_le hn hlt hfile hwrap (by omega)
  · have hlast := (h (phdr.memsz - 1) (by omega)).mapped
    have hend := endVaddr_eq hwrap
    have hblock := blockSize_eq hlt hwrap
    have hstart := startVaddr_eq hlt
    by_cases hle : phdr.vaddr + phdr.memsz ≤ 2 ^ 64 - 4096
    · rw [if_pos hle] at hend hblock
      exact ⟨hlt, hfile, hwrap, by omega⟩
    · rw [if_neg hle] at hend
      omega

/-- What the processor makes of the tables: addresses that are not canonical have no translation,
and an entry is a leaf if the flags make one. -/
structure Pager.Sees (g : Pager (pmmFrames limit hlimit) P)
    (see : Memory → Nat → Option (Nat × P)) (canonical leaf : Nat → Prop) : Prop where
  see_iff : ∀ mem a v, see mem a = some v ↔ canonical a ∧ g.translate mem a = some v
  leaf_iff : ∀ flags, leaf flags ↔ g.perm flags ≠ none

variable {see : Memory → Nat → Option (Nat × P)} {canonical leaf : Nat → Prop} {start : Memory}
  {done pre post : List ElfSegment} {d : ElfSegment} {a : Nat}

/-- A byte of a loaded segment is shown at its address if no other page is at the same place. -/
theorem ElfRun.sees (h : ElfRun g image start (pre ++ d :: post) y U)
    (hg : g.Sees see canonical leaf) (ha : d.phdr.vaddr ≤ a)
    (hv : d.phdr.Visible g.levels canonical leaf (post.map ElfSegment.phdr) a) :
    ∃ q, see y.2.mem a = some (d.record.paddr + (a - d.phdr.vaddr), q) := by
  obtain ⟨q, hq⟩ := h.shown ha
    ⟨hv.canonical, (hg.leaf_iff _).mp hv.leaf, hv.mapped, hv.own, hv.later⟩
  exact ⟨q, (hg.see_iff _ _ _).mpr ⟨hv.canonical, hq⟩⟩

/-- And it is not shown there if another page is. -/
theorem ElfRun.of_see (h : ElfRun g image start (pre ++ d :: post) y U)
    (hg : g.Sees see canonical leaf) (ha : d.phdr.vaddr ≤ a)
    (ha' : a < d.phdr.vaddr + d.phdr.memsz) (hfresh : see start a = none) {q : P}
    (hq : see y.2.mem a = some (d.record.paddr + (a - d.phdr.vaddr), q)) :
    d.phdr.Visible g.levels canonical leaf (post.map ElfSegment.phdr) a := by
  obtain ⟨hcan, hq⟩ := (hg.see_iff _ _ _).mp hq
  have hnone : g.translate start a = none := by
    by_contra hne
    obtain ⟨v, hv⟩ := Option.ne_none_iff_exists'.mp hne
    rw [(hg.see_iff _ _ _).mpr ⟨hcan, hv⟩] at hfresh
    cases hfresh
  have hv := h.visible hcan ha ha' hnone hq
  exact ⟨hv.canonical, (hg.leaf_iff _).mpr hv.leaf, hv.mapped, hv.own, hv.later⟩

/-- The byte that the segment has at offset `o`. -/
theorem ElfRun.byte (h : ElfRun g image start done y U) (hd : d ∈ done) {o : Nat}
    (ho : o < d.phdr.memsz) : y.2.mem (d.record.paddr + o) =
      if o < d.phdr.filesz then image (d.phdr.offset + o) else 0 := by
  have hsized := h.sized d hd
  have hroom := hsized.room
  have hstart := ElfProgramHeader.startVaddr_eq hsized.lt
  have hpaddr : d.record.paddr = d.paddr + (d.phdr.vaddr - d.phdr.startVaddr) := rfl
  have hblock : d.block.Contains (d.record.paddr + o) := by
    rw [ElfSegment.block_contains hsized.lt hsized.no_wrap]
    omega
  rw [h.bytes d hd _ hblock, ElfSegment.content, Nat.add_sub_cancel_left]
  exact if_congr (by omega) rfl rfl

/-- **What is loaded as it should be**, if every byte can be seen. -/
theorem ElfVisible.loaded (hv : ElfVisible g.levels canonical leaf image)
    (hg : g.Sees see canonical leaf) (h : ElfRun g image start done y U)
    (hdone : done.map ElfSegment.phdr = elfLoads image)
    (hbase : y.1.kernelBase = kernelBase (2 ^ 64 - 1) (elfProgramHeaders image)) :
    ElfLoaded see image y := by
  have hsee : ∀ d ∈ done, ∀ o < d.phdr.memsz,
      ∃ q, see y.2.mem (d.phdr.vaddr + o) = some (d.record.paddr + o, q) := by
    intro d hd o ho
    obtain ⟨pre, post, rfl⟩ := List.append_of_mem hd
    rw [List.map_append, List.map_cons] at hdone
    have hq := h.sees hg (Nat.le_add_right _ o) (hv _ _ _ hdone.symm o ho)
    rwa [Nat.add_sub_cancel_left] at hq
  obtain ⟨hle, -, hmem⟩ := kernelBase_spec (2 ^ 64 - 1) (elfProgramHeaders image)
  rw [← hbase] at hle hmem
  refine ⟨h.records hdone, ?_, ?_, fun phdr hphdr ↦ ?_, fun hne ↦ ?_⟩
  · rw [h.segments]
    exact List.forall_mem_map.mpr hsee
  · rw [← hdone]
    refine List.forall_mem_map.mpr fun d hd o ho ↦ ?_
    obtain ⟨q, hq⟩ := hsee d hd o ho
    exact ⟨_, q, hq, h.byte hd ho⟩
  · exact hle phdr (List.mem_of_mem_filter hphdr) (List.mem_filter.mp hphdr).2
  · rcases hmem with htop | ⟨phdr, hphdr, hload, heq⟩
    · -- then every segment begins at the last address
      obtain ⟨phdr, hphdr⟩ := List.exists_mem_of_ne_nil _ hne
      have h1 := hle phdr (List.mem_of_mem_filter hphdr) (List.mem_filter.mp hphdr).2
      have h2 := elfLoads_lt hphdr
      exact ⟨phdr, hphdr, by omega⟩
    · exact ⟨phdr, List.mem_filter.mpr ⟨hphdr, hload⟩, heq⟩

end Image

section Arch

variable {limit : Nat} {hlimit : limit ≤ 2 ^ 56} {s : Machine PmmState} {image : Memory}
  {y : LoaderInfo × Machine PmmState} {size : Nat}

end Arch

/-! ## Two segments -/

end LunarPrekernel
