import LunarPrekernel.Elf.Defs
import LunarPrekernel.Pagedb.Cover

/-!
# Where the page database is

Whatever the memory map is like, a call of `pagedb_setup` that returns has kept to its own place: its
pages lie between the direct map and the kernel, each is mapped once, and each has a frame of its own
that was free before.  The snapshot the loop goes through has slots that are not live, but none of
them reaches behind the memory, and what a slot asks for twice is passed over.

* `Mapper.Inv.contained` — for any mapper.
* `pagedb_contained` — for the two architectures and any kernel image.
-/

set_option autoImplicit false

namespace LunarPrekernel

open SpanMap Span PmmMap PageTable Sweep

/-- The page database is where it should be; `x` is what `pagedb_setup` returns, and `start` was the
allocator before. -/
structure PagedbContained (hhdmOffset size : Nat) (phdrs : List ElfProgramHeader)
    (start : PmmState) (x : (Nat × Nat) × Pagedb) : Prop where
  inside : ∀ p ∈ x.2.pages, x.1.1 ≤ p.1 ∧ p.1 + 4096 ≤ x.1.1 + x.1.2
  /-- The direct map, rounded up to whole pages, ends before. -/
  hhdm : hhdmOffset + mathAlignUp size ptmPageGranularity ≤ x.1.1
  kernel : ∀ phdr ∈ phdrs, phdr.isLoad = true → ∀ a, phdr.Holds a → ¬ (x.1.1 ≤ a ∧ a < x.1.1 + x.1.2)
  aligned : ∀ p ∈ x.2.pages, 4096 ∣ p.1 ∧ 4096 ∣ p.2
  once : (x.2.pages.map Prod.fst).Nodup
  distinct : (x.2.pages.map Prod.snd).Nodup
  was_free : ∀ p ∈ x.2.pages, ∀ b, (pageFrame p).Contains b → typeAt start.map.live b = some .free
  used : ∀ p ∈ x.2.pages, ∀ b, (pageFrame p).Contains b →
    typeAt x.2.machine.frames.map.live b = some .used

/-! ## The kernel -/

/-- Whole pages that end below the kernel meet no page of it. -/
theorem kernel_disjoint {image : Memory} {stop : Nat} (hstop : 4096 ∣ stop)
    (hle : stop ≤ kernelBase (2 ^ 64 - 1) (elfProgramHeaders image)) {phdr : ElfProgramHeader}
    (hphdr : phdr ∈ elfProgramHeaders image) (hload : phdr.isLoad = true) {a : Nat}
    (ha : phdr.Holds a) : stop ≤ a := by
  have hbase := (kernelBase_spec (2 ^ 64 - 1) (elfProgramHeaders image)).1 phdr hphdr hload
  have hstart := ha.1
  rw [ElfProgramHeader.startVaddr_eq (elfProgramHeader_vaddr_lt image hphdr)] at hstart
  omega

/-! ## The database -/

section Main

variable {limit : Nat} {hlimit : limit ≤ 2 ^ 56} {P : Type}
  {m : Mapper (pmmFrames limit hlimit) P} {s : Machine PmmState} {U : Nat → Prop}
  {hhdmOffset size es : Nat} {image : Memory} {x : (Nat × Nat) × Pagedb}

/-- **A call that returns** keeps to its own place. -/
theorem Mapper.Inv.contained (hkeeps : m.Keeps) (h : m.Inv s U) (hfit : DbFits hhdmOffset size es)
    (hw : m.DbWindow limit (hhdmOffset + size + 4096) (dbPages size es))
    (hsize : ∀ e ∈ s.frames.map.live, e.stop ≤ size)
    (hx : pagedbSetup m.call hhdmOffset size (kernelBase (2 ^ 64 - 1) (elfProgramHeaders image)) es s
      = .ok x) : PagedbContained hhdmOffset size (elfProgramHeaders image) s.frames x := by
  obtain ⟨C, hinv, hC, -⟩ := h.owns
  obtain ⟨hkernel, hrange, -, r, hr, -, y, hy, frames, hfree, hx'⟩ := h.pagedbSetup_ok hfit hsize hx
  obtain ⟨hafter, htaken, hstart⟩ := PagedbInv.start (W := fun _ ↦ False) h hr fun a ha ↦ ha.elim
  have hlt : ∀ q ∈ dbSweep es (snapshotEntries s.frames.map r.2), q < dbPages size es :=
    fun q hq ↦ dbSweep_lt (htaken.stop_le hafter.wf hsize) hq
  obtain ⟨hdone, hsince, hals, hpages⟩ := hstart.run_ok hkeeps (fun q hq g hg ↦ by
    have := hlt q hq
    exact hw.fits _ g (by omega) (by omega) hg) hy
  have hpages : y.pages.map Prod.fst = (dbSweep es (snapshotEntries s.frames.map r.2)).map
      fun q ↦ hhdmOffset + size + 4096 + 4096 * q := hpages
  -- the frames of the database are out, and giving the snapshot back leaves them so
  obtain ⟨U', howns⟩ := hdone.inv
  obtain ⟨C', hinv', -⟩ := howns.owns
  have hsnap : (⟨snapshotEntries s.frames.map r.2, r.1, snapshotBytes s.frames.map⟩ :
      PmmMapSnapshot).allocation ∈ y.machine.frames.held :=
    hsince.held _ List.mem_cons_self
  obtain ⟨hinv'', hheld⟩ := freeSnapshot_spec hinv' hsnap hfree
  obtain ⟨⟨start, pages⟩, t⟩ := x
  obtain ⟨rfl, rfl⟩ := Prod.mk.inj hrange
  obtain rfl : t = _ := hx'
  refine ⟨fun p hp ↦ ?_, ?_, fun phdr hphdr hload a ha hin ↦ ?_, hdone.aligned, ?_, hdone.distinct,
    hdone.was_free, fun p hp b hb ↦ ?_⟩
  · have hfst : p.1 ∈ y.pages.map Prod.fst := List.mem_map_of_mem hp
    rw [hpages] at hfst
    obtain ⟨q, hq, hqp⟩ := List.mem_map.mp hfst
    have := hlt q hq
    dsimp only at hqp ⊢
    omega
  · have hwin := hfit.window
    rw [mathAlignUp_page (by omega)]
    dsimp only
    omega
  · -- a database that is not empty is aligned
    have hes : 0 < es := by
      by_contra hno
      obtain rfl : es = 0 := by omega
      have h1 := hin.1
      have h2 := hin.2
      simp only [dbPages, Nat.mul_zero] at h1 h2
      omega
    obtain ⟨q, hq⟩ := List.exists_mem_of_ne_nil _ (htaken.dbSweep_ne_nil hafter.size_le hes)
    have hal := hals q hq
    have := kernel_disjoint (show 4096 ∣ hhdmOffset + size + 4096 + 4096 * dbPages size es by omega)
      hkernel hphdr hload ha
    have h2 := hin.2
    dsimp only at h2
    omega
  · rw [hpages]
    refine List.Nodup.map (fun p q hpq ↦ ?_) (sweep_pairwise.imp Nat.ne_of_lt)
    omega
  · refine hinv''.typed (pageFrame p) (hheld _ (hdone.held p hp) fun heq ↦ ?_) b hb
    cases congrArg Allocation.type heq

end Main

/-! ## The two architectures -/

section Arch

variable {limit : Nat} {hlimit : limit ≤ 2 ^ 56} {hhdmOffset es initial : Nat}
  {s : Machine PmmState} {image : Memory} {x : (Nat × Nat) × Pagedb}

/-- **The page database of either architecture** keeps to its own place, for every memory map and
every kernel, if the call returns. -/
theorem pagedb_contained (hfit : DbFits hhdmOffset (hhdmSize initial s.frames.map) es) :
    (∀ ptm : X86.Ptm, X86.Prepared limit hlimit ptm s →
      2 ^ 64 - 2 ^ (11 + 9 * ptm.levelCount) ≤ hhdmOffset →
      pagedbSetup (ptm.call (pmmFrames limit hlimit)) hhdmOffset (hhdmSize initial s.frames.map)
        (kernelBase (2 ^ 64 - 1) (elfProgramHeaders image)) es s = .ok x →
      PagedbContained hhdmOffset (hhdmSize initial s.frames.map) (elfProgramHeaders image) s.frames
        x) ∧
    ∀ ptm : Riscv.Ptm, Riscv.Prepared limit hlimit ptm s →
      2 ^ 64 - 2 ^ (11 + 9 * ptm.levelCount) ≤ hhdmOffset →
      pagedbSetup (ptm.call (pmmFrames limit hlimit)) hhdmOffset (hhdmSize initial s.frames.map)
        (kernelBase (2 ^ 64 - 1) (elfProgramHeaders image)) es s = .ok x →
      PagedbContained hhdmOffset (hhdmSize initial s.frames.map) (elfProgramHeaders image) s.frames
        x := by
  constructor
  · intro ptm h hup hx
    obtain ⟨U, hinv⟩ := h.inv
    obtain ⟨C, hown, -⟩ := hinv.owns
    have hkeeps := @X86.mapper_keeps _ (pmmFrames limit hlimit) h.limit_le ptm h.levels
    have hw := @DbFits.x86_window limit hlimit _ _ _ _ hfit h.limit_le h.levels hup
    exact hinv.contained hkeeps hfit hw (le_hhdmSize hown.wf.bound) hx
  · intro ptm h hup hx
    obtain ⟨U, hinv⟩ := h.inv
    obtain ⟨C, hown, -⟩ := hinv.owns
    have hkeeps := @Riscv.mapper_keeps _ (pmmFrames limit hlimit) hlimit ptm h.levels
    have hw := @DbFits.riscv_window limit hlimit _ _ _ _ hfit h.levels hup
    exact hinv.contained hkeeps hfit hw (le_hhdmSize hown.wf.bound) hx

end Arch

/-- An image with one `PT_LOAD` header, for `0xffffffff80001234`. -/
def tinyImage : Memory :=
  ((((Memory.store (fun _ ↦ 0) 32 8 64).store 56 2 1).store 64 4 1).store 80 8
    0xffffffff80001234).store 104 8 0x1000

example : (elfProgramHeaders tinyImage).map (fun phdr ↦ (phdr.isLoad, phdr.startVaddr,
    phdr.endVaddr)) = [(true, 0xffffffff80001000, 0xffffffff80003000)] := by
  decide +kernel

/-- Three regions of whole pages, on either architecture. -/
theorem pagedb_contained_three_regions : ∃ (s t : Machine PmmState) (x y : (Nat × Nat) × Pagedb),
    x.2.pages.length = 3 ∧
      PagedbContained 0xffff800000000000 (hhdmSize 0 s.frames.map) (elfProgramHeaders tinyImage)
        s.frames x ∧
      PagedbContained 0xffff800000000000 (hhdmSize 0 t.frames.map) (elfProgramHeaders tinyImage)
        t.frames y := by
  have h : ((addAll .empty [⟨0x10000, 0x20000, .free⟩, ⟨0x100000, 0x1000, .acpiReclaimable⟩,
      ⟨0x200000, 0x1000, .reserved⟩]).bind fun m ↦
      (X86.ptmInit (pmmFrames (2 ^ 40) limit_le) false false true true
        ⟨fun _ ↦ 0, ⟨m, []⟩⟩).bind fun a ↦
      (Riscv.ptmInit (pmmFrames (2 ^ 40) limit_le) 0 4 ⟨fun _ ↦ 0, ⟨m, []⟩⟩).bind fun b ↦
      (pagedbSetup (a.1.call (pmmFrames (2 ^ 40) limit_le)) 0xffff800000000000
        (hhdmSize 0 a.2.frames.map) (kernelBase (2 ^ 64 - 1) (elfProgramHeaders tinyImage)) 64
          a.2).bind fun x ↦
      (pagedbSetup (b.1.call (pmmFrames (2 ^ 40) limit_le)) 0xffff800000000000
        (hhdmSize 0 b.2.frames.map) (kernelBase (2 ^ 64 - 1) (elfProgramHeaders tinyImage)) 64
          b.2).map fun _ ↦
          (x.2.pages.length, hhdmSize 0 a.2.frames.map, hhdmSize 0 b.2.frames.map, a.1.levelCount,
            b.1.levelCount)).toOption = some (3, 0x201000, 0x201000, 4, 4) := by decide +kernel
  obtain ⟨m, hm, h⟩ := bind_eq_ok (toOption_eq_some h)
  obtain ⟨⟨ptm, s⟩, hi, h⟩ := bind_eq_ok h
  obtain ⟨⟨ptm', t⟩, hi', h⟩ := bind_eq_ok h
  obtain ⟨x, hx, h⟩ := bind_eq_ok h
  obtain ⟨y, hy, h⟩ := map_eq_ok h
  simp only [Prod.mk.injEq] at h
  obtain ⟨hlength, hsize, hsize', hlevel, hlevel'⟩ := h
  have hown : PmmOwns (2 ^ 40) ⟨m, []⟩ fun _ ↦ False :=
    PmmOwns.start ⟨by decide, by decide, by decide⟩ hm (by decide)
  have hfit : DbFits 0xffff800000000000 0x201000 64 := ⟨by decide, by decide⟩
  refine ⟨s, t, x, y, hlength, (pagedb_contained ?_).1 ptm ?_ ?_ hx,
    (pagedb_contained ?_).2 ptm' ?_ ?_ hy⟩
  · rwa [hsize]
  · exact X86.Prepared.of_init hown hi (by decide)
  · rw [hlevel]
    decide
  · rwa [hsize']
  · exact Riscv.Prepared.of_init hown hi' (by omega)
  · rw [hlevel']
    decide

end LunarPrekernel
