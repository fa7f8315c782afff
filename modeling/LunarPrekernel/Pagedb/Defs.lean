import LunarPrekernel.Library.Sweep
import LunarPrekernel.Ptm.Hhdm

/-!
# Setting up the page database

`pagedb_setup` of `memory/pagedb.c` gives the kernel an array with one record for each page of
physical memory, behind the direct map and below the kernel image.  The array is mapped only where
there is memory: for each entry of the memory map the pages of its records, one frame each.
Neighbouring entries share pages, so a running end says how far the array is mapped already.

Apart from the alignment of its beginning the array is laid out in whole pages.  `dbRange` is the
range of pages for one entry, and the loop visits what `Sweep.sweep` does (`pagedbLoop_eq`).
-/

set_option autoImplicit false

namespace LunarPrekernel

open SpanMap Span PmmMap Sweep

/-! ## The code -/

/-- The types that `pagedb_setup` does not `continue` at. -/
def pagedbMaps : PmmMapType → Bool
  | .free | .allocated | .used | .bootloaderReclaimable | .efiReclaimable | .acpiReclaimable
  | .acpiNvs | .reserved => true
  | _ => false

/-- The loop of `prekernel_init` that makes `hhdm_size` the end of the map, if it is not larger
already. -/
def hhdmSize (initial : Nat) (m : PmmMap) : Nat :=
  m.live.foldl (fun size entry ↦
    if add64 entry.base entry.length < size then size else add64 entry.base entry.length) initial

/-- The machine, and the pages that `pagedb_setup` has mapped, each with its frame. -/
structure Pagedb where
  machine : Machine PmmState
  pages : List (Nat × Nat)

section Code

variable (ptmMap : Machine PmmState → MapCall → Except Stop (Machine PmmState))

/-- The body of the inner loop of `pagedb_setup`. -/
def pagedbPage (vaddr : Nat) (s : Pagedb) : Except Stop Pagedb :=
  (pmmAllocExt s.machine.frames.map 1 ptmPageGranularity .used).bind fun r ↦
    (ptmMap ⟨s.machine.mem, s.machine.frames.hand 1 .used r⟩
        ⟨vaddr, r.1, ptmPageGranularity, hhdmFlags⟩).map fun t ↦
      ⟨t, s.pages ++ [(vaddr, r.1)]⟩

/-- The inner loop of `pagedb_setup`. -/
def pagedbSegment : Nat → Nat → Nat → Pagedb → Except Stop Pagedb
  | 0, _, _, _ => .error .fuel
  | fuel + 1, pagedbEnd, stop, s =>
    if pagedbEnd < stop then
      (pagedbPage ptmMap pagedbEnd s).bind fun s ↦
        pagedbSegment fuel (add64 pagedbEnd ptmPageGranularity) stop s
    else .ok s

/-- The body of the outer loop of `pagedb_setup`; `x` is `pagedb_mapped_end` and what there is. -/
def pagedbEntry (pagedbBase pagedbEntrySize : Nat) (x : Nat × Pagedb) (entry : PmmMapEntry) :
    Except Stop (Nat × Pagedb) :=
  if pagedbMaps entry.type then
    let start := add64 pagedbBase
      (mathFloor (mul64 (entry.base / ptmPageGranularity) pagedbEntrySize) ptmPageGranularity)
    let stop := add64 pagedbBase
      (mathCeil (mul64 (add64 entry.base entry.length / ptmPageGranularity) pagedbEntrySize)
        ptmPageGranularity)
    let start := if start < x.1 then x.1 else start
    if stop ≤ start then .ok x
    else (pagedbSegment ptmMap ((stop - start) / ptmPageGranularity + 2) start stop x.2).map fun s ↦
      (stop, s)
  else .ok x

/-- The outer loop of `pagedb_setup`. -/
def pagedbLoop (pagedbBase pagedbEntrySize : Nat) (entries : List PmmMapEntry) (s : Pagedb) :
    Except Stop (Nat × Pagedb) :=
  entries.foldlM (pagedbEntry ptmMap pagedbBase pagedbEntrySize) (pagedbBase, s)

/-- `pagedb_setup`: `*pfndb_start` and `*pfndb_size`, and the machine with the pages mapped. -/
def pagedbSetup (hhdmOffset hhdmSize kernelBase pagedbEntrySize : Nat) (s : Machine PmmState) :
    Except Stop ((Nat × Nat) × Pagedb) :=
  let systemPageCount := mathAlignUp hhdmSize ptmPageGranularity / ptmPageGranularity
  let pagedbSize := mathAlignUp (mul64 systemPageCount pagedbEntrySize) ptmPageGranularity
  let pagedbBase := add64 (add64 hhdmOffset hhdmSize) ptmPageGranularity
  let pagedbEnd := add64 pagedbBase pagedbSize
  if kernelBase < pagedbEnd then
    .error (.panic
      "pagedb overlaps with kernel image! pagedb_end=0x%016lx, kernel_base=0x%016lx"
      [pagedbEnd, kernelBase])
  else
    s.frames.createSnapshot.bind fun x ↦
      (pagedbLoop ptmMap pagedbBase pagedbEntrySize x.1.entries ⟨⟨s.mem, x.2⟩, []⟩).bind fun y ↦
        (y.2.machine.frames.freeSnapshot x.1).map fun frames ↦
          ((pagedbBase, pagedbSize), ⟨⟨y.2.machine.mem, frames⟩, y.2.pages⟩)

end Code

/-! ## The layout, in pages -/

/-- The pages of the database that the code maps for an entry. -/
def dbRange (es : Nat) (entry : PmmMapEntry) : Nat × Nat :=
  (entry.base / 4096 * es / 4096, (entry.stop / 4096 * es + 4095) / 4096)

/-- How many pages the database has for memory of this size. -/
def dbPages (size es : Nat) : Nat := ((size + 4095) / 4096 * es + 4095) / 4096

/-- The layout does not overflow. -/
structure DbFits (hhdmOffset size es : Nat) : Prop where
  records : (size + 4095) / 4096 * es + 4095 < 2 ^ 64
  window : hhdmOffset + size + 4096 + 4096 * dbPages size es < 2 ^ 64

/-- The pages that are mapped for the entries of a list. -/
def dbSweep (es : Nat) (entries : List PmmMapEntry) : List Nat :=
  sweep 0 ((entries.filter fun e ↦ e.type ≠ .bad).map (dbRange es))

theorem pagedbMaps_iff (type : PmmMapType) : pagedbMaps type = true ↔ type ≠ .bad := by
  cases type <;> simp [pagedbMaps]

section Layout

variable {hhdmOffset size es kernelBase base : Nat} {e : PmmMapEntry}

theorem dbRange_le (he : e.stop ≤ size) :
    (dbRange es e).1 ≤ (dbRange es e).2 ∧ (dbRange es e).2 ≤ dbPages size es := by
  have hstop : e.stop = e.base + e.length := rfl
  have h1 : e.base / 4096 * es ≤ e.stop / 4096 * es := Nat.mul_le_mul_right _ (by omega)
  have h2 : e.stop / 4096 * es ≤ (size + 4095) / 4096 * es := Nat.mul_le_mul_right _ (by omega)
  unfold dbRange dbPages
  omega

/-- Where the code has the records of an entry begin and end. -/
theorem pagedbEntry_bounds (hfit : DbFits hhdmOffset size es)
    (hbase : base = hhdmOffset + size + 4096) (he : e.stop ≤ size) :
    add64 base (mathFloor (mul64 (e.base / ptmPageGranularity) es) ptmPageGranularity) =
        base + 4096 * (dbRange es e).1 ∧
      add64 base (mathCeil (mul64 (add64 e.base e.length / ptmPageGranularity) es)
        ptmPageGranularity) = base + 4096 * (dbRange es e).2 := by
  obtain ⟨hrec, hwin⟩ := hfit
  have hle := @dbRange_le _ es _ he
  have hstop : e.stop = e.base + e.length := rfl
  have h1 : e.base / 4096 * es ≤ e.stop / 4096 * es := Nat.mul_le_mul_right _ (by omega)
  have h2 : e.stop / 4096 * es ≤ (size + 4095) / 4096 * es := Nat.mul_le_mul_right _ (by omega)
  have hsum : add64 e.base e.length = e.stop := add64_eq (by omega)
  have hfirst : mul64 (e.base / 4096) es = e.base / 4096 * es := mul64_eq (by omega)
  have hlast : mul64 (e.stop / 4096) es = e.stop / 4096 * es := mul64_eq (by omega)
  have hfloor : mul64 (e.base / 4096 * es / 4096) 4096 = e.base / 4096 * es / 4096 * 4096 :=
    mul64_eq (by omega)
  unfold dbRange at hle ⊢
  rw [hsum, show ptmPageGranularity = 4096 from rfl, mathFloor, hfirst, hlast, hfloor,
    mathCeil_eq (by omega) (by omega)]
  dsimp only at hle ⊢
  constructor
  · rw [add64_eq (by omega)]
    omega
  · rw [add64_eq (by omega)]
    omega

/-- `pagedb_base`, `pagedb_size` and `pagedb_end`. -/
theorem pagedb_layout (hfit : DbFits hhdmOffset size es) :
    mathAlignUp (mul64 (mathAlignUp size ptmPageGranularity / ptmPageGranularity) es)
        ptmPageGranularity = 4096 * dbPages size es ∧
      add64 (add64 hhdmOffset size) ptmPageGranularity = hhdmOffset + size + 4096 ∧
      add64 (hhdmOffset + size + 4096) (4096 * dbPages size es) =
        hhdmOffset + size + 4096 + 4096 * dbPages size es := by
  obtain ⟨hrec, hwin⟩ := hfit
  have hsize : mathAlignUp size ptmPageGranularity / ptmPageGranularity = (size + 4095) / 4096 := by
    rw [mathAlignUp_page (by omega), show ptmPageGranularity = 4096 from rfl]
    omega
  have hrecords : mul64 ((size + 4095) / 4096) es = (size + 4095) / 4096 * es :=
    mul64_eq (by omega)
  have hend : add64 hhdmOffset size = hhdmOffset + size := add64_eq (by omega)
  refine ⟨?_, ?_, add64_eq hwin⟩
  · rw [hsize, hrecords, mathAlignUp_page hrec, dbPages]
    omega
  · rw [hend, show ptmPageGranularity = 4096 from rfl, add64_eq (by omega)]

end Layout

/-! ## The loops -/

section Loops

variable {ptmMap : Machine PmmState → MapCall → Except Stop (Machine PmmState)}
  {hhdmOffset size es base : Nat}

/-- The pages at these places of the database, one after the other. -/
def pagedbRun (ptmMap : Machine PmmState → MapCall → Except Stop (Machine PmmState)) (base : Nat)
    (qs : List Nat) (s : Pagedb) : Except Stop Pagedb :=
  qs.foldlM (fun s q ↦ pagedbPage ptmMap (base + 4096 * q) s) s

theorem pagedbRun_cons (q : Nat) (qs : List Nat) (s : Pagedb) :
    pagedbRun ptmMap base (q :: qs) s =
      (pagedbPage ptmMap (base + 4096 * q) s).bind (pagedbRun ptmMap base qs) := rfl

theorem pagedbRun_append (ps qs : List Nat) (s : Pagedb) :
    pagedbRun ptmMap base (ps ++ qs) s =
      (pagedbRun ptmMap base ps s).bind (pagedbRun ptmMap base qs) := by
  rw [pagedbRun, List.foldlM_append]
  rfl

/-- The inner loop. -/
theorem pagedbSegment_eq {x y fuel : Nat} (hend : base + 4096 * y < 2 ^ 64) (hfuel : y - x < fuel)
    (s : Pagedb) : pagedbSegment ptmMap fuel (base + 4096 * x) (base + 4096 * y) s =
      pagedbRun ptmMap base (List.range' x (y - x)) s := by
  induction fuel generalizing x s with
  | zero => omega
  | succ fuel ih =>
    rw [pagedbSegment]
    by_cases hlt : x < y
    · rw [if_pos (by omega), show y - x = y - (x + 1) + 1 by omega, List.range'_succ,
        pagedbRun_cons]
      refine congrArg _ (funext fun t ↦ ?_)
      have hnext : add64 (base + 4096 * x) ptmPageGranularity = base + 4096 * (x + 1) := by
        rw [show ptmPageGranularity = 4096 from rfl, add64_eq (by omega)]
        omega
      rw [hnext, ih (by omega)]
    · rw [if_neg (by omega), show y - x = 0 by omega]
      rfl

theorem pagedbLoop_eq_sweep (hfit : DbFits hhdmOffset size es)
    (hbase : base = hhdmOffset + size + 4096) {entries : List PmmMapEntry}
    (hentries : ∀ e ∈ entries, e.stop ≤ size) (b : Nat) (s : Pagedb) :
    (entries.foldlM (pagedbEntry ptmMap base es) (base + 4096 * b, s)).map Prod.snd =
      pagedbRun ptmMap base
        (sweep b ((entries.filter fun e ↦ e.type ≠ .bad).map (dbRange es))) s := by
  induction entries generalizing b s with
  | nil => rfl
  | cons e entries ih =>
    have ih := fun b s ↦ ih (fun d hd ↦ hentries d (List.mem_cons_of_mem _ hd)) b s
    have he := hentries e List.mem_cons_self
    obtain ⟨hle, hpages⟩ := @dbRange_le _ es _ he
    obtain ⟨hstart, hstop⟩ := pagedbEntry_bounds hfit hbase he
    have hwin := hfit.window
    rw [List.foldlM_cons]
    by_cases hbad : e.type = .bad
    · have hmaps : pagedbMaps e.type = false := by rw [hbad]; rfl
      rw [List.filter_cons_of_neg (by simpa using hbad), ← ih, pagedbEntry, hmaps]
      rfl
    · have hmaps : pagedbMaps e.type = true := (pagedbMaps_iff _).mpr hbad
      rw [List.filter_cons_of_pos (by simpa using hbad), List.map_cons, sweep, pagedbEntry, hmaps,
        if_pos rfl, hstart, hstop]
      have hmax : (if base + 4096 * (dbRange es e).1 < base + 4096 * b then base + 4096 * b
          else base + 4096 * (dbRange es e).1) = base + 4096 * max (dbRange es e).1 b := by
        split <;> omega
      dsimp only
      rw [hmax]
      by_cases hlt : max (dbRange es e).1 b < (dbRange es e).2
      · rw [if_neg (by omega), if_pos hlt, pagedbRun_append,
          pagedbSegment_eq (by omega) (by rw [show ptmPageGranularity = 4096 from rfl]; omega)]
        cases pagedbRun ptmMap base (List.range' (max (dbRange es e).1 b)
            ((dbRange es e).2 - max (dbRange es e).1 b)) s with
        | error err => rfl
        | ok t => exact ih _ t
      · rw [if_pos (by omega), if_neg hlt, ← ih]
        rfl

/-- **The outer loop** visits what the sweep over the ranges of the entries does. -/
theorem pagedbLoop_eq (hfit : DbFits hhdmOffset size es)
    (hbase : base = hhdmOffset + size + 4096) {entries : List PmmMapEntry}
    (hentries : ∀ e ∈ entries, e.stop ≤ size) (s : Pagedb) :
    (pagedbLoop ptmMap base es entries s).map Prod.snd =
      pagedbRun ptmMap base (dbSweep es entries) s := by
  have hloop := @pagedbLoop_eq_sweep ptmMap _ _ _ _ hfit hbase _ hentries 0 s
  rwa [Nat.mul_zero, Nat.add_zero] at hloop

/-- **`pagedb_setup`**, if there is room below the kernel. -/
theorem pagedbSetup_eq (hfit : DbFits hhdmOffset size es) {kernelBase : Nat}
    (hkernel : hhdmOffset + size + 4096 + 4096 * dbPages size es ≤ kernelBase)
    {s : Machine PmmState} {x : PmmMapSnapshot × PmmState}
    (hx : s.frames.createSnapshot = .ok x) (hentries : ∀ e ∈ x.1.entries, e.stop ≤ size) :
    pagedbSetup ptmMap hhdmOffset size kernelBase es s =
      (pagedbRun ptmMap (hhdmOffset + size + 4096) (dbSweep es x.1.entries)
          ⟨⟨s.mem, x.2⟩, []⟩).bind fun y ↦
        (y.machine.frames.freeSnapshot x.1).map fun frames ↦
          ((hhdmOffset + size + 4096, 4096 * dbPages size es),
            ⟨⟨y.machine.mem, frames⟩, y.pages⟩) := by
  obtain ⟨hsize, hbase, hend⟩ := pagedb_layout hfit
  rw [pagedbSetup, hsize, hbase, hend, if_neg (by omega), hx, ← pagedbLoop_eq hfit rfl hentries]
  show Except.bind (pagedbLoop ptmMap (hhdmOffset + size + 4096) es x.1.entries _) _ = _
  cases pagedbLoop ptmMap (hhdmOffset + size + 4096) es x.1.entries ⟨⟨s.mem, x.2⟩, []⟩ with
  | error err => rfl
  | ok y => rfl

end Loops

end LunarPrekernel
