import LunarPrekernel.Ptm.Mapper
import Mathlib.Data.Nat.Bitwise

/-!
# Page tables on x86_64

`arch/x86_64/ptm.c`.  A mapping is cut into pages of 4 KiB, 2 MiB or 1 GiB, whatever alignment and
the remaining length allow, and `map_page` puts each of them into the tables: on the way down it
makes the tables that are missing and widens the entries that are there, and it panics on an entry
that is itself a large page.

The code reaches a table through the direct map of the bootloader, at `hhdm_offset` above its
physical address; the model reads and writes physical memory.

`format` is the format the processor reads.  `ptmMap_outcome` says that `ptm_map` is a
`PageTable.MappedRange` of it, or one of the ways it can end otherwise.
-/

set_option autoImplicit false

namespace LunarPrekernel.X86

open PageTable

/-! ## The code -/

/-- `ENTRY_FLAG_PRESENT`. -/
def entryFlagPresent : Nat := 1 <<< 0
/-- `ENTRY_FLAG_RW`. -/
def entryFlagRw : Nat := 1 <<< 1
/-- `ENTRY_FLAG_NX`. -/
def entryFlagNx : Nat := 1 <<< 63
/-- `ENTRYH_FLAG_PS`. -/
def entryhFlagPs : Nat := 1 <<< 7

/-- `ENTRY_4K_ADDRESS_MASK`. -/
def entry4kAddressMask : Nat := 0x0007FFFFFFFFF000
/-- `ENTRY_2M_ADDRESS_MASK`. -/
def entry2mAddressMask : Nat := 0x0007FFFFFFE00000
/-- `ENTRY_1G_ADDRESS_MASK`. -/
def entry1gAddressMask : Nat := 0x0007FFFFC0000000

/-- `VADDR_TO_INDEX`. -/
def vaddrToIndex (vaddr level : Nat) : Nat := (vaddr >>> (level * 9 + 3)) &&& 0x1FF

/-- `ptm_page_size_t`. -/
inductive PtmPageSize where
  | size4k
  | size2m
  | size1g
deriving DecidableEq, Repr

namespace PtmPageSize

/-- The value of the enumerator. -/
def val : PtmPageSize → Nat
  | size4k => 4096
  | size2m => 4096 * 512
  | size1g => 4096 * 512 * 512

/-- `lowest_level` in `map_page`. -/
def lowestLevel : PtmPageSize → Nat
  | size4k => 1
  | size2m => 2
  | size1g => 3

/-- `address_mask` in `map_page`. -/
def addressMask : PtmPageSize → Nat
  | size4k => entry4kAddressMask
  | size2m => entry2mAddressMask
  | size1g => entry1gAddressMask

end PtmPageSize

/-- `g_ptm`, and the two features of the processor the code asks for. -/
structure Ptm where
  tplt : Nat
  levelCount : Nat
  nxSupport : Bool
  pdpe1gbSupport : Bool

section Code

variable {A : Type} (src : FrameSource A)

/-- The end of the loop body of `map_page`: the entry is stored if it has changed, and the table it
points to is the current one from now on. -/
def follow (table index entry : Nat) (rw : Bool) (s : Machine A) : Nat × Machine A :=
  let entry := if rw then entry ||| entryFlagRw else entry
  let mem := if word s.mem table index ≠ entry then setWord s.mem table index entry else s.mem
  (entry &&& entry4kAddressMask, { s with mem := mem })

/-- The loop body of `map_page`. -/
def enter (vaddr level table : Nat) (rw nx : Bool) (s : Machine A) :
    Except Stop (Nat × Machine A) :=
  let index := vaddrToIndex vaddr level
  let entry := word s.mem table index
  if entry &&& entryFlagPresent = 0 then do
    let (newTable, frames) ← src.alloc s.frames
    let mem := s.mem.fill newTable ptmPageGranularity 0
    let entry := entryFlagPresent ||| (newTable &&& entry4kAddressMask)
    let entry := if nx then entry ||| entryFlagNx else entry
    .ok (follow table index entry rw ⟨mem, frames⟩)
  else if entry &&& entryhFlagPs ≠ 0 then
    .error (.panic "cannot remap over a non-4k page %lx" [entry &&& entry4kAddressMask])
  else
    let entry := if !nx then entry &&& not64 entryFlagNx else entry
    .ok (follow table index entry rw s)

/-- The entry `map_page` writes at the end. -/
def leafEntry (paddr : Nat) (pageSize : PtmPageSize) (rw nx : Bool) : Nat :=
  let entry := entryFlagPresent ||| (paddr &&& pageSize.addressMask)
  let entry := if pageSize ≠ .size4k then entry ||| entryhFlagPs else entry
  let entry := if rw then entry ||| entryFlagRw else entry
  if nx then entry ||| entryFlagNx else entry

/-- `map_page` with `d` levels to go before the lowest one, and what follows its loop. -/
def mapFrom (vaddr paddr : Nat) (pageSize : PtmPageSize) (rw nx : Bool) :
    Nat → Nat → Machine A → Except Stop (Machine A)
  | 0, table, s =>
    .ok { s with
      mem := setWord s.mem table (vaddrToIndex vaddr pageSize.lowestLevel)
        (leafEntry paddr pageSize rw nx) }
  | d + 1, table, s =>
    (enter src vaddr (pageSize.lowestLevel + (d + 1)) table rw nx s).bind fun r ↦
      mapFrom vaddr paddr pageSize rw nx d r.1 r.2

/-- `map_page`. -/
def mapPage (cr3 levelCount vaddr paddr : Nat) (pageSize : PtmPageSize) (rw nx : Bool)
    (s : Machine A) : Except Stop (Machine A) :=
  mapFrom src vaddr paddr pageSize rw nx (levelCount - pageSize.lowestLevel) cr3 s

/-- The page size the loop of `ptm_map` chooses. -/
def choosePageSize (pdpe1gb : Bool) (vaddr paddr remain : Nat) : PtmPageSize :=
  let pageSize := PtmPageSize.size4k
  let pageSize := if paddr % PtmPageSize.size2m.val = 0 ∧ vaddr % PtmPageSize.size2m.val = 0 ∧
    PtmPageSize.size2m.val ≤ remain then .size2m else pageSize
  if pdpe1gb ∧ paddr % PtmPageSize.size1g.val = 0 ∧ vaddr % PtmPageSize.size1g.val = 0 ∧
    PtmPageSize.size1g.val ≤ remain then .size1g else pageSize

/-- The loop of `ptm_map`. -/
def ptmMapLoop (ptm : Ptm) (length flags : Nat) :
    Nat → Nat → Nat → Nat → Machine A → Except Stop (Machine A)
  | 0, _, _, _, _ => .error .fuel
  | fuel + 1, vaddr, paddr, offset, s =>
    if offset < length then
      let pageSize := choosePageSize ptm.pdpe1gbSupport vaddr paddr (sub64 length offset)
      (mapPage src ptm.tplt ptm.levelCount vaddr paddr pageSize (flagWrite flags)
        (ptm.nxSupport && !flagExec flags) s).bind fun s ↦
          ptmMapLoop ptm length flags fuel (add64 vaddr pageSize.val) (add64 paddr pageSize.val)
            (add64 offset pageSize.val) s
    else .ok s

/-- `ptm_map`.  Every round of the loop maps at least 4 KiB. -/
def ptmMap (ptm : Ptm) (vaddr paddr length flags : Nat) (s : Machine A) :
    Except Stop (Machine A) :=
  if paddr % ptmPageGranularity ≠ 0 ∨ vaddr % ptmPageGranularity ≠ 0 ∨
      length % ptmPageGranularity ≠ 0 then
    .error (.panic "unaligned mapping (%lx -> %lx / %lx)" [paddr, vaddr, length])
  else ptmMapLoop src ptm length flags (length / ptmPageGranularity + 1) vaddr paddr 0 s

/-- `ptm_init`; `la57` is whether the processor has the feature and `cr4` whether it is on. -/
def ptmInit (la57 cr4 nx pdpe1gb : Bool) (s : Machine A) : Except Stop (Ptm × Machine A) :=
  (src.alloc s.frames).map fun r ↦
    (⟨r.1, if la57 && cr4 then 5 else 4, nx, pdpe1gb⟩,
      ⟨s.mem.fill r.1 ptmPageGranularity 0, r.2⟩)

end Code

/-! ## What the processor reads -/

/-- What a leaf or a table entry allows. -/
structure Perm where
  write : Bool
  noExec : Bool
deriving DecidableEq, Repr

/-- The physical address in an entry at height `h`. -/
def pageBits (h w : Nat) : Nat := w % 2 ^ 52 / span h * span h

/-- The format of the tables: bit 0 is "present", bit 1 "writable", bit 63 "no execution", and bit
7 makes a leaf of an entry for 2 MiB or 1 GiB. -/
def format : Format Perm where
  decode h w :=
    if !w.testBit 0 then .absent
    else if h = 0 ∨ (w.testBit 7 ∧ h ≤ 2) then .leaf (pageBits h w) ⟨w.testBit 1, w.testBit 63⟩
    else if w.testBit 7 then .bad
    else .table (pageBits 0 w) ⟨w.testBit 1, w.testBit 63⟩
  meet p q := ⟨p.write && q.write, p.noExec || q.noExec⟩
  decode_zero h := by simp
  decode_lowest w g p := by
    split
    · simp
    · simp
  table_aligned h w g p := by
    intro hd
    split at hd
    · cases hd
    split at hd
    · cases hd
    split at hd
    · cases hd
    · cases hd
      exact Nat.dvd_mul_left _ _

/-! ## The bits of an entry -/

theorem testBit_pageBits (h w i : Nat) :
    (pageBits h w).testBit i = (decide (12 + 9 * h ≤ i ∧ i < 52) && w.testBit i) := by
  rw [pageBits, span_eq, Nat.testBit_mul_two_pow, Nat.testBit_div_two_pow, Nat.testBit_mod_two_pow]
  by_cases h1 : 12 + 9 * h ≤ i
  · rw [Nat.sub_add_cancel h1]
    simp [h1]
  · simp [h1]

/-- An aligned address has no bits below its alignment, and none past its bound. -/
theorem testBit_aligned {h g n i : Nat} (hg : span h ∣ g) (hlt : g < 2 ^ n)
    (hi : ¬ (12 + 9 * h ≤ i ∧ i < n)) : g.testBit i = false := by
  obtain ⟨c, rfl⟩ := hg
  by_cases h1 : 12 + 9 * h ≤ i
  · exact Nat.testBit_lt_two_pow (hlt.trans_le (Nat.pow_le_pow_right (by omega) (by omega)))
  · rw [Nat.mul_comm, span_eq, Nat.testBit_mul_two_pow]
    simp [h1]

/-- The address an entry was made with is read back. -/
theorem pageBits_eq {h g w : Nat} (hg : span h ∣ g) (hlt : g < 2 ^ 51)
    (hw : ∀ i, 12 + 9 * h ≤ i → i < 52 → w.testBit i = g.testBit i) : pageBits h w = g := by
  refine Nat.eq_of_testBit_eq fun i ↦ ?_
  rw [testBit_pageBits]
  by_cases hi : 12 + 9 * h ≤ i ∧ i < 52
  · rw [hw i hi.1 hi.2]
    simp [hi]
  · rw [testBit_aligned hg hlt (by omega)]
    simp [hi]

/-- The height of the entry that maps a page of this size. -/
def PtmPageSize.height : PtmPageSize → Nat
  | size4k => 0
  | size2m => 1
  | size1g => 2

theorem PtmPageSize.lowestLevel_eq (z : PtmPageSize) : z.lowestLevel = z.height + 1 := by
  cases z <;> rfl

theorem PtmPageSize.val_eq (z : PtmPageSize) : z.val = span z.height := by
  cases z <;> rfl

theorem vaddrToIndex_eq (a h : Nat) : vaddrToIndex a (h + 1) = index h a := by
  rw [vaddrToIndex, index, span_eq, Nat.shiftRight_eq_div_pow,
    show (0x1FF : Nat) = 2 ^ 9 - 1 by norm_num, Nat.and_two_pow_sub_one_eq_mod,
    show (h + 1) * 9 + 3 = 12 + 9 * h by omega]

theorem testBit_addressMask (z : PtmPageSize) (i : Nat) :
    z.addressMask.testBit i = decide (12 + 9 * z.height ≤ i ∧ i < 51) := by
  have key : ∀ k n : Nat, ((2 ^ n - 1) <<< k).testBit i = decide (k ≤ i ∧ i < k + n) := by
    intro k n
    rw [Nat.testBit_shiftLeft, Nat.testBit_two_pow_sub_one, ← Bool.decide_and, decide_eq_decide]
    omega
  cases z with
  | size4k =>
    rw [show PtmPageSize.size4k.addressMask = (2 ^ 39 - 1) <<< 12 by rfl, key]
    rfl
  | size2m =>
    rw [show PtmPageSize.size2m.addressMask = (2 ^ 30 - 1) <<< 21 by rfl, key]
    rfl
  | size1g =>
    rw [show PtmPageSize.size1g.addressMask = (2 ^ 21 - 1) <<< 30 by rfl, key]
    rfl

theorem testBit_entry4kAddressMask (i : Nat) :
    entry4kAddressMask.testBit i = decide (12 ≤ i ∧ i < 51) :=
  testBit_addressMask .size4k i

theorem testBit_entryFlagPresent (i : Nat) : entryFlagPresent.testBit i = decide (i = 0) := by
  rw [entryFlagPresent, Nat.one_shiftLeft, Nat.testBit_two_pow, decide_eq_decide]
  exact eq_comm

theorem testBit_entryFlagRw (i : Nat) : entryFlagRw.testBit i = decide (i = 1) := by
  rw [entryFlagRw, Nat.one_shiftLeft, Nat.testBit_two_pow, decide_eq_decide]
  exact eq_comm

theorem testBit_entryFlagNx (i : Nat) : entryFlagNx.testBit i = decide (i = 63) := by
  rw [entryFlagNx, Nat.one_shiftLeft, Nat.testBit_two_pow, decide_eq_decide]
  exact eq_comm

theorem testBit_entryhFlagPs (i : Nat) : entryhFlagPs.testBit i = decide (i = 7) := by
  rw [entryhFlagPs, Nat.one_shiftLeft, Nat.testBit_two_pow, decide_eq_decide]
  exact eq_comm

theorem testBit_not64_entryFlagNx (i : Nat) :
    (not64 entryFlagNx).testBit i = decide (i < 63) := by
  rw [show not64 entryFlagNx = 2 ^ 63 - 1 by rfl, Nat.testBit_two_pow_sub_one]

theorem and_entryFlagPresent (w : Nat) : w &&& entryFlagPresent = 0 ↔ w.testBit 0 = false := by
  rw [entryFlagPresent, Nat.one_shiftLeft, Nat.and_comm, Nat.two_pow_and]
  cases w.testBit 0 <;> simp

theorem and_entryhFlagPs (w : Nat) : w &&& entryhFlagPs ≠ 0 ↔ w.testBit 7 = true := by
  rw [entryhFlagPs, Nat.one_shiftLeft, Nat.and_comm, Nat.two_pow_and]
  cases w.testBit 7 <;> simp

/-- The flags an entry can carry, and its address. -/
theorem testBit_leafEntry (p : Nat) (z : PtmPageSize) (rw nx : Bool) (i : Nat) :
    (leafEntry p z rw nx).testBit i = (decide (i = 0) ||
      (p.testBit i && decide (12 + 9 * z.height ≤ i ∧ i < 51)) ||
      (decide (z ≠ .size4k) && decide (i = 7)) || (rw && decide (i = 1)) ||
      (nx && decide (i = 63))) := by
  unfold leafEntry
  cases rw <;> cases nx <;> by_cases hz : z = .size4k <;>
    simp [hz, Nat.testBit_or, Nat.testBit_and, testBit_addressMask, testBit_entryFlagPresent,
      testBit_entryFlagRw, testBit_entryFlagNx, testBit_entryhFlagPs]

theorem lt_of_testBit {w : Nat} (h : ∀ i, 64 ≤ i → w.testBit i = false) : w < 2 ^ 64 :=
  Nat.lt_pow_two_of_testBit w h

/-- The leaf the code writes is the one the processor reads. -/
theorem decode_leafEntry {p : Nat} {z : PtmPageSize} (rw nx : Bool) (hp : span z.height ∣ p)
    (hlt : p < 2 ^ 51) :
    format.decode z.height (leafEntry p z rw nx) = .leaf p ⟨rw, nx⟩ := by
  have hbits := testBit_leafEntry p z rw nx
  have h0 : (leafEntry p z rw nx).testBit 0 = true := by rw [hbits]; simp
  have h1 : (leafEntry p z rw nx).testBit 1 = rw := by
    rw [hbits]
    simp
    omega
  have h7 : (leafEntry p z rw nx).testBit 7 = decide (z ≠ .size4k) := by
    rw [hbits]
    simp
    omega
  have h63 : (leafEntry p z rw nx).testBit 63 = nx := by rw [hbits]; simp
  have hpage : pageBits z.height (leafEntry p z rw nx) = p := by
    refine pageBits_eq hp hlt fun i hi hi' ↦ ?_
    rw [hbits]
    by_cases hi51 : i = 51
    · subst hi51
      rw [testBit_aligned hp hlt (by omega)]
      simp
    · have : i ≠ 0 ∧ i ≠ 7 ∧ i ≠ 1 ∧ i ≠ 63 ∧ i < 51 := by omega
      simp [this, hi]
  show (if !(leafEntry p z rw nx).testBit 0 then _ else _) = _
  rw [h0, h1, h7, h63, hpage]
  cases z <;> simp [PtmPageSize.height]

theorem leafEntry_lt (p : Nat) (z : PtmPageSize) (rw nx : Bool) :
    leafEntry p z rw nx < 2 ^ 64 := by
  refine lt_of_testBit fun i hi ↦ ?_
  rw [testBit_leafEntry]
  have : i ≠ 0 ∧ i ≠ 7 ∧ i ≠ 1 ∧ i ≠ 63 ∧ ¬ i < 51 := by omega
  simp [this]

theorem leafWord {p : Nat} {z : PtmPageSize} (rw nx : Bool) (hp : span z.height ∣ p)
    (hlt : p < 2 ^ 51) : LeafWord format z.height (leafEntry p z rw nx) where
  lt := leafEntry_lt p z rw nx
  not_table g q := by rw [decode_leafEntry rw nx hp hlt]; simp
  sound := by
    rw [decode_leafEntry rw nx hp hlt]
    refine ⟨fun b q hb ↦ ?_, by simp⟩
    cases hb
    exact hp

/-! ## The walk down -/

theorem decode_absent {h w : Nat} (h0 : w.testBit 0 = false) : format.decode h w = .absent := by
  show (if !w.testBit 0 then _ else _) = _
  rw [h0]
  rfl

theorem decode_large {h w : Nat} (hh : 0 < h) (h0 : w.testBit 0 = true) (h7 : w.testBit 7 = true) :
    format.decode h w = .bad ∨ ∃ q, format.decode h w = .leaf (pageBits h w) q := by
  show (if !w.testBit 0 then _ else _) = _ ∨ ∃ q, (if !w.testBit 0 then _ else _) = _
  rw [h0, h7]
  by_cases h2 : h ≤ 2
  · exact Or.inr ⟨_, by simp [h2]; rfl⟩
  · exact Or.inl (by simp [h2, hh.ne'])

theorem decode_table {h w : Nat} (hh : 0 < h) (h0 : w.testBit 0 = true)
    (h7 : w.testBit 7 = false) :
    format.decode h w = .table (pageBits 0 w) ⟨w.testBit 1, w.testBit 63⟩ := by
  show (if !w.testBit 0 then _ else _) = _
  rw [h0, h7]
  simp [hh.ne']

/-- An entry for a new table. -/
def newEntry (g : Nat) (rw nx : Bool) : Nat :=
  let entry := entryFlagPresent ||| (g &&& entry4kAddressMask)
  let entry := if nx then entry ||| entryFlagNx else entry
  if rw then entry ||| entryFlagRw else entry

/-- An entry that is there, widened. -/
def widenEntry (w : Nat) (rw nx : Bool) : Nat :=
  let entry := if !nx then w &&& not64 entryFlagNx else w
  if rw then entry ||| entryFlagRw else entry

theorem testBit_newEntry (g : Nat) (rw nx : Bool) (i : Nat) :
    (newEntry g rw nx).testBit i = (decide (i = 0) ||
      (g.testBit i && decide (12 ≤ i ∧ i < 51)) || (nx && decide (i = 63)) ||
      (rw && decide (i = 1))) := by
  unfold newEntry
  cases rw <;> cases nx <;>
    simp [Nat.testBit_or, Nat.testBit_and, testBit_entry4kAddressMask, testBit_entryFlagPresent,
      testBit_entryFlagRw, testBit_entryFlagNx]

theorem testBit_widenEntry (w : Nat) (rw nx : Bool) (i : Nat) :
    (widenEntry w rw nx).testBit i =
      ((w.testBit i && (decide (i < 63) || nx)) || (rw && decide (i = 1))) := by
  unfold widenEntry
  cases rw <;> cases nx <;>
    simp [Nat.testBit_or, Nat.testBit_and, testBit_not64_entryFlagNx, testBit_entryFlagRw]

theorem decode_newEntry {h g : Nat} (rw nx : Bool) (hh : 0 < h) (hg : 4096 ∣ g)
    (hlt : g < 2 ^ 51) : format.decode h (newEntry g rw nx) = .table g ⟨rw, nx⟩ := by
  have hbits := testBit_newEntry g rw nx
  rw [decode_table hh (by rw [hbits]; simp) (by rw [hbits]; simp)]
  have hpage : pageBits 0 (newEntry g rw nx) = g := by
    refine pageBits_eq hg hlt fun i hi hi' ↦ ?_
    rw [hbits]
    by_cases hi51 : i = 51
    · subst hi51
      rw [testBit_aligned (h := 0) hg hlt (by omega)]
      simp
    · have : i ≠ 0 ∧ i ≠ 1 ∧ i ≠ 63 ∧ i < 51 ∧ 12 ≤ i := by omega
      simp [this]
  rw [hpage]
  congr 2
  · rw [hbits]; simp
  · rw [hbits]; simp

theorem newEntry_lt (g : Nat) (rw nx : Bool) : newEntry g rw nx < 2 ^ 64 := by
  refine lt_of_testBit fun i hi ↦ ?_
  rw [testBit_newEntry]
  have : i ≠ 0 ∧ i ≠ 1 ∧ i ≠ 63 ∧ ¬ i < 51 := by omega
  simp [this]

theorem decode_widenEntry {h w : Nat} (rw nx : Bool) (hh : 0 < h) (h0 : w.testBit 0 = true)
    (h7 : w.testBit 7 = false) : format.decode h (widenEntry w rw nx) =
      .table (pageBits 0 w) ⟨w.testBit 1 || rw, w.testBit 63 && nx⟩ := by
  have hbits := testBit_widenEntry w rw nx
  rw [decode_table hh (by rw [hbits, h0]; simp) (by rw [hbits, h7]; simp)]
  have hpage : pageBits 0 (widenEntry w rw nx) = pageBits 0 w := by
    refine Nat.eq_of_testBit_eq fun i ↦ ?_
    rw [testBit_pageBits, testBit_pageBits, hbits]
    by_cases hi : 12 + 9 * 0 ≤ i ∧ i < 52
    · have : i ≠ 1 ∧ i < 63 := by omega
      simp [this]
    · simp [hi]
  rw [hpage]
  congr 2
  · rw [hbits]; simp
  · rw [hbits]; simp

theorem widenEntry_lt {w : Nat} (hw : w < 2 ^ 64) (rw nx : Bool) :
    widenEntry w rw nx < 2 ^ 64 := by
  refine lt_of_testBit fun i hi ↦ ?_
  rw [testBit_widenEntry, Nat.testBit_lt_two_pow (hw.trans_le (Nat.pow_le_pow_right (by omega) hi))]
  have : i ≠ 1 := by omega
  simp [this]

/-- The table an entry points to is the one the code goes on with. -/
theorem and_entry4kAddressMask {w : Nat} (hlt : pageBits 0 w < 2 ^ 51) :
    w &&& entry4kAddressMask = pageBits 0 w := by
  refine Nat.eq_of_testBit_eq fun i ↦ ?_
  rw [Nat.testBit_and, testBit_entry4kAddressMask, testBit_pageBits]
  by_cases hi : i = 51
  · have h51 := Nat.testBit_lt_two_pow hlt
    rw [testBit_pageBits] at h51
    subst hi
    simpa using h51
  · have : decide (12 ≤ i ∧ i < 51) = decide (12 + 9 * 0 ≤ i ∧ i < 52) := by
      rw [decide_eq_decide]
      omega
    rw [this, Bool.and_comm]

section Outcome

variable {A : Type} {src : FrameSource A} {paddr : Nat} {z : PtmPageSize}

/-- The panic of the walk down. -/
def Remap (e : Stop) : Prop := ∃ x, e = .panic "cannot remap over a non-4k page %lx" [x]

theorem follow_eq (table index entry : Nat) (rw : Bool) (s : Machine A) :
    follow table index entry rw s =
      ((if rw then entry ||| entryFlagRw else entry) &&& entry4kAddressMask,
        { s with mem := setWord s.mem table index (if rw then entry ||| entryFlagRw else entry) }) := by
  unfold follow
  by_cases h : word s.mem table index = if rw then entry ||| entryFlagRw else entry
  · simp only [h, ne_eq, not_true_eq_false, if_false]
    rw [← h, setWord, word, Memory.store_load]
  · simp only [ne_eq, h, not_false_eq_true, if_true]

/-- **`map_page`** maps the page, or fails for want of a frame, or panics because of a leaf that is
larger than the page. -/
theorem mapFrom_outcome (vaddr : Nat) (rw nx : Bool) (hlim : src.limit ≤ 2 ^ 51)
    (hp : span z.height ∣ paddr) (hlt : paddr < 2 ^ 51) (d : Nat) : ∀ (table : Nat) (s : Machine A) (U : Nat → Prop),
    src.Owns s.frames U → Tree format s.mem (z.height + 1 + d) table →
    (∀ x, Foot format s.mem (z.height + 1 + d) table x → U x) →
    src.Outcome format Remap z.height vaddr (leafEntry paddr z rw nx) (z.height + 1 + d) table U s
      (mapFrom src vaddr paddr z rw nx d table s) := by
  induction d with
  | zero =>
    intro table s U hs _ _
    rw [mapFrom, PtmPageSize.lowestLevel_eq, vaddrToIndex_eq]
    exact src.outcome_leaf hs
  | succ d ih =>
    intro table s U hs ht hU
    have hh : 0 < z.height + 1 + d := by omega
    have hth : z.height < z.height + 1 + d := by omega
    have hi := index_lt (z.height + 1 + d) vaddr
    rw [mapFrom, PtmPageSize.lowestLevel_eq, enter,
      show z.height + 1 + (d + 1) = z.height + 1 + d + 1 by omega, vaddrToIndex_eq]
    set h := z.height + 1 + d with hdef
    set w := word s.mem table (index h vaddr) with hwdef
    dsimp only
    by_cases h0 : w.testBit 0 = false
    · -- the table is missing
      rw [if_pos ((and_entryFlagPresent w).mpr h0)]
      cases halloc : src.alloc s.frames with
      | error e => exact Or.inl ⟨_, _, hs, halloc⟩
      | ok r =>
        obtain ⟨g, frames⟩ := r
        obtain ⟨-, ho⟩ := src.fresh hs halloc
        obtain ⟨hg, hgl⟩ := src.owned ho (Or.inl rfl)
        have hgl : g < 2 ^ 51 := by omega
        have hd' := decode_newEntry rw nx hh hg hgl
        refine src.outcome_fresh hs halloc ht hU hth (decode_absent h0) (newEntry_lt g rw nx) hd'
          ?_ fun s₁ hm hf ho₁ ht₁ hU₁ ↦ ?_
        · rw [decode_leafEntry rw nx hp hlt]
          rintro b q ⟨⟩
          show (⟨rw && rw, nx || nx⟩ : Perm) = ⟨rw, nx⟩
          rw [Bool.and_self, Bool.or_self]
        · have hnext : follow table (index h vaddr)
              (if nx then (entryFlagPresent ||| (g &&& entry4kAddressMask)) ||| entryFlagNx
                else entryFlagPresent ||| (g &&& entry4kAddressMask)) rw
              ⟨s.mem.fill g ptmPageGranularity 0, frames⟩ = (g, s₁) := by
            rw [follow_eq]
            show (newEntry g rw nx &&& entry4kAddressMask, Machine.mk
              (setWord (clear s.mem g) table (index h vaddr) (newEntry g rw nx)) frames) = _
            have hpb : pageBits 0 (newEntry g rw nx) = g := by
              have := hd'
              rw [decode_table hh (by rw [testBit_newEntry]; simp)
                (by rw [testBit_newEntry]; simp)] at this
              injection this
            rw [and_entry4kAddressMask (by rw [hpb]; exact hgl), hpb, ← hm, ← hf]
          have := ih g s₁ _ (hf ▸ ho₁) ht₁ hU₁
          show src.Outcome format Remap _ _ _ _ _ _ s₁ (Except.bind (Except.ok _) _)
          rw [hnext]
          exact this
    · have h0 : w.testBit 0 = true := by simpa using h0
      rw [if_neg fun hc ↦ by rw [and_entryFlagPresent, h0] at hc; cases hc]
      by_cases h7 : w.testBit 7 = true
      · -- a leaf is in the way
        rw [if_pos ((and_entryhFlagPs w).mpr h7)]
        rcases decode_large hh h0 h7 with hbad | ⟨q, hleaf⟩
        · have : h = 0 := (ht.2.1 _ hi).2 hbad
          omega
        · exact src.outcome_blocked hth hleaf ⟨_, rfl⟩
      · have h7 : w.testBit 7 = false := by simpa using h7
        rw [if_neg fun hc ↦ by rw [and_entryhFlagPs, h7] at hc; cases hc]
        have hd := decode_table hh h0 h7
        have hd' := decode_widenEntry rw nx hh h0 h7
        have hgU : U (pageBits 0 w) := hU _ (foot_child hi hd (foot_root hh))
        have hgl : pageBits 0 w < 2 ^ 51 := (src.owned hs hgU).2.trans_le hlim
        have hwlt : w < 2 ^ 64 := by
          have := s.mem.load_lt (table + 8 * index h vaddr) 8
          norm_num at this ⊢
          exact this
        refine src.outcome_table ht hU hth hd (widenEntry_lt hwlt rw nx) hd' ?_ ?_
          fun s₁ hm hf ht₁ hU₁ ↦ ?_
        · rintro ⟨q1, q2⟩ hq
          injection hq with hq1 hq2
          show (⟨(w.testBit 1 || rw) && q1, (w.testBit 63 && nx) || q2⟩ : Perm) = ⟨q1, q2⟩
          revert hq1 hq2
          cases w.testBit 1 <;> cases w.testBit 63 <;> cases q1 <;> cases q2 <;> simp
        · rw [decode_leafEntry rw nx hp hlt]
          rintro b q ⟨⟩
          show (⟨(w.testBit 1 || rw) && rw, (w.testBit 63 && nx) || nx⟩ : Perm) = ⟨rw, nx⟩
          cases rw <;> cases nx <;> simp
        · have hnext : follow table (index h vaddr)
              (if !nx then w &&& not64 entryFlagNx else w) rw s = (pageBits 0 w, s₁) := by
            rw [follow_eq]
            show (widenEntry w rw nx &&& entry4kAddressMask, Machine.mk
              (setWord s.mem table (index h vaddr) (widenEntry w rw nx)) s.frames) = _
            have hpb : pageBits 0 (widenEntry w rw nx) = pageBits 0 w := by
              have := hd'
              rw [decode_table hh (by rw [testBit_widenEntry, h0]; simp)
                (by rw [testBit_widenEntry, h7]; simp)] at this
              injection this
            rw [and_entry4kAddressMask (by rw [hpb]; exact hgl), hpb, ← hm, ← hf]
          have := ih _ s₁ U (hf ▸ hs) ht₁ hU₁
          show src.Outcome format Remap _ _ _ _ _ _ s₁ (Except.bind (Except.ok _) _)
          rw [hnext]
          exact this

/-! ## The loop of `ptm_map` -/

/-- The largest height the loop chooses. -/
def Ptm.top (ptm : Ptm) : Nat := if ptm.pdpe1gbSupport then 2 else 1

/-- The page size for a height. -/
def pageSizeAt : Nat → PtmPageSize
  | 0 => .size4k
  | 1 => .size2m
  | _ => .size1g

theorem pageSizeAt_height (z : PtmPageSize) : pageSizeAt z.height = z := by
  cases z <;> rfl

/-- The code chooses the largest page that fits. -/
theorem choosePageSize_height (pdpe1gb : Bool) (v p remain : Nat) :
    (choosePageSize pdpe1gb v p remain).height =
      chooseHeight v p remain (if pdpe1gb then 2 else 1) := by
  have h1 : span 1 = PtmPageSize.size2m.val := rfl
  have h2 : span 2 = PtmPageSize.size1g.val := rfl
  have hdvd : PtmPageSize.size2m.val ∣ PtmPageSize.size1g.val := ⟨512, rfl⟩
  unfold choosePageSize
  cases pdpe1gb with
  | false =>
    simp only [chooseHeight, Nat.zero_add, h1, Nat.dvd_iff_mod_eq_zero, Bool.false_eq_true,
      false_and, if_false]
    by_cases h : v % PtmPageSize.size2m.val = 0 ∧ p % PtmPageSize.size2m.val = 0 ∧
        PtmPageSize.size2m.val ≤ remain
    · rw [if_pos h, if_pos ⟨h.2.1, h.1, h.2.2⟩]
      rfl
    · rw [if_neg h, if_neg fun hc ↦ h ⟨hc.2.1, hc.1, hc.2.2⟩]
      rfl
  | true =>
    simp only [chooseHeight, Nat.zero_add, Nat.reduceAdd, h1, h2, Nat.dvd_iff_mod_eq_zero,
      true_and, if_true]
    by_cases h : v % PtmPageSize.size1g.val = 0 ∧ p % PtmPageSize.size1g.val = 0 ∧
        PtmPageSize.size1g.val ≤ remain
    · rw [if_pos h, if_pos ⟨h.2.1, h.1, h.2.2⟩]
      rfl
    · rw [if_neg h, if_neg fun hc ↦ h ⟨hc.2.1, hc.1, hc.2.2⟩]
      by_cases h' : v % PtmPageSize.size2m.val = 0 ∧ p % PtmPageSize.size2m.val = 0 ∧
          PtmPageSize.size2m.val ≤ remain
      · rw [if_pos h', if_pos ⟨h'.2.1, h'.1, h'.2.2⟩]
        rfl
      · rw [if_neg h', if_neg fun hc ↦ h' ⟨hc.2.1, hc.1, hc.2.2⟩]
        rfl

/-- The permissions a call asks for. -/
def Ptm.perm (ptm : Ptm) (flags : Nat) : Perm :=
  ⟨flagWrite flags, ptm.nxSupport && !flagExec flags⟩

/-- The words a call writes as leaves. -/
def Ptm.leaf (ptm : Ptm) (flags t p : Nat) : Nat :=
  leafEntry p (pageSizeAt t) (ptm.perm flags).write (ptm.perm flags).noExec

/-- **The loop of `ptm_map`** maps the run, or fails for want of a frame, or panics because of a
leaf that is larger than a page of the run. -/
theorem ptmMapLoop_outcome (ptm : Ptm) (length flags : Nat) (hlim : src.limit ≤ 2 ^ 51)
    (hlevels : 3 ≤ ptm.levelCount) (hlength : length < 2 ^ 64) (fuel : Nat) :
    ∀ (v p offset va pa : Nat) (s : Machine A) (U : Nat → Prop), offset ≤ length →
    (offset < length → va = v ∧ pa = p) → 4096 ∣ v → 4096 ∣ p → 4096 ∣ length - offset →
    v + (length - offset) ≤ 2 ^ 64 → p + (length - offset) ≤ 2 ^ 51 →
    v % span ptm.levelCount + (length - offset) ≤ span ptm.levelCount →
    (length - offset) / 4096 < fuel → src.Owns s.frames U →
    Tree format s.mem ptm.levelCount ptm.tplt →
    (∀ x, Foot format s.mem ptm.levelCount ptm.tplt x → U x) →
    src.RangeOutcome format (ptm.leaf flags) (fun a ↦ some (a, ptm.perm flags)) Remap ptm.top
      ptm.levelCount ptm.tplt fuel v p (length - offset) U s
      (ptmMapLoop src ptm length flags fuel va pa offset s) := by
  induction fuel with
  | zero =>
    intro v p offset va pa s U _ _ _ _ _ _ _ _ hfuel
    omega
  | succ fuel ih =>
    intro v p offset va pa s U hoff hvp hv hp hl hv64 hp51 hfit hfuel hs ht hU
    rw [ptmMapLoop]
    by_cases hlt : offset < length
    swap
    · rw [if_neg hlt, show length - offset = 0 by omega]
      exact src.rangeOutcome_nil hs
    obtain ⟨rfl, rfl⟩ := hvp hlt
    rw [if_pos hlt, sub64_eq hlength hoff]
    set z := choosePageSize ptm.pdpe1gbSupport va pa (length - offset) with hz
    dsimp only
    have hheight : chooseHeight va pa (length - offset) ptm.top = z.height :=
      (choosePageSize_height _ _ _ _).symm
    obtain ⟨hvt, hpt, hlen⟩ := chooseHeight_spec hv hp hl (by omega) ptm.top
    rw [hheight] at hvt hpt hlen
    have htop : ptm.top < ptm.levelCount := by
      unfold Ptm.top
      split <;> omega
    have hpos := span_pos z.height
    have h4096 := Nat.le_of_dvd hpos (page_dvd_span z.height)
    have hleaf : ptm.leaf flags z.height pa =
        leafEntry pa z (ptm.perm flags).write (ptm.perm flags).noExec := by
      rw [Ptm.leaf, pageSizeAt_height]
    have hlow : z.height + 1 ≤ ptm.levelCount := by
      have := chooseHeight_le va pa (length - offset) ptm.top
      omega
    refine src.rangeOutcome_cons (by omega) hv hp hl hfit htop ht hU hheight ?_ (fun b ↦ ?_) ?_
      fun s₁ U₁ _ ho₁ ht₁ hU₁ ↦ ?_
    · rw [hleaf]
      exact leafWord _ _ hpt (by omega)
    · rw [hleaf, decode_leafEntry _ _ hpt (by omega)]
      rfl
    · have hn : z.height + 1 + (ptm.levelCount - z.lowestLevel) = ptm.levelCount := by
        rw [PtmPageSize.lowestLevel_eq]
        omega
      rw [mapPage, hleaf]
      have := mapFrom_outcome va (ptm.perm flags).write (ptm.perm flags).noExec hlim hpt (by omega)
        (ptm.levelCount - z.lowestLevel) ptm.tplt s U hs (by rwa [hn]) (by rwa [hn])
      rwa [hn] at this
    · have hoff' : add64 offset z.val = offset + span z.height := by
        rw [PtmPageSize.val_eq, add64_eq (by omega)]
      rw [hoff', show length - offset - span z.height = length - (offset + span z.height) by omega]
      have hdvd := page_dvd_span z.height
      refine ih (va + span z.height) (pa + span z.height) _ _ _ s₁ U₁ (by omega) (fun hlt' ↦ ?_)
        (hv.add hdvd) (hp.add hdvd) ?_ (by omega) (by omega) ?_ ?_ ho₁ ht₁ hU₁
      · rw [PtmPageSize.val_eq, add64_eq (by omega), add64_eq (by omega)]
        exact ⟨rfl, rfl⟩
      · rw [← Nat.sub_sub]
        exact Nat.dvd_sub hl hdvd
      · rw [← Nat.sub_sub]
        exact mod_add_le hfit hlen
      · rw [← Nat.sub_sub]
        omega

end Outcome

end LunarPrekernel.X86
