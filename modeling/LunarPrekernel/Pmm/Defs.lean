import LunarPrekernel.Machine
import LunarPrekernel.Library.SpanMap

/-!
# The physical memory map

`memory/pmm.c` keeps the physical memory map in `g_pmm_map`, an array of `PMM_MAP_MAX_ENTRIES`
slots of which the first `g_pmm_map_size` are live.  Everything the allocator does is one call of
`pmm_map_set`, which gives a type to a range of addresses: it walks over the live entries, cuts,
drops or keeps each one the range meets, calls itself on what is left of a split, and at last
inserts the range, glued to a neighbour of the same type if there is one.

`PmmMap` is the pair of globals.  The dead slots are part of it, because `pmm_map_set` reads the
first of them when the range goes in at the end, and `pmm_create_snapshot` copies two of them.

One iteration of the loop of `pmm_map_set` is `setStep`, which does what the body does and says how
it ends; `setFrom` is the loop together with the recursive calls, and takes fuel because C's
recursion does not come with a bound.
-/

set_option autoImplicit false

namespace LunarPrekernel

open SpanMap

/-! ## The data -/

/-- `pmm_map_type_t`, in the order of its enumerators. -/
inductive PmmMapType where
  | free
  | allocated
  | used
  | bootloaderReclaimable
  | efiReclaimable
  | acpiReclaimable
  | acpiNvs
  | reserved
  | bad
deriving DecidableEq, Repr, Inhabited

/-- The value of the enumerator, which is what `>` compares. -/
def PmmMapType.val : PmmMapType → Nat
  | free => 0
  | allocated => 1
  | used => 2
  | bootloaderReclaimable => 3
  | efiReclaimable => 4
  | acpiReclaimable => 5
  | acpiNvs => 6
  | reserved => 7
  | bad => 8

theorem PmmMapType.val_injective : Function.Injective PmmMapType.val := by
  intro a b; cases a <;> cases b <;> simp [PmmMapType.val]

/-- `pmm_map_entry_t`. -/
abbrev PmmMapEntry := Span PmmMapType

/-- What a slot of the zero-initialised `g_pmm_map` holds. -/
def PmmMapEntry.zero : PmmMapEntry := ⟨0, 0, .free⟩

/-- `PMM_MAP_MAX_ENTRIES`. -/
def pmmMapMaxEntries : Nat := 1024

/-- `g_pmm_map_size` and `g_pmm_map`. -/
structure PmmMap where
  /-- `g_pmm_map_size`. -/
  size : Nat
  /-- `g_pmm_map`, live and dead slots alike. -/
  slots : Nat → PmmMapEntry
  /-- Only `map_insert` grows the map, and it panics first. -/
  size_le : size ≤ pmmMapMaxEntries

namespace PmmMap

/-- The map before anything is added to it. -/
def empty : PmmMap := ⟨0, fun _ ↦ .zero, Nat.zero_le _⟩

/-- The live entries, `g_pmm_map[0 .. g_pmm_map_size)`. -/
def live (m : PmmMap) : List PmmMapEntry := (List.range m.size).map m.slots

/-- `g_pmm_map[i] = entry`. -/
def set (m : PmmMap) (i : Nat) (entry : PmmMapEntry) : PmmMap :=
  { m with slots := Function.update m.slots i entry }

end PmmMap

/-! ## Inserting and deleting an entry -/

/-- The loop of `map_insert`, which moves the slots from `index` on one up, last one first. -/
def shiftUp (index : Nat) : Nat → (Nat → PmmMapEntry) → Nat → PmmMapEntry
  | 0, slots => slots
  | i + 1, slots =>
    if index < i + 1 then shiftUp index i (Function.update slots (i + 1) (slots i)) else slots

/-- `map_insert`. -/
def mapInsert (m : PmmMap) (index : Nat) (entry : PmmMapEntry) : Except Stop PmmMap :=
  if h : m.size = pmmMapMaxEntries then .error (.panic "memory map overflow" [])
  else .ok
    { size := m.size + 1
      slots := Function.update (shiftUp index m.size m.slots) index entry
      size_le := Nat.lt_of_le_of_ne m.size_le h }

/-- The loop of `map_delete`, which moves `n` slots from `i + 1` on one down, first one first. -/
def shiftDown : Nat → Nat → (Nat → PmmMapEntry) → Nat → PmmMapEntry
  | 0, _, slots => slots
  | n + 1, i, slots => shiftDown n (i + 1) (Function.update slots i (slots (i + 1)))

/-- `map_delete`. -/
def mapDelete (m : PmmMap) (index : Nat) : PmmMap where
  size := m.size - 1
  slots := shiftDown (m.size - 1 - index) index m.slots
  size_le := (Nat.sub_le _ _).trans m.size_le

/-! ## `pmm_map_set` -/

/-- The variables the loop of `pmm_map_set` changes. -/
structure SetCursor where
  map : PmmMap
  i : Nat
  base : Nat
  length : Nat

/-- How the body of the loop ends. -/
inductive SetStep where
  /-- `return`. -/
  | done (map : PmmMap)
  /-- On to `i++`. -/
  | next (c : SetCursor)
  /-- `pmm_map_set(endBase, endLength, type, true)`, then on to `i++`. -/
  | split (c : SetCursor) (endBase endLength : Nat) (type : PmmMapType)
  /-- `pmm_map_set` on the start, then on the end, then `return`. -/
  | around (map : PmmMap) (startBase startLength endBase endLength : Nat)

/-- The block under "Start of entry overlaps with map entry"; `k` is the slot `map_entry` points
to. -/
def trimStart (k : Nat) (override : Bool) (c : SetCursor) : SetCursor :=
  let e := c.map.slots k
  let amount := sub64 (add64 e.base e.length) c.base
  if override then
    let m := c.map.set k { e with length := sub64 e.length amount }
    if (m.slots k).length = 0 then { c with map := mapDelete m c.i, i := sub64 c.i 1 }
    else { c with map := m }
  else { c with length := sub64 c.length amount, base := add64 c.base amount }

/-- The block under "End of entry overlaps with map entry". -/
def trimEnd (k : Nat) (override : Bool) (c : SetCursor) : SetCursor :=
  let e := c.map.slots k
  let amount := sub64 (add64 c.base c.length) e.base
  if override then
    let m := c.map.set k { e with base := add64 e.base amount, length := sub64 e.length amount }
    if (m.slots k).length = 0 then { c with map := mapDelete m c.i, i := sub64 c.i 1 }
    else { c with map := m }
  else { c with length := sub64 c.length amount }

/-- The blocks under "Entry falls over map entry" and "Entry equals map entry". -/
def coverStep (k : Nat) (override : Bool) (c : SetCursor) : SetStep :=
  let e := c.map.slots k
  let stop := add64 c.base c.length
  let entryStop := add64 e.base e.length
  if c.base < e.base ∧ entryStop < stop then
    if override then .next { c with map := mapDelete c.map c.i, i := sub64 c.i 1 }
    else .around c.map c.base (sub64 e.base c.base) entryStop (sub64 stop entryStop)
  else if c.base = e.base ∧ c.length = e.length then
    if override then .next { c with map := mapDelete c.map c.i, i := sub64 c.i 1 }
    else .done c.map
  else .next c

/-- `type > map_entry->type || force`. -/
def overrides (type : PmmMapType) (force : Bool) (old : PmmMapType) : Bool :=
  decide (old.val < type.val) || force

/-- The body of the loop of `pmm_map_set`. -/
def setStep (type : PmmMapType) (force : Bool) (c : SetCursor) : SetStep :=
  let e := c.map.slots c.i
  let override := overrides type force e.type
  let stop := add64 c.base c.length
  let entryStop := add64 e.base e.length
  let overlapStart := decide (e.base < c.base ∧ c.base < entryStop)
  let overlapEnd := decide (e.base < stop ∧ stop < entryStop)
  if overlapStart && overlapEnd then
    if !override then .done c.map
    else .split { c with map := c.map.set c.i { e with length := sub64 c.base e.base } }
      stop (sub64 entryStop stop) e.type
  else
    let k := c.i
    let c := if overlapStart then trimStart k override c else c
    let c := if overlapEnd then trimEnd k override c else c
    coverStep k override c

/-- `for(; i < g_pmm_map_size && g_pmm_map[i].base <= base; i++);`, with `n` slots left to see. -/
def insertIndex (m : PmmMap) (base : Nat) : Nat → Nat → Nat
  | 0, i => i
  | n + 1, i => if (m.slots i).base ≤ base then insertIndex m base n (i + 1) else i

/-- What `pmm_map_set` does after its loop. -/
def setInsert (m : PmmMap) (base length : Nat) (type : PmmMapType) : Except Stop PmmMap :=
  if length = 0 then .ok m
  else
    let i := insertIndex m base m.size 0
    let prev := m.slots (i - 1)
    if i ≠ 0 ∧ prev.type = type ∧ add64 prev.base prev.length = base then
      .ok (m.set (i - 1) { prev with length := add64 prev.length length })
    else if i ≥ pmmMapMaxEntries then .error .fault
    else
      let next := m.slots i
      if next.type = type ∧ next.base = add64 base length then
        .ok (m.set i { next with base := base, length := add64 next.length length })
      else mapInsert m i ⟨base, length, type⟩

/-- The loop of `pmm_map_set` from index `i` on, and what follows it. -/
def setFrom : Nat → SetCursor → PmmMapType → Bool → Except Stop PmmMap
  | 0, _, _, _ => .error .fuel
  | fuel + 1, c, type, force =>
    if c.i < c.map.size then
      match setStep type force c with
      | .done m => .ok m
      | .next c => setFrom fuel { c with i := add64 c.i 1 } type force
      | .split c endBase endLength entryType => do
        let m ← setFrom fuel ⟨c.map, 0, endBase, endLength⟩ entryType true
        setFrom fuel { c with map := m, i := add64 c.i 1 } type force
      | .around m startBase startLength endBase endLength => do
        let m ← setFrom fuel ⟨m, 0, startBase, startLength⟩ type force
        setFrom fuel ⟨m, 0, endBase, endLength⟩ type force
    else setInsert c.map c.base c.length type

/-- The fuel `pmmMapSet` runs on.  A tiled map needs about a million steps at most, see
`setFrom_spec`. -/
def setFuel : Nat := 2 ^ 64

/-- `pmm_map_set`. -/
def pmmMapSet (m : PmmMap) (base length : Nat) (type : PmmMapType) (force : Bool) :
    Except Stop PmmMap :=
  setFrom setFuel ⟨m, 0, base, length⟩ type force

/-- `pmm_map_add`. -/
def pmmMapAdd (m : PmmMap) (base length : Nat) (type : PmmMapType) : Except Stop PmmMap :=
  if length = 0 then .ok m else pmmMapSet m base length type false

/-! ## The allocator -/

/-- The test of the loop of `pmm_alloc_at`: some free entry holds `[address, address + length)`, with
`n` slots left to see. -/
def allocAtFit (m : PmmMap) (address length : Nat) : Nat → Nat → Bool
  | 0, _ => false
  | n + 1, i =>
    let e := m.slots i
    if e.type ≠ .free then allocAtFit m address length n (i + 1)
    else if address < e.base ∨ add64 e.base e.length < add64 address length then
      allocAtFit m address length n (i + 1)
    else true

/-- `pmm_alloc_at`. -/
def pmmAllocAt (m : PmmMap) (address pageCount : Nat) (type : PmmMapType) :
    Except Stop (Bool × PmmMap) :=
  let length := mul64 pageCount ptmPageGranularity
  if allocAtFit m address length m.size 0 then do
    let m ← pmmMapSet m address length type true
    .ok (true, m)
  else .ok (false, m)

/-- The loop of `pmm_alloc_ext`: the first entry the block fits into, with `n` slots left to see.
It gives the address the block would have. -/
def allocFit (m : PmmMap) (length alignment : Nat) : Nat → Nat → Option Nat
  | 0, _ => none
  | n + 1, i =>
    let e := m.slots i
    if e.type ≠ .free then allocFit m length alignment n (i + 1)
    else
      let ueBase := mathCeil e.base alignment
      if add64 e.base e.length ≤ ueBase then allocFit m length alignment n (i + 1)
      else if sub64 e.length (sub64 ueBase e.base) < length then
        allocFit m length alignment n (i + 1)
      else some ueBase

/-- `pmm_alloc_ext`. -/
def pmmAllocExt (m : PmmMap) (pageCount alignment : Nat) (type : PmmMapType) :
    Except Stop (Nat × PmmMap) :=
  let length := mul64 pageCount ptmPageGranularity
  match allocFit m length alignment m.size 0 with
  | some ueBase => do
    let m ← pmmMapSet m ueBase length type true
    .ok (ueBase, m)
  | none => .error (.panic "out of memory" [])

/-- `pmm_alloc`. -/
def pmmAlloc (m : PmmMap) (pageCount : Nat) : Except Stop (Nat × PmmMap) :=
  pmmAllocExt m pageCount ptmPageGranularity .allocated

/-- `pmm_free`. -/
def pmmFree (m : PmmMap) (address pageCount : Nat) : Except Stop PmmMap :=
  pmmMapSet m address (mul64 pageCount ptmPageGranularity) .free true

end LunarPrekernel
