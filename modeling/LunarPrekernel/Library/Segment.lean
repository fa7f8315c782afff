import LunarPrekernel.Library.Threads

/-!
# Segment registers of an x86 processor in 64-bit mode

A selector names a descriptor in the global descriptor table, and loading a segment register with it
makes the processor read the descriptor from memory and check it.  `Op` is the instructions that
load segment registers and the descriptor tables' registers, executed at privilege level 0, and
`exec` is what they do; `none` is a general-protection, stack or not-present fault.  The processor
also writes to the table: it marks a segment as accessed and a task state segment as busy.

`phys` says where a linear address is in memory.  A selector into a local descriptor table is not
covered, and loading it counts as a fault.

* `exec_private` — an instruction keeps to the bytes of its descriptor.
* `lgdt_private` — `lgdt` keeps to any bytes.
-/

set_option autoImplicit false

namespace Segment

/-! ## Descriptors -/

/-- A descriptor, with its fields put together; the last two are those of the upper half that a
system descriptor has. -/
structure Descriptor where
  base : Nat
  limit : Nat
  access : Nat
  flags : Nat
  baseUpper : Nat
  typeUpper : Nat
deriving DecidableEq

namespace Descriptor

/-- The descriptor at `a`. -/
def read (m : Memory) (a : Nat) : Descriptor where
  base := m.load (a + 2) 3 + 2 ^ 24 * m.load (a + 7) 1
  limit := m.load a 2 + 2 ^ 16 * (m.load (a + 6) 1 % 16)
  access := m.load (a + 5) 1
  flags := m.load (a + 6) 1 / 16
  baseUpper := m.load (a + 8) 4
  typeUpper := m.load (a + 13) 1 % 32

theorem read_congr {m m' : Memory} {a : Nat} (h : ∀ i < 16, m (a + i) = m' (a + i)) :
    read m a = read m' a := by
  have hload : ∀ k n, k + n ≤ 16 → m.load (a + k) n = m'.load (a + k) n := fun k n hk ↦
    Memory.load_congr fun x h1 h2 ↦ by
      have := h (x - a) (by omega)
      rwa [Nat.add_sub_cancel' (by omega)] at this
  have hzero : m.load a 2 = m'.load a 2 := hload 0 2 (by decide)
  simp only [read, hzero, hload 2 3 (by decide), hload 7 1 (by decide), hload 6 1 (by decide),
    hload 5 1 (by decide), hload 8 4 (by decide), hload 13 1 (by decide)]

/-- A descriptor among bytes that have been written. -/
theorem read_write {m : Memory} {a k : Nat} {l : List UInt8} (h : k + 16 ≤ l.length) :
    read (m.write a l) (a + k) = read (fun i ↦ l.getD i 0) k := by
  have hload : ∀ i n, k + i + n ≤ l.length → (m.write a l).load (a + k + i) n =
      Memory.load (fun i ↦ l.getD i 0) (k + i) n := by
    intro i n
    induction n generalizing i with
    | zero => exact fun _ ↦ rfl
    | succ n ih =>
      intro hn
      have hbyte : m.write a l (a + k + i) = l.getD (k + i) 0 := by
        rw [Nat.add_assoc, Memory.spells_write m a l (k + i) (by omega),
          List.getD_eq_getElem?_getD, List.getElem?_eq_getElem (by omega), Option.getD_some]
      rw [Memory.load_succ, Memory.load_succ, hbyte, Nat.add_assoc (a + k) i 1, ih (i + 1) (by omega),
        Nat.add_assoc k i 1]
  have hzero : (m.write a l).load (a + k) 2 = Memory.load (fun i ↦ l.getD i 0) k 2 :=
    hload 0 2 (by omega)
  simp only [read, hzero, hload 2 3 (by omega), hload 7 1 (by omega), hload 6 1 (by omega),
    hload 5 1 (by omega), hload 8 4 (by omega), hload 13 1 (by omega)]

variable (d : Descriptor)

def present : Bool := d.access.testBit 7

/-- The privilege level. -/
def dpl : Nat := d.access / 2 ^ 5 % 4

/-- A code or data segment, not a system segment. -/
def segment : Bool := d.access.testBit 4

def code : Bool := d.access.testBit 3

/-- A data segment that can be written, or a code segment that can be read. -/
def readWrite : Bool := d.access.testBit 1

def accessed : Bool := d.access.testBit 0

/-- 64-bit code: the L flag without the D flag. -/
def long : Bool := d.flags.testBit 1 && !d.flags.testBit 2

/-- The limit in bytes. -/
def bytes : Nat := if d.flags.testBit 3 then d.limit * 2 ^ 12 + (2 ^ 12 - 1) else d.limit

/-- What `cs` takes at privilege level 0. -/
def code64 : Bool := d.present && d.segment && d.code && d.dpl == 0 && d.long

/-- What `ltr` takes: an available 64-bit task state segment. -/
def freeTss : Bool := d.present && !d.segment && d.access % 16 == 9 && d.typeUpper == 0

end Descriptor

/-! ## The instructions -/

/-- The table's register, the selectors, and what the task register has taken from its descriptor. -/
structure Registers where
  gdtBase : Nat
  gdtLimit : Nat
  cs : Nat
  ds : Nat
  es : Nat
  ss : Nat
  tr : Nat
  ldtr : Nat
  tssBase : Nat
  tssLimit : Nat
deriving DecidableEq

inductive DataRegister where
  | ds
  | es
  | ss
deriving DecidableEq

/-- What the register takes at privilege level 0, with the requested level of the selector. -/
def Descriptor.takenBy (d : Descriptor) (rpl : Nat) : DataRegister → Bool
  | .ss => d.present && d.segment && !d.code && d.readWrite && d.dpl == 0 && rpl == 0
  | _ => d.present && d.segment && (!d.code || d.readWrite) && decide (rpl ≤ d.dpl)

/-- `mov` to a segment register. -/
def Registers.setData (s : Registers) : DataRegister → Nat → Registers
  | .ds, sel => { s with ds := sel }
  | .es, sel => { s with es := sel }
  | .ss, sel => { s with ss := sel }

inductive Op where
  | lgdt (base limit : Nat)
  /-- A far return. -/
  | loadCs (sel : Nat)
  | loadData (r : DataRegister) (sel : Nat)
  | ltr (sel : Nat)
  | lldt (sel : Nat)
deriving DecidableEq

namespace Op

/-- The offset of the descriptor in its table. -/
def index : Op → Nat
  | lgdt _ _ => 0
  | loadCs sel => sel / 8 * 8
  | loadData _ sel => sel / 8 * 8
  | ltr sel => sel / 8 * 8
  | lldt sel => sel / 8 * 8

end Op

/-- The selector is for the global table, and the `n` bytes of its descriptor are within the limit. -/
def Registers.Selects (s : Registers) (sel n : Nat) : Prop :=
  4 ≤ sel ∧ sel / 4 % 2 = 0 ∧ sel / 8 * 8 + n ≤ s.gdtLimit + 1

instance (s : Registers) (sel n : Nat) : Decidable (s.Selects sel n) :=
  inferInstanceAs (Decidable (_ ∧ _ ∧ _))

/-- What becomes of the registers, and of the descriptor's access byte, which may be stored back. -/
def outcome (s : Registers) (d : Descriptor) : Op → Option (Option Nat × Registers)
  | .lgdt base limit => some (none, { s with gdtBase := base, gdtLimit := limit })
  | .loadCs sel =>
    if s.Selects sel 8 ∧ sel % 4 = 0 ∧ d.code64 then
      some (if d.accessed then none else some (d.access + 1), { s with cs := sel })
    else none
  | .loadData r sel =>
    if sel < 4 then if r = .ss ∧ sel ≠ 0 then none else some (none, s.setData r sel)
    else if s.Selects sel 8 ∧ d.takenBy (sel % 4) r then
      some (if d.accessed then none else some (d.access + 1), s.setData r sel)
    else none
  | .ltr sel =>
    if s.Selects sel 16 ∧ d.freeTss then
      some (some (d.access + 2),
        { s with tr := sel, tssBase := d.base + 2 ^ 32 * d.baseUpper, tssLimit := d.bytes })
    else none
  | .lldt sel => if sel < 4 then some (none, { s with ldtr := sel }) else none

/-- One instruction. -/
def exec (phys : Nat → Nat) (o : Op) (m : Memory) (s : Registers) : Option (Memory × Registers) :=
  let a := phys (s.gdtBase + o.index)
  (outcome s (.read m a) o).map fun r ↦
    (match r.1 with
      | none => m
      | some access => m.write (a + 5) [UInt8.ofNat access], r.2)

section Private

variable {phys : Nat → Nat} {o : Op} {m : Memory} {s : Registers} {r : Memory × Registers}
  {R W : Set Nat}

theorem exec_cases (h : exec phys o m s = some r) :
    ∃ mark, outcome s (.read m (phys (s.gdtBase + o.index))) o = some (mark, r.2) ∧
      r.1 = match mark with
        | none => m
        | some access => m.write (phys (s.gdtBase + o.index) + 5) [UInt8.ofNat access] := by
  obtain ⟨⟨mark, s'⟩, hout, rfl⟩ := Option.map_eq_some_iff.mp h
  exact ⟨mark, hout, rfl⟩

theorem write_one_of_ne {a x : Nat} {b : UInt8} (h : x ≠ a) : m.write a [b] x = m x :=
  dif_neg fun hx ↦ h (by simp only [List.length_singleton] at hx; omega)

theorem write_one_self (a : Nat) (b : UInt8) : m.write a [b] a = b := by
  rw [Memory.write, dif_pos ⟨le_rfl, by simp only [List.length_singleton]; omega⟩]
  simp only [Nat.sub_self, List.getElem_cons_zero]

/-- **An instruction keeps to the bytes of its descriptor.** -/
theorem exec_private (hR : ∀ i < 16, phys (s.gdtBase + o.index) + i ∈ R)
    (hW : phys (s.gdtBase + o.index) + 5 ∈ W) :
    Threads.Private (exec phys) R W o s where
  frame {m r} h x hx := by
    obtain ⟨mark, -, hr⟩ := exec_cases h
    rw [hr]
    cases mark with
    | none => rfl
    | some access =>
      refine write_one_of_ne ?_
      rintro rfl
      exact hx hW
  congr {m m' r} heq h := by
    obtain ⟨mark, hout, hr⟩ := exec_cases h
    have hread := Descriptor.read_congr fun i hi ↦ heq (hR i hi)
    rw [hread] at hout
    refine ⟨_, Option.map_eq_some_iff.mpr ⟨(mark, r.2), hout, rfl⟩, ?_⟩
    rw [hr]
    cases mark with
    | none => exact heq
    | some access =>
      intro x hx
      dsimp only
      rcases eq_or_ne x (phys (s.gdtBase + o.index) + 5) with rfl | hne
      · rw [write_one_self, write_one_self]
      · rw [write_one_of_ne hne, write_one_of_ne hne, heq hx]

/-- The bytes of a table, once the descriptor at `index` has been marked. -/
def marked (l : List UInt8) (index : Nat) : Option Nat → List UInt8
  | none => l
  | some access => Memory.splice l (index + 5) [UInt8.ofNat access]

/-- An instruction whose descriptor is among bytes that have been written. -/
theorem exec_write {a : Nat} {l : List UInt8}
    (hphys : phys (s.gdtBase + o.index) = a + o.index) (hlen : o.index + 16 ≤ l.length) :
    exec phys o (m.write a l) s =
      (outcome s (.read (fun i ↦ l.getD i 0) o.index) o).map fun r ↦
        (m.write a (marked l o.index r.1), r.2) := by
  rw [exec, hphys, Descriptor.read_write hlen]
  congr 1
  funext r
  obtain ⟨mark, s'⟩ := r
  cases mark with
  | none => rfl
  | some access =>
    dsimp only
    rw [Nat.add_assoc, Memory.write_write, marked]
    rw [List.length_singleton]
    omega

/-- The table's register is set without any access to the table. -/
theorem exec_lgdt (base limit : Nat) : exec phys (.lgdt base limit) m s =
    some (m, { s with gdtBase := base, gdtLimit := limit }) := rfl

theorem lgdt_private (base limit : Nat) :
    Threads.Private (exec phys) R W (.lgdt base limit) s where
  frame h := by
    obtain rfl := Option.some.inj h
    exact fun _ _ ↦ rfl
  congr heq h := by
    obtain rfl := Option.some.inj h
    exact ⟨_, rfl, heq⟩

/-- Only `lgdt` changes the table's register. -/
theorem exec_gdt (ho : ∀ base limit, o ≠ .lgdt base limit) (h : exec phys o m s = some r) :
    r.2.gdtBase = s.gdtBase ∧ r.2.gdtLimit = s.gdtLimit := by
  obtain ⟨mark, hout, -⟩ := exec_cases h
  cases o with
  | lgdt base limit => exact absurd rfl (ho base limit)
  | loadCs sel =>
    rw [outcome] at hout
    split at hout
    · obtain ⟨-, hs⟩ := Prod.mk.inj (Option.some.inj hout)
      rw [← hs]
      exact ⟨rfl, rfl⟩
    · cases hout
  | loadData reg sel =>
    have hset : (s.setData reg sel).gdtBase = s.gdtBase ∧
        (s.setData reg sel).gdtLimit = s.gdtLimit := by
      cases reg <;> exact ⟨rfl, rfl⟩
    rw [outcome] at hout
    split at hout
    · split at hout
      · cases hout
      · obtain ⟨-, hs⟩ := Prod.mk.inj (Option.some.inj hout)
        rwa [← hs]
    · split at hout
      · obtain ⟨-, hs⟩ := Prod.mk.inj (Option.some.inj hout)
        rwa [← hs]
      · cases hout
  | ltr sel =>
    rw [outcome] at hout
    split at hout
    · obtain ⟨-, hs⟩ := Prod.mk.inj (Option.some.inj hout)
      rw [← hs]
      exact ⟨rfl, rfl⟩
    · cases hout
  | lldt sel =>
    rw [outcome] at hout
    split at hout
    · obtain ⟨-, hs⟩ := Prod.mk.inj (Option.some.inj hout)
      rw [← hs]
      exact ⟨rfl, rfl⟩
    · cases hout

end Private

end Segment
