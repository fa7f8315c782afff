import LunarPrekernel.Library.Segment
import LunarPrekernel.Machine
import Mathlib.Data.Nat.Bitwise

/-!
# What an x86_64 core does to itself

`arch_machine_init` runs on every core before the handoff.  It sets up the control registers from
what `cpuid` says, fills in the core's own GDT and loads the segment registers from it, and sets the
two bases of `gs`.  `CoreOp` is what it does, one access of memory or one privileged instruction at a
time, so that the cores can be interleaved.

Addresses are physical, as in the other modules about memory: `core_info` and `core_arch_info` are
pointers into the direct map, and an access through them is an access at the pointer less
`hhdm_offset`.  The pushes of `arch_gdt_load_gdt` go to the core's own stack, and the log to the
console; neither is modelled.

* `controlRegisters_of_ok` — the control registers, bit by bit.
* `archMachineInit_alone` — what a core leaves behind that runs alone.
-/

set_option autoImplicit false

namespace LunarPrekernel

open Memory

namespace X86

/-! ## `cpuid` -/

/-- `arch_cpuid_reg_t`. -/
inductive ArchCpuidReg where
  | eax
  | ebx
  | ecx
  | edx
deriving DecidableEq

/-- `arch_cpuid`, by leaf and subleaf: what the processor answers. -/
abbrev ArchCpuid := Nat → Nat → ArchCpuidReg → Nat

/-- `arch_cpuid_feature_t`, without the mask: `CPUID_FEATURE_DEFINE` is given the bit. -/
structure ArchCpuidFeature where
  leaf : Nat
  subleaf : Nat
  reg : ArchCpuidReg
  bit : Nat

namespace ArchCpuidFeature

def getFeatures : Nat := 0x1
def getExtendedFeatures : Nat := 0x7
def extendedProcessorInfo : Nat := 0x80000001

def la57 : ArchCpuidFeature := ⟨getExtendedFeatures, 0, .ecx, 16⟩
def globalPages : ArchCpuidFeature := ⟨getFeatures, 0, .edx, 13⟩
def pdpe1gbPages : ArchCpuidFeature := ⟨extendedProcessorInfo, 0, .edx, 26⟩
def nxPages : ArchCpuidFeature := ⟨extendedProcessorInfo, 0, .edx, 20⟩
def pat : ArchCpuidFeature := ⟨getFeatures, 0, .edx, 16⟩
def fxsr : ArchCpuidFeature := ⟨getFeatures, 0, .edx, 24⟩
def xsave : ArchCpuidFeature := ⟨getFeatures, 0, .ecx, 26⟩
def avx : ArchCpuidFeature := ⟨getFeatures, 0, .ecx, 28⟩
def avx512 : ArchCpuidFeature := ⟨getExtendedFeatures, 0, .ebx, 16⟩
def smap : ArchCpuidFeature := ⟨getExtendedFeatures, 0, .ebx, 20⟩
def smep : ArchCpuidFeature := ⟨getExtendedFeatures, 0, .ebx, 7⟩
def umip : ArchCpuidFeature := ⟨getExtendedFeatures, 0, .ecx, 2⟩
def fred : ArchCpuidFeature := ⟨getExtendedFeatures, 1, .eax, 17⟩

def mask (f : ArchCpuidFeature) : Nat := 1 <<< f.bit

end ArchCpuidFeature

/-- `arch_cpuid_is_feature_supported`. -/
def ArchCpuid.supported (cpuid : ArchCpuid) (f : ArchCpuidFeature) : Bool :=
  cpuid f.leaf f.subleaf f.reg &&& f.mask != 0

/-! ## A core -/

/-- The registers of a core, and what `arch_machine_init` was called with. -/
structure Core where
  cpuid : ArchCpuid
  /-- `core_info`. -/
  coreInfo : Nat
  /-- `core_arch_info`. -/
  coreArchInfo : Nat
  cr0 : Nat
  cr4 : Nat
  xcr0 : Nat
  msr : Nat → Nat
  seg : Segment.Registers

def archMsrEfer : Nat := 0xC0000080
def archMsrActiveGsBase : Nat := 0xC0000101
def archMsrInactiveGsBase : Nat := 0xC0000102
def archMsrPatMsr : Nat := 0x277

/-- `arch_msr_write`: the value goes through `edx:eax`. -/
def Core.archMsrWrite (r : Core) (msr value : Nat) : Core :=
  let eax := value % 2 ^ 32
  let edx := (value >>> 32) % 2 ^ 32
  { r with msr := Function.update r.msr msr (edx <<< 32 ||| eax) }

/-- `arch_msr_read`. -/
def Core.archMsrRead (r : Core) (msr : Nat) : Nat :=
  let low := r.msr msr % 2 ^ 32
  let high := (r.msr msr >>> 32) % 2 ^ 32
  add64 low (high <<< 32)

/-- `if(cond) { value |= 1 << bit; }`. -/
def orBitIf (cond : Bool) (bit value : Nat) : Nat := if cond then value ||| 1 <<< bit else value

/-! ## `machine_setup_control_registers` -/

def patUncacheable : Nat := 0
def patWriteCombining : Nat := 1
def patWriteThrough : Nat := 4
def patWriteBack : Nat := 6
def patUncached : Nat := 7

/-- The value of `setup_page_table_attributes`. -/
def patValue : Nat :=
  patWriteBack ||| patWriteThrough <<< 8 ||| patUncached <<< 16 ||| patUncacheable <<< 24 |||
    patWriteCombining <<< 32 ||| patUncacheable <<< 40 ||| patUncacheable <<< 48 |||
    patUncacheable <<< 56

/-- `setup_page_table_attributes`. -/
def setupPageTableAttributes (r : Core) : Core := r.archMsrWrite archMsrPatMsr patValue

/-- The value that is computed for `xcr0`. -/
def xcr0Value (cpuid : ArchCpuid) : Nat :=
  if cpuid.supported .xsave then
    let xcr0 := 0 ||| 1 <<< 0 ||| 1 <<< 1
    let xcr0 := orBitIf (cpuid.supported .avx) 2 xcr0
    if cpuid.supported .avx512 then xcr0 ||| 1 <<< 5 ||| 1 <<< 6 ||| 1 <<< 7 else xcr0
  else 0

/-- `write_xcr0`. -/
def writeXcr0 : Bool := false

/-- The value that is computed for `cr4`. -/
def cr4Value (cpuid : ArchCpuid) (cr4 : Nat) : Nat :=
  let la57 := cr4 &&& 1 <<< 12 != 0
  let cr4 := 0x620
  let cr4 := orBitIf la57 12 cr4
  let cr4 := orBitIf (cpuid.supported .umip) 11 cr4
  let cr4 := orBitIf (cpuid.supported .smep) 20 cr4
  let cr4 := orBitIf (cpuid.supported .smap) 21 cr4
  let cr4 := orBitIf (cpuid.supported .fred) 32 cr4
  let cr4 := orBitIf (cpuid.supported .globalPages) 7 cr4
  orBitIf (cpuid.supported .xsave) 18 cr4

/-- `machine_setup_control_registers`. -/
def machineSetupControlRegisters (r : Core) : Except Stop Core :=
  if !r.cpuid.supported .fxsr then .error (.panic "FXSR not supported on this CPU!" [])
  else
    let cr4 := r.cr4
    let r := { r with cr0 := 0x80010013 }
    let r := if r.cpuid.supported .pat then setupPageTableAttributes r else r
    let r := { r with cr4 := cr4Value r.cpuid cr4 }
    let r := if writeXcr0 then { r with xcr0 := xcr0Value r.cpuid } else r
    .ok (if r.cpuid.supported .nxPages then
      r.archMsrWrite archMsrEfer (r.archMsrRead archMsrEfer ||| 1 <<< 11) else r)

/-! ## The GDT -/

/-- `arch_gdt_entry_t`. -/
structure ArchGdtEntry where
  limitLow : Nat
  baseLow : Nat
  baseMid : Nat
  access : Nat
  limitHighFlags : Nat
  baseHigh : Nat

/-- `arch_gdt_system_entry_t`. -/
structure ArchGdtSystemEntry where
  entry : ArchGdtEntry
  baseExtended : Nat
  reserved0 : Nat

/-- `arch_gdt_t`. -/
structure ArchGdt where
  null : ArchGdtEntry
  kernelCode : ArchGdtEntry
  kernelData : ArchGdtEntry
  userCode32 : ArchGdtEntry
  userData : ArchGdtEntry
  userCode : ArchGdtEntry
  tss : ArchGdtSystemEntry

/-- The entry in memory; the structures are packed. -/
def ArchGdtEntry.bytes (e : ArchGdtEntry) : List UInt8 :=
  littleEndian 2 e.limitLow ++ littleEndian 2 e.baseLow ++ littleEndian 1 e.baseMid ++
    littleEndian 1 e.access ++ littleEndian 1 e.limitHighFlags ++ littleEndian 1 e.baseHigh

def ArchGdtSystemEntry.bytes (e : ArchGdtSystemEntry) : List UInt8 :=
  e.entry.bytes ++ littleEndian 4 e.baseExtended ++ littleEndian 4 e.reserved0

/-- The segments without the task state segment, which is last. -/
def ArchGdt.segments (g : ArchGdt) : List UInt8 :=
  g.null.bytes ++ g.kernelCode.bytes ++ g.kernelData.bytes ++ g.userCode32.bytes ++
    g.userData.bytes ++ g.userCode.bytes

def ArchGdt.bytes (g : ArchGdt) : List UInt8 := g.segments ++ g.tss.bytes

theorem ArchGdtEntry.length_bytes (e : ArchGdtEntry) : e.bytes.length = 8 := rfl

theorem ArchGdt.length_segments (g : ArchGdt) : g.segments.length = 48 := by
  simp only [ArchGdt.segments, List.length_append, ArchGdtEntry.length_bytes]

theorem ArchGdt.length_bytes (g : ArchGdt) : g.bytes.length = 64 := by
  rw [ArchGdt.bytes, ArchGdtSystemEntry.bytes, List.length_append, List.length_append,
    List.length_append, g.length_segments, g.tss.entry.length_bytes]
  rfl

/-- `DEFINE_SEGMENT`. -/
def defineSegment (access flags : Nat) : ArchGdtEntry := ⟨0, 0, 0, access, flags <<< 4, 0⟩

/-- `g_arch_gdt_static_data`. -/
def archGdtStaticData : ArchGdt where
  null := ⟨0, 0, 0, 0, 0, 0⟩
  kernelCode := defineSegment 0x9b 0xA
  kernelData := defineSegment 0x93 0xC
  userCode32 := defineSegment 0xfb 0xA
  userData := defineSegment 0xf3 0xC
  userCode := defineSegment 0xfb 0xA
  tss := ⟨⟨0, 0, 0, 0, 0, 0⟩, 0, 0⟩

/-- `__builtin_offsetof(arch_gdt_t, kernel_code)`, and the other two. -/
def offsetKernelCode : Nat := 8
def offsetKernelData : Nat := 16
def offsetTss : Nat := 48

/-- `sizeof(arch_gdt_t)`, `sizeof(arch_gdt_tss_t)`, and the record of the two. -/
def sizeofArchGdt : Nat := 64
def sizeofArchGdtTss : Nat := 104
def sizeofArchCoreStartInfo : Nat := sizeofArchGdt + sizeofArchGdtTss

/-- `(uintptr_t) &block->tss`. -/
def tssBase (block : Nat) : Nat := add64 block sizeofArchGdt

/-- `tss_limit`. -/
def tssLimit : Nat := sizeofArchGdtTss - 1

/-! ## The operations of a core -/

inductive CoreOp where
  | setupControlRegisters
  /-- `core_info->arch_pointer` is loaded. -/
  | loadArchPointer
  /-- A store into the record at `core_arch_info`, at an offset; the value depends on the pointer. -/
  | store (offset : Nat) (value : Nat → List UInt8)
  /-- An instruction for the segment registers; its operand depends on the pointer. -/
  | segment (o : Nat → Segment.Op)
  /-- `arch_msr_write`, with a value from the record at `core_info`. -/
  | writeMsr (msr : Nat) (value : (Nat → Nat) → Nat)

/-- `arch_gdt_load_gdt`. -/
def archGdtLoadGdt (base : Nat → Nat) (limit cs ds tr : Nat) : List CoreOp :=
  [.segment fun block ↦ .lgdt (base block) limit, .segment fun _ ↦ .loadCs cs,
    .segment fun _ ↦ .loadData .ds ds, .segment fun _ ↦ .loadData .es ds,
    .segment fun _ ↦ .loadData .ss ds, .segment fun _ ↦ .ltr tr]

/-- The fields of the task state segment's entry, with their places in the record. -/
def tssFields : List (Nat × (Nat → List UInt8)) :=
  [(48, fun _ ↦ littleEndian 2 (tssLimit &&& 0xFFFF)),
    (50, fun block ↦ littleEndian 2 (tssBase block &&& 0xFFFF)),
    (52, fun block ↦ littleEndian 1 ((tssBase block >>> 16) &&& 0xFF)),
    (53, fun _ ↦ littleEndian 1 0x89),
    (54, fun _ ↦ littleEndian 1 ((tssLimit >>> 16) &&& 0xF)),
    (55, fun block ↦ littleEndian 1 ((tssBase block >>> 24) &&& 0xFF)),
    (56, fun block ↦ littleEndian 4 (tssBase block >>> 32)),
    (60, fun _ ↦ littleEndian 4 0)]

/-- The stores of `machine_setup_gdt`: a `memcpy`, and the fields. -/
def gdtStores : List CoreOp :=
  (.store 0 fun _ ↦ archGdtStaticData.bytes) :: tssFields.map fun x ↦ .store x.1 x.2

/-- `machine_setup_gdt`. -/
def machineSetupGdt : List CoreOp :=
  gdtStores ++ archGdtLoadGdt id (sizeofArchGdt - 1) offsetKernelCode offsetKernelData offsetTss ++
    [.segment fun _ ↦ .lldt 0]

/-- `arch_machine_init`. -/
def archMachineInit : List CoreOp :=
  [.loadArchPointer, .setupControlRegisters] ++ machineSetupGdt ++
    [.writeMsr archMsrActiveGsBase fun coreInfo ↦ coreInfo 16,
      .writeMsr archMsrInactiveGsBase fun _ ↦ 0]

/-- Where a pointer into the direct map leads. -/
def physOf (hhdmOffset : Nat) (a : Nat) : Nat := sub64 a hhdmOffset

/-- One operation. -/
def CoreOp.exec (hhdmOffset : Nat) : CoreOp → Memory → Core → Option (Memory × Core)
  | .setupControlRegisters, m, r =>
    (machineSetupControlRegisters r).toOption.map fun r ↦ (m, r)
  | .loadArchPointer, m, r =>
    some (m, { r with coreArchInfo := m.load (physOf hhdmOffset r.coreInfo + 24) 8 })
  | .store offset value, m, r =>
    some (m.write (physOf hhdmOffset r.coreArchInfo + offset) (value r.coreArchInfo), r)
  | .segment o, m, r =>
    (Segment.exec (physOf hhdmOffset) (o r.coreArchInfo) m r.seg).map fun x ↦
      (x.1, { r with seg := x.2 })
  | .writeMsr msr value, m, r =>
    some (m, r.archMsrWrite msr (value fun k ↦ m.load (physOf hhdmOffset r.coreInfo + k) 8))

/-! ## The control registers -/

/-- `cr4` after `machine_setup_control_registers`, bit by bit. -/
def cr4Bit (cpuid : ArchCpuid) (cr4 : Nat) : Nat → Bool
  | 5 => true
  | 7 => cpuid.supported .globalPages
  | 9 => true
  | 10 => true
  | 11 => cpuid.supported .umip
  | 12 => cr4.testBit 12
  | 18 => cpuid.supported .xsave
  | 20 => cpuid.supported .smep
  | 21 => cpuid.supported .smap
  | 32 => cpuid.supported .fred
  | _ => false

section Control

variable {cpuid : ArchCpuid} {r t : Core} {i msr value : Nat}

theorem and_one_shiftLeft_ne_zero (v bit : Nat) : (v &&& 1 <<< bit != 0) = v.testBit bit := by
  rw [Nat.one_shiftLeft, Nat.and_two_pow]
  cases v.testBit bit with
  | false => rw [Bool.toNat_false, Nat.zero_mul, bne_self_eq_false]
  | true =>
    rw [Bool.toNat_true, Nat.one_mul, bne_iff_ne]
    exact (Nat.two_pow_pos bit).ne'

theorem testBit_orBitIf (cond : Bool) (bit v : Nat) :
    (orBitIf cond bit v).testBit i = (v.testBit i || (cond && decide (i = bit))) := by
  cases cond with
  | false => rw [Bool.false_and, Bool.or_false]; rfl
  | true =>
    rw [Bool.true_and]
    show (v ||| 1 <<< bit).testBit i = _
    rw [Nat.testBit_or, Nat.one_shiftLeft, Nat.testBit_two_pow, decide_eq_decide.mpr eq_comm]

theorem testBit_cr4Value (cpuid : ArchCpuid) (cr4 i : Nat) :
    (cr4Value cpuid cr4).testBit i = cr4Bit cpuid cr4 i := by
  have hbase : ∀ i, Nat.testBit 0x620 i = (decide (i = 5) || decide (i = 9) || decide (i = 10)) := by
    intro i
    rw [show 0x620 = 2 ^ 5 ||| 2 ^ 9 ||| 2 ^ 10 from rfl, Nat.testBit_or, Nat.testBit_or,
      Nat.testBit_two_pow, Nat.testBit_two_pow, Nat.testBit_two_pow]
    simp only [eq_comm]
  rw [cr4Value]
  simp only [testBit_orBitIf, and_one_shiftLeft_ne_zero, hbase]
  unfold cr4Bit
  split <;> simp_all

/-- The two halves make up the value again. -/
theorem halves (h : value < 2 ^ 64) :
    ((value >>> 32) % 2 ^ 32) <<< 32 ||| value % 2 ^ 32 = value := by
  have hlt : value >>> 32 < 2 ^ 32 := by
    rw [Nat.shiftRight_eq_div_pow]
    omega
  rw [Nat.mod_eq_of_lt hlt, Nat.shiftLeft_eq, Nat.mul_comm,
    ← Nat.two_pow_add_eq_or_of_lt (Nat.mod_lt _ (Nat.two_pow_pos 32)), Nat.shiftRight_eq_div_pow]
  exact Nat.div_add_mod value (2 ^ 32)

theorem archMsrWrite_eq (h : value < 2 ^ 64) :
    r.archMsrWrite msr value = { r with msr := Function.update r.msr msr value } := by
  rw [Core.archMsrWrite, halves h]

/-- What was written is read. -/
theorem archMsrRead_eq (h : r.msr msr < 2 ^ 64) : r.archMsrRead msr = r.msr msr := by
  have hlow : r.msr msr % 2 ^ 32 < 2 ^ 32 := Nat.mod_lt _ (Nat.two_pow_pos 32)
  have hhigh : r.msr msr >>> 32 % 2 ^ 32 < 2 ^ 32 := Nat.mod_lt _ (Nat.two_pow_pos 32)
  have hhalves := halves h
  rw [Nat.shiftLeft_eq, Nat.mul_comm, ← Nat.two_pow_add_eq_or_of_lt hlow] at hhalves
  rw [Core.archMsrRead, Nat.shiftLeft_eq, add64_eq (by omega), Nat.add_comm, Nat.mul_comm,
    hhalves]

/-- The model-specific registers that are written. -/
def controlMsr (r : Core) : Nat → Nat :=
  let msr := if r.cpuid.supported .pat then Function.update r.msr archMsrPatMsr patValue else r.msr
  if r.cpuid.supported .nxPages then
    Function.update msr archMsrEfer (r.msr archMsrEfer ||| 1 <<< 11)
  else msr

theorem machineSetupControlRegisters_eq (hefer : r.msr archMsrEfer < 2 ^ 64)
    (hfxsr : r.cpuid.supported .fxsr) : machineSetupControlRegisters r =
      .ok { r with cr0 := 0x80010013, cr4 := cr4Value r.cpuid r.cr4, msr := controlMsr r } := by
  have hne : archMsrEfer ≠ archMsrPatMsr := by decide
  have hpat : patValue < 2 ^ 64 := by decide
  have hor : r.msr archMsrEfer ||| 1 <<< 11 < 2 ^ 64 := Nat.or_lt_two_pow hefer (by decide)
  have hset : ∀ s : Core, s.msr archMsrEfer = r.msr archMsrEfer →
      s.archMsrWrite archMsrEfer (s.archMsrRead archMsrEfer ||| 1 <<< 11) =
        { s with msr := Function.update s.msr archMsrEfer (r.msr archMsrEfer ||| 1 <<< 11) } := by
    intro s hs
    rw [archMsrRead_eq (hs ▸ hefer), hs, archMsrWrite_eq hor]
  rw [machineSetupControlRegisters, hfxsr]
  simp only [Bool.not_true, Bool.false_eq_true, if_false, writeXcr0, setupPageTableAttributes,
    archMsrWrite_eq hpat]
  rw [controlMsr]
  cases r.cpuid.supported .pat <;> cases hnx : r.cpuid.supported .nxPages
  · simp only [Bool.false_eq_true, if_false, hnx]
  · simp only [Bool.false_eq_true, if_false, hnx, if_true]
    exact congrArg Except.ok (hset _ rfl)
  · simp only [Bool.false_eq_true, if_false, hnx, if_true]
  · simp only [hnx, if_true]
    exact congrArg Except.ok (hset _ (Function.update_of_ne hne patValue _))

/-- What is in the control registers after `machine_setup_control_registers`. -/
structure ControlRegisters (r t : Core) : Prop where
  fxsr : r.cpuid.supported .fxsr
  cr0 : t.cr0 = 0x80010013
  cr4 : ∀ i, t.cr4.testBit i = cr4Bit r.cpuid r.cr4 i
  /-- Extended states are never enabled, even where `cr4` says that they can be. -/
  xcr0 : t.xcr0 = r.xcr0
  /-- The memory types by index, if the processor has the table. -/
  pat : t.msr archMsrPatMsr = if r.cpuid.supported .pat then 0x100070406 else r.msr archMsrPatMsr
  efer : ∀ i, (t.msr archMsrEfer).testBit i =
    ((r.msr archMsrEfer).testBit i || (r.cpuid.supported .nxPages && decide (i = 11)))
  msr : ∀ i, i ≠ archMsrPatMsr → i ≠ archMsrEfer → t.msr i = r.msr i
  /-- Everything else is as it was. -/
  rest : t.cpuid = r.cpuid ∧ t.coreInfo = r.coreInfo ∧ t.coreArchInfo = r.coreArchInfo ∧
    t.seg = r.seg

theorem controlRegisters_of_ok (hefer : r.msr archMsrEfer < 2 ^ 64)
    (h : machineSetupControlRegisters r = .ok t) : ControlRegisters r t := by
  have hne : archMsrEfer ≠ archMsrPatMsr := by decide
  cases hfxsr : r.cpuid.supported .fxsr with
  | false =>
    rw [machineSetupControlRegisters, hfxsr] at h
    cases h
  | true =>
    obtain rfl := Except.ok.inj ((machineSetupControlRegisters_eq hefer hfxsr).symm.trans h)
    refine ⟨hfxsr, rfl, testBit_cr4Value _ _, rfl, ?_, fun i ↦ ?_, fun i h1 h2 ↦ ?_, rfl, rfl, rfl,
      rfl⟩ <;> dsimp only [controlMsr]
    · split
      · rw [Function.update_of_ne hne.symm]
        split
        · rw [Function.update_self]
          rfl
        · rfl
      · split
        · rw [Function.update_self]
          rfl
        · rfl
    · split
      next hnx =>
        rw [Function.update_self, Nat.testBit_or, Nat.one_shiftLeft, Nat.testBit_two_pow, hnx,
          Bool.true_and, decide_eq_decide.mpr eq_comm]
      next hnx =>
        rw [Bool.not_eq_true] at hnx
        rw [hnx, Bool.false_and, Bool.or_false]
        split
        · rw [Function.update_of_ne hne]
        · rfl
    · split <;> split <;> simp only [Function.update_of_ne h1, Function.update_of_ne h2]

end Control

/-! ## The table of a core -/

/-- The table of the core whose record `block` points to, with the access byte of its task state
segment. -/
def coreGdt (block access : Nat) : ArchGdt :=
  { archGdtStaticData with
    tss :=
      { entry :=
          { limitLow := tssLimit &&& 0xFFFF
            baseLow := tssBase block &&& 0xFFFF
            baseMid := (tssBase block >>> 16) &&& 0xFF
            access := access
            limitHighFlags := (tssLimit >>> 16) &&& 0xF
            baseHigh := (tssBase block >>> 24) &&& 0xFF }
        baseExtended := tssBase block >>> 32
        reserved0 := 0 } }

/-- The segment registers of that core. -/
def coreSegments (block : Nat) : Segment.Registers where
  gdtBase := block
  gdtLimit := 63
  cs := 8
  ds := 16
  es := 16
  ss := 16
  tr := 48
  ldtr := 0
  tssBase := tssBase block
  tssLimit := 103

section Table

variable {o a block access : Nat} {m : Memory} {r : Core}

/-- Stores into bytes that have been written. -/
theorem stores_alone (ss : List (Nat × (Nat → List UInt8))) {l : List UInt8}
    (h : ∀ s ∈ ss, s.1 + (s.2 r.coreArchInfo).length ≤ l.length) :
    Threads.alone (CoreOp.exec o) (ss.map fun s ↦ .store s.1 s.2)
      (m.write (physOf o r.coreArchInfo) l) r =
    some (m.write (physOf o r.coreArchInfo)
      ((ss.map fun s ↦ (s.1, s.2 r.coreArchInfo)).foldl (fun l s ↦ splice l s.1 s.2) l), r) := by
  induction ss generalizing l with
  | nil => rfl
  | cons s ss ih =>
    have hs := h s List.mem_cons_self
    rw [List.map_cons, Threads.alone_cons rfl, write_write _ _ hs, List.map_cons, List.foldl_cons]
    refine ih fun x hx ↦ ?_
    rw [splice_length hs]
    exact h x (List.mem_cons_of_mem s hx)

/-- The stores make up the table. -/
theorem gdtStores_alone : Threads.alone (CoreOp.exec o) gdtStores m r =
    some (m.write (physOf o r.coreArchInfo) (coreGdt r.coreArchInfo 0x89).bytes, r) := by
  have hfirst : CoreOp.exec o (.store 0 fun _ ↦ archGdtStaticData.bytes) m r =
      some (m.write (physOf o r.coreArchInfo) archGdtStaticData.bytes, r) := by
    rw [CoreOp.exec, Nat.add_zero]
  have hlen : archGdtStaticData.bytes.length = 64 := ArchGdt.length_bytes _
  have hfields : ∀ s ∈ tssFields,
      s.1 + (s.2 r.coreArchInfo).length ≤ archGdtStaticData.bytes.length := by
    rw [hlen]
    simp [tssFields, littleEndian_length]
  have hplaces : Consecutive archGdtStaticData.segments.length
      (tssFields.map fun s ↦ (s.1, s.2 r.coreArchInfo)) := by
    simp only [tssFields, List.map_cons, List.map_nil, Consecutive, littleEndian_length]
    decide
  rw [gdtStores, Threads.alone_cons hfirst, stores_alone tssFields hfields, ArchGdt.bytes,
    foldl_splice hplaces]
  · simp only [tssFields, List.map_cons, List.map_nil, List.flatten_cons, List.flatten_nil,
      List.append_nil, ArchGdt.bytes, ArchGdtSystemEntry.bytes, ArchGdtEntry.bytes, coreGdt,
      List.append_assoc, ArchGdt.segments]
  · simp only [tssFields, List.map_cons, List.map_nil, littleEndian_length]
    rfl

/-- The static part. -/
theorem read_static {k : Nat} (hk : k + 16 ≤ 48) :
    Segment.Descriptor.read (fun i ↦ (coreGdt block access).bytes.getD i 0) k =
      Segment.Descriptor.read (fun i ↦ archGdtStaticData.segments.getD i 0) k :=
  Segment.Descriptor.read_congr fun i hi ↦ by
    have hlen : (coreGdt block access).segments.length = 48 := ArchGdt.length_segments _
    exact List.getD_append _ _ _ _ (by omega)

/-- The descriptor of the task state segment is taken apart as it was put together. -/
theorem read_tss :
    Segment.Descriptor.read (fun i ↦ (coreGdt block access).bytes.getD i 0) 48 =
      ⟨tssBase block % 2 ^ 32, 103, access % 256, 0, tssBase block / 2 ^ 32, 0⟩ := by
  have hblock : tssBase block < 2 ^ 64 := Nat.mod_lt _ (Nat.two_pow_pos 64)
  set f : Memory := fun i ↦ (coreGdt block access).bytes.getD i 0 with hf
  have hspells : f.Spells 0 (coreGdt block access).bytes := fun i hi ↦ by
    rw [hf, Nat.zero_add]
    exact List.getD_eq_getElem _ _ hi
  have hlen : (coreGdt block access).segments.length = 48 := ArchGdt.length_segments _
  rw [ArchGdt.bytes, spells_append, hlen] at hspells
  obtain ⟨-, htss⟩ := hspells
  simp only [ArchGdtSystemEntry.bytes, ArchGdtEntry.bytes, spells_append, List.length_append,
    littleEndian_length] at htss
  obtain ⟨⟨⟨⟨⟨⟨⟨h48, h50⟩, h52⟩, h53⟩, h54⟩, h55⟩, h56⟩, h60⟩ := htss
  have h48 : f.load 48 2 = 103 := h48.load
  have h50 : f.load 50 2 = (tssBase block &&& 0xFFFF) % 256 ^ 2 := h50.load
  have h52 : f.load 52 1 = ((tssBase block >>> 16) &&& 0xFF) % 256 ^ 1 := h52.load
  have h53 : f.load 53 1 = access % 256 ^ 1 := h53.load
  have h54 : f.load 54 1 = 0 := h54.load
  have h55 : f.load 55 1 = ((tssBase block >>> 24) &&& 0xFF) % 256 ^ 1 := h55.load
  have h56 : f.load 56 4 = (tssBase block >>> 32) % 256 ^ 4 := h56.load
  have h61 : f.load 61 1 = 0 := by
    have hbyte : f 61 = 0 := (h60 1 (by rw [littleEndian_length]; decide)).trans
      (by simp [coreGdt, littleEndian])
    rw [load_succ, load_zero, hbyte]
    rfl
  have hand16 : tssBase block &&& 0xFFFF = tssBase block % 2 ^ 16 :=
    Nat.and_two_pow_sub_one_eq_mod _ 16
  have hand8 : ∀ v, v &&& 0xFF = v % 2 ^ 8 := fun v ↦ Nat.and_two_pow_sub_one_eq_mod v 8
  have hsplit : f.load 50 3 = f.load 50 2 + 256 ^ 2 * f.load 52 1 := load_add f 50 2 1
  simp only [Nat.shiftRight_eq_div_pow, hand16, hand8] at h50 h52 h55 h56
  rw [Segment.Descriptor.read, Segment.Descriptor.mk.injEq]
  refine ⟨?_, ?_, h53, ?_, ?_, ?_⟩
  · rw [hsplit, h50, h52, h55]
    omega
  · rw [h48, h54, Nat.zero_mod, Nat.mul_zero]
  · rw [h54, Nat.zero_div]
  · rw [h56]
    omega
  · rw [h61]

theorem splice_access (value : Nat) :
    splice (coreGdt block access).bytes (48 + 5) [UInt8.ofNat value] = (coreGdt block value).bytes := by
  set p : List UInt8 := archGdtStaticData.segments ++ (littleEndian 2 (tssLimit &&& 0xFFFF) ++
    littleEndian 2 (tssBase block &&& 0xFFFF) ++
    littleEndian 1 ((tssBase block >>> 16) &&& 0xFF)) with hp
  set q : List UInt8 := littleEndian 1 ((tssLimit >>> 16) &&& 0xF) ++
    littleEndian 1 ((tssBase block >>> 24) &&& 0xFF) ++ littleEndian 4 (tssBase block >>> 32) ++
    littleEndian 4 0 with hq
  have hbytes : ∀ access, (coreGdt block access).bytes = p ++ littleEndian 1 access ++ q := by
    intro access
    simp only [ArchGdt.bytes, ArchGdtSystemEntry.bytes, ArchGdtEntry.bytes, coreGdt, hp, hq,
      List.append_assoc, ArchGdt.segments]
  have hlen : p.length = 53 := by
    simp only [hp, List.length_append, littleEndian_length]
    rfl
  have hone : littleEndian 1 value = [UInt8.ofNat value] := by
    simp [littleEndian]
  rw [hbytes, hbytes, hone, show 48 + 5 = p.length from hlen.symm]
  exact splice_middle rfl

/-- The selectors for the kernel's segments are taken. -/
theorem outcome_kernel (block access : Nat) {s : Segment.Registers} (hlimit : s.gdtLimit = 63) :
    Segment.outcome s (.read (fun i ↦ (coreGdt block access).bytes.getD i 0) 8) (.loadCs 8) =
        some (none, { s with cs := 8 }) ∧
      ∀ reg, Segment.outcome s (.read (fun i ↦ (coreGdt block access).bytes.getD i 0) 16)
        (.loadData reg 16) = some (none, s.setData reg 16) := by
  have hselects : ∀ sel ∈ [8, 16], s.Selects sel 8 := by
    intro sel hsel
    rw [Segment.Registers.Selects, hlimit]
    simp only [List.mem_cons, List.not_mem_nil, or_false] at hsel
    rcases hsel with rfl | rfl <;> decide
  constructor
  · have hcode : (Segment.Descriptor.read (fun i ↦ archGdtStaticData.segments.getD i 0) 8).code64 ∧
        (Segment.Descriptor.read (fun i ↦ archGdtStaticData.segments.getD i 0) 8).accessed := by
      decide
    rw [Segment.outcome, read_static (by decide), if_pos ⟨hselects 8 (by decide), rfl, hcode.1⟩,
      if_pos hcode.2]
  · intro reg
    have hdata : (Segment.Descriptor.read (fun i ↦ archGdtStaticData.segments.getD i 0) 16).takenBy
        (16 % 4) reg ∧
        (Segment.Descriptor.read (fun i ↦ archGdtStaticData.segments.getD i 0) 16).accessed := by
      cases reg <;> decide
    rw [Segment.outcome, if_neg (by decide), read_static (by decide),
      if_pos ⟨hselects 16 (by decide), hdata.1⟩, if_pos hdata.2]

/-- The task register takes the task state segment, which becomes busy. -/
theorem outcome_tss {s : Segment.Registers} (hlimit : s.gdtLimit = 63) :
    Segment.outcome s (.read (fun i ↦ (coreGdt block 0x89).bytes.getD i 0) 48) (.ltr 48) =
      some (some 0x8b, { s with tr := 48, tssBase := tssBase block, tssLimit := 103 }) := by
  have hblock : tssBase block < 2 ^ 64 := Nat.mod_lt _ (Nat.two_pow_pos 64)
  have hselects : s.Selects 48 16 := by
    rw [Segment.Registers.Selects, hlimit]
    decide
  have hfree : Segment.Descriptor.freeTss
      ⟨tssBase block % 2 ^ 32, 103, 0x89 % 256, 0, tssBase block / 2 ^ 32, 0⟩ := by
    simp only [Segment.Descriptor.freeTss, Segment.Descriptor.present, Segment.Descriptor.segment]
    decide
  rw [Segment.outcome, read_tss, if_pos ⟨hselects, hfree⟩]
  dsimp only [Segment.Descriptor.bytes]
  rw [Nat.mod_add_div, Nat.zero_testBit, if_neg Bool.false_ne_true]

/-- One instruction, with its descriptor at `k`. -/
theorem segment_exec (access : Nat) (hblock : r.coreArchInfo < 2 ^ 64) (ho : o < 2 ^ 64)
    (hrecord : physOf o r.coreArchInfo + 64 ≤ 2 ^ 64) (op : Segment.Op) {k : Nat}
    (hindex : op.index = k) (hk : k + 16 ≤ 64) {s : Segment.Registers}
    (hbase : s.gdtBase = r.coreArchInfo) {mark : Option Nat} {t : Segment.Registers}
    (hout : Segment.outcome s
      (.read (fun i ↦ (coreGdt r.coreArchInfo access).bytes.getD i 0) k) op = some (mark, t)) :
    CoreOp.exec o (.segment fun _ ↦ op)
        (m.write (physOf o r.coreArchInfo) (coreGdt r.coreArchInfo access).bytes)
        { r with seg := s } =
      some (m.write (physOf o r.coreArchInfo)
        (Segment.marked (coreGdt r.coreArchInfo access).bytes k mark), { r with seg := t }) := by
  have hlen : (coreGdt r.coreArchInfo access).bytes.length = 64 := ArchGdt.length_bytes _
  subst hindex
  have hphys : physOf o (s.gdtBase + op.index) = physOf o r.coreArchInfo + op.index := by
    rw [hbase]
    unfold physOf sub64 at *
    omega
  rw [CoreOp.exec, Segment.exec_write hphys (by rw [hlen]; exact hk), hout]
  rfl

/-- The registers, once `lgdt` has been executed, take the kernel's segments and the task state
segment. -/
theorem loads_alone (hblock : r.coreArchInfo < 2 ^ 64) (ho : o < 2 ^ 64)
    (hrecord : physOf o r.coreArchInfo + 64 ≤ 2 ^ 64) (hbase : r.seg.gdtBase = r.coreArchInfo)
    (hlimit : r.seg.gdtLimit = 63) :
    Threads.alone (CoreOp.exec o) ((archGdtLoadGdt id (sizeofArchGdt - 1) offsetKernelCode
        offsetKernelData offsetTss).tail ++ [.segment fun _ ↦ .lldt 0])
        (m.write (physOf o r.coreArchInfo) (coreGdt r.coreArchInfo 0x89).bytes) r =
      some (m.write (physOf o r.coreArchInfo) (coreGdt r.coreArchInfo 0x8b).bytes,
        { r with seg := coreSegments r.coreArchInfo }) := by
  -- the registers after each instruction
  obtain ⟨s₁, hs₁⟩ : ∃ s, s = { r.seg with cs := 8 } := ⟨_, rfl⟩
  obtain ⟨s₂, hs₂⟩ : ∃ s, s = s₁.setData .ds 16 := ⟨_, rfl⟩
  obtain ⟨s₃, hs₃⟩ : ∃ s, s = s₂.setData .es 16 := ⟨_, rfl⟩
  obtain ⟨s₄, hs₄⟩ : ∃ s, s = s₃.setData .ss 16 := ⟨_, rfl⟩
  obtain ⟨s₅, hs₅⟩ : ∃ s : Segment.Registers,
      s = { s₄ with tr := 48, tssBase := tssBase r.coreArchInfo, tssLimit := 103 } := ⟨_, rfl⟩
  have hb₁ : s₁.gdtBase = r.coreArchInfo ∧ s₁.gdtLimit = 63 := hs₁ ▸ ⟨hbase, hlimit⟩
  have hb₂ : s₂.gdtBase = r.coreArchInfo ∧ s₂.gdtLimit = 63 := hs₂ ▸ hb₁
  have hb₃ : s₃.gdtBase = r.coreArchInfo ∧ s₃.gdtLimit = 63 := hs₃ ▸ hb₂
  have hb₄ : s₄.gdtBase = r.coreArchInfo ∧ s₄.gdtLimit = 63 := hs₄ ▸ hb₃
  have hb₅ : s₅.gdtBase = r.coreArchInfo := hs₅ ▸ hb₄.1
  have hcs := segment_exec (m := m) 0x89 hblock ho hrecord (.loadCs 8) rfl (by decide) hbase
    (outcome_kernel _ 0x89 hlimit).1
  have hds := segment_exec (m := m) 0x89 hblock ho hrecord (.loadData .ds 16) rfl (by decide) hb₁.1
    ((outcome_kernel _ 0x89 hb₁.2).2 .ds)
  have hes := segment_exec (m := m) 0x89 hblock ho hrecord (.loadData .es 16) rfl (by decide) hb₂.1
    ((outcome_kernel _ 0x89 hb₂.2).2 .es)
  have hss := segment_exec (m := m) 0x89 hblock ho hrecord (.loadData .ss 16) rfl (by decide) hb₃.1
    ((outcome_kernel _ 0x89 hb₃.2).2 .ss)
  have htr := segment_exec (m := m) 0x89 hblock ho hrecord (.ltr 48) (k := 48) rfl (by decide) hb₄.1
    (outcome_tss hb₄.2)
  have hldt := segment_exec (m := m) 0x8b hblock ho hrecord (.lldt 0) rfl (by decide) hb₅
    rfl
  rw [← hs₁] at hcs
  rw [← hs₂] at hds
  rw [← hs₃] at hes
  rw [← hs₄] at hss
  rw [← hs₅, Segment.marked, splice_access] at htr
  have hfinal : { s₅ with ldtr := 0 } = coreSegments r.coreArchInfo := by
    rw [hs₅, hs₄, hs₃, hs₂, hs₁, coreSegments, Segment.Registers.mk.injEq]
    exact ⟨hbase, hlimit, rfl, rfl, rfl, rfl, rfl, rfl, rfl, rfl⟩
  rw [hfinal] at hldt
  show Threads.alone _ [_, _, _, _, _, _] _ _ = _
  refine (Threads.alone_cons hcs).trans ((Threads.alone_cons hds).trans ?_)
  refine (Threads.alone_cons hes).trans ((Threads.alone_cons hss).trans ?_)
  exact (Threads.alone_cons htr).trans (Threads.alone_cons hldt)

/-- **The table of one core.**  `machine_setup_gdt` does not fault, and leaves the table in the core's
record and the registers pointing into it. -/
theorem machineSetupGdt_alone (hb : r.coreArchInfo = block) (hblock : block < 2 ^ 64)
    (ho : o < 2 ^ 64) (hrecord : physOf o block + 64 ≤ 2 ^ 64) :
    Threads.alone (CoreOp.exec o) machineSetupGdt m r =
      some (m.write (physOf o block) (coreGdt block 0x8b).bytes,
        { r with seg := coreSegments block }) := by
  subst hb
  have hlgdt : ∀ M, CoreOp.exec o (.segment fun block ↦ .lgdt (id block) (sizeofArchGdt - 1)) M r =
      some (M, { r with seg := { r.seg with gdtBase := r.coreArchInfo, gdtLimit := 63 } }) :=
    fun M ↦ rfl
  rw [machineSetupGdt, List.append_assoc, Threads.alone_append, gdtStores_alone, Option.bind_some]
  refine (Threads.alone_cons (hlgdt _)).trans ?_
  exact loads_alone (r := { r with seg := { r.seg with gdtBase := r.coreArchInfo, gdtLimit := 63 } })
    hblock ho hrecord rfl rfl

end Table

/-! ## `arch_machine_init` -/

/-- A core after `arch_machine_init`, with the pointer and the base of `gs` that are in its record. -/
def Core.initialised (r : Core) (block cpuLocal : Nat) : Core :=
  { r with
    coreArchInfo := block
    cr0 := 0x80010013
    cr4 := cr4Value r.cpuid r.cr4
    msr := Function.update (Function.update (controlMsr r) archMsrActiveGsBase cpuLocal)
      archMsrInactiveGsBase 0
    seg := coreSegments block }

/-- The table that a core writes. -/
def coreTable (o block : Nat) : Set Nat := {x | physOf o block ≤ x ∧ x < physOf o block + 64}

/-- What a core reads: its record of start information, and its table. -/
def coreRegion (o coreInfo block : Nat) : Set Nat :=
  {x | physOf o coreInfo ≤ x ∧ x < physOf o coreInfo + 32} ∪ coreTable o block

section Init

variable {o block : Nat} {m : Memory} {r : Core} {R W : Set Nat}

/-- **One core on its own.** -/
theorem archMachineInit_alone (ho : o < 2 ^ 64) (hefer : r.msr archMsrEfer < 2 ^ 64)
    (hfxsr : r.cpuid.supported .fxsr) (hblock : m.load (physOf o r.coreInfo + 24) 8 = block)
    (hrecord : physOf o block + 64 ≤ 2 ^ 64)
    (hapart : physOf o r.coreInfo + 32 ≤ physOf o block ∨
      physOf o block + 64 ≤ physOf o r.coreInfo) :
    Threads.alone (CoreOp.exec o) archMachineInit m r =
      some (m.write (physOf o block) (coreGdt block 0x8b).bytes,
        r.initialised block (m.load (physOf o r.coreInfo + 16) 8)) := by
  have hlt : ∀ a, m.load a 8 < 2 ^ 64 := fun a ↦ load_lt m a 8
  have hlen : (coreGdt block 0x8b).bytes.length = 64 := ArchGdt.length_bytes _
  -- the core after the control registers, and after the table
  obtain ⟨r₁, hr₁⟩ : ∃ r₁, r₁ = { r with
      coreArchInfo := block, cr0 := 0x80010013, cr4 := cr4Value r.cpuid r.cr4,
      msr := controlMsr r } := ⟨_, rfl⟩
  have hload : CoreOp.exec o .loadArchPointer m r = some (m, { r with coreArchInfo := block }) := by
    rw [CoreOp.exec, hblock]
  have hcontrol : CoreOp.exec o .setupControlRegisters m { r with coreArchInfo := block } =
      some (m, r₁) := by
    have hok := machineSetupControlRegisters_eq (r := { r with coreArchInfo := block }) hefer hfxsr
    rw [CoreOp.exec, hok, hr₁]
    rfl
  have hgdt := machineSetupGdt_alone (o := o) (m := m) (r := r₁) (hr₁ ▸ rfl) (hblock ▸ hlt _) ho
    hrecord
  have hactive : CoreOp.exec o (.writeMsr archMsrActiveGsBase fun coreInfo ↦ coreInfo 16)
      (m.write (physOf o block) (coreGdt block 0x8b).bytes) { r₁ with seg := coreSegments block } =
      some (m.write (physOf o block) (coreGdt block 0x8b).bytes,
        { r₁ with
          seg := coreSegments block
          msr := Function.update r₁.msr archMsrActiveGsBase
            (m.load (physOf o r.coreInfo + 16) 8) }) := by
    have hinfo : r₁.coreInfo = r.coreInfo := hr₁ ▸ rfl
    have hlocal : (m.write (physOf o block) (coreGdt block 0x8b).bytes).load
        (physOf o r.coreInfo + 16) 8 = m.load (physOf o r.coreInfo + 16) 8 :=
      load_congr fun x h1 h2 ↦ dif_neg (by rw [hlen]; omega)
    rw [CoreOp.exec, hinfo]
    dsimp only
    rw [hlocal, archMsrWrite_eq (hlt _)]
  have hinactive : ∀ (M : Memory) (t : Core),
      CoreOp.exec o (.writeMsr archMsrInactiveGsBase fun _ ↦ 0) M t =
        some (M, { t with msr := Function.update t.msr archMsrInactiveGsBase 0 }) := fun M t ↦ by
    rw [CoreOp.exec, archMsrWrite_eq (Nat.two_pow_pos 64)]
  have hprefix : Threads.alone (CoreOp.exec o) [.loadArchPointer, .setupControlRegisters] m r =
      some (m, r₁) := (Threads.alone_cons hload).trans (Threads.alone_cons hcontrol)
  rw [archMachineInit, List.append_assoc, Threads.alone_append, hprefix, Option.bind_some,
    Threads.alone_append, hgdt, Option.bind_some, Threads.alone_cons hactive,
    Threads.alone_cons (hinactive _ _), hr₁]
  rfl

/-- Without `FXSR` a core does not come to the end. -/
theorem fxsr_of_alone {t : Memory × Core}
    (h : Threads.alone (CoreOp.exec o) archMachineInit m r = some t) :
    r.cpuid.supported .fxsr := by
  cases hfxsr : r.cpuid.supported .fxsr with
  | true => rfl
  | false =>
    have hcontrol : ∀ block, CoreOp.exec o .setupControlRegisters m { r with coreArchInfo := block } =
        none := fun block ↦ by
      rw [CoreOp.exec, machineSetupControlRegisters, hfxsr]
      rfl
    rw [archMachineInit, List.append_assoc, List.cons_append, Threads.alone_cons rfl, List.cons_append,
      Threads.alone, hcontrol] at h
    cases h

/-! ### What belongs to a core -/

theorem store_private {offset : Nat} {value : Nat → List UInt8}
    (h : ∀ x, physOf o r.coreArchInfo + offset ≤ x →
      x < physOf o r.coreArchInfo + offset + (value r.coreArchInfo).length → x ∈ W) :
    Threads.Private (CoreOp.exec o) R W (.store offset value) r where
  frame {m s} hs x hx := by
    obtain rfl := Option.some.inj hs
    exact dif_neg fun hin ↦ hx (h x hin.1 hin.2)
  congr {m m' s} heq hs := by
    obtain rfl := Option.some.inj hs
    refine ⟨_, rfl, fun x hx ↦ ?_⟩
    dsimp only [Memory.write]
    split
    · rfl
    · exact heq hx

theorem segment_private {op : Nat → Segment.Op}
    (h : Threads.Private (Segment.exec (physOf o)) R W (op r.coreArchInfo) r.seg) :
    Threads.Private (CoreOp.exec o) R W (.segment op) r where
  frame {m s} hs := by
    obtain ⟨x, hx, rfl⟩ := Option.map_eq_some_iff.mp hs
    exact h.frame hx
  congr {m m' s} heq hs := by
    obtain ⟨x, hx, rfl⟩ := Option.map_eq_some_iff.mp hs
    obtain ⟨m₁, hm₁, heq₁⟩ := h.congr heq hx
    exact ⟨m₁, Option.map_eq_some_iff.mpr ⟨_, hm₁, rfl⟩, heq₁⟩

/-- An operation that leaves memory alone, and does the same whatever is outside the region. -/
theorem private_of_registers {op : CoreOp} (f : Memory → Option Core)
    (hop : ∀ m, CoreOp.exec o op m r = (f m).map fun t ↦ (m, t))
    (hf : ∀ m m', Set.EqOn m m' R → f m = f m') : Threads.Private (CoreOp.exec o) R W op r where
  frame {m s} hs := by
    rw [hop] at hs
    obtain ⟨t, -, rfl⟩ := Option.map_eq_some_iff.mp hs
    exact fun _ _ ↦ rfl
  congr {m m' s} heq hs := by
    rw [hop] at hs
    obtain ⟨t, ht, rfl⟩ := Option.map_eq_some_iff.mp hs
    rw [hf m m' heq] at ht
    exact ⟨m', by rw [hop, ht]; rfl, heq⟩

/-- A word of the record is the same in memories that agree on it. -/
theorem load_info {m m' : Memory} {k : Nat} (hk : k + 8 ≤ 32)
    (h : Set.EqOn m m' (coreRegion o r.coreInfo block)) :
    m.load (physOf o r.coreInfo + k) 8 = m'.load (physOf o r.coreInfo + k) 8 :=
  load_congr fun x h1 h2 ↦ h (Or.inl ⟨by omega, by omega⟩)

/-- The stores into the record are within its table. -/
theorem gdtStores_within {op : CoreOp} (hop : op ∈ gdtStores) :
    ∃ k value, op = .store k value ∧ ∀ b, k + (value b).length ≤ 64 := by
  rcases List.mem_cons.mp hop with rfl | hop
  · exact ⟨0, _, rfl, fun _ ↦ le_rfl⟩
  · obtain ⟨x, hx, rfl⟩ := List.mem_map.mp hop
    refine ⟨x.1, x.2, rfl, fun b ↦ ?_⟩
    revert x
    simp [tssFields, littleEndian_length]

/-- What follows `lgdt`. -/
def afterLgdt : List CoreOp :=
  [.segment fun _ ↦ .loadCs 8, .segment fun _ ↦ .loadData .ds 16, .segment fun _ ↦ .loadData .es 16,
    .segment fun _ ↦ .loadData .ss 16, .segment fun _ ↦ .ltr 48, .segment fun _ ↦ .lldt 0,
    .writeMsr archMsrActiveGsBase fun coreInfo ↦ coreInfo 16,
    .writeMsr archMsrInactiveGsBase fun _ ↦ 0]

theorem archMachineInit_eq : archMachineInit = [.loadArchPointer, .setupControlRegisters] ++
    (gdtStores ++ (.segment fun block ↦ .lgdt (id block) (sizeofArchGdt - 1)) :: afterLgdt) := by
  rw [archMachineInit, machineSetupGdt, List.append_assoc, List.append_assoc, List.append_assoc]
  rfl

/-- The operations after `lgdt` keep to the bytes of the core. -/
theorem afterLgdt_confined (ho : o < 2 ^ 64) (hlt : block < 2 ^ 64)
    (hrecord : physOf o block + 64 ≤ 2 ^ 64) {s : Core} (hinfo : s.coreInfo = r.coreInfo)
    (hbase : s.seg.gdtBase = block) :
    Threads.Confined (CoreOp.exec o) (coreRegion o r.coreInfo block)
          (coreTable o block) afterLgdt m s := by
  refine Threads.confined_of_forall
    (Q := fun s ↦ s.coreInfo = r.coreInfo ∧ s.seg.gdtBase = block) ⟨hinfo, hbase⟩ ?_ ?_
  · rintro op hop s ⟨hinfo, hbase⟩
    have hsegment : ∀ q : Segment.Op, q.index + 16 ≤ 64 →
        Threads.Private (CoreOp.exec o) (coreRegion o r.coreInfo block)
          (coreTable o block) (.segment fun _ ↦ q) s := by
      intro q hq
      have hin : ∀ i < 16, physOf o (s.seg.gdtBase + q.index) + i ∈ coreTable o block := by
        intro i hi
        rw [hbase]
        show physOf o block ≤ _ ∧ _ < physOf o block + 64
        unfold physOf sub64 at *
        omega
      exact segment_private (Segment.exec_private (fun i hi ↦ Or.inr (hin i hi)) (hin 5 (by decide)))
    have hwrite : ∀ (msr : Nat) (value : (Nat → Nat) → Nat),
        (∀ m m' : Memory, Set.EqOn m m' (coreRegion o r.coreInfo block) →
          value (fun k ↦ m.load (physOf o r.coreInfo + k) 8) =
            value fun k ↦ m'.load (physOf o r.coreInfo + k) 8) →
        Threads.Private (CoreOp.exec o) (coreRegion o r.coreInfo block)
          (coreTable o block) (.writeMsr msr value) s := by
      intro msr value hvalue
      refine private_of_registers (fun m ↦ some (s.archMsrWrite msr
        (value fun k ↦ m.load (physOf o s.coreInfo + k) 8))) (fun m ↦ rfl) fun m m' h ↦ ?_
      rw [hinfo, hvalue m m' h]
    simp only [afterLgdt, List.mem_cons, List.not_mem_nil, or_false] at hop
    rcases hop with rfl | rfl | rfl | rfl | rfl | rfl | rfl | rfl
    · exact hsegment _ (by decide)
    · exact hsegment _ (by decide)
    · exact hsegment _ (by decide)
    · exact hsegment _ (by decide)
    · exact hsegment _ (by decide)
    · exact hsegment _ (by decide)
    · exact hwrite _ _ fun m m' h ↦ load_info (by decide) h
    · exact hwrite _ _ fun _ _ _ ↦ rfl
  · rintro op hop m s t ⟨hinfo, hbase⟩ ht
    have hsegment : ∀ q : Segment.Op, (∀ base limit, q ≠ .lgdt base limit) →
        CoreOp.exec o (.segment fun _ ↦ q) m s = some t →
        t.2.coreInfo = r.coreInfo ∧ t.2.seg.gdtBase = block := by
      intro q hq hexec
      obtain ⟨x, hx, rfl⟩ := Option.map_eq_some_iff.mp hexec
      exact ⟨hinfo, (Segment.exec_gdt hq hx).1.trans hbase⟩
    simp only [afterLgdt, List.mem_cons, List.not_mem_nil, or_false] at hop
    rcases hop with rfl | rfl | rfl | rfl | rfl | rfl | rfl | rfl
    · exact hsegment _ (by simp) ht
    · exact hsegment _ (by simp) ht
    · exact hsegment _ (by simp) ht
    · exact hsegment _ (by simp) ht
    · exact hsegment _ (by simp) ht
    · exact hsegment _ (by simp) ht
    · obtain rfl := Option.some.inj ht
      exact ⟨hinfo, hbase⟩
    · obtain rfl := Option.some.inj ht
      exact ⟨hinfo, hbase⟩

/-- A core keeps to its bytes. -/
theorem archMachineInit_confined (ho : o < 2 ^ 64) (hefer : r.msr archMsrEfer < 2 ^ 64)
    (hblock : m.load (physOf o r.coreInfo + 24) 8 = block)
    (hrecord : physOf o block + 64 ≤ 2 ^ 64) :
    Threads.Confined (CoreOp.exec o) (coreRegion o r.coreInfo block)
          (coreTable o block) archMachineInit m r := by
  have hlt : block < 2 ^ 64 := hblock ▸ load_lt m _ 8
  rw [archMachineInit_eq]
  refine Threads.Confined.append ⟨?_, fun s hs ↦ ⟨?_, fun _ _ ↦ trivial⟩⟩ fun s hs ↦ ?_
  · refine Threads.Private.at (private_of_registers (fun m ↦ some { r with
      coreArchInfo := m.load (physOf o r.coreInfo + 24) 8 }) (fun m ↦ rfl) fun m m' h ↦ ?_) m
    rw [load_info (by decide) h]
  · exact Threads.Private.at (private_of_registers
      (fun _ ↦ (machineSetupControlRegisters s.2).toOption) (fun m ↦ rfl) fun _ _ _ ↦ rfl) s.1
  -- the pointer is in its register
  have hregs : s.2.coreInfo = r.coreInfo ∧ s.2.coreArchInfo = block := by
    rw [Threads.alone_cons rfl] at hs
    obtain ⟨t, ht, hs⟩ := Option.bind_eq_some_iff.mp hs
    obtain rfl := Option.some.inj hs
    obtain ⟨u, hu, rfl⟩ := Option.map_eq_some_iff.mp ht
    have hcontrol := controlRegisters_of_ok
      (r := { r with coreArchInfo := m.load (physOf o r.coreInfo + 24) 8 }) hefer
      (toOption_eq_some hu)
    exact ⟨hcontrol.rest.2.1, hcontrol.rest.2.2.1.trans hblock⟩
  obtain ⟨hinfo, harch⟩ := hregs
  refine Threads.Confined.append ?_ fun t ht ↦ ?_
  · refine Threads.confined_of_forall (Q := fun s ↦ s.coreArchInfo = block) harch ?_ ?_
    · rintro op hop t rfl
      obtain ⟨k, value, rfl, hk⟩ := gdtStores_within hop
      have hlen := hk t.coreArchInfo
      exact store_private fun x h1 h2 ↦ ⟨by omega, by omega⟩
    · rintro op hop m t u hQ hu
      obtain ⟨k, value, rfl, -⟩ := gdtStores_within hop
      obtain rfl := Option.some.inj hu
      exact hQ
  · obtain rfl := Option.some.inj (gdtStores_alone.symm.trans ht)
    have hlgdt : Threads.Private (CoreOp.exec o) (coreRegion o r.coreInfo block)
        (coreTable o block) (.segment fun block ↦ .lgdt (id block) (sizeofArchGdt - 1)) s.2 :=
      segment_private (Segment.lgdt_private _ _)
    refine ⟨hlgdt.at _, fun u hu ↦ ?_⟩
    obtain rfl := Option.some.inj hu
    exact afterLgdt_confined ho hlt hrecord hinfo harch

end Init

end X86

end LunarPrekernel
