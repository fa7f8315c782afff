import LunarPrekernel.Boot.Bringup
import LunarPrekernel.Boot.Gdt
import LunarPrekernel.Boot.Handoff

/-!
# Every core sets itself up at the same time

In `Boot.step` the call of `arch_machine_init` is a single step.  On x86_64 it is not: a core fills in
its table in memory and loads its registers from there, while the other cores do the same, and the
record of the last core is behind the end of the block of records.  `Boot.initStep` interleaves the
operations of `archMachineInit` with the steps of the handoff, so that a step of the handoff is taken
only where no operation is left.

* `machine_init` — in every interleaving each core comes out of `arch_machine_init` as if it had been
  the only one, no core is handed off before all of them have, and nothing else is written.
-/

set_option autoImplicit false

namespace LunarPrekernel

open Memory

/-! ## The steps -/

/-- The core is in `arch_machine_init`. -/
def CorePc.initialises : CorePc → Bool
  | bspMachineInit => true
  | machineInit => true
  | _ => false

/-- Where the cores are, and what they have done to themselves. -/
structure InitState where
  handoff : HandoffState
  cores : Threads Nat X86.Core X86.CoreOp

/-- The next step of core `c.1`. -/
def Boot.initStep (b : Boot) (hhdmOffset : Nat) (s : InitState) (c : Nat × Bool) :
    Option InitState :=
  if (s.handoff.pc c.1).initialises ∧ s.cores.left c.1 ≠ [] then
    (Threads.step (X86.CoreOp.exec hhdmOffset) s.cores c.1).map fun t ↦ { s with cores := t }
  else (b.step s.handoff c).map fun t ↦ { s with handoff := t }

/-- Before the application cores are started. -/
def Boot.initStart (b : Boot) (mmEntry : Nat → BootinfoMmEntry) (mem : Memory)
    (core : Nat → X86.Core) : InitState where
  handoff := b.start mmEntry
  cores := ⟨mem, core, fun k ↦ if k < b.coreCount then X86.archMachineInit else []⟩

namespace Boot

section Step

variable {b : Boot} {s t : HandoffState} {c : Nat × Bool} {i : Nat}

/-- A step moves one core, and past `arch_machine_init` only from there. -/
theorem step_pc (h : b.step s c = some t) : ∃ q, t.pc = Function.update s.pc c.1 q ∧
    (q.initDone = true → (s.pc c.1).initDone = true ∨ (s.pc c.1).initialises = true) := by
  obtain ⟨i, runningFirst⟩ := c
  rw [step] at h
  dsimp only at h ⊢
  split at h
  · cases h
  cases hpc : s.pc i with
  | startAp k coreId =>
    simp only [hpc] at h
    split at h
    · split at h <;> obtain rfl := Option.some.inj h <;> exact ⟨_, rfl, fun h ↦ absurd h Bool.false_ne_true⟩
    · obtain rfl := Option.some.inj h
      exact ⟨_, rfl, fun h ↦ absurd h Bool.false_ne_true⟩
  | setMmEntry k =>
    simp only [hpc] at h
    split at h <;> obtain rfl := Option.some.inj h <;> exact ⟨_, rfl, fun h ↦ absurd h Bool.false_ne_true⟩
  | parked =>
    simp only [hpc] at h
    split at h
    · obtain rfl := Option.some.inj h
      exact ⟨_, rfl, fun h ↦ absurd h Bool.false_ne_true⟩
    · cases h
  | waitLock =>
    simp only [hpc] at h
    obtain rfl := Option.some.inj h
    split
    · exact ⟨.waitLock, (Function.update_eq_self_iff.mpr hpc.symm).symm, fun h ↦ absurd h Bool.false_ne_true⟩
    · exact ⟨_, rfl, fun h ↦ absurd h Bool.false_ne_true⟩
  | kernel =>
    simp only [hpc] at h
    cases h
  | _ =>
    simp only [hpc] at h
    obtain rfl := Option.some.inj h
    exact ⟨_, rfl, by simp [CorePc.initDone, CorePc.initialises]⟩

end Step

end Boot

/-! ## What the cores find -/

/-- When the application cores are started, the block of the start-info records is as
`arch_setup_cpus` has left it, the table behind the end of the block of the architecture's records is
not in it, and each core is given the pointer to its record. -/
structure CoresReady (c : CpuArgs) (t : CpuSetup) (mem : Memory) (core : Nat → X86.Core) : Prop where
  offset : c.hhdmOffset < 2 ^ 64
  records : ∃ mem₀ : Memory, ∀ a, t.startInfo ≤ a → a < t.startInfo + startInfoBlockSize c →
    mem a = mem₀.patch t.stores a
  behind : 1 < c.coreCount → t.archBlock < t.startInfo →
    t.archBlock + 168 * c.coreCount + 64 ≤ t.startInfo
  info : ∀ k < c.coreCount, (core k).coreInfo = add64 (t.record k) c.hhdmOffset
  efer : ∀ k < c.coreCount, (core k).msr X86.archMsrEfer < 2 ^ 64

/-- The pointer to the architecture's record of core id `k`. -/
def CpuSetup.block (c : CpuArgs) (t : CpuSetup) (k : Nat) : Nat :=
  X86.cpuArch.pointer c t (CpuArch.given k)

/-- What core id `k` reads, and what it writes. -/
def CpuSetup.reads (c : CpuArgs) (t : CpuSetup) (core : Nat → X86.Core) (k : Nat) : Set Nat :=
  if k < c.coreCount then X86.coreRegion c.hhdmOffset (core k).coreInfo (t.block c k) else ∅

def CpuSetup.writes (c : CpuArgs) (t : CpuSetup) (k : Nat) : Set Nat :=
  if k < c.coreCount then X86.coreTable c.hhdmOffset (t.block c k) else ∅

section Ready

variable {c : CpuArgs} {C : Nat → Prop} {f : PmmState} {t : CpuSetup} {mem : Memory}
  {core : Nat → X86.Core} {k j u x : Nat}

/-- Both blocks are in memory. -/
theorem CpuLayout.blocks_lt (h : CpuLayout X86.cpuArch c t) (hrun : CpuRun X86.cpuArch c C f t)
    (hC : ∀ a, C a → a < 2 ^ 56) : t.startInfo + 32 * c.coreCount ≤ 2 ^ 56 ∧
      t.archBlock + 168 * c.coreCount ≤ 2 ^ 56 := by
  have hpos := h.pos
  have hstop : ∀ (a size : Nat) (type : PmmMapType), size % 4096 = 0 → 0 < size →
      ⟨a, size / ptmPageGranularity, type⟩ ∈ t.frames.held → a + size ≤ 2 ^ 56 := by
    intro a size type hmod hsize hmem
    have := hrun.inv.held_stop_le hC hmem (by
      simp only [Allocation.span, ptmPageGranularity]; omega)
    simp only [Allocation.span, Span.stop, ptmPageGranularity] at this
    omega
  have hstart := h.startSize
  have harch : X86.cpuArch.archBlockSize c = (168 * c.coreCount + 4095) / 4096 * 4096 := h.archSize
  have h1 := hstop t.startInfo (startInfoBlockSize c) .allocated (by omega) (by omega)
    (by rw [hrun.held]; simp)
  have h2 := hstop t.archBlock (X86.cpuArch.archBlockSize c) .allocated (by omega) (by omega)
    (by rw [hrun.held]; simp)
  omega

theorem given_le (hk : k < c.coreCount) : CpuArch.given k ≤ c.coreCount := by
  rw [CpuArch.given]
  split <;> omega

/-- The pointers lead to the records. -/
theorem phys_block (h : CpuLayout X86.cpuArch c t) (hrun : CpuRun X86.cpuArch c C f t)
    (hC : ∀ a, C a → a < 2 ^ 56) (ho : c.hhdmOffset < 2 ^ 64) (hk : k < c.coreCount) :
    X86.physOf c.hhdmOffset (t.block c k) = t.archBlock + 168 * CpuArch.given k := by
  have hblocks := h.blocks_lt hrun hC
  have hgiven := given_le hk
  have hfew := h.few
  rw [CpuSetup.block, CpuArch.pointer, show X86.cpuArch.recordSize = 168 from rfl]
  unfold X86.physOf sub64 add64 mul64
  omega

theorem CoresReady.phys_info (hready : CoresReady c t mem core) (h : CpuLayout X86.cpuArch c t)
    (hrun : CpuRun X86.cpuArch c C f t) (hC : ∀ a, C a → a < 2 ^ 56) (hk : k < c.coreCount) :
    X86.physOf c.hhdmOffset (core k).coreInfo = t.record k := by
  have hblocks := h.blocks_lt hrun hC
  have ho := hready.offset
  rw [hready.info k hk, CpuSetup.record, sizeofCoreStartInfo]
  unfold X86.physOf sub64 add64
  omega

/-- What is in a record. -/
theorem CoresReady.load_info (hready : CoresReady c t mem core) (h : CpuLayout X86.cpuArch c t)
    (hk : k < c.coreCount) (hu : t.coreStacks[k]? = some u) :
    loadCoreStartInfo mem (t.record k) =
      ⟨k, c.stackTop u, c.cpuLocalAt t k, t.block c k⟩ := by
  obtain ⟨mem₀, hmem⟩ := hready.records
  have hin := h.record_inside hk
  have hload : ∀ i, i + 8 ≤ 32 → mem.load (t.record k + i) 8 =
      (mem₀.patch t.stores).load (t.record k + i) 8 := fun i hi ↦
    load_congr fun x h1 h2 ↦ hmem x (by omega) (by omega)
  obtain ⟨hstack, hlocal, hblock⟩ := h.read_pointers hk hu mem₀
  have hid := h.read_id hk hu (fun hc ↦ absurd (congrArg CpuArch.recordSize hc.1) (by decide)) mem₀
  have hload₀ : mem.load (t.record k) 8 = (mem₀.patch t.stores).load (t.record k) 8 :=
    hload 0 (by decide)
  rw [loadCoreStartInfo, hload₀, hload 8 (by decide), hload 16 (by decide), hload 24 (by decide), hid,
    hstack, hlocal, hblock, CpuSetup.block]

/-- No table meets a record or another table. -/
theorem CoresReady.apart (hready : CoresReady c t mem core) (h : CpuLayout X86.cpuArch c t)
    (hk : k < c.coreCount) (hj : j < c.coreCount) :
    (t.record j + 32 ≤ t.archBlock + 168 * CpuArch.given k ∨
      t.archBlock + 168 * CpuArch.given k + 64 ≤ t.record j) ∧
    (k ≠ j → t.archBlock + 168 * CpuArch.given k + 64 ≤ t.archBlock + 168 * CpuArch.given j ∨
      t.archBlock + 168 * CpuArch.given j + 64 ≤ t.archBlock + 168 * CpuArch.given k) := by
  have hin := h.record_inside hj
  have hsep := h.start_arch
  have hbehind := hready.behind
  have harch : X86.cpuArch.archBlockSize c = (168 * c.coreCount + 4095) / 4096 * 4096 := h.archSize
  have hgiven := given_le hk
  constructor
  · rw [CpuArch.given] at *
    split at hgiven <;> split <;> omega
  · intro hne
    rw [CpuArch.given, CpuArch.given]
    split <;> split <;> omega

theorem CoresReady.disjoint (hready : CoresReady c t mem core) (h : CpuLayout X86.cpuArch c t)
    (hrun : CpuRun X86.cpuArch c C f t) (hC : ∀ a, C a → a < 2 ^ 56) (hne : k ≠ j) :
    Disjoint (t.reads c core k) (t.writes c j) := by
  rw [CpuSetup.reads, CpuSetup.writes]
  split
  · split
    next hk hj =>
      have hphys := fun {k} ↦ phys_block (k := k) h hrun hC hready.offset
      obtain ⟨hrecord, -⟩ := hready.apart h hj hk
      obtain ⟨-, htable⟩ := hready.apart h hk hj
      have htable := htable hne
      rw [X86.coreRegion, X86.coreTable, X86.coreTable, hready.phys_info h hrun hC hk, hphys hk,
        hphys hj, Set.disjoint_left]
      rintro x (hx | hx) hx' <;> simp only [Set.mem_ofPred_eq] at hx hx' <;> omega
    · exact Set.disjoint_empty _
  · exact Set.empty_disjoint _

/-- At the start every core has its bytes to itself. -/
theorem CoresReady.alone (hready : CoresReady c t mem core) (h : CpuLayout X86.cpuArch c t)
    (hrun : CpuRun X86.cpuArch c C f t) (hC : ∀ a, C a → a < 2 ^ 56) {b : Boot}
    (hb : b.coreCount = c.coreCount) {mmEntry : Nat → BootinfoMmEntry} :
    Threads.Alone (X86.CoreOp.exec c.hhdmOffset) (t.reads c core) (t.writes c)
      (b.initStart mmEntry mem core).cores (b.initStart mmEntry mem core).cores := by
  refine Threads.Alone.start fun k ↦ ?_
  rw [CpuSetup.reads, CpuSetup.writes]
  show Threads.Confined _ _ _ (if k < b.coreCount then _ else []) mem (core k)
  rw [hb]
  split
  next hk =>
    obtain ⟨u, hu⟩ : ∃ u, t.coreStacks[k]? = some u :=
      ⟨_, List.getElem?_eq_getElem (by rw [h.length]; omega)⟩
    have hinfo := hready.load_info h hk hu
    have hblock := congrArg CoreStartInfo.archPointer hinfo
    rw [← hready.phys_info h hrun hC hk] at hblock
    have hphys := phys_block h hrun hC hready.offset hk
    have hblocks := h.blocks_lt hrun hC
    have hgiven := given_le hk
    exact X86.archMachineInit_confined hready.offset (hready.efer k hk) hblock (by omega)
  · trivial

end Ready

/-! ## Every interleaving -/

/-- What `arch_machine_init` leaves of core id `k`: the control registers, the segment registers and
the bases of `gs`, and the table in memory. -/
structure CoreInitialised (c : CpuArgs) (t : CpuSetup) (core : Nat → X86.Core)
    (s : Threads Nat X86.Core X86.CoreOp) (k : Nat) : Prop where
  fxsr : (core k).cpuid.supported .fxsr
  registers : s.state k = (core k).initialised (t.block c k) (c.cpuLocalAt t k)
  table : s.memory.Spells (t.archBlock + 168 * CpuArch.given k) (X86.coreGdt (t.block c k) 0x8b).bytes

/-- What holds in every interleaving of the cores. -/
structure MachineInit (b : Boot) (c : CpuArgs) (t : CpuSetup) (mem : Memory)
    (core : Nat → X86.Core) (s : InitState) : Prop where
  barrier : Barrier b s.handoff
  initialised : ∀ k < c.coreCount, (s.handoff.pc k).initDone = true →
    CoreInitialised c t core s.cores k
  /-- A core that is handed off finds all of them initialised. -/
  handedOff : ∀ i < c.coreCount, (s.handoff.pc i).handedOff = true →
    ∀ k < c.coreCount, CoreInitialised c t core s.cores k
  /-- The records are there for `sync_and_handoff`. -/
  record : ∀ k < c.coreCount, ∀ u, t.coreStacks[k]? = some u →
    loadCoreStartInfo s.cores.memory (t.record k) =
      ⟨k, c.stackTop u, c.cpuLocalAt t k, t.block c k⟩
  /-- Only the tables are written, so the task state segments hold what memory held. -/
  kept : ∀ x, (∀ k < c.coreCount, ¬ (t.archBlock + 168 * CpuArch.given k ≤ x ∧
    x < t.archBlock + 168 * CpuArch.given k + 64)) → s.cores.memory x = mem x
  /-- No core faults; it can only stop for want of `FXSR`. -/
  enabled : ∀ k < c.coreCount, (s.handoff.pc k).initialises = true →
    (core k).cpuid.supported .fxsr → ∀ first, (b.initStep c.hhdmOffset s (k, first)).isSome

/-- What every step keeps. -/
structure Boot.InitInv (b : Boot) (c : CpuArgs) (t : CpuSetup) (core : Nat → X86.Core)
    (z : Threads Nat X86.Core X86.CoreOp) (s : InitState) : Prop where
  handoff : b.Inv s.handoff
  alone : Threads.Alone (X86.CoreOp.exec c.hhdmOffset) (t.reads c core) (t.writes c) z s.cores
  done : ∀ k < b.coreCount, (s.handoff.pc k).initDone = true → s.cores.left k = []

section Run

variable {b : Boot} {c : CpuArgs} {C : Nat → Prop} {f : PmmState} {t : CpuSetup} {mem : Memory}
  {core : Nat → X86.Core} {z : Threads Nat X86.Core X86.CoreOp} {s s' : InitState}

/-- **The step lemma.** -/
theorem Boot.InitInv.step (hn : b.coreCount < 2 ^ 32)
    (hdisjoint : ∀ i j, i ≠ j → Disjoint (t.reads c core i) (t.writes c j))
    (h : b.InitInv c t core z s) {x : Nat × Bool}
    (hstep : b.initStep c.hhdmOffset s x = some s') : b.InitInv c t core z s' := by
  rw [Boot.initStep] at hstep
  split at hstep
  next hinit =>
    obtain ⟨u, hu, rfl⟩ := Option.map_eq_some_iff.mp hstep
    refine ⟨h.handoff, h.alone.step hdisjoint hu, fun k hk hdone ↦ ?_⟩
    -- the core that moves is not done
    have hne : k ≠ x.1 := by
      rintro rfl
      exact hinit.2 (h.done _ hk hdone)
    obtain ⟨op, ops, r, -, -, rfl⟩ := Threads.step_cases hu
    dsimp only
    rw [Function.update_of_ne hne]
    exact h.done k hk hdone
  next hinit =>
    obtain ⟨u, hu, rfl⟩ := Option.map_eq_some_iff.mp hstep
    refine ⟨h.handoff.step hn hu, h.alone, fun k hk hdone ↦ ?_⟩
    obtain ⟨q, hpc, hq⟩ := Boot.step_pc hu
    dsimp only at hdone ⊢
    rw [hpc] at hdone
    rcases eq_or_ne k x.1 with rfl | hne
    · rw [Function.update_self] at hdone
      rcases hq hdone with hbefore | hbefore
      · exact h.done _ hk hbefore
      · by_contra hleft
        exact hinit ⟨hbefore, hleft⟩
    · rw [Function.update_of_ne hne] at hdone
      exact h.done k hk hdone

/-- At the start. -/
theorem Boot.InitInv.start (hb : b.coreCount = c.coreCount) (hready : CoresReady c t mem core)
    (h : CpuLayout X86.cpuArch c t) (hrun : CpuRun X86.cpuArch c C f t)
    (hC : ∀ a, C a → a < 2 ^ 56) (mmEntry : Nat → BootinfoMmEntry) :
    b.InitInv c t core (b.initStart mmEntry mem core).cores (b.initStart mmEntry mem core) where
  handoff := Boot.Inv.start b mmEntry
  alone := hready.alone h hrun hC hb
  done k hk hdone := by
    have hstart : ((b.start mmEntry).pc k).initDone = false := by
      show CorePc.initDone (if k = 0 then _ else _) = false
      split <;> rfl
    exact absurd (hstart.symm.trans hdone) Bool.false_ne_true

/-- What the invariant says of a core. -/
theorem Boot.InitInv.machineInit (hb : b.coreCount = c.coreCount)
    (hready : CoresReady c t mem core) (hlay : CpuLayout X86.cpuArch c t)
    (hrun : CpuRun X86.cpuArch c C f t) (hC : ∀ a, C a → a < 2 ^ 56)
    {mmEntry : Nat → BootinfoMmEntry}
    (h : b.InitInv c t core (b.initStart mmEntry mem core).cores s) :
    MachineInit b c t mem core s := by
  have hphys := fun {k} ↦ phys_block (k := k) hlay hrun hC hready.offset
  have hinfo := fun {k} ↦ hready.phys_info (k := k) hlay hrun hC
  have hkept : ∀ x, (∀ k < c.coreCount, ¬ (t.archBlock + 168 * CpuArch.given k ≤ x ∧
      x < t.archBlock + 168 * CpuArch.given k + 64)) → s.cores.memory x = mem x := by
    intro x hx
    refine h.alone.frame x fun k hk ↦ ?_
    rw [CpuSetup.writes] at hk
    split at hk
    next hlt =>
      rw [X86.coreTable, hphys hlt] at hk
      exact hx k hlt hk
    · exact hk
  have hstacks : ∀ k < c.coreCount, ∃ u, t.coreStacks[k]? = some u := fun k hk ↦
    ⟨_, List.getElem?_eq_getElem (by rw [hlay.length]; omega)⟩
  have hleft : ∀ k < c.coreCount, (b.initStart mmEntry mem core).cores.left k =
      X86.archMachineInit := fun k hk ↦ if_pos (hb ▸ hk)
  -- a core on its own
  have halone : ∀ k < c.coreCount, (core k).cpuid.supported .fxsr →
      Threads.alone (X86.CoreOp.exec c.hhdmOffset) X86.archMachineInit mem (core k) =
        some (mem.write (t.archBlock + 168 * CpuArch.given k) (X86.coreGdt (t.block c k) 0x8b).bytes,
          (core k).initialised (t.block c k) (c.cpuLocalAt t k)) := by
    intro k hk hfxsr
    obtain ⟨u, hu⟩ := hstacks k hk
    have hload := hready.load_info hlay hk hu
    have hblock := congrArg CoreStartInfo.archPointer hload
    have hlocal := congrArg CoreStartInfo.cpuLocal hload
    have hlocal : mem.load (t.record k + 16) 8 = c.cpuLocalAt t k := hlocal
    rw [← hinfo hk] at hblock
    have hblocks := hlay.blocks_lt hrun hC
    have hgiven := given_le hk
    have hrun := X86.archMachineInit_alone (m := mem) hready.offset (hready.efer k hk) hfxsr hblock
      (by rw [hphys hk]; omega)
      (by rw [hphys hk, hinfo hk]; exact (hready.apart hlay hk hk).1)
    rwa [hphys hk, hinfo hk, hlocal] at hrun
  have hdone : ∀ k < c.coreCount, (s.handoff.pc k).initDone = true →
      CoreInitialised c t core s.cores k := by
    intro k hk hpc
    obtain ⟨m, hm, heq⟩ := h.alone.finished (h.done k (hb ▸ hk) hpc)
    rw [hleft k hk] at hm
    have hfxsr := X86.fxsr_of_alone hm
    obtain ⟨rfl, hregs⟩ := Prod.mk.inj (Option.some.inj (hm.symm.trans (halone k hk hfxsr)))
    refine ⟨hfxsr, hregs, fun i hi ↦ ?_⟩
    have hlen : (X86.coreGdt (t.block c k) 0x8b).bytes.length = 64 := X86.ArchGdt.length_bytes _
    rw [← spells_write mem (t.archBlock + 168 * CpuArch.given k) _ i hi]
    refine (heq ?_).symm
    rw [CpuSetup.reads, if_pos hk]
    refine Or.inr ?_
    rw [X86.coreTable, hphys hk]
    exact ⟨by omega, by omega⟩
  have hbarrier := h.handoff.barrier
  refine ⟨hbarrier, hdone, fun i hi hoff k hk ↦ ?_, fun k hk u hu ↦ ?_, hkept,
    fun k hk hpc hfxsr first ↦ ?_⟩
  · exact hdone k hk ((hbarrier.ready i (hb ▸ hi) hoff).1 k (hb ▸ hk))
  · rw [← hready.load_info hlay hk hu]
    have hload : ∀ i, i + 8 ≤ 32 →
        s.cores.memory.load (t.record k + i) 8 = mem.load (t.record k + i) 8 := by
      intro i hi
      refine load_congr fun x h1 h2 ↦ hkept x fun j hj ↦ ?_
      have := (hready.apart hlay hj hk).1
      omega
    have hload₀ : s.cores.memory.load (t.record k) 8 = mem.load (t.record k) 8 :=
      hload 0 (by decide)
    rw [loadCoreStartInfo, loadCoreStartInfo, hload₀, hload 8 (by decide), hload 16 (by decide),
      hload 24 (by decide)]
  · rw [Boot.initStep]
    split
    next hinit =>
      have hsome : (Threads.alone (X86.CoreOp.exec c.hhdmOffset)
          ((b.initStart mmEntry mem core).cores.left k) (b.initStart mmEntry mem core).cores.memory
          ((b.initStart mmEntry mem core).cores.state k)).isSome := by
        rw [hleft k hk]
        exact Option.isSome_iff_exists.mpr ⟨_, halone k hk hfxsr⟩
      rw [Option.isSome_map]
      exact h.alone.enabled hsome hinit.2
    · rw [Option.isSome_map, Boot.step]
      dsimp only
      rw [if_neg (by omega)]
      cases hcase : s.handoff.pc k with
      | bspMachineInit => rfl
      | machineInit => rfl
      | _ =>
        rw [hcase] at hpc
        cases hpc

end Run

end LunarPrekernel
