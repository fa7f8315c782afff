import LunarPrekernel.Boot.Info
import LunarPrekernel.Library.Schedule

/-!
# The handoff barrier

Every core ends in `sync_and_handoff`: it adds 1 to `g_running_cores` and waits until that has
reached `g_core_count`.  The bootstrap core comes there at the end of `prekernel_init`, after it has
started the others in `arch_setup_cpus` and filled in the boot info; the others come there from
`prekernel_init_ap`, where they wait for `g_ap_init_lock` first.

`Boot.step` is what one core does next: one access of a shared variable at a time, in program order,
with the memory sequentially consistent.  The two operands of `<` in the waiting loop are read in
either order, as C allows.  What a core does to its own registers and tables, `arch_machine_init` and
the preparation of the handoff, is a single step: no other core sees any of it.

* `Boot.Inv` — the invariant of every interleaving: what the bootstrap core has written is there
  before the lock opens, and `g_running_cores` counts the cores that have come to the barrier.
* `handoff_barrier` — no core is handed off early.
-/

set_option autoImplicit false

namespace LunarPrekernel

/-! ## The state -/

/-- What `prekernel_init` has computed when it calls `arch_setup_cpus`, and what it will write. -/
structure Boot where
  /-- `boot_info->core_count`. -/
  coreCount : Nat
  /-- The bootloader's index of the core for which `g_boot_core_is_bsp` holds. -/
  bsp : Nat
  bsp_lt : bsp < coreCount
  /-- `g_pmm_map[0 .. g_pmm_map_size)`, once the block for the memory map is allocated. -/
  pmmMap : List PmmMapEntry
  /-- `memory_map_block`. -/
  memoryMapBlock : Nat
  /-- `kernel_image_info.entry_point`. -/
  entryPoint : Nat
  /-- `kernel_image_info.segments`. -/
  segments : Nat
  /-- `kernel_image_info.segment_count`. -/
  segmentCount : Nat

/-- The fields of `bootinfo_t` that are written after the cores are started, and `core_count`. -/
structure Bootinfo where
  coreCount : Nat
  mmEntryCount : Nat
  mmEntries : Nat
  /-- The records at `mm_entries`. -/
  mmEntry : Nat → BootinfoMmEntry
  kernelSegments : Nat
  kernelSegmentCount : Nat

/-- Where a core is. -/
inductive CorePc where
  /-- `prekernel_init`, in the loop of `arch_setup_cpus`. -/
  | startAp (i coreId : Nat)
  /-- `ptm_create_hhdm_mappings`, `arch_prepare_handoff`, and the block for the memory map. -/
  | prepare
  | setMmEntryCount
  | setMmEntries
  | setMmEntry (i : Nat)
  | bspMachineInit
  | setEntryPoint
  | setKernelSegments
  | setKernelSegmentCount
  | setCoreCount
  | unlock
  /-- An application core that has not been started. -/
  | parked
  /-- `prekernel_init_ap`, waiting for `g_ap_init_lock`. -/
  | waitLock
  | machineInit
  /-- Both: the first argument of `sync_and_handoff` is read. -/
  | loadEntryPoint
  | addRunning (entry : Nat)
  /-- In the loop of `sync_and_handoff`, with neither operand of `<` read. -/
  | spin (entry : Nat)
  | haveRunning (entry running : Nat)
  | haveCount (entry count : Nat)
  /-- At the call of `arch_handoff_to_kernel`. -/
  | handoff (entry : Nat)
  /-- In the kernel. -/
  | kernel
deriving DecidableEq

namespace CorePc

/-- In `prekernel_init`, before `g_ap_init_lock` is stored to: the number of writes that are done,
those to the records of the memory map counted as one. -/
def stage : CorePc → Option Nat
  | startAp _ _ => some 0
  | prepare => some 0
  | setMmEntryCount => some 0
  | setMmEntries => some 1
  | setMmEntry _ => some 2
  | bspMachineInit => some 3
  | setEntryPoint => some 3
  | setKernelSegments => some 4
  | setKernelSegmentCount => some 5
  | setCoreCount => some 6
  | unlock => some 7
  | _ => none

/-- `arch_machine_init` has returned. -/
def initDone : CorePc → Bool
  | startAp _ _ => false
  | prepare => false
  | setMmEntryCount => false
  | setMmEntries => false
  | setMmEntry _ => false
  | bspMachineInit => false
  | parked => false
  | waitLock => false
  | machineInit => false
  | _ => true

/-- The core has added itself to `g_running_cores`. -/
def counted : CorePc → Bool
  | spin _ => true
  | haveRunning _ _ => true
  | haveCount _ _ => true
  | handoff _ => true
  | kernel => true
  | _ => false

/-- The core has come to `arch_handoff_to_kernel`. -/
def handedOff : CorePc → Bool
  | handoff _ => true
  | kernel => true
  | _ => false

theorem initDone_of_counted {p : CorePc} (h : p.counted = true) : p.initDone = true := by
  cases p <;> first | rfl | cases h

end CorePc

/-- The shared variables, and where every core is. -/
structure HandoffState where
  /-- By core id. -/
  pc : Nat → CorePc
  /-- `g_boot_start_ap` was called for the core. -/
  started : Nat → Bool
  /-- `g_ap_init_lock`. -/
  apInitLock : Nat
  /-- `g_running_cores`. -/
  runningCores : Nat
  /-- `g_core_count`. -/
  coreCount : Nat
  /-- `g_kernel_entry_point`. -/
  entryPoint : Nat
  info : Bootinfo
  /-- The calls of `arch_handoff_to_kernel`, last one first: the core, and the entry point. -/
  handoffs : List (Nat × Nat)

namespace HandoffState

/-- Core `i` goes on to `p`. -/
def goto (s : HandoffState) (i : Nat) (p : CorePc) : HandoffState :=
  { s with pc := Function.update s.pc i p }

@[simp] theorem goto_pc_self (s : HandoffState) (i : Nat) (p : CorePc) :
    (s.goto i p).pc i = p := Function.update_self ..

theorem goto_pc_of_ne (s : HandoffState) {i j : Nat} (p : CorePc) (h : j ≠ i) :
    (s.goto i p).pc j = s.pc j := Function.update_of_ne h ..

/-- What the core compares `g_running_cores` with, if it is about to. -/
def compares (s : HandoffState) : CorePc → Option Nat
  | .haveRunning _ _ => some s.coreCount
  | .haveCount _ count => some count
  | _ => none

end HandoffState

namespace Boot

/-! ## What a core does next -/

/-- The globals are zero-initialised, and only the bootstrap core runs. -/
def start (b : Boot) (mmEntry : Nat → BootinfoMmEntry) : HandoffState where
  pc i := if i = 0 then .startAp 0 1 else .parked
  started _ := false
  apInitLock := 0
  runningCores := 0
  coreCount := 0
  entryPoint := 0
  info := ⟨b.coreCount, 0, 0, mmEntry, 0, 0⟩
  handoffs := []

/-- The next access of core `i`; `runningFirst` says which operand of `<` it reads first. -/
def step (b : Boot) (s : HandoffState) (c : Nat × Bool) : Option HandoffState :=
  let (i, runningFirst) := c
  if b.coreCount ≤ i then none
  else match s.pc i with
    | .startAp k coreId =>
      if k < b.coreCount then
        if k = b.bsp then some (s.goto i (.startAp (k + 1) coreId))
        else some { s.goto i (.startAp (k + 1) (coreId + 1)) with
          started := Function.update s.started coreId true }
      else some (s.goto i .prepare)
    | .prepare => some (s.goto i .setMmEntryCount)
    | .setMmEntryCount =>
      some { s.goto i .setMmEntries with info.mmEntryCount := b.pmmMap.length }
    | .setMmEntries => some { s.goto i (.setMmEntry 0) with info.mmEntries := b.memoryMapBlock }
    | .setMmEntry k =>
      if h : k < b.pmmMap.length then
        some { s.goto i (.setMmEntry (k + 1)) with
          info.mmEntry := Function.update s.info.mmEntry k (bootinfoMmEntry b.pmmMap[k]) }
      else some (s.goto i .bspMachineInit)
    | .bspMachineInit => some (s.goto i .setEntryPoint)
    | .setEntryPoint => some { s.goto i .setKernelSegments with entryPoint := b.entryPoint }
    | .setKernelSegments =>
      some { s.goto i .setKernelSegmentCount with info.kernelSegments := b.segments }
    | .setKernelSegmentCount =>
      some { s.goto i .setCoreCount with info.kernelSegmentCount := b.segmentCount }
    | .setCoreCount => some { s.goto i .unlock with coreCount := s.info.coreCount % 2 ^ 32 }
    | .unlock => some { s.goto i .loadEntryPoint with apInitLock := 1 }
    | .parked => if s.started i then some (s.goto i .waitLock) else none
    | .waitLock => some (if s.apInitLock = 0 then s else s.goto i .machineInit)
    | .machineInit => some (s.goto i .loadEntryPoint)
    | .loadEntryPoint => some (s.goto i (.addRunning s.entryPoint))
    | .addRunning entry =>
      some { s.goto i (.spin entry) with runningCores := (s.runningCores + 1) % 2 ^ 32 }
    | .spin entry =>
      some (s.goto i
        (if runningFirst then .haveRunning entry s.runningCores else .haveCount entry s.coreCount))
    | .haveRunning entry running =>
      some (s.goto i (if running < s.coreCount then .spin entry else .handoff entry))
    | .haveCount entry count =>
      some (s.goto i (if s.runningCores < count then .spin entry else .handoff entry))
    | .handoff entry => some { s.goto i .kernel with handoffs := (i, entry) :: s.handoffs }
    | .kernel => none

/-- The boot info tells the kernel what it is to know. -/
structure Finished (b : Boot) (info : Bootinfo) : Prop where
  coreCount : info.coreCount = b.coreCount
  mmEntryCount : info.mmEntryCount = b.pmmMap.length
  mmEntries : info.mmEntries = b.memoryMapBlock
  mmEntry : (List.range info.mmEntryCount).map info.mmEntry = b.pmmMap.map bootinfoMmEntry
  kernelSegments : info.kernelSegments = b.segments
  kernelSegmentCount : info.kernelSegmentCount = b.segmentCount

/-! ## The invariant -/

/-- The first `n` writes of the end of `prekernel_init` are done. -/
structure Upto (b : Boot) (s : HandoffState) (n : Nat) : Prop where
  bootCoreCount : s.info.coreCount = b.coreCount
  mmEntryCount : 1 ≤ n → s.info.mmEntryCount = b.pmmMap.length
  mmEntries : 2 ≤ n → s.info.mmEntries = b.memoryMapBlock
  mmEntry : 3 ≤ n → ∀ k (h : k < b.pmmMap.length),
    s.info.mmEntry k = bootinfoMmEntry b.pmmMap[k]
  entryPoint : 4 ≤ n → s.entryPoint = b.entryPoint
  kernelSegments : 5 ≤ n → s.info.kernelSegments = b.segments
  kernelSegmentCount : 6 ≤ n → s.info.kernelSegmentCount = b.segmentCount
  coreCount : 7 ≤ n → s.coreCount = b.coreCount

/-- The lock is open, and everything it is there to wait for has been written. -/
structure Published (b : Boot) (s : HandoffState) : Prop where
  lock : s.apInitLock ≠ 0
  upto : b.Upto s 7

/-- Every core has come to the barrier. -/
def AllCounted (b : Boot) (s : HandoffState) : Prop :=
  ∀ i, i < b.coreCount → (s.pc i).counted = true

/-- What holds where a core is. -/
def CoreOk (b : Boot) (s : HandoffState) : CorePc → Prop
  | .setMmEntry k => s.apInitLock = 0 ∧ b.Upto s 2 ∧
      ∀ j (h : j < b.pmmMap.length), j < k → s.info.mmEntry j = bootinfoMmEntry b.pmmMap[j]
  | .parked => True
  | .waitLock => True
  | .machineInit => b.Published s
  | .loadEntryPoint => b.Published s
  | .addRunning entry => b.Published s ∧ entry = b.entryPoint
  | .spin entry => b.Published s ∧ entry = b.entryPoint
  | .haveRunning entry running =>
    b.Published s ∧ entry = b.entryPoint ∧ running ≤ s.runningCores
  | .haveCount entry count => b.Published s ∧ entry = b.entryPoint ∧ count = b.coreCount
  | .handoff entry => b.Published s ∧ entry = b.entryPoint ∧ b.AllCounted s
  | .kernel => b.Published s ∧ b.AllCounted s
  | p => s.apInitLock = 0 ∧ ∃ n, p.stage = some n ∧ b.Upto s n

/-- What every interleaving keeps. -/
structure Inv (b : Boot) (s : HandoffState) : Prop where
  ok : ∀ i, i < b.coreCount → b.CoreOk s (s.pc i)
  role : ∀ i, i ≠ 0 → (s.pc i).stage = none
  published : s.apInitLock ≠ 0 → b.Upto s 7
  running : s.runningCores = Nat.count (fun i ↦ (s.pc i).counted = true) b.coreCount
  handed : ∀ x ∈ s.handoffs, x.1 < b.coreCount ∧ x.2 = b.entryPoint ∧ s.pc x.1 = .kernel
  nodup : (s.handoffs.map Prod.fst).Nodup

section Inv

variable {b : Boot} {s t : HandoffState} {i n : Nat} {p q : CorePc}

theorem Upto.finished (h : b.Upto s 7) : b.Finished s.info where
  coreCount := h.bootCoreCount
  mmEntryCount := h.mmEntryCount (by decide)
  mmEntries := h.mmEntries (by decide)
  mmEntry := by
    rw [h.mmEntryCount (by decide)]
    refine List.ext_getElem (by simp) fun k h1 h2 ↦ ?_
    rw [List.getElem_map, List.getElem_range, List.getElem_map]
    exact h.mmEntry (by decide) k (by simpa using h2)
  kernelSegments := h.kernelSegments (by decide)
  kernelSegmentCount := h.kernelSegmentCount (by decide)

theorem Upto.congr (h : b.Upto s n) (hinfo : t.info = s.info) (hentry : t.entryPoint = s.entryPoint)
    (hcount : t.coreCount = s.coreCount) : b.Upto t n := by
  obtain ⟨h0, h1, h2, h3, h4, h5, h6, h7⟩ := h
  constructor <;> first | rw [hinfo] | rw [hentry] | rw [hcount]
  all_goals assumption

/-- Before the lock opens, the bootstrap core has done what its place says. -/
theorem CoreOk.early (h : b.CoreOk s p) (hp : p.stage = some n) :
    s.apInitLock = 0 ∧ b.Upto s n := by
  cases p with
  | setMmEntry k =>
    obtain rfl := Option.some.inj hp
    exact ⟨h.1, h.2.1⟩
  | parked | waitLock | machineInit | loadEntryPoint | addRunning | spin | haveRunning | haveCount
    | handoff | kernel => cases hp
  | _ =>
    obtain ⟨hl, k, hk, hu⟩ := h
    obtain rfl := Option.some.inj (hk.symm.trans hp)
    exact ⟨hl, hu⟩

/-- Until then the other cores wait. -/
theorem CoreOk.waiting (h : b.CoreOk s p) (hp : p.stage = none) (hl : s.apInitLock = 0) :
    p = .parked ∨ p = .waitLock := by
  cases p with
  | parked => exact Or.inl rfl
  | waitLock => exact Or.inr rfl
  | machineInit | loadEntryPoint => exact absurd hl h.lock
  | addRunning | spin | haveRunning | haveCount | handoff | kernel => exact absurd hl h.1.lock
  | _ => cases hp

/-- A step that writes none of the published variables, and lets more cores be counted, takes
nothing from a core that does not move. -/
theorem CoreOk.keep (h : b.CoreOk s p) (hlock : t.apInitLock = s.apInitLock)
    (hinfo : t.info = s.info) (hentry : t.entryPoint = s.entryPoint)
    (hcount : t.coreCount = s.coreCount) (hrun : s.runningCores ≤ t.runningCores)
    (hcounted : ∀ j, (s.pc j).counted = true → (t.pc j).counted = true) : b.CoreOk t p := by
  have hupto : ∀ {n}, b.Upto s n → b.Upto t n := fun hu ↦ hu.congr hinfo hentry hcount
  have hpub : b.Published s → b.Published t := fun hp ↦ ⟨by rw [hlock]; exact hp.lock, hupto hp.upto⟩
  have hall : b.AllCounted s → b.AllCounted t := fun ha j hj ↦ hcounted j (ha j hj)
  cases p with
  | setMmEntry k =>
    obtain ⟨hl, hu, hrec⟩ := h
    exact ⟨hlock.trans hl, hupto hu, by rwa [hinfo]⟩
  | parked | waitLock => exact trivial
  | machineInit | loadEntryPoint => exact hpub h
  | addRunning | spin => exact ⟨hpub h.1, h.2⟩
  | haveRunning entry running => exact ⟨hpub h.1, h.2.1, h.2.2.trans hrun⟩
  | haveCount => exact ⟨hpub h.1, h.2⟩
  | handoff => exact ⟨hpub h.1, h.2.1, hall h.2.2⟩
  | kernel => exact ⟨hpub h.1, hall h.2⟩
  | _ =>
    obtain ⟨hl, n, hn, hu⟩ := h
    exact ⟨hlock.trans hl, n, hn, hupto hu⟩

/-- Nothing but the place of core `i` has changed, and it is counted as before. -/
theorem count_goto (h : b.Inv s) (hpc : t.pc = Function.update s.pc i q)
    (hc : q.counted = (s.pc i).counted) :
    Nat.count (fun j ↦ (t.pc j).counted = true) b.coreCount = s.runningCores := by
  rw [h.running, hpc]
  congr 1
  funext j
  rcases eq_or_ne j i with rfl | hne
  · rw [Function.update_self, hc]
  · rw [Function.update_of_ne hne]

theorem handed_goto (h : b.Inv s) (hpc : t.pc = Function.update s.pc i q)
    (hk : s.pc i ≠ .kernel) {x : Nat × Nat} (hx : x ∈ s.handoffs) :
    x.1 < b.coreCount ∧ x.2 = b.entryPoint ∧ t.pc x.1 = .kernel := by
  obtain ⟨h1, h2, h3⟩ := h.handed x hx
  have hne : x.1 ≠ i := fun he ↦ hk (he ▸ h3)
  exact ⟨h1, h2, by rw [hpc, Function.update_of_ne hne, h3]⟩

/-- A step of the bootstrap core before the lock opens: the others wait, so it can write what it
likes. -/
theorem Inv.write (h : b.Inv s) (hp : (s.pc i).stage = some n)
    (hpc : t.pc = Function.update s.pc i q) (hrun : t.runningCores = s.runningCores)
    (hh : t.handoffs = s.handoffs) (hpub : t.apInitLock ≠ 0 → b.Upto t 7) (hq : b.CoreOk t q)
    (hc : q.counted = false) : b.Inv t := by
  have hi : i = 0 := by
    by_contra hne
    rw [h.role i hne] at hp
    cases hp
  subst hi
  have hn := b.bsp_lt
  have hl := ((h.ok 0 (by omega)).early hp).1
  have hcount : (s.pc 0).counted = false := by
    revert hp
    cases s.pc 0 <;> simp [CorePc.stage, CorePc.counted]
  have hkernel : s.pc 0 ≠ .kernel := by
    intro hk
    rw [hk] at hp
    cases hp
  refine ⟨fun j hj ↦ ?_, fun j hj ↦ ?_, hpub, ?_, ?_, by rw [hh]; exact h.nodup⟩
  · rw [hpc]
    rcases eq_or_ne j 0 with rfl | hne
    · rwa [Function.update_self]
    · rw [Function.update_of_ne hne]
      rcases (h.ok j hj).waiting (h.role j hne) hl with hw | hw <;> rw [hw] <;> exact trivial
  · rw [hpc, Function.update_of_ne hj]
    exact h.role j hj
  · rw [hrun, count_goto h hpc (hc.trans hcount.symm)]
  · rw [hh]
    exact fun x ↦ handed_goto h hpc hkernel

/-- A step that writes no published variable. -/
theorem Inv.move (h : b.Inv s) (hpc : t.pc = Function.update s.pc i q)
    (hlock : t.apInitLock = s.apInitLock) (hinfo : t.info = s.info)
    (hentry : t.entryPoint = s.entryPoint) (hcount : t.coreCount = s.coreCount)
    (hrun : t.runningCores = Nat.count (fun j ↦ (t.pc j).counted = true) b.coreCount)
    (hle : s.runningCores ≤ t.runningCores)
    (hc : (s.pc i).counted = true → q.counted = true) (hrole : q.stage = none)
    (hq : b.CoreOk t q)
    (hhanded : ∀ x ∈ t.handoffs, x.1 < b.coreCount ∧ x.2 = b.entryPoint ∧ t.pc x.1 = .kernel)
    (hnodup : (t.handoffs.map Prod.fst).Nodup) : b.Inv t := by
  have hcounted : ∀ j, (s.pc j).counted = true → (t.pc j).counted = true := by
    intro j hj
    rw [hpc]
    rcases eq_or_ne j i with rfl | hne
    · rw [Function.update_self]
      exact hc hj
    · rwa [Function.update_of_ne hne]
  refine ⟨fun j hj ↦ ?_, fun j hj ↦ ?_, fun hl ↦ ?_, hrun, hhanded, hnodup⟩
  · rcases eq_or_ne j i with rfl | hne
    · rw [hpc, Function.update_self]
      exact hq
    · rw [hpc, Function.update_of_ne hne]
      exact (h.ok j hj).keep hlock hinfo hentry hcount hle hcounted
  · rw [hpc]
    rcases eq_or_ne j i with rfl | hne
    · rwa [Function.update_self]
    · rw [Function.update_of_ne hne]
      exact h.role j hj
  · rw [hlock] at hl
    exact (h.published hl).congr hinfo hentry hcount

/-- A step that writes nothing. -/
theorem Inv.goto (h : b.Inv s) (hk : s.pc i ≠ .kernel) (hc : q.counted = (s.pc i).counted)
    (hrole : q.stage = none) (hq : b.CoreOk s q) : b.Inv (s.goto i q) := by
  have hcount := count_goto (t := s.goto i q) h rfl hc
  have hcounted : ∀ j, (s.pc j).counted = true → ((s.goto i q).pc j).counted = true := by
    intro j hj
    rcases eq_or_ne j i with rfl | hne
    · rw [HandoffState.goto_pc_self, hc, hj]
    · rwa [HandoffState.goto_pc_of_ne _ _ hne]
  exact h.move rfl rfl rfl rfl rfl hcount.symm le_rfl (fun hi ↦ by rw [hc, hi]) hrole
    (hq.keep rfl rfl rfl rfl le_rfl hcounted) (fun x ↦ handed_goto h rfl hk) h.nodup

/-- The same, for a step of the bootstrap core that leaves the lock closed. -/
theorem Inv.write_closed {k : Nat} (h : b.Inv s) (hp : (s.pc i).stage = some n)
    (hpc : t.pc = Function.update s.pc i q) (hrun : t.runningCores = s.runningCores)
    (hh : t.handoffs = s.handoffs) (hl : t.apInitLock = 0) (hk : q.stage = some k)
    (hq : b.CoreOk t q) : b.Inv t :=
  h.write hp hpc hrun hh (fun hne ↦ absurd hl hne) hq (by
    revert hk
    cases q <;> simp [CorePc.stage, CorePc.counted])

/-- The steps of the bootstrap core before the lock opens. -/
theorem Inv.step_early (hn : b.coreCount < 2 ^ 32) (h : b.Inv s) {runningFirst : Bool}
    (hi : i < b.coreCount) (hp : (s.pc i).stage = some n) (hstep : b.step s (i, runningFirst) = some t) : b.Inv t := by
  obtain ⟨hl, hu⟩ := (h.ok i hi).early hp
  rw [Boot.step] at hstep
  dsimp only at hstep
  rw [if_neg (by omega)] at hstep
  have hok := h.ok i hi
  cases hpc : s.pc i with
  | startAp k coreId =>
    rw [hpc] at hstep hp
    dsimp only at hstep
    obtain rfl := Option.some.inj hp
    have hst : (s.pc i).stage = some 0 := by rw [hpc]; rfl
    split at hstep
    · split at hstep
      · obtain rfl := Option.some.inj hstep
        exact h.write_closed hst rfl rfl rfl hl rfl ⟨hl, 0, rfl, hu.congr rfl rfl rfl⟩
      · obtain rfl := Option.some.inj hstep
        exact h.write_closed hst rfl rfl rfl hl rfl ⟨hl, 0, rfl, hu.congr rfl rfl rfl⟩
    · obtain rfl := Option.some.inj hstep
      exact h.write_closed hst rfl rfl rfl hl rfl ⟨hl, 0, rfl, hu.congr rfl rfl rfl⟩
  | prepare =>
    rw [hpc] at hstep hp
    obtain rfl := Option.some.inj hp
    obtain rfl := Option.some.inj hstep
    exact h.write_closed (by rw [hpc]; rfl) rfl rfl rfl hl rfl ⟨hl, 0, rfl, hu.congr rfl rfl rfl⟩
  | setMmEntryCount =>
    rw [hpc] at hstep hp
    obtain rfl := Option.some.inj hp
    obtain rfl := Option.some.inj hstep
    refine h.write_closed (by rw [hpc]; rfl) rfl rfl rfl hl rfl ⟨hl, 1, rfl, ?_⟩
    exact ⟨hu.bootCoreCount, fun _ ↦ rfl, by omega, by omega, by omega, by omega, by omega,
      by omega⟩
  | setMmEntries =>
    rw [hpc] at hstep hp
    obtain rfl := Option.some.inj hp
    obtain rfl := Option.some.inj hstep
    refine h.write_closed (by rw [hpc]; rfl) rfl rfl rfl hl rfl
      ⟨hl, ?_, fun j _ hj ↦ absurd hj (Nat.not_lt_zero j)⟩
    exact ⟨hu.bootCoreCount, fun _ ↦ hu.mmEntryCount (by decide), fun _ ↦ rfl, by omega, by omega,
      by omega, by omega, by omega⟩
  | setMmEntry k =>
    rw [hpc] at hstep hp hok
    dsimp only at hstep
    obtain rfl := Option.some.inj hp
    obtain ⟨-, -, hrec⟩ := hok
    have hst : (s.pc i).stage = some 2 := by rw [hpc]; rfl
    split at hstep
    · rename_i hk
      obtain rfl := Option.some.inj hstep
      refine h.write_closed hst rfl rfl rfl hl rfl ⟨hl, ?_, fun j hj hjk ↦ ?_⟩
      · exact ⟨hu.bootCoreCount, fun _ ↦ hu.mmEntryCount (by decide),
          fun _ ↦ hu.mmEntries (by decide), by omega, by omega, by omega, by omega, by omega⟩
      · show Function.update _ _ _ _ = _
        rcases eq_or_ne j k with rfl | hne
        · rw [Function.update_self]
        · rw [Function.update_of_ne hne]
          exact hrec j hj (by omega)
    · obtain rfl := Option.some.inj hstep
      refine h.write_closed hst rfl rfl rfl hl rfl ⟨hl, 3, rfl, ?_⟩
      exact ⟨hu.bootCoreCount, fun _ ↦ hu.mmEntryCount (by decide),
        fun _ ↦ hu.mmEntries (by decide), fun _ j hj ↦ hrec j hj (by omega), by omega, by omega,
        by omega, by omega⟩
  | bspMachineInit =>
    rw [hpc] at hstep hp
    obtain rfl := Option.some.inj hp
    obtain rfl := Option.some.inj hstep
    exact h.write_closed (by rw [hpc]; rfl) rfl rfl rfl hl rfl ⟨hl, 3, rfl, hu.congr rfl rfl rfl⟩
  | setEntryPoint =>
    rw [hpc] at hstep hp
    obtain rfl := Option.some.inj hp
    obtain rfl := Option.some.inj hstep
    refine h.write_closed (by rw [hpc]; rfl) rfl rfl rfl hl rfl ⟨hl, 4, rfl, ?_⟩
    exact ⟨hu.bootCoreCount, fun _ ↦ hu.mmEntryCount (by decide),
      fun _ ↦ hu.mmEntries (by decide), fun _ ↦ hu.mmEntry (by decide), fun _ ↦ rfl, by omega,
      by omega, by omega⟩
  | setKernelSegments =>
    rw [hpc] at hstep hp
    obtain rfl := Option.some.inj hp
    obtain rfl := Option.some.inj hstep
    refine h.write_closed (by rw [hpc]; rfl) rfl rfl rfl hl rfl ⟨hl, 5, rfl, ?_⟩
    exact ⟨hu.bootCoreCount, fun _ ↦ hu.mmEntryCount (by decide),
      fun _ ↦ hu.mmEntries (by decide), fun _ ↦ hu.mmEntry (by decide),
      fun _ ↦ hu.entryPoint (by decide), fun _ ↦ rfl, by omega, by omega⟩
  | setKernelSegmentCount =>
    rw [hpc] at hstep hp
    obtain rfl := Option.some.inj hp
    obtain rfl := Option.some.inj hstep
    refine h.write_closed (by rw [hpc]; rfl) rfl rfl rfl hl rfl ⟨hl, 6, rfl, ?_⟩
    exact ⟨hu.bootCoreCount, fun _ ↦ hu.mmEntryCount (by decide),
      fun _ ↦ hu.mmEntries (by decide), fun _ ↦ hu.mmEntry (by decide),
      fun _ ↦ hu.entryPoint (by decide), fun _ ↦ hu.kernelSegments (by decide), fun _ ↦ rfl,
      by omega⟩
  | setCoreCount =>
    rw [hpc] at hstep hp
    obtain rfl := Option.some.inj hp
    obtain rfl := Option.some.inj hstep
    refine h.write_closed (by rw [hpc]; rfl) rfl rfl rfl hl rfl ⟨hl, 7, rfl, ?_⟩
    refine ⟨hu.bootCoreCount, fun _ ↦ hu.mmEntryCount (by decide),
      fun _ ↦ hu.mmEntries (by decide), fun _ ↦ hu.mmEntry (by decide),
      fun _ ↦ hu.entryPoint (by decide), fun _ ↦ hu.kernelSegments (by decide),
      fun _ ↦ hu.kernelSegmentCount (by decide), fun _ ↦ ?_⟩
    show s.info.coreCount % 2 ^ 32 = _
    rw [hu.bootCoreCount, Nat.mod_eq_of_lt hn]
  | unlock =>
    rw [hpc] at hstep hp
    obtain rfl := Option.some.inj hp
    obtain rfl := Option.some.inj hstep
    exact h.write (by rw [hpc]; rfl) rfl rfl rfl (fun _ ↦ hu.congr rfl rfl rfl)
      ⟨one_ne_zero, hu.congr rfl rfl rfl⟩ rfl
  | _ =>
    rw [hpc] at hp
    cases hp

/-- A core that has seen as many cores as there are has seen all of them. -/
theorem Inv.allCounted (h : b.Inv s) (hle : b.coreCount ≤ s.runningCores) : b.AllCounted s := by
  rw [h.running] at hle
  exact (Nat.count_iff_forall (p := fun j ↦ (s.pc j).counted = true)).mp
    (le_antisymm (Nat.count_le _) hle)

/-- The steps of a core that waits for the lock, or is past it. -/
theorem Inv.step_late (hn : b.coreCount < 2 ^ 32) (h : b.Inv s) {runningFirst : Bool}
    (hi : i < b.coreCount) (hp : (s.pc i).stage = none)
    (hstep : b.step s (i, runningFirst) = some t) : b.Inv t := by
  have hok := h.ok i hi
  rw [Boot.step] at hstep
  dsimp only at hstep
  rw [if_neg (by omega)] at hstep
  cases hpc : s.pc i with
  | parked =>
    rw [hpc] at hstep
    dsimp only at hstep
    split at hstep
    · obtain rfl := Option.some.inj hstep
      exact h.goto (by simp [hpc]) (by rw [hpc]; rfl) rfl trivial
    · cases hstep
  | waitLock =>
    rw [hpc] at hstep
    obtain rfl := Option.some.inj hstep
    split
    · exact h
    · rename_i hl
      exact h.goto (by simp [hpc]) (by rw [hpc]; rfl) rfl ⟨hl, h.published hl⟩
  | machineInit =>
    rw [hpc] at hstep hok
    obtain rfl := Option.some.inj hstep
    exact h.goto (by simp [hpc]) (by rw [hpc]; rfl) rfl hok
  | loadEntryPoint =>
    rw [hpc] at hstep hok
    obtain rfl := Option.some.inj hstep
    exact h.goto (by simp [hpc]) (by rw [hpc]; rfl) rfl ⟨hok, hok.upto.entryPoint (by decide)⟩
  | addRunning entry =>
    rw [hpc] at hstep hok
    obtain rfl := Option.some.inj hstep
    obtain ⟨hpub, he⟩ := hok
    have hnot : ¬ (s.pc i).counted = true := by simp [hpc, CorePc.counted]
    have hlt : s.runningCores < b.coreCount := by
      rw [h.running]
      exact Schedule.count_lt hi hnot
    have hmod : (s.runningCores + 1) % 2 ^ 32 = s.runningCores + 1 := Nat.mod_eq_of_lt (by omega)
    refine h.move (q := .spin entry) rfl rfl rfl rfl rfl ?_ ?_ (fun hc ↦ absurd hc hnot) rfl
      ⟨⟨hpub.lock, hpub.upto.congr rfl rfl rfl⟩, he⟩ (fun x ↦ handed_goto h rfl (by simp [hpc]))
      h.nodup
    · show (s.runningCores + 1) % 2 ^ 32 = _
      rw [hmod, h.running]
      refine (Schedule.count_add_one hi hnot ?_ fun j hj ↦ ?_).symm
      · show ((s.goto i (.spin entry)).pc i).counted = true
        rw [HandoffState.goto_pc_self]
        rfl
      · show ((s.goto i (.spin entry)).pc j).counted = true ↔ _
        rw [HandoffState.goto_pc_of_ne _ _ hj]
    · show s.runningCores ≤ (s.runningCores + 1) % 2 ^ 32
      omega
  | spin entry =>
    rw [hpc] at hstep hok
    obtain rfl := Option.some.inj hstep
    split
    · exact h.goto (by simp [hpc]) (by rw [hpc]; rfl) rfl ⟨hok.1, hok.2, le_rfl⟩
    · exact h.goto (by simp [hpc]) (by rw [hpc]; rfl) rfl
        ⟨hok.1, hok.2, hok.1.upto.coreCount le_rfl⟩
  | haveRunning entry running =>
    rw [hpc] at hstep hok
    obtain rfl := Option.some.inj hstep
    obtain ⟨hpub, he, hle⟩ := hok
    split
    · exact h.goto (by simp [hpc]) (by rw [hpc]; rfl) rfl ⟨hpub, he⟩
    · rename_i hge
      rw [hpub.upto.coreCount le_rfl] at hge
      exact h.goto (by simp [hpc]) (by rw [hpc]; rfl) rfl ⟨hpub, he, h.allCounted (by omega)⟩
  | haveCount entry count =>
    rw [hpc] at hstep hok
    obtain rfl := Option.some.inj hstep
    obtain ⟨hpub, he, rfl⟩ := hok
    split
    · exact h.goto (by simp [hpc]) (by rw [hpc]; rfl) rfl ⟨hpub, he⟩
    · exact h.goto (by simp [hpc]) (by rw [hpc]; rfl) rfl ⟨hpub, he, h.allCounted (by omega)⟩
  | handoff entry =>
    rw [hpc] at hstep hok
    obtain rfl := Option.some.inj hstep
    obtain ⟨hpub, he, hall⟩ := hok
    have hkernel : s.pc i ≠ .kernel := by simp [hpc]
    have hcount := count_goto (t := s.goto i .kernel) h rfl (by rw [hpc]; rfl)
    have hnew : (s.goto i .kernel).pc i = .kernel := HandoffState.goto_pc_self ..
    refine h.move (q := .kernel) rfl rfl rfl rfl rfl hcount.symm le_rfl (fun _ ↦ rfl) rfl
      ⟨⟨hpub.lock, hpub.upto.congr rfl rfl rfl⟩, fun j hj ↦ ?_⟩ (fun x hx ↦ ?_)
      (List.nodup_cons.mpr ⟨fun hx ↦ ?_, h.nodup⟩)
    · show ((s.goto i .kernel).pc j).counted = true
      rcases eq_or_ne j i with rfl | hne
      · rw [hnew]
        rfl
      · rw [HandoffState.goto_pc_of_ne _ _ hne]
        exact hall j hj
    · rcases List.mem_cons.mp hx with rfl | hx
      · exact ⟨hi, he, hnew⟩
      · exact handed_goto h rfl hkernel hx
    · obtain ⟨x, hxm, rfl⟩ := List.mem_map.mp hx
      exact hkernel (h.handed x hxm).2.2
  | kernel =>
    rw [hpc] at hstep
    cases hstep
  | _ =>
    rw [hpc] at hp
    cases hp

/-- **The step lemma.** -/
theorem Inv.step (hn : b.coreCount < 2 ^ 32) (h : b.Inv s) {c : Nat × Bool}
    (hstep : b.step s c = some t) : b.Inv t := by
  obtain ⟨i, runningFirst⟩ := c
  have hi : i < b.coreCount := by
    by_contra hge
    rw [Boot.step] at hstep
    dsimp only at hstep
    rw [if_pos (by omega)] at hstep
    cases hstep
  cases hp : (s.pc i).stage with
  | some n => exact h.step_early hn hi hp hstep
  | none => exact h.step_late hn hi hp hstep

/-- At the start. -/
theorem Inv.start (b : Boot) (mmEntry : Nat → BootinfoMmEntry) : b.Inv (b.start mmEntry) where
  ok i _ := by
    show b.CoreOk _ (if i = 0 then _ else _)
    split
    · exact ⟨rfl, 0, rfl, rfl, by omega, by omega, by omega, by omega, by omega, by omega, by omega⟩
    · exact trivial
  role i hi := by
    show (if i = 0 then _ else _ : CorePc).stage = none
    rw [if_neg hi]
    rfl
  published hl := absurd rfl hl
  running := by
    refine (Nat.count_iff_forall_not.mpr fun i _ ↦ ?_).symm
    show ¬ (if i = 0 then _ else _ : CorePc).counted = true
    split <;> simp [CorePc.counted]
  handed x hx := by cases hx
  nodup := List.nodup_nil

end Inv

end Boot

/-! ## The barrier -/

/-- What the barrier is for: when a core is handed off, every core has been initialised and the boot
info is finished; no core is handed off twice, or to any place but the entry point that was
published; and no core compares `g_running_cores` with anything but the number of cores. -/
structure Barrier (b : Boot) (s : HandoffState) : Prop where
  ready : ∀ i, i < b.coreCount → (s.pc i).handedOff = true →
    (∀ j, j < b.coreCount → (s.pc j).initDone = true) ∧ b.Finished s.info
  once : (s.handoffs.map Prod.fst).Nodup
  entry : ∀ x ∈ s.handoffs, x.1 < b.coreCount ∧ x.2 = b.entryPoint ∧ s.entryPoint = b.entryPoint
  compared : ∀ i, i < b.coreCount → ∀ n ∈ s.compares (s.pc i), n = b.coreCount

theorem Boot.Inv.barrier {b : Boot} {s : HandoffState} (h : b.Inv s) : Barrier b s where
  ready i hi hoff := by
    have hok := h.ok i hi
    cases hpc : s.pc i with
    | handoff =>
      rw [hpc] at hok
      exact ⟨fun j hj ↦ CorePc.initDone_of_counted (hok.2.2 j hj), hok.1.upto.finished⟩
    | kernel =>
      rw [hpc] at hok
      exact ⟨fun j hj ↦ CorePc.initDone_of_counted (hok.2 j hj), hok.1.upto.finished⟩
    | _ =>
      rw [hpc] at hoff
      cases hoff
  once := h.nodup
  entry x hx := by
    obtain ⟨h1, h2, h3⟩ := h.handed x hx
    have hok := h.ok x.1 h1
    rw [h3] at hok
    exact ⟨h1, h2, hok.1.upto.entryPoint (by decide)⟩
  compared i hi n hn := by
    have hok := h.ok i hi
    cases hpc : s.pc i with
    | haveRunning =>
      rw [hpc] at hok hn
      obtain rfl := Option.some.inj hn
      exact hok.1.upto.coreCount le_rfl
    | haveCount =>
      rw [hpc] at hok hn
      obtain rfl := Option.some.inj hn
      exact hok.2.2
    | _ =>
      rw [hpc] at hn
      cases hn

/-- **The handoff barrier**, for every interleaving of the steps of any number of cores below
`2 ^ 32`, whatever the memory map's block holds at first. -/
theorem handoff_barrier (b : Boot) (hn : b.coreCount < 2 ^ 32) (mmEntry : Nat → BootinfoMmEntry)
    (cs : List (Nat × Bool)) (s : HandoffState)
    (h : Schedule.run b.step (b.start mmEntry) cs = some s) : Barrier b s :=
  (Schedule.run_inv (fun _ _ _ hs ↦ hs.step hn) (Boot.Inv.start b mmEntry) h).barrier

/-- Three cores, of which the bootloader lists the bootstrap core second. -/
def bootThree : Boot where
  coreCount := 3
  bsp := 1
  bsp_lt := by decide
  pmmMap := [⟨0x1000, 0x4000, .free⟩, ⟨0x8000, 0x1000, .used⟩]
  memoryMapBlock := 0xffff800000003000
  entryPoint := 0xffffffff80000000
  segments := 0xffff800000004000
  segmentCount := 2

/-- A schedule in which core 2 waits for the lock before it opens and comes to the barrier first, and
core 1 comes to it last. -/
def scheduleThree : List (Nat × Bool) :=
  List.replicate 4 (0, true) ++ [(2, true), (2, true)] ++ List.replicate 12 (0, true) ++
    [(2, true), (2, true), (2, true), (2, true), (2, false), (2, false)] ++
    [(1, true), (1, true), (1, true), (1, true), (0, true), (0, true), (0, false), (0, true)] ++
    [(1, true), (2, true), (2, true), (2, true), (0, true), (0, false), (0, true)] ++
    [(1, false), (1, false), (1, false)]

theorem handoff_barrier_three : ∃ s,
    Schedule.run bootThree.step (bootThree.start fun _ ↦ ⟨.bad, 0, 0⟩) scheduleThree = some s ∧
    s.handoffs.map Prod.fst = [1, 0, 2] ∧ Barrier bootThree s := by
  have hrun : (Schedule.run bootThree.step (bootThree.start fun _ ↦ ⟨.bad, 0, 0⟩)
      scheduleThree).map (fun s ↦ s.handoffs.map Prod.fst) = some [1, 0, 2] := by decide +kernel
  obtain ⟨s, hs, hoff⟩ := Option.map_eq_some_iff.mp hrun
  exact ⟨s, hs, hoff, handoff_barrier bootThree (by decide) _ _ s hs⟩

/-! ## A core count that does not fit -/

/-- The loop of `arch_setup_cpus` comes to its end. -/
theorem Boot.run_startAp (b : Boot) : ∀ (n : Nat) (s : HandoffState) (k coreId : Nat),
    s.pc 0 = .startAp k coreId → k + n = b.coreCount → ∃ cs f,
      Schedule.run b.step s cs = some { s.goto 0 .prepare with started := f } := by
  have hn := b.bsp_lt
  have hgoto : ∀ (s : HandoffState) (p q : CorePc), (s.goto 0 p).goto 0 q = s.goto 0 q :=
    fun s p q ↦ by rw [HandoffState.goto, HandoffState.goto, HandoffState.goto, Function.update_idem]
  intro n
  induction n with
  | zero =>
    intro s k coreId hpc hk
    refine ⟨[(0, true)], s.started, ?_⟩
    rw [Schedule.run, Boot.step]
    simp only [hpc]
    rw [if_neg (by omega), if_neg (by omega)]
    rfl
  | succ n ih =>
    intro s k coreId hpc hk
    by_cases hb : k = b.bsp
    · obtain ⟨cs, f, hcs⟩ := ih (s.goto 0 (.startAp (k + 1) coreId)) (k + 1) coreId
        (HandoffState.goto_pc_self ..) (by omega)
      refine ⟨(0, true) :: cs, f, ?_⟩
      rw [Schedule.run_cons, hcs, hgoto]
      rw [Boot.step]
      simp only [hpc]
      rw [if_neg (by omega), if_pos (by omega), if_pos hb]
    · obtain ⟨cs, f, hcs⟩ := ih { s.goto 0 (.startAp (k + 1) (coreId + 1)) with
          started := Function.update s.started coreId true } (k + 1) (coreId + 1)
        (HandoffState.goto_pc_self s 0 _) (by omega)
      refine ⟨(0, true) :: cs, f, ?_⟩
      rw [Schedule.run_cons, hcs]
      · rw [← hgoto s (.startAp (k + 1) (coreId + 1)) .prepare]
        rfl
      rw [Boot.step]
      simp only [hpc]
      rw [if_neg (by omega), if_pos (by omega), if_neg hb]

/-- `g_core_count` has 32 bits, `boot_info->core_count` has 64. -/
def bootMany : Boot where
  coreCount := 2 ^ 32
  bsp := 0
  bsp_lt := by decide
  pmmMap := []
  memoryMapBlock := 0xffff800000003000
  entryPoint := 0xffffffff80000000
  segments := 0xffff800000004000
  segmentCount := 2

/-- **With `2 ^ 32` cores** the bootstrap core waits for 0 of them, and is handed off while none of
the others has begun. -/
theorem handoff_barrier_wraps : ∃ cs s,
    Schedule.run bootMany.step (bootMany.start fun _ ↦ ⟨.bad, 0, 0⟩) cs = some s ∧
    s.coreCount = 0 ∧ s.handoffs = [(0, 0xffffffff80000000)] ∧ s.pc 1 = .parked ∧
    ¬ Barrier bootMany s := by
  obtain ⟨cs, f, hcs⟩ := bootMany.run_startAp (2 ^ 32) (bootMany.start fun _ ↦ ⟨.bad, 0, 0⟩) 0 1 rfl
    (Nat.zero_add _)
  have hrest : (Schedule.run bootMany.step
      { (bootMany.start fun _ ↦ ⟨.bad, 0, 0⟩).goto 0 .prepare with started := f }
      (List.replicate 15 (0, true))).map
        (fun s ↦ (s.coreCount, s.handoffs, s.pc 0, s.pc 1)) =
      some (0, [(0, 0xffffffff80000000)], .kernel, .parked) := by
    with_unfolding_all rfl
  obtain ⟨s, hs, hfacts⟩ := Option.map_eq_some_iff.mp hrest
  simp only [Prod.mk.injEq] at hfacts
  obtain ⟨hcount, hoff, hpc0, hpc1⟩ := hfacts
  refine ⟨cs ++ List.replicate 15 (0, true), s, ?_, hcount, hoff, hpc1, fun hbar ↦ ?_⟩
  · rw [Schedule.run_append, hcs, Option.bind_some, hs]
  · have hmany : 1 < bootMany.coreCount := by
      show 1 < 2 ^ 32
      omega
    have hdone := (hbar.ready 0 (by omega) (by rw [hpc0]; rfl)).1 1 hmany
    rw [hpc1] at hdone
    cases hdone

end LunarPrekernel
