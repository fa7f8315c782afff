import LunarPrekernel.Boot.Rhct
import LunarPrekernel.Ptm.PmmFrames
import LunarPrekernel.Ptm.Riscv

/-!
# How many levels the tables have

On riscv64 `ptm_init` asks the firmware: ACPI for the MMU node of the RHCT, and where that says
nothing the device tree for the `"mmu-type"` of a cpu.

* `fdtMmuLevels_eq` — the loop over the device tree ends at the first cpu, whether that has the
  property or not, unlike the loop for the ISA string.
* `levels_declared` — `ptm_init` makes tables of as many levels as the firmware declares, three to
  five of them, or panics.
-/

set_option autoImplicit false

namespace LunarPrekernel

/-! ## The code -/

/-- What `fdt_getprop` gives for a node under `/cpus`; a property is the bytes that can be read from
it on. -/
structure FdtMmuNode where
  /-- `"device_type"`. -/
  deviceType : Option (List UInt8)
  /-- `"mmu-type"`, with `len`. -/
  mmuType : Option (List UInt8 × Int)

/-- What `libfdt` says about the device tree. -/
structure FdtMmu where
  /-- `fdt_check_header`. -/
  checkHeader : Int
  /-- `fdt_path_offset(fdt, "/cpus")`. -/
  cpusNode : Int
  /-- The nodes `fdt_for_each_subnode` goes through. -/
  subnodes : List FdtMmuNode

/-- `"riscv,sv57"`. -/
def sv57String : List UInt8 := [114, 105, 115, 99, 118, 44, 115, 118, 53, 55]

/-- `"riscv,sv48"`. -/
def sv48String : List UInt8 := [114, 105, 115, 99, 118, 44, 115, 118, 52, 56]

/-- `"riscv,sv39"`. -/
def sv39String : List UInt8 := [114, 105, 115, 99, 118, 44, 115, 118, 51, 57]

/-- The tests for the property of a cpu. -/
def mmuTypeLevels (mmu : List UInt8) : Except Stop Nat :=
  (strcmp mmu (sv57String ++ [0])).bind fun r ↦
    if r = 0 then .ok 5
    else (strcmp mmu (sv48String ++ [0])).bind fun r ↦
      if r = 0 then .ok 4
      else (strcmp mmu (sv39String ++ [0])).bind fun r ↦
        if r = 0 then .ok 3 else .error (.panic "Unsupported MMU type" [])

/-- The loop of `arch_fdt_detect_mmu_levels`. -/
def fdtMmuLevels : List FdtMmuNode → Except Stop Nat
  | [] => .ok 0
  | node :: nodes =>
    match node.deviceType with
    | none => fdtMmuLevels nodes
    | some devtype =>
      (strcmp devtype (cpuString ++ [0])).bind fun r ↦
        if r ≠ 0 then fdtMmuLevels nodes
        else
          match node.mmuType with
          | none => .ok 0 -- the `break` is behind the test for the property
          | some (mmu, len) => if len > 0 then mmuTypeLevels mmu else .ok 0

/-- `arch_fdt_detect_mmu_levels`. -/
def archFdtDetectMmuLevels (dtbPhysical : Nat) (fdt : FdtMmu) : Except Stop Nat :=
  if dtbPhysical = 0 then .ok 0
  else if fdt.checkHeader ≠ 0 then .ok 0
  else if fdt.cpusNode < 0 then .ok 0
  else fdtMmuLevels fdt.subnodes

/-- What `ptm_init` looks at. -/
structure LevelSources extends IsaSources where
  fdtMmu : FdtMmu

/-- `ptm_init`, with the calls that `detect_max_level_count` makes: the second one only where the
first has no answer. -/
def Riscv.ptmInitFrom {A : Type} (src : FrameSource A) (layout : RhctLayout) (fw : LevelSources)
    (s : Machine A) : Except Stop (Riscv.Ptm × Machine A) :=
  (archAcpiDetectMmuLevels layout fw.rdspPhysical fw.rhct).bind fun acpiLevels ↦
    (if acpiLevels ≠ 0 then .ok 0 else archFdtDetectMmuLevels fw.dtbPhysical fw.fdtMmu).bind
      fun dtbLevels ↦ Riscv.ptmInit src acpiLevels dtbLevels s

/-! ## What the firmware declares -/

/-- The node is one of a cpu. -/
def FdtMmuNode.isCpu (node : FdtMmuNode) : Bool :=
  match node.deviceType with
  | none => false
  | some deviceType => decide (cpuString ++ [0] <+: deviceType)

/-- The levels a string names. -/
def namedLevels (mmu : List UInt8) : Option Nat :=
  if sv57String ++ [0] <+: mmu then some 5
  else if sv48String ++ [0] <+: mmu then some 4
  else if sv39String ++ [0] <+: mmu then some 3
  else none

/-- What the node of a cpu says about the levels: `0` for nothing, and `none` for a mode that has no
number of levels here. -/
def FdtMmuNode.levels (node : FdtMmuNode) : Option Nat :=
  match node.mmuType with
  | none => some 0
  | some (mmu, len) => if 0 < len then namedLevels mmu else some 0

/-- What the device tree says about the levels, in its first cpu. -/
def FdtMmu.levels (fdt : FdtMmu) (dtbPhysical : Nat) : Option Nat :=
  if dtbPhysical = 0 ∨ fdt.checkHeader ≠ 0 ∨ fdt.cpusNode < 0 then some 0
  else
    match fdt.subnodes.find? FdtMmuNode.isCpu with
    | none => some 0
    | some node => node.levels

/-- The levels of the tables: what ACPI says, or else what the device tree says. -/
def declaredLevels (layout : RhctLayout) (fw : LevelSources) (nodes : List RhctNode) :
    Except Stop Nat :=
  if acpiLevels layout fw.toIsaSources nodes ≠ 0 then .ok (acpiLevels layout fw.toIsaSources nodes)
  else
    match fw.fdtMmu.levels fw.dtbPhysical with
    | none => .error (.panic "Unsupported MMU type" [])
    | some 0 => .error (.panic "ptm: failed to detect supported paging modes" [])
    | some n => .ok n

/-- The bytes are a string. -/
def IsString (bytes : List UInt8) : Prop :=
  ∃ str after, bytes = str ++ 0 :: after ∧ ∀ c ∈ str, c ≠ 0

/-- Both properties are strings. -/
def FdtMmu.Readable (fdt : FdtMmu) : Prop :=
  ∀ node ∈ fdt.subnodes, (∀ deviceType, node.deviceType = some deviceType → IsString deviceType) ∧
    ∀ mmu len, node.mmuType = some (mmu, len) → IsString mmu

section Fdt

variable {fdt : FdtMmu} {nodes : List FdtMmuNode}

theorem svStrings_ne_zero : (∀ c ∈ sv57String, c ≠ 0) ∧ (∀ c ∈ sv48String, c ≠ 0) ∧
    ∀ c ∈ sv39String, c ≠ 0 := by
  simp [sv57String, sv48String, sv39String]

/-- The result of the loop, or its panic. -/
def levelsOrPanic : Option Nat → Except Stop Nat
  | none => .error (.panic "Unsupported MMU type" [])
  | some n => .ok n

theorem mmuTypeLevels_eq {mmu : List UInt8} (h : IsString mmu) :
    mmuTypeLevels mmu = levelsOrPanic (namedLevels mmu) := by
  obtain ⟨str, after, hstr, hne⟩ := h
  obtain ⟨h57, h48, h39⟩ := svStrings_ne_zero
  obtain ⟨r57, hr57, hz57⟩ := strcmp_literal h57 hstr hne
  obtain ⟨r48, hr48, hz48⟩ := strcmp_literal h48 hstr hne
  obtain ⟨r39, hr39, hz39⟩ := strcmp_literal h39 hstr hne
  rw [mmuTypeLevels, namedLevels, hr57, hr48, hr39]
  simp only [Except.bind, hz57, hz48, hz39]
  split
  · rfl
  split
  · rfl
  split <;> rfl

/-- **The loop over the device tree** looks at the first cpu. -/
theorem fdtMmuLevels_eq
    (h : ∀ node ∈ nodes, (∀ deviceType, node.deviceType = some deviceType → IsString deviceType) ∧
      ∀ mmu len, node.mmuType = some (mmu, len) → IsString mmu) :
    fdtMmuLevels nodes = levelsOrPanic (match nodes.find? FdtMmuNode.isCpu with
      | none => some 0
      | some node => node.levels) := by
  induction nodes with
  | nil => rfl
  | cons node nodes ih =>
    have ih := ih fun n hn ↦ h n (List.mem_cons_of_mem _ hn)
    obtain ⟨hdevice, hmmu⟩ := h node List.mem_cons_self
    rw [fdtMmuLevels]
    cases hd : node.deviceType with
    | none =>
      have hno : ¬ node.isCpu = true := by simp [FdtMmuNode.isCpu, hd]
      rw [List.find?_cons_of_neg hno]
      exact ih
    | some deviceType =>
      obtain ⟨str, after, hstr, hne⟩ := hdevice deviceType hd
      obtain ⟨r, hr, hzero⟩ := strcmp_literal cpuString_ne_zero hstr hne
      have hcpu : node.isCpu = true ↔ r = 0 := by simp [FdtMmuNode.isCpu, hd, hzero]
      dsimp only
      rw [hr]
      dsimp only [Except.bind]
      by_cases h0 : r = 0
      · rw [if_neg (not_not.2 h0), List.find?_cons_of_pos (hcpu.mpr h0)]
        dsimp only
        rw [FdtMmuNode.levels]
        cases hm : node.mmuType with
        | none => rfl
        | some p =>
          obtain ⟨mmu, len⟩ := p
          dsimp only
          split
          · exact mmuTypeLevels_eq (hmmu mmu len hm)
          · rfl
      · rw [if_pos h0, List.find?_cons_of_neg fun hc ↦ h0 (hcpu.mp hc)]
        exact ih

theorem archFdtDetectMmuLevels_eq (h : fdt.Readable) (dtbPhysical : Nat) :
    archFdtDetectMmuLevels dtbPhysical fdt = levelsOrPanic (fdt.levels dtbPhysical) := by
  rw [archFdtDetectMmuLevels, FdtMmu.levels]
  by_cases hz : dtbPhysical = 0
  · rw [if_pos hz, if_pos (Or.inl hz)]
    rfl
  by_cases hheader : fdt.checkHeader ≠ 0
  · rw [if_neg hz, if_pos hheader, if_pos (Or.inr (Or.inl hheader))]
    rfl
  by_cases hcpus : fdt.cpusNode < 0
  · rw [if_neg hz, if_neg hheader, if_pos hcpus, if_pos (Or.inr (Or.inr hcpus))]
    rfl
  rw [if_neg hz, if_neg hheader, if_neg hcpus, if_neg (by tauto)]
  exact fdtMmuLevels_eq h

end Fdt

section Levels

variable {layout : RhctLayout} {fw : LevelSources} {nodes : List RhctNode} {n : Nat}

theorem svLevels_bounds {mmuType : Nat} (h : svLevels layout mmuType ≠ 0) :
    3 ≤ svLevels layout mmuType ∧ svLevels layout mmuType ≤ 5 := by
  unfold svLevels at h ⊢
  split_ifs at h ⊢ <;> omega

theorem acpiLevels_bounds {src : IsaSources} (h : acpiLevels layout src nodes ≠ 0) :
    3 ≤ acpiLevels layout src nodes ∧ acpiLevels layout src nodes ≤ 5 := by
  unfold acpiLevels at h ⊢
  split at h
  · by_cases hz : src.rdspPhysical = 0
    · exact absurd (if_pos hz) h
    · rw [if_neg hz] at h ⊢
      exact svLevels_bounds h
  · exact absurd rfl h

theorem namedLevels_bounds {mmu : List UInt8} (h : namedLevels mmu = some n) : 3 ≤ n ∧ n ≤ 5 := by
  unfold namedLevels at h
  split_ifs at h
  all_goals
    obtain rfl := Option.some.inj h
    decide

theorem FdtMmu.levels_bounds {fdt : FdtMmu} {dtbPhysical : Nat}
    (h : fdt.levels dtbPhysical = some n) (hpos : n ≠ 0) : 3 ≤ n ∧ n ≤ 5 := by
  unfold FdtMmu.levels at h
  split at h
  · exact absurd (Option.some.inj h).symm hpos
  split at h
  · exact absurd (Option.some.inj h).symm hpos
  unfold FdtMmuNode.levels at h
  split at h
  · exact absurd (Option.some.inj h).symm hpos
  split at h
  · exact namedLevels_bounds h
  · exact absurd (Option.some.inj h).symm hpos

/-- The tables have three to five levels. -/
theorem declaredLevels_bounds (h : declaredLevels layout fw nodes = .ok n) : 3 ≤ n ∧ n ≤ 5 := by
  unfold declaredLevels at h
  split at h
  next hacpi =>
    obtain rfl := Except.ok.inj h
    exact acpiLevels_bounds hacpi
  · split at h
    · cases h
    · cases h
    next k hk hlevels =>
      obtain rfl := Except.ok.inj h
      exact FdtMmu.levels_bounds hlevels hk

/-- **The levels are those the firmware declares.** -/
theorem levels_declared {A : Type} {src : FrameSource A}
    (hrhct : ∀ table, fw.rhct = some table → RhctHolds layout table nodes)
    (hfdt : fw.fdtMmu.Readable) (s : Machine A) :
    (Riscv.ptmInitFrom src layout fw s = (declaredLevels layout fw nodes).bind fun n ↦
      (src.alloc s.frames).map fun r ↦
        (⟨r.1, n⟩, ⟨s.mem.fill r.1 ptmPageGranularity 0, r.2⟩)) ∧
      ∀ ptm s', Riscv.ptmInitFrom src layout fw s = .ok (ptm, s') →
        declaredLevels layout fw nodes = .ok ptm.levelCount ∧
          3 ≤ ptm.levelCount ∧ ptm.levelCount ≤ 5 := by
  have heq : Riscv.ptmInitFrom src layout fw s = (declaredLevels layout fw nodes).bind fun n ↦
      (src.alloc s.frames).map fun r ↦
        (⟨r.1, n⟩, ⟨s.mem.fill r.1 ptmPageGranularity 0, r.2⟩) := by
    have hacpi : archAcpiDetectMmuLevels layout fw.rdspPhysical fw.rhct =
        .ok (acpiLevels layout fw.toIsaSources nodes) := archAcpiDetectMmuLevels_eq hrhct
    rw [Riscv.ptmInitFrom, hacpi, declaredLevels]
    dsimp only [Except.bind]
    by_cases h0 : acpiLevels layout fw.toIsaSources nodes ≠ 0
    · rw [if_pos h0, if_pos h0]
      dsimp only [Except.bind]
      rw [Riscv.ptmInit, Riscv.detectMaxLevelCount, if_pos h0]
      rfl
    · rw [if_neg h0, if_neg h0, archFdtDetectMmuLevels_eq hfdt]
      cases fw.fdtMmu.levels fw.dtbPhysical with
      | none => rfl
      | some n =>
        dsimp only [levelsOrPanic, Except.bind]
        rw [Riscv.ptmInit, Riscv.detectMaxLevelCount, if_neg h0]
        cases n with
        | zero => rfl
        | succ n => rfl
  refine ⟨heq, fun ptm s' h ↦ ?_⟩
  rw [heq] at h
  obtain ⟨n, hn, h⟩ := bind_eq_ok h
  obtain ⟨r, -, hptm⟩ := map_eq_ok h
  obtain ⟨rfl, -⟩ := Prod.mk.inj hptm
  exact ⟨hn, declaredLevels_bounds hn⟩

end Levels

/-- An RHCT with nothing but an ISA string, and a device tree with one cpu, whose `"mmu-type"` is
`"riscv,sv48"`. -/
def fdtFirmware : LevelSources where
  rdspPhysical := 1
  rhct := some (smallRhct 1 isaNode)
  dtbPhysical := 1
  fdt := noFdt
  fdtMmu := ⟨0, 0, [⟨none, none⟩, ⟨some (cpuString ++ [0]), some (sv48String ++ [0], 11)⟩]⟩

theorem fdtFirmware_rhct : RhctHolds acpiRhct (smallRhct 1 isaNode) [⟨56, 0⟩] where
  nodeCount_le := by decide
  nodesOffset_le := by decide
  count := by decide
  tiles := .cons (by decide) (by decide) .nil
  mmu := by decide

theorem fdtFirmware_readable : fdtFirmware.fdtMmu.Readable := by
  intro node hnode
  rcases List.mem_cons.mp hnode with rfl | hnode
  · refine ⟨fun _ h ↦ ?_, fun _ _ h ↦ ?_⟩ <;> cases h
  · obtain rfl := List.mem_singleton.mp hnode
    refine ⟨fun deviceType h ↦ ?_, fun mmu len h ↦ ?_⟩
    · exact ⟨cpuString, [], (Option.some.inj h).symm, cpuString_ne_zero⟩
    · exact ⟨sv48String, [], (Prod.mk.inj (Option.some.inj h)).1.symm, svStrings_ne_zero.2.1⟩

theorem levels_declared_sv48 : declaredLevels acpiRhct fdtFirmware [⟨56, 0⟩] = .ok 4 ∧
    ∃ (m : PmmMap) (ptm : Riscv.Ptm) (s' : Machine PmmState),
      Riscv.ptmInitFrom (pmmFrames (2 ^ 56) le_rfl) acpiRhct fdtFirmware ⟨fun _ ↦ 0, ⟨m, []⟩⟩ =
        .ok (ptm, s') ∧ ptm.levelCount = 4 := by
  have hrun : ((addAll .empty [⟨0x1000, 0x100000, .free⟩]).toOption.bind fun m ↦
      (Riscv.ptmInitFrom (pmmFrames (2 ^ 56) le_rfl) acpiRhct fdtFirmware
        ⟨fun _ ↦ 0, ⟨m, []⟩⟩).toOption.map fun r ↦ r.1.levelCount) = some 4 := by
    decide +kernel
  obtain ⟨m, -, hrun⟩ := Option.bind_eq_some_iff.mp hrun
  obtain ⟨⟨ptm, s'⟩, hinit, hlevel⟩ := Option.map_eq_some_iff.mp hrun
  have hlevel : ptm.levelCount = 4 := hlevel
  have hinit := toOption_eq_some hinit
  have hdeclared := ((levels_declared (fun table ht ↦ Option.some.inj ht ▸ fdtFirmware_rhct)
    fdtFirmware_readable _).2 ptm s' hinit).1
  rw [hlevel] at hdeclared
  exact ⟨hdeclared, m, ptm, s', hinit, hlevel⟩

end LunarPrekernel
