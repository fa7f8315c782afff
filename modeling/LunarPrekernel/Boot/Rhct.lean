import LunarPrekernel.Boot.Isa

/-!
# Finding the ISA string

On riscv64 the ISA string comes from the RHCT table of ACPI or from the device tree.
`arch_acpi_detect_mmu_levels` and `arch_acpi_parse_extentions` walk over the nodes of the RHCT, each
for the first node of a type of its own (`rhctFind`), and `arch_parse_extentions` goes to the device
tree when the second of them says that there is nothing.

* `rhctFind_eq` — on a table whose nodes tile it, the walk is `List.find?`.
* `extentions_served` — the two walkers and the fallback do what they are for exactly when the RHCT,
  if there is one, has an ISA-string node: without one the second walker goes on with a null node.

The table is the list of its bytes, and a read behind them is a `fault`.  The structures and numbers
of `uacpi/acpi.h` are a parameter, `RhctLayout`, and so is what `libfdt` reads out of the device
tree, `Fdt`.
-/

set_option autoImplicit false

namespace LunarPrekernel

/-! ## The code -/

/-- What `uacpi/acpi.h` says about the RHCT: offsets of fields, and values of its enumerators. -/
structure RhctLayout where
  /-- Offset of `node_count` in `struct acpi_rhct`. -/
  nodeCount : Nat
  /-- Offset of `nodes_offset` in `struct acpi_rhct`. -/
  nodesOffset : Nat
  /-- Offset of `isa` in `struct acpi_rhct_isa_string`. -/
  isa : Nat
  /-- Offset of `type` in `struct acpi_rhct_mmu`. -/
  mmuType : Nat
  /-- `ACPI_RHCT_ENTRY_TYPE_ISA_STRING`. -/
  entryTypeIsaString : Nat
  /-- `ACPI_RHCT_ENTRY_TYPE_MMU`. -/
  entryTypeMmu : Nat
  /-- `ACPI_RHCT_MMU_TYPE_SV39`. -/
  sv39 : Nat
  /-- `ACPI_RHCT_MMU_TYPE_SV48`. -/
  sv48 : Nat
  /-- `ACPI_RHCT_MMU_TYPE_SV57`. -/
  sv57 : Nat
  sv39_ne_sv48 : sv39 ≠ sv48
  sv39_ne_sv57 : sv39 ≠ sv57
  sv48_ne_sv57 : sv48 ≠ sv57
  /-- The types fit the byte they are kept in. -/
  sv_lt : sv39 < 256 ∧ sv48 < 256 ∧ sv57 < 256

/-- The number in the `n` bytes at `offset` of the table. -/
def tableField (table : List UInt8) (offset n : Nat) : Nat :=
  Memory.load (fun a ↦ table.getD a 0) offset n

/-- A read of such a field. -/
def readField (table : List UInt8) (offset n : Nat) : Except Stop Nat :=
  if offset + n ≤ table.length then .ok (tableField table offset n) else .error .fault

/-- The loop over the nodes, from the one at `base` on, with `n` to go: the first of the type. -/
def rhctFind (table : List UInt8) (type : Nat) : Nat → Nat → Except Stop (Option Nat)
  | 0, _ => .ok none
  | n + 1, base =>
    (readField table (base + 2) 2).bind fun length ↦
      (readField table base 2).bind fun hdrType ↦
        if hdrType = type then .ok (some base) else rhctFind table type n (base + length)

/-- The same from the first node on. -/
def rhctFirst (layout : RhctLayout) (table : List UInt8) (type : Nat) : Except Stop (Option Nat) :=
  (readField table layout.nodesOffset 4).bind fun base ↦
    (readField table layout.nodeCount 4).bind fun nodeCount ↦ rhctFind table type nodeCount base

/-- The tests at the end of `arch_acpi_detect_mmu_levels`. -/
def mmuLevels (layout : RhctLayout) (mmuType : Nat) : Nat :=
  if mmuType = layout.sv57 then 5
  else if mmuType = layout.sv48 then 4
  else if mmuType = layout.sv39 then 3
  else 0

/-- `arch_acpi_detect_mmu_levels`; `rhct` is what `uacpi_table_find_by_signature` finds. -/
def archAcpiDetectMmuLevels (layout : RhctLayout) (rdspPhysical : Nat) (rhct : Option (List UInt8)) :
    Except Stop Nat :=
  if rdspPhysical = 0 then .ok 0
  else
    match rhct with
    | none => .ok 0
    | some table =>
      (rhctFirst layout table layout.entryTypeMmu).bind fun hdr ↦
        match hdr with
        | none => .ok (mmuLevels layout 0xffff)
        | some hdr => (readField table (hdr + layout.mmuType) 1).map (mmuLevels layout)

/-- What `parse_isa_string` does, for the functions that call it. -/
abbrev IsaEffect := IsaInfo × List IsaStore × PmmMap

/-- `arch_acpi_parse_extentions`: what it has parsed when it returns `true`. -/
def archAcpiParseExtentions (layout : RhctLayout) (m : PmmMap) (hhdmOffset rdspPhysical : Nat)
    (rhct : Option (List UInt8)) : Except Stop (Option IsaEffect) :=
  if rdspPhysical = 0 then .ok none
  else
    match rhct with
    | none => .ok none
    | some table =>
      (rhctFirst layout table layout.entryTypeIsaString).bind fun isaStringSubtable ↦
        match isaStringSubtable with
        | none => .error .fault -- `isa_string_subtable` is still null
        | some hdr => (parseIsaString m hhdmOffset (table.drop (hdr + layout.isa))).map some

/-- What `fdt_getprop` gives for a node under `/cpus`; a property is the bytes that can be read from
it on. -/
structure FdtNode where
  /-- `"device_type"`. -/
  deviceType : Option (List UInt8)
  /-- `"riscv,isa"`, with `len`. -/
  isa : Option (List UInt8 × Int)

/-- What `libfdt` says about the device tree. -/
structure Fdt where
  /-- `fdt_check_header`. -/
  checkHeader : Int
  /-- `fdt_path_offset(fdt, "/cpus")`. -/
  cpusNode : Int
  /-- The nodes `fdt_for_each_subnode` goes through. -/
  subnodes : List FdtNode

/-- `"cpu"`. -/
def cpuString : List UInt8 := [99, 112, 117]

/-- The loop of `arch_fdt_parse_extentions`. -/
def fdtFindIsa : List FdtNode → Except Stop (Option (List UInt8))
  | [] => .ok none
  | node :: nodes =>
    match node.deviceType with
    | none => fdtFindIsa nodes
    | some compatible =>
      (strcmp compatible (cpuString ++ [0])).bind fun r ↦
        if r ≠ 0 then fdtFindIsa nodes
        else
          match node.isa with
          | none => fdtFindIsa nodes
          | some (isa, len) => if len > 0 then .ok (some isa) else fdtFindIsa nodes

/-- `arch_fdt_parse_extentions`. -/
def archFdtParseExtentions (m : PmmMap) (hhdmOffset : Nat) (fdt : Fdt) :
    Except Stop (Option IsaEffect) :=
  if fdt.checkHeader ≠ 0 then .ok none
  else if fdt.cpusNode < 0 then .ok none
  else
    (fdtFindIsa fdt.subnodes).bind fun isaString ↦
      match isaString with
      | none => .ok none
      | some isa => (parseIsaString m hhdmOffset isa).map some

/-- What `arch_parse_extentions` looks at. -/
structure IsaSources where
  rdspPhysical : Nat
  rhct : Option (List UInt8)
  dtbPhysical : Nat
  fdt : Fdt

/-- `arch_parse_extentions`. -/
def archParseExtentions (layout : RhctLayout) (m : PmmMap) (hhdmOffset : Nat) (src : IsaSources) :
    Except Stop (Option IsaEffect) :=
  (if src.rdspPhysical = 0 then .ok none
    else archAcpiParseExtentions layout m hhdmOffset src.rdspPhysical src.rhct).bind fun parsed ↦
      match parsed with
      | some r => .ok (some r)
      | none =>
        if src.dtbPhysical = 0 then .ok none else archFdtParseExtentions m hhdmOffset src.fdt

/-! ## Tables whose nodes tile them -/

/-- A node of the RHCT. -/
structure RhctNode where
  offset : Nat
  type : Nat
deriving DecidableEq

/-- From `base` on the table is the given nodes, one behind the other. -/
inductive RhctTiles (table : List UInt8) : Nat → List RhctNode → Prop where
  | nil : RhctTiles table table.length []
  | cons {base : Nat} {nodes : List RhctNode} (hb : base + 4 ≤ table.length)
    (hl : tableField table (base + 2) 2 ≠ 0)
    (h : RhctTiles table (base + tableField table (base + 2) 2) nodes) :
    RhctTiles table base (⟨base, tableField table base 2⟩ :: nodes)

/-- The table has the given nodes. -/
structure RhctHolds (layout : RhctLayout) (table : List UInt8) (nodes : List RhctNode) : Prop where
  nodeCount_le : layout.nodeCount + 4 ≤ table.length
  nodesOffset_le : layout.nodesOffset + 4 ≤ table.length
  count : tableField table layout.nodeCount 4 = nodes.length
  tiles : RhctTiles table (tableField table layout.nodesOffset 4) nodes
  /-- An MMU node has its type. -/
  mmu : ∀ node ∈ nodes, node.type = layout.entryTypeMmu →
    node.offset + layout.mmuType + 1 ≤ table.length

section Walk

variable {layout : RhctLayout} {table : List UInt8} {nodes : List RhctNode} {base type : Nat}

theorem readField_eq {offset n : Nat} (h : offset + n ≤ table.length) :
    readField table offset n = .ok (tableField table offset n) := if_pos h

/-- **The walk** finds the first node of the type. -/
theorem rhctFind_eq (h : RhctTiles table base nodes) (type : Nat) :
    rhctFind table type nodes.length base =
      .ok ((nodes.find? fun node ↦ node.type = type).map RhctNode.offset) := by
  induction h with
  | nil => rfl
  | cons hb hl h ih =>
    rw [List.length_cons, rhctFind, readField_eq (by omega), readField_eq (by omega)]
    dsimp only [Except.bind]
    split
    · rename_i htype
      rw [List.find?_cons_of_pos (by simpa using htype)]
      rfl
    · rename_i htype
      rw [List.find?_cons_of_neg (by simpa using htype), ih]

theorem RhctHolds.first_eq (h : RhctHolds layout table nodes) (type : Nat) :
    rhctFirst layout table type =
      .ok ((nodes.find? fun node ↦ node.type = type).map RhctNode.offset) := by
  rw [rhctFirst, readField_eq h.nodesOffset_le, readField_eq h.nodeCount_le]
  dsimp only [Except.bind]
  rw [h.count, rhctFind_eq h.tiles]

end Walk

/-! ## What the sources say -/

/-- The levels of an MMU node's type. -/
def svLevels (layout : RhctLayout) (mmuType : Nat) : Nat :=
  if mmuType = layout.sv39 then 3
  else if mmuType = layout.sv48 then 4
  else if mmuType = layout.sv57 then 5
  else 0

/-- What ACPI says about the levels. -/
def acpiLevels (layout : RhctLayout) (src : IsaSources) (nodes : List RhctNode) : Nat :=
  match src.rhct, nodes.find? fun node ↦ node.type = layout.entryTypeMmu with
  | some table, some node =>
    if src.rdspPhysical = 0 then 0
    else svLevels layout (tableField table (node.offset + layout.mmuType) 1)
  | _, _ => 0

/-- The ISA string that ACPI has. -/
def acpiIsaString (layout : RhctLayout) (src : IsaSources) (nodes : List RhctNode) :
    Option (List UInt8) :=
  match src.rhct, nodes.find? fun node ↦ node.type = layout.entryTypeIsaString with
  | some table, some node =>
    if src.rdspPhysical = 0 then none else some (table.drop (node.offset + layout.isa))
  | _, _ => none

/-- The ISA string of a node under `/cpus`, if it is one of a cpu. -/
def FdtNode.isaString (node : FdtNode) : Option (List UInt8) :=
  match node.deviceType, node.isa with
  | some deviceType, some (isa, len) =>
    if cpuString ++ [0] <+: deviceType ∧ 0 < len then some isa else none
  | _, _ => none

/-- The ISA string that the device tree has. -/
def Fdt.isaString (fdt : Fdt) : Option (List UInt8) :=
  if fdt.checkHeader ≠ 0 ∨ fdt.cpusNode < 0 then none
  else fdt.subnodes.findSome? FdtNode.isaString

/-- A `"device_type"` is a string. -/
def Fdt.Readable (fdt : Fdt) : Prop :=
  ∀ node ∈ fdt.subnodes, ∀ deviceType, node.deviceType = some deviceType →
    ∃ str after, deviceType = str ++ 0 :: after ∧ ∀ c ∈ str, c ≠ 0

section Fdt

variable {fdt : Fdt} {nodes : List FdtNode}

theorem cpuString_ne_zero : ∀ c ∈ cpuString, c ≠ 0 := by simp [cpuString]

theorem prefix_iff_eq {s str after : List UInt8} (hs : ∀ c ∈ s, c ≠ 0) (hstr : ∀ c ∈ str, c ≠ 0) :
    s ++ [0] <+: str ++ 0 :: after ↔ s = str := by
  induction s generalizing str with
  | nil =>
    cases str with
    | nil => simp
    | cons c str => simpa [List.cons_prefix_cons] using (hstr c (by simp)).symm
  | cons c s ih =>
    cases str with
    | nil => simpa [List.cons_prefix_cons] using fun h ↦ absurd h (hs c (by simp))
    | cons d str =>
      rw [List.cons_append, List.cons_append, List.cons_prefix_cons,
        ih (fun x hx ↦ hs x (by simp [hx])) (fun x hx ↦ hstr x (by simp [hx])), List.cons.injEq]

/-- A test for a literal, on a string. -/
theorem strcmp_literal {literal bytes str after : List UInt8} (hl : ∀ c ∈ literal, c ≠ 0)
    (hb : bytes = str ++ 0 :: after) (hstr : ∀ c ∈ str, c ≠ 0) :
    ∃ r, strcmp bytes (literal ++ [0]) = .ok r ∧ (r = 0 ↔ literal ++ [0] <+: bytes) := by
  obtain ⟨r, hr, hcmp⟩ := strcmp_eq hstr hl after []
  rw [hb]
  refine ⟨r, hr, ?_⟩
  rw [prefix_iff_eq hl hstr, ← @Std.compare_eq_iff_eq _ _ _ r, hcmp, Std.compare_eq_iff_eq, eq_comm]

/-- **The loop over the device tree** is `List.findSome?`. -/
theorem fdtFindIsa_eq (h : ∀ node ∈ nodes, ∀ deviceType, node.deviceType = some deviceType →
      ∃ str after, deviceType = str ++ 0 :: after ∧ ∀ c ∈ str, c ≠ 0) :
    fdtFindIsa nodes = .ok (nodes.findSome? FdtNode.isaString) := by
  induction nodes with
  | nil => rfl
  | cons node nodes ih =>
    have ih := ih fun n hn ↦ h n (by simp [hn])
    rw [fdtFindIsa, List.findSome?_cons, FdtNode.isaString]
    cases hd : node.deviceType with
    | none => exact ih
    | some deviceType =>
      obtain ⟨str, after, hstr, hne⟩ := h node (by simp) deviceType hd
      obtain ⟨r, hr, hzero⟩ := strcmp_literal cpuString_ne_zero hstr hne
      dsimp only
      rw [hr]
      dsimp only [Except.bind]
      by_cases hcpu : r = 0
      · rw [if_neg (not_not.2 hcpu)]
        cases node.isa with
        | none => exact ih
        | some isa =>
          dsimp only
          by_cases hlen : isa.2 > 0
          · rw [if_pos hlen, if_pos ⟨hzero.1 hcpu, hlen⟩]
          · rw [if_neg hlen, if_neg fun hc ↦ hlen hc.2]
            exact ih
      · rw [if_pos hcpu]
        cases node.isa with
        | none => exact ih
        | some isa =>
          dsimp only
          rw [if_neg fun hc ↦ hcpu (hzero.2 hc.1)]
          exact ih

theorem archFdtParseExtentions_none (h : fdt.Readable) (hnone : fdt.isaString = none) (m : PmmMap)
    (hhdmOffset : Nat) : archFdtParseExtentions m hhdmOffset fdt = .ok none := by
  rw [archFdtParseExtentions]
  split
  · rfl
  split
  · rfl
  rename_i h1 h2
  rw [Fdt.isaString, if_neg (by tauto)] at hnone
  rw [fdtFindIsa_eq h, hnone]
  rfl

end Fdt

/-! ## The two sources together -/

/-- The ISA string is taken from ACPI if it is there, else from the device tree if that was provided;
where neither has one, the functions say so. -/
structure IsaServed (layout : RhctLayout) (m : PmmMap) (hhdmOffset : Nat) (src : IsaSources)
    (nodes : List RhctNode) : Prop where
  acpi : archAcpiParseExtentions layout m hhdmOffset src.rdspPhysical src.rhct =
    match acpiIsaString layout src nodes with
    | some isa => (parseIsaString m hhdmOffset isa).map some
    | none => .ok none
  fallback : archParseExtentions layout m hhdmOffset src =
    match acpiIsaString layout src nodes with
    | some isa => (parseIsaString m hhdmOffset isa).map some
    | none => if src.dtbPhysical = 0 then .ok none else archFdtParseExtentions m hhdmOffset src.fdt
  neither : acpiIsaString layout src nodes = none →
    src.dtbPhysical = 0 ∨ src.fdt.isaString = none →
      archParseExtentions layout m hhdmOffset src = .ok none

section Sources

variable {layout : RhctLayout} {src : IsaSources} {nodes : List RhctNode}

theorem mmuLevels_eq (mmuType : Nat) : mmuLevels layout mmuType = svLevels layout mmuType := by
  have h1 := layout.sv39_ne_sv48
  have h2 := layout.sv39_ne_sv57
  have h3 := layout.sv48_ne_sv57
  rw [mmuLevels, svLevels]
  split_ifs <;> simp_all

/-- A type is a byte, and `0xffff` stands for none. -/
theorem mmuLevels_none : mmuLevels layout 0xffff = 0 := by
  obtain ⟨h1, h2, h3⟩ := layout.sv_lt
  rw [mmuLevels, if_neg (by omega), if_neg (by omega), if_neg (by omega)]

/-- The levels are those of the first MMU node. -/
theorem archAcpiDetectMmuLevels_eq
    (hrhct : ∀ table, src.rhct = some table → RhctHolds layout table nodes) :
    archAcpiDetectMmuLevels layout src.rdspPhysical src.rhct =
      .ok (acpiLevels layout src nodes) := by
  rw [archAcpiDetectMmuLevels.eq_def, acpiLevels]
  by_cases hz : src.rdspPhysical = 0
  · rw [if_pos hz]
    split <;> simp [hz]
  rw [if_neg hz]
  cases htable : src.rhct with
  | none => rfl
  | some table =>
    have h := hrhct table htable
    dsimp only
    rw [h.first_eq]
    cases hfind : nodes.find? fun node ↦ node.type = layout.entryTypeMmu with
    | none => exact congrArg Except.ok mmuLevels_none
    | some node =>
      have hmem := List.mem_of_find?_eq_some hfind
      have htype : node.type = layout.entryTypeMmu := by simpa using List.find?_some hfind
      dsimp only [Option.map_some, Except.bind]
      rw [readField_eq (h.mmu node hmem htype), if_neg hz]
      exact congrArg Except.ok (mmuLevels_eq _)

/-- ACPI is absent, has no RHCT, or its RHCT has an ISA-string node. -/
def HasIsaNode (layout : RhctLayout) (src : IsaSources) (nodes : List RhctNode) : Prop :=
  src.rdspPhysical = 0 ∨ src.rhct = none ∨ ∃ node ∈ nodes, node.type = layout.entryTypeIsaString

theorem acpiIsaString_of_absent (hz : src.rdspPhysical = 0) :
    acpiIsaString layout src nodes = none := by
  rw [acpiIsaString]
  split
  · rw [if_pos hz]
  · rfl

theorem archAcpiParseExtentions_eq
    (hrhct : ∀ table, src.rhct = some table → RhctHolds layout table nodes)
    (hnode : HasIsaNode layout src nodes) (m : PmmMap) (hhdmOffset : Nat) :
    archAcpiParseExtentions layout m hhdmOffset src.rdspPhysical src.rhct =
      match acpiIsaString layout src nodes with
      | some isa => (parseIsaString m hhdmOffset isa).map some
      | none => .ok none := by
  by_cases hz : src.rdspPhysical = 0
  · rw [archAcpiParseExtentions.eq_def, if_pos hz, acpiIsaString_of_absent hz]
  rw [archAcpiParseExtentions.eq_def, acpiIsaString, if_neg hz]
  cases htable : src.rhct with
  | none => rfl
  | some table =>
    obtain hz' | hnone | ⟨node, hmem, htype⟩ := hnode
    · exact absurd hz' hz
    · rw [hnone] at htable
      cases htable
    dsimp only
    rw [(hrhct table htable).first_eq]
    cases hfind : nodes.find? fun node ↦ node.type = layout.entryTypeIsaString with
    | none => exact absurd htype (by simpa using List.find?_eq_none.1 hfind node hmem)
    | some node =>
      dsimp only [Option.map_some, Except.bind]
      rw [if_neg hz]

/-- Without an ISA-string node the null node is used. -/
theorem archAcpiParseExtentions_fault
    (hrhct : ∀ table, src.rhct = some table → RhctHolds layout table nodes)
    (hnode : ¬ HasIsaNode layout src nodes) (m : PmmMap) (hhdmOffset : Nat) :
    archAcpiParseExtentions layout m hhdmOffset src.rdspPhysical src.rhct = .error .fault ∧
      acpiIsaString layout src nodes = none := by
  rw [HasIsaNode, not_or, not_or] at hnode
  obtain ⟨hz, hrhct', hnone⟩ := hnode
  obtain ⟨table, htable⟩ := Option.ne_none_iff_exists'.1 hrhct'
  have hfind : nodes.find? (fun node ↦ node.type = layout.entryTypeIsaString) = none := by
    rw [List.find?_eq_none]
    intro node hmem htype
    exact hnone ⟨node, hmem, by simpa using htype⟩
  constructor
  · rw [archAcpiParseExtentions.eq_def, if_neg hz, htable]
    dsimp only
    rw [(hrhct table htable).first_eq, hfind]
    rfl
  · rw [acpiIsaString, htable, hfind]

/-- **The RHCT and the fallback**: the levels are always those of the first MMU node, and the ISA
string is found, or reported missing, exactly when there is no RHCT without an ISA-string node. -/
theorem isa_served (hrhct : ∀ table, src.rhct = some table → RhctHolds layout table nodes)
    (hfdt : src.fdt.Readable) (m : PmmMap) (hhdmOffset : Nat) :
    archAcpiDetectMmuLevels layout src.rdspPhysical src.rhct = .ok (acpiLevels layout src nodes) ∧
      (IsaServed layout m hhdmOffset src nodes ↔ HasIsaNode layout src nodes) := by
  refine ⟨archAcpiDetectMmuLevels_eq hrhct, fun h ↦ ?_, fun hnode ↦ ?_⟩
  · by_contra hnode
    obtain ⟨hfault, hnone⟩ := archAcpiParseExtentions_fault hrhct hnode m hhdmOffset
    have := h.acpi
    rw [hfault, hnone] at this
    cases this
  · have hacpi := archAcpiParseExtentions_eq hrhct hnode m hhdmOffset
    have hfallback : archParseExtentions layout m hhdmOffset src =
        match acpiIsaString layout src nodes with
        | some isa => (parseIsaString m hhdmOffset isa).map some
        | none =>
          if src.dtbPhysical = 0 then .ok none
          else archFdtParseExtentions m hhdmOffset src.fdt := by
      have hguard : (if src.rdspPhysical = 0 then (.ok none : Except Stop (Option IsaEffect))
          else archAcpiParseExtentions layout m hhdmOffset src.rdspPhysical src.rhct) =
            archAcpiParseExtentions layout m hhdmOffset src.rdspPhysical src.rhct := by
        split
        · rename_i hz
          rw [archAcpiParseExtentions.eq_def, if_pos hz]
        · rfl
      rw [archParseExtentions, hguard, hacpi]
      cases acpiIsaString layout src nodes with
      | none => rfl
      | some isa =>
        dsimp only
        cases parseIsaString m hhdmOffset isa with
        | ok r => rfl
        | error stop => rfl
    refine ⟨hacpi, hfallback, fun hnone hdtb ↦ ?_⟩
    rw [hfallback, hnone]
    dsimp only
    split
    · rfl
    · rename_i hd
      exact archFdtParseExtentions_none hfdt (hdtb.resolve_left hd) m hhdmOffset

end Sources

/-- The structures as the ACPI specification has them. -/
def acpiRhct : RhctLayout where
  nodeCount := 48
  nodesOffset := 52
  isa := 8
  mmuType := 7
  entryTypeIsaString := 0
  entryTypeMmu := 2
  sv39 := 0
  sv48 := 1
  sv57 := 2
  sv39_ne_sv48 := Nat.zero_ne_one
  sv39_ne_sv57 := (Nat.succ_ne_zero 1).symm
  sv48_ne_sv57 := (Nat.succ_ne_self 1).symm
  sv_lt := ⟨Nat.le_of_ble_eq_true rfl, Nat.le_of_ble_eq_true rfl, Nat.le_of_ble_eq_true rfl⟩

/-- A table with `n` nodes from offset 56 on. -/
def smallRhct (n : UInt8) (nodes : List UInt8) : List UInt8 :=
  List.replicate 48 0 ++ [n, 0, 0, 0, 56, 0, 0, 0] ++ nodes

/-- An MMU node with Sv48. -/
def mmuNode : List UInt8 := [2, 0, 8, 0, 1, 0, 0, 1]

/-- An ISA-string node with `rv64i`. -/
def isaNode : List UInt8 := [0, 0, 14, 0, 1, 0, 6, 0, 114, 118, 54, 52, 105, 0]

/-- No device tree. -/
def noFdt : Fdt := ⟨-1, -1, []⟩

theorem smallRhct_holds : RhctHolds acpiRhct (smallRhct 2 (mmuNode ++ isaNode)) [⟨56, 2⟩, ⟨64, 0⟩] where
  nodeCount_le := by decide
  nodesOffset_le := by decide
  count := by decide
  tiles := .cons (by decide) (by decide) (.cons (by decide) (by decide) .nil)
  mmu := by decide

theorem isa_served_rhct :
    archAcpiDetectMmuLevels acpiRhct 1 (some (smallRhct 2 (mmuNode ++ isaNode))) = .ok 4 ∧
      IsaServed acpiRhct .empty 0 ⟨1, some (smallRhct 2 (mmuNode ++ isaNode)), 0, noFdt⟩
        [⟨56, 2⟩, ⟨64, 0⟩] := by
  have h := @isa_served acpiRhct ⟨1, some (smallRhct 2 (mmuNode ++ isaNode)), 0, noFdt⟩
    [⟨56, 2⟩, ⟨64, 0⟩] (fun table ht ↦ Option.some.inj ht ▸ smallRhct_holds)
    (by simp [Fdt.Readable, noFdt]) .empty 0
  exact ⟨h.1, h.2.2 (Or.inr (Or.inr ⟨⟨64, 0⟩, by decide, rfl⟩))⟩

/-- With an MMU node alone the walker for the ISA string comes to the null node. -/
theorem isa_served_null :
    RhctHolds acpiRhct (smallRhct 1 mmuNode) [⟨56, 2⟩] ∧
      archAcpiParseExtentions acpiRhct .empty 0 1 (some (smallRhct 1 mmuNode)) = .error .fault ∧
      archParseExtentions acpiRhct .empty 0 ⟨1, some (smallRhct 1 mmuNode), 0, noFdt⟩ =
        .error .fault ∧
      ¬ IsaServed acpiRhct .empty 0 ⟨1, some (smallRhct 1 mmuNode), 0, noFdt⟩ [⟨56, 2⟩] := by
  have hfault : archAcpiParseExtentions acpiRhct .empty 0 1 (some (smallRhct 1 mmuNode)) =
      .error .fault := stopOf_eq_some (by decide +kernel)
  refine ⟨?_, hfault, stopOf_eq_some (by decide +kernel), fun h ↦ ?_⟩
  · exact
      { nodeCount_le := by decide
        nodesOffset_le := by decide
        count := by decide
        tiles := .cons (by decide) (by decide) .nil
        mmu := by decide }
  · have := h.acpi
    rw [hfault] at this
    cases this

end LunarPrekernel
