import LunarPrekernel.Pmm.Defs

/-!
# What the kernel is told about memory

The part of `protocol/bootinfo.h` that describes the physical memory map, and the `switch` of
`prekernel_init` that turns a type of the allocator's table into one of the protocol's.
-/

set_option autoImplicit false

namespace LunarPrekernel

/-- `bootinfo_mm_type_t`, in the order of its enumerators. -/
inductive BootinfoMmType where
  | usable
  | used
  | reclaimable
  | acpiReclaimable
  | acpiNvs
  | reserved
  | bad
deriving DecidableEq, Repr

/-- The value of the enumerator, which is what the kernel reads. -/
def BootinfoMmType.val : BootinfoMmType → Nat
  | usable => 0
  | used => 1
  | reclaimable => 2
  | acpiReclaimable => 3
  | acpiNvs => 4
  | reserved => 5
  | bad => 6

/-- `bootinfo_mm_entry_t`. -/
structure BootinfoMmEntry where
  type : BootinfoMmType
  physBase : Nat
  length : Nat
deriving DecidableEq, Repr

/-- The `switch` of `prekernel_init`. -/
def bootinfoMmType : PmmMapType → BootinfoMmType
  | .bootloaderReclaimable => .usable
  | .efiReclaimable => .usable
  | .free => .usable
  | .allocated => .reclaimable
  | .used => .used
  | .acpiReclaimable => .acpiReclaimable
  | .acpiNvs => .acpiNvs
  | .reserved => .reserved
  | .bad => .bad

/-- What `prekernel_init` writes for an entry of the allocator's table. -/
def bootinfoMmEntry (entry : PmmMapEntry) : BootinfoMmEntry :=
  ⟨bootinfoMmType entry.type, entry.base, entry.length⟩

end LunarPrekernel
