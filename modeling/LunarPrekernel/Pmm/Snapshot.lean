import LunarPrekernel.Pmm.Run

/-!
# Snapshots of the physical memory map

`pmm_create_snapshot` counts the live entries, allocates room for two more, and copies as many slots
as it has counted with those two.  The allocation can add two entries at most
(`pmmAllocExt_size_le`), so the copy holds every live entry; what follows them in it is whatever the
dead slots hold.

The copy is kept as a list of entries: its block is an allocation like any other, and nothing else
is ever written there while it is out.
-/

set_option autoImplicit false

namespace LunarPrekernel

open SpanMap Span PmmMap

/-! ## The code -/

/-- `sizeof(pmm_map_entry_t)`. -/
def sizeofPmmMapEntry : Nat := 24

/-- `pmm_map_snapshot_t`; `count` is the length of `entries`. -/
structure PmmMapSnapshot where
  entries : List PmmMapEntry
  phys : Nat
  bytes : Nat

/-- `bytes` in `pmm_create_snapshot`. -/
def snapshotBytes (m : PmmMap) : Nat :=
  mathAlignUp (mul64 sizeofPmmMapEntry (add64 m.size 2)) ptmPageGranularity

/-- `pmm_create_snapshot`. -/
def pmmCreateSnapshot (m : PmmMap) : Except Stop (PmmMapSnapshot × PmmMap) :=
  let count := add64 m.size 2
  let bytes := snapshotBytes m
  (pmmAlloc m (bytes / ptmPageGranularity)).bind fun r ↦
    if r.1 = 0 then .error (.panic "failed to allocate memory for pmm snapshot" [])
    else if bytes < mathAlignUp (mul64 sizeofPmmMapEntry r.2.size) ptmPageGranularity then
      .error (.panic "pmm snapshot size exceeds allocated memory" [])
    else if pmmMapMaxEntries < count then .error .fault
    else .ok (⟨(List.range count).map r.2.slots, r.1, bytes⟩, r.2)

/-- `pmm_free_snapshot`. -/
def pmmFreeSnapshot (m : PmmMap) (map : PmmMapSnapshot) : Except Stop PmmMap :=
  pmmFree m map.phys (map.bytes / ptmPageGranularity)

namespace PmmMapSnapshot

/-- The block of the snapshot, as an allocation. -/
def allocation (x : PmmMapSnapshot) : Allocation :=
  ⟨x.phys, x.bytes / ptmPageGranularity, .allocated⟩

end PmmMapSnapshot

namespace PmmState

/-- `pmm_create_snapshot`, with the allocation written down. -/
def createSnapshot (s : PmmState) : Except Stop (PmmMapSnapshot × PmmState) :=
  (pmmCreateSnapshot s.map).map fun r ↦ (r.1, ⟨r.2, r.1.allocation :: s.held⟩)

/-- `pmm_free_snapshot`, with the allocation crossed out. -/
def freeSnapshot (s : PmmState) (x : PmmMapSnapshot) : Except Stop PmmState :=
  (pmmFreeSnapshot s.map x).map fun m ↦ ⟨m, s.held.erase x.allocation⟩

end PmmState

/-! ## How many entries an allocation adds -/

section Size

variable {m m' : PmmMap} {base length : Nat} {type : PmmMapType}

theorem mapInsert_size {i : Nat} {e : PmmMapEntry} (h : mapInsert m i e = .ok m') :
    m'.size = m.size + 1 := by
  rw [mapInsert] at h
  split at h
  · cases h
  · cases h
    rfl

theorem setInsert_size_le (h : setInsert m base length type = .ok m') :
    m'.size ≤ m.size + 1 := by
  rw [setInsert] at h
  dsimp only at h
  split at h
  · cases h
    exact Nat.le_succ _
  split at h
  · cases h
    exact Nat.le_succ _
  split at h
  · cases h
  split at h
  · cases h
    exact Nat.le_succ _
  · exact (mapInsert_size h).le

theorem setWithin_size_le {i : Nat} {e : PmmMapEntry}
    (h : setWithin m i e base length type = .ok m') : m'.size ≤ m.size + 2 := by
  rw [setWithin] at h
  split at h
  · split at h
    · obtain ⟨k, hk, h⟩ := bind_eq_ok h
      have h1 := setInsert_size_le hk
      have h2 := setInsert_size_le h
      rw [set_size] at h1
      omega
    · have := setInsert_size_le h
      rw [set_size] at this
      omega
  · split at h
    · have := setInsert_size_le h
      rw [set_size] at this
      omega
    · have := setInsert_size_le h
      rw [mapDelete_size] at this
      omega

/-- The block is cut out of one entry, of which two parts can be left. -/
theorem pmmAllocExt_size_le {s : PmmState} {C : Nat → Prop} (h : s.Inv C) {n alignment : Nat}
    (hs : s.Serves n alignment type) {r : Nat × PmmMap}
    (hr : pmmAllocExt s.map n alignment type = .ok r) : r.2.size ≤ s.map.size + 2 := by
  obtain ⟨ha, -, hn, hround⟩ := hs
  rw [pmmAllocExt, mul64_eq hn] at hr
  cases hfit : allocFit s.map (n * ptmPageGranularity) alignment s.map.size 0 with
  | none =>
    rw [hfit] at hr
    cases hr
  | some u =>
    rw [hfit] at hr
    obtain ⟨m', hm', hr⟩ := bind_eq_ok hr
    cases hr
    obtain ⟨e, he, -, h1, h2, h3, -⟩ := allocFit_spec h.wf ha hround (by omega) hfit
    have hbound := h.wf.bound e he
    rcases Nat.eq_zero_or_pos (n * ptmPageGranularity) with hz | hp
    · rw [hz, pmmMapSet_zero h.wf (by omega)] at hm'
      cases hm'
      exact Nat.le_add_right _ _
    · obtain ⟨pre, post, hlive⟩ := List.append_of_mem he
      rw [pmmMapSet_within h.wf hlive rfl (by omega) h1 h3] at hm'
      exact setWithin_size_le hm'

end Size

/-! ## What a snapshot holds -/

/-- The slots that a snapshot of `m` copies, once `m'` is what its allocation has left. -/
def snapshotEntries (m m' : PmmMap) : List PmmMapEntry := (List.range (m.size + 2)).map m'.slots

section Snapshot

variable {s : PmmState} {C : Nat → Prop} {r : Nat × PmmMap}

theorem snapshotBytes_eq (m : PmmMap) :
    snapshotBytes m = (24 * (m.size + 2) + 4095) / 4096 * 4096 := by
  have := m.size_le
  unfold pmmMapMaxEntries at this
  rw [snapshotBytes, add64_eq (by omega), sizeofPmmMapEntry, mul64_eq (by omega),
    mathAlignUp_page (by omega)]

/-- The block can be asked for: nothing wraps below `2 ^ 56`. -/
theorem PmmState.Inv.serves_snapshot (h : s.Inv C) (hC : ∀ a, C a → a < 2 ^ 56) :
    s.Serves (snapshotBytes s.map / ptmPageGranularity) ptmPageGranularity .allocated := by
  have hsize := s.map.size_le
  unfold pmmMapMaxEntries at hsize
  refine ⟨by decide, by decide, ?_, fun e he _ ↦ ?_⟩
  · rw [snapshotBytes_eq]
    unfold ptmPageGranularity
    omega
  · have hpos := h.wf.tiled.pos e he
    have hbase : C e.base := by
      rw [← h.covers]
      exact typeAt_isSome.mpr ⟨e, he, le_rfl, by simp only [Span.stop]; omega⟩
    have := hC _ hbase
    unfold ptmPageGranularity
    omega

/-- **`pmm_create_snapshot`**: it panics if the block it gets is at address 0, and reads past the
array if fewer than two slots are dead. -/
theorem PmmState.Inv.createSnapshot_eq (h : s.Inv C) (hC : ∀ a, C a → a < 2 ^ 56)
    (hr : pmmAlloc s.map (snapshotBytes s.map / ptmPageGranularity) = .ok r) :
    s.createSnapshot =
      if r.1 = 0 then .error (.panic "failed to allocate memory for pmm snapshot" [])
      else if pmmMapMaxEntries < s.map.size + 2 then .error .fault
      else .ok (⟨snapshotEntries s.map r.2, r.1, snapshotBytes s.map⟩,
        s.hand (snapshotBytes s.map / ptmPageGranularity) .allocated r) := by
  have hsize := s.map.size_le
  unfold pmmMapMaxEntries at hsize
  have hle := pmmAllocExt_size_le h (h.serves_snapshot hC) hr
  have hroom : ¬ snapshotBytes s.map <
      mathAlignUp (mul64 sizeofPmmMapEntry r.2.size) ptmPageGranularity := by
    rw [snapshotBytes_eq, sizeofPmmMapEntry, mul64_eq (by omega), mathAlignUp_page (by omega)]
    omega
  rw [createSnapshot, pmmCreateSnapshot, hr, add64_eq (by omega)]
  show Except.map _ (if _ then _ else _) = _
  rw [if_neg hroom]
  split
  · rfl
  · split <;> rfl

/-- Every live entry is copied. -/
theorem mem_snapshotEntries_of_live {m m' : PmmMap} (hsize : m'.size ≤ m.size + 2)
    {e : PmmMapEntry} (he : e ∈ m'.live) : e ∈ snapshotEntries m m' := by
  obtain ⟨j, hj, rfl⟩ := mem_live.mp he
  exact List.mem_map.mpr ⟨j, List.mem_range.mpr (by omega), rfl⟩

/-- What is copied is live, or was never used, or lies where other entries are live now. -/
theorem mem_snapshotEntries {m m' : PmmMap} (h : m'.Wf) {e : PmmMapEntry}
    (he : e ∈ snapshotEntries m m') : e ∈ m'.live ∨ e = .zero ∨
      0 < e.length ∧ ∀ a, e.Contains a → typeAt m'.live a ≠ none := by
  obtain ⟨j, -, rfl⟩ := List.mem_map.mp he
  rcases Nat.lt_or_ge j m'.size with hlt | hge
  · exact Or.inl (slots_mem_live m' hlt)
  · exact Or.inr (h.stale j hge)

end Snapshot

end LunarPrekernel
