import LunarPrekernel.Boot.Info
import LunarPrekernel.Library.Memory
import LunarPrekernel.Pmm.Growth
import LunarPrekernel.Pmm.Reach

/-!
# Handing over the memory map

The last thing `prekernel_init` does before it leaves is to write the allocator's table down for the
kernel.  The block it writes to comes from the allocator, and taking it changes the table; so a loop
takes a block for an estimate of the number of entries, and if the table has outgrown the estimate it
gives the block back, doubles the estimate and tries again.

A turn that fails makes the table at most one entry longer (`free_grown`), and doubles an estimate of
at least one; so the estimate stays ahead of what the turns before have left, and 1024 entries are
all the table can have.

* `memory_map_handoff` — the loop ends, what it has written, and what the records say.
* `memory_map_low_page` — where the base of the only free entry rounds up to address 0.
-/

set_option autoImplicit false

namespace LunarPrekernel

open SpanMap Span PmmMap Memory

/-! ## The code -/

/-- `sizeof(bootinfo_mm_entry_t)`, which is packed. -/
def sizeofBootinfoMmEntry : Nat := 24

/-- `memory_map_block_size`. -/
def memoryMapBlockSize (entries : Nat) : Nat :=
  mathAlignUp (mul64 entries sizeofBootinfoMmEntry) ptmPageGranularity

/-- Where the loop of `prekernel_init` breaks off. -/
structure MemoryMapBlock where
  /-- `g_pmm_map` and `g_pmm_map_size`. -/
  map : PmmMap
  /-- `memory_map_phys`. -/
  phys : Nat
  /-- `memory_map_block_size`. -/
  size : Nat
  /-- The blocks of the turns before, written down. -/
  failed : List Allocation

/-- The loop of `prekernel_init` that sizes the block, from a turn on that begins with the estimate
`entries`. -/
def memoryMapLoop : Nat → Nat → PmmMap → List Allocation → Except Stop MemoryMapBlock
  | 0, _, _, _ => .error .fuel
  | fuel + 1, entries, m, failed => do
    let size := memoryMapBlockSize entries
    let r ← pmmAlloc m (size / ptmPageGranularity)
    if entries < r.2.size then do
      let m ← pmmFree r.2 r.1 (size / ptmPageGranularity)
      memoryMapLoop fuel (mul64 entries 2) m (⟨r.1, size / ptmPageGranularity, .allocated⟩ :: failed)
    else .ok ⟨r.2, r.1, size, failed⟩

/-- What one turn of the export loop stores into the record at `a`. -/
def mmEntryStores (a : Nat) (record : BootinfoMmEntry) : List Patch :=
  [⟨a + 8, littleEndian 8 record.physBase⟩, ⟨a + 16, littleEndian 8 record.length⟩,
    ⟨a, littleEndian 8 record.type.val⟩]

/-- The fields of the record at `a`, as the kernel reads them: type, base and length. -/
def loadMmEntry (mem : Memory) (a : Nat) : Nat × Nat × Nat :=
  (mem.load a 8, mem.load (a + 8) 8, mem.load (a + 16) 8)

/-- The fields of a record. -/
def BootinfoMmEntry.words (record : BootinfoMmEntry) : Nat × Nat × Nat :=
  (record.type.val, record.physBase, record.length)

/-- The record covers the address `a`. -/
def BootinfoMmEntry.Contains (record : BootinfoMmEntry) (a : Nat) : Prop :=
  record.physBase ≤ a ∧ a < record.physBase + record.length

instance (record : BootinfoMmEntry) (a : Nat) : Decidable (record.Contains a) :=
  inferInstanceAs (Decidable (_ ∧ _))

namespace MemoryMapBlock

/-- Where `mm_entries[i]` is. -/
def entry (b : MemoryMapBlock) (i : Nat) : Nat := b.phys + sizeofBootinfoMmEntry * i

/-- The stores of the export loop. -/
def stores (b : MemoryMapBlock) : List Patch :=
  (List.range b.map.size).flatMap fun i ↦ mmEntryStores (b.entry i) (bootinfoMmEntry (b.map.slots i))

/-- The `mm_entry_count` records the kernel reads. -/
def read (b : MemoryMapBlock) (mem : Memory) : List (Nat × Nat × Nat) :=
  (List.range b.map.size).map fun i ↦ loadMmEntry mem (b.entry i)

/-- The live entries of the table, as records. -/
def records (b : MemoryMapBlock) : List BootinfoMmEntry := b.map.live.map bootinfoMmEntry

/-- The block holds the address `a`. -/
def Holds (b : MemoryMapBlock) (a : Nat) : Prop := b.phys ≤ a ∧ a < b.phys + b.size

/-- The records say of the address `a` that it has the given type: one of them covers it, and none
that does says otherwise. -/
def Reports (b : MemoryMapBlock) (a : Nat) (type : BootinfoMmType) : Prop :=
  (∃ record ∈ b.records, record.Contains a) ∧
    ∀ record ∈ b.records, record.Contains a → record.type = type

instance (b : MemoryMapBlock) (a : Nat) (type : BootinfoMmType) : Decidable (b.Reports a type) :=
  inferInstanceAs (Decidable ((∃ _ ∈ _, _) ∧ _))

end MemoryMapBlock

/-- The turns of the loop that begin: with which estimate, and on which table. -/
inductive LoopHead (m₀ : PmmMap) : Nat → PmmMap → Prop
  | first : LoopHead m₀ m₀.size m₀
  | again {entries : Nat} {m m' : PmmMap} {r : Nat × PmmMap} (h : LoopHead m₀ entries m)
      (hr : pmmAlloc m (memoryMapBlockSize entries / ptmPageGranularity) = .ok r)
      (hlt : entries < r.2.size)
      (hm : pmmFree r.2 r.1 (memoryMapBlockSize entries / ptmPageGranularity) = .ok m') :
      LoopHead m₀ (mul64 entries 2) m'

/-! ## The export -/

section Export

variable {b : MemoryMapBlock}

/-- A record is stored where it belongs. -/
theorem mem_mmEntryStores {a : Nat} {record : BootinfoMmEntry} {p : Patch}
    (hp : p ∈ mmEntryStores a record) :
    a ≤ p.address ∧ p.stop ≤ a + sizeofBootinfoMmEntry := by
  simp only [mmEntryStores, List.mem_cons, List.not_mem_nil, or_false] at hp
  rcases hp with rfl | rfl | rfl <;>
    simp only [Patch.stop_mk, littleEndian_length, sizeofBootinfoMmEntry] <;> omega

theorem mmEntryStores_pairwise (a : Nat) (record : BootinfoMmEntry) :
    (mmEntryStores a record).Pairwise Patch.Disjoint := by
  simp [mmEntryStores, Patch.Disjoint, Patch.stop_mk, littleEndian_length]

namespace MemoryMapBlock

theorem stores_pairwise (b : MemoryMapBlock) : b.stores.Pairwise Patch.Disjoint := by
  refine List.pairwise_flatMap.mpr ⟨fun i _ ↦ mmEntryStores_pairwise _ _, ?_⟩
  refine List.pairwise_lt_range.imp fun {i j} hij p hp q hq ↦ Or.inl ?_
  have h1 := (mem_mmEntryStores hp).2
  have h2 := (mem_mmEntryStores hq).1
  simp only [entry, sizeofBootinfoMmEntry] at h1 h2; omega

/-- The stores keep to the records, of which there are as many as the table has entries. -/
theorem stores_inside {p : Patch} (hp : p ∈ b.stores) :
    b.phys ≤ p.address ∧ p.stop ≤ b.phys + sizeofBootinfoMmEntry * b.map.size := by
  obtain ⟨i, hi, hp⟩ := List.mem_flatMap.mp hp
  have hi := List.mem_range.mp hi
  obtain ⟨h1, h2⟩ := mem_mmEntryStores hp
  simp only [entry, sizeofBootinfoMmEntry] at h1 h2 ⊢; omega

/-- What is stored into a record is read from it. -/
theorem loadMmEntry_stores (hb : ∀ s ∈ b.map.live, s.stop < 2 ^ 64) (mem : Memory) {i : Nat}
    (hi : i < b.map.size) :
    loadMmEntry (mem.patch b.stores) (b.entry i) = (bootinfoMmEntry (b.map.slots i)).words := by
  have hbound := hb _ (slots_mem_live b.map hi)
  simp only [Span.stop] at hbound
  have hbase : (bootinfoMmEntry (b.map.slots i)).physBase < 256 ^ 8 := by
    show (b.map.slots i).base < _
    omega
  have hlength : (bootinfoMmEntry (b.map.slots i)).length < 256 ^ 8 := by
    show (b.map.slots i).length < _
    omega
  have hstores : ∀ p ∈ mmEntryStores (b.entry i) (bootinfoMmEntry (b.map.slots i)),
      (mem.patch b.stores).Spells p.address p.bytes := fun p hp ↦
    spells_patch b.stores_pairwise mem (List.mem_flatMap.mpr ⟨i, List.mem_range.mpr hi, hp⟩)
  generalize bootinfoMmEntry (b.map.slots i) = record at *
  have htype : record.type.val < 256 ^ 8 := by
    cases record.type <;> decide
  simp only [mmEntryStores, List.mem_cons, List.not_mem_nil, or_false, forall_eq_or_imp,
    forall_eq] at hstores
  obtain ⟨h1, h2, h3⟩ := hstores
  rw [loadMmEntry, h1.load, h2.load, h3.load, Nat.mod_eq_of_lt htype, Nat.mod_eq_of_lt hbase,
    Nat.mod_eq_of_lt hlength]
  rfl

/-- **The exported records** are the live entries, in order. -/
theorem read_stores (hb : ∀ s ∈ b.map.live, s.stop < 2 ^ 64) (mem : Memory) :
    b.read (mem.patch b.stores) = b.records.map BootinfoMmEntry.words := by
  rw [read, records, live, List.map_map, List.map_map]
  exact List.map_congr_left fun i hi ↦ loadMmEntry_stores hb mem (List.mem_range.mp hi)

/-- An address is reported by the type it has in the table. -/
theorem reports_of_typeAt (ht : Tiled b.map.live) {a : Nat} {type : PmmMapType}
    (h : typeAt b.map.live a = some type) : b.Reports a (bootinfoMmType type) := by
  obtain ⟨p, hp, -, hpa⟩ := mem_of_typeAt ht h
  refine ⟨⟨_, List.mem_map_of_mem hp, hpa⟩, fun record hrecord hra ↦ ?_⟩
  obtain ⟨q, hq, rfl⟩ := List.mem_map.mp hrecord
  rw [ht.typeAt_of_within hq hra] at h
  rw [← Option.some.inj h]
  rfl

end MemoryMapBlock

end Export

/-! ## The loop -/

/-- What holds when a turn begins: the estimate is ahead of the table, and what the turns before have
given back is free. -/
structure TurnInv (entries : Nat) (m : PmmMap) (failed : List Allocation) : Prop where
  wf : m.Wf
  pos : 1 ≤ entries
  size_le : m.size ≤ entries
  small : entries ≤ 2 * pmmMapMaxEntries
  free : ∀ x ∈ failed, ∀ a, x.Contains a → typeAt m.live a = some .free

/-- What holds when the loop is over. -/
structure LoopDone (b : MemoryMapBlock) : Prop where
  wf : b.map.Wf
  room : sizeofBootinfoMmEntry * b.map.size ≤ b.size
  own : ∀ a, b.Holds a → typeAt b.map.live a = some .allocated
  free : ∀ x ∈ b.failed, ∀ a, x.Contains a → ¬ b.Holds a → typeAt b.map.live a = some .free

section Loop

variable {entries : Nat} {m : PmmMap} {failed : List Allocation} {r : Nat × PmmMap}

theorem memoryMapBlockSize_eq (h : entries ≤ 2 * pmmMapMaxEntries) :
    memoryMapBlockSize entries = (24 * entries + 4095) / 4096 * 4096 := by
  unfold pmmMapMaxEntries at h
  rw [memoryMapBlockSize, sizeofBootinfoMmEntry, mul64_eq (by omega), mathAlignUp_page (by omega),
    Nat.mul_comm entries]

/-- Whole pages are asked for, and given back. -/
theorem memoryMapBlockSize_pages (h : entries ≤ 2 * pmmMapMaxEntries) :
    memoryMapBlockSize entries / ptmPageGranularity * ptmPageGranularity =
        memoryMapBlockSize entries ∧
      mul64 (memoryMapBlockSize entries / ptmPageGranularity) ptmPageGranularity =
        memoryMapBlockSize entries := by
  have hpages : memoryMapBlockSize entries / ptmPageGranularity * ptmPageGranularity =
      memoryMapBlockSize entries := by
    rw [memoryMapBlockSize_eq h, ptmPageGranularity, Nat.mul_div_cancel _ (by decide)]
  refine ⟨hpages, ?_⟩
  rw [mul64_eq, hpages]
  rw [hpages, memoryMapBlockSize_eq h]
  unfold pmmMapMaxEntries at h
  omega

/-- **One turn.**  With a block that suffices, the loop is done; otherwise giving the block back
returns, and leaves the next turn what this one began with. -/
theorem TurnInv.turn (h : TurnInv entries m failed)
    (hround : RoundsUp m (memoryMapBlockSize entries) ptmPageGranularity)
    (hr : pmmAlloc m (memoryMapBlockSize entries / ptmPageGranularity) = .ok r) :
    (r.2.size ≤ entries → LoopDone ⟨r.2, r.1, memoryMapBlockSize entries, failed⟩) ∧
    (entries < r.2.size → ∃ m',
      pmmFree r.2 r.1 (memoryMapBlockSize entries / ptmPageGranularity) = .ok m' ∧
      TurnInv (mul64 entries 2) m'
        (⟨r.1, memoryMapBlockSize entries / ptmPageGranularity, .allocated⟩ :: failed)) := by
  obtain ⟨hpages, hmul⟩ := memoryMapBlockSize_pages h.small
  have hsize := memoryMapBlockSize_eq h.small
  have hpos := h.pos
  obtain ⟨hfit, hset⟩ := pmmAllocExt_ok hr
  rw [hmul] at hfit hset
  obtain ⟨x, hx, hfree, h1, -, h2, -⟩ := allocFit_roundsUp h.wf (by decide) hround hfit
  rw [pmmFree, hmul]
  generalize memoryMapBlockSize entries / ptmPageGranularity = pages at *
  generalize memoryMapBlockSize entries = size at *
  have hne : x.type ≠ .allocated := by rw [hfree]; decide
  obtain ⟨hwf, ht, -⟩ := set_inside h.wf hx rfl (by omega) h1 h2 hset
  refine ⟨fun hle ↦ ?_, fun hlt ↦ ?_⟩
  · exact
      { wf := hwf
        room := by simp only [sizeofBootinfoMmEntry]; omega
        own := fun a ha ↦ by rw [ht]; exact overwrite_of_mem ha.1 ha.2
        free := fun y hy a hya ha ↦ by
          rw [ht, overwrite_of_not_mem ha]
          exact h.free y hy a hya }
  · have hmax := r.2.size_le
    have hgrown : m.size < r.2.size := h.size_le.trans_lt hlt
    obtain ⟨m', hm', hsize', hwf', ht'⟩ :=
      free_grown h.wf hx rfl (by omega) h1 h2 hne hset hgrown
    rw [hfree] at hm' ht'
    have hdouble : mul64 entries 2 = entries * 2 :=
      mul64_eq (by unfold pmmMapMaxEntries at hmax; omega)
    refine ⟨m', hm', hwf', by omega, by have := h.size_le; omega, by omega, fun y hy a hya ↦ ?_⟩
    rw [ht']
    by_cases ha : r.1 ≤ a ∧ a < r.1 + size
    · exact overwrite_of_mem ha.1 ha.2
    · rw [overwrite_of_not_mem ha]
      rcases List.mem_cons.mp hy with rfl | hy
      · simp only [Allocation.Contains, Allocation.span, Contains, Span.stop_mk, hpages] at hya
        exact absurd hya ha
      · exact h.free y hy a hya

/-- **Turn after turn**: the estimate doubles, and the table has at most 1024 entries. -/
theorem memoryMapLoop_done {m₀ : PmmMap}
    (hround : ∀ entries m, LoopHead m₀ entries m →
      RoundsUp m (memoryMapBlockSize entries) ptmPageGranularity)
    (halloc : ∀ entries m, LoopHead m₀ entries m →
      ∃ r, pmmAlloc m (memoryMapBlockSize entries / ptmPageGranularity) = .ok r)
    (n : Nat) : ∀ {entries : Nat} {m : PmmMap} {failed : List Allocation},
    LoopHead m₀ entries m → TurnInv entries m failed → pmmMapMaxEntries ≤ entries * 2 ^ n →
    ∃ b, (∀ fuel, n < fuel → memoryMapLoop fuel entries m failed = .ok b) ∧ LoopDone b := by
  induction n with
  | zero =>
    intro entries m failed hhead h hn
    obtain ⟨r, hr⟩ := halloc _ _ hhead
    obtain ⟨hdone, -⟩ := h.turn (hround _ _ hhead) hr
    have hmax := r.2.size_le
    have hle : r.2.size ≤ entries := by omega
    refine ⟨_, fun fuel hfuel ↦ ?_, hdone hle⟩
    obtain ⟨fuel, rfl⟩ := Nat.exists_eq_succ_of_ne_zero (by omega : fuel ≠ 0)
    rw [memoryMapLoop, hr]
    exact if_neg (by omega)
  | succ n ih =>
    intro entries m failed hhead h hn
    obtain ⟨r, hr⟩ := halloc _ _ hhead
    obtain ⟨hdone, hnext⟩ := h.turn (hround _ _ hhead) hr
    have hmax := r.2.size_le
    rcases Nat.lt_or_ge entries r.2.size with hlt | hle
    · obtain ⟨m', hm', h'⟩ := hnext hlt
      have hdouble : mul64 entries 2 = entries * 2 :=
        mul64_eq (by unfold pmmMapMaxEntries at hmax; omega)
      obtain ⟨b, hb, hdone'⟩ := ih (hhead.again hr hlt hm') h' (by
        rw [hdouble, Nat.mul_assoc, ← pow_succ']
        exact hn)
      refine ⟨b, fun fuel hfuel ↦ ?_, hdone'⟩
      obtain ⟨fuel, rfl⟩ := Nat.exists_eq_succ_of_ne_zero (by omega : fuel ≠ 0)
      rw [memoryMapLoop, hr]
      show (if _ then _ else _) = _
      rw [if_pos hlt, hm']
      exact hb fuel (by omega)
    · refine ⟨_, fun fuel hfuel ↦ ?_, hdone hle⟩
      obtain ⟨fuel, rfl⟩ := Nat.exists_eq_succ_of_ne_zero (by omega : fuel ≠ 0)
      rw [memoryMapLoop, hr]
      exact if_neg (by omega)

end Loop

/-! ## The handoff -/

/-- The memory map is handed over: the block has room for a record of each live entry, the export
writes nothing outside it, what the kernel reads are the live entries in order, the block itself is
reported as reclaimable, and what the failed turns had taken is free and reported as usable where it
is not part of the block. -/
structure MapHandedOver (b : MemoryMapBlock) : Prop where
  room : sizeofBootinfoMmEntry * b.map.size ≤ b.size
  inside : ∀ p ∈ b.stores, b.phys ≤ p.address ∧ p.stop ≤ b.phys + b.size
  read : ∀ mem : Memory, b.read (mem.patch b.stores) = b.records.map BootinfoMmEntry.words
  own : ∀ a, b.Holds a → b.Reports a .reclaimable
  failed : ∀ x ∈ b.failed, ∀ a, x.Contains a → ¬ b.Holds a →
    typeAt b.map.live a = some .free ∧ b.Reports a .usable

theorem LoopDone.handedOver {b : MemoryMapBlock} (h : LoopDone b) : MapHandedOver b where
  room := h.room
  inside p hp := by
    obtain ⟨h1, h2⟩ := MemoryMapBlock.stores_inside hp
    exact ⟨h1, h2.trans (Nat.add_le_add_left h.room _)⟩
  read := MemoryMapBlock.read_stores h.wf.bound
  own a ha := MemoryMapBlock.reports_of_typeAt h.wf.tiled (h.own a ha)
  failed x hx a hxa ha :=
    ⟨h.free x hx a hxa ha, MemoryMapBlock.reports_of_typeAt h.wf.tiled (h.free x hx a hxa ha)⟩

/-- **The memory map handoff**, from every state of a run: if in no turn of the loop the base of the
free entry that serves the request wraps when it is rounded up, and no allocation of the loop stops,
then the loop ends after eleven turns at most, and the memory map is handed over. -/
theorem memory_map_handoff {s : PmmState} (h : PmmReach s)
    (hround : ∀ entries m, LoopHead s.map entries m →
      RoundsUp m (memoryMapBlockSize entries) ptmPageGranularity)
    (halloc : ∀ entries m, LoopHead s.map entries m →
      ∃ r, pmmAlloc m (memoryMapBlockSize entries / ptmPageGranularity) = .ok r) :
    ∃ b, (∀ fuel, 11 ≤ fuel → memoryMapLoop fuel s.map.size s.map [] = .ok b) ∧
      MapHandedOver b := by
  obtain ⟨C, hinv⟩ := h.inv
  have hwf : s.map.Wf := hinv.wf
  -- the first turn finds an entry, so the estimate is not 0
  have hpos : 1 ≤ s.map.size := by
    obtain ⟨r, hr⟩ := halloc _ _ .first
    obtain ⟨e, he, -⟩ := allocFit_eq_some (Nat.zero_add _).le (pmmAllocExt_ok hr).1
    rw [← live_length]
    exact List.length_pos_of_mem he
  have hmax := s.map.size_le
  have hturn : TurnInv s.map.size s.map [] :=
    ⟨hwf, hpos, le_rfl, by omega, fun x hx ↦ absurd hx (List.not_mem_nil)⟩
  obtain ⟨b, hb, hdone⟩ := memoryMapLoop_done hround halloc 10 .first hturn (by
    unfold pmmMapMaxEntries
    omega)
  exact ⟨b, hb, hdone.handedOver⟩

/-- Two entries make an estimate of two, the block makes them three, and the second turn gets the
same block again. -/
theorem memory_map_handoff_twice : ∃ s b, PmmReach s ∧
    s.map.live = [⟨0x1000, 0x100000, .free⟩, ⟨0x200000, 0x1000, .reserved⟩] ∧
    memoryMapLoop 11 s.map.size s.map [] = .ok b ∧ b.failed = [⟨0x1000, 1, .allocated⟩] ∧
    MapHandedOver b := by
  have hrun : ((pmmMapAdd .empty 0x1000 0x100000 .free).toOption.bind fun m ↦
      (pmmMapAdd m 0x200000 0x1000 .reserved).toOption.bind fun m₀ ↦
        (pmmAlloc m₀ 1).toOption.bind fun r₀ ↦ (pmmFree r₀.2 r₀.1 1).toOption.bind fun m₁ ↦
          (pmmAlloc m₁ 1).toOption.bind fun r₁ ↦
            (memoryMapLoop 11 m₀.size m₀ []).toOption.map fun b ↦
              ([m.live, m₀.live], [r₀.2.size, r₁.2.size],
                decide (RoundsUp m₀ 0x1000 0x1000 ∧ RoundsUp m₁ 0x1000 0x1000), b.failed)) =
      some ([[⟨0x1000, 0x100000, .free⟩],
          [⟨0x1000, 0x100000, .free⟩, ⟨0x200000, 0x1000, .reserved⟩]], [3, 3], true,
        [⟨0x1000, 1, .allocated⟩]) := by
    decide +kernel
  obtain ⟨m, hm, hrun⟩ := Option.bind_eq_some_iff.mp hrun
  obtain ⟨m₀, hm₀, hrun⟩ := Option.bind_eq_some_iff.mp hrun
  obtain ⟨r₀, hr₀, hrun⟩ := Option.bind_eq_some_iff.mp hrun
  obtain ⟨m₁, hm₁, hrun⟩ := Option.bind_eq_some_iff.mp hrun
  obtain ⟨r₁, hr₁, hrun⟩ := Option.bind_eq_some_iff.mp hrun
  obtain ⟨b, hb, hfacts⟩ := Option.map_eq_some_iff.mp hrun
  simp only [Prod.mk.injEq, List.cons.injEq, and_true, decide_eq_true_eq] at hfacts
  obtain ⟨⟨hlive, hlive₀⟩, ⟨hsize₀, hsize₁⟩, ⟨hround₀, hround₁⟩, hfailed⟩ := hfacts
  replace hr₀ := toOption_eq_some hr₀
  replace hm₁ := toOption_eq_some hm₁
  replace hr₁ := toOption_eq_some hr₁
  have hstart : m₀.size = 2 := by rw [← live_length, hlive₀]; rfl
  have hreach : PmmReach ⟨m₀, []⟩ := by
    refine PmmReach.add (r := ⟨0x200000, 0x1000, .reserved⟩)
      (PmmReach.empty.add (r := ⟨0x1000, 0x100000, .free⟩) (by decide)
        (fun a _ ↦ rfl) (toOption_eq_some hm)) (by decide) (fun a ha ↦ ?_) (toOption_eq_some hm₀)
    show typeAt m.live a = none
    rw [hlive]
    refine typeAt_eq_none.mpr fun e he hea ↦ ?_
    rw [List.mem_singleton.mp he] at hea
    simp only [Contains, Span.stop_mk] at ha hea; omega
  -- the turns that begin
  have hheads : ∀ entries k, LoopHead m₀ entries k →
      (entries = 2 ∧ k = m₀) ∨ (entries = 4 ∧ k = m₁) := by
    intro entries k hk
    induction hk with
    | first => exact Or.inl ⟨hstart, rfl⟩
    | @again entries k k' r _ hr hlt hk' ih =>
      rcases ih with ⟨rfl, rfl⟩ | ⟨rfl, rfl⟩
      · rw [show memoryMapBlockSize 2 / ptmPageGranularity = 1 by decide, hr₀] at hr
        obtain rfl := Except.ok.inj hr
        rw [show memoryMapBlockSize 2 / ptmPageGranularity = 1 by decide, hm₁] at hk'
        obtain rfl := Except.ok.inj hk'
        exact Or.inr ⟨by decide, rfl⟩
      · rw [show memoryMapBlockSize 4 / ptmPageGranularity = 1 by decide, hr₁] at hr
        obtain rfl := Except.ok.inj hr
        omega
  obtain ⟨b', hb', hover⟩ := memory_map_handoff (s := ⟨m₀, []⟩) hreach
    (fun entries k hk ↦ by
      rcases hheads entries k hk with ⟨rfl, rfl⟩ | ⟨rfl, rfl⟩
      · exact hround₀
      · exact hround₁)
    (fun entries k hk ↦ by
      rcases hheads entries k hk with ⟨rfl, rfl⟩ | ⟨rfl, rfl⟩
      · exact ⟨r₀, hr₀⟩
      · exact ⟨r₁, hr₁⟩)
  have hb : memoryMapLoop 11 m₀.size m₀ [] = .ok b := toOption_eq_some hb
  rw [hb' 11 le_rfl] at hb
  obtain rfl := Except.ok.inj hb
  exact ⟨_, _, hreach, hlive₀, hb' 11 le_rfl, hfailed, hover⟩

/-- The base of the only free entry rounds up to 0: the block is taken at address 0, where half a
page is reserved, and both are exported. -/
theorem memory_map_low_page : ∃ s b, PmmReach s ∧
    s.map.live = [⟨0, 0x800, .reserved⟩, ⟨2 ^ 64 - 0x800, 0x400, .free⟩] ∧
    memoryMapLoop 11 s.map.size s.map [] = .ok b ∧ b.Holds 0 ∧ ¬ b.Reports 0 .reclaimable := by
  have hrun : ((pmmMapAdd .empty 0 0x800 .reserved).toOption.bind fun m ↦
      (pmmMapAdd m (2 ^ 64 - 0x800) 0x400 .free).toOption.bind fun m₀ ↦
        (memoryMapLoop 11 m₀.size m₀ []).toOption.map fun b ↦
          (m.live, m₀.live, b.phys, b.size, decide (b.Reports 0 .reclaimable))) =
      some ([⟨0, 0x800, .reserved⟩], [⟨0, 0x800, .reserved⟩, ⟨2 ^ 64 - 0x800, 0x400, .free⟩], 0,
        0x1000, false) := by
    decide +kernel
  obtain ⟨m, hm, hrun⟩ := Option.bind_eq_some_iff.mp hrun
  obtain ⟨m₀, hm₀, hrun⟩ := Option.bind_eq_some_iff.mp hrun
  obtain ⟨b, hb, hfacts⟩ := Option.map_eq_some_iff.mp hrun
  simp only [Prod.mk.injEq, decide_eq_false_iff_not] at hfacts
  obtain ⟨hlive, hlive₀, hphys, hsize, hnot⟩ := hfacts
  refine ⟨⟨m₀, []⟩, b, ?_, hlive₀, toOption_eq_some hb, ?_, hnot⟩
  · refine PmmReach.add (r := ⟨2 ^ 64 - 0x800, 0x400, .free⟩)
      (PmmReach.empty.add (r := ⟨0, 0x800, .reserved⟩) (by decide) (fun a _ ↦ rfl)
        (toOption_eq_some hm)) (by decide) (fun a ha ↦ ?_) (toOption_eq_some hm₀)
    show typeAt m.live a = none
    rw [hlive]
    refine typeAt_eq_none.mpr fun e he hea ↦ ?_
    rw [List.mem_singleton.mp he] at hea
    simp only [Contains, Span.stop_mk] at ha hea; omega
  · rw [MemoryMapBlock.Holds, hphys, hsize]
    omega

end LunarPrekernel
