import LunarPrekernel.Boot.Cpus

/-!
# What the cores find when they are started

Two properties of `arch_setup_cpus`, on both architectures and for any number of cores: each core
finds the resources of its own core id in its record, and nothing is written outside the blocks that
are meant for the cores.

`core_id++` in the middle of filling a record in shifts the pointers to the architecture's records by
one: the record of core id `k` is given the architecture's record `k + 1`, and the last one is given
the record behind the end.

* `core_resources` — what every core finds, and that its pointer is right for a single core only.
* `cpu_frame` — which bytes are written, and which are zero.
-/

set_option autoImplicit false

namespace LunarPrekernel

open SpanMap Span PmmMap Memory

/-! ## The stores, core by core -/

/-- The fields of `core_start_info_t`. -/
structure CoreStartInfo where
  coreId : Nat
  stack : Nat
  cpuLocal : Nat
  archPointer : Nat
deriving DecidableEq, Repr

/-- The record at `a`. -/
def loadCoreStartInfo (mem : Memory) (a : Nat) : CoreStartInfo :=
  ⟨mem.load a 8, mem.load (a + 8) 8, mem.load (a + 16) 8, mem.load (a + 24) 8⟩

/-- `cpu_local_block + k * cpu_local_size`. -/
def CpuArgs.cpuLocalAt (c : CpuArgs) (s : CpuSetup) (k : Nat) : Nat :=
  add64 (add64 s.cpuLocal c.hhdmOffset) (mul64 k c.cpuLocalSize)

namespace CpuArch

/-- The stores into the record of core id `k`. -/
def recordStores (arch : CpuArch) (c : CpuArgs) (s : CpuSetup) (k u : Nat) : List Patch :=
  [⟨s.record k, littleEndian 8 k⟩, ⟨s.record k + 8, littleEndian 8 (c.stackTop u)⟩,
    ⟨s.record k + 16, littleEndian 8 (c.cpuLocalAt s k)⟩,
    ⟨s.record k + 24, littleEndian 8 (arch.pointer c s (given k))⟩]

/-- The bootstrap core's record is filled in like the others. -/
theorem mem_coreStores {arch : CpuArch} {c : CpuArgs} {s : CpuSetup} {k u : Nat} {p : Patch} :
    p ∈ arch.coreStores c s k u ↔
      p ∈ arch.recordStores c s k u ∨ p ∈ arch.fill c (arch.recordAt s (given k)) := by
  rw [coreStores, recordStores, CpuArgs.cpuLocalAt, given]
  split
  · rename_i hk
    subst hk
    have hzero : add64 (add64 s.cpuLocal c.hhdmOffset) (mul64 0 c.cpuLocalSize) =
        add64 s.cpuLocal c.hhdmOffset := by
      rw [mul64, Nat.zero_mul, Nat.zero_mod, add64, Nat.add_zero, add64, Nat.mod_mod]
    rw [hzero]
    simp only [List.mem_append, List.mem_cons, List.not_mem_nil, or_false]
    tauto
  · simp only [List.mem_append, List.mem_cons, List.not_mem_nil, or_false]
    tauto

/-- The version of `arch_setup_cpus` for one of the two architectures. -/
def Built (arch : CpuArch) : Prop := arch = X86.cpuArch ∨ arch = Riscv.cpuArch

end CpuArch

/-- The blocks, once it is known that nothing wraps. -/
structure CpuLayout (arch : CpuArch) (c : CpuArgs) (t : CpuSetup) : Prop where
  built : arch.Built
  pos : 0 < c.coreCount
  few : c.coreCount ≤ 2 ^ 40
  start_dvd : 4096 ∣ t.startInfo
  arch_dvd : 4096 ∣ t.archBlock
  startSize : startInfoBlockSize c = (32 * c.coreCount + 4095) / 4096 * 4096
  archSize : arch.archBlockSize c = (arch.recordSize * c.coreCount + 4095) / 4096 * 4096
  start_arch : t.archBlock + arch.archBlockSize c ≤ t.startInfo ∨
    t.startInfo + startInfoBlockSize c ≤ t.archBlock
  local_arch : ∀ a, t.cpuLocal ≤ a → a < t.cpuLocal + CpuArch.cpuLocalBlockSize c →
    ¬ (t.archBlock ≤ a ∧ a < t.archBlock + arch.archBlockSize c)
  length : t.coreStacks.length = c.coreCount
  stores : t.stores = arch.clears c t ++
    t.coreStacks.zipIdx.flatMap fun x ↦ arch.coreStores c t x.2 x.1

section Layout

variable {arch : CpuArch} {c : CpuArgs} {C : Nat → Prop} {t : CpuSetup} {f : PmmState}
  {b k u : Nat} {p q : Patch}

theorem CpuArch.Built.recordSize (h : arch.Built) :
    0 < arch.recordSize ∧ arch.recordSize ≤ 168 := by
  rcases h with rfl | rfl <;> decide

theorem CpuRun.layout (h : CpuRun arch c C f t) (hC : ∀ a, C a → a < 2 ^ 56) (harch : arch.Built)
    (hb : b < c.coreCount) (hbsp : ∀ i < c.coreCount, c.isBsp i = true ↔ i = b) :
    CpuLayout arch c t := by
  have hN := h.coreCount_le hC hb hbsp
  obtain ⟨hpos, hle⟩ := harch.recordSize
  have hmul : arch.recordSize * c.coreCount ≤ 168 * 2 ^ 40 := Nat.mul_le_mul hle hN
  have hmul' : 0 < arch.recordSize * c.coreCount := Nat.mul_pos hpos (by omega)
  have hstart : startInfoBlockSize c = (32 * c.coreCount + 4095) / 4096 * 4096 := by
    rw [startInfoBlockSize, sizeofCoreStartInfo, mul64_eq (by omega), mathAlignUp_page (by omega)]
  have harchSize : arch.archBlockSize c =
      (arch.recordSize * c.coreCount + 4095) / 4096 * 4096 := by
    rw [CpuArch.archBlockSize, mul64_eq (by omega), mathAlignUp_page (by omega)]
  have hapart := h.inv.apart
  rw [h.held] at hapart
  obtain ⟨harchApart, -⟩ := List.pairwise_cons.mp (List.pairwise_append.mp hapart).2.1
  have hpages : ∀ {x : Nat}, mathAlignUp (mul64 x c.coreCount) ptmPageGranularity /
      ptmPageGranularity * ptmPageGranularity = _ := fun {x} ↦
    (mathAlignUp_pages (mul64_lt x c.coreCount)).1
  have harchBlock := fun a ↦ @contains_block t.archBlock a _ .allocated
    (hpages : arch.archBlockSize c / _ * _ = _)
  refine
    { built := harch
      pos := by omega
      few := hN
      start_dvd := h.start_dvd
      arch_dvd := h.arch_dvd
      startSize := hstart
      archSize := harchSize
      start_arch := ?_
      local_arch := fun a h1 h2 h3 ↦ ?_
      length := h.length_coreStacks hb hbsp
      stores := h.stores }
  · have hno : ∀ a, t.archBlock ≤ a ∧ a < t.archBlock + arch.archBlockSize c →
        ¬ (t.startInfo ≤ a ∧ a < t.startInfo + startInfoBlockSize c) := by
      intro a ha ha'
      refine harchApart _ (List.mem_cons_of_mem _ List.mem_cons_self) a ((harchBlock a).mpr ha) ?_
      exact (contains_block (hpages : startInfoBlockSize c / _ * _ = _)).mpr ha'
    have := hno (max t.archBlock t.startInfo)
    omega
  · refine harchApart _ List.mem_cons_self a ((harchBlock a).mpr h3) ?_
    exact (contains_block (mathAlignUp_pages (mul64_lt _ _)).1).mpr ⟨h1, h2⟩

namespace CpuLayout

/-- A store that does not clear a block belongs to a core. -/
theorem mem_body (h : CpuLayout arch c t) :
    p ∈ (t.coreStacks.zipIdx.flatMap fun x ↦ arch.coreStores c t x.2 x.1) ↔
      ∃ k < c.coreCount, ∃ u, t.coreStacks[k]? = some u ∧ (p ∈ arch.recordStores c t k u ∨
        p ∈ arch.fill c (arch.recordAt t (CpuArch.given k))) := by
  rw [List.mem_flatMap]
  constructor
  · rintro ⟨⟨u, k⟩, hx, hp⟩
    have hx := List.mem_zipIdx_iff_getElem?.mp hx
    obtain ⟨hk, -⟩ := List.getElem?_eq_some_iff.mp hx
    exact ⟨k, by rwa [h.length] at hk, u, hx, CpuArch.mem_coreStores.mp hp⟩
  · rintro ⟨k, hk, u, hu, hp⟩
    exact ⟨(u, k), List.mem_zipIdx_iff_getElem?.mpr hu, CpuArch.mem_coreStores.mpr hp⟩

/-- The stores into a record keep to it. -/
theorem recordStores_inside (hp : p ∈ arch.recordStores c t k u) :
    t.record k ≤ p.address ∧ p.stop ≤ t.record k + 32 := by
  simp only [CpuArch.recordStores, List.mem_cons, List.not_mem_nil, or_false] at hp
  rcases hp with rfl | rfl | rfl | rfl <;>
    simp only [Patch.stop_mk, littleEndian_length] <;> omega

/-- The record of a core lies in the start-info block. -/
theorem record_inside (h : CpuLayout arch c t) (hk : k < c.coreCount) :
    t.startInfo ≤ t.record k ∧ t.record k + 32 ≤ t.startInfo + startInfoBlockSize c := by
  rw [h.startSize, CpuSetup.record, sizeofCoreStartInfo]
  omega

/-- What is stored into the architecture's record is a word at its beginning. -/
theorem fill_word (harch : arch.Built) {a : Nat} (hp : p ∈ arch.fill c a) :
    arch = Riscv.cpuArch ∧ p = ⟨a, littleEndian 8 c.globalPointer⟩ := by
  rcases harch with rfl | rfl
  · exact absurd hp (List.not_mem_nil)
  · exact ⟨rfl, List.mem_singleton.mp hp⟩

/-- The architecture's records of the core ids are stored to, and the one behind them; it lies in the
block as long as that has room left. -/
theorem fill_inside (h : CpuLayout arch c t) (hk : k < c.coreCount)
    (hp : p ∈ arch.fill c (arch.recordAt t (CpuArch.given k)))
    (hno : CpuArch.given k < c.coreCount ∨ ¬ 512 ∣ c.coreCount) :
    t.archBlock ≤ p.address ∧ p.stop ≤ t.archBlock + arch.archBlockSize c := by
  have hsize := h.archSize
  obtain ⟨rfl, rfl⟩ := fill_word h.built hp
  have hgiven : CpuArch.given k ≤ c.coreCount := by
    rw [CpuArch.given]
    split <;> omega
  simp only [Riscv.cpuArch, CpuArch.recordAt, Patch.stop_mk, littleEndian_length] at hsize ⊢
  omega

/-- No store of another core's, and none into the architecture's records, meets a store into the
record of core id `k`; only the one behind the end can meet the first word of a page. -/
theorem spells_record (h : CpuLayout arch c t) (hk : k < c.coreCount)
    (hu : t.coreStacks[k]? = some u) (hp : p ∈ arch.recordStores c t k u)
    (hno : p.address ≠ t.record k ∨ ¬ (arch = Riscv.cpuArch ∧ 512 ∣ c.coreCount)) (mem : Memory) :
    (mem.patch t.stores).Spells p.address p.bytes := by
  rw [h.stores, patch_append]
  refine spells_patch_of_mem (h.mem_body.mpr ⟨k, hk, u, hu, Or.inl hp⟩) (fun q hq ↦ ?_) _
  have hin := h.record_inside hk
  have hpin := recordStores_inside hp
  obtain ⟨j, hj, v, hv, hq | hq⟩ := h.mem_body.mp hq
  · rcases eq_or_ne j k with rfl | hne
    · obtain rfl := Option.some.inj (hu.symm.trans hv)
      simp only [CpuArch.recordStores, List.mem_cons, List.not_mem_nil, or_false] at hp hq
      rcases hp with rfl | rfl | rfl | rfl <;> rcases hq with rfl | rfl | rfl | rfl <;>
        first
        | exact Or.inl rfl
        | exact Or.inr (by simp only [Patch.Disjoint, Patch.stop_mk, littleEndian_length]; omega)
    · have hqin := recordStores_inside hq
      simp only [CpuSetup.record, sizeofCoreStartInfo] at hpin hqin
      refine Or.inr ?_
      simp only [Patch.Disjoint]; omega
  · refine Or.inr ?_
    by_cases hover : CpuArch.given j < c.coreCount ∨ ¬ 512 ∣ c.coreCount
    · have hqin := h.fill_inside hj hq hover
      have := h.start_arch
      simp only [Patch.Disjoint]; omega
    · -- the word behind the end begins a page
      obtain ⟨harch, rfl⟩ := fill_word h.built hq
      have hoff := hno.resolve_right fun hc ↦ hc ⟨harch, by tauto⟩
      subst harch
      obtain ⟨x, hx⟩ := h.start_dvd
      obtain ⟨y, hy⟩ := h.arch_dvd
      obtain ⟨z, hz⟩ : 512 ∣ c.coreCount := by tauto
      have hgiven : CpuArch.given j = c.coreCount := by
        have : CpuArch.given j ≤ c.coreCount := by
          rw [CpuArch.given]
          split <;> omega
        omega
      simp only [CpuArch.recordStores, List.mem_cons, List.not_mem_nil, or_false] at hp
      rcases hp with rfl | rfl | rfl | rfl
      · exact absurd rfl hoff
      all_goals
        simp only [Patch.Disjoint, Patch.stop_mk, littleEndian_length, CpuArch.recordAt, hgiven,
          Riscv.cpuArch, CpuSetup.record, sizeofCoreStartInfo]
        omega

end CpuLayout

/-- **What a core finds in its record**, but for its id. -/
theorem CpuLayout.read_pointers (h : CpuLayout arch c t) (hk : k < c.coreCount)
    (hu : t.coreStacks[k]? = some u) (mem : Memory) :
    (mem.patch t.stores).load (t.record k + 8) 8 = c.stackTop u ∧
    (mem.patch t.stores).load (t.record k + 16) 8 = c.cpuLocalAt t k ∧
    (mem.patch t.stores).load (t.record k + 24) 8 = arch.pointer c t (CpuArch.given k) := by
  have hread : ∀ a v, ⟨a, littleEndian 8 v⟩ ∈ arch.recordStores c t k u → a ≠ t.record k →
      v < 2 ^ 64 → (mem.patch t.stores).load a 8 = v := by
    intro a v hp ha hv
    have hlt : v < 256 ^ 8 := by omega
    rw [(h.spells_record hk hu hp (Or.inl ha) mem).load, Nat.mod_eq_of_lt hlt]
  refine ⟨hread _ _ ?_ (by omega) (add64_lt _ _), hread _ _ ?_ (by omega) (add64_lt _ _),
    hread _ _ ?_ (by omega) (add64_lt _ _)⟩ <;> simp [CpuArch.recordStores]

/-- The id is there as well, if the word behind the end of the architecture's records is in their
block. -/
theorem CpuLayout.read_id (h : CpuLayout arch c t) (hk : k < c.coreCount)
    (hu : t.coreStacks[k]? = some u) (hno : ¬ (arch = Riscv.cpuArch ∧ 512 ∣ c.coreCount))
    (mem : Memory) : (mem.patch t.stores).load (t.record k) 8 = k := by
  have hp : ⟨t.record k, littleEndian 8 k⟩ ∈ arch.recordStores c t k u := by
    simp [CpuArch.recordStores]
  have hlt : k < 256 ^ 8 := by
    have := h.few
    omega
  rw [(h.spells_record hk hu hp (Or.inr hno) mem).load, Nat.mod_eq_of_lt hlt]

end Layout

/-! ## Runs to look at -/

/-- One free range. -/
def oneRange : List PmmMapEntry := [⟨0x1000, 0x100000, .free⟩]

theorem oneRange_inv {m : PmmMap} (hm : addAll .empty oneRange = .ok m) :
    PmmState.Inv (fun a ↦ ∃ r ∈ oneRange, r.Contains a) ⟨m, []⟩ ∧
      ∀ a, (∃ r ∈ oneRange, r.Contains a) → a < 2 ^ 56 := by
  refine ⟨PmmState.Inv.start ⟨by decide, by decide, by decide⟩ hm, ?_⟩
  rintro a ⟨r, hr, ha⟩
  rw [List.mem_singleton.mp hr] at ha
  have := ha.2
  simp only [Span.stop_mk] at this; omega

/-- `count` cores, of which the first is the bootstrap core. -/
def fewCores (count : Nat) : CpuArgs := ⟨0xffff800000000000, count, 0x180, 0x1234, fun i ↦ i == 0⟩

/-! ## The resources of a core -/

/-- Core id `k` is the one of the bootloader's core `i`: id 0 of the bootstrap core, and any other of
the core that is started with its record. -/
def CpuSetup.Assigned (t : CpuSetup) (b k i : Nat) : Prop :=
  if k = 0 then i = b else (i, t.record k) ∈ t.started

/-- Core ids and the bootloader's cores correspond, and no core is started twice. -/
structure CoreIds (c : CpuArgs) (b : Nat) (t : CpuSetup) : Prop where
  core : ∀ k < c.coreCount, ∃! i, i < c.coreCount ∧ t.Assigned b k i
  id : ∀ i < c.coreCount, ∃! k, k < c.coreCount ∧ t.Assigned b k i
  once : (t.started.map Prod.fst).Nodup

/-- What belongs to core id `k`, with its stack at `u`: each with its address and its size. -/
def coreAreas (arch : CpuArch) (c : CpuArgs) (t : CpuSetup) (k u : Nat) : List (Nat × Nat) :=
  [(arch.recordAt t k, arch.recordSize), (t.cpuLocal + k * c.cpuLocalSize, c.cpuLocalSize),
    (u, coreStackPgcnt * ptmPageGranularity)]

/-- Every core finds what belongs to its core id, and that lies in the memory that was allocated for
it and does not meet what belongs to another one. -/
structure CoreResources (arch : CpuArch) (c : CpuArgs) (b : Nat) (t : CpuSetup) : Prop where
  ids : CoreIds c b t
  record : ∀ k < c.coreCount, ∀ u, t.coreStacks[k]? = some u → ∀ mem : Memory,
    loadCoreStartInfo (mem.patch t.stores) (t.record k) =
      ⟨k, c.stackTop u, c.cpuLocalAt t k, arch.pointer c t k⟩
  stack : ∀ k < c.coreCount, ∃ u, t.coreStacks[k]? = some u ∧ stackAt u ∈ t.frames.held
  inside : ∀ k < c.coreCount, ∀ u, t.coreStacks[k]? = some u → ∀ area ∈ coreAreas arch c t k u,
    ∃ x ∈ t.frames.held, x.span.base ≤ area.1 ∧ area.1 + area.2 ≤ x.span.stop
  apart : ∀ j < c.coreCount, ∀ k < c.coreCount, j ≠ k → ∀ u v, t.coreStacks[j]? = some u →
    t.coreStacks[k]? = some v → ∀ x ∈ coreAreas arch c t j u, ∀ y ∈ coreAreas arch c t k v,
    ∀ a, ¬ ((x.1 ≤ a ∧ a < x.1 + x.2) ∧ y.1 ≤ a ∧ a < y.1 + y.2)

section Resources

variable {arch : CpuArch} {c : CpuArgs} {C : Nat → Prop} {t : CpuSetup} {f : PmmState} {b : Nat}

/-- **The ids** are right for every number of cores and every bootstrap core. -/
theorem CpuRun.coreIds (h : CpuRun arch c C f t) (hb : b < c.coreCount)
    (hbsp : ∀ i < c.coreCount, c.isBsp i = true ↔ i = b) : CoreIds c b t := by
  have hstarted : t.started =
      (List.range' 1 (c.coreCount - 1)).map fun k ↦ (apIndex b k, t.record k) := by
    rw [h.started, filter_isBsp hb hbsp, List.length_map, List.length_range', List.zip_map']
  have hassigned : ∀ k < c.coreCount, ∀ i,
      t.Assigned b k i ↔ i = if k = 0 then b else apIndex b k := by
    intro k hk i
    rw [CpuSetup.Assigned]
    split
    · exact Iff.rfl
    · rename_i hk0
      rw [hstarted, List.mem_map]
      simp only [List.mem_range'_1, Prod.mk.injEq, CpuSetup.record, sizeofCoreStartInfo]
      constructor
      · rintro ⟨j, -, rfl, hj⟩
        rw [show j = k by omega]
      · rintro rfl
        exact ⟨k, by omega, rfl, rfl⟩
  refine ⟨fun k hk ↦ ?_, fun i hi ↦ ?_, ?_⟩
  · refine ⟨_, ⟨?_, (hassigned k hk _).mpr rfl⟩, fun i hi ↦ (hassigned k hk i).mp hi.2⟩
    unfold apIndex
    split_ifs <;> omega
  · -- the bootstrap core has id 0, the cores before it are moved up by one
    obtain ⟨k, hk, hki⟩ : ∃ k < c.coreCount, i = if k = 0 then b else apIndex b k := by
      rcases lt_trichotomy i b with hlt | rfl | hgt
      · exact ⟨i + 1, by omega, by rw [if_neg (by omega), apIndex, if_pos (by omega)]; omega⟩
      · exact ⟨0, by omega, rfl⟩
      · exact ⟨i, hi, by rw [if_neg (by omega), apIndex, if_neg (by omega)]⟩
    refine ⟨k, ⟨hk, (hassigned k hk i).mpr hki⟩, fun j hj ↦ ?_⟩
    have hji := (hassigned j hj.1 i).mp hj.2
    unfold apIndex at hki hji
    split_ifs at hki hji <;> omega
  · rw [hstarted, List.map_map]
    refine List.Nodup.map_on (fun j hj k hk hjk ↦ ?_) List.nodup_range'
    simp only [List.mem_range'_1] at hj hk
    simp only [Function.comp_apply, apIndex] at hjk
    split_ifs at hjk <;> omega

theorem CpuRun.stack_held (h : CpuRun arch c C f t) {k u : Nat} (hu : t.coreStacks[k]? = some u) :
    stackAt u ∈ t.frames.held := by
  rw [h.held]
  refine List.mem_append_left _ (List.mem_reverse.mpr (List.mem_map_of_mem ?_))
  exact List.mem_of_getElem? hu

/-- No allocation is as long as a cpu-local area whose rounded size wraps. -/
theorem CpuRun.held_short (h : CpuRun arch c C f t) (hC : ∀ a, C a → a < 2 ^ 56) {x : Allocation}
    (hx : x ∈ t.frames.held) : x.span.length ≤ 2 ^ 56 := by
  rcases Nat.eq_zero_or_pos x.span.length with hz | hp
  · omega
  · have := h.inv.held_stop_le hC hx hp
    simp only [Span.stop] at this; omega

/-- The pointers to two records of the architecture's differ. -/
theorem CpuArch.Built.pointer_ne (harch : arch.Built) : arch.pointer c t 1 ≠ arch.pointer c t 2 := by
  have := add64_lt t.archBlock c.hhdmOffset
  rcases harch with rfl | rfl <;>
    simp only [CpuArch.pointer, X86.cpuArch, Riscv.cpuArch] <;>
    generalize add64 t.archBlock c.hhdmOffset = base at * <;>
    unfold add64 mul64 <;> omega

/-- **The resources of the cores.**  In every run, core ids and cores correspond, and each core finds
its own stack and its own cpu-local area, and the architecture's record after its own.  All that each
core finds is its own, and in allocated memory, if and only if there is one core, and its cpu-local
area can be rounded up to pages. -/
theorem core_resources (harch : arch.Built) (h : f.Inv C) (hC : ∀ a, C a → a < 2 ^ 56)
    (hsize : c.cpuLocalSize < 2 ^ 64) (hb : b < c.coreCount)
    (hbsp : ∀ i < c.coreCount, c.isBsp i = true ↔ i = b)
    (ht : prekernelSetupCpus arch.archSetupCpus c (.begin f) = .ok t) :
    (CoreIds c b t ∧ ∀ k < c.coreCount, ∃ u, t.coreStacks[k]? = some u ∧
      stackAt u ∈ t.frames.held ∧ ∀ mem : Memory,
        (mem.patch t.stores).load (t.record k + 8) 8 = c.stackTop u ∧
        (mem.patch t.stores).load (t.record k + 16) 8 = c.cpuLocalAt t k ∧
        (mem.patch t.stores).load (t.record k + 24) 8 =
          arch.pointer c t (if k = 0 then 0 else k + 1)) ∧
    (CoreResources arch c b t ↔ c.coreCount = 1 ∧ c.cpuLocalSize ≤ 2 ^ 64 - 4096) := by
  have hrun := cpuRun_of_ok h hC ht
  have hlay := hrun.layout hC harch hb hbsp
  have hids := hrun.coreIds hb hbsp
  have hstack : ∀ k < c.coreCount, ∃ u, t.coreStacks[k]? = some u :=
    fun k hk ↦ ⟨_, List.getElem?_eq_getElem (by rwa [hlay.length])⟩
  refine ⟨⟨hids, fun k hk ↦ ?_⟩, fun hres ↦ ?_, fun ⟨hone, hle⟩ ↦ ?_⟩
  · obtain ⟨u, hu⟩ := hstack k hk
    exact ⟨u, hu, hrun.stack_held hu, hlay.read_pointers hk hu⟩
  · have hone : c.coreCount = 1 := by
      by_contra hne
      -- the first core that is started finds the second record
      have hk : 1 < c.coreCount := by omega
      obtain ⟨u, hu⟩ := hstack 1 hk
      have h1 := congrArg CoreStartInfo.archPointer (hres.record 1 hk u hu fun _ ↦ 0)
      have h2 := (hlay.read_pointers hk hu fun _ ↦ 0).2.2
      exact harch.pointer_ne (h1.symm.trans h2)
    refine ⟨hone, ?_⟩
    obtain ⟨u, hu⟩ := hstack 0 hb.pos
    obtain ⟨x, hx, h1, h2⟩ := hres.inside 0 hb.pos u hu _
      (List.mem_cons_of_mem _ List.mem_cons_self)
    have hshort := hrun.held_short hC hx
    simp only [Span.stop] at h2
    omega
  · have hk : ∀ k < c.coreCount, k = 0 := fun k hk ↦ by omega
    have hno : ¬ (arch = Riscv.cpuArch ∧ 512 ∣ c.coreCount) := by
      rw [hone]
      exact fun hc ↦ absurd hc.2 (by decide)
    refine ⟨hids, fun k hlt u hu mem ↦ ?_, fun k hlt ↦ ?_, fun k hlt u hu area harea ↦ ?_,
      fun j hj k hlt hne ↦ absurd ((hk j hj).trans (hk k hlt).symm) hne⟩
    · obtain ⟨h1, h2, h3⟩ := hlay.read_pointers hlt hu mem
      rw [loadCoreStartInfo, h1, h2, h3, hlay.read_id hlt hu hno mem, hk k hlt]
      rfl
    · obtain ⟨u, hu⟩ := hstack k hlt
      exact ⟨u, hu, hrun.stack_held hu⟩
    · obtain rfl := hk k hlt
      have hheld := hrun.held
      have hpages : ∀ {x : Nat}, x < 2 ^ 64 → mathAlignUp x ptmPageGranularity /
          ptmPageGranularity * ptmPageGranularity = mathAlignUp x ptmPageGranularity :=
        fun hx ↦ (mathAlignUp_pages hx).1
      simp only [coreAreas, List.mem_cons, List.not_mem_nil, or_false] at harea
      rcases harea with rfl | rfl | rfl
      · refine ⟨⟨t.archBlock, arch.archBlockSize c / ptmPageGranularity, .allocated⟩,
          by rw [hheld]; simp, ?_, ?_⟩
        · simp only [Allocation.span, CpuArch.recordAt, Nat.mul_zero, Nat.add_zero, le_refl]
        · have hround := hlay.archSize
          rw [hone, Nat.mul_one] at hround
          simp only [Allocation.span, Span.stop_mk, CpuArch.recordAt, Nat.mul_zero]
          rw [CpuArch.archBlockSize, hpages (mul64_lt _ _)]
          show _ ≤ _ + arch.archBlockSize c
          omega
      · refine ⟨⟨t.cpuLocal, CpuArch.cpuLocalBlockSize c / ptmPageGranularity, .used⟩,
          by rw [hheld]; simp, ?_, ?_⟩
        · simp only [Allocation.span, Nat.zero_mul, Nat.add_zero, le_refl]
        · simp only [Allocation.span, Span.stop_mk, Nat.zero_mul]
          rw [CpuArch.cpuLocalBlockSize, hpages (mul64_lt _ _), hone, mul64, Nat.one_mul,
            Nat.mod_eq_of_lt hsize, mathAlignUp_page (by omega)]
          omega
      · exact ⟨_, hrun.stack_held hu, le_rfl, le_rfl⟩

end Resources

/-- One core, on riscv64. -/
theorem core_resources_one : ∃ m t, addAll .empty oneRange = .ok m ∧
    prekernelSetupCpus Riscv.archSetupCpus (fewCores 1) (.begin ⟨m, []⟩) = .ok t ∧
    CoreResources Riscv.cpuArch (fewCores 1) 0 t := by
  have hrun : ((addAll .empty oneRange).toOption.bind fun m ↦
      (prekernelSetupCpus Riscv.archSetupCpus (fewCores 1) (.begin ⟨m, []⟩)).toOption).isSome := by
    decide +kernel
  obtain ⟨t, hrun⟩ := Option.isSome_iff_exists.mp hrun
  obtain ⟨m, hm, ht⟩ := Option.bind_eq_some_iff.mp hrun
  have hm := toOption_eq_some hm
  have ht := toOption_eq_some ht
  obtain ⟨hinv, hC⟩ := oneRange_inv hm
  refine ⟨m, t, hm, ht, ?_⟩
  exact (core_resources (b := 0) (Or.inr rfl) hinv hC (by decide) (by decide)
    (fun i hi ↦ by simp [fewCores]) ht).2.mpr ⟨rfl, by decide⟩

/-- Two cores, on x86_64: the second one is given the GDT behind the end of the array. -/
theorem core_resources_two : ∃ m t, addAll .empty oneRange = .ok m ∧
    prekernelSetupCpus X86.archSetupCpus (fewCores 2) (.begin ⟨m, []⟩) = .ok t ∧
    ¬ CoreResources X86.cpuArch (fewCores 2) 0 t := by
  have hrun : ((addAll .empty oneRange).toOption.bind fun m ↦
      (prekernelSetupCpus X86.archSetupCpus (fewCores 2) (.begin ⟨m, []⟩)).toOption.bind fun t ↦
        t.coreStacks[1]?.map fun u ↦
          decide ((loadCoreStartInfo (Memory.patch (fun _ ↦ 0) t.stores) (t.record 1)).archPointer =
            X86.cpuArch.pointer (fewCores 2) t 1)) = some false := by
    decide +kernel
  obtain ⟨m, hm, hrun⟩ := Option.bind_eq_some_iff.mp hrun
  obtain ⟨t, ht, hrun⟩ := Option.bind_eq_some_iff.mp hrun
  obtain ⟨u, hu, hne⟩ := Option.map_eq_some_iff.mp hrun
  refine ⟨m, t, toOption_eq_some hm, toOption_eq_some ht, fun hres ↦ ?_⟩
  have hrecord := hres.record 1 (show 1 < 2 by decide) u hu fun _ ↦ 0
  rw [hrecord] at hne
  exact of_decide_eq_false hne rfl

/-! ## The bytes that are written -/

/-- The byte is in the start-info block or in the block of the cpu-local areas. -/
def CpuSetup.InCoreBlocks (c : CpuArgs) (t : CpuSetup) (a : Nat) : Prop :=
  (t.startInfo ≤ a ∧ a < t.startInfo + startInfoBlockSize c) ∨
    (t.cpuLocal ≤ a ∧ a < t.cpuLocal + CpuArch.cpuLocalBlockSize c)

/-- The byte is in the block of the architecture's records. -/
def CpuArch.InBlock (arch : CpuArch) (c : CpuArgs) (t : CpuSetup) (a : Nat) : Prop :=
  t.archBlock ≤ a ∧ a < t.archBlock + arch.archBlockSize c

/-- The byte is in a field of the architecture's records that is filled in. -/
def CpuArch.Filled (arch : CpuArch) (c : CpuArgs) (t : CpuSetup) (a : Nat) : Prop :=
  ∃ k < c.coreCount, ∃ p ∈ arch.fill c (arch.recordAt t (given k)), p.address ≤ a ∧ a < p.stop

/-- Nothing is written outside the three blocks, so that everything else is as it was; and the
architecture's records are zero where they are not filled in, whatever was there before. -/
structure CpuFrame (arch : CpuArch) (c : CpuArgs) (t : CpuSetup) : Prop where
  written : ∀ p ∈ t.stores, ∀ a, p.address ≤ a → a < p.stop →
    t.InCoreBlocks c a ∨ arch.InBlock c t a
  kept : ∀ (mem : Memory) (a : Nat), ¬ (t.InCoreBlocks c a ∨ arch.InBlock c t a) →
    mem.patch t.stores a = mem a
  zero : ∀ (mem : Memory) (a : Nat), t.archBlock ≤ a →
    a < t.archBlock + arch.recordSize * c.coreCount → ¬ arch.Filled c t a →
    mem.patch t.stores a = 0

/-- The page behind the architecture's block belongs to one of the other two. -/
def CpuArch.BehindInCoreBlocks (arch : CpuArch) (c : CpuArgs) (m : PmmMap) : Prop :=
  ∀ startInfo cpuLocal archBlock, arch.blocksFrom c m = .ok (startInfo, cpuLocal, archBlock) →
    ∀ a, archBlock + arch.archBlockSize c ≤ a → a < archBlock + arch.archBlockSize c + 8 →
      (startInfo ≤ a ∧ a < startInfo + startInfoBlockSize c) ∨
        (cpuLocal ≤ a ∧ a < cpuLocal + cpuLocalBlockSize c)

section Frame

variable {arch : CpuArch} {c : CpuArgs} {C : Nat → Prop} {t : CpuSetup} {f : PmmState} {b k : Nat}
  {p : Patch}

/-- `memset` writes the bytes it is told to. -/
theorem stop_memset (a n : Nat) : Patch.stop ⟨a, List.replicate n 0⟩ = a + n := by
  rw [Patch.stop_mk, List.length_replicate]

/-- On x86_64 the last byte of the architecture's records is never written. -/
theorem CpuLayout.last_kept (h : CpuLayout X86.cpuArch c t) (mem : Memory) :
    mem.patch t.stores (t.archBlock + 168 * c.coreCount - 1) =
      mem (t.archBlock + 168 * c.coreCount - 1) := by
  have hpos := h.pos
  have hsep := h.start_arch
  have harch : X86.cpuArch.archBlockSize c = (168 * c.coreCount + 4095) / 4096 * 4096 := h.archSize
  have hstart := h.startSize
  refine patch_of_not_mem (fun p hp hx ↦ ?_) mem
  rw [h.stores, List.mem_append] at hp
  rcases hp with hp | hp
  · simp only [CpuArch.clears, List.mem_cons, List.not_mem_nil, or_false] at hp
    rcases hp with rfl | rfl | rfl
    · rw [stop_memset] at hx
      simp only at hx; omega
    · rw [stop_memset] at hx
      exact h.local_arch _ hx.1 hx.2 ⟨by omega, by omega⟩
    · -- the block that is cleared is the start-info block
      rw [stop_memset] at hx
      simp only [show X86.cpuArch.cleared t.startInfo t.archBlock = t.startInfo from rfl] at hx
      omega
  · obtain ⟨k, hk, u, -, hp | hp⟩ := h.mem_body.mp hp
    · have h1 := h.record_inside hk
      have h2 := recordStores_inside hp
      omega
    · exact absurd hp List.not_mem_nil

/-- On riscv64 the architecture's records are cleared, and only the global pointers are stored after
that. -/
theorem CpuLayout.cleared (h : CpuLayout Riscv.cpuArch c t) (mem : Memory) {a : Nat}
    (h1 : t.archBlock ≤ a) (h2 : a < t.archBlock + 8 * c.coreCount)
    (hno : ¬ Riscv.cpuArch.Filled c t a) : mem.patch t.stores a = 0 := by
  have hsep := h.start_arch
  have harch : Riscv.cpuArch.archBlockSize c = (8 * c.coreCount + 4095) / 4096 * 4096 := h.archSize
  rw [h.stores, patch_append, patch_of_not_mem]
  · show (Memory.write _ t.archBlock (List.replicate (Riscv.cpuArch.archBlockSize c) 0)) a = 0
    rw [Memory.write, dif_pos ⟨h1, by rw [List.length_replicate]; omega⟩, List.getElem_replicate]
  · intro p hp hx
    obtain ⟨k, hk, u, -, hp | hp⟩ := h.mem_body.mp hp
    · have h3 := h.record_inside hk
      have h4 := recordStores_inside hp
      omega
    · exact hno ⟨k, hk, p, hp, hx⟩

/-- **The frame of CPU bring-up**: what `arch_setup_cpus` writes stays in its blocks and leaves the
architecture's records cleared, never on x86_64, and on riscv64 if and only if the number of cores is
no multiple of 512 or the page behind the records belongs to one of the other blocks. -/
theorem cpu_frame (harch : arch.Built) (h : f.Inv C) (hC : ∀ a, C a → a < 2 ^ 56)
    (hb : b < c.coreCount) (hbsp : ∀ i < c.coreCount, c.isBsp i = true ↔ i = b)
    (ht : prekernelSetupCpus arch.archSetupCpus c (.begin f) = .ok t) :
    CpuFrame arch c t ↔
      arch = Riscv.cpuArch ∧ (512 ∣ c.coreCount → arch.BehindInCoreBlocks c f.map) := by
  have hrun := cpuRun_of_ok h hC ht
  have hlay := hrun.layout hC harch hb hbsp
  have hpos := hlay.pos
  have hsize := hlay.archSize
  rcases harch with rfl | rfl
  · refine ⟨fun hframe ↦ ?_, fun hc ↦ absurd (congrArg CpuArch.recordSize hc.1) (by decide)⟩
    have hlast := hlay.last_kept fun _ ↦ 1
    rw [hframe.zero (fun _ ↦ 1) (t.archBlock + 168 * c.coreCount - 1) (by omega)
      (by simp only [X86.cpuArch]; omega)
      fun hfilled ↦ by
        obtain ⟨k, -, p, hp, -⟩ := hfilled
        exact absurd hp List.not_mem_nil] at hlast
    cases hlast
  have hsize : Riscv.cpuArch.archBlockSize c = (8 * c.coreCount + 4095) / 4096 * 4096 := hsize
  constructor
  · refine fun hframe ↦ ⟨rfl, fun hdvd startInfo cpuLocal archBlock hblocks a h1 h2 ↦ ?_⟩
    obtain ⟨rfl, rfl, rfl⟩ := Prod.mk.injEq .. ▸ Except.ok.inj (hblocks.symm.trans hrun.blocks)
    -- the last core fills the record behind the end in
    have hk : c.coreCount - 1 < c.coreCount := by omega
    obtain ⟨u, hu⟩ : ∃ u, t.coreStacks[c.coreCount - 1]? = some u :=
      ⟨_, List.getElem?_eq_getElem (by rw [hlay.length]; omega)⟩
    have hgiven : CpuArch.given (c.coreCount - 1) = c.coreCount := by
      rw [CpuArch.given, if_neg (by omega)]; omega
    have hp : ⟨Riscv.cpuArch.recordAt t c.coreCount, littleEndian 8 c.globalPointer⟩ ∈ t.stores := by
      rw [hlay.stores]
      refine List.mem_append_right _ (hlay.mem_body.mpr ⟨_, hk, u, hu, Or.inr ?_⟩)
      rw [hgiven]
      exact List.mem_cons_self
    have hrecord : Riscv.cpuArch.recordAt t c.coreCount = t.archBlock + 8 * c.coreCount := rfl
    refine (hframe.written _ hp a (by simp only [hrecord]; omega) ?_).resolve_right fun ha ↦ ?_
    · rw [Patch.stop_mk, littleEndian_length, hrecord]; omega
    · have := ha.2
      omega
  · rintro ⟨-, hbehind⟩
    have hwritten : ∀ p ∈ t.stores, ∀ a, p.address ≤ a → a < p.stop →
        t.InCoreBlocks c a ∨ Riscv.cpuArch.InBlock c t a := by
      intro p hp a h1 h2
      rw [hlay.stores, List.mem_append] at hp
      rcases hp with hp | hp
      · simp only [CpuArch.clears, List.mem_cons, List.not_mem_nil, or_false] at hp
        rcases hp with rfl | rfl | rfl <;> rw [stop_memset] at h2
        · exact Or.inl (Or.inl ⟨h1, h2⟩)
        · exact Or.inl (Or.inr ⟨h1, h2⟩)
        · exact Or.inr ⟨h1, h2⟩
      · obtain ⟨k, hk, u, -, hp | hp⟩ := hlay.mem_body.mp hp
        · have h3 := hlay.record_inside hk
          have h4 := CpuLayout.recordStores_inside hp
          exact Or.inl (Or.inl ⟨by omega, by omega⟩)
        · by_cases hover : CpuArch.given k < c.coreCount ∨ ¬ 512 ∣ c.coreCount
          · have hin := hlay.fill_inside hk hp hover
            exact Or.inr ⟨by omega, by omega⟩
          · obtain ⟨-, rfl⟩ := CpuLayout.fill_word hlay.built hp
            have hdvd : 512 ∣ c.coreCount := by tauto
            have hgiven : CpuArch.given k = c.coreCount := by
              have : CpuArch.given k ≤ c.coreCount := by
                rw [CpuArch.given]
                split <;> omega
              omega
            rw [Patch.stop_mk, littleEndian_length] at h2
            simp only [CpuArch.recordAt, hgiven, show Riscv.cpuArch.recordSize = 8 from rfl] at h1 h2
            exact Or.inl (hbehind hdvd _ _ _ hrun.blocks a (by omega) (by omega))
    exact ⟨hwritten, fun mem a ha ↦ patch_of_not_mem (fun p hp hx ↦ ha (hwritten p hp a hx.1 hx.2))
      mem, fun mem a h1 h2 hno ↦ hlay.cleared mem h1 h2 hno⟩

end Frame

/-- One core, on riscv64. -/
theorem cpu_frame_one : ∃ m t, addAll .empty oneRange = .ok m ∧
    prekernelSetupCpus Riscv.archSetupCpus (fewCores 1) (.begin ⟨m, []⟩) = .ok t ∧
    CpuFrame Riscv.cpuArch (fewCores 1) t := by
  have hrun : ((addAll .empty oneRange).toOption.bind fun m ↦
      (prekernelSetupCpus Riscv.archSetupCpus (fewCores 1) (.begin ⟨m, []⟩)).toOption).isSome := by
    decide +kernel
  obtain ⟨t, hrun⟩ := Option.isSome_iff_exists.mp hrun
  obtain ⟨m, hm, ht⟩ := Option.bind_eq_some_iff.mp hrun
  have hm := toOption_eq_some hm
  have ht := toOption_eq_some ht
  obtain ⟨hinv, hC⟩ := oneRange_inv hm
  refine ⟨m, t, hm, ht, ?_⟩
  exact (cpu_frame (b := 0) (Or.inr rfl) hinv hC (by decide) (fun i hi ↦ by simp [fewCores]) ht).mpr
    ⟨rfl, fun h ↦ absurd h (by decide)⟩

/-- One core, on x86_64: what was in memory before is still in its GDT and TSS. -/
theorem cpu_frame_stale : ∃ m t, addAll .empty oneRange = .ok m ∧
    prekernelSetupCpus X86.archSetupCpus (fewCores 1) (.begin ⟨m, []⟩) = .ok t ∧
    ¬ CpuFrame X86.cpuArch (fewCores 1) t := by
  have hrun : ((addAll .empty oneRange).toOption.bind fun m ↦
      (prekernelSetupCpus X86.archSetupCpus (fewCores 1) (.begin ⟨m, []⟩)).toOption.map fun t ↦
        Memory.patch (fun _ ↦ 1) t.stores (t.archBlock + 167)) = some 1 := by
    decide +kernel
  obtain ⟨m, hm, hrun⟩ := Option.bind_eq_some_iff.mp hrun
  obtain ⟨t, ht, hone⟩ := Option.map_eq_some_iff.mp hrun
  refine ⟨m, t, toOption_eq_some hm, toOption_eq_some ht, fun hframe ↦ ?_⟩
  have hzero := hframe.zero (fun _ ↦ 1) (t.archBlock + 167) (Nat.le_add_right _ _)
    (Nat.add_lt_add_left (show 167 < 168 * 1 by decide) _) fun hfilled ↦ by
      obtain ⟨k, -, p, hp, -⟩ := hfilled
      exact absurd hp List.not_mem_nil
  rw [hone] at hzero
  exact absurd hzero (by decide)

end LunarPrekernel
