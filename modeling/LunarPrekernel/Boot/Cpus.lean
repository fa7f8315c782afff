import LunarPrekernel.Library.Memory
import LunarPrekernel.Ptm.PmmFrames

/-!
# Per-core resources

`prekernel_init` allocates a block of start-info records, one for each core, and `arch_setup_cpus`
allocates the rest: the cpu-local areas, the architecture's records, and a stack for each core; then
it fills in the records and starts the cores.  The two versions of `arch_setup_cpus` do the same to
records of different sizes, and differ in what they clear and in what they store into the
architecture's record; `CpuArch` holds these differences.

Every store is written down as a `Memory.Patch`, with `memset` as a run of zeros.  Addresses are
physical: a store through the direct map, at `p + hhdm_offset`, is a store at `p`.  The pointers that
are stored have `hhdm_offset` added.
-/

set_option autoImplicit false

namespace LunarPrekernel

open SpanMap Span PmmMap Memory

/-! ## The code -/

/-- `sizeof(core_start_info_t)`. -/
def sizeofCoreStartInfo : Nat := 32

/-- `CORE_STACK_PGCNT`. -/
def coreStackPgcnt : Nat := 16

/-- What `arch_setup_cpus` is called with, and what it reads. -/
structure CpuArgs where
  /-- `g_globals_boot_info->hhdm_offset`. -/
  hhdmOffset : Nat
  coreCount : Nat
  /-- `kernel_info->cpu_local_size`. -/
  cpuLocalSize : Nat
  /-- `kernel_info->global_pointer`. -/
  globalPointer : Nat
  /-- `g_boot_core_is_bsp`. -/
  isBsp : Nat → Bool

/-- What the two versions of `arch_setup_cpus` differ in. -/
structure CpuArch where
  /-- The size of the architecture's record. -/
  recordSize : Nat
  /-- Which block is cleared with the length of the architecture's: the start-info block, which comes
  first, or the architecture's. -/
  cleared : Nat → Nat → Nat
  /-- What is stored into the architecture's record at an address. -/
  fill : CpuArgs → Nat → List Patch

/-- The machine, the local variables of `prekernel_init` and `arch_setup_cpus`, and what was done. -/
structure CpuSetup where
  frames : PmmState
  /-- `start_info_block`. -/
  startInfo : Nat
  /-- `cpu_local_block`. -/
  cpuLocal : Nat
  /-- `arch_start_info_block`. -/
  archBlock : Nat
  /-- `g_globals_boot_info->cpulocal_start`. -/
  cpulocalStart : Nat
  /-- `g_globals_boot_info->cpulocal_size`. -/
  cpulocalSize : Nat
  /-- The stacks, by core id. -/
  coreStacks : List Nat
  stores : List Patch
  /-- The calls of `g_boot_start_ap`: the bootloader's index of the core, and its record. -/
  started : List (Nat × Nat)

namespace CpuSetup

def alloc (s : CpuSetup) (pages : Nat) (type : PmmMapType) : Except Stop (Nat × CpuSetup) :=
  (pmmAllocExt s.frames.map pages ptmPageGranularity type).map fun r ↦
    (r.1, { s with frames := s.frames.hand pages type r })

/-- A store of a word. -/
def store (s : CpuSetup) (a v : Nat) : CpuSetup :=
  { s with stores := s.stores ++ [⟨a, littleEndian 8 v⟩] }

/-- `memset(a, 0, n)`. -/
def memset (s : CpuSetup) (a n : Nat) : CpuSetup :=
  { s with stores := s.stores ++ [⟨a, List.replicate n 0⟩] }

/-- `&core_start_info_block[k]`. -/
def record (s : CpuSetup) (k : Nat) : Nat := s.startInfo + sizeofCoreStartInfo * k

end CpuSetup

/-- The stack pointer of the core whose stack is at `u`. -/
def CpuArgs.stackTop (c : CpuArgs) (u : Nat) : Nat :=
  add64 (add64 u c.hhdmOffset) (mul64 coreStackPgcnt ptmPageGranularity)

namespace CpuArch

/-- `&arch_start_info_block[k]`, as an address. -/
def recordAt (arch : CpuArch) (s : CpuSetup) (k : Nat) : Nat := s.archBlock + arch.recordSize * k

/-- `&arch_start_info_block[k]`, as a pointer. -/
def pointer (arch : CpuArch) (c : CpuArgs) (s : CpuSetup) (k : Nat) : Nat :=
  add64 (add64 s.archBlock c.hhdmOffset) (mul64 arch.recordSize k)

/-- The stores into the architecture's record of core id `k`. -/
def fillRecord (arch : CpuArch) (c : CpuArgs) (k : Nat) (s : CpuSetup) : CpuSetup :=
  { s with stores := s.stores ++ arch.fill c (arch.recordAt s k) }

/-- The body of the loop, for a core that is not the bootstrap core. -/
def startAp (arch : CpuArch) (c : CpuArgs) (i coreId : Nat) (s : CpuSetup) :
    Except Stop CpuSetup :=
  let csi := s.record coreId
  let s := s.store (csi + 16)
    (add64 (add64 s.cpuLocal c.hhdmOffset) (mul64 coreId c.cpuLocalSize))
  (s.alloc coreStackPgcnt .allocated).map fun (u, s) ↦
    let s := s.store (csi + 8) (c.stackTop u)
    let s := s.store csi coreId
    -- `core_id++` comes with the store of the id, before the pointer is taken
    let s := s.store (csi + 24) (arch.pointer c s (coreId + 1))
    let s := arch.fillRecord c (coreId + 1) s
    { s with coreStacks := s.coreStacks ++ [u], started := s.started ++ [(i, csi)] }

/-- The loop, with `n` cores left. -/
def startAps (arch : CpuArch) (c : CpuArgs) : Nat → Nat → Nat → CpuSetup → Except Stop CpuSetup
  | 0, _, _, s => .ok s
  | n + 1, i, coreId, s =>
    if c.isBsp i then startAps arch c n (i + 1) coreId s
    else (startAp arch c i coreId s).bind (startAps arch c n (i + 1) (coreId + 1))

/-- The record of the bootstrap core. -/
def setupBsp (arch : CpuArch) (c : CpuArgs) (s : CpuSetup) : Except Stop CpuSetup :=
  let s := s.store (s.record 0) 0
  let s := s.store (s.record 0 + 16) (add64 s.cpuLocal c.hhdmOffset)
  (s.alloc coreStackPgcnt .allocated).map fun (u, s) ↦
    let s := s.store (s.record 0 + 8) (c.stackTop u)
    let s := arch.fillRecord c 0 s
    let s := s.store (s.record 0 + 24) (arch.pointer c s 0)
    { s with coreStacks := s.coreStacks ++ [u] }

/-- `cpu_local_block_size`. -/
def cpuLocalBlockSize (c : CpuArgs) : Nat :=
  mathAlignUp (mul64 c.coreCount c.cpuLocalSize) ptmPageGranularity

/-- `arch_start_info_block_size`. -/
def archBlockSize (arch : CpuArch) (c : CpuArgs) : Nat :=
  mathAlignUp (mul64 arch.recordSize c.coreCount) ptmPageGranularity

/-- `arch_setup_cpus`. -/
def archSetupCpus (arch : CpuArch) (c : CpuArgs) (s : CpuSetup) : Except Stop CpuSetup :=
  let size := cpuLocalBlockSize c
  (s.alloc (size / ptmPageGranularity) .used).bind fun (cpuLocal, s) ↦
    let s := { s.memset cpuLocal size with cpuLocal := cpuLocal }
    let s := { s with cpulocalStart := add64 cpuLocal c.hhdmOffset, cpulocalSize := size }
    let size := arch.archBlockSize c
    (s.alloc (size / ptmPageGranularity) .allocated).bind fun (archBlock, s) ↦
      let s := { s.memset (arch.cleared s.startInfo archBlock) size with archBlock := archBlock }
      (arch.setupBsp c s).bind (arch.startAps c c.coreCount 0 1)

end CpuArch

/-- `start_info_block_size`. -/
def startInfoBlockSize (c : CpuArgs) : Nat :=
  mathAlignUp (mul64 sizeofCoreStartInfo c.coreCount) ptmPageGranularity

/-- The part of `prekernel_init` that sets up the cores, with the architecture's `arch_setup_cpus`. -/
def prekernelSetupCpus (archSetupCpus : CpuArgs → CpuSetup → Except Stop CpuSetup) (c : CpuArgs)
    (s : CpuSetup) : Except Stop CpuSetup :=
  let size := startInfoBlockSize c
  (s.alloc (size / ptmPageGranularity) .allocated).bind fun (startInfo, s) ↦
    archSetupCpus c { s.memset startInfo size with startInfo := startInfo }

/-- On x86_64 the record is a GDT and a TSS, which the core itself fills in.  The block that is
cleared is the start-info block. -/
def X86.cpuArch : CpuArch := ⟨168, fun startInfo _ ↦ startInfo, fun _ _ ↦ []⟩

/-- On riscv64 the record is the global pointer. -/
def Riscv.cpuArch : CpuArch :=
  ⟨8, fun _ archBlock ↦ archBlock, fun c a ↦ [⟨a, littleEndian 8 c.globalPointer⟩]⟩

/-- `arch_setup_cpus` on x86_64. -/
def X86.archSetupCpus : CpuArgs → CpuSetup → Except Stop CpuSetup := X86.cpuArch.archSetupCpus

/-- `arch_setup_cpus` on riscv64. -/
def Riscv.archSetupCpus : CpuArgs → CpuSetup → Except Stop CpuSetup := Riscv.cpuArch.archSetupCpus

/-! ## What a run does -/

/-- The stack at `u`. -/
def stackAt (u : Nat) : Allocation := ⟨u, coreStackPgcnt, .allocated⟩

/-- Before anything is allocated for the cores. -/
def CpuSetup.begin (f : PmmState) : CpuSetup := ⟨f, 0, 0, 0, 0, 0, [], [], []⟩

namespace CpuArch

/-- Which of the architecture's records the record of core id `k` is given. -/
def given (k : Nat) : Nat := if k = 0 then 0 else k + 1

/-- What is stored for core id `k`, with its stack at `u`. -/
def coreStores (arch : CpuArch) (c : CpuArgs) (s : CpuSetup) (k u : Nat) : List Patch :=
  if k = 0 then
    [⟨s.record 0, littleEndian 8 0⟩, ⟨s.record 0 + 16, littleEndian 8 (add64 s.cpuLocal c.hhdmOffset)⟩,
        ⟨s.record 0 + 8, littleEndian 8 (c.stackTop u)⟩] ++ arch.fill c (arch.recordAt s 0) ++
      [⟨s.record 0 + 24, littleEndian 8 (arch.pointer c s 0)⟩]
  else
    [⟨s.record k + 16, littleEndian 8
          (add64 (add64 s.cpuLocal c.hhdmOffset) (mul64 k c.cpuLocalSize))⟩,
        ⟨s.record k + 8, littleEndian 8 (c.stackTop u)⟩, ⟨s.record k, littleEndian 8 k⟩,
        ⟨s.record k + 24, littleEndian 8 (arch.pointer c s (k + 1))⟩] ++
      arch.fill c (arch.recordAt s (k + 1))

/-- The three `memset`s. -/
def clears (arch : CpuArch) (c : CpuArgs) (s : CpuSetup) : List Patch :=
  [⟨s.startInfo, List.replicate (startInfoBlockSize c) 0⟩,
    ⟨s.cpuLocal, List.replicate (cpuLocalBlockSize c) 0⟩,
    ⟨arch.cleared s.startInfo s.archBlock, List.replicate (arch.archBlockSize c) 0⟩]

/-- Where the allocator puts the three blocks, one after the other. -/
def blocksFrom (arch : CpuArch) (c : CpuArgs) (m : PmmMap) :
    Except Stop (Nat × Nat × Nat) :=
  (pmmAllocExt m (startInfoBlockSize c / ptmPageGranularity) ptmPageGranularity .allocated).bind
    fun (startInfo, m) ↦
      (pmmAllocExt m (cpuLocalBlockSize c / ptmPageGranularity) ptmPageGranularity .used).bind
        fun (cpuLocal, m) ↦
          (pmmAllocExt m (arch.archBlockSize c / ptmPageGranularity) ptmPageGranularity
            .allocated).map fun (archBlock, _) ↦ (startInfo, cpuLocal, archBlock)

end CpuArch

section Run

variable {arch : CpuArch} {c : CpuArgs} {C : Nat → Prop} {s t : CpuSetup} {f : PmmState}
  {i k n u pages : Nat} {type : PmmMapType}

/-- Memory that ends below `2 ^ 56` serves every request. -/
theorem PmmState.Inv.serves (h : f.Inv C) (hC : ∀ a, C a → a < 2 ^ 56) (ht : type ≠ .free)
    (hn : n * ptmPageGranularity < 2 ^ 64) : f.Serves n ptmPageGranularity type :=
  ⟨by decide, ht, hn, (h.serves_frame hC le_rfl).2.2.2⟩

theorem CpuSetup.alloc_ok (h : s.frames.Inv C) (hC : ∀ a, C a → a < 2 ^ 56) (ht : type ≠ .free)
    (hn : pages * ptmPageGranularity < 2 ^ 64) {r : Nat × CpuSetup}
    (hr : s.alloc pages type = .ok r) :
    ∃ f : PmmState, r.2 = { s with frames := f } ∧ f.Inv C ∧
      f.held = ⟨r.1, pages, type⟩ :: s.frames.held ∧ ptmPageGranularity ∣ r.1 ∧
      pmmAllocExt s.frames.map pages ptmPageGranularity type = .ok (r.1, f.map) := by
  obtain ⟨q, hq, rfl⟩ := map_eq_ok hr
  rcases h.pmmAllocExt_spec (h.serves hC ht hn) with ⟨q', hq', hinv, hh⟩ | ⟨e, herr, -⟩
  · rw [hq] at hq'
    obtain rfl := Except.ok.inj hq'
    exact ⟨_, rfl, hinv, rfl, hh.aligned, hq⟩
  · rw [hq] at herr
    cases herr

theorem coreStackPgcnt_lt : coreStackPgcnt * ptmPageGranularity < 2 ^ 64 := by decide

namespace CpuArch

/-- The bootstrap core's record. -/
theorem setupBsp_ok (h : s.frames.Inv C) (hC : ∀ a, C a → a < 2 ^ 56)
    (ht : arch.setupBsp c s = .ok t) : ∃ (f : PmmState) (u : Nat),
      f.Inv C ∧ f.held = stackAt u :: s.frames.held ∧ ptmPageGranularity ∣ u ∧
      t = { s with
        frames := f
        coreStacks := s.coreStacks ++ [u]
        stores := s.stores ++ arch.coreStores c s 0 u } := by
  obtain ⟨⟨u, s'⟩, hu, ht⟩ := map_eq_ok ht
  obtain ⟨f, hs', hf, hheld, hdvd, -⟩ := CpuSetup.alloc_ok (by exact h) hC (by decide)
    coreStackPgcnt_lt hu
  refine ⟨f, u, hf, hheld, hdvd, ?_⟩
  rw [← ht]
  dsimp only at hs' ⊢
  rw [hs']
  simp only [CpuSetup.store, fillRecord, coreStores, if_true, List.append_assoc,
    List.cons_append, List.nil_append]
  rfl

/-- One turn of the loop. -/
theorem startAp_ok (h : s.frames.Inv C) (hC : ∀ a, C a → a < 2 ^ 56) (hk : k ≠ 0)
    (ht : arch.startAp c i k s = .ok t) : ∃ (f : PmmState) (u : Nat),
      f.Inv C ∧ f.held = stackAt u :: s.frames.held ∧ ptmPageGranularity ∣ u ∧
      t = { s with
        frames := f
        coreStacks := s.coreStacks ++ [u]
        stores := s.stores ++ arch.coreStores c s k u
        started := s.started ++ [(i, s.record k)] } := by
  obtain ⟨⟨u, s'⟩, hu, ht⟩ := map_eq_ok ht
  obtain ⟨f, hs', hf, hheld, hdvd, -⟩ := CpuSetup.alloc_ok (by exact h) hC (by decide)
    coreStackPgcnt_lt hu
  refine ⟨f, u, hf, hheld, hdvd, ?_⟩
  rw [← ht]
  dsimp only at hs' ⊢
  rw [hs']
  simp only [CpuSetup.store, fillRecord, coreStores, if_neg hk, List.append_assoc,
    List.cons_append, List.nil_append]
  rfl

/-- **The loop**: the cores that are not the bootstrap core get the next core ids, in the
bootloader's order. -/
theorem startAps_ok (hC : ∀ a, C a → a < 2 ^ 56) (n : Nat) : ∀ {i k : Nat} {s : CpuSetup},
    s.frames.Inv C → k ≠ 0 → arch.startAps c n i k s = .ok t → ∃ (f : PmmState) (us : List Nat),
      f.Inv C ∧ us.length = ((List.range' i n).filter fun i ↦ !c.isBsp i).length ∧
      f.held = (us.map stackAt).reverse ++ s.frames.held ∧
      (∀ u ∈ us, ptmPageGranularity ∣ u) ∧
      t = { s with
        frames := f
        coreStacks := s.coreStacks ++ us
        stores := s.stores ++ (us.zipIdx k).flatMap fun x ↦ arch.coreStores c s x.2 x.1
        started := s.started ++ ((List.range' i n).filter fun i ↦ !c.isBsp i).zip
          ((List.range' k us.length).map s.record) } := by
  induction n with
  | zero =>
    intro i k s h _ ht
    obtain rfl := Except.ok.inj ht
    refine ⟨s.frames, [], h, rfl, rfl, by simp, ?_⟩
    simp only [List.append_nil, List.zipIdx_nil, List.flatMap_nil, List.range'_zero,
      List.filter_nil, List.zip_nil_left]
  | succ n ih =>
    intro i k s h hk ht
    rw [startAps] at ht
    rw [List.range'_succ]
    split at ht
    · rename_i hbsp
      rw [List.filter_cons_of_neg (by simp [hbsp])]
      exact ih h hk ht
    · rename_i hap
      rw [List.filter_cons_of_pos (by simpa using hap)]
      obtain ⟨s', hs', ht⟩ := bind_eq_ok ht
      obtain ⟨f, u, hf, hheld, hdvd, rfl⟩ := startAp_ok h hC hk hs'
      obtain ⟨f', us, hf', hlen, hheld', hdvd', rfl⟩ := ih (by exact hf) (Nat.succ_ne_zero k) ht
      refine ⟨f', u :: us, hf', by rw [List.length_cons, List.length_cons, hlen], ?_, ?_, ?_⟩
      · rw [hheld', List.map_cons, List.reverse_cons, List.append_assoc]
        show _ ++ f.held = _
        rw [hheld]
        rfl
      · rintro v hv
        rcases List.mem_cons.mp hv with rfl | hv
        · exact hdvd
        · exact hdvd' v hv
      · simp only [List.append_assoc, List.zipIdx_cons, List.flatMap_cons, List.length_cons,
          List.range'_succ, List.map_cons, List.zip_cons_cons, List.cons_append, List.nil_append]
        rfl

end CpuArch

theorem CpuArch.blocksFrom_eq {m m₁ m₂ m₃ : PmmMap} {a b d : Nat}
    (h₁ : pmmAllocExt m (startInfoBlockSize c / ptmPageGranularity) ptmPageGranularity .allocated =
      .ok (a, m₁))
    (h₂ : pmmAllocExt m₁ (cpuLocalBlockSize c / ptmPageGranularity) ptmPageGranularity .used =
      .ok (b, m₂))
    (h₃ : pmmAllocExt m₂ (arch.archBlockSize c / ptmPageGranularity) ptmPageGranularity .allocated =
      .ok (d, m₃)) : arch.blocksFrom c m = .ok (a, b, d) := by
  rw [blocksFrom, h₁]
  show Except.bind (pmmAllocExt m₁ _ _ _) _ = _
  rw [h₂]
  show Except.map _ (pmmAllocExt m₂ _ _ _) = _
  rw [h₃]
  rfl

/-- What is known of a run that returns; `f` is the allocator before it. -/
structure CpuRun (arch : CpuArch) (c : CpuArgs) (C : Nat → Prop) (f : PmmState) (t : CpuSetup) :
    Prop where
  inv : t.frames.Inv C
  held : t.frames.held = (t.coreStacks.map stackAt).reverse ++
    ⟨t.archBlock, arch.archBlockSize c / ptmPageGranularity, .allocated⟩ ::
    ⟨t.cpuLocal, CpuArch.cpuLocalBlockSize c / ptmPageGranularity, .used⟩ ::
    ⟨t.startInfo, startInfoBlockSize c / ptmPageGranularity, .allocated⟩ :: f.held
  blocks : arch.blocksFrom c f.map = .ok (t.startInfo, t.cpuLocal, t.archBlock)
  arch_dvd : ptmPageGranularity ∣ t.archBlock
  start_dvd : ptmPageGranularity ∣ t.startInfo
  stack_dvd : ∀ u ∈ t.coreStacks, ptmPageGranularity ∣ u
  count : t.coreStacks.length =
    ((List.range c.coreCount).filter fun i ↦ !c.isBsp i).length + 1
  stores : t.stores = arch.clears c t ++
    t.coreStacks.zipIdx.flatMap fun x ↦ arch.coreStores c t x.2 x.1
  started : t.started = ((List.range c.coreCount).filter fun i ↦ !c.isBsp i).zip
    ((List.range' 1 ((List.range c.coreCount).filter fun i ↦ !c.isBsp i).length).map t.record)

theorem add64_lt (a b : Nat) : add64 a b < 2 ^ 64 := Nat.mod_lt _ (Nat.two_pow_pos 64)

theorem mul64_lt (a b : Nat) : mul64 a b < 2 ^ 64 := Nat.mod_lt _ (Nat.two_pow_pos 64)

/-- **The cores are set up**: what was allocated, stored and started. -/
theorem cpuRun_of_ok (h : f.Inv C) (hC : ∀ a, C a → a < 2 ^ 56)
    (ht : prekernelSetupCpus arch.archSetupCpus c (.begin f) = .ok t) : CpuRun arch c C f t := by
  have hpages : ∀ {x : Nat}, x < 2 ^ 64 →
      mathAlignUp x ptmPageGranularity / ptmPageGranularity * ptmPageGranularity < 2 ^ 64 := by
    intro x hx
    obtain ⟨h1, h2⟩ := mathAlignUp_pages hx
    rwa [h1]
  rw [prekernelSetupCpus] at ht
  obtain ⟨⟨startInfo, s₁⟩, hs₁, ht⟩ := bind_eq_ok ht
  obtain ⟨f₁, rfl, hf₁, hheld₁, hdvd₁, hq₁⟩ :=
    CpuSetup.alloc_ok (by exact h) hC (by decide) (hpages (mul64_lt _ _)) hs₁
  dsimp only at ht
  rw [CpuArch.archSetupCpus] at ht
  obtain ⟨⟨cpuLocal, s₂⟩, hs₂, ht⟩ := bind_eq_ok ht
  obtain ⟨f₂, rfl, hf₂, hheld₂, -, hq₂⟩ :=
    CpuSetup.alloc_ok (by exact hf₁) hC (by decide) (hpages (mul64_lt _ _)) hs₂
  dsimp only at ht
  obtain ⟨⟨archBlock, s₃⟩, hs₃, ht⟩ := bind_eq_ok ht
  obtain ⟨f₃, rfl, hf₃, hheld₃, hdvd₃, hq₃⟩ :=
    CpuSetup.alloc_ok (by exact hf₂) hC (by decide) (hpages (mul64_lt _ _)) hs₃
  dsimp only at ht
  obtain ⟨s₄, hs₄, ht⟩ := bind_eq_ok ht
  obtain ⟨f₄, u, hf₄, hheld₄, hdvd₄, rfl⟩ := CpuArch.setupBsp_ok (by exact hf₃) hC hs₄
  obtain ⟨f₅, us, hf₅, hlen, hheld₅, hdvd₅, rfl⟩ :=
    CpuArch.startAps_ok hC c.coreCount (by exact hf₄) one_ne_zero ht
  rw [← List.range_eq_range'] at hlen
  exact
    { inv := hf₅
      held := by
        show f₅.held = ((u :: us).map stackAt).reverse ++ _
        rw [hheld₅, List.map_cons, List.reverse_cons, List.append_assoc]
        show _ ++ f₄.held = _
        rw [hheld₄]
        show _ ++ stackAt u :: f₃.held = _
        rw [hheld₃]
        show _ ++ stackAt u :: _ :: f₂.held = _
        rw [hheld₂]
        show _ ++ stackAt u :: _ :: _ :: f₁.held = _
        rw [hheld₁]
        rfl
      blocks := CpuArch.blocksFrom_eq hq₁ hq₂ hq₃
      arch_dvd := hdvd₃
      start_dvd := hdvd₁
      stack_dvd := by
        rintro v hv
        rcases List.mem_cons.mp hv with rfl | hv
        · exact hdvd₄
        · exact hdvd₅ v hv
      count := by
        show (u :: us).length = _
        rw [List.length_cons, hlen]
      stores := by
        show _ = _ ++ ((u :: us).zipIdx).flatMap _
        rw [List.zipIdx_cons, List.flatMap_cons]
        simp only [CpuSetup.memset, CpuSetup.begin, List.nil_append, List.cons_append]
        rfl
      started := by
        rw [← hlen, List.range_eq_range']
        rfl }

end Run

/-! ## Where everything is -/

/-- Where the addresses of a block of whole pages are. -/
theorem contains_block {a x size : Nat} {type : PmmMapType}
    (h : size / ptmPageGranularity * ptmPageGranularity = size) :
    (⟨a, size / ptmPageGranularity, type⟩ : Allocation).Contains x ↔ a ≤ x ∧ x < a + size := by
  simp only [Allocation.Contains, Allocation.span, Contains, Span.stop_mk, h]

section Layout

variable {arch : CpuArch} {c : CpuArgs} {C : Nat → Prop} {t : CpuSetup} {f : PmmState} {b : Nat}

/-- Allocations that do not meet have room beside each other. -/
theorem sum_length_le {n : Nat} : ∀ {l : List Allocation},
    (l.Pairwise fun x y ↦ ∀ a, x.Contains a → ¬ y.Contains a) →
    (∀ x ∈ l, ∀ a, x.Contains a → a < n) → (l.map fun x ↦ x.span.length).sum ≤ n := by
  intro l hapart hlt
  -- the addresses of all of them
  suffices h : ∃ S : Finset Nat, S.card = (l.map fun x ↦ x.span.length).sum ∧
      ∀ a, a ∈ S ↔ ∃ x ∈ l, x.Contains a by
    obtain ⟨S, hS, hmem⟩ := h
    rw [← hS, ← Finset.card_range n]
    refine Finset.card_le_card fun a ha ↦ ?_
    obtain ⟨x, hx, hxa⟩ := (hmem a).mp ha
    exact Finset.mem_range.mpr (hlt x hx a hxa)
  clear hlt
  induction l with
  | nil => exact ⟨∅, rfl, by simp⟩
  | cons x l ih =>
    obtain ⟨hx, hl⟩ := List.pairwise_cons.mp hapart
    obtain ⟨S, hS, hmem⟩ := ih hl
    refine ⟨Finset.Ico x.span.base x.span.stop ∪ S, ?_, fun a ↦ ?_⟩
    · rw [Finset.card_union_of_disjoint, Nat.card_Ico, hS, List.map_cons, List.sum_cons, Span.stop,
        Nat.add_sub_cancel_left]
      refine Finset.disjoint_left.mpr fun a ha haS ↦ ?_
      obtain ⟨y, hy, hya⟩ := (hmem a).mp haS
      exact hx y hy a (Finset.mem_Ico.mp ha) hya
    · rw [Finset.mem_union, Finset.mem_Ico, hmem]
      constructor
      · rintro (ha | ⟨y, hy, hya⟩)
        · exact ⟨x, List.mem_cons_self, ha⟩
        · exact ⟨y, List.mem_cons_of_mem _ hy, hya⟩
      · rintro ⟨y, hy, hya⟩
        rcases List.mem_cons.mp hy with rfl | hy
        · exact Or.inl hya
        · exact Or.inr ⟨y, hy, hya⟩

/-- The cores of the bootloader that are not the bootstrap core. -/
def apIndex (b k : Nat) : Nat := if k ≤ b then k - 1 else k

theorem filter_isBsp (hb : b < c.coreCount) (hbsp : ∀ i < c.coreCount, c.isBsp i = true ↔ i = b) :
    (List.range c.coreCount).filter (fun i ↦ !c.isBsp i) =
      (List.range' 1 (c.coreCount - 1)).map (apIndex b) := by
  have hsplit : List.range c.coreCount =
      List.range' 0 b ++ b :: List.range' (b + 1) (c.coreCount - 1 - b) := by
    rw [List.range_eq_range', ← List.range'_succ, show c.coreCount = b + (c.coreCount - 1 - b + 1) by omega,
      ← List.range'_append_1, Nat.zero_add]
    congr 2; omega
  have hsplit' : List.range' 1 (c.coreCount - 1) =
      List.range' 1 b ++ List.range' (b + 1) (c.coreCount - 1 - b) := by
    rw [show c.coreCount - 1 = b + (c.coreCount - 1 - b) by omega, ← List.range'_append_1,
      Nat.add_comm 1 b]
    congr 2; omega
  have hkeep : ∀ i, i < c.coreCount → i ≠ b → (!c.isBsp i) = true := by
    intro i hi hne
    cases hc : c.isBsp i with
    | false => rfl
    | true => exact absurd ((hbsp i hi).mp hc) hne
  rw [hsplit, hsplit', List.filter_append, List.filter_cons_of_neg
    (by rw [(hbsp b hb).mpr rfl]; simp), List.map_append]
  congr 1
  · rw [List.filter_eq_self.mpr fun i hi ↦ ?_]
    · refine List.ext_getElem (by simp) fun i h1 h2 ↦ ?_
      simp only [List.length_range'] at h1
      simp only [List.getElem_range', List.getElem_map, apIndex]
      rw [if_pos (by omega)]; omega
    · obtain ⟨j, hj, rfl⟩ := List.mem_range'.mp hi
      exact hkeep _ (by omega) (by omega)
  · rw [List.filter_eq_self.mpr fun i hi ↦ ?_]
    · refine List.ext_getElem (by simp) fun i h1 h2 ↦ ?_
      simp only [List.getElem_range', List.getElem_map, apIndex]
      rw [if_neg (by omega)]
    · obtain ⟨j, hj, rfl⟩ := List.mem_range'.mp hi
      exact hkeep _ (by omega) (by omega)

/-- There is one stack for each core. -/
theorem CpuRun.length_coreStacks (h : CpuRun arch c C f t) (hb : b < c.coreCount)
    (hbsp : ∀ i < c.coreCount, c.isBsp i = true ↔ i = b) : t.coreStacks.length = c.coreCount := by
  rw [h.count, filter_isBsp hb hbsp, List.length_map, List.length_range']
  omega

/-- And so there are not too many of them. -/
theorem CpuRun.coreCount_le (h : CpuRun arch c C f t) (hC : ∀ a, C a → a < 2 ^ 56)
    (hb : b < c.coreCount) (hbsp : ∀ i < c.coreCount, c.isBsp i = true ↔ i = b) :
    c.coreCount ≤ 2 ^ 40 := by
  have hapart := h.inv.apart
  rw [h.held] at hapart
  have hsum := sum_length_le (n := 2 ^ 56) (List.pairwise_append.mp hapart).1 fun x hx a hxa ↦ by
    have htyped := h.inv.typed x (by rw [h.held]; exact List.mem_append_left _ hx) a hxa
    exact hC a ((h.inv.covers a).mp (by rw [htyped]; simp))
  have hlen : ((t.coreStacks.map stackAt).reverse.map fun x ↦ x.span.length).sum =
      t.coreStacks.length * (coreStackPgcnt * ptmPageGranularity) := by
    rw [List.map_reverse, List.sum_reverse, List.map_map]
    show (t.coreStacks.map fun _ ↦ coreStackPgcnt * ptmPageGranularity).sum = _
    rw [List.map_const', List.sum_replicate, smul_eq_mul]
  rw [hlen, h.length_coreStacks hb hbsp] at hsum
  unfold coreStackPgcnt ptmPageGranularity at hsum
  omega

end Layout

end LunarPrekernel
