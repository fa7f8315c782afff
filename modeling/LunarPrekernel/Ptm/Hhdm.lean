import LunarPrekernel.Ptm.Alongside

/-!
# The direct map

`ptm_create_hhdm_mappings` takes a snapshot of the physical memory map and maps every record of it
that is not bad at `hhdm_offset`, rounded outward to whole pages.  Both architectures do the same.

Two records can share a page, and the snapshot has records that are not live.  So the function is
right on some maps only: `HhdmClean` says on which.

* `Mapper.hhdm_iff` — the direct map is as it should be exactly if the map is `HhdmClean`.
* `hhdm` — the same for the two architectures.
-/

set_option autoImplicit false

namespace LunarPrekernel

open SpanMap Span PmmMap PageTable

/-! ## The code -/

/-- `PTM_FLAG_READ | PTM_FLAG_WRITE`. -/
def hhdmFlags : Nat := (1 <<< 2) ||| (1 <<< 1)

/-- The call of `ptm_map` for a record: its range is rounded outward to whole pages. -/
def hhdmCall (hhdmOffset : Nat) (entry : PmmMapEntry) : MapCall :=
  let skew := entry.base % ptmPageGranularity
  let length := if skew ≠ 0 then add64 entry.length skew else entry.length
  let base := if skew ≠ 0 then sub64 entry.base skew else entry.base
  let length := if length % ptmPageGranularity ≠ 0 then
    add64 length (sub64 ptmPageGranularity (length % ptmPageGranularity)) else length
  ⟨add64 hhdmOffset base, base, length, hhdmFlags⟩

section Code

variable (maps : PmmMapType → Bool)
  (ptmMap : Machine PmmState → MapCall → Except Stop (Machine PmmState)) (hhdmOffset : Nat)

/-- The loop of `ptm_create_hhdm_mappings`; `maps` are the types it does not pass over. -/
def hhdmLoop (entries : List PmmMapEntry) (s : Machine PmmState) :
    Except Stop (Machine PmmState) :=
  entries.foldlM (fun s entry ↦
    if maps entry.type then ptmMap s (hhdmCall hhdmOffset entry) else .ok s) s

/-- `ptm_create_hhdm_mappings`, on the `ptm_map` of an architecture. -/
def createHhdmMappings (s : Machine PmmState) : Except Stop (Machine PmmState) :=
  s.frames.createSnapshot.bind fun x ↦
    (hhdmLoop maps ptmMap hhdmOffset x.1.entries ⟨s.mem, x.2⟩).bind fun t ↦
      (t.frames.freeSnapshot x.1).map fun frames ↦ ⟨t.mem, frames⟩

end Code

/-- The types that `ptm_create_hhdm_mappings` lists on x86_64. -/
def X86.hhdmMaps : PmmMapType → Bool
  | .free | .used | .allocated | .bootloaderReclaimable | .efiReclaimable | .acpiReclaimable
  | .acpiNvs | .reserved => true
  | _ => false

/-- The types that `ptm_create_hhdm_mappings` does not `continue` at on riscv64. -/
def Riscv.hhdmMaps (type : PmmMapType) : Bool := type != .bad

/-- `ptm_create_hhdm_mappings` on x86_64. -/
def X86.ptmCreateHhdmMappings (src : FrameSource PmmState) (ptm : X86.Ptm) (hhdmOffset : Nat)
    (s : Machine PmmState) : Except Stop (Machine PmmState) :=
  createHhdmMappings X86.hhdmMaps (ptm.call src) hhdmOffset s

/-- `ptm_create_hhdm_mappings` on riscv64. -/
def Riscv.ptmCreateHhdmMappings (src : FrameSource PmmState) (ptm : Riscv.Ptm) (hhdmOffset : Nat)
    (s : Machine PmmState) : Except Stop (Machine PmmState) :=
  createHhdmMappings Riscv.hhdmMaps (ptm.call src) hhdmOffset s

/-! ## What it is for, and when it does that -/

/-- The page of `a` meets an entry that is not bad. -/
def Backed (l : List PmmMapEntry) (a : Nat) : Prop :=
  ∃ b type, b / ptmPageGranularity = a / ptmPageGranularity ∧ typeAt l b = some type ∧ type ≠ .bad

/-- The direct map of the memory below `limit`: a page that meets an entry that is not bad is there,
with the permissions `perm`, and no other page is. -/
def DirectMap {P : Type} (translate : Memory → Nat → Option (Nat × P)) (perm : P)
    (l : List PmmMapEntry) (hhdmOffset limit : Nat) : Except Stop (Machine PmmState) → Prop
  | .ok s => ∀ a, a < limit →
      (Backed l a → translate s.mem (hhdmOffset + a) = some (a, perm)) ∧
        (¬ Backed l a → translate s.mem (hhdmOffset + a) = none)
  | .error _ => False

theorem directMap_congr {P : Type} {translate translate' : Memory → Nat → Option (Nat × P)}
    {perm : P} {l : List PmmMapEntry} {hhdmOffset limit : Nat} {r : Except Stop (Machine PmmState)}
    (h : ∀ mem a, a < limit → translate mem (hhdmOffset + a) = translate' mem (hhdmOffset + a)) :
    DirectMap translate perm l hhdmOffset limit r ↔
      DirectMap translate' perm l hhdmOffset limit r := by
  cases r with
  | error e => rfl
  | ok t =>
    refine forall_congr' fun a ↦ forall_congr' fun ha ↦ ?_
    rw [h t.mem a ha]

/-- The calls for the records that are not bad. -/
def hhdmCalls (hhdmOffset : Nat) (entries : List PmmMapEntry) : List MapCall :=
  (entries.filter fun e ↦ e.type ≠ .bad).map (hhdmCall hhdmOffset)

/-- What the map `m` has to be like: its block for the snapshot is not at address 0, two slots are
dead, no page of a record lies in a larger page of an earlier record, and records that are not live
lie in pages that are mapped anyway.  `r` is what `pmm_alloc` gives for the snapshot. -/
structure HhdmClean (top levels hhdmOffset : Nat) (m : PmmMap) (r : Nat × PmmMap) : Prop where
  address : r.1 ≠ 0
  room : m.size + 2 ≤ pmmMapMaxEntries
  pages : (hhdmCalls hhdmOffset (snapshotEntries m r.2)).Pairwise
    fun c d ↦ ¬ c.Clash top levels d
  dead : ∀ e ∈ snapshotEntries m r.2, e.type ≠ .bad → ∀ a, e.Contains a → Backed m.live a

/-- There is enough memory: once the snapshot is made, no call of the allocator stops. -/
def Served (src : FrameSource PmmState) (maps : PmmMapType → Bool)
    (ptmMap : Machine PmmState → MapCall → Except Stop (Machine PmmState)) (hhdmOffset : Nat)
    (s : Machine PmmState) : Prop :=
  ∀ x, s.frames.createSnapshot = .ok x →
    (∀ e, hhdmLoop maps ptmMap hhdmOffset x.1.entries ⟨s.mem, x.2⟩ = .error e → ¬ src.Fails e) ∧
      ∀ t, hhdmLoop maps ptmMap hhdmOffset x.1.entries ⟨s.mem, x.2⟩ = .ok t →
        ∃ frames, t.frames.freeSnapshot x.1 = .ok frames

/-! ## The call for a record -/

section Call

variable {hhdmOffset limit : Nat} {e : PmmMapEntry}

/-- Rounding outward. -/
theorem hhdmCall_spec (hlimit : limit ≤ 2 ^ 56) (hpage : 4096 ∣ limit) (hoff : hhdmOffset < 2 ^ 64)
    (hend : hhdmOffset + limit ≤ 2 ^ 64) (he : e.stop ≤ limit)
    (hz : e = .zero ∨ 0 < e.length) :
    (hhdmCall hhdmOffset e).paddr = e.base / 4096 * 4096 ∧
      (hhdmCall hhdmOffset e).length =
        (e.stop + 4095) / 4096 * 4096 - e.base / 4096 * 4096 ∧
      (hhdmCall hhdmOffset e).vaddr = hhdmOffset + e.base / 4096 * 4096 := by
  have hstop : e.stop = e.base + e.length := rfl
  have hbase : e.base = 0 ∨ e.base < limit := by
    rcases hz with rfl | hz
    · exact Or.inl rfl
    · exact Or.inr (by omega)
  have hdown : (if e.base % ptmPageGranularity ≠ 0 then sub64 e.base (e.base % ptmPageGranularity)
      else e.base) = e.base / 4096 * 4096 := by
    rw [show ptmPageGranularity = 4096 from rfl]
    split
    · rw [sub64_eq (by omega) (by omega)]
      omega
    · omega
  have hlen : (if e.base % ptmPageGranularity ≠ 0 then
      add64 e.length (e.base % ptmPageGranularity) else e.length) =
        e.stop - e.base / 4096 * 4096 := by
    rw [show ptmPageGranularity = 4096 from rfl]
    split
    · rw [add64_eq (by omega)]
      omega
    · omega
  have hup : ∀ n, n ≤ limit → (if n % ptmPageGranularity ≠ 0 then
      add64 n (sub64 ptmPageGranularity (n % ptmPageGranularity)) else n) =
        (n + 4095) / 4096 * 4096 := by
    intro n hn
    rw [show ptmPageGranularity = 4096 from rfl]
    split
    · rw [sub64_eq (by omega) (by omega), add64_eq (by omega)]
      omega
    · omega
  unfold hhdmCall
  dsimp only
  rw [hdown, hlen, hup _ (by omega), add64_eq (by omega)]
  exact ⟨rfl, by omega, rfl⟩

/-- A record's call holds the addresses of the pages the record meets. -/
theorem mem_hhdmCall (hz : e = .zero ∨ 0 < e.length) (a : Nat) :
    e.base / 4096 * 4096 ≤ a ∧ a < (e.stop + 4095) / 4096 * 4096 ↔
      ∃ b, b / ptmPageGranularity = a / ptmPageGranularity ∧ e.Contains b := by
  have hstop : e.stop = e.base + e.length := rfl
  simp only [Contains, show ptmPageGranularity = 4096 from rfl]
  constructor
  · rintro ⟨h1, h2⟩
    have hpos : 0 < e.length := hz.resolve_left fun h ↦ by
      subst h
      simp only [PmmMapEntry.zero, Span.stop] at h1 h2
      omega
    rcases Nat.lt_or_ge (a / 4096 * 4096) e.base with hlt | hge
    · exact ⟨e.base, by omega, le_rfl, by omega⟩
    · exact ⟨a / 4096 * 4096, by omega, hge, by omega⟩
  · rintro ⟨b, hb, h1, h2⟩
    omega

end Call

/-! ## The loop -/

/-- The loop is a run of calls. -/
theorem hhdmLoop_eq {maps : PmmMapType → Bool} (hmaps : ∀ type, maps type = true ↔ type ≠ .bad)
    {P : Type} {src : FrameSource PmmState} (m : Mapper src P) (hhdmOffset : Nat)
    (entries : List PmmMapEntry) (s : Machine PmmState) :
    hhdmLoop maps m.call hhdmOffset entries s = m.run s (hhdmCalls hhdmOffset entries) := by
  induction entries generalizing s with
  | nil => rfl
  | cons e entries ih =>
    rw [hhdmLoop, List.foldlM_cons, hhdmCalls]
    by_cases he : e.type = .bad
    · have hm : maps e.type = false := by
        rw [Bool.eq_false_iff, ne_eq, hmaps]
        exact not_not.mpr he
      rw [hm, List.filter_cons_of_neg (by simpa using he)]
      exact ih s
    · rw [(hmaps e.type).mpr he, List.filter_cons_of_pos (by simpa using he), List.map_cons,
        Mapper.run, List.foldlM_cons, if_pos rfl]
      exact congrArg _ (funext fun t ↦ ih t)

theorem mem_hhdmCalls {hhdmOffset : Nat} {entries : List PmmMapEntry} {c : MapCall} :
    c ∈ hhdmCalls hhdmOffset entries ↔
      ∃ e ∈ entries, e.type ≠ .bad ∧ hhdmCall hhdmOffset e = c := by
  simp only [hhdmCalls, List.mem_map, List.mem_filter, decide_eq_true_eq, and_assoc]

/-- The flat map after calls that agree on the translation of `a`. -/
theorem Mapper.foldl_paint {A P : Type} {src : FrameSource A} (m : Mapper src P) (a : Nat)
    (v : Nat × P) (t : Option (Nat × P)) (cs : List MapCall)
    (h : ∀ c ∈ cs, c.Meets m.levels a →
      (c.paddr + (a % span m.levels - c.vaddr % span m.levels), m.perm c.flags) = v) :
    ((∃ c ∈ cs, c.Meets m.levels a) → cs.foldl (m.paint a) t = some v) ∧
      ((∀ c ∈ cs, ¬ c.Meets m.levels a) → cs.foldl (m.paint a) t = t) := by
  induction cs generalizing t with
  | nil => simp
  | cons c cs ih =>
    obtain ⟨h1, h2⟩ := ih (m.paint a t c) fun d hd ↦ h d (List.mem_cons_of_mem _ hd)
    rw [List.foldl_cons]
    constructor
    · rintro ⟨d, hd, hda⟩
      by_cases hrest : ∃ d ∈ cs, d.Meets m.levels a
      · exact h1 hrest
      · have hno : ∀ d ∈ cs, ¬ d.Meets m.levels a := fun d hd hda ↦ hrest ⟨d, hd, hda⟩
        rcases List.mem_cons.mp hd with rfl | hd
        · rw [h2 hno, Mapper.paint, if_pos hda, h d List.mem_cons_self hda]
        · exact absurd hda (hno d hd)
    · intro hno
      rw [h2 fun d hd ↦ hno d (List.mem_cons_of_mem _ hd), Mapper.paint,
        if_neg (hno c List.mem_cons_self)]

/-! ## The window -/

/-- The direct map of the memory below `limit` has room at `hhdm_offset`. -/
structure Mapper.Window {A P : Type} {src : FrameSource A} (m : Mapper src P)
    (hhdmOffset limit : Nat) : Prop where
  fits : m.Fits ⟨hhdmOffset, 0, limit, hhdmFlags⟩
  aligned : 4096 ∣ hhdmOffset
  whole : 4096 ∣ limit

/-- A record that lies below `limit`, or was never used. -/
def Record (limit : Nat) (e : PmmMapEntry) : Prop := e.stop ≤ limit ∧ (e = .zero ∨ 0 < e.length)

namespace Mapper.Window

variable {A P : Type} {src : FrameSource A} {m : Mapper src P} {hhdmOffset limit : Nat}
  {e : PmmMapEntry}

/-- Nothing wraps in the window. -/
theorem add_mod (h : m.Window hhdmOffset limit) {a : Nat} (ha : a < limit) :
    (hhdmOffset + a) % span m.levels = hhdmOffset % span m.levels + a := by
  have hwin := m.window h.fits
  dsimp only at hwin
  rw [← Nat.mod_add_mod, Nat.mod_eq_of_lt (by omega)]

theorem lt (h : m.Window hhdmOffset limit) (hpos : 0 < limit) : hhdmOffset < 2 ^ 64 := by
  have := m.end_le h.fits
  dsimp only at this
  omega

/-- The call for a record stays in the window. -/
theorem call (h : m.Window hhdmOffset limit) (hlimit : limit ≤ 2 ^ 56) (hpos : 0 < limit)
    (he : Record limit e) : m.Fits (hhdmCall hhdmOffset e) ∧ ¬ (hhdmCall hhdmOffset e).Unaligned ∧
      (∀ Q ∈ (hhdmCall hhdmOffset e).pages m.top, ∃ a < limit, Q.2 = hhdmOffset + a) ∧
      (hhdmCall hhdmOffset e).vaddr = hhdmOffset + (hhdmCall hhdmOffset e).paddr ∧
      (hhdmCall hhdmOffset e).paddr < limit ∧ (hhdmCall hhdmOffset e).flags = hhdmFlags := by
  have hend := m.end_le h.fits
  dsimp only at hend
  obtain ⟨h1, h2, h3⟩ := hhdmCall_spec hlimit h.whole (h.lt hpos) hend he.1 he.2
  have hstop : e.stop = e.base + e.length := rfl
  have hle := he.1
  have hwhole := h.whole
  have haligned := h.aligned
  have hbase : e.base / 4096 * 4096 < limit := by
    rcases he.2 with rfl | hlen
    · exact hpos
    · omega
  have hflags : (hhdmCall hhdmOffset e).flags = hhdmFlags := rfl
  generalize hhdmCall hhdmOffset e = c at *
  have hsum : c.paddr + c.length ≤ limit := by omega
  refine ⟨m.part h.fits ?_ ?_ ?_ ?_ hflags, ?_, fun Q hQ ↦ ?_, by omega, by omega, hflags⟩
  · dsimp only
    omega
  · dsimp only
    omega
  · omega
  · dsimp only
    omega
  · unfold MapCall.Unaligned ptmPageGranularity
    omega
  · obtain ⟨-, -, hQ1, hQ2⟩ := mem_pages (show 4096 ∣ c.vaddr by omega)
      (show 4096 ∣ c.paddr by omega) (show 4096 ∣ c.length by omega) hQ
    have hspan := span_pos Q.1
    exact ⟨Q.2 - hhdmOffset, by omega, by omega⟩

/-- Which addresses the call for a record holds. -/
theorem meets_iff (h : m.Window hhdmOffset limit) (hlimit : limit ≤ 2 ^ 56)
    (he : Record limit e) {a : Nat} (ha : a < limit) :
    (hhdmCall hhdmOffset e).Meets m.levels (hhdmOffset + a) ↔
      ∃ b, b / ptmPageGranularity = a / ptmPageGranularity ∧ e.Contains b := by
  have hpos : 0 < limit := by omega
  have hend := m.end_le h.fits
  dsimp only at hend
  obtain ⟨h1, h2, h3⟩ := hhdmCall_spec hlimit h.whole (h.lt hpos) hend he.1 he.2
  obtain ⟨-, -, -, hv, hp, -⟩ := h.call hlimit hpos he
  have hstop : e.stop = e.base + e.length := rfl
  rw [← mem_hhdmCall he.2 a, MapCall.Meets, h.add_mod ha, hv, h.add_mod hp, h1, h2]
  omega

/-- What the call for a record makes of an address. -/
theorem value (h : m.Window hhdmOffset limit) (hlimit : limit ≤ 2 ^ 56)
    (he : Record limit e) {a : Nat} (ha : a < limit)
    (hm : (hhdmCall hhdmOffset e).Meets m.levels (hhdmOffset + a)) :
    ((hhdmCall hhdmOffset e).paddr +
        ((hhdmOffset + a) % span m.levels - (hhdmCall hhdmOffset e).vaddr % span m.levels),
      m.perm (hhdmCall hhdmOffset e).flags) = (a, m.perm hhdmFlags) := by
  obtain ⟨-, -, -, hv, hp, hf⟩ := h.call hlimit (by omega) he
  rw [MapCall.Meets, h.add_mod ha, hv, h.add_mod hp] at hm
  rw [h.add_mod ha, hv, h.add_mod hp, hf]
  congr 1
  omega

end Mapper.Window

/-! ## The direct map -/

section Main

variable {limit : Nat} {hlimit : limit ≤ 2 ^ 56} {P : Type}
  {m : Mapper (pmmFrames limit hlimit) P} {s : Machine PmmState} {U : Nat → Prop}
  {hhdmOffset : Nat} {r : Nat × PmmMap}

/-- What is known once the block of the snapshot has been handed out. -/
structure AfterAlloc (limit : Nat) (s : PmmState) (r : Nat × PmmMap) : Prop where
  pos : 0 < limit
  wf : r.2.Wf
  size_le : r.2.size ≤ s.map.size + 2
  record : ∀ e ∈ snapshotEntries s.map r.2, Record limit e
  /-- The block was free, and is allocated now; neither is bad. -/
  backed : ∀ a type, typeAt s.map.live a = some type → type ≠ .bad →
    ∃ type', typeAt r.2.live a = some type' ∧ type' ≠ .bad

theorem afterAlloc {C : Nat → Prop} {s : PmmState} (h : s.Inv C) (hC : ∀ a, C a → a < limit)
    (hlimit : limit ≤ 2 ^ 56)
    (hr : pmmAlloc s.map (snapshotBytes s.map / ptmPageGranularity) = .ok r) :
    AfterAlloc limit s r ∧
      (s.hand (snapshotBytes s.map / ptmPageGranularity) .allocated r).Inv C := by
  have hserves := h.serves_snapshot fun a ha ↦ (hC a ha).trans_le hlimit
  have hle := pmmAllocExt_size_le h hserves hr
  rcases h.pmmAllocExt_spec hserves with ⟨r', hr', hinv, hh⟩ | ⟨e, he, -⟩
  swap
  · rw [pmmAlloc, he] at hr
    cases hr
  obtain rfl : r' = r := by
    rw [pmmAlloc, hr'] at hr
    exact Except.ok.inj hr
  have hpos : 0 < snapshotBytes s.map / ptmPageGranularity * ptmPageGranularity := by
    rw [snapshotBytes_eq]
    unfold ptmPageGranularity
    omega
  have hheld : (⟨r'.1, snapshotBytes s.map / ptmPageGranularity, .allocated⟩ : Allocation) ∈
      (s.hand (snapshotBytes s.map / ptmPageGranularity) .allocated r').held :=
    List.mem_cons_self
  have hblock := hinv.held_stop_le hC hheld hpos
  have hcover : ∀ e : PmmMapEntry, 0 < e.length →
      (∀ a, e.Contains a → typeAt r'.2.live a ≠ none) → e.stop ≤ limit := by
    intro e hlen hin
    have hstop : e.stop = e.base + e.length := rfl
    have := hC _ ((hinv.covers (e.stop - 1)).mp (hin _ ⟨by omega, by omega⟩))
    omega
  refine ⟨⟨?_, hinv.wf, hle, fun e he ↦ ?_, fun a type ha hbad ↦ ?_⟩, hinv⟩
  · simp only [Allocation.span, Span.stop] at hblock
    omega
  · rcases mem_snapshotEntries hinv.wf he with he | rfl | ⟨hlen, hin⟩
    · have hlen := hinv.wf.tiled.pos e he
      exact ⟨hcover e hlen fun a ha ↦ typeAt_isSome.mpr ⟨e, he, ha⟩, Or.inr hlen⟩
    · exact ⟨Nat.zero_le _, Or.inl rfl⟩
    · exact ⟨hcover e hlen hin, Or.inr hlen⟩
  · have ht := hh.typeAt_eq a
    by_cases hin : (⟨r'.1, snapshotBytes s.map / ptmPageGranularity, .allocated⟩ :
        Allocation).Contains a
    · rw [if_pos hin] at ht
      exact ⟨_, ht, by simp⟩
    · rw [if_neg hin, ha] at ht
      exact ⟨_, ht, hbad⟩

/-- The loop on the records of the snapshot: whether it returns, and what it leaves behind. -/
theorem Mapper.Inv.hhdmRun {t : Machine PmmState} (h : m.Inv t U)
    (hw : m.Window hhdmOffset limit) (hpos : 0 < limit)
    (hempty : ∀ a, a < limit → m.translate t.mem (hhdmOffset + a) = none)
    {entries : List PmmMapEntry} (hrec : ∀ e ∈ entries, Record limit e) :
    (∀ e, m.run t (hhdmCalls hhdmOffset entries) = .error e → (pmmFrames limit hlimit).Fails e ∨
      ¬ (hhdmCalls hhdmOffset entries).Pairwise fun c d ↦ ¬ c.Clash m.top m.levels d) ∧
    ∀ t', m.run t (hhdmCalls hhdmOffset entries) = .ok t' →
      (hhdmCalls hhdmOffset entries).Pairwise (fun c d ↦ ¬ c.Clash m.top m.levels d) ∧
      ∀ a, a < limit →
        ((∃ e ∈ entries, e.type ≠ .bad ∧
            ∃ b, b / ptmPageGranularity = a / ptmPageGranularity ∧ e.Contains b) →
          m.translate t'.mem (hhdmOffset + a) = some (a, m.perm hhdmFlags)) ∧
        ((∀ e ∈ entries, e.type ≠ .bad →
            ¬ ∃ b, b / ptmPageGranularity = a / ptmPageGranularity ∧ e.Contains b) →
          m.translate t'.mem (hhdmOffset + a) = none) := by
  have hcalls : ∀ c ∈ hhdmCalls hhdmOffset entries, m.Fits c ∧ ¬ c.Unaligned ∧
      ∀ Q ∈ c.pages m.top, ∃ a < limit, Q.2 = hhdmOffset + a := by
    intro c hc
    obtain ⟨e, he, -, rfl⟩ := mem_hhdmCalls.mp hc
    obtain ⟨h1, h2, h3, -⟩ := hw.call hlimit hpos (hrec e he)
    exact ⟨h1, h2, h3⟩
  have hlaid : m.Laid (fun b ↦ ∃ a < limit, b = hhdmOffset + a) [] t.mem := by
    refine Mapper.Laid.nil ?_
    rintro b ⟨a, ha, rfl⟩
    exact hempty a ha
  obtain ⟨hok, herr⟩ := hlaid.run h hcalls
  refine ⟨fun e he ↦ (herr e he).imp_right fun hno hp ↦ hno ⟨by simp, hp⟩, fun t' ht' ↦ ?_⟩
  refine ⟨(hok t' ht').2, fun a ha ↦ ?_⟩
  -- all calls agree on what `a` is mapped to
  obtain ⟨hin, hout⟩ := m.foldl_paint (hhdmOffset + a) (a, m.perm hhdmFlags)
    (m.translate t.mem (hhdmOffset + a)) (hhdmCalls hhdmOffset entries) fun c hc hmeets ↦ by
      obtain ⟨e, he, -, rfl⟩ := mem_hhdmCalls.mp hc
      exact hw.value hlimit (hrec e he) ha hmeets
  rw [h.translate_run (fun c hc ↦ (hcalls c hc).1) ht']
  constructor
  · rintro ⟨e, he, hbad, hb⟩
    exact hin ⟨_, mem_hhdmCalls.mpr ⟨e, he, hbad, rfl⟩, (hw.meets_iff hlimit (hrec e he) ha).mpr hb⟩
  · intro hno
    rw [hout, hempty a ha]
    intro c hc hmeets
    obtain ⟨e, he, hbad, rfl⟩ := mem_hhdmCalls.mp hc
    exact hno e he hbad ((hw.meets_iff hlimit (hrec e he) ha).mp hmeets)

/-- **When the direct map is right.**  In an empty window and with enough memory, it is as it should
be exactly if the physical memory map is clean. -/
theorem Mapper.hhdm_iff {maps : PmmMapType → Bool}
    (hmaps : ∀ type, maps type = true ↔ type ≠ .bad) (h : m.Inv s U)
    (hw : m.Window hhdmOffset limit)
    (hempty : ∀ a, a < limit → m.translate s.mem (hhdmOffset + a) = none)
    (hr : pmmAlloc s.frames.map (snapshotBytes s.frames.map / ptmPageGranularity) = .ok r)
    (hserved : Served (pmmFrames limit hlimit) maps m.call hhdmOffset s) :
    DirectMap m.translate (m.perm hhdmFlags) s.frames.map.live hhdmOffset limit
        (createHhdmMappings maps m.call hhdmOffset s) ↔
      HhdmClean m.top m.levels hhdmOffset s.frames.map r := by
  obtain ⟨C, hinv, hC, hU⟩ := h.owns
  obtain ⟨hafter, hhand⟩ := afterAlloc hinv hC hlimit hr
  have hsnap := hinv.createSnapshot_eq (fun a ha ↦ (hC a ha).trans_le hlimit) hr
  have ht := h.hand hC hhand hU
  by_cases h0 : r.1 = 0
  · rw [if_pos h0] at hsnap
    rw [createHhdmMappings, hsnap]
    exact ⟨False.elim, fun hc ↦ hc.address h0⟩
  rw [if_neg h0] at hsnap
  by_cases hroom : pmmMapMaxEntries < s.frames.map.size + 2
  · rw [if_pos hroom] at hsnap
    rw [createHhdmMappings, hsnap]
    exact ⟨False.elim, fun hc ↦ absurd hc.room (by omega)⟩
  rw [if_neg hroom] at hsnap
  obtain ⟨htables, hfree⟩ := hserved _ hsnap
  obtain ⟨hfail, hdone⟩ := ht.hhdmRun hw hafter.pos hempty hafter.record
  rw [createHhdmMappings, hsnap]
  dsimp only [Except.bind]
  rw [hhdmLoop_eq hmaps] at htables hfree ⊢
  cases hrun : m.run ⟨s.mem, s.frames.hand
      (snapshotBytes s.frames.map / ptmPageGranularity) .allocated r⟩
      (hhdmCalls hhdmOffset (snapshotEntries s.frames.map r.2)) with
  | error e =>
    exact ⟨False.elim, fun hc ↦ (hfail e hrun).elim (htables e hrun) fun hno ↦ hno hc.pages⟩
  | ok t' =>
    obtain ⟨frames, hframes⟩ := hfree t' hrun
    obtain ⟨hpages, hmap⟩ := hdone t' hrun
    dsimp only
    rw [hframes]
    constructor
    · refine fun hd ↦ ⟨h0, by omega, hpages, fun e he hbad a ha ↦ ?_⟩
      have hlt : a < limit := ha.2.trans_le (hafter.record e he).1
      by_contra hno
      have hsome := (hmap a hlt).1 ⟨e, he, hbad, a, rfl, ha⟩
      rw [(hd a hlt).2 hno] at hsome
      cases hsome
    · refine fun hc a ha ↦ ⟨fun hb ↦ (hmap a ha).1 ?_, fun hb ↦ (hmap a ha).2 ?_⟩
      · obtain ⟨b, type, hba, htype, hbad⟩ := hb
        obtain ⟨type', htype', hbad'⟩ := hafter.backed b type htype hbad
        obtain ⟨e, he, heb, rfl⟩ := hafter.wf.tiled.typeAt_eq_some.mp htype'
        exact ⟨e, mem_snapshotEntries_of_live hafter.size_le he, hbad', b, hba, heb⟩
      · rintro e he hbad ⟨b, hba, heb⟩
        obtain ⟨b', type, hb', htype, hbad'⟩ := hc.dead e he hbad b heb
        exact hb ⟨b', type, hb'.trans hba, htype, hbad'⟩

end Main

/-! ## The two architectures -/

theorem X86.hhdmMaps_iff (type : PmmMapType) : X86.hhdmMaps type = true ↔ type ≠ .bad := by
  cases type <;> simp [X86.hhdmMaps]

theorem Riscv.hhdmMaps_iff (type : PmmMapType) : Riscv.hhdmMaps type = true ↔ type ≠ .bad := by
  rw [Riscv.hhdmMaps, bne_iff_ne]

/-- In a window, all addresses are canonical. -/
theorem X86.Ptm.translate_window {ptm : X86.Ptm} {hhdmOffset limit flags : Nat}
    (hfits : X86.Fits ptm.levelCount ⟨hhdmOffset, 0, limit, flags⟩) {a : Nat} (ha : a < limit)
    (mem : Memory) : ptm.translate mem (hhdmOffset + a) =
      PageTable.translate X86.format mem ptm.levelCount ptm.tplt (hhdmOffset + a) := by
  have hin : MapCall.Contains ⟨hhdmOffset, 0, limit, flags⟩ (hhdmOffset + a) :=
    ⟨Nat.le_add_right _ _, Nat.add_lt_add_left ha _⟩
  rw [X86.Ptm.translate, if_pos (hfits.canonical hin)]

/-- What holds when the direct map of x86_64 is made: after `ptm_init` there may have been calls of
`ptm_map`, the window is canonical and nothing is mapped there yet, and there is enough memory. -/
structure X86.HhdmStart (limit : Nat) (hlimit : limit ≤ 2 ^ 56) (hhdmOffset : Nat) (ptm : X86.Ptm)
    (s : Machine PmmState) : Prop where
  whole : 4096 ∣ limit
  aligned : 4096 ∣ hhdmOffset
  fits : X86.Fits ptm.levelCount ⟨hhdmOffset, 0, limit, hhdmFlags⟩
  tables : ∃ (s₀ s₁ : Machine PmmState) (U : Nat → Prop) (la57 cr4 nx pdpe1gb : Bool)
    (cs : List MapCall), PmmOwns limit s₀.frames U ∧
      X86.ptmInit (pmmFrames limit hlimit) la57 cr4 nx pdpe1gb s₀ = .ok (ptm, s₁) ∧
      (∀ c ∈ cs, X86.Fits ptm.levelCount c) ∧ ptm.run (pmmFrames limit hlimit) s₁ cs = .ok s
  unmapped : ∀ a, a < limit → ptm.translate s.mem (hhdmOffset + a) = none
  served : Served (pmmFrames limit hlimit) X86.hhdmMaps (ptm.call (pmmFrames limit hlimit))
    hhdmOffset s

/-- What holds when the direct map of riscv64 is made. -/
structure Riscv.HhdmStart (limit : Nat) (hlimit : limit ≤ 2 ^ 56) (hhdmOffset : Nat)
    (ptm : Riscv.Ptm) (s : Machine PmmState) : Prop where
  whole : 4096 ∣ limit
  aligned : 4096 ∣ hhdmOffset
  levels : 3 ≤ ptm.levelCount ∧ ptm.levelCount ≤ 5
  fits : Riscv.Fits ptm.levelCount ⟨hhdmOffset, 0, limit, hhdmFlags⟩
  tables : ∃ (s₀ s₁ : Machine PmmState) (U : Nat → Prop) (acpiLevels dtbLevels : Nat)
    (cs : List MapCall), PmmOwns limit s₀.frames U ∧
      Riscv.ptmInit (pmmFrames limit hlimit) acpiLevels dtbLevels s₀ = .ok (ptm, s₁) ∧
      (∀ c ∈ cs, Riscv.Fits ptm.levelCount c) ∧ ptm.run (pmmFrames limit hlimit) s₁ cs = .ok s
  unmapped : ∀ a, a < limit → ptm.translate s.mem (hhdmOffset + a) = none
  served : Served (pmmFrames limit hlimit) Riscv.hhdmMaps (ptm.call (pmmFrames limit hlimit))
    hhdmOffset s

section Arch

variable {limit : Nat} {hlimit : limit ≤ 2 ^ 56} {hhdmOffset : Nat} {s : Machine PmmState}
  {r : Nat × PmmMap}

theorem X86.HhdmStart.iff {ptm : X86.Ptm} (h : X86.HhdmStart limit hlimit hhdmOffset ptm s)
    (hr : pmmAlloc s.frames.map (snapshotBytes s.frames.map / ptmPageGranularity) = .ok r) :
    DirectMap ptm.translate (ptm.perm hhdmFlags) s.frames.map.live hhdmOffset limit
        (X86.ptmCreateHhdmMappings (pmmFrames limit hlimit) ptm hhdmOffset s) ↔
      HhdmClean ptm.top ptm.levelCount hhdmOffset s.frames.map r := by
  obtain ⟨s₀, s₁, U, la57, cr4, nx, pdpe1gb, cs, hs, hi, hcs, hrun⟩ := h.tables
  have h51 : (pmmFrames limit hlimit).limit ≤ 2 ^ 51 := by
    have := h.fits.2
    dsimp only at this
    show limit ≤ 2 ^ 51
    omega
  obtain ⟨⟨U₁, h₁⟩, -⟩ := X86.ptmInit_inv h51 hs hi
  obtain ⟨U', hinv⟩ := h₁.run hcs hrun
  have hiff := Mapper.hhdm_iff X86.hhdmMaps_iff hinv ⟨h.fits, h.aligned, h.whole⟩
    (fun a ha ↦ (X86.Ptm.translate_window h.fits ha _).symm.trans (h.unmapped a ha)) hr h.served
  exact (directMap_congr fun mem a ha ↦ X86.Ptm.translate_window h.fits ha mem).trans hiff

theorem Riscv.HhdmStart.iff {ptm : Riscv.Ptm}
    (h : Riscv.HhdmStart limit hlimit hhdmOffset ptm s)
    (hr : pmmAlloc s.frames.map (snapshotBytes s.frames.map / ptmPageGranularity) = .ok r) :
    DirectMap ptm.translate (Riscv.permOf hhdmFlags) s.frames.map.live hhdmOffset limit
        (Riscv.ptmCreateHhdmMappings (pmmFrames limit hlimit) ptm hhdmOffset s) ↔
      HhdmClean 2 ptm.levelCount hhdmOffset s.frames.map r := by
  obtain ⟨s₀, s₁, U, acpiLevels, dtbLevels, cs, hs, hi, hcs, hrun⟩ := h.tables
  obtain ⟨⟨U₁, h₁⟩, -⟩ :=
    Riscv.ptmInit_inv (show (pmmFrames limit hlimit).limit ≤ 2 ^ 56 from hlimit) hs hi h.levels
  obtain ⟨U', hinv⟩ := h₁.run hcs hrun
  exact Mapper.hhdm_iff Riscv.hhdmMaps_iff hinv ⟨h.fits, h.aligned, h.whole⟩ h.unmapped hr h.served

/-- The direct map can be written, and on riscv64 it can be read too. -/
example (ptm : X86.Ptm) : (ptm.perm hhdmFlags).write = true := rfl

example : Riscv.permOf hhdmFlags = ⟨true, true, false⟩ := rfl

/-! ## Runs right after `ptm_init` -/

theorem limit_le : 2 ^ 40 ≤ 2 ^ 56 := by norm_num

/-- Nothing is mapped after `ptm_init`. -/
theorem X86.HhdmStart.of_init {s₀ : Machine PmmState} {U : Nat → Prop} {ptm : X86.Ptm}
    {la57 cr4 nx pdpe1gb : Bool} (hs : PmmOwns limit s₀.frames U)
    (hi : X86.ptmInit (pmmFrames limit hlimit) la57 cr4 nx pdpe1gb s₀ = .ok (ptm, s))
    (hwhole : 4096 ∣ limit) (haligned : 4096 ∣ hhdmOffset)
    (hfits : X86.Fits ptm.levelCount ⟨hhdmOffset, 0, limit, hhdmFlags⟩)
    (hserved : Served (pmmFrames limit hlimit) X86.hhdmMaps (ptm.call (pmmFrames limit hlimit))
      hhdmOffset s) : X86.HhdmStart limit hlimit hhdmOffset ptm s where
  whole := hwhole
  aligned := haligned
  fits := hfits
  tables := ⟨s₀, s, U, la57, cr4, nx, pdpe1gb, [], hs, hi, by simp, rfl⟩
  unmapped a ha := by
    have h51 : (pmmFrames limit hlimit).limit ≤ 2 ^ 51 := by
      have := hfits.2
      dsimp only at this
      show limit ≤ 2 ^ 51
      omega
    rw [X86.Ptm.translate_window hfits ha]
    exact (X86.ptmInit_inv h51 hs hi).2 _
  served := hserved

theorem Riscv.HhdmStart.of_init {s₀ : Machine PmmState} {U : Nat → Prop} {ptm : Riscv.Ptm}
    {acpiLevels dtbLevels : Nat} (hs : PmmOwns limit s₀.frames U)
    (hi : Riscv.ptmInit (pmmFrames limit hlimit) acpiLevels dtbLevels s₀ = .ok (ptm, s))
    (hlevels : 3 ≤ ptm.levelCount ∧ ptm.levelCount ≤ 5)
    (hwhole : 4096 ∣ limit) (haligned : 4096 ∣ hhdmOffset)
    (hfits : Riscv.Fits ptm.levelCount ⟨hhdmOffset, 0, limit, hhdmFlags⟩)
    (hserved : Served (pmmFrames limit hlimit) Riscv.hhdmMaps (ptm.call (pmmFrames limit hlimit))
      hhdmOffset s) : Riscv.HhdmStart limit hlimit hhdmOffset ptm s where
  whole := hwhole
  aligned := haligned
  levels := hlevels
  fits := hfits
  tables := ⟨s₀, s, U, acpiLevels, dtbLevels, [], hs, hi, by simp, rfl⟩
  unmapped a _ :=
    (Riscv.ptmInit_inv (show (pmmFrames limit hlimit).limit ≤ 2 ^ 56 from hlimit) hs hi
      hlevels).2 _
  served := hserved

end Arch

end LunarPrekernel
