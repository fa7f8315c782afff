import LunarPrekernel.Ptm.Mapper
import Mathlib.Data.Nat.Bitwise

/-!
# Page tables on riscv64

`arch/riscv64/ptm.c`.  A mapping is cut into pages of 4 KiB, 2 MiB or 1 GiB, as on x86_64.  An entry
has no bit that tells a leaf from a table: it is a leaf if it allows anything, and `map_page` panics
when it meets one on the way down.

`format` is the format the hart reads, the same at every level of Sv39, Sv48 and Sv57.
`ptmMapLoop_outcome` says that `ptm_map` is a `PageTable.MappedRange` of it, or one of the ways it
can end otherwise.
-/

set_option autoImplicit false

namespace LunarPrekernel.Riscv

open PageTable

/-! ## The code -/

/-- `PTE_V`. -/
def pteV : Nat := 1 <<< 0
/-- `PTE_R`. -/
def pteR : Nat := 1 <<< 1
/-- `PTE_W`. -/
def pteW : Nat := 1 <<< 2
/-- `PTE_X`. -/
def pteX : Nat := 1 <<< 3
/-- `PTE_PPN_SHIFT`. -/
def ptePpnShift : Nat := 10
/-- `PTE_PPN_MASK`. -/
def ptePpnMask : Nat := (1 <<< 44) - 1

/-- `PA_TO_PPN`. -/
def paToPpn (pa : Nat) : Nat := (pa >>> 12) &&& ptePpnMask
/-- `PTE_TO_PA`. -/
def pteToPa (pte : Nat) : Nat := ((pte >>> ptePpnShift) <<< 12) % 2 ^ 64
/-- `VADDR_VPN`. -/
def vaddrVpn (vaddr level : Nat) : Nat := (vaddr >>> (12 + 9 * (level - 1))) &&& 0x1FF
/-- `PAGE_SIZE_AT_LEVEL`. -/
def pageSizeAtLevel (level : Nat) : Nat := ptmPageGranularity <<< (9 * (level - 1))

/-- `g_ptm`; `g_level_count` is its number of levels. -/
structure Ptm where
  tplt : Nat
  levelCount : Nat

/-- `leaf_flags` in `map_page`. -/
def leafFlags (flags : Nat) : Nat :=
  let leafFlags := pteV
  let leafFlags := if flagRead flags then leafFlags ||| pteR else leafFlags
  let leafFlags := if flagWrite flags then leafFlags ||| pteW else leafFlags
  if flagExec flags then leafFlags ||| pteX else leafFlags

section Code

variable {A : Type} (src : FrameSource A)

/-- The loop body of `map_page`: the table it goes on with. -/
def enter (vaddr level table : Nat) (s : Machine A) : Except Stop (Nat × Machine A) :=
  let idx := vaddrVpn vaddr level
  let entry := word s.mem table idx
  if entry &&& pteV = 0 then do
    let (childPhys, frames) ← src.alloc s.frames
    let mem := s.mem.fill childPhys ptmPageGranularity 0
    let entry := (paToPpn childPhys <<< ptePpnShift) ||| pteV
    .ok (pteToPa entry, ⟨setWord mem table idx entry, frames⟩)
  else if entry &&& (pteR ||| pteW ||| pteX) ≠ 0 then
    .error (.panic "ptm: walked into existing leaf PTE at level %d (vaddr=0x%lx)" [level, vaddr])
  else
    .ok (pteToPa entry, s)

/-- The loop of `map_page` with `d` levels to go before the target level, and what follows it. -/
def mapFrom (vaddr paddr targetLevel flags : Nat) :
    Nat → Nat → Machine A → Except Stop (Machine A)
  | 0, table, s =>
    .ok { s with
      mem := setWord s.mem table (vaddrVpn vaddr targetLevel)
        ((paToPpn paddr <<< ptePpnShift) ||| leafFlags flags) }
  | d + 1, table, s =>
    (enter src vaddr (targetLevel + (d + 1)) table s).bind fun r ↦
      mapFrom vaddr paddr targetLevel flags d r.1 r.2

/-- `map_page`. -/
def mapPage (rootPa totalLevels vaddr paddr targetLevel flags : Nat) (s : Machine A) :
    Except Stop (Machine A) :=
  if targetLevel < 1 ∨ totalLevels < targetLevel then
    .error (.panic "ptm: invalid target_level %d (total=%zu)" [targetLevel, totalLevels])
  else mapFrom src vaddr paddr targetLevel flags (totalLevels - targetLevel) rootPa s

/-- The loop of `choose_target_level`, from `level` down. -/
def chooseLevelFrom (vaddr paddr remain : Nat) : Nat → Nat
  | 0 => 1
  | level + 1 =>
    if 1 < level + 1 then
      let pgsz := pageSizeAtLevel (level + 1)
      if vaddr % pgsz = 0 ∧ paddr % pgsz = 0 ∧ pgsz ≤ remain then level + 1
      else chooseLevelFrom vaddr paddr remain level
    else 1

/-- `choose_target_level`. -/
def chooseTargetLevel (vaddr paddr remain maxLevels : Nat) : Nat :=
  chooseLevelFrom vaddr paddr remain (min maxLevels 3)

/-- The loop of `ptm_map`. -/
def ptmMapLoop (ptm : Ptm) (length flags : Nat) :
    Nat → Nat → Nat → Nat → Machine A → Except Stop (Machine A)
  | 0, _, _, _, _ => .error .fuel
  | fuel + 1, vaddr, paddr, offset, s =>
    if offset < length then
      let tl := chooseTargetLevel vaddr paddr (sub64 length offset) ptm.levelCount
      let pgsz := pageSizeAtLevel tl
      (mapPage src ptm.tplt ptm.levelCount vaddr paddr tl flags s).bind fun s ↦
        ptmMapLoop ptm length flags fuel (add64 vaddr pgsz) (add64 paddr pgsz) (add64 offset pgsz) s
    else .ok s

/-- `ptm_map`.  Every round of the loop maps at least 4 KiB. -/
def ptmMap (ptm : Ptm) (vaddr paddr length flags : Nat) (s : Machine A) :
    Except Stop (Machine A) :=
  if paddr % ptmPageGranularity ≠ 0 ∨ vaddr % ptmPageGranularity ≠ 0 ∨
      length % ptmPageGranularity ≠ 0 then
    .error (.panic "ptm_map: unaligned (vaddr=0x%lx paddr=0x%lx len=0x%lx)" [vaddr, paddr, length])
  else ptmMapLoop src ptm length flags (length / ptmPageGranularity + 1) vaddr paddr 0 s

/-- `detect_max_level_count`; the arguments are what ACPI and the device tree say. -/
def detectMaxLevelCount (acpiLevels dtbLevels : Nat) : Except Stop Nat :=
  if acpiLevels ≠ 0 then .ok acpiLevels
  else if dtbLevels = 0 then .error (.panic "ptm: failed to detect supported paging modes" [])
  else .ok dtbLevels

/-- `ptm_init`. -/
def ptmInit (acpiLevels dtbLevels : Nat) (s : Machine A) : Except Stop (Ptm × Machine A) :=
  (detectMaxLevelCount acpiLevels dtbLevels).bind fun levelCount ↦
    (src.alloc s.frames).map fun r ↦
      (⟨r.1, levelCount⟩, ⟨s.mem.fill r.1 ptmPageGranularity 0, r.2⟩)

end Code

/-! ## What the hart reads -/

/-- What a leaf allows. -/
structure Perm where
  read : Bool
  write : Bool
  exec : Bool
deriving DecidableEq, Repr

/-- The physical page number in an entry. -/
def ppn (w : Nat) : Nat := w / 2 ^ 10 % 2 ^ 44

/-- The entry allows something, and is a leaf for that. -/
def allows (w : Nat) : Bool := w.testBit 1 || w.testBit 2 || w.testBit 3

/-- The format of the tables.  The bits from 54 up are reserved, an entry that can be written but
not read is too, and a leaf above the lowest level has to be aligned.  Table entries have no
permissions of their own. -/
def format : Format Perm where
  decode h w :=
    if !w.testBit 0 then .absent
    else if w / 2 ^ 54 ≠ 0 ∨ (w.testBit 2 ∧ !w.testBit 1) then .bad
    else if !allows w then
      if h = 0 then .bad else .table (ppn w * 4096) ⟨false, false, false⟩
    else if ppn w % 512 ^ h ≠ 0 then .bad
    else .leaf (ppn w * 4096) ⟨w.testBit 1, w.testBit 2, w.testBit 3⟩
  meet _ q := q
  decode_zero h := by simp
  decode_lowest w g p := by
    split
    · simp
    · split
      · simp
      · split
        · simp
        · split <;> simp
  table_aligned h w g p := by
    intro hd
    split at hd
    · cases hd
    split at hd
    · cases hd
    split at hd
    · split at hd
      · cases hd
      · cases hd
        exact Nat.dvd_mul_left _ _
    · split at hd
      · cases hd
      · cases hd

/-! ## The bits of an entry -/

theorem span_eq_mul (h : Nat) : span h = 512 ^ h * 4096 := by
  induction h with
  | zero => rfl
  | succ h ih =>
    rw [span, ih]
    ring

theorem vaddrVpn_eq (a h : Nat) : vaddrVpn a (h + 1) = index h a := by
  rw [vaddrVpn, index, span_eq, Nat.shiftRight_eq_div_pow,
    show (0x1FF : Nat) = 2 ^ 9 - 1 by norm_num, Nat.and_two_pow_sub_one_eq_mod,
    Nat.add_sub_cancel]

theorem pageSizeAtLevel_eq (h : Nat) : pageSizeAtLevel (h + 1) = span h := by
  rw [pageSizeAtLevel, span_eq, Nat.add_sub_cancel, Nat.shiftLeft_eq, ptmPageGranularity,
    show (4096 : Nat) = 2 ^ 12 by norm_num, ← pow_add]

/-- An entry: a physical page number, and what stands below it. -/
theorem entry_eq {pa b : Nat} (hlt : pa < 2 ^ 56) (hb : b < 2 ^ 10) :
    (paToPpn pa <<< ptePpnShift) ||| b = 2 ^ 10 * (pa / 4096) + b := by
  rw [paToPpn, ptePpnMask, ptePpnShift, Nat.one_shiftLeft, Nat.and_two_pow_sub_one_eq_mod,
    Nat.shiftRight_eq_div_pow, show 2 ^ 12 = 4096 by norm_num, Nat.mod_eq_of_lt (by omega),
    ← Nat.shiftLeft_add_eq_or_of_lt hb, Nat.shiftLeft_eq, Nat.mul_comm]

section Entry

variable {x b : Nat}

theorem ppn_entry (hx : x < 2 ^ 44) (hb : b < 2 ^ 10) : ppn (2 ^ 10 * x + b) = x := by
  rw [ppn]
  omega

theorem testBit_entry (hb : b < 2 ^ 10) {i : Nat} (hi : i < 10) :
    (2 ^ 10 * x + b).testBit i = b.testBit i := by
  rw [Nat.testBit_two_pow_mul_add _ hb, if_pos hi]

theorem entry_lt (hx : x < 2 ^ 44) (hb : b < 2 ^ 10) : 2 ^ 10 * x + b < 2 ^ 64 := by omega

theorem entry_reserved (hx : x < 2 ^ 44) (hb : b < 2 ^ 10) : (2 ^ 10 * x + b) / 2 ^ 54 = 0 := by
  omega

end Entry

theorem leafFlags_lt (flags : Nat) : leafFlags flags < 2 ^ 10 := by
  unfold leafFlags
  cases flagRead flags <;> cases flagWrite flags <;> cases flagExec flags <;> decide

theorem testBit_leafFlags (flags : Nat) : (leafFlags flags).testBit 0 = true ∧
    (leafFlags flags).testBit 1 = flagRead flags ∧
    (leafFlags flags).testBit 2 = flagWrite flags ∧
    (leafFlags flags).testBit 3 = flagExec flags := by
  unfold leafFlags
  cases flagRead flags <;> cases flagWrite flags <;> cases flagExec flags <;> decide

theorem and_pteV (w : Nat) : w &&& pteV = 0 ↔ w.testBit 0 = false := by
  rw [pteV, Nat.one_shiftLeft, Nat.and_comm, Nat.two_pow_and]
  cases w.testBit 0 <;> simp

theorem and_pteRwx (w : Nat) : w &&& (pteR ||| pteW ||| pteX) ≠ 0 ↔ allows w = true := by
  have h : ∀ i, w &&& (1 <<< i) ≠ 0 ↔ w.testBit i = true := fun i ↦ by
    rw [Nat.one_shiftLeft, Nat.and_comm, Nat.two_pow_and]
    cases w.testBit i <;> simp
  rw [allows, Nat.and_or_distrib_left, Nat.and_or_distrib_left, ne_eq, Nat.or_eq_zero_iff,
    Nat.or_eq_zero_iff, Bool.or_eq_true, Bool.or_eq_true, ← h 1, ← h 2, ← h 3]
  unfold pteR pteW pteX
  tauto

/-- What a call may ask for: an entry that allows nothing would be a table, and one that can be
written but not read is reserved. -/
def ValidFlags (flags : Nat) : Prop :=
  flagRead flags = true ∨ flagWrite flags = false ∧ flagExec flags = true

instance (flags : Nat) : Decidable (ValidFlags flags) := inferInstanceAs (Decidable (_ ∨ _))

/-- The permissions a call asks for. -/
def permOf (flags : Nat) : Perm := ⟨flagRead flags, flagWrite flags, flagExec flags⟩

/-- The words a call writes as leaves. -/
def leaf (flags _t p : Nat) : Nat := (paToPpn p <<< ptePpnShift) ||| leafFlags flags

/-- The leaf the code writes is the one the hart reads. -/
theorem decode_leaf {flags t p : Nat} (hf : ValidFlags flags) (hp : span t ∣ p)
    (hlt : p < 2 ^ 56) : format.decode t (leaf flags t p) = .leaf p (permOf flags) := by
  have hb := leafFlags_lt flags
  obtain ⟨h0, h1, h2, h3⟩ := testBit_leafFlags flags
  have hx : p / 4096 < 2 ^ 44 := by omega
  have h4096 : p / 4096 * 4096 = p := Nat.div_mul_cancel ((page_dvd_span t).trans hp)
  have hal : p / 4096 % 512 ^ t = 0 := by
    obtain ⟨c, rfl⟩ := hp
    rw [span_eq_mul, show 512 ^ t * 4096 * c = 512 ^ t * c * 4096 by ring,
      Nat.mul_div_cancel _ (by norm_num), Nat.mul_mod_right]
  rw [leaf, entry_eq hlt hb]
  show (if !(2 ^ 10 * (p / 4096) + leafFlags flags).testBit 0 then _ else _) = _
  rw [allows, testBit_entry hb (by omega), testBit_entry hb (by omega),
    testBit_entry hb (by omega), testBit_entry hb (by omega), ppn_entry hx hb,
    entry_reserved hx hb, h0, h1, h2, h3, hal, h4096, permOf]
  rcases hf with hr | ⟨hw, he⟩
  · simp [hr]
  · simp [hw, he]

theorem leafWord {flags t p : Nat} (hf : ValidFlags flags) (hp : span t ∣ p)
    (hlt : p < 2 ^ 56) : LeafWord format t (leaf flags t p) where
  lt := by
    rw [leaf, entry_eq hlt (leafFlags_lt flags)]
    exact entry_lt (by omega) (leafFlags_lt flags)
  not_table g q := by rw [decode_leaf hf hp hlt]; simp
  sound := by
    rw [decode_leaf hf hp hlt]
    refine ⟨fun b q hb ↦ ?_, by simp⟩
    cases hb
    exact hp

/-! ## The walk down -/

theorem decode_absent {h w : Nat} (h0 : w.testBit 0 = false) : format.decode h w = .absent := by
  show (if !w.testBit 0 then _ else _) = _
  rw [h0]
  rfl

/-- An entry that allows something is a leaf, or the hart rejects it. -/
theorem decode_allows {h w : Nat} (h0 : w.testBit 0 = true) (ha : allows w = true) :
    format.decode h w = .bad ∨ ∃ q, format.decode h w = .leaf (ppn w * 4096) q := by
  show (if !w.testBit 0 then _ else _) = _ ∨ ∃ q, (if !w.testBit 0 then _ else _) = _
  rw [h0, ha]
  by_cases h1 : w / 2 ^ 54 ≠ 0 ∨ (w.testBit 2 ∧ !w.testBit 1)
  · exact Or.inl (by simp only [Bool.not_true, Bool.false_eq_true, if_false, if_pos h1])
  · by_cases h2 : ppn w % 512 ^ h ≠ 0
    · exact Or.inl (by
        simp only [Bool.not_true, Bool.false_eq_true, if_false, if_neg h1, if_pos h2])
    · exact Or.inr ⟨⟨w.testBit 1, w.testBit 2, w.testBit 3⟩, by
        simp only [Bool.not_true, Bool.false_eq_true, if_false, if_neg h1, if_neg h2]⟩

/-- An entry that allows nothing is a table, or the hart rejects it. -/
theorem decode_not_allows {h w : Nat} (hh : 0 < h) (h0 : w.testBit 0 = true)
    (ha : allows w = false) : format.decode h w = .bad ∨
      w / 2 ^ 54 = 0 ∧ format.decode h w = .table (ppn w * 4096) ⟨false, false, false⟩ := by
  show (if !w.testBit 0 then _ else _) = _ ∨ _ ∧ (if !w.testBit 0 then _ else _) = _
  rw [h0, ha]
  by_cases h1 : w / 2 ^ 54 ≠ 0 ∨ (w.testBit 2 ∧ !w.testBit 1)
  · exact Or.inl (by simp only [Bool.not_true, Bool.false_eq_true, if_false, if_pos h1])
  · refine Or.inr ⟨by_contra fun h ↦ h1 (Or.inl h), ?_⟩
    simp only [Bool.not_true, Bool.false_eq_true, if_false, if_neg h1, Bool.not_false, if_true,
      if_neg hh.ne']

/-- An entry for a new table. -/
theorem decode_newEntry {h g : Nat} (hh : 0 < h) (hg : 4096 ∣ g) (hlt : g < 2 ^ 56) :
    format.decode h ((paToPpn g <<< ptePpnShift) ||| pteV) =
      .table g ⟨false, false, false⟩ := by
  have hb : pteV < 2 ^ 10 := by decide
  have hx : g / 4096 < 2 ^ 44 := by omega
  rw [entry_eq hlt hb]
  have ha : allows (2 ^ 10 * (g / 4096) + pteV) = false := by
    rw [allows, testBit_entry hb (by omega), testBit_entry hb (by omega),
      testBit_entry hb (by omega)]
    rfl
  have h0 : (2 ^ 10 * (g / 4096) + pteV).testBit 0 = true := by
    rw [testBit_entry hb (by omega)]
    rfl
  have h2 : (2 ^ 10 * (g / 4096) + pteV).testBit 2 = false := by
    rw [testBit_entry hb (by omega)]
    rfl
  show (if !(2 ^ 10 * (g / 4096) + pteV).testBit 0 then _ else _) = _
  rw [h0, h2, ha, entry_reserved hx hb, ppn_entry hx hb, Nat.div_mul_cancel hg]
  simp [hh.ne']

/-- The table an entry points to is the one the code goes on with. -/
theorem pteToPa_eq {w : Nat} (hw : w / 2 ^ 54 = 0) : pteToPa w = ppn w * 4096 := by
  rw [pteToPa, ppn, ptePpnShift, Nat.shiftRight_eq_div_pow, Nat.shiftLeft_eq]
  omega

section Outcome

variable {A : Type} {src : FrameSource A}

/-- The panic of the walk down. -/
def Walked (e : Stop) : Prop := ∃ level vaddr,
  e = .panic "ptm: walked into existing leaf PTE at level %d (vaddr=0x%lx)" [level, vaddr]

/-- **`map_page`** maps the page, or fails for want of a frame, or panics because of a leaf that is
larger than the page. -/
theorem mapFrom_outcome (t vaddr paddr flags : Nat) (hlim : src.limit ≤ 2 ^ 56) (d : Nat) :
    ∀ (table : Nat) (s : Machine A) (U : Nat → Prop), src.Owns s.frames U →
    Tree format s.mem (t + 1 + d) table →
    (∀ x, Foot format s.mem (t + 1 + d) table x → U x) →
    src.Outcome format Walked t vaddr (leaf flags t paddr) (t + 1 + d) table U s
      (mapFrom src vaddr paddr (t + 1) flags d table s) := by
  have hneutral : ∀ q : Perm, Neutral format q (format.decode t (leaf flags t paddr)) :=
    fun _ _ _ _ ↦ rfl
  induction d with
  | zero =>
    intro table s U hs _ _
    rw [mapFrom, vaddrVpn_eq]
    exact src.outcome_leaf hs
  | succ d ih =>
    intro table s U hs ht hU
    have hh : 0 < t + 1 + d := by omega
    have hth : t < t + 1 + d := by omega
    have hi := index_lt (t + 1 + d) vaddr
    rw [mapFrom, enter, show t + 1 + (d + 1) = t + 1 + d + 1 by omega, vaddrVpn_eq]
    set h := t + 1 + d with hdef
    set w := word s.mem table (index h vaddr) with hwdef
    dsimp only
    -- the hart rejects no entry on the way
    have hbad : format.decode h w ≠ .bad := fun hb ↦ by
      have : h = 0 := (ht.2.1 _ hi).2 hb
      omega
    by_cases h0 : w.testBit 0 = false
    · rw [if_pos ((and_pteV w).mpr h0)]
      cases halloc : src.alloc s.frames with
      | error e => exact Or.inl ⟨_, _, hs, halloc⟩
      | ok r =>
        obtain ⟨g, frames⟩ := r
        obtain ⟨-, ho⟩ := src.fresh hs halloc
        obtain ⟨hg, hgl⟩ := src.owned ho (Or.inl rfl)
        have hgl : g < 2 ^ 56 := by omega
        have hb : pteV < 2 ^ 10 := by decide
        have hx : g / 4096 < 2 ^ 44 := by omega
        have hpa : pteToPa ((paToPpn g <<< ptePpnShift) ||| pteV) = g := by
          rw [entry_eq hgl hb, pteToPa_eq (entry_reserved hx hb), ppn_entry hx hb,
            Nat.div_mul_cancel hg]
        refine src.outcome_fresh hs halloc ht hU hth (decode_absent h0) ?_
          (decode_newEntry hh hg hgl) (hneutral _) fun s₁ hm hfr ho₁ ht₁ hU₁ ↦ ?_
        · rw [entry_eq hgl hb]
          exact entry_lt hx hb
        · have := ih g s₁ _ (hfr ▸ ho₁) ht₁ hU₁
          show src.Outcome format Walked _ _ _ _ _ _ s₁ (Except.bind (Except.ok _) _)
          rw [hpa, show Machine.mk (setWord (s.mem.fill g ptmPageGranularity 0) table
            (index h vaddr) ((paToPpn g <<< ptePpnShift) ||| pteV)) frames = s₁ by
              rw [← hfr]; exact congrArg (Machine.mk · s₁.frames) hm.symm]
          exact this
    · have h0 : w.testBit 0 = true := by simpa using h0
      rw [if_neg fun hc ↦ by rw [and_pteV, h0] at hc; cases hc]
      by_cases ha : allows w = true
      · -- a leaf is in the way
        rw [if_pos ((and_pteRwx w).mpr ha)]
        rcases decode_allows h0 ha with hb | ⟨q, hleaf⟩
        · exact absurd hb hbad
        · exact src.outcome_blocked hth hleaf ⟨_, _, rfl⟩
      · rw [if_neg fun hc ↦ ha ((and_pteRwx w).mp hc)]
        rcases decode_not_allows hh h0 (by simpa using ha) with hb | ⟨hres, hd⟩
        · exact absurd hb hbad
        · have hwlt : w < 2 ^ 64 := by omega
          refine src.outcome_table ht hU hth hd hwlt hd (fun _ hq ↦ hq) (hneutral _)
            fun s₁ hm hfr ht₁ hU₁ ↦ ?_
          -- the code does not write the entry back: it is there already
          have hs₁ : s₁ = s := by
            have : s₁.mem = s.mem := hm.trans (Memory.store_load s.mem _ 8)
            cases s₁
            cases s
            exact Machine.mk.injEq _ _ _ _ ▸ ⟨this, hfr⟩
          have := ih _ s₁ U (hfr ▸ hs) ht₁ hU₁
          show src.Outcome format Walked _ _ _ _ _ _ s₁ (Except.bind (Except.ok _) _)
          rw [pteToPa_eq hres, ← hs₁]
          exact this

/-! ## The loop of `ptm_map` -/

/-- The code chooses the largest page that fits. -/
theorem chooseLevelFrom_eq (v p remain k : Nat) :
    chooseLevelFrom v p remain (k + 1) = chooseHeight v p remain k + 1 := by
  induction k with
  | zero => rfl
  | succ k ih =>
    rw [chooseLevelFrom, if_pos (by omega), pageSizeAtLevel_eq, ih, chooseHeight]
    simp only [Nat.dvd_iff_mod_eq_zero]
    split <;> rfl

theorem chooseTargetLevel_eq {maxLevels : Nat} (h : 3 ≤ maxLevels) (v p remain : Nat) :
    chooseTargetLevel v p remain maxLevels = chooseHeight v p remain 2 + 1 := by
  rw [chooseTargetLevel, Nat.min_eq_right h, chooseLevelFrom_eq]

/-- **The loop of `ptm_map`** maps the run, or fails for want of a frame, or panics because of a
leaf that is larger than a page of the run. -/
theorem ptmMapLoop_outcome (ptm : Ptm) (length flags : Nat) (hf : ValidFlags flags)
    (hlim : src.limit ≤ 2 ^ 56) (hlevels : 3 ≤ ptm.levelCount) (hlength : length < 2 ^ 64)
    (fuel : Nat) :
    ∀ (v p offset va pa : Nat) (s : Machine A) (U : Nat → Prop), offset ≤ length →
    (offset < length → va = v ∧ pa = p) → 4096 ∣ v → 4096 ∣ p → 4096 ∣ length - offset →
    v + (length - offset) ≤ 2 ^ 64 → p + (length - offset) ≤ 2 ^ 56 →
    v % span ptm.levelCount + (length - offset) ≤ span ptm.levelCount →
    (length - offset) / 4096 < fuel → src.Owns s.frames U →
    Tree format s.mem ptm.levelCount ptm.tplt →
    (∀ x, Foot format s.mem ptm.levelCount ptm.tplt x → U x) →
    src.RangeOutcome format (leaf flags) (fun a ↦ some (a, permOf flags)) Walked 2
      ptm.levelCount ptm.tplt fuel v p (length - offset) U s
      (ptmMapLoop src ptm length flags fuel va pa offset s) := by
  induction fuel with
  | zero =>
    intro v p offset va pa s U _ _ _ _ _ _ _ _ hfuel
    omega
  | succ fuel ih =>
    intro v p offset va pa s U hoff hvp hv hp hl hv64 hp56 hfit hfuel hs ht hU
    rw [ptmMapLoop]
    by_cases hlt : offset < length
    swap
    · rw [if_neg hlt, show length - offset = 0 by omega]
      exact src.rangeOutcome_nil hs
    obtain ⟨rfl, rfl⟩ := hvp hlt
    rw [if_pos hlt, sub64_eq hlength hoff, chooseTargetLevel_eq hlevels]
    obtain ⟨hvt, hpt, hlen⟩ := chooseHeight_spec hv hp hl (by omega) 2
    have ht2 := chooseHeight_le va pa (length - offset) 2
    set t := chooseHeight va pa (length - offset) 2 with hheight
    dsimp only
    rw [pageSizeAtLevel_eq]
    have hpos := span_pos t
    have h4096 := Nat.le_of_dvd hpos (page_dvd_span t)
    refine src.rangeOutcome_cons (by omega) hv hp hl hfit (by omega) ht hU hheight.symm
      (leafWord hf hpt (by omega)) (fun b ↦ ?_) ?_ fun s₁ U₁ _ ho₁ ht₁ hU₁ ↦ ?_
    · rw [decode_leaf hf hpt (by omega)]
      rfl
    · have hn : t + 1 + (ptm.levelCount - (t + 1)) = ptm.levelCount := by omega
      rw [mapPage, if_neg (by omega)]
      have := mapFrom_outcome t va pa flags hlim (ptm.levelCount - (t + 1)) ptm.tplt s U hs
        (by rwa [hn]) (by rwa [hn])
      rwa [hn] at this
    · have hoff' : add64 offset (span t) = offset + span t := add64_eq (by omega)
      rw [hoff', show length - offset - span t = length - (offset + span t) by omega]
      have hdvd := page_dvd_span t
      refine ih (va + span t) (pa + span t) _ _ _ s₁ U₁ (by omega) (fun hlt' ↦ ?_)
        (hv.add hdvd) (hp.add hdvd) ?_ (by omega) (by omega) ?_ ?_ ho₁ ht₁ hU₁
      · rw [add64_eq (by omega), add64_eq (by omega)]
        exact ⟨rfl, rfl⟩
      · rw [← Nat.sub_sub]
        exact Nat.dvd_sub hl hdvd
      · rw [← Nat.sub_sub]
        exact mod_add_le hfit hlen
      · rw [← Nat.sub_sub]
        omega

end Outcome

end LunarPrekernel.Riscv
