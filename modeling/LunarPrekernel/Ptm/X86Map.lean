import LunarPrekernel.Ptm.PmmFrames
import LunarPrekernel.Ptm.X86

/-!
# Runs of `ptm_map` on x86_64

`Ptm.translate` is what the processor makes of the tables: addresses that are not canonical have no
translation, the others are walked.  Whatever calls come after `ptm_init`, each call that returns
gives its range the translation and the permissions it was called with, and leaves every other
address alone.

* `mapper` — `ptm_map` as a `Mapper`.
* `x86_map_run` — every call of every run, and exactly when it panics.
-/

set_option autoImplicit false

namespace LunarPrekernel.X86

open PageTable

/-! ## What the processor sees -/

/-- Both halves of the address space: the bits above the walked ones repeat the highest of them. -/
def Canonical (n a : Nat) : Prop :=
  a < 2 ^ (11 + 9 * n) ∨ 2 ^ 64 - 2 ^ (11 + 9 * n) ≤ a ∧ a < 2 ^ 64

instance (n a : Nat) : Decidable (Canonical n a) := inferInstanceAs (Decidable (_ ∨ _))

/-- The translation of an address, with its effective permissions. -/
def Ptm.translate (ptm : Ptm) (m : Memory) (a : Nat) : Option (Nat × Perm) :=
  if Canonical ptm.levelCount a then PageTable.translate format m ptm.levelCount ptm.tplt a
  else none

/-- The range lies in one canonical half, and what it is mapped to ends by `2 ^ 51`. -/
def Fits (n : Nat) (c : MapCall) : Prop :=
  (c.vaddr + c.length ≤ 2 ^ (11 + 9 * n) ∨
    2 ^ 64 - 2 ^ (11 + 9 * n) ≤ c.vaddr ∧ c.vaddr + c.length ≤ 2 ^ 64) ∧
  c.paddr + c.length ≤ 2 ^ 51

instance (n : Nat) (c : MapCall) : Decidable (Fits n c) := inferInstanceAs (Decidable (_ ∧ _))

/-- A page of the call lies inside a leaf that is larger than the page. -/
def Ptm.Blocked (ptm : Ptm) (c : MapCall) (m : Memory) : Prop :=
  ∃ page ∈ c.pages ptm.top, PageTable.Blocked format m ptm.levelCount ptm.tplt page.1 page.2

/-- The panics of `ptm_map`. -/
def MapPanic (c : MapCall) (e : Stop) : Prop :=
  e = .panic "unaligned mapping (%lx -> %lx / %lx)" [c.paddr, c.vaddr, c.length] ∨ Remap e

section

variable {A : Type} (src : FrameSource A) (ptm : Ptm)

/-- One call. -/
def Ptm.call (s : Machine A) (c : MapCall) : Except Stop (Machine A) :=
  ptmMap src ptm c.vaddr c.paddr c.length c.flags s

/-- A run of calls. -/
def Ptm.run (s : Machine A) (cs : List MapCall) : Except Stop (Machine A) :=
  cs.foldlM (ptm.call src) s

/-- How a call can end. -/
def Ptm.Ends (s : Machine A) (c : MapCall) : Except Stop (Machine A) → Prop
  | .ok s' => ¬ c.Unaligned ∧ ¬ ptm.Blocked c s.mem ∧
      (∀ x, x < c.length →
        ptm.translate s'.mem (c.vaddr + x) = some (c.paddr + x, ptm.perm c.flags)) ∧
      ∀ a, ¬ c.Contains a → ptm.translate s'.mem a = ptm.translate s.mem a
  | .error e => src.Fails e ∨ (c.Unaligned ∨ ptm.Blocked c s.mem) ∧ MapPanic c e

end

/-! ## Addresses of one half -/

section Half

variable {n : Nat}

/-- A range in one half does not wrap around the window of the tables. -/
theorem Fits.window {c : MapCall} (hc : Fits n c) (hn : n = 4 ∨ n = 5) :
    c.vaddr % span n + c.length ≤ span n := by
  have hs := span_eq_two_mul n
  rcases Nat.eq_zero_or_pos c.length with h0 | hpos
  · have := Nat.mod_lt c.vaddr (span_pos n)
    omega
  · rcases hc.1 with h | ⟨h, h'⟩
    · rw [mod_of_lower (by omega)]
      omega
    · have := mod_of_upper (by omega) h (by omega)
      omega

theorem Fits.end_le {c : MapCall} (hc : Fits n c) (hn : n = 4 ∨ n = 5) :
    c.vaddr + c.length ≤ 2 ^ 64 := by
  have hpow : 2 ^ (11 + 9 * n) ≤ 2 ^ 64 := Nat.pow_le_pow_right (by omega) (by omega)
  rcases hc.1 with h | ⟨-, h⟩
  · exact h.trans hpow
  · exact h

/-- A part of a range that fits, fits. -/
theorem Fits.part {c d : MapCall} (hc : Fits n c) (h1 : c.vaddr ≤ d.vaddr)
    (h2 : d.vaddr + d.length ≤ c.vaddr + c.length)
    (h4 : d.paddr + d.length ≤ c.paddr + c.length) : Fits n d := by
  refine ⟨?_, h4.trans hc.2⟩
  rcases hc.1 with h | ⟨h, h'⟩
  · exact Or.inl (h2.trans h)
  · exact Or.inr ⟨h.trans h1, h2.trans h'⟩

/-- Among canonical addresses, the walked bits tell the range apart. -/
theorem Fits.contains_iff {c : MapCall} (hc : Fits n c) (hn : n = 4 ∨ n = 5) {a : Nat}
    (ha : Canonical n a) : c.Contains a ↔ c.Meets n a := by
  have hs := span_eq_two_mul n
  have hle : 2 * 2 ^ (11 + 9 * n) ≤ 2 ^ 64 := by
    rw [← hs]
    exact Nat.le_of_dvd (by norm_num) (span_dvd_two_pow (by omega))
  unfold MapCall.Contains MapCall.Meets
  rcases Nat.eq_zero_or_pos c.length with h0 | hpos
  · omega
  · rcases hc.1 with h | ⟨h, h'⟩
    · have hv : c.vaddr % span n = c.vaddr := mod_of_lower (by omega)
      rcases ha with ha | ⟨ha, ha'⟩
      · rw [hv, mod_of_lower ha]
      · have := mod_of_upper (by omega) ha ha'
        omega
    · have hv := mod_of_upper (by omega) h (by omega)
      rcases ha with ha | ⟨ha, ha'⟩
      · have := mod_of_lower ha
        omega
      · have := mod_of_upper (by omega) ha ha'
        omega

theorem Fits.canonical {c : MapCall} (hc : Fits n c) {a : Nat} (ha : c.Contains a) :
    Canonical n a := by
  unfold MapCall.Contains at ha
  rcases hc.1 with h | ⟨h, h'⟩
  · exact Or.inl (by omega)
  · exact Or.inr ⟨by omega, by omega⟩

end Half

/-! ## One call -/

section Call

variable {A : Type} {src : FrameSource A} {ptm : Ptm} {s : Machine A} {U : Nat → Prop}

theorem Ptm.call_unaligned {c : MapCall} (hu : c.Unaligned) : ptm.call src s c =
    .error (.panic "unaligned mapping (%lx -> %lx / %lx)" [c.paddr, c.vaddr, c.length]) :=
  if_pos hu

theorem Ptm.call_aligned {c : MapCall} (hu : ¬ c.Unaligned) : ptm.call src s c =
    ptmMapLoop src ptm c.length c.flags (c.length / ptmPageGranularity + 1) c.vaddr c.paddr 0 s :=
  if_neg hu

theorem Ptm.call_outcome (hlevels : ptm.levelCount = 4 ∨ ptm.levelCount = 5)
    (hlim : src.limit ≤ 2 ^ 51) {c : MapCall} (hc : Fits ptm.levelCount c) (hu : ¬ c.Unaligned)
    (ho : src.Owns s.frames U) (ht : Tree format s.mem ptm.levelCount ptm.tplt)
    (hU : ∀ x, Foot format s.mem ptm.levelCount ptm.tplt x → U x) :
    src.RangeOutcome format (ptm.leaf c.flags) (fun a ↦ some (a, ptm.perm c.flags)) Remap ptm.top
      ptm.levelCount ptm.tplt (c.length / ptmPageGranularity + 1) c.vaddr c.paddr c.length U s
      (ptm.call src s c) := by
  have hwin := hc.window hlevels
  obtain ⟨hhalf, hp⟩ := hc
  have hpow : 2 ^ (11 + 9 * ptm.levelCount) ≤ 2 ^ 63 :=
    Nat.pow_le_pow_right (by omega) (by omega)
  obtain ⟨hpal, hval, hlal⟩ := MapCall.aligned_of_not hu
  rw [Ptm.call_aligned hu]
  exact ptmMapLoop_outcome ptm c.length c.flags hlim (by omega) (by omega)
    (c.length / ptmPageGranularity + 1) c.vaddr c.paddr 0 c.vaddr c.paddr s U (Nat.zero_le _)
    (fun _ ↦ ⟨rfl, rfl⟩) hval hpal hlal (by omega) (by omega) hwin (Nat.lt_succ_self _) ho ht hU

/-- `ptm_map` on x86_64. -/
def mapper (hlim : src.limit ≤ 2 ^ 51) (ptm : Ptm)
    (hlevels : ptm.levelCount = 4 ∨ ptm.levelCount = 5) : Mapper src Perm where
  format := format
  root := ptm.tplt
  levels := ptm.levelCount
  top := ptm.top
  leaf := ptm.leaf
  perm := ptm.perm
  Fits := Fits ptm.levelCount
  Panics := MapPanic
  call := ptm.call src
  window hc := hc.window hlevels
  end_le hc := hc.end_le hlevels
  part hc h1 h2 _ h4 _ := hc.part h1 h2 h4
  unaligned _ _ hu := ⟨_, Ptm.call_unaligned hu, Or.inl rfl⟩
  outcome hc hu ho ht hU :=
    FrameSource.RangeOutcome.mono _ (Ptm.call_outcome hlevels hlim hc hu ho ht hU)
      fun _ he ↦ Or.inr he

theorem ptmInit_levels {la57 cr4 nx pdpe1gb : Bool} {s' : Machine A}
    (hi : ptmInit src la57 cr4 nx pdpe1gb s = .ok (ptm, s')) :
    ptm.levelCount = 4 ∨ ptm.levelCount = 5 := by
  obtain ⟨r, -, hr⟩ := map_eq_ok hi
  cases hr
  dsimp only
  split
  · exact Or.inr rfl
  · exact Or.inl rfl

/-- `ptm_init` leaves an empty tree. -/
theorem ptmInit_inv (hlim : src.limit ≤ 2 ^ 51) (hs : src.Owns s.frames U)
    {la57 cr4 nx pdpe1gb : Bool} {s' : Machine A}
    (hi : ptmInit src la57 cr4 nx pdpe1gb s = .ok (ptm, s')) :
    (∃ U', (mapper hlim ptm (ptmInit_levels hi)).Inv s' U') ∧
      ∀ a, PageTable.translate format s'.mem ptm.levelCount ptm.tplt a = none := by
  obtain ⟨⟨g, frames⟩, ha, hr⟩ := map_eq_ok hi
  cases hr
  obtain ⟨ho, ht, hU, hn⟩ := FrameSource.root_tree (F := format) hs ha s.mem
    (show 0 < (if (la57 && cr4) = true then 5 else 4) by split <;> omega)
  exact ⟨⟨_, ho, ht, hU⟩, hn⟩

theorem Ptm.call_ends (hlim : src.limit ≤ 2 ^ 51)
    (hlevels : ptm.levelCount = 4 ∨ ptm.levelCount = 5) (h : (mapper hlim ptm hlevels).Inv s U)
    {c : MapCall} (hc : Fits ptm.levelCount c) : ptm.Ends src s c (ptm.call src s c) := by
  cases hs' : ptm.call src s c with
  | error e => exact h.call_error hc hs'
  | ok s' =>
    obtain ⟨hu, hb, -⟩ := h.call_ok hc hs'
    refine ⟨hu, hb, fun x hx ↦ ?_, fun a ha ↦ ?_⟩
    · have hin : c.Contains (c.vaddr + x) := ⟨by omega, by omega⟩
      have hcan := hc.canonical hin
      rw [Ptm.translate, if_pos hcan]
      refine (h.translate_of_meets hc hs' ((hc.contains_iff hlevels hcan).mp hin)).trans ?_
      -- no wrap between the start of the range and `x`
      have hwin := hc.window hlevels
      have hmod : (c.vaddr + x) % span ptm.levelCount = c.vaddr % span ptm.levelCount + x := by
        rw [← Nat.mod_add_mod, Nat.mod_eq_of_lt (by omega)]
      show some (c.paddr + ((c.vaddr + x) % span ptm.levelCount - c.vaddr % span ptm.levelCount),
        ptm.perm c.flags) = _
      rw [hmod, Nat.add_sub_cancel_left]
    · rw [Ptm.translate, Ptm.translate]
      by_cases hcan : Canonical ptm.levelCount a
      · rw [if_pos hcan, if_pos hcan]
        exact h.translate_of_not_meets hc hs' fun hin ↦ ha ((hc.contains_iff hlevels hcan).mpr hin)
      · rw [if_neg hcan, if_neg hcan]

/-- **Every run of `ptm_map`.**  After `ptm_init` and any calls that returned, a call that returns
maps its range as it says and nothing else, and a call that does not either found no frame, or was
unaligned, or asked for a page inside a larger leaf — and then it cannot return. -/
theorem x86_map_run (hlim : src.limit ≤ 2 ^ 51) {s₀ : Machine A} (hs : src.Owns s₀.frames U)
    {la57 cr4 nx pdpe1gb : Bool} {s₁ : Machine A}
    (hi : ptmInit src la57 cr4 nx pdpe1gb s₀ = .ok (ptm, s₁)) {cs : List MapCall}
    (hcs : ∀ c ∈ cs, Fits ptm.levelCount c) (hr : ptm.run src s₁ cs = .ok s) :
    ∀ c : MapCall, Fits ptm.levelCount c → ptm.Ends src s c (ptm.call src s c) := by
  obtain ⟨⟨U₁, h₁⟩, -⟩ := ptmInit_inv hlim hs hi
  obtain ⟨U', h⟩ := h₁.run hcs hr
  exact fun c hc ↦ Ptm.call_ends hlim (ptmInit_levels hi) h hc

/-- What an entry has room for lies below what the map can manage. -/
theorem physEnd_le : 2 ^ 51 ≤ 2 ^ 56 := by norm_num

/-- A writable large page at `0x40000000`, and then a call right behind it. -/
theorem x86_map_run_two_calls : ∃ (m : PmmMap) (ptm : Ptm) (s₁ s : Machine PmmState),
    addAll .empty [⟨0x10000, 0x100000, .free⟩] = .ok m ∧
      ptmInit (pmmFrames (2 ^ 51) physEnd_le) false false true true
        ⟨fun _ ↦ 0, ⟨m, []⟩⟩ = .ok (ptm, s₁) ∧
      ptm.run (pmmFrames (2 ^ 51) physEnd_le) s₁ [⟨0x40000000, 0, 0x200000, 6⟩] = .ok s ∧
      ptm.Ends (pmmFrames (2 ^ 51) physEnd_le) s ⟨0x40200000, 0x5000, 0x1000, 5⟩
        (ptm.call (pmmFrames (2 ^ 51) physEnd_le) s ⟨0x40200000, 0x5000, 0x1000, 5⟩) := by
  have h : ((addAll .empty [⟨0x10000, 0x100000, .free⟩]).bind fun m ↦
      (ptmInit (pmmFrames (2 ^ 51) physEnd_le) false false true true
        ⟨fun _ ↦ 0, ⟨m, []⟩⟩).bind fun r ↦
          r.1.run (pmmFrames (2 ^ 51) physEnd_le) r.2
            [⟨0x40000000, 0, 0x200000, 6⟩]).isOk = true := by decide +kernel
  obtain ⟨s, hs⟩ := isOk_eq_true h
  obtain ⟨m, hm, hs⟩ := bind_eq_ok hs
  obtain ⟨⟨ptm, s₁⟩, hi, hr⟩ := bind_eq_ok hs
  have hlevel : ptm.levelCount = 4 := by
    obtain ⟨r, -, hr⟩ := map_eq_ok hi
    cases hr
    rfl
  have hown : PmmOwns (2 ^ 51) ⟨m, []⟩ fun _ ↦ False :=
    PmmOwns.start ⟨by decide, by decide, by decide⟩ hm (by decide)
  refine ⟨m, ptm, s₁, s, hm, hi, hr, x86_map_run le_rfl hown hi (fun c hc ↦ ?_) hr _ ?_⟩
  · obtain rfl := List.mem_singleton.mp hc
    rw [hlevel]
    decide
  · rw [hlevel]
    decide

end Call

end LunarPrekernel.X86
