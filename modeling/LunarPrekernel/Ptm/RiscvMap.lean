import LunarPrekernel.Ptm.PmmFrames
import LunarPrekernel.Ptm.Riscv

/-!
# Runs of `ptm_map` on riscv64

`Ptm.translate` is the walk of Sv39, Sv48 or Sv57: of an address it sees the bits below
`12 + 9 * levels` and no others, so the range of a call is given by these bits too
(`MapCall.Meets`).

* `mapper` — `ptm_map` as a `Mapper`.
* `riscv_map_run` — every call of every run, and exactly when it panics.
-/

set_option autoImplicit false

namespace LunarPrekernel.Riscv

open PageTable

/-- The walk of an address. -/
def Ptm.translate (ptm : Ptm) (m : Memory) (a : Nat) : Option (Nat × Perm) :=
  PageTable.translate format m ptm.levelCount ptm.tplt a

/-- Wherever a walk ends, if it is at a leaf, then the physical page number of the leaf is aligned
to its level. -/
def Ptm.Aligned (ptm : Ptm) (m : Memory) : Prop :=
  ∀ a h w, last format m ptm.levelCount ptm.tplt a = some (h, w) → w.testBit 0 = true →
    allows w = true → 512 ^ h ∣ ppn w

/-- The range does not wrap around the window of the tables, what it is mapped to ends by `2 ^ 56`,
and the flags make a leaf. -/
def Fits (n : Nat) (c : MapCall) : Prop :=
  c.vaddr < 2 ^ 64 ∧ c.vaddr % 2 ^ (12 + 9 * n) + c.length ≤ 2 ^ (12 + 9 * n) ∧
    c.paddr + c.length ≤ 2 ^ 56 ∧ ValidFlags c.flags

instance (n : Nat) (c : MapCall) : Decidable (Fits n c) := inferInstanceAs (Decidable (_ ∧ _))

/-- A page of the call lies inside a leaf that is larger than the page. -/
def Ptm.Blocked (ptm : Ptm) (c : MapCall) (m : Memory) : Prop :=
  ∃ page ∈ c.pages 2, PageTable.Blocked format m ptm.levelCount ptm.tplt page.1 page.2

/-- The panics of `ptm_map`. -/
def MapPanic (c : MapCall) (e : Stop) : Prop :=
  e = .panic "ptm_map: unaligned (vaddr=0x%lx paddr=0x%lx len=0x%lx)"
    [c.vaddr, c.paddr, c.length] ∨ Walked e

section

variable {A : Type} (src : FrameSource A) (ptm : Ptm)

/-- One call. -/
def Ptm.call (s : Machine A) (c : MapCall) : Except Stop (Machine A) :=
  ptmMap src ptm c.vaddr c.paddr c.length c.flags s

/-- A run of calls. -/
def Ptm.run (s : Machine A) (cs : List MapCall) : Except Stop (Machine A) :=
  cs.foldlM (ptm.call src) s

/-- How a call can end. -/
def Ptm.Ends (s : Machine A) (c : MapCall) : Except Stop (Machine A) → Prop
  | .ok s' => ¬ c.Unaligned ∧ ¬ ptm.Blocked c s.mem ∧
      (∀ x, x < c.length →
        ptm.translate s'.mem (c.vaddr + x) = some (c.paddr + x, permOf c.flags)) ∧
      (∀ a, ¬ c.Meets ptm.levelCount a → ptm.translate s'.mem a = ptm.translate s.mem a) ∧
      ptm.Aligned s'.mem
  | .error e => src.Fails e ∨ (c.Unaligned ∨ ptm.Blocked c s.mem) ∧ MapPanic c e

end

section Call

variable {A : Type} {src : FrameSource A} {ptm : Ptm} {s : Machine A} {U : Nat → Prop}

theorem Fits.window {n : Nat} {c : MapCall} (hc : Fits n c) :
    c.vaddr % span n + c.length ≤ span n := by
  rw [span_eq]
  exact hc.2.1

/-- Nothing wraps at the end of the address space, as the window of the tables does not. -/
theorem Fits.end_le {n : Nat} (hn : n ≤ 5) {c : MapCall} (hc : Fits n c) :
    c.vaddr + c.length ≤ 2 ^ 64 := by
  obtain ⟨hv, hw, -⟩ := hc
  obtain ⟨k, hk⟩ : 2 ^ (12 + 9 * n) ∣ 2 ^ 64 := Nat.pow_dvd_pow 2 (by omega)
  generalize 2 ^ (12 + 9 * n) = W at hw hk
  have hdiv := Nat.div_add_mod c.vaddr W
  have hlt : c.vaddr / W < k := Nat.div_lt_of_lt_mul (hk ▸ hv)
  have hle : W * (c.vaddr / W + 1) ≤ W * k := Nat.mul_le_mul_left W hlt
  rw [← hk, Nat.mul_add, Nat.mul_one] at hle
  omega

/-- A part of a range that fits, fits. -/
theorem Fits.part {n : Nat} {c d : MapCall} (hc : Fits n c) (h1 : c.vaddr ≤ d.vaddr)
    (h2 : d.vaddr + d.length ≤ c.vaddr + c.length) (h3 : d.vaddr < 2 ^ 64)
    (h4 : d.paddr + d.length ≤ c.paddr + c.length) (h5 : d.flags = c.flags) : Fits n d := by
  have hwin := hc.window
  refine ⟨h3, ?_, h4.trans hc.2.2.1, h5 ▸ hc.2.2.2⟩
  have hk := mod_add_le hwin (show d.vaddr - c.vaddr ≤ c.length by omega)
  rw [Nat.add_sub_cancel' h1] at hk
  rw [← span_eq]
  omega

theorem Ptm.call_unaligned {c : MapCall} (hu : c.Unaligned) : ptm.call src s c =
    .error (.panic "ptm_map: unaligned (vaddr=0x%lx paddr=0x%lx len=0x%lx)"
      [c.vaddr, c.paddr, c.length]) :=
  if_pos hu

theorem Ptm.call_aligned {c : MapCall} (hu : ¬ c.Unaligned) : ptm.call src s c =
    ptmMapLoop src ptm c.length c.flags (c.length / ptmPageGranularity + 1) c.vaddr c.paddr 0 s :=
  if_neg hu

theorem Ptm.call_outcome (hlevels : 3 ≤ ptm.levelCount ∧ ptm.levelCount ≤ 5)
    (hlim : src.limit ≤ 2 ^ 56) {c : MapCall} (hc : Fits ptm.levelCount c) (hu : ¬ c.Unaligned)
    (ho : src.Owns s.frames U) (ht : Tree format s.mem ptm.levelCount ptm.tplt)
    (hU : ∀ x, Foot format s.mem ptm.levelCount ptm.tplt x → U x) :
    src.RangeOutcome format (leaf c.flags) (fun a ↦ some (a, permOf c.flags)) Walked 2
      ptm.levelCount ptm.tplt (c.length / ptmPageGranularity + 1) c.vaddr c.paddr c.length U s
      (ptm.call src s c) := by
  obtain ⟨hpal, hval, hlal⟩ := MapCall.aligned_of_not hu
  have hend := hc.end_le hlevels.2
  have hwin := hc.window
  obtain ⟨hv, -, hp, hf⟩ := hc
  rw [Ptm.call_aligned hu]
  exact ptmMapLoop_outcome ptm c.length c.flags hf hlim hlevels.1 (by omega)
    (c.length / ptmPageGranularity + 1) c.vaddr c.paddr 0 c.vaddr c.paddr s U (Nat.zero_le _)
    (fun _ ↦ ⟨rfl, rfl⟩) hval hpal hlal (by omega) (by omega) hwin (Nat.lt_succ_self _) ho ht hU

/-- `ptm_map` on riscv64. -/
def mapper (hlim : src.limit ≤ 2 ^ 56) (ptm : Ptm)
    (hlevels : 3 ≤ ptm.levelCount ∧ ptm.levelCount ≤ 5) : Mapper src Perm where
  format := format
  root := ptm.tplt
  levels := ptm.levelCount
  top := 2
  leaf := leaf
  perm := permOf
  Fits := Fits ptm.levelCount
  Panics := MapPanic
  call := ptm.call src
  window hc := hc.window
  end_le hc := hc.end_le hlevels.2
  part hc h1 h2 h3 h4 h5 := hc.part h1 h2 h3 h4 h5
  unaligned _ _ hu := ⟨_, Ptm.call_unaligned hu, Or.inl rfl⟩
  outcome hc hu ho ht hU :=
    FrameSource.RangeOutcome.mono _ (Ptm.call_outcome hlevels hlim hc hu ho ht hU)
      fun _ he ↦ Or.inr he

/-- `ptm_init` leaves an empty tree. -/
theorem ptmInit_inv (hlim : src.limit ≤ 2 ^ 56) (hs : src.Owns s.frames U)
    {acpiLevels dtbLevels : Nat} {s' : Machine A}
    (hi : ptmInit src acpiLevels dtbLevels s = .ok (ptm, s'))
    (hlevels : 3 ≤ ptm.levelCount ∧ ptm.levelCount ≤ 5) :
    (∃ U', (mapper hlim ptm hlevels).Inv s' U') ∧ ∀ a, ptm.translate s'.mem a = none := by
  obtain ⟨levelCount, -, hi⟩ := bind_eq_ok hi
  obtain ⟨⟨g, frames⟩, ha, hr⟩ := map_eq_ok hi
  cases hr
  obtain ⟨ho, ht, hU, hn⟩ := FrameSource.root_tree (F := format) hs ha s.mem
    (show 0 < levelCount from by have := hlevels.1; dsimp only at this; omega)
  exact ⟨⟨_, ho, ht, hU⟩, hn⟩

/-- The leaves of a tree are aligned: an entry that is not would be rejected by the hart. -/
theorem aligned_of_tree {m : Memory} (ht : Tree format m ptm.levelCount ptm.tplt) :
    ptm.Aligned m := by
  intro a h w hl h0 ha
  have hsound := ht.sound_last hl
  by_contra hmis
  have hh : h ≠ 0 := by
    rintro rfl
    exact hmis (one_dvd _)
  rcases decode_allows (h := h) h0 ha with hb | ⟨q, hd⟩
  · exact hh (hsound.2 hb)
  · have := hsound.1 _ _ hd
    rw [span_eq_mul] at this
    exact hmis (Nat.dvd_of_mul_dvd_mul_right (by norm_num) this)

theorem Ptm.call_ends (hlim : src.limit ≤ 2 ^ 56)
    (hlevels : 3 ≤ ptm.levelCount ∧ ptm.levelCount ≤ 5) (h : (mapper hlim ptm hlevels).Inv s U)
    {c : MapCall} (hc : Fits ptm.levelCount c) : ptm.Ends src s c (ptm.call src s c) := by
  cases hs' : ptm.call src s c with
  | error e => exact h.call_error hc hs'
  | ok s' =>
    obtain ⟨hu, hb, U', h', -⟩ := h.call_ok hc hs'
    refine ⟨hu, hb, fun x hx ↦ ?_, fun a ha ↦ h.translate_of_not_meets hc hs' ha,
      aligned_of_tree h'.tree⟩
    have hwin := hc.window
    have hmod : (c.vaddr + x) % span ptm.levelCount = c.vaddr % span ptm.levelCount + x := by
      rw [← Nat.mod_add_mod, Nat.mod_eq_of_lt (by omega)]
    have hmeets : c.Meets ptm.levelCount (c.vaddr + x) := by
      rw [MapCall.Meets, hmod]
      omega
    refine (h.translate_of_meets hc hs' hmeets).trans ?_
    show some (c.paddr + ((c.vaddr + x) % span ptm.levelCount - c.vaddr % span ptm.levelCount),
      permOf c.flags) = _
    rw [hmod, Nat.add_sub_cancel_left]

/-- **Every run of `ptm_map`.**  After `ptm_init` and any calls that returned, a call that returns
maps its range as it says and nothing else, and a call that does not either found no frame, or was
unaligned, or asked for a page inside a larger leaf — and then it cannot return. -/
theorem riscv_map_run (hlim : src.limit ≤ 2 ^ 56) {s₀ : Machine A} (hs : src.Owns s₀.frames U)
    {acpiLevels dtbLevels : Nat} {s₁ : Machine A}
    (hi : ptmInit src acpiLevels dtbLevels s₀ = .ok (ptm, s₁))
    (hlevels : 3 ≤ ptm.levelCount ∧ ptm.levelCount ≤ 5) {cs : List MapCall}
    (hcs : ∀ c ∈ cs, Fits ptm.levelCount c) (hr : ptm.run src s₁ cs = .ok s) :
    ∀ c : MapCall, Fits ptm.levelCount c → ptm.Ends src s c (ptm.call src s c) := by
  obtain ⟨⟨U₁, h₁⟩, -⟩ := ptmInit_inv hlim hs hi hlevels
  obtain ⟨U', h⟩ := h₁.run hcs hr
  exact fun c hc ↦ Ptm.call_ends hlim hlevels h hc

/-- A large page at `0x40000000`, and then a call right behind it. -/
theorem riscv_map_run_two_calls : ∃ (m : PmmMap) (ptm : Ptm) (s₁ s : Machine PmmState),
    addAll .empty [⟨0x10000, 0x100000, .free⟩] = .ok m ∧
      ptmInit (pmmFrames (2 ^ 56) le_rfl) 0 3 ⟨fun _ ↦ 0, ⟨m, []⟩⟩ = .ok (ptm, s₁) ∧
      ptm.run (pmmFrames (2 ^ 56) le_rfl) s₁ [⟨0x40000000, 0, 0x200000, 6⟩] = .ok s ∧
      ptm.Ends (pmmFrames (2 ^ 56) le_rfl) s ⟨0x40200000, 0x5000, 0x1000, 5⟩
        (ptm.call (pmmFrames (2 ^ 56) le_rfl) s ⟨0x40200000, 0x5000, 0x1000, 5⟩) := by
  have h : ((addAll .empty [⟨0x10000, 0x100000, .free⟩]).bind fun m ↦
      (ptmInit (pmmFrames (2 ^ 56) le_rfl) 0 3 ⟨fun _ ↦ 0, ⟨m, []⟩⟩).bind fun r ↦
        r.1.run (pmmFrames (2 ^ 56) le_rfl) r.2
          [⟨0x40000000, 0, 0x200000, 6⟩]).isOk = true := by decide +kernel
  obtain ⟨s, hs⟩ := isOk_eq_true h
  obtain ⟨m, hm, hs⟩ := bind_eq_ok hs
  obtain ⟨⟨ptm, s₁⟩, hi, hr⟩ := bind_eq_ok hs
  have hlevel : ptm.levelCount = 3 := by
    obtain ⟨n, hn, hi⟩ := bind_eq_ok hi
    obtain ⟨r, -, hr⟩ := map_eq_ok hi
    cases hn
    cases hr
    rfl
  have hown : PmmOwns (2 ^ 56) ⟨m, []⟩ fun _ ↦ False :=
    PmmOwns.start ⟨by decide, by decide, by decide⟩ hm (by decide)
  refine ⟨m, ptm, s₁, s, hm, hi, hr,
    riscv_map_run le_rfl hown hi (by omega) (fun c hc ↦ ?_) hr _ ?_⟩
  · obtain rfl := List.mem_singleton.mp hc
    rw [hlevel]
    decide
  · rw [hlevel]
    decide

end Call

end LunarPrekernel.Riscv
