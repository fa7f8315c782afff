import Mathlib.Tactic

/-!
# Machine words, and how a call can stop

The pre-kernel computes with `uint64_t`, `size_t` and `uintptr_t`, all 64 bits wide.  The model
keeps such a word as a natural number below `2 ^ 64` and spells the wrap-around out: `add64`,
`sub64` and `mul64` are the C operators, and the macros of `lib/math.h` are written over them.
Each operator comes with the lemma that removes it where nothing wraps, so that a proof about
addresses is a proof about `Nat`.

`Stop` lists the ways a call can end other than by returning.  A `panic` carries its format string
and the values printed into it; a `fault` is an access outside the object it names, which C leaves
undefined; `fuel` is the model's own, and every result about a function that can run out of it
says how much is enough.
-/

set_option autoImplicit false

namespace LunarPrekernel

/-! ## 64-bit arithmetic -/

/-- `a + b` on 64-bit words. -/
def add64 (a b : Nat) : Nat := (a + b) % 2 ^ 64

/-- `a - b` on 64-bit words. -/
def sub64 (a b : Nat) : Nat := (a + 2 ^ 64 - b) % 2 ^ 64

/-- `a * b` on 64-bit words. -/
def mul64 (a b : Nat) : Nat := (a * b) % 2 ^ 64

/-- `~a` on 64-bit words. -/
def not64 (a : Nat) : Nat := 2 ^ 64 - 1 - a

theorem add64_eq {a b : Nat} (h : a + b < 2 ^ 64) : add64 a b = a + b :=
  Nat.mod_eq_of_lt h

theorem sub64_eq {a b : Nat} (ha : a < 2 ^ 64) (h : b ≤ a) : sub64 a b = a - b := by
  unfold sub64; omega

theorem mul64_eq {a b : Nat} (h : a * b < 2 ^ 64) : mul64 a b = a * b :=
  Nat.mod_eq_of_lt h

/-- `i - 1` followed by the loop's `i + 1`: a decrement at `0` wraps, and the increment wraps it
back. -/
theorem add64_sub64_one {i : Nat} (h : i < 2 ^ 64) : add64 (sub64 i 1) 1 = i := by
  unfold add64 sub64; omega

/-! ## The macros of `lib/math.h` -/

/-- `MATH_DIV_CEIL`. -/
def mathDivCeil (dividend divisor : Nat) : Nat := sub64 (add64 dividend divisor) 1 / divisor

/-- `MATH_CEIL`. -/
def mathCeil (value precision : Nat) : Nat := mul64 (mathDivCeil value precision) precision

/-- `MATH_FLOOR`. -/
def mathFloor (value precision : Nat) : Nat := mul64 (value / precision) precision

/-- `MATH_ALIGN_UP`. -/
def mathAlignUp (x align : Nat) : Nat := add64 x (sub64 align 1) &&& not64 (sub64 align 1)

/-- Rounding up to a multiple of `p`, over the natural numbers. -/
theorem mathCeil_eq {v p : Nat} (hp : 0 < p) (h : v + p - 1 < 2 ^ 64) :
    mathCeil v p = (v + p - 1) / p * p := by
  have hle : (v + p - 1) / p * p ≤ v + p - 1 := Nat.div_mul_le_self _ _
  have hnum : sub64 (add64 v p) 1 = v + p - 1 := by
    unfold add64 sub64; omega
  rw [mathCeil, mathDivCeil, hnum, mul64_eq (by omega)]

/-- What rounding up gives: the least multiple of `p` that is not below `v`. -/
theorem mathCeil_spec {v p : Nat} (hp : 0 < p) (h : v + p - 1 < 2 ^ 64) :
    v ≤ mathCeil v p ∧ mathCeil v p < v + p ∧ p ∣ mathCeil v p := by
  rw [mathCeil_eq hp h]
  have hmod := Nat.div_add_mod (v + p - 1) p
  have hlt := Nat.mod_lt (v + p - 1) hp
  rw [Nat.mul_comm] at hmod
  exact ⟨by omega, by omega, Nat.dvd_mul_left _ _⟩

/-- Rounding up to a multiple of a power of two. -/
theorem mathAlignUp_two_pow {x k : Nat} (hk : k ≤ 64) (h : x + (2 ^ k - 1) < 2 ^ 64) :
    mathAlignUp x (2 ^ k) = (x + (2 ^ k - 1)) / 2 ^ k * 2 ^ k := by
  have hpos : 0 < 2 ^ k := Nat.two_pow_pos k
  have hle : 2 ^ k ≤ 2 ^ 64 := Nat.pow_le_pow_right (by omega) hk
  have hone : sub64 (2 ^ k) 1 = 2 ^ k - 1 := by
    unfold sub64; omega
  have hmask : not64 (2 ^ k - 1) = (2 ^ (64 - k) - 1) <<< k := by
    rw [not64, Nat.shiftLeft_eq, Nat.sub_mul, ← pow_add, Nat.sub_add_cancel hk]
    omega
  rw [mathAlignUp, hone, hmask, add64_eq h]
  refine Nat.eq_of_testBit_eq fun i ↦ ?_
  rw [Nat.testBit_and, Nat.testBit_shiftLeft, Nat.testBit_two_pow_sub_one,
    Nat.testBit_mul_two_pow, Nat.testBit_div_two_pow]
  by_cases hi : k ≤ i
  · rw [Nat.sub_add_cancel hi]
    by_cases hi' : i - k < 64 - k
    · simp [hi, hi']
    · rw [Nat.testBit_lt_two_pow (h.trans_le (Nat.pow_le_pow_right (by omega) (by omega)))]
      simp
  · simp [hi]

/-- `PTM_PAGE_GRANULARITY`. -/
def ptmPageGranularity : Nat := 4096

/-- Rounding up to whole pages. -/
theorem mathAlignUp_page {x : Nat} (h : x + 4095 < 2 ^ 64) :
    mathAlignUp x ptmPageGranularity = (x + 4095) / 4096 * 4096 :=
  mathAlignUp_two_pow (k := 12) (by decide) h

/-- At the end of the address space rounding up gives zero. -/
theorem mathAlignUp_wrap {x : Nat} (hx : x < 2 ^ 64) (h : 2 ^ 64 - 4096 < x) :
    mathAlignUp x ptmPageGranularity = 0 := by
  have hsum : add64 x (sub64 4096 1) < 4096 := by
    unfold add64 sub64
    omega
  have hmask : not64 (sub64 4096 1) = (2 ^ 52 - 1) <<< 12 := by decide
  rw [mathAlignUp, ptmPageGranularity, hmask]
  refine Nat.eq_of_testBit_eq fun i ↦ ?_
  rw [Nat.testBit_and, Nat.testBit_shiftLeft, Nat.zero_testBit]
  by_cases hi : 12 ≤ i
  · rw [Nat.testBit_lt_two_pow (hsum.trans_le (Nat.pow_le_pow_right (n := 2) (by norm_num) hi)),
      Bool.false_and]
  · simp [hi]

/-- Whatever is rounded up, whole pages come out. -/
theorem mathAlignUp_pages {x : Nat} (hx : x < 2 ^ 64) :
    mathAlignUp x ptmPageGranularity / ptmPageGranularity * ptmPageGranularity =
        mathAlignUp x ptmPageGranularity ∧ mathAlignUp x ptmPageGranularity < 2 ^ 64 := by
  unfold ptmPageGranularity
  rcases Nat.lt_or_ge (x + 4095) (2 ^ 64) with h | h
  · rw [show mathAlignUp x 4096 = _ from mathAlignUp_page h, Nat.mul_div_cancel _ (by decide)]
    exact ⟨rfl, by omega⟩
  · rw [show mathAlignUp x 4096 = 0 from mathAlignUp_wrap hx (by omega)]
    exact ⟨rfl, by decide⟩

/-! ## How a call stops -/

/-- The ways a call ends without returning. -/
inductive Stop where
  /-- `panic(fmt, args...)`. -/
  | panic (fmt : String) (args : List Nat)
  /-- An access outside the object it names. -/
  | fault
  /-- The model ran out of fuel. -/
  | fuel
deriving DecidableEq, Repr

section Peel

variable {ε α β : Type} {x : Except ε α}

theorem map_eq_ok {f : α → β} {b : β} (h : x.map f = .ok b) : ∃ a, x = .ok a ∧ f a = b := by
  cases x with
  | error e => cases h
  | ok a =>
    cases h
    exact ⟨a, rfl, rfl⟩

theorem map_eq_error {f : α → β} {e : ε} (h : x.map f = .error e) : x = .error e := by
  cases x with
  | error e' =>
    cases h
    rfl
  | ok a => cases h

theorem bind_eq_ok {f : α → Except ε β} {b : β} (h : x.bind f = .ok b) :
    ∃ a, x = .ok a ∧ f a = .ok b := by
  cases x with
  | error e => cases h
  | ok a => exact ⟨a, rfl, h⟩

/-- How a call stopped, if it did. -/
def stopOf : Except ε α → Option ε
  | .error e => some e
  | .ok _ => none

theorem stopOf_eq_some {e : ε} (h : stopOf x = some e) : x = .error e := by
  cases x with
  | error e' =>
    cases h
    rfl
  | ok a => cases h

theorem toOption_eq_some {a : α} (h : x.toOption = some a) : x = .ok a := by
  cases x with
  | error e => cases h
  | ok a =>
    cases h
    rfl

theorem isOk_eq_true (h : x.isOk = true) : ∃ a, x = .ok a := by
  cases x with
  | error e => cases h
  | ok a => exact ⟨a, rfl⟩

end Peel

end LunarPrekernel
