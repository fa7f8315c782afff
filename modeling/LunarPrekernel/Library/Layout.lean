import Mathlib.Tactic

/-!
# Records laid out one behind the other

Code that fills a buffer often moves a pointer along: what belongs to a record goes to where the
pointer stands, and the pointer moves on by the length of the record.  `place` is where it stands
for the `i`-th record, and `laidOut` is everything that is written on the way.

Two records do not overlap, whatever their lengths (`place_add_le`), and the last one ends where the
sum of the lengths says (`place_add_le_total`); an argument about everything that is written is one
about a single record (`mem_laidOut`).
-/

set_option autoImplicit false

universe u v

namespace Layout

variable {α : Type u} {β : Type v} (length : α → Nat) (f : Nat → α → List β)

/-- How long all records are together. -/
def total (l : List α) : Nat := (l.map length).sum

/-- Where the `i`-th record begins, the first one at `a`. -/
def place (a : Nat) (l : List α) (i : Nat) : Nat := a + total length (l.take i)

/-- What is written for the records, from `a` on. -/
def laidOut : Nat → List α → List β
  | _, [] => []
  | a, x :: l => f a x ++ laidOut (a + length x) l

variable {length f} {a i j : Nat} {l : List α} {x : α} {y : β}

@[simp] theorem total_nil : total length [] = 0 := rfl

@[simp] theorem total_cons : total length (x :: l) = length x + total length l := by
  rw [total, List.map_cons, List.sum_cons, total]

@[simp] theorem place_zero : place length a l 0 = a := rfl

@[simp] theorem place_cons_succ :
    place length a (x :: l) (i + 1) = place length (a + length x) l i := by
  rw [place, List.take_succ_cons, total_cons, place]
  omega

theorem place_succ (hi : i < l.length) :
    place length a l (i + 1) = place length a l i + length l[i] := by
  induction l generalizing a i with
  | nil => cases hi
  | cons x l ih =>
    cases i with
    | zero => rw [place_cons_succ, place_zero, place_zero, List.getElem_cons_zero]
    | succ i =>
      rw [place_cons_succ, place_cons_succ, List.getElem_cons_succ,
        ih (Nat.lt_of_succ_lt_succ hi)]

theorem place_mono (hij : i ≤ j) (hj : j ≤ l.length) :
    place length a l i ≤ place length a l j := by
  induction j, hij using Nat.le_induction with
  | base => exact le_rfl
  | succ j hij ih =>
    have := ih (by omega)
    rw [place_succ (by omega)]
    omega

theorem le_place : a ≤ place length a l i := Nat.le_add_right _ _

/-- A record ends before the next ones. -/
theorem place_add_le (hi : i < l.length) (hij : i < j) (hj : j ≤ l.length) :
    place length a l i + length l[i] ≤ place length a l j := by
  rw [← place_succ hi]
  exact place_mono hij hj

/-- No record ends behind the last one. -/
theorem place_add_le_total (hi : i < l.length) :
    place length a l i + length l[i] ≤ a + total length l := by
  have : place length a l i + length l[i] ≤ place length a l l.length := place_add_le hi hi le_rfl
  rwa [place, place, List.take_length] at this

theorem mem_laidOut : y ∈ laidOut length f a l ↔
    ∃ i, ∃ h : i < l.length, y ∈ f (place length a l i) l[i] := by
  induction l generalizing a with
  | nil => simp [laidOut]
  | cons x l ih =>
    rw [laidOut, List.mem_append, ih]
    constructor
    · rintro (h | ⟨i, hi, h⟩)
      · exact ⟨0, Nat.succ_pos _, h⟩
      · exact ⟨i + 1, Nat.succ_lt_succ hi, by rwa [place_cons_succ]⟩
    · rintro ⟨i, hi, h⟩
      cases i with
      | zero => exact Or.inl h
      | succ i => exact Or.inr ⟨i, Nat.lt_of_succ_lt_succ hi, by rwa [place_cons_succ] at h⟩

/-- What holds within a record, and between a record and what is behind it, holds of everything. -/
theorem pairwise_laidOut {R : β → β → Prop} (hin : ∀ a x, (f a x).Pairwise R)
    (hout : ∀ {a b x y}, a + length x ≤ b → ∀ p ∈ f a x, ∀ q ∈ f b y, R p q) :
    (laidOut length f a l).Pairwise R := by
  induction l generalizing a with
  | nil => exact List.Pairwise.nil
  | cons x l ih =>
    refine List.pairwise_append.mpr ⟨hin a x, ih, fun p hp q hq ↦ ?_⟩
    obtain ⟨i, hi, hq⟩ := mem_laidOut.mp hq
    exact hout le_place p hp q hq

/-- Records of one length. -/
theorem place_const {n : Nat} (hi : i ≤ l.length) : place (fun _ ↦ n) a l i = a + n * i := by
  rw [place, total, List.map_const', List.sum_replicate, List.length_take, min_eq_left hi,
    smul_eq_mul, Nat.mul_comm]

end Layout
