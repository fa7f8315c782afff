import Mathlib.Tactic

/-!
# Sweeping over intervals

Intervals are visited one after the other, and each contributes the points that lie behind all it
has seen of the others: a running end moves up, and what lies below it is passed over.  Nothing is
visited twice that way.  If the intervals come in order nothing is missed either, but a point that
an interval would contribute is lost if an earlier interval ended behind it and began behind it too.

* `mem_sweep_iff` — which points are visited: those that the first interval ending behind them
  holds.
* `sweep_pairwise` — they are visited in order.
-/

set_option autoImplicit false

namespace Sweep

/-- The points of the intervals `[x.1, x.2)`, in the order they are visited; all below `b` have been
dealt with. -/
def sweep : Nat → List (Nat × Nat) → List Nat
  | _, [] => []
  | b, x :: l =>
    if max x.1 b < x.2 then List.range' (max x.1 b) (x.2 - max x.1 b) ++ sweep x.2 l
    else sweep b l

/-- The first interval that ends behind `q`. -/
def behind (q : Nat) (l : List (Nat × Nat)) : Option (Nat × Nat) :=
  l.find? fun x ↦ x.1 < x.2 ∧ q < x.2

variable {b q : Nat} {l : List (Nat × Nat)} {x : Nat × Nat}

theorem behind_cons_of_pos (h : x.1 < x.2) (hq : q < x.2) : behind q (x :: l) = some x :=
  List.find?_cons_of_pos (by simpa using ⟨h, hq⟩)

theorem behind_cons_of_neg (h : ¬ (x.1 < x.2 ∧ q < x.2)) : behind q (x :: l) = behind q l :=
  List.find?_cons_of_neg (by simpa using h)

theorem behind_spec (h : behind q l = some x) : x ∈ l ∧ x.1 < x.2 ∧ q < x.2 :=
  ⟨List.mem_of_find?_eq_some h, by simpa using List.find?_some h⟩

/-- **Which points are visited**: those that the first interval ending behind them holds. -/
theorem mem_sweep_iff :
    q ∈ sweep b l ↔ b ≤ q ∧ ∃ x, behind q l = some x ∧ x.1 ≤ q := by
  induction l generalizing b with
  | nil => simp [sweep, behind]
  | cons x l ih =>
    rw [sweep]
    split
    · rename_i hlt
      rw [List.mem_append, List.mem_range'_1, ih]
      by_cases hq : q < x.2
      · rw [behind_cons_of_pos (by omega) hq]
        constructor
        · rintro (h | h)
          · exact ⟨by omega, x, rfl, by omega⟩
          · exact absurd h.1 (by omega)
        · rintro ⟨hb, y, hy, hyq⟩
          obtain rfl := Option.some.inj hy
          exact Or.inl (by omega)
      · rw [behind_cons_of_neg fun h ↦ hq h.2]
        constructor
        · rintro (h | h)
          · exact absurd h.2 (by omega)
          · exact ⟨by omega, h.2⟩
        · rintro ⟨-, h⟩
          exact Or.inr ⟨by omega, h⟩
    · rename_i hle
      rw [ih]
      refine and_congr_right fun hb ↦ ?_
      rw [behind_cons_of_neg (by omega)]

/-- The points are visited in order, and so none of them twice. -/
theorem sweep_pairwise : (sweep b l).Pairwise (· < ·) := by
  induction l generalizing b with
  | nil => exact List.Pairwise.nil
  | cons x l ih =>
    rw [sweep]
    split
    · refine List.pairwise_append.mpr ⟨List.pairwise_lt_range', ih, fun p hp q hq ↦ ?_⟩
      have h1 := List.mem_range'_1.mp hp
      have h2 := (mem_sweep_iff.mp hq).1
      omega
    · exact ih

/-- An interval that holds `q` is enough if the ones before it that end behind `q` hold it too. -/
theorem exists_behind {pre post : List (Nat × Nat)} (h : l = pre ++ x :: post) (hx : x.1 ≤ q)
    (hq : q < x.2) (hpre : ∀ y ∈ pre, q < y.2 → y.1 ≤ q) :
    ∃ y, behind q l = some y ∧ y.1 ≤ q := by
  subst h
  induction pre with
  | nil => exact ⟨x, behind_cons_of_pos (by omega) hq, hx⟩
  | cons y pre ih =>
    rw [List.cons_append]
    by_cases hy : y.1 < y.2 ∧ q < y.2
    · exact ⟨y, behind_cons_of_pos hy.1 hy.2, hpre y List.mem_cons_self hy.2⟩
    · rw [behind_cons_of_neg hy]
      exact ih fun z hz ↦ hpre z (List.mem_cons_of_mem _ hz)

/-- An interval that is not empty has points, and then some are visited. -/
theorem sweep_ne_nil (hx : x ∈ l) (h : x.1 < x.2) : sweep 0 l ≠ [] := by
  induction l with
  | nil => exact absurd hx List.not_mem_nil
  | cons y l ih =>
    rw [sweep]
    split
    · refine fun hnil ↦ ?_
      have hlen := congrArg List.length (List.append_eq_nil_iff.mp hnil).1
      rw [List.length_range', List.length_nil] at hlen
      omega
    · rcases List.mem_cons.mp hx with rfl | hx
      · omega
      · exact ih hx

end Sweep
