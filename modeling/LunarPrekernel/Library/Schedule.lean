import Mathlib.Tactic

/-!
# Agents that move one at a time

A system of agents is a function `step` from a state and a choice to the next state, `none` where
that choice is not open.  A schedule is a list of choices, so a statement about every schedule is a
statement about every interleaving.

* `run_inv` — what every step keeps, every run keeps.
* `count_add_one` — how many of the first `n` agents a predicate holds of, once it holds of one more.
-/

set_option autoImplicit false

namespace Schedule

variable {σ ι : Type*} {step : σ → ι → Option σ} {s t : σ}

/-! ## Runs -/

/-- The state after a schedule, if each of its choices is open when its turn comes. -/
def run (step : σ → ι → Option σ) (s : σ) : List ι → Option σ
  | [] => some s
  | c :: cs => (step s c).bind fun s ↦ run step s cs

theorem run_cons {c : ι} {cs : List ι} (h : step s c = some t) :
    run step s (c :: cs) = run step t cs := by rw [run, h, Option.bind_some]

theorem run_append (cs ds : List ι) :
    run step s (cs ++ ds) = (run step s cs).bind fun s ↦ run step s ds := by
  induction cs generalizing s with
  | nil => rfl
  | cons c cs ih =>
    rw [List.cons_append, run, run, Option.bind_assoc]
    exact congrArg _ (funext fun _ ↦ ih)

/-- **What every step keeps, every run keeps.** -/
theorem run_inv {P : σ → Prop} (hstep : ∀ s c t, P s → step s c = some t → P t) {cs : List ι}
    (hs : P s) (h : run step s cs = some t) : P t := by
  induction cs generalizing s with
  | nil =>
    obtain rfl := Option.some.inj h
    exact hs
  | cons c cs ih =>
    obtain ⟨u, hu, h⟩ := Option.bind_eq_some_iff.mp h
    exact ih (hstep s c u hs hu) h

/-! ## Counting agents -/

variable {n i : Nat} {p q : Nat → Prop} [DecidablePred p] [DecidablePred q]

/-- One agent more. -/
theorem count_add_one (hi : i < n) (hp : ¬ p i) (hq : q i) (h : ∀ j, j ≠ i → (q j ↔ p j)) :
    Nat.count q n = Nat.count p n + 1 := by
  induction n with
  | zero => omega
  | succ n ih =>
    rw [Nat.count_succ, Nat.count_succ]
    rcases eq_or_ne i n with rfl | hne
    · have hsame : Nat.count q i = Nat.count p i := by
        rw [Nat.count_eq_card_filter_range, Nat.count_eq_card_filter_range]
        exact congrArg _ (Finset.filter_congr fun j hj ↦ h j (Finset.mem_range.mp hj).ne)
      rw [hsame, if_pos hq, if_neg hp]
    · rw [ih (by omega), if_congr (h n (Ne.symm hne)) rfl rfl]
      omega

/-- An agent less than all of them. -/
theorem count_lt (hi : i < n) (hp : ¬ p i) : Nat.count p n < n :=
  lt_of_le_of_ne (Nat.count_le p) fun h ↦ hp ((Nat.count_iff_forall (p := p)).mp h i hi)

end Schedule
