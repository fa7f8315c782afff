import LunarPrekernel.Library.Memory
import LunarPrekernel.Library.Schedule
import Mathlib.Order.CompletePartialOrder

/-!
# Threads that share a memory

Each thread has a program, which is a list of operations, and a state of its own, its registers;
`exec` does one operation, and gives `none` where the machine would fault.  `Threads.step` lets one
thread do its next operation, so a schedule is an interleaving of the programs.

A program is `Confined` to two regions of memory if what it does depends on the first one only, and
changes nothing outside the second one.  It is the registers that say where an operation goes, and
they may have been loaded from memory, so this is about a program together with the memory and the
registers it starts from.  What threads only read they may share.

* `alone` — the run of one program with the memory to itself.
* `Alone` — the invariant of every interleaving: each thread is where it would be, had it run alone.
* `Alone.step` — one operation of one thread keeps it.
* `Alone.enabled` — a thread that does not fault alone does not fault among the others.
-/

set_option autoImplicit false

namespace Threads

variable {ι τ ω : Type*} {exec : ω → Memory → τ → Option (Memory × τ)}

/-! ## One thread -/

/-- The program, with the memory to itself. -/
def alone (exec : ω → Memory → τ → Option (Memory × τ)) :
    List ω → Memory → τ → Option (Memory × τ)
  | [], m, t => some (m, t)
  | o :: os, m, t => (exec o m t).bind fun r ↦ alone exec os r.1 r.2

theorem alone_cons {o : ω} {os : List ω} {m : Memory} {t : τ} {r : Memory × τ}
    (h : exec o m t = some r) : alone exec (o :: os) m t = alone exec os r.1 r.2 := by
  rw [alone, h, Option.bind_some]

theorem alone_append (os ps : List ω) (m : Memory) (t : τ) :
    alone exec (os ++ ps) m t = (alone exec os m t).bind fun r ↦ alone exec ps r.1 r.2 := by
  induction os generalizing m t with
  | nil => rfl
  | cons o os ih =>
    rw [List.cons_append, alone, alone, Option.bind_assoc]
    exact congrArg _ (funext fun r ↦ ih r.1 r.2)

/-- The operation, done with the registers `t`, reads in `R` only and writes in `W` only. -/
structure Private (exec : ω → Memory → τ → Option (Memory × τ)) (R W : Set Nat) (o : ω) (t : τ) :
    Prop where
  /-- What it changes is in `W`. -/
  frame : ∀ {m r}, exec o m t = some r → Set.EqOn r.1 m Wᶜ
  /-- What it does, it does to any memory that agrees on `R`. -/
  congr : ∀ {m m' r}, Set.EqOn m m' R → exec o m t = some r →
    ∃ m₁, exec o m' t = some (m₁, r.2) ∧ Set.EqOn r.1 m₁ R

/-- The same of the memories that agree with `m` on `R`. -/
structure PrivateAt (exec : ω → Memory → τ → Option (Memory × τ)) (R W : Set Nat) (o : ω)
    (m : Memory) (t : τ) : Prop where
  frame : ∀ {m' r}, Set.EqOn m m' R → exec o m' t = some r → Set.EqOn r.1 m' Wᶜ
  congr : ∀ {m' r}, Set.EqOn m m' R → exec o m' t = some r →
    ∃ m₁, exec o m t = some (m₁, r.2) ∧ Set.EqOn r.1 m₁ R
  enabled : ∀ {m'}, Set.EqOn m m' R → (exec o m t).isSome → (exec o m' t).isSome

theorem Private.at {R W : Set Nat} {o : ω} {t : τ} (h : Private exec R W o t) (m : Memory) :
    PrivateAt exec R W o m t where
  frame _ hr := h.frame hr
  congr heq hr := h.congr heq.symm hr
  enabled heq hm := by
    obtain ⟨r, hr⟩ := Option.isSome_iff_exists.mp hm
    obtain ⟨m₁, hm₁, -⟩ := h.congr heq hr
    rw [hm₁]
    rfl

/-- An operation that does the same to all these memories. -/
theorem PrivateAt.of_eq {R W : Set Nat} {o : ω} {m : Memory} {t t' : τ} (f : Memory → Memory)
    (h : ∀ m', Set.EqOn m m' R → exec o m' t = some (f m', t'))
    (hframe : ∀ m', Set.EqOn (f m') m' Wᶜ)
    (hcongr : ∀ m', Set.EqOn m m' R → Set.EqOn (f m') (f m) R) : PrivateAt exec R W o m t where
  frame heq hr := by
    obtain rfl := Option.some.inj ((h _ heq).symm.trans hr)
    exact hframe _
  congr heq hr := by
    obtain rfl := Option.some.inj ((h _ heq).symm.trans hr)
    exact ⟨f m, h m fun _ _ ↦ rfl, hcongr _ heq⟩
  enabled heq _ := by
    rw [h _ heq]
    rfl

/-- The program, run alone, keeps to its regions all along. -/
def Confined (exec : ω → Memory → τ → Option (Memory × τ)) (R W : Set Nat) :
    List ω → Memory → τ → Prop
  | [], _, _ => True
  | o :: os, m, t =>
    PrivateAt exec R W o m t ∧ ∀ r, exec o m t = some r → Confined exec R W os r.1 r.2

/-- A program is confined if each operation is private to its regions, as long as the registers have
a property that the operations keep. -/
theorem confined_of_forall {R W : Set Nat} {Q : τ → Prop} {os : List ω} {m : Memory} {t : τ} (ht : Q t)
    (hprivate : ∀ o ∈ os, ∀ t, Q t → Private exec R W o t)
    (hkeep : ∀ o ∈ os, ∀ m t r, Q t → exec o m t = some r → Q r.2) :
    Confined exec R W os m t := by
  induction os generalizing m t with
  | nil => trivial
  | cons o os ih =>
    refine ⟨(hprivate o List.mem_cons_self t ht).at m, fun r hr ↦ ?_⟩
    refine ih (hkeep o List.mem_cons_self _ t _ ht hr) (fun p hp ↦ ?_) fun p hp ↦ ?_
    · exact hprivate p (List.mem_cons_of_mem o hp)
    · exact hkeep p (List.mem_cons_of_mem o hp)

/-- One program after another. -/
theorem Confined.append {R W : Set Nat} {os ps : List ω} {m : Memory} {t : τ}
    (hos : Confined exec R W os m t)
    (hps : ∀ r, alone exec os m t = some r → Confined exec R W ps r.1 r.2) :
    Confined exec R W (os ++ ps) m t := by
  induction os generalizing m t with
  | nil => exact hps (m, t) rfl
  | cons o os ih =>
    exact ⟨hos.1, fun r hr ↦ ih (hos.2 r hr) fun r' hr' ↦ hps r' ((alone_cons hr).trans hr')⟩

end Threads

/-! ## All of them -/

/-- The memory, and for each thread its registers and what is left of its program. -/
structure Threads (ι τ ω : Type*) where
  memory : Memory
  state : ι → τ
  left : ι → List ω

namespace Threads

variable {ι τ ω : Type*} {exec : ω → Memory → τ → Option (Memory × τ)}

/-- Thread `i` does its next operation. -/
def step [DecidableEq ι] (exec : ω → Memory → τ → Option (Memory × τ)) (s : Threads ι τ ω) (i : ι) :
    Option (Threads ι τ ω) :=
  match s.left i with
  | [] => none
  | o :: os => (exec o s.memory (s.state i)).map fun r ↦
    ⟨r.1, Function.update s.state i r.2, Function.update s.left i os⟩

/-- What one thread does next. -/
theorem step_cases [DecidableEq ι] {s s' : Threads ι τ ω} {i : ι} (h : step exec s i = some s') :
    ∃ o os r, s.left i = o :: os ∧ exec o s.memory (s.state i) = some r ∧
      s' = ⟨r.1, Function.update s.state i r.2, Function.update s.left i os⟩ := by
  rw [step] at h
  split at h
  · cases h
  · next o os hleft =>
    obtain ⟨r, hr, rfl⟩ := Option.map_eq_some_iff.mp h
    exact ⟨o, os, r, hleft, hr, rfl⟩

/-- Every thread is where it would be, had it run alone from `z` on; `R` is what it reads, and `W`
what it writes. -/
structure Alone (exec : ω → Memory → τ → Option (Memory × τ)) (R W : ι → Set Nat)
    (z s : Threads ι τ ω) : Prop where
  runs : ∀ i, ∃ done m, z.left i = done ++ s.left i ∧
    alone exec done z.memory (z.state i) = some (m, s.state i) ∧
    Set.EqOn m s.memory (R i) ∧ Confined exec (R i) (W i) (s.left i) m (s.state i)
  frame : ∀ x, (∀ i, x ∉ W i) → s.memory x = z.memory x

section Alone

variable {R W : ι → Set Nat} {z s s' : Threads ι τ ω} {i : ι}

theorem Alone.start (h : ∀ i, Confined exec (R i) (W i) (z.left i) z.memory (z.state i)) :
    Alone exec R W z z where
  runs i := ⟨[], z.memory, rfl, rfl, fun _ _ ↦ rfl, h i⟩
  frame _ _ := rfl

/-- **The step lemma.**  What one thread writes, the others do not read. -/
theorem Alone.step [DecidableEq ι] (hR : ∀ i j, i ≠ j → Disjoint (R i) (W j)) (h : Alone exec R W z s)
    (hstep : step exec s i = some s') : Alone exec R W z s' := by
  obtain ⟨o, os, r, hleft, hr, rfl⟩ := step_cases hstep
  obtain ⟨done, m, hdone, hrun, heq, hconf⟩ := h.runs i
  have heq₀ := heq
  rw [hleft] at hconf hdone
  obtain ⟨hprivate, hrest⟩ := hconf
  refine ⟨fun j ↦ ?_, fun x hx ↦ ?_⟩
  · rcases eq_or_ne j i with rfl | hne
    · -- alone, the thread does the same operation to a memory that agrees on its region
      obtain ⟨m₁, hm₁, heq₁⟩ := hprivate.congr heq hr
      refine ⟨done ++ [o], m₁, ?_, ?_, heq₁.symm, ?_⟩ <;> dsimp only
      · rw [Function.update_self, List.append_assoc, hdone]
        rfl
      · rw [alone_append, hrun, Option.bind_some, alone_cons hm₁, Function.update_self]
        rfl
      · rw [Function.update_self, Function.update_self]
        exact hrest _ hm₁
    · obtain ⟨done, m, hdone, hrun, heq, hconf⟩ := h.runs j
      refine ⟨done, m, ?_, ?_, fun x hx ↦ ?_, ?_⟩ <;> dsimp only
      · rwa [Function.update_of_ne hne]
      · rwa [Function.update_of_ne hne]
      · have hout : x ∈ (W i)ᶜ := fun hin ↦ Set.disjoint_left.mp (hR j i hne) hx hin
        exact (heq hx).trans (hprivate.frame heq₀ hr hout).symm
      · rwa [Function.update_of_ne hne, Function.update_of_ne hne]
  · exact (hprivate.frame heq hr (hx i)).trans (h.frame x hx)

/-- A thread that has come to its end has done what it does alone. -/
theorem Alone.finished (h : Alone exec R W z s) (hleft : s.left i = []) :
    ∃ m, alone exec (z.left i) z.memory (z.state i) = some (m, s.state i) ∧
      Set.EqOn m s.memory (R i) := by
  obtain ⟨done, m, hdone, hrun, heq, -⟩ := h.runs i
  rw [hleft, List.append_nil] at hdone
  rw [hdone]
  exact ⟨m, hrun, heq⟩

/-- A thread that does not fault alone does not fault among the others. -/
theorem Alone.enabled [DecidableEq ι] (h : Alone exec R W z s)
    (hall : (alone exec (z.left i) z.memory (z.state i)).isSome) (hleft : s.left i ≠ []) :
    (Threads.step exec s i).isSome := by
  obtain ⟨done, m, hdone, hrun, heq, hconf⟩ := h.runs i
  obtain ⟨o, os, hos⟩ := List.exists_cons_of_ne_nil hleft
  rw [hos] at hconf hdone
  rw [hdone, alone_append, hrun, Option.bind_some, alone] at hall
  obtain ⟨r, hr⟩ := Option.isSome_iff_exists.mp (Option.isSome_of_isSome_bind hall)
  have henabled := hconf.1.enabled heq (Option.isSome_iff_exists.mpr ⟨r, hr⟩)
  rw [Threads.step, hos]
  dsimp only
  rwa [Option.isSome_map]

end Alone

end Threads
