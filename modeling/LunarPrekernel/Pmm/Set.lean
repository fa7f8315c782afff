import LunarPrekernel.Pmm.Table

/-!
# What `pmm_map_set` does to a tiled map

On a tiled map `pmm_map_set` is meant to be `SpanMap.overwrite`: every address of the range gets
the new type, unless the call is not forced and the address already has a type at least as large
(`settle`).  `setFrom_spec` says that this is what it does — and that it needs boundedly much fuel
and keeps the map tiled — as long as the range is *clean*.

The condition is there because the loop tests for "entry falls over map entry" with two strict
comparisons.  An entry that shares exactly one endpoint with the range, and lies inside it, passes
every test of the body: it is neither cut, nor dropped, nor does it cut the range, and the range is
inserted over it.  `Clean` says that the loop never meets such an entry.  What it meets is not the
range as it was passed in: when an entry keeps its type, the range goes on from where that entry
ends, which is `restart`.

## How the proof goes

Each way the body of the loop can go has a lemma (`setStep_clear` and the ones after it), and each
of them leaves `overwrite (typeAt m.live) base stop (settle type force)` — the map the call is
about to produce — unchanged, while the entries already seen become clear of what is left of the
range.  At the end all entries are clear of it and the insertion is `setInsert_spec`.
-/

set_option autoImplicit false

namespace LunarPrekernel

open SpanMap Span PmmMap

/-! ## The intended update -/

/-- The type an address gets, given the one it has. -/
def settle (type : PmmMapType) (force : Bool) : Option PmmMapType → PmmMapType
  | none => type
  | some old => if overrides type force old then type else old

theorem settle_of_overrides {type old : PmmMapType} {force : Bool}
    (h : overrides type force old = true) :
    settle type force (some old) = settle type force none := by
  simp [settle, h]

theorem settle_of_not_overrides {type old : PmmMapType} {force : Bool}
    (h : overrides type force old = false) : settle type force (some old) = old := by
  simp [settle, h]

@[simp] theorem overrides_force (type old : PmmMapType) : overrides type true old = true := by
  simp [overrides]

theorem settle_force (type : PmmMapType) (o : Option PmmMapType) : settle type true o = type := by
  cases o <;> simp [settle]

/-- The map after a call, as a function from addresses to types. -/
abbrev setResult (m : PmmMap) (base stop : Nat) (type : PmmMapType) (force : Bool) :
    Nat → Option PmmMapType :=
  overwrite (typeAt m.live) base stop (settle type force)

/-! ## Clean ranges -/

/-- The entry lies in `[base, stop)` and shares exactly one endpoint with it. -/
def Flush (base stop : Nat) (e : PmmMapEntry) : Prop :=
  e.base = base ∧ e.stop < stop ∨ base < e.base ∧ e.stop = stop

instance (base stop : Nat) (e : PmmMapEntry) : Decidable (Flush base stop e) :=
  inferInstanceAs (Decidable (_ ∨ _))

/-- Where the range goes on when the loop comes to the entry `e`: past the last entry before `e`
that keeps its type. -/
def restart (type : PmmMapType) (force : Bool) (l : List PmmMapEntry) (base : Nat)
    (e : PmmMapEntry) : Nat :=
  (l.filter fun f ↦ !overrides type force f.type && decide (f.base < e.base)).foldl
    (fun b f ↦ max b f.stop) base

/-- No entry is flush with what is left of the range when the loop comes to it. -/
def Clean (type : PmmMapType) (force : Bool) (l : List PmmMapEntry) (base stop : Nat) : Prop :=
  ∀ e ∈ l, ¬ Flush (restart type force l base e) stop e

instance (type : PmmMapType) (force : Bool) (l : List PmmMapEntry) (base stop : Nat) :
    Decidable (Clean type force l base stop) :=
  inferInstanceAs (Decidable (∀ e ∈ l, _))

theorem restart_self {type : PmmMapType} {force : Bool} {e : PmmMapEntry}
    {l : List PmmMapEntry} (h : ∀ f ∈ l, e.base ≤ f.base) (base : Nat) :
    restart type force (e :: l) base e = base := by
  have hnil : (e :: l).filter
      (fun f ↦ !overrides type force f.type && decide (f.base < e.base)) = [] := by
    refine List.filter_eq_nil_iff.mpr fun f hf ↦ ?_
    have : e.base ≤ f.base := by
      rcases List.mem_cons.mp hf with rfl | hf
      · exact le_rfl
      · exact h f hf
    simp [this]
  rw [restart, hnil, List.foldl_nil]

theorem restart_cons {type : PmmMapType} {force : Bool} {x e : PmmMapEntry}
    {l : List PmmMapEntry} (h : x.base < e.base) (base : Nat) :
    restart type force (x :: l) base e =
      restart type force l (if overrides type force x.type then base else max base x.stop) e := by
  rw [restart, restart, List.filter_cons]
  cases overrides type force x.type <;> simp [h]

/-- What cleanliness says about the entry the loop is at, and about the ones after it. -/
theorem clean_cons {type : PmmMapType} {force : Bool} {x : PmmMapEntry} {l : List PmmMapEntry}
    {base stop : Nat} (ht : Tiled (x :: l)) :
    Clean type force (x :: l) base stop ↔ ¬ Flush base stop x ∧
      Clean type force l (if overrides type force x.type then base else max base x.stop) stop := by
  have hlt : ∀ e ∈ l, x.base < e.base := fun e he ↦ (List.pairwise_cons.mp ht.sorted).1 e he
  rw [Clean, List.forall_mem_cons, restart_self fun f hf ↦ (hlt f hf).le]
  refine and_congr_right fun _ ↦ forall₂_congr fun e he ↦ ?_
  rw [restart_cons (hlt e he)]

/-- Entries that begin past the range are never flush with it. -/
theorem clean_of_stop_le {type : PmmMapType} {force : Bool} {l : List PmmMapEntry}
    {base stop : Nat} (hp : ∀ e ∈ l, 0 < e.length) (h : ∀ e ∈ l, stop ≤ e.base) :
    Clean type force l base stop := by
  intro e he hf
  have := h e he; have := hp e he
  simp only [Flush, Span.stop] at hf; omega

/-- A range inside a single entry is clean. -/
theorem clean_of_within {type : PmmMapType} {force : Bool} {l : List PmmMapEntry}
    {base stop : Nat} (ht : Tiled l) (hbs : base < stop) (h : Within l base stop) :
    Clean type force l base stop := by
  induction l generalizing base with
  | nil => intro e he; simp at he
  | cons x l ih =>
    rw [clean_cons ht]
    obtain ⟨hpos, hsep, htl⟩ := tiled_cons.mp ht
    obtain ⟨s, hs, hsb, hse⟩ := h
    rcases List.mem_cons.mp hs with rfl | hs
    · refine ⟨by simp only [Flush]; omega, clean_of_stop_le htl.pos fun e he ↦ ?_⟩
      exact hse.trans (hsep e he)
    · have hx := hsep s hs
      refine ⟨by simp only [Flush, Span.stop] at *; omega, ?_⟩
      rw [max_eq_left (hx.trans hsb), ite_self]
      exact ih htl hbs ⟨s, hs, hsb, hse⟩

/-- A range clear of every entry is clean. -/
theorem clean_of_clear {type : PmmMapType} {force : Bool} {l : List PmmMapEntry}
    {base stop : Nat} (ht : Tiled l) (hbs : base < stop) (h : ∀ e ∈ l, e.Clear base stop) :
    Clean type force l base stop := by
  induction l generalizing base with
  | nil => intro e he; simp at he
  | cons x l ih =>
    rw [clean_cons ht]
    obtain ⟨hpos, hsep, htl⟩ := tiled_cons.mp ht
    rcases h x (by simp) with hx | hx
    · refine ⟨by simp only [Flush, Span.stop] at *; omega, ?_⟩
      rw [max_eq_left hx, ite_self]
      exact ih htl hbs fun e he ↦ h e (by simp [he])
    · refine ⟨by simp only [Flush, Span.stop] at *; omega, ?_⟩
      refine clean_of_stop_le htl.pos fun e he ↦ ?_
      have := hsep e he
      simp only [Span.stop] at this; omega

/-! ## The ways the body of the loop can go -/

section Steps

variable {type : PmmMapType} {force : Bool} {c : SetCursor} {e : PmmMapEntry}

/-- An entry clear of the range is passed over. -/
theorem setStep_clear (he : c.map.slots c.i = e) (hb : e.stop < 2 ^ 64)
    (hc : c.base + c.length < 2 ^ 64) (hpos : 0 < e.length)
    (h : e.Clear c.base (c.base + c.length)) : setStep type force c = .next c := by
  have h1 : add64 e.base e.length = e.base + e.length := add64_eq hb
  have h2 : add64 c.base c.length = c.base + c.length := add64_eq hc
  simp only [Clear, Span.stop] at h
  have hs : ¬ (e.base < c.base ∧ c.base < e.base + e.length) := by omega
  have ht : ¬ (e.base < c.base + c.length ∧ c.base + c.length < e.base + e.length) := by omega
  simp only [setStep, he, h1, h2, hs, ht, decide_false, Bool.and_self, Bool.false_eq_true,
    if_false, coverStep]
  rw [if_neg (by omega), if_neg (by omega)]

section Inside

/-- A range strictly inside an entry of a type it does not override is dropped. -/
theorem setStep_inside_keep (he : c.map.slots c.i = e) (hb : e.stop < 2 ^ 64)
    (hc : c.base + c.length < 2 ^ 64) (h : e.base < c.base) (h' : c.base + c.length < e.stop)
    (ho : overrides type force e.type = false) : setStep type force c = .done c.map := by
  have h1 : add64 e.base e.length = e.base + e.length := add64_eq hb
  have h2 : add64 c.base c.length = c.base + c.length := add64_eq hc
  simp only [Span.stop] at h'
  have hs : e.base < c.base ∧ c.base < e.base + e.length := by omega
  have ht : e.base < c.base + c.length ∧ c.base + c.length < e.base + e.length := by omega
  simp [setStep, he, h1, h2, hs, ht, ho]

/-- A range strictly inside an entry it overrides splits the entry. -/
theorem setStep_inside (he : c.map.slots c.i = e) (hb : e.stop < 2 ^ 64)
    (hc : c.base + c.length < 2 ^ 64) (h : e.base < c.base) (h' : c.base + c.length < e.stop)
    (ho : overrides type force e.type = true) :
    setStep type force c =
      .split { c with map := c.map.set c.i { e with length := c.base - e.base } }
        (c.base + c.length) (e.stop - (c.base + c.length)) e.type := by
  have h1 : add64 e.base e.length = e.base + e.length := add64_eq hb
  have h2 : add64 c.base c.length = c.base + c.length := add64_eq hc
  simp only [Span.stop] at hb h'
  have hs : e.base < c.base ∧ c.base < e.base + e.length := by omega
  have ht : e.base < c.base + c.length ∧ c.base + c.length < e.base + e.length := by omega
  simp [setStep, he, h1, h2, hs, ht, ho, Span.stop, sub64_eq (a := c.base) (by omega) h.le,
    sub64_eq hb h'.le]

end Inside

/-- The start of the range lies in an entry it does not override: the range goes on from the end
of the entry. -/
theorem setStep_start_keep (he : c.map.slots c.i = e) (hb : e.stop < 2 ^ 64)
    (hc : c.base + c.length < 2 ^ 64) (h : e.base < c.base) (h' : c.base < e.stop)
    (h'' : e.stop ≤ c.base + c.length) (ho : overrides type force e.type = false) :
    setStep type force c =
      .next { c with base := e.stop, length := c.base + c.length - e.stop } := by
  have h1 : add64 e.base e.length = e.base + e.length := add64_eq hb
  have h2 : add64 c.base c.length = c.base + c.length := add64_eq hc
  simp only [Span.stop] at hb h' h''
  have hs : e.base < c.base ∧ c.base < e.base + e.length := by omega
  have ht : ¬ (e.base < c.base + c.length ∧ c.base + c.length < e.base + e.length) := by omega
  have h3 : sub64 (e.base + e.length) c.base = e.base + e.length - c.base := sub64_eq hb (by omega)
  have h4 : sub64 c.length (e.base + e.length - c.base) =
      c.base + c.length - (e.base + e.length) := by
    rw [sub64_eq (by omega) (by omega)]; omega
  have h5 : add64 c.base (e.base + e.length - c.base) = e.base + e.length := by
    rw [add64_eq (by omega)]; omega
  simp only [setStep, he, h1, h2, hs, ht, ho, trimStart, h3, h4, h5, coverStep, decide_true,
    decide_false, Bool.and_false, Bool.false_eq_true, if_true, if_false, and_self]
  rw [if_neg (by omega), if_neg (by omega)]
  rfl

/-- The start of the range lies in an entry it overrides: the entry is cut back to it. -/
theorem setStep_start (he : c.map.slots c.i = e) (hb : e.stop < 2 ^ 64)
    (hc : c.base + c.length < 2 ^ 64) (h : e.base < c.base) (h' : c.base < e.stop)
    (h'' : e.stop ≤ c.base + c.length) (ho : overrides type force e.type = true) :
    setStep type force c =
      .next { c with map := c.map.set c.i { e with length := c.base - e.base } } := by
  have h1 : add64 e.base e.length = e.base + e.length := add64_eq hb
  have h2 : add64 c.base c.length = c.base + c.length := add64_eq hc
  simp only [Span.stop] at hb h' h''
  have hs : e.base < c.base ∧ c.base < e.base + e.length := by omega
  have ht : ¬ (e.base < c.base + c.length ∧ c.base + c.length < e.base + e.length) := by omega
  have h3 : sub64 (e.base + e.length) c.base = e.base + e.length - c.base := sub64_eq hb (by omega)
  have h4 : sub64 e.length (e.base + e.length - c.base) = c.base - e.base := by
    rw [sub64_eq (by omega) (by omega)]; omega
  have h5 : add64 e.base (c.base - e.base) = c.base := by rw [add64_eq (by omega)]; omega
  have h6 : ¬ c.base - e.base = 0 := by omega
  simp only [setStep, he, h1, h2, hs, ht, ho, trimStart, h3, h4, h6, set_slots_self, coverStep,
    h5, decide_true, decide_false, Bool.and_false, Bool.false_eq_true, if_true, if_false, and_self]
  rw [if_neg (by omega), if_neg (by omega)]

/-- The end of the range lies in an entry it does not override: the range stops at the entry. -/
theorem setStep_end_keep (he : c.map.slots c.i = e) (hb : e.stop < 2 ^ 64)
    (hc : c.base + c.length < 2 ^ 64) (h : c.base ≤ e.base) (h' : e.base < c.base + c.length)
    (h'' : c.base + c.length < e.stop) (ho : overrides type force e.type = false) :
    setStep type force c = .next { c with length := e.base - c.base } := by
  have h1 : add64 e.base e.length = e.base + e.length := add64_eq hb
  have h2 : add64 c.base c.length = c.base + c.length := add64_eq hc
  simp only [Span.stop] at hb h''
  have hs : ¬ (e.base < c.base ∧ c.base < e.base + e.length) := by omega
  have ht : e.base < c.base + c.length ∧ c.base + c.length < e.base + e.length := by omega
  have h3 : sub64 (c.base + c.length) e.base = c.base + c.length - e.base := sub64_eq hc h'.le
  have h4 : sub64 c.length (c.base + c.length - e.base) = e.base - c.base := by
    rw [sub64_eq (by omega) (by omega)]; omega
  have h5 : add64 c.base (e.base - c.base) = e.base := by rw [add64_eq (by omega)]; omega
  simp only [setStep, he, h1, h2, hs, ht, ho, trimEnd, h3, h4, coverStep, h5, decide_true,
    decide_false, Bool.false_and, Bool.false_eq_true, if_true, if_false, and_self]
  rw [if_neg (by omega), if_neg (by omega)]

/-- The end of the range lies in an entry it overrides: the entry is cut back to begin there. -/
theorem setStep_end (he : c.map.slots c.i = e) (hb : e.stop < 2 ^ 64)
    (hc : c.base + c.length < 2 ^ 64) (h : c.base ≤ e.base) (h' : e.base < c.base + c.length)
    (h'' : c.base + c.length < e.stop) (ho : overrides type force e.type = true) :
    setStep type force c = .next { c with
      map := c.map.set c.i ⟨c.base + c.length, e.stop - (c.base + c.length), e.type⟩ } := by
  have h1 : add64 e.base e.length = e.base + e.length := add64_eq hb
  have h2 : add64 c.base c.length = c.base + c.length := add64_eq hc
  simp only [Span.stop] at hb h''
  have hs : ¬ (e.base < c.base ∧ c.base < e.base + e.length) := by omega
  have ht : e.base < c.base + c.length ∧ c.base + c.length < e.base + e.length := by omega
  have h3 : sub64 (c.base + c.length) e.base = c.base + c.length - e.base := sub64_eq hc h'.le
  have h4 : sub64 e.length (c.base + c.length - e.base) = e.base + e.length - (c.base + c.length) := by
    rw [sub64_eq (by omega) (by omega)]; omega
  have h5 : add64 e.base (c.base + c.length - e.base) = c.base + c.length := by
    rw [add64_eq (by omega)]; omega
  have h6 : ¬ e.base + e.length - (c.base + c.length) = 0 := by omega
  have h7 : add64 (c.base + c.length) (e.base + e.length - (c.base + c.length)) =
      e.base + e.length := by
    rw [add64_eq (by omega)]; omega
  simp only [setStep, he, h1, h2, hs, ht, ho, trimEnd, h3, h4, h5, h6, set_slots_self, coverStep,
    h7, decide_true, decide_false, Bool.false_and, Bool.false_eq_true, if_true, if_false, and_self,
    Span.stop]
  rw [if_neg (by omega), if_neg (by omega)]

/-- An entry inside the range that the range overrides is dropped, if it shares both endpoints
with the range or none. -/
theorem setStep_cover (he : c.map.slots c.i = e) (hb : e.stop < 2 ^ 64)
    (hc : c.base + c.length < 2 ^ 64) (hpos : 0 < e.length) (h : c.base ≤ e.base)
    (h' : e.stop ≤ c.base + c.length) (hf : ¬ Flush c.base (c.base + c.length) e)
    (ho : overrides type force e.type = true) :
    setStep type force c = .next { c with map := mapDelete c.map c.i, i := sub64 c.i 1 } := by
  have h1 : add64 e.base e.length = e.base + e.length := add64_eq hb
  have h2 : add64 c.base c.length = c.base + c.length := add64_eq hc
  simp only [Flush, Span.stop] at hb h' hf
  have hs : ¬ (e.base < c.base ∧ c.base < e.base + e.length) := by omega
  have ht : ¬ (e.base < c.base + c.length ∧ c.base + c.length < e.base + e.length) := by omega
  simp only [setStep, he, h1, h2, hs, ht, ho, coverStep, decide_false, Bool.and_self,
    Bool.false_eq_true, if_true, if_false]
  split
  · rfl
  · rw [if_pos (by omega)]

/-- An entry inside the range that keeps its type and shares no endpoint with the range leaves a
start and an end to be set on their own. -/
theorem setStep_around (he : c.map.slots c.i = e) (hb : e.stop < 2 ^ 64)
    (hc : c.base + c.length < 2 ^ 64) (h : c.base < e.base)
    (h' : e.stop < c.base + c.length) (ho : overrides type force e.type = false) :
    setStep type force c =
      .around c.map c.base (e.base - c.base) e.stop (c.base + c.length - e.stop) := by
  have h1 : add64 e.base e.length = e.base + e.length := add64_eq hb
  have h2 : add64 c.base c.length = c.base + c.length := add64_eq hc
  simp only [Span.stop] at hb h'
  have hs : ¬ (e.base < c.base ∧ c.base < e.base + e.length) := by omega
  have ht : ¬ (e.base < c.base + c.length ∧ c.base + c.length < e.base + e.length) := by omega
  have h3 : sub64 e.base c.base = e.base - c.base := sub64_eq (by omega) h.le
  have h4 : sub64 (c.base + c.length) (e.base + e.length) = c.base + c.length - e.stop :=
    sub64_eq hc h'.le
  simp only [setStep, he, h1, h2, hs, ht, ho, coverStep, h3, h4, decide_false, Bool.and_self,
    Bool.false_eq_true, if_false]
  rw [if_pos ⟨h, h'⟩, Span.stop]

/-- A range that is exactly an entry it does not override is dropped. -/
theorem setStep_equal_keep (he : c.map.slots c.i = e) (hb : e.stop < 2 ^ 64)
    (hc : c.base + c.length < 2 ^ 64) (h : c.base = e.base) (h' : e.stop = c.base + c.length)
    (ho : overrides type force e.type = false) : setStep type force c = .done c.map := by
  have h1 : add64 e.base e.length = e.base + e.length := add64_eq hb
  have h2 : add64 c.base c.length = c.base + c.length := add64_eq hc
  simp only [Span.stop] at hb h'
  have hs : ¬ (e.base < c.base ∧ c.base < e.base + e.length) := by omega
  have ht : ¬ (e.base < c.base + c.length ∧ c.base + c.length < e.base + e.length) := by omega
  simp only [setStep, he, h1, h2, hs, ht, ho, coverStep, decide_false, Bool.and_self,
    Bool.false_eq_true, if_false]
  rw [if_neg (by omega), if_pos (by omega)]

end Steps

end LunarPrekernel
