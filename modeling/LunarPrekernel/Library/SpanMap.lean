import Mathlib.Tactic
import Mathlib.Data.List.Pairwise

/-!
# Maps from addresses to types, as sorted lists of spans

A map that is constant on long stretches of addresses is kept as a list of *spans*, each a base, a
length and the value taken on that stretch.  The list is `Tiled` when its spans are non-empty,
sorted and pairwise disjoint; then every address lies in at most one span and `typeAt` reads its
value off.

* `overwrite f b e g` is the abstract update: `f` with the value at each address of `[b, e)`
  replaced by what `g` makes of it.
* `Join s l r k` is the concrete one: `k` is `l ++ r` with the span `s` put between `l` and `r`,
  glued to the last span of `l` or to the first span of `r` when that continues it with the same
  value.  `Join.tiled`, `Join.typeAt` and `Join.covers` say that this is `overwrite` with a
  constant, and that no span is ever cut by it.
* `Within l p q` says that a single span holds all of `[p, q)`, which is more than `typeAt` being
  constant there: two touching spans of one value are still two spans.

Nothing here depends on what the values are.
-/

set_option autoImplicit false

universe u

/-- A stretch of addresses `[base, base + length)` on which a map takes one value. -/
structure Span (τ : Type u) where
  base : Nat
  length : Nat
  type : τ
deriving DecidableEq, Repr

namespace Span

variable {τ : Type u}

/-- The first address past the span. -/
def stop (s : Span τ) : Nat := s.base + s.length

/-- `a` lies in the span. -/
def Contains (s : Span τ) (a : Nat) : Prop := s.base ≤ a ∧ a < s.stop

instance (s : Span τ) (a : Nat) : Decidable (s.Contains a) :=
  inferInstanceAs (Decidable (_ ∧ _))

/-- The span has nothing strictly inside `[b, e)`: it ends before it or begins after it. -/
def Clear (s : Span τ) (b e : Nat) : Prop := s.stop ≤ b ∨ e ≤ s.base

instance (s : Span τ) (b e : Nat) : Decidable (s.Clear b e) :=
  inferInstanceAs (Decidable (_ ∨ _))

@[simp] theorem stop_mk (b n : Nat) (t : τ) : (⟨b, n, t⟩ : Span τ).stop = b + n := rfl

theorem contains_mk {b n a : Nat} {t : τ} :
    (⟨b, n, t⟩ : Span τ).Contains a ↔ b ≤ a ∧ a < b + n := Iff.rfl

theorem Contains.base_le {s : Span τ} {a : Nat} (h : s.Contains a) : s.base ≤ a := h.1

theorem Contains.lt_stop {s : Span τ} {a : Nat} (h : s.Contains a) : a < s.stop := h.2

/-- A non-empty span that avoids every address of a non-empty range is clear of it. -/
theorem clear_of_forall {s : Span τ} {b e : Nat} (hs : 0 < s.length) (hbe : b < e)
    (h : ∀ a, b ≤ a → a < e → ¬ s.Contains a) : s.Clear b e := by
  by_contra hc
  simp only [Clear, not_or, not_le] at hc
  refine h (max b s.base) (le_max_left _ _) (max_lt hbe hc.2) ⟨le_max_right _ _, max_lt hc.1 ?_⟩
  simp only [stop]; omega

end Span

namespace SpanMap

variable {τ : Type u}

open Span

/-! ## Reading a list of spans -/

/-- The spans are non-empty, sorted, and pairwise disjoint. -/
structure Tiled (l : List (Span τ)) : Prop where
  /-- No span is empty. -/
  pos : ∀ s ∈ l, 0 < s.length
  /-- Each span ends before any later one begins. -/
  sep : l.Pairwise fun s t ↦ s.stop ≤ t.base

/-- The value at `a`, if some span holds it. -/
def typeAt (l : List (Span τ)) (a : Nat) : Option τ :=
  (l.find? fun s ↦ decide (s.Contains a)).map Span.type

/-- A single span of `l` holds all of `[p, q)`. -/
def Within (l : List (Span τ)) (p q : Nat) : Prop := ∃ s ∈ l, s.base ≤ p ∧ q ≤ s.stop

/-- Every span of `l` lies in a span of `k`. -/
def Covers (k l : List (Span τ)) : Prop := ∀ s ∈ l, ∃ t ∈ k, t.base ≤ s.base ∧ s.stop ≤ t.stop

@[simp] theorem typeAt_nil (a : Nat) : typeAt ([] : List (Span τ)) a = none := rfl

theorem typeAt_cons (s : Span τ) (l : List (Span τ)) (a : Nat) :
    typeAt (s :: l) a = if s.Contains a then some s.type else typeAt l a := by
  rw [typeAt, List.find?_cons]
  split <;> rename_i h <;> simp_all [typeAt]

theorem typeAt_append (l r : List (Span τ)) (a : Nat) :
    typeAt (l ++ r) a = (typeAt l a).or (typeAt r a) := by
  induction l with
  | nil => simp
  | cons s l ih =>
    rw [List.cons_append, typeAt_cons, typeAt_cons, ih]
    split <;> simp

theorem typeAt_eq_none {l : List (Span τ)} {a : Nat} :
    typeAt l a = none ↔ ∀ s ∈ l, ¬ s.Contains a := by
  simp [typeAt]

theorem typeAt_isSome {l : List (Span τ)} {a : Nat} :
    typeAt l a ≠ none ↔ ∃ s ∈ l, s.Contains a := by
  rw [Ne, typeAt_eq_none]; push Not; rfl

theorem Tiled.nil : Tiled ([] : List (Span τ)) := ⟨by simp, List.Pairwise.nil⟩

theorem tiled_append {l r : List (Span τ)} :
    Tiled (l ++ r) ↔ Tiled l ∧ Tiled r ∧ ∀ s ∈ l, ∀ t ∈ r, s.stop ≤ t.base := by
  constructor
  · rintro ⟨hp, hs⟩
    rw [List.pairwise_append] at hs
    exact ⟨⟨fun s h ↦ hp s (by simp [h]), hs.1⟩, ⟨fun s h ↦ hp s (by simp [h]), hs.2.1⟩, hs.2.2⟩
  · rintro ⟨hl, hr, hlr⟩
    refine ⟨fun s h ↦ ?_, List.pairwise_append.mpr ⟨hl.sep, hr.sep, hlr⟩⟩
    rcases List.mem_append.mp h with h | h
    · exact hl.pos s h
    · exact hr.pos s h

theorem tiled_cons {s : Span τ} {l : List (Span τ)} :
    Tiled (s :: l) ↔ 0 < s.length ∧ (∀ t ∈ l, s.stop ≤ t.base) ∧ Tiled l := by
  constructor
  · rintro ⟨hp, hs⟩
    rw [List.pairwise_cons] at hs
    exact ⟨hp s (by simp), hs.1, fun t h ↦ hp t (by simp [h]), hs.2⟩
  · rintro ⟨hs, hl, ht⟩
    refine ⟨fun t h ↦ ?_, List.pairwise_cons.mpr ⟨hl, ht.sep⟩⟩
    rcases List.mem_cons.mp h with rfl | h
    · exact hs
    · exact ht.pos t h

/-- In a tiled list the value at an address is that of any span holding it. -/
theorem Tiled.typeAt_eq_some {l : List (Span τ)} (h : Tiled l) {a : Nat} {t : τ} :
    typeAt l a = some t ↔ ∃ s ∈ l, s.Contains a ∧ s.type = t := by
  induction l with
  | nil => simp
  | cons s l ih =>
    obtain ⟨-, hl, ht⟩ := tiled_cons.mp h
    rw [typeAt_cons]
    split
    · rename_i hc
      simp only [Option.some.injEq, List.exists_mem_cons_iff]
      refine ⟨fun ha ↦ Or.inl ⟨hc, ha⟩, ?_⟩
      rintro (⟨-, ha⟩ | ⟨r, hr, hra, -⟩)
      · exact ha
      · have := hl r hr; have := hra.base_le; have := hc.lt_stop; omega
    · rename_i hc
      rw [ih ht, List.exists_mem_cons_iff]
      simp [hc]

/-- At most one span of a tiled list holds a given address. -/
theorem Tiled.unique {l : List (Span τ)} (h : Tiled l) {s t : Span τ} (hs : s ∈ l) (ht : t ∈ l)
    {a : Nat} (hsa : s.Contains a) (hta : t.Contains a) : s = t := by
  induction l with
  | nil => simp at hs
  | cons r l ih =>
    obtain ⟨-, hl, hr⟩ := tiled_cons.mp h
    have hsep : ∀ x ∈ l, x.Contains a → r.Contains a → False := by
      intro x hx hxa hra
      have := hl x hx; have := hxa.base_le; have := hra.lt_stop; omega
    rcases List.mem_cons.mp hs with rfl | hs' <;> rcases List.mem_cons.mp ht with rfl | ht'
    · rfl
    · exact (hsep t ht' hta hsa).elim
    · exact (hsep s hs' hsa hta).elim
    · exact ih hr hs' ht'

/-- The bases of a tiled list increase strictly. -/
theorem Tiled.sorted {l : List (Span τ)} (h : Tiled l) : l.Pairwise fun s t ↦ s.base < t.base := by
  refine h.sep.imp_of_mem fun {s t} hs _ hst ↦ ?_
  have := h.pos s hs
  simp only [stop] at hst; omega

/-- A range clear of every span holds no address of the map. -/
theorem typeAt_eq_none_of_clear {l : List (Span τ)} {b e a : Nat} (h : ∀ s ∈ l, s.Clear b e)
    (hb : b ≤ a) (he : a < e) : typeAt l a = none := by
  rw [typeAt_eq_none]
  rintro s hs ⟨h1, h2⟩
  rcases h s hs with hc | hc <;> omega

/-- If no address of a non-empty range is mapped, every span is clear of it. -/
theorem Tiled.clear_of_typeAt {l : List (Span τ)} (h : Tiled l) {b e : Nat} (hbe : b < e)
    (hn : ∀ a, b ≤ a → a < e → typeAt l a = none) : ∀ s ∈ l, s.Clear b e :=
  fun s hs ↦ clear_of_forall (h.pos s hs) hbe fun a hb he ↦ typeAt_eq_none.mp (hn a hb he) s hs

theorem Within.mono {l k : List (Span τ)} (hk : Covers k l) {p q : Nat} (h : Within l p q) :
    Within k p q := by
  obtain ⟨s, hs, hp, hq⟩ := h
  obtain ⟨t, ht, h1, h2⟩ := hk s hs
  exact ⟨t, ht, h1.trans hp, hq.trans h2⟩

/-- A range held by one span has that span's value throughout. -/
theorem Tiled.typeAt_of_within {l : List (Span τ)} (h : Tiled l) {s : Span τ} (hs : s ∈ l)
    {a : Nat} (ha : s.Contains a) : typeAt l a = some s.type :=
  h.typeAt_eq_some.mpr ⟨s, hs, ha, rfl⟩

/-! ## The abstract update -/

/-- `f` with the value at each address of `[b, e)` replaced by what `g` makes of it. -/
def overwrite (f : Nat → Option τ) (b e : Nat) (g : Option τ → τ) : Nat → Option τ :=
  fun a ↦ if b ≤ a ∧ a < e then some (g (f a)) else f a

theorem overwrite_of_mem {f : Nat → Option τ} {b e a : Nat} {g : Option τ → τ} (hb : b ≤ a)
    (he : a < e) : overwrite f b e g a = some (g (f a)) := if_pos ⟨hb, he⟩

theorem overwrite_of_not_mem {f : Nat → Option τ} {b e a : Nat} {g : Option τ → τ}
    (h : ¬ (b ≤ a ∧ a < e)) : overwrite f b e g a = f a := if_neg h

/-- Cutting a span down to what of it lies outside `[b, e)` does not change an update that would
replace its value there anyway. -/
theorem overwrite_cut {pre post parts : List (Span τ)} {s : Span τ} {b e : Nat}
    {g : Option τ → τ} (ht : Tiled (pre ++ s :: post)) (hg : g (some s.type) = g none)
    (hout : ∀ a, ¬ (b ≤ a ∧ a < e) → typeAt parts a = typeAt [s] a)
    (hin : ∀ a, b ≤ a → a < e → typeAt parts a = none) :
    overwrite (typeAt (pre ++ parts ++ post)) b e g =
      overwrite (typeAt (pre ++ s :: post)) b e g := by
  funext a
  rw [List.append_cons pre s post]
  unfold overwrite
  simp only [typeAt_append]
  split
  · rename_i ha
    rw [hin a ha.1 ha.2]
    by_cases hs : s.Contains a
    · -- `s` is the only span that can hold `a`
      have hpre : typeAt pre a = none := typeAt_eq_none.mpr fun x hx hxa ↦ by
        have := (tiled_append.mp ht).2.2 x hx s (by simp)
        have := hxa.lt_stop; have := hs.base_le; omega
      have hpost : typeAt post a = none := typeAt_eq_none.mpr fun x hx hxa ↦ by
        have := (tiled_cons.mp (tiled_append.mp ht).2.1).2.1 x hx
        have := hxa.base_le; have := hs.lt_stop; omega
      simp [hpre, hpost, typeAt_cons, hs, hg]
    · simp [typeAt_cons, hs]
  · rename_i ha
    rw [hout a ha]

/-- What of `l` lies outside `[b, e)` and inside one span lies inside one span of `k`. -/
def Keeps (l k : List (Span τ)) (b e : Nat) : Prop :=
  ∀ p q, p < q → q ≤ b ∨ e ≤ p → Within l p q → Within k p q

theorem Keeps.refl (l : List (Span τ)) (b e : Nat) : Keeps l l b e := fun _ _ _ _ h ↦ h

theorem Covers.keeps {l k : List (Span τ)} (h : Covers k l) (b e : Nat) : Keeps l k b e :=
  fun _ _ _ _ hw ↦ hw.mono h

/-- Two updates one after the other, the second within the range of the first. -/
theorem Keeps.trans {l k j : List (Span τ)} {b e b' e' : Nat} (h : Keeps l k b e)
    (h' : Keeps k j b' e') (hb : b ≤ b') (he : e' ≤ e) : Keeps l j b e :=
  fun p q hpq hout hw ↦ h' p q hpq (hout.imp (·.trans hb) he.trans) (h p q hpq hout hw)

theorem keeps_cut {pre post parts : List (Span τ)} {s : Span τ} {b e : Nat}
    (h : ∀ p q, p < q → q ≤ b ∨ e ≤ p → s.base ≤ p → q ≤ s.stop → Within parts p q) :
    Keeps (pre ++ s :: post) (pre ++ parts ++ post) b e := by
  rintro p q hpq hout ⟨x, hx, hp, hq⟩
  simp only [List.mem_append, List.mem_cons] at hx
  rcases hx with hx | rfl | hx
  · exact ⟨x, by simp [hx], hp, hq⟩
  · obtain ⟨y, hy, hyp, hyq⟩ := h p q hpq hout hp hq
    exact ⟨y, by simp [hy], hyp, hyq⟩
  · exact ⟨x, by simp [hx], hp, hq⟩

/-! ## Putting a span between two others -/

/-- `Join s l r k`: `k` is `l ++ r` with `s` between `l` and `r`, glued to the last span of `l` if
that runs up to `s` with the same value, else to the first span of `r` if that runs on from it. -/
inductive Join (s : Span τ) : List (Span τ) → List (Span τ) → List (Span τ) → Prop
  | prev {l r : List (Span τ)} {p : Span τ} (ht : p.type = s.type) (hb : p.stop = s.base) :
      Join s (l ++ [p]) r (l ++ { p with length := p.length + s.length } :: r)
  | next {l r : List (Span τ)} {q : Span τ}
      (hl : ∀ p ∈ l.getLast?, ¬ (p.type = s.type ∧ p.stop = s.base))
      (ht : q.type = s.type) (hb : q.base = s.stop) :
      Join s l (q :: r) (l ++ ⟨s.base, q.length + s.length, q.type⟩ :: r)
  | alone {l r : List (Span τ)}
      (hl : ∀ p ∈ l.getLast?, ¬ (p.type = s.type ∧ p.stop = s.base))
      (hr : ∀ q ∈ r.head?, ¬ (q.type = s.type ∧ q.base = s.stop)) :
      Join s l r (l ++ s :: r)

section Join

variable {s : Span τ} {l r k : List (Span τ)}

theorem Join.tiled (h : Join s l r k) (hs : 0 < s.length) (ht : Tiled (l ++ r))
    (hl : ∀ p ∈ l, p.stop ≤ s.base) (hr : ∀ q ∈ r, s.stop ≤ q.base) : Tiled k := by
  cases h with
  | @prev l r p hpt hpb =>
    simp only [tiled_append, tiled_cons, List.mem_append, List.mem_singleton] at ht ⊢
    obtain ⟨⟨htl, ⟨hp, -⟩, hlp⟩, htr, hlr⟩ := ht
    refine ⟨htl, ⟨by simp; omega, fun q hq ↦ ?_, htr⟩, fun x hx y hy ↦ ?_⟩
    · have := hr q hq
      simp only [stop] at this hpb ⊢; omega
    · rcases List.mem_cons.mp hy with rfl | hy
      · exact hlp x hx p rfl
      · exact hlr x (Or.inl hx) y hy
  | @next l r q hn hqt hqb =>
    simp only [tiled_append, tiled_cons, List.mem_cons] at ht ⊢
    obtain ⟨htl, ⟨hq, hqr, htr⟩, hlr⟩ := ht
    refine ⟨htl, ⟨by simp; omega, fun y hy ↦ ?_, htr⟩, fun x hx y hy ↦ ?_⟩
    · have := hqr y hy
      simp only [stop] at this hqb ⊢; omega
    · rcases hy with rfl | hy
      · exact hl x hx
      · exact hlr x hx y (Or.inr hy)
  | alone _ _ =>
    simp only [tiled_append, tiled_cons] at ht ⊢
    refine ⟨ht.1, ⟨hs, hr, ht.2.1⟩, fun x hx y hy ↦ ?_⟩
    rcases List.mem_cons.mp hy with rfl | hy
    · exact hl x hx
    · exact ht.2.2 x hx y hy

/-- Joining a span in is the constant update of its range. -/
theorem Join.typeAt (h : Join s l r k) (a : Nat)
    (hl : ∀ p ∈ l, p.stop ≤ s.base) (hr : ∀ q ∈ r, s.stop ≤ q.base) :
    typeAt k a = overwrite (typeAt (l ++ r)) s.base s.stop (fun _ ↦ s.type) a := by
  have hclear : ∀ x ∈ l ++ r, s.Contains a → ¬ x.Contains a := by
    rintro x hx ⟨h1, h2⟩ ⟨h3, h4⟩
    rcases List.mem_append.mp hx with hx | hx
    · have := hl x hx; omega
    · have := hr x hx; omega
  have hnone : s.Contains a → SpanMap.typeAt (l ++ r) a = none :=
    fun hs ↦ typeAt_eq_none.mpr fun x hx ↦ hclear x hx hs
  unfold overwrite
  change _ = if s.Contains a then some s.type else SpanMap.typeAt (l ++ r) a
  cases h with
  | @prev l r p hpt hpb =>
    have hc : (⟨p.base, p.length + s.length, p.type⟩ : Span τ).Contains a ↔
        p.Contains a ∨ s.Contains a := by
      simp only [Contains, stop] at hpb ⊢; omega
    simp only [typeAt_append, typeAt_cons, typeAt_nil, hc] at hnone ⊢
    by_cases hs : s.Contains a
    · simp_all
    · by_cases hp : p.Contains a <;> simp [hs, hp, hpt]
  | @next l r q hn hqt hqb =>
    have hc : (⟨s.base, q.length + s.length, q.type⟩ : Span τ).Contains a ↔
        s.Contains a ∨ q.Contains a := by
      simp only [Contains, stop] at hqb ⊢; omega
    simp only [typeAt_append, typeAt_cons, hc] at hnone ⊢
    by_cases hs : s.Contains a
    · simp_all
    · by_cases hq : q.Contains a <;> simp [hs, hq, hqt]
  | alone _ _ =>
    simp only [typeAt_append, typeAt_cons] at hnone ⊢
    by_cases hs : s.Contains a
    · simp_all
    · simp [hs]

/-- Joining a span in cuts no span. -/
theorem Join.covers (h : Join s l r k) : Covers k (l ++ r) := by
  intro x hx
  cases h with
  | @prev l r p hpt hpb =>
    simp only [List.mem_append, List.mem_singleton] at hx
    rcases hx with (hx | rfl) | hx
    · exact ⟨x, by simp [hx], le_rfl, le_rfl⟩
    · exact ⟨⟨x.base, x.length + s.length, x.type⟩, by simp, le_rfl, by simp [stop]⟩
    · exact ⟨x, by simp [hx], le_rfl, le_rfl⟩
  | @next l r q hn hqt hqb =>
    simp only [List.mem_append, List.mem_cons] at hx
    rcases hx with hx | rfl | hx
    · exact ⟨x, by simp [hx], le_rfl, le_rfl⟩
    · exact ⟨⟨s.base, x.length + s.length, x.type⟩, by simp, by simp only [stop] at hqb ⊢; omega,
        by simp only [stop] at hqb ⊢; omega⟩
    · exact ⟨x, by simp [hx], le_rfl, le_rfl⟩
  | alone _ _ =>
    simp only [List.mem_append] at hx
    exact ⟨x, by rcases hx with hx | hx <;> simp [hx], le_rfl, le_rfl⟩

/-- The joined span itself ends up inside one span. -/
theorem Join.within (h : Join s l r k) : Within k s.base s.stop := by
  cases h with
  | @prev l r p hpt hpb =>
    exact ⟨⟨p.base, p.length + s.length, p.type⟩, by simp, by simp only [stop] at hpb ⊢; omega,
      by simp only [stop] at hpb ⊢; omega⟩
  | @next l r q hn hqt hqb =>
    exact ⟨⟨s.base, q.length + s.length, q.type⟩, by simp, le_rfl, by
      simp only [stop] at hqb ⊢; omega⟩
  | alone _ _ => exact ⟨s, by simp, le_rfl, le_rfl⟩

/-- The spans of a join end where the joined span or an old one did. -/
theorem Join.stop_eq (h : Join s l r k) :
    ∀ x ∈ k, x.stop = s.stop ∨ ∃ y ∈ l ++ r, x.stop = y.stop := by
  intro x hx
  cases h with
  | @prev l r p hpt hpb =>
    simp only [List.mem_append, List.mem_cons] at hx
    rcases hx with hx | rfl | hx
    · exact Or.inr ⟨x, by simp [hx], rfl⟩
    · exact Or.inl (by simp only [stop] at hpb ⊢; omega)
    · exact Or.inr ⟨x, by simp [hx], rfl⟩
  | @next l r q hn hqt hqb =>
    simp only [List.mem_append, List.mem_cons] at hx
    rcases hx with hx | rfl | hx
    · exact Or.inr ⟨x, by simp [hx], rfl⟩
    · exact Or.inr ⟨q, by simp, by simp only [stop] at hqb ⊢; omega⟩
    · exact Or.inr ⟨x, by simp [hx], rfl⟩
  | alone _ _ =>
    simp only [List.mem_append, List.mem_cons] at hx
    rcases hx with hx | rfl | hx
    · exact Or.inr ⟨x, by simp [hx], rfl⟩
    · exact Or.inl rfl
    · exact Or.inr ⟨x, by simp [hx], rfl⟩

/-- A join touches no span behind the one it comes before. -/
theorem Join.tail {q : Span τ} (h : Join s l (q :: r) k) (hl : ∀ p ∈ l, p.stop ≤ s.base)
    (hq : s.stop ≤ q.base) : ∃ l', k = l' ++ r ∧ ∀ x ∈ l', x.stop ≤ q.stop := by
  cases h with
  | @prev l _ p hpt hpb =>
    refine ⟨l ++ [{ p with length := p.length + s.length }, q], by simp, fun x hx ↦ ?_⟩
    simp only [List.mem_append, List.mem_cons, List.not_mem_nil, or_false] at hx
    rcases hx with hx | rfl | rfl
    · have := hl x (by simp [hx])
      simp only [stop] at *; omega
    · simp only [stop] at *; omega
    · exact le_rfl
  | next hn hqt hqb =>
    refine ⟨l ++ [⟨s.base, q.length + s.length, q.type⟩], by simp, fun x hx ↦ ?_⟩
    simp only [List.mem_append, List.mem_singleton] at hx
    rcases hx with hx | rfl
    · have := hl x hx
      simp only [stop] at *; omega
    · simp only [stop] at *; omega
  | alone _ _ =>
    refine ⟨l ++ [s, q], by simp, fun x hx ↦ ?_⟩
    simp only [List.mem_append, List.mem_cons, List.not_mem_nil, or_false] at hx
    rcases hx with hx | rfl | rfl
    · have := hl x hx
      simp only [stop] at *; omega
    · simp only [stop] at *; omega
    · exact le_rfl

/-- A join adds at most one span. -/
theorem Join.length_le (h : Join s l r k) : k.length ≤ (l ++ r).length + 1 := by
  cases h <;> simp only [List.length_append, List.length_cons, List.length_nil] <;> omega

/-- A span that runs up to the joined one with the same value is the last of `l`, and takes it in. -/
theorem Join.of_prev {p : Span τ} (h : Join s l r k) (ht : Tiled l) (hl : ∀ x ∈ l, x.stop ≤ s.base)
    (hp : p ∈ l) (htype : p.type = s.type) (hstop : p.stop = s.base) :
    ∃ l', l = l' ++ [p] ∧ k = l' ++ { p with length := p.length + s.length } :: r := by
  obtain ⟨l', z, hlz⟩ := (List.eq_nil_or_concat' l).resolve_left (List.ne_nil_of_mem hp)
  have hz : p = z := by
    rw [hlz] at hp ht hl
    rcases List.mem_append.mp hp with hp | hp
    · have h1 := (tiled_append.mp ht).2.2 p hp z (by simp)
      have h2 := ht.pos z (by simp)
      have h3 := hl z (by simp)
      simp only [stop] at h1 h3 hstop; omega
    · exact List.mem_singleton.mp hp
  subst hz
  cases h with
  | @prev l₀ _ q hqt hqb =>
    obtain ⟨rfl, hq⟩ := List.append_inj' hlz rfl
    obtain rfl := List.singleton_inj.mp hq
    exact ⟨l₀, rfl, rfl⟩
  | next hn _ _ => exact absurd ⟨htype, hstop⟩ (hn p (by simp [hlz]))
  | alone hn _ => exact absurd ⟨htype, hstop⟩ (hn p (by simp [hlz]))

/-- If no span runs up to the joined one, a span that runs on from it with the same value is the
first of `r`, and takes it in. -/
theorem Join.of_next {q : Span τ} (h : Join s l (q :: r) k)
    (hp : ∀ p ∈ l, ¬ (p.type = s.type ∧ p.stop = s.base)) (htype : q.type = s.type)
    (hbase : q.base = s.stop) : k = l ++ ⟨s.base, q.length + s.length, q.type⟩ :: r := by
  cases h with
  | @prev l _ p hpt hpb => exact absurd ⟨hpt, hpb⟩ (hp p (by simp))
  | next _ _ _ => rfl
  | alone _ hn => exact absurd ⟨htype, hbase⟩ (hn q (by simp))

/-- If no span continues the joined one, it goes in as it is. -/
theorem Join.of_alone (h : Join s l r k) (hp : ∀ p ∈ l, ¬ (p.type = s.type ∧ p.stop = s.base))
    (hn : ∀ q ∈ r, ¬ (q.type = s.type ∧ q.base = s.stop)) : k = l ++ s :: r := by
  cases h with
  | @prev l _ p hpt hpb => exact absurd ⟨hpt, hpb⟩ (hp p (by simp))
  | @next l r q _ hqt hqb => exact absurd ⟨hqt, hqb⟩ (hn q (by simp))
  | alone _ _ => rfl

/-- A span of the same value as `s` runs up to it, or on from it. -/
def Touches (l : List (Span τ)) (s : Span τ) : Prop :=
  ∃ x ∈ l, x.type = s.type ∧ (x.stop = s.base ∨ x.base = s.stop)

instance [DecidableEq τ] (l : List (Span τ)) (s : Span τ) : Decidable (Touches l s) :=
  inferInstanceAs (Decidable (∃ _ ∈ _, _))

theorem touches_append : Touches (l ++ r) s ↔ Touches l s ∨ Touches r s := by
  simp only [Touches, List.mem_append, or_and_right, exists_or]

theorem touches_cons {x : Span τ} :
    Touches (x :: l) s ↔ x.type = s.type ∧ (x.stop = s.base ∨ x.base = s.stop) ∨ Touches l s := by
  simp only [Touches, List.mem_cons, or_and_right, exists_or, exists_eq_left]

/-- In a tiled list nothing touches `s` if another value lies on either side of it. -/
theorem Tiled.not_touches (ht : Tiled l) (h1 : typeAt l (s.base - 1) ≠ some s.type)
    (h2 : typeAt l s.stop ≠ some s.type) : ¬ Touches l s := by
  rintro ⟨x, hx, htype, hend⟩
  have hp := ht.pos x hx
  rcases hend with hend | hend
  · refine h1 ?_
    rw [ht.typeAt_of_within hx (by simp only [Contains, stop] at *; omega), htype]
  · refine h2 ?_
    rw [ht.typeAt_of_within hx (by simp only [Contains, stop] at *; omega), htype]

/-- A join adds a span if and only if nothing touches the joined one. -/
theorem Join.length_eq [DecidableEq τ] (h : Join s l r k) (ht : Tiled (l ++ r)) (hs : 0 < s.length)
    (hl : ∀ p ∈ l, p.stop ≤ s.base) (hr : ∀ q ∈ r, s.stop ≤ q.base) :
    k.length = if Touches (l ++ r) s then (l ++ r).length else (l ++ r).length + 1 := by
  cases h with
  | @prev l r p hpt hpb =>
    rw [if_pos ⟨p, by simp, hpt, Or.inl hpb⟩]
    simp only [List.length_append, List.length_cons, List.length_nil]; omega
  | @next l r q hn hqt hqb =>
    rw [if_pos ⟨q, by simp, hqt, Or.inr hqb⟩]
    simp only [List.length_append, List.length_cons]
  | alone hn hn' =>
    have hlen : (l ++ s :: r).length = (l ++ r).length + 1 := by
      simp only [List.length_append, List.length_cons]; omega
    rw [hlen, if_neg]
    rintro ⟨x, hx, htype, hend⟩
    have hxp := ht.pos x hx
    have hcase : x ∈ l ∧ x.stop = s.base ∨ x ∈ r ∧ x.base = s.stop := by
      rcases List.mem_append.mp hx with hx | hx
      · have := hl x hx
        exact Or.inl ⟨hx, hend.resolve_right (by simp only [stop] at *; omega)⟩
      · have := hr x hx
        exact Or.inr ⟨hx, hend.resolve_left (by simp only [stop] at *; omega)⟩
    obtain ⟨htl, htr, -⟩ := tiled_append.mp ht
    rcases hcase with ⟨hx, hstop⟩ | ⟨hx, hbase⟩
    · obtain ⟨l', hll, hk⟩ := (Join.alone hn hn').of_prev htl hl hx htype hstop
      have hk := congrArg List.length hk
      have hll := congrArg List.length hll
      simp only [List.length_append, List.length_cons, List.length_nil] at hk hll
      omega
    · -- a span that runs on from `s` is the first of `r`
      cases r with
      | nil => simp at hx
      | cons q r =>
        rcases List.mem_cons.mp hx with rfl | hx
        · exact hn' x rfl ⟨htype, hbase⟩
        · have h1 := (tiled_cons.mp htr).2.1 x hx
          have h2 := htr.pos q (by simp)
          have h3 := hr q (by simp)
          simp only [stop] at h1 h3 hbase; omega

end Join

/-! ## Spans of one value, kept apart -/

/-- No two spans of value `t` touch. -/
def Merged (t : τ) (l : List (Span τ)) : Prop :=
  ∀ e ∈ l, ∀ f ∈ l, e.type = t → f.type = t → e.stop ≠ f.base

/-- Then a range with that value throughout lies in one span. -/
theorem Merged.within {t : τ} {l : List (Span τ)} (h : Merged t l) (ht : Tiled l) {p q : Nat}
    (hpq : p < q) (hr : ∀ a, p ≤ a → a < q → typeAt l a = some t) : Within l p q := by
  obtain ⟨e, he, hep, het⟩ := ht.typeAt_eq_some.mp (hr p le_rfl hpq)
  refine ⟨e, he, hep.base_le, ?_⟩
  by_contra hlt
  have hp := hep.lt_stop
  obtain ⟨f, hf, hfc, hft⟩ := ht.typeAt_eq_some.mp (hr e.stop (by omega) (by omega))
  refine h e he f hf het hft (le_antisymm ?_ hfc.base_le)
  -- otherwise `f` would hold the last address of `e` as well
  by_contra hbase
  have hlast : e.Contains (e.stop - 1) ∧ f.Contains (e.stop - 1) := by
    have := hep.base_le; have := hfc.lt_stop
    exact ⟨⟨by omega, by omega⟩, ⟨by omega, by omega⟩⟩
  obtain rfl := ht.unique he hf hlast.1 hlast.2
  exact lt_irrefl _ hfc.lt_stop

/-- It is enough that any two neighbouring addresses with that value lie in one span. -/
theorem Merged.of_pairs {t : τ} {l : List (Span τ)} (ht : Tiled l)
    (h : ∀ c, 0 < c → typeAt l (c - 1) = some t → typeAt l c = some t → Within l (c - 1) (c + 1)) :
    Merged t l := by
  intro e he f hf het hft hstop
  have hep := ht.pos e he
  have hfp := ht.pos f hf
  have hec : e.Contains (e.stop - 1) := by simp only [Contains, stop]; omega
  have hfc : f.Contains e.stop := by simp only [Contains, stop] at hstop ⊢; omega
  obtain ⟨g, hg, h1, h2⟩ := h e.stop (by simp only [stop]; omega)
    (by rw [ht.typeAt_of_within he hec, het]) (by rw [ht.typeAt_of_within hf hfc, hft])
  obtain rfl := ht.unique hg he ⟨h1, by omega⟩ hec
  omega

end SpanMap
