import LunarPrekernel.Pmm.Set

/-!
# The specification of `pmm_map_set`

`setFrom_spec` puts the single steps of `Pmm/Set.lean` together.  The induction is on the entries
the loop has not seen yet, `post`; the ones it has seen, `pre`, are clear of what is left of the
range, and `SetInv` is the invariant that says so.

* `pmmMapSet_spec` — on a well-formed map and a clean range, `pmm_map_set` returns a well-formed
  map with exactly the intended types, or finds the array full.
* `pmmMapSet_zero` — an empty range changes nothing.

A well-formed map (`PmmMap.Wf`) is tiled, ends below `2 ^ 64`, and has dead slots that hold
nothing but addresses of the map.
-/

set_option autoImplicit false

namespace LunarPrekernel

open SpanMap Span PmmMap

/-! ## Well-formed maps -/

/-- The map is tiled, wraps nowhere, and its dead slots hold addresses of the map only. -/
structure PmmMap.Wf (m : PmmMap) : Prop where
  tiled : Tiled m.live
  bound : ∀ s ∈ m.live, s.stop < 2 ^ 64
  stale : Stale m fun a ↦ typeAt m.live a ≠ none

theorem PmmMap.Wf.empty : PmmMap.empty.Wf :=
  ⟨Tiled.nil, by simp [PmmMap.empty, live], Stale.empty _⟩

/-- What a call that returns leaves behind: a well-formed map `m'` with the types `F`, no span of
the old list `l` cut outside the range, and the range in one span if the call was forced. -/
structure SetPost (F : Nat → Option PmmMapType) (l : List PmmMapEntry) (base stop : Nat)
    (force : Bool) (m' : PmmMap) : Prop where
  wf : m'.Wf
  typeAt_eq : typeAt m'.live = F
  keeps : Keeps l m'.live base stop
  whole : force = true → base < stop → Within m'.live base stop

/-- How a call can end: as `SetPost` says, or on a full array.  The model never runs out of fuel,
and a forced call reads past the array only if that was full to begin with. -/
def SetOutcome (F : Nat → Option PmmMapType) (m : PmmMap) (base stop : Nat) (force : Bool) :
    Except Stop PmmMap → Prop
  | .ok m' => SetPost F m.live base stop force m'
  | .error s => s = .panic "memory map overflow" [] ∨
      s = .fault ∧ (force = true → m.size = pmmMapMaxEntries ∧ ∀ x ∈ m.live, x.base ≤ base)

/-- A call whose loop goes on from `m₁` with the range `[b₁, s₁)` ends as that one does. -/
theorem SetOutcome.mono {F : Nat → Option PmmMapType} {m m₁ : PmmMap} {b s b₁ s₁ : Nat}
    {force : Bool} {r : Except Stop PmmMap} (h : SetOutcome F m₁ b₁ s₁ force r)
    (hk : Keeps m.live m₁.live b s) (hb : b ≤ b₁) (hs : s₁ ≤ s)
    (hw : force = true → b₁ = b ∧ s₁ = s)
    (hf : force = true → m₁.size = pmmMapMaxEntries → (∀ x ∈ m₁.live, x.base ≤ b₁) →
      m.size = pmmMapMaxEntries ∧ ∀ x ∈ m.live, x.base ≤ b) : SetOutcome F m b s force r := by
  cases r with
  | ok m' =>
    refine ⟨h.wf, h.typeAt_eq, hk.trans h.keeps hb hs, fun hforce hlt ↦ ?_⟩
    obtain ⟨rfl, rfl⟩ := hw hforce
    exact h.whole hforce hlt
  | error e =>
    refine h.imp_right fun ⟨he, hfull⟩ ↦ ⟨he, fun hforce ↦ ?_⟩
    exact hf hforce (hfull hforce).1 (hfull hforce).2

/-! ## The invariant of the loop -/

/-- The loop has passed the entries `pre` and has `post` before it, what is left of the range is
`[base, stop)`, and `F` is the map it will produce. -/
structure SetInv (F : Nat → Option PmmMapType) (type : PmmMapType) (force : Bool) (m : PmmMap)
    (pre post : List PmmMapEntry) (base stop : Nat) : Prop where
  live : m.live = pre ++ post
  tiled : Tiled m.live
  bound : ∀ s ∈ m.live, s.stop < 2 ^ 64
  stale : Stale m fun a ↦ F a ≠ none
  stop_lt : stop < 2 ^ 64
  lt : base < stop
  result : setResult m base stop type force = F
  seen : ∀ s ∈ pre, s.Clear base stop
  clean : Clean type force post base stop

theorem setResult_ne_none {m : PmmMap} {base stop a : Nat} {type : PmmMapType} {force : Bool}
    (h : typeAt m.live a ≠ none) : setResult m base stop type force a ≠ none := by
  unfold setResult overwrite
  split
  · simp
  · exact h

/-- An update that overrides nothing, because nothing is there, is a constant one. -/
theorem setResult_of_clear {m : PmmMap} {base stop : Nat} {type : PmmMapType} {force : Bool}
    (h : ∀ s ∈ m.live, s.Clear base stop) :
    setResult m base stop type force = overwrite (typeAt m.live) base stop fun _ ↦ type := by
  funext a
  unfold setResult overwrite
  split
  · rename_i ha
    rw [typeAt_eq_none_of_clear h ha.1 ha.2, settle]
  · rfl

section Finish

variable {F : Nat → Option PmmMapType} {type : PmmMapType} {force : Bool} {m : PmmMap}
  {base length stop : Nat}

theorem tiled_of_inserted {m' : PmmMap} {s : PmmMapEntry} (hi : Inserted m m' s)
    (hs : 0 < s.length) (ht : Tiled m.live) : Tiled m'.live := by
  obtain ⟨pre, post, hlive, hpre, hpost, hj, -⟩ := hi
  rw [hlive] at ht
  exact hj.tiled hs ht hpre hpost

theorem bound_of_inserted {m' : PmmMap} {s : PmmMapEntry} (hi : Inserted m m' s) {n : Nat}
    (hs : s.stop < n) (hb : ∀ x ∈ m.live, x.stop < n) : ∀ x ∈ m'.live, x.stop < n := by
  obtain ⟨pre, post, hlive, -, -, hj, -⟩ := hi
  intro x hx
  rcases hj.stop_eq x hx with h | ⟨y, hy, h⟩
  · rw [h]; exact hs
  · rw [h]; exact hb y (by rw [hlive]; exact hy)

theorem typeAt_of_inserted {m' : PmmMap} {s : PmmMapEntry} (hi : Inserted m m' s) :
    typeAt m'.live = overwrite (typeAt m.live) s.base s.stop fun _ ↦ s.type := by
  obtain ⟨pre, post, hlive, hpre, hpost, hj, -⟩ := hi
  funext a
  rw [hlive]
  exact hj.typeAt a hpre hpost

theorem covers_of_inserted {m' : PmmMap} {s : PmmMapEntry} (hi : Inserted m m' s) :
    Covers m'.live m.live := by
  obtain ⟨pre, post, hlive, -, -, hj, -⟩ := hi
  rw [hlive]
  exact hj.covers

theorem within_of_inserted {m' : PmmMap} {s : PmmMapEntry} (hi : Inserted m m' s) :
    Within m'.live s.base s.stop := by
  obtain ⟨pre, post, -, -, -, hj, -⟩ := hi
  exact hj.within

/-- The insertion at the end, when all entries are clear of what is left of the range. -/
theorem setInsert_outcome (hstop : base + length = stop) (ht : Tiled m.live)
    (hb : ∀ s ∈ m.live, s.stop < 2 ^ 64) (hs : Stale m fun a ↦ F a ≠ none)
    (he : stop < 2 ^ 64) (hF : setResult m base stop type force = F)
    (hc : ∀ s ∈ m.live, s.Clear base stop) :
    SetOutcome F m base stop force (setInsert m base length type) := by
  subst hstop
  rcases Nat.eq_zero_or_pos length with rfl | hl
  · -- nothing is left of the range
    have hFm : typeAt m.live = F := by
      rw [← hF]; funext a
      exact (overwrite_of_not_mem (by omega)).symm
    rw [setInsert, if_pos rfl]
    exact ⟨⟨ht, hb, by rwa [hFm]⟩, hFm, Keeps.refl _ _ _, fun _ h ↦ by omega⟩
  · have hd := hs.not_continues hl hc fun hne ↦ by
      rw [← hF, setResult, overwrite_of_not_mem (by omega)] at hne
      exact typeAt_isSome.mp hne
    rcases setInsert_spec type ht hb hc hl he fun h _ hn ↦ hd h hn.2 with
      ⟨m', hm', hi⟩ | ⟨hfull, h | h⟩
    · have hFm : typeAt m'.live = F := by
        rw [typeAt_of_inserted hi, ← hF, setResult_of_clear hc]; rfl
      rw [hm']
      exact ⟨⟨tiled_of_inserted hi hl ht, bound_of_inserted hi he hb, by
        rw [hFm]; exact hs.inserted hi⟩, hFm,
        (covers_of_inserted hi).keeps _ _, fun _ _ ↦ within_of_inserted hi⟩
    · rw [h]; exact Or.inl rfl
    · rw [h.1]; exact Or.inr ⟨rfl, fun _ ↦ ⟨hfull, h.2⟩⟩

end Finish

/-! ## Walking over entries that are clear of the range -/

theorem setFrom_next {fuel : Nat} {c c' : SetCursor} {type : PmmMapType} {force : Bool}
    (hi : c.i < c.map.size) (hs : setStep type force c = .next c') :
    setFrom (fuel + 1) c type force = setFrom fuel { c' with i := add64 c'.i 1 } type force := by
  rw [setFrom, if_pos hi, hs]

theorem succ_lt_word {m : PmmMap} {i : Nat} (h : i < m.size) : i + 1 < 2 ^ 64 := by
  have := m.size_le
  unfold pmmMapMaxEntries at this; omega

/-- `n` entries that are clear of the range cost `n` steps and nothing else. -/
theorem setFrom_skip {m : PmmMap} (base length : Nat) (type : PmmMapType) (force : Bool)
    (ht : Tiled m.live) (hb : ∀ s ∈ m.live, s.stop < 2 ^ 64) (he : base + length < 2 ^ 64)
    (n i fuel : Nat) (hn : i + n ≤ m.size)
    (hc : ∀ j, i ≤ j → j < i + n → (m.slots j).Clear base (base + length)) :
    setFrom (fuel + n) ⟨m, i, base, length⟩ type force =
      setFrom fuel ⟨m, i + n, base, length⟩ type force := by
  induction n generalizing i with
  | zero => rfl
  | succ n ih =>
    have hmem := slots_mem_live m (i := i) (by omega)
    have hstep : setStep type force ⟨m, i, base, length⟩ = .next ⟨m, i, base, length⟩ :=
      setStep_clear rfl (hb _ hmem) he (ht.pos _ hmem) (hc i le_rfl (by omega))
    rw [← Nat.add_assoc, setFrom_next (show i < m.size by omega) hstep]
    show setFrom (fuel + n) ⟨m, add64 i 1, base, length⟩ type force = _
    rw [add64_eq (succ_lt_word (by omega : i < m.size)),
      ih (i + 1) (by omega) fun j hj hj' ↦ hc j (by omega) (by omega)]
    congr 2; omega

/-- With nothing but clear entries ahead, the loop comes to the insertion. -/
theorem setFrom_clear {m : PmmMap} {base length i fuel : Nat} {type : PmmMapType} {force : Bool}
    (ht : Tiled m.live) (hb : ∀ s ∈ m.live, s.stop < 2 ^ 64) (he : base + length < 2 ^ 64)
    (hi : i ≤ m.size) (hfuel : m.size < fuel)
    (hc : ∀ j, i ≤ j → j < m.size → (m.slots j).Clear base (base + length)) :
    setFrom fuel ⟨m, i, base, length⟩ type force = setInsert m base length type := by
  have h := setFrom_skip base length type force ht hb he (m.size - i) i
    (fuel - (m.size - i) - 1 + 1) (by omega) fun j hj hj' ↦ hc j hj (by omega)
  rw [show fuel - (m.size - i) - 1 + 1 + (m.size - i) = fuel by omega,
    show i + (m.size - i) = m.size by omega] at h
  rw [h, setFrom, if_neg (lt_irrefl _)]

/-! ## The steps keep the invariant -/

namespace SetInv

variable {F : Nat → Option PmmMapType} {type : PmmMapType} {force : Bool} {m : PmmMap}
  {pre post : List PmmMapEntry} {e : PmmMapEntry} {base stop : Nat}

theorem tiled_cons (h : SetInv F type force m pre (e :: post) base stop) :
    Tiled (e :: post) := by
  have := h.tiled
  rw [h.live] at this
  exact (tiled_append.mp this).2.1

theorem mem (h : SetInv F type force m pre (e :: post) base stop) : e ∈ m.live := by
  rw [h.live]; simp

theorem pos (h : SetInv F type force m pre (e :: post) base stop) : 0 < e.length :=
  h.tiled.pos e h.mem

/-- What the loop has passed ends before the entry it is at begins. -/
theorem pre_le (h : SetInv F type force m pre (e :: post) base stop) :
    ∀ s ∈ pre, s.stop ≤ e.base := by
  have := h.tiled
  rw [h.live] at this
  exact fun s hs ↦ (tiled_append.mp this).2.2 s hs e (by simp)

theorem le_post (h : SetInv F type force m pre (e :: post) base stop) :
    ∀ s ∈ post, e.stop ≤ s.base :=
  (SpanMap.tiled_cons.mp h.tiled_cons).2.1

/-- What the loop has passed ends before the range, if the entry it is at begins inside it. -/
theorem pre_le_base (h : SetInv F type force m pre (e :: post) base stop) (hlt : e.base < stop) :
    ∀ s ∈ pre, s.stop ≤ base := by
  intro s hs
  have h1 := h.pre_le s hs
  have h2 := h.tiled.pos s (by rw [h.live]; simp [hs])
  rcases h.seen s hs with hc | hc
  · exact hc
  · simp only [Span.stop] at h1 ⊢; omega

theorem typeAt_eq (h : SetInv F type force m pre (e :: post) base stop) {a : Nat}
    (ha : e.Contains a) : typeAt m.live a = some e.type :=
  h.tiled.typeAt_of_within h.mem ha

theorem not_flush (h : SetInv F type force m pre (e :: post) base stop) : ¬ Flush base stop e :=
  ((clean_cons h.tiled_cons).mp h.clean).1

theorem clean_tail (h : SetInv F type force m pre (e :: post) base stop) :
    Clean type force post (if overrides type force e.type then base else max base e.stop) stop :=
  ((clean_cons h.tiled_cons).mp h.clean).2

/-- Passing an entry that is clear of the range. -/
theorem advance (h : SetInv F type force m pre (e :: post) base stop) (hc : e.Clear base stop) :
    SetInv F type force m (pre ++ [e]) post base stop where
  live := by simp [h.live]
  tiled := h.tiled
  bound := h.bound
  stale := h.stale
  stop_lt := h.stop_lt
  lt := h.lt
  result := h.result
  seen := by
    intro s hs
    rcases List.mem_append.mp hs with hs | hs
    · exact h.seen s hs
    · rw [List.mem_singleton.mp hs]; exact hc
  clean := by
    rcases hc with hc | hc
    · have := h.clean_tail
      rwa [max_eq_left hc, ite_self] at this
    · refine clean_of_stop_le (SpanMap.tiled_cons.mp h.tiled_cons).2.2.pos fun s hs ↦ ?_
      have := h.le_post s hs
      simp only [Span.stop] at this; omega

/-- Passing an entry that keeps its type and holds the start of the range. -/
theorem start_keep (h : SetInv F type force m pre (e :: post) base stop) (h1 : e.base < base)
    (h2 : base < e.stop) (h3 : e.stop < stop) (ho : overrides type force e.type = false) :
    SetInv F type force m (pre ++ [e]) post e.stop stop where
  live := by simp [h.live]
  tiled := h.tiled
  bound := h.bound
  stale := h.stale
  stop_lt := h.stop_lt
  lt := h3
  result := by
    rw [← h.result]
    funext a
    unfold setResult overwrite
    by_cases ha : base ≤ a ∧ a < e.stop
    · rw [if_neg (by omega), if_pos (by omega), h.typeAt_eq ⟨by omega, ha.2⟩,
        settle_of_not_overrides ho]
    · by_cases ha' : e.stop ≤ a ∧ a < stop
      · rw [if_pos ha', if_pos (by omega)]
      · rw [if_neg ha', if_neg (by omega)]
  seen := by
    intro s hs
    rcases List.mem_append.mp hs with hs | hs
    · have := h.pre_le s hs
      exact Or.inl (by simp only [Span.stop] at *; omega)
    · rw [List.mem_singleton.mp hs]; exact Or.inl le_rfl
  clean := by
    have := h.clean_tail
    rwa [ho, if_neg (by simp), max_eq_right h2.le] at this

/-- Replacing an overridden entry by what of it lies outside the range. -/
theorem cut (h : SetInv F type force m pre (e :: post) base stop)
    (ho : overrides type force e.type = true) {m' : PmmMap} {parts : List PmmMapEntry}
    (hlive : m'.live = pre ++ parts ++ post) (htiled : Tiled m'.live)
    (hstale : Stale m' fun a ↦ F a ≠ none)
    (hstop : ∀ s ∈ parts, s.stop ≤ e.stop) (hclear : ∀ s ∈ parts, s.Clear base stop)
    (hout : ∀ a, ¬ (base ≤ a ∧ a < stop) → typeAt parts a = typeAt [e] a) :
    SetInv F type force m' (pre ++ parts) post base stop where
  live := hlive
  tiled := htiled
  bound := by
    intro s hs
    have he := h.bound e h.mem
    simp only [hlive, List.mem_append] at hs
    rcases hs with (hs | hs) | hs
    · exact h.bound s (by rw [h.live]; simp [hs])
    · have := hstop s hs; omega
    · exact h.bound s (by rw [h.live]; simp [hs])
  stale := hstale
  stop_lt := h.stop_lt
  lt := h.lt
  result := by
    have ht := h.tiled
    rw [h.live] at ht
    rw [← h.result, setResult, setResult, hlive, h.live]
    exact overwrite_cut ht (settle_of_overrides ho) hout fun a hb he ↦
      typeAt_eq_none_of_clear hclear hb he
  seen := by
    intro s hs
    rcases List.mem_append.mp hs with hs | hs
    · exact h.seen s hs
    · exact hclear s hs
  clean := by
    have := h.clean_tail
    rwa [if_pos ho] at this

/-- Cutting back the entry that holds the start of the range. -/
theorem start_cut (h : SetInv F type force m pre (e :: post) base stop) (h1 : e.base < base)
    (h2 : base < e.stop) (h3 : e.stop ≤ stop) (ho : overrides type force e.type = true) :
    SetInv F type force (m.set pre.length { e with length := base - e.base })
      (pre ++ [{ e with length := base - e.base }]) post base stop := by
  have hlive := live_set h.live { e with length := base - e.base }
  rw [List.append_cons] at hlive
  have ht := h.tiled
  rw [h.live] at ht
  refine h.cut ho hlive ?_ (h.stale.set (slots_of_live h.live).1 _) ?_ ?_ fun a ha ↦ ?_
  · rw [hlive, List.append_assoc, List.singleton_append]
    simp only [tiled_append, SpanMap.tiled_cons] at ht ⊢
    refine ⟨ht.1, ⟨by simp; omega, fun t htm ↦ ?_, ht.2.1.2.2⟩, fun s hs t htm ↦ ?_⟩
    · have := ht.2.1.2.1 t htm
      simp only [Span.stop] at *; omega
    · rcases List.mem_cons.mp htm with rfl | htm
      · exact ht.2.2 s hs e (by simp)
      · exact ht.2.2 s hs t (by simp [htm])
  · simp only [List.mem_singleton, forall_eq, Span.stop] at *; omega
  · simp only [List.mem_singleton, forall_eq, Clear, Span.stop]; omega
  · simp only [typeAt_cons, typeAt_nil, Contains, Span.stop] at *
    congr 1
    rw [eq_iff_iff]; omega

/-- Cutting back the entry that holds the end of the range. -/
theorem stop_cut (h : SetInv F type force m pre (e :: post) base stop) (h1 : base ≤ e.base)
    (h2 : e.base < stop) (h3 : stop < e.stop) (ho : overrides type force e.type = true) :
    SetInv F type force (m.set pre.length ⟨stop, e.stop - stop, e.type⟩)
      (pre ++ [⟨stop, e.stop - stop, e.type⟩]) post base stop := by
  have hlive := live_set h.live ⟨stop, e.stop - stop, e.type⟩
  rw [List.append_cons] at hlive
  have ht := h.tiled
  rw [h.live] at ht
  refine h.cut ho hlive ?_ (h.stale.set (slots_of_live h.live).1 _) ?_ ?_ fun a ha ↦ ?_
  · rw [hlive, List.append_assoc, List.singleton_append]
    simp only [tiled_append, SpanMap.tiled_cons] at ht ⊢
    refine ⟨ht.1, ⟨by simp; omega, fun t htm ↦ ?_, ht.2.1.2.2⟩, fun s hs t htm ↦ ?_⟩
    · have := ht.2.1.2.1 t htm
      simp only [Span.stop] at *; omega
    · rcases List.mem_cons.mp htm with rfl | htm
      · have := ht.2.2 s hs e (by simp)
        simp only at *; omega
      · exact ht.2.2 s hs t (by simp [htm])
  · simp only [List.mem_singleton, forall_eq, Span.stop] at *; omega
  · simp only [List.mem_singleton, forall_eq, Clear, Span.stop]; omega
  · simp only [typeAt_cons, typeAt_nil, Contains, Span.stop] at *
    congr 1
    rw [eq_iff_iff]; omega

/-- Dropping an entry that lies in the range. -/
theorem cover_cut (h : SetInv F type force m pre (e :: post) base stop) (h1 : base ≤ e.base)
    (h2 : e.stop ≤ stop) (ho : overrides type force e.type = true) :
    SetInv F type force (mapDelete m pre.length) pre post base stop := by
  have hlive := live_mapDelete h.live
  have ht := h.tiled
  have hstale : Stale (mapDelete m pre.length) fun a ↦ F a ≠ none := by
    refine h.stale.mapDelete (slots_of_live h.live).1 h.tiled fun s hs a ha ↦ ?_
    rw [← h.result]
    exact setResult_ne_none (typeAt_isSome.mpr ⟨s, hs, ha⟩)
  rw [h.live] at ht
  have := h.cut ho (show _ = pre ++ [] ++ post by simpa using hlive) (by
    rw [hlive]
    simp only [tiled_append, SpanMap.tiled_cons] at ht ⊢
    exact ⟨ht.1, ht.2.1.2.2, fun s hs t htm ↦ ht.2.2 s hs t (by simp [htm])⟩) hstale
    (by simp) (by simp) fun a ha ↦ by
      have hne : ¬ e.Contains a := by simp only [Contains, Span.stop] at *; omega
      rw [typeAt_cons, if_neg hne]
  simpa using this

/-- With every entry passed, or all the remaining ones clear of the range, the loop comes to the
insertion. -/
theorem finish (h : SetInv F type force m pre post base stop) {length fuel i : Nat}
    (hl : base + length = stop) (hi : i ≤ m.size) (hfuel : m.size < fuel)
    (hc : ∀ s ∈ m.live, s.Clear base stop) :
    SetOutcome F m base stop force (setFrom fuel ⟨m, i, base, length⟩ type force) := by
  rw [setFrom_clear h.tiled h.bound (by rw [hl]; exact h.stop_lt) hi hfuel fun j _ hj ↦ by
    rw [hl]; exact hc _ (slots_mem_live m hj)]
  exact setInsert_outcome hl h.tiled h.bound h.stale h.stop_lt h.result hc

end SetInv

/-! ## The two recursive cases -/

section Recursive

variable {F : Nat → Option PmmMapType} {type : PmmMapType} {force : Bool} {m : PmmMap}
  {pre post : List PmmMapEntry} {e : PmmMapEntry} {base stop : Nat}

theorem size_lt_fuel (m : PmmMap) : m.size < 1100 := by
  have := m.size_le
  unfold pmmMapMaxEntries at this; omega

/-- What the recursive calls do: a range clear of every entry is inserted. -/
theorem setFrom_insert {m : PmmMap} (base length fuel : Nat) (type : PmmMapType) (force : Bool)
    {C : Nat → Prop} (ht : Tiled m.live) (hb : ∀ s ∈ m.live, s.stop < 2 ^ 64) (hs : Stale m C)
    (hl : 0 < length) (he : base + length < 2 ^ 64) (hfuel : 1100 ≤ fuel)
    (hc : ∀ s ∈ m.live, s.Clear base (base + length))
    (hC : C (base + length) → ∃ s ∈ m.live, s.Contains (base + length)) :
    (∃ m', setFrom fuel ⟨m, 0, base, length⟩ type force = .ok m' ∧
      Inserted m m' ⟨base, length, type⟩) ∨
    (m.size = pmmMapMaxEntries ∧
      (setFrom fuel ⟨m, 0, base, length⟩ type force = .error (.panic "memory map overflow" []) ∨
        setFrom fuel ⟨m, 0, base, length⟩ type force = .error .fault ∧
          ∀ s ∈ m.live, s.base ≤ base)) := by
  have hlt := size_lt_fuel m
  rw [setFrom_clear ht hb he (Nat.zero_le _) (by omega) fun j _ hj ↦ hc _ (slots_mem_live m hj)]
  exact setInsert_spec type ht hb hc hl he fun h _ hn ↦ hs.not_continues hl hc hC h hn.2

/-- The map between the two insertions of a split: the entry is cut back to what lies before the
range, and everything up to its old end is free to be inserted into. -/
theorem SetInv.split_cut (h : SetInv F type force m pre (e :: post) base stop)
    (h1 : e.base < base) (h2 : stop < e.stop) {m₁ : PmmMap}
    (hm₁ : m.set pre.length { e with length := base - e.base } = m₁) :
    Tiled m₁.live ∧ (∀ s ∈ m₁.live, s.stop < 2 ^ 64) ∧ Stale m₁ (fun a ↦ F a ≠ none) ∧
      (∀ s ∈ m₁.live, s.Clear base e.stop) ∧
      ∀ a, ¬ (base ≤ a ∧ a < e.stop) → typeAt m₁.live a = typeAt m.live a := by
  subst hm₁
  have hlt := h.lt
  have hstop := h.bound e h.mem
  have ht := h.tiled
  rw [h.live] at ht
  rw [live_set h.live]
  refine ⟨?_, fun s hs ↦ ?_, h.stale.set (slots_of_live h.live).1 _, fun s hs ↦ ?_, fun a ha ↦ ?_⟩
  · simp only [tiled_append, SpanMap.tiled_cons] at ht ⊢
    refine ⟨ht.1, ⟨by simp; omega, fun t htm ↦ ?_, ht.2.1.2.2⟩, fun s hs t htm ↦ ?_⟩
    · have := ht.2.1.2.1 t htm
      simp only [Span.stop] at *; omega
    · rcases List.mem_cons.mp htm with rfl | htm
      · exact ht.2.2 s hs e (by simp)
      · exact ht.2.2 s hs t (by simp [htm])
  · simp only [List.mem_append, List.mem_cons] at hs
    rcases hs with hs | rfl | hs
    · exact h.bound s (by rw [h.live]; simp [hs])
    · simp only [Span.stop] at *; omega
    · exact h.bound s (by rw [h.live]; simp [hs])
  · simp only [List.mem_append, List.mem_cons] at hs
    rcases hs with hs | rfl | hs
    · have := h.pre_le s hs
      exact Or.inl (by omega)
    · exact Or.inl (by simp only [Span.stop]; omega)
    · exact Or.inr (h.le_post s hs)
  · rw [h.live, typeAt_append, typeAt_append, typeAt_cons, typeAt_cons]
    have : ({ e with length := base - e.base } : PmmMapEntry).Contains a ↔ e.Contains a := by
      simp only [Contains, Span.stop] at *; omega
    simp only [this]

/-- The end of the split entry is inserted without trouble, or the array is full. -/
theorem SetInv.split_insert (h : SetInv F type force m pre (e :: post) base stop)
    (h1 : e.base < base) (h2 : stop < e.stop) {m₁ : PmmMap}
    (hm₁ : m.set pre.length { e with length := base - e.base } = m₁) :
    (∀ s ∈ m₁.live, s.Clear stop (stop + (e.stop - stop))) ∧
      ((∀ s ∈ m₁.live, s.base ≤ stop) → (m₁.slots m₁.size).base ≠ stop + (e.stop - stop)) := by
  have hlt := h.lt
  obtain ⟨-, -, hs₁, hc₁, hout⟩ := h.split_cut h1 h2 hm₁
  have hend : stop + (e.stop - stop) = e.stop := by omega
  have hc : ∀ s ∈ m₁.live, s.Clear stop (stop + (e.stop - stop)) := by
    rw [hend]
    exact fun s hs ↦ (hc₁ s hs).imp_left fun hc ↦ hc.trans hlt.le
  refine ⟨hc, hs₁.not_continues (by omega) hc fun hne ↦ ?_⟩
  rw [hend, ← h.result, setResult, overwrite_of_not_mem (by omega)] at hne
  rw [hend, ← typeAt_isSome, hout _ (by omega)]
  exact hne

/-- With the end of the split entry back in place, the range is clear of every entry. -/
theorem SetInv.split_back (h : SetInv F type force m pre (e :: post) base stop)
    (h1 : e.base < base) (h2 : stop < e.stop) (ho : overrides type force e.type = true)
    {m₁ m₂ : PmmMap} (hm₁ : m.set pre.length { e with length := base - e.base } = m₁)
    (hins : Inserted m₁ m₂ ⟨stop, e.stop - stop, e.type⟩) :
    SetInv F type force m₂ m₂.live [] base stop := by
  have hlt := h.lt
  have hstop := h.bound e h.mem
  obtain ⟨ht₁, hb₁, hs₁, hc₁, hout⟩ := h.split_cut h1 h2 hm₁
  have hF₂ := typeAt_of_inserted hins
  have hnone : ∀ a, base ≤ a → a < stop → typeAt m₂.live a = none := by
    intro a hb he'
    rw [hF₂, overwrite_of_not_mem (by simp; omega)]
    exact typeAt_eq_none_of_clear hc₁ hb (by omega)
  have ht₂ := tiled_of_inserted hins (by simp; omega) ht₁
  refine ⟨by simp, ht₂, bound_of_inserted hins (by simp; omega) hb₁, hs₁.inserted hins, h.stop_lt,
    hlt, ?_, ht₂.clear_of_typeAt hlt hnone, fun _ hx ↦ by simp at hx⟩
  rw [← h.result]
  funext a
  unfold setResult overwrite
  by_cases ha : base ≤ a ∧ a < stop
  · rw [if_pos ha, if_pos ha, hnone a ha.1 ha.2,
      h.typeAt_eq ⟨by omega, by omega⟩, settle_of_overrides ho]
  · rw [if_neg ha, if_neg ha, hF₂]
    by_cases ha' : stop ≤ a ∧ a < e.stop
    · rw [overwrite_of_mem ha'.1 (by simp; omega), h.typeAt_eq ⟨by omega, ha'.2⟩]
    · rw [overwrite_of_not_mem (by simp; omega), hout a (by omega)]

/-- The range splits an entry: the end of the entry goes back in as an entry of its own, and the
loop finds nothing more to do. -/
theorem split_outcome (h : SetInv F type force m pre (e :: post) base stop) {length fuel : Nat}
    (hl : base + length = stop) (hfuel : 1100 ≤ fuel) (h1 : e.base < base) (h2 : stop < e.stop)
    (ho : overrides type force e.type = true) :
    SetOutcome F m base stop force
      (setFrom (fuel + 1) ⟨m, pre.length, base, length⟩ type force) := by
  obtain ⟨hi, he⟩ := slots_of_live h.live
  have hstop := h.bound e h.mem
  have hlt := h.lt
  have hsl := h.stop_lt
  have hstep := setStep_inside (c := ⟨m, pre.length, base, length⟩) he hstop
    (by simpa [hl] using hsl) h1 (by simpa [hl] using h2) ho
  simp only [setFrom, if_pos hi, hstep, hl]
  set left : PmmMapEntry := { e with length := base - e.base } with hleft
  generalize hm₁ : m.set pre.length left = m₁
  have hlive₁ : m₁.live = pre ++ left :: post := by rw [← hm₁]; exact live_set h.live left
  obtain ⟨ht₁, hb₁, hs₁, hc₁, hout⟩ := h.split_cut h1 h2 hm₁
  obtain ⟨hc, hd⟩ := h.split_insert h1 h2 hm₁
  have hsz := size_lt_fuel m₁
  rw [setFrom_clear ht₁ hb₁ (show stop + (e.stop - stop) < 2 ^ 64 by omega) (Nat.zero_le _)
    (by omega) fun j _ hj ↦ hc _ (slots_mem_live m₁ hj)]
  rcases setInsert_spec e.type ht₁ hb₁ hc (by omega) (by omega) fun h _ hn ↦ hd h hn.2 with
    ⟨m₂, hm₂, hins⟩ | ⟨hfull, hrec⟩
  · rw [hm₂]
    have hinv₂ := h.split_back h1 h2 ho hm₁ hins
    have hle : m₁.size ≤ m₂.size := by
      obtain ⟨-, -, -, -, -, -, hdead⟩ := hins
      exact (hdead m₂.size le_rfl).1
    have hi₂ : add64 pre.length 1 ≤ m₂.size := by
      rw [add64_eq (succ_lt_word hi)]
      exact (by rw [← hm₁]; exact hi : pre.length < m₁.size).trans_le hle
    have hsz₂ := size_lt_fuel m₂
    refine (hinv₂.finish hl hi₂ (by omega) hinv₂.seen).mono ?_ le_rfl le_rfl
      (fun _ ↦ ⟨rfl, rfl⟩) fun _ _ hbase ↦ ?_
    · -- what the entry held before the range is in `left`, what it held after it was put back
      have hcov := covers_of_inserted hins
      rintro p q hpq hpq' ⟨x, hx, hxp, hxq⟩
      simp only [h.live, List.mem_append, List.mem_cons] at hx
      rcases hx with hx | rfl | hx
      · exact Within.mono hcov ⟨x, by rw [hlive₁]; simp [hx], hxp, hxq⟩
      · rcases hpq' with hq | hp
        · refine Within.mono hcov ⟨left, by rw [hlive₁]; simp, hxp, ?_⟩
          simp only [hleft, Span.stop] at *; omega
        · obtain ⟨y, hy, hy1, hy2⟩ := within_of_inserted hins
          exact ⟨y, hy, hy1.trans hp, by simp only [Span.stop] at *; omega⟩
      · exact Within.mono hcov ⟨x, by rw [hlive₁]; simp [hx], hxp, hxq⟩
    · -- the entry put back begins past the range
      obtain ⟨y, hy, hy1, hy2⟩ := within_of_inserted hins
      have := hbase y hy
      rcases hinv₂.seen y hy with hc | hc <;> simp only [Span.stop] at * <;> omega
  · rcases hrec with hrec | ⟨hrec, hbase⟩
    · rw [hrec]; exact Or.inl rfl
    · rw [hrec]
      have hfull' : m.size = pmmMapMaxEntries := by rw [← hfull, ← hm₁]; rfl
      refine Or.inr ⟨rfl, fun _ ↦ ⟨hfull', fun x hx ↦ ?_⟩⟩
      have hxpos := h.tiled.pos x hx
      simp only [h.live, List.mem_append, List.mem_cons] at hx
      rcases hx with hx | rfl | hx
      · have := h.pre_le x hx
        simp only [Span.stop] at this; omega
      · exact h1.le
      · have := h.le_post x hx
        have := hbase x (by rw [hlive₁]; simp [hx])
        omega

/-- An insertion in front of `e` leaves the entries after `e` where they were. -/
theorem SetInv.inserted_tail (h : SetInv F type force m pre (e :: post) base stop) {m' : PmmMap}
    {s : PmmMapEntry} (hi : Inserted m m' s) (hpos : 0 < s.length) (hstop : s.stop = e.base) :
    ∃ pre', m'.live = pre' ++ post ∧ ∀ x ∈ pre', x.stop ≤ e.stop := by
  obtain ⟨l, r, hlr, hl, hr, hj, -⟩ := hi
  have hse : s.base < e.base := by simp only [Span.stop] at hstop; omega
  have hr' : r = e :: post := by
    rw [h.live] at hlr
    rcases List.append_eq_append_iff.mp hlr with ⟨c, rfl, hc⟩ | ⟨c, hc, rfl⟩
    · cases c with
      | nil => exact hc.symm
      | cons x c =>
        obtain ⟨rfl, -⟩ := List.cons_eq_cons.mp hc
        have := hl e (by simp)
        simp only [Span.stop] at this; omega
    · cases c with
      | nil => rfl
      | cons x c =>
        have h1 := hr x (by simp)
        have h2 := h.pre_le x (by simp [hc])
        have h3 := h.tiled.pos x (by rw [h.live, hc]; simp)
        simp only [Span.stop] at *; omega
  subst hr'
  exact hj.tail hl hstop.le

/-- The range goes around an entry that keeps its type: its start is inserted, and the loop begins
again with its end. -/
theorem around_outcome (h : SetInv F type force m pre (e :: post) base stop)
    (ih : ∀ (m' : PmmMap) (pre' : List PmmMapEntry) (fuel : Nat),
      SetInv F type force m' pre' post e.stop stop → 1100 * (post.length + 2) ≤ fuel →
      SetOutcome F m' e.stop stop force
        (setFrom fuel ⟨m', pre'.length, e.stop, stop - e.stop⟩ type force))
    {length fuel : Nat} (hl : base + length = stop) (hfuel : 1100 * (post.length + 3) ≤ fuel + 1)
    (h1 : base < e.base) (h2 : e.stop < stop) (ho : overrides type force e.type = false) :
    SetOutcome F m base stop force
      (setFrom (fuel + 1) ⟨m, pre.length, base, length⟩ type force) := by
  obtain ⟨hi, he⟩ := slots_of_live h.live
  have hforce : force ≠ true := by rintro rfl; simp at ho
  have hpos := h.pos
  have hestop : e.base < e.stop := by simp only [Span.stop]; omega
  have hbefore : base + (e.base - base) = e.base := by omega
  have hafter : e.stop + (stop - e.stop) = stop := by omega
  have hsl := h.stop_lt
  have hclear : ∀ s ∈ m.live, s.Clear base e.base := by
    intro s hs
    simp only [h.live, List.mem_append, List.mem_cons] at hs
    rcases hs with hs | rfl | hs
    · exact Or.inl (h.pre_le_base (by omega) s hs)
    · exact Or.inr le_rfl
    · have := h.le_post s hs
      exact Or.inr (by omega)
  have hstep := setStep_around (c := ⟨m, pre.length, base, length⟩) he (h.bound e h.mem)
    (by simpa [hl] using hsl) h1 (by simpa [hl] using h2) ho
  have hrec := setFrom_insert base (e.base - base) fuel type force h.tiled h.bound h.stale (by omega) (by omega) (by omega)
    (by rwa [hbefore]) fun _ ↦ ⟨e, h.mem, by omega, by omega⟩
  simp only [setFrom, if_pos hi, hstep, hl]
  rcases hrec with ⟨m₁, hm₁, hins⟩ | ⟨hfull, hrec⟩
  · rw [hm₁]
    obtain ⟨pre₁, hlive₁, hpre₁⟩ := h.inserted_tail hins (by simp; omega) (by simp; omega)
    have ht₁ := tiled_of_inserted hins (by simp; omega) h.tiled
    have hb₁ := bound_of_inserted hins (by simp; omega) h.bound
    have hF₁ := typeAt_of_inserted hins
    simp only [Span.stop_mk, hbefore] at hF₁
    have hclean := h.clean_tail
    rw [ho, if_neg (by simp), max_eq_right (by omega)] at hclean
    have hinv : SetInv F type force m₁ pre₁ post e.stop stop :=
      { live := hlive₁
        tiled := ht₁
        bound := hb₁
        stale := h.stale.inserted hins
        stop_lt := hsl
        lt := h2
        result := by
          rw [← h.result]
          funext a
          unfold setResult
          rw [hF₁]
          unfold overwrite
          by_cases ha : base ≤ a ∧ a < e.base
          · -- nothing was there before
            rw [if_pos ha, if_neg (by omega), if_pos (by omega),
              typeAt_eq_none_of_clear hclear ha.1 ha.2, settle]
          · rw [if_neg ha]
            by_cases ha' : e.Contains a
            · rw [if_neg (by have := ha'.lt_stop; omega), if_pos (by
                have := ha'.base_le; have := ha'.lt_stop; omega), h.typeAt_eq ha',
                settle_of_not_overrides ho]
            · simp only [Contains] at ha'
              by_cases hs : e.stop ≤ a ∧ a < stop
              · rw [if_pos hs, if_pos (by omega)]
              · rw [if_neg hs, if_neg (by omega)]
        seen := fun s hs ↦ Or.inl (hpre₁ s hs)
        clean := hclean }
    have hsz := size_lt_fuel m₁
    have hlen : pre₁.length ≤ m₁.size := by rw [← live_length, hlive₁]; simp
    have hskip := setFrom_skip e.stop (stop - e.stop) type force ht₁ hb₁ (by omega) pre₁.length 0 (fuel - pre₁.length)
      (by omega) fun j _ hj ↦ by
        have hmem : m₁.slots j ∈ pre₁ := by
          rw [← live_getElem m₁ (by simp; omega)]
          simp only [hlive₁]
          rw [List.getElem_append_left (by omega)]
          exact List.getElem_mem _
        exact Or.inl (hpre₁ _ hmem)
    rw [show fuel - pre₁.length + pre₁.length = fuel by omega, Nat.zero_add] at hskip
    show SetOutcome F m base stop force (setFrom fuel ⟨m₁, 0, e.stop, stop - e.stop⟩ type force)
    rw [hskip]
    refine (ih m₁ pre₁ _ hinv (by omega)).mono ((covers_of_inserted hins).keeps _ _) (by omega)
      le_rfl (fun hf ↦ absurd hf hforce) fun hf ↦ absurd hf hforce
  · rcases hrec with hrec | ⟨hrec, -⟩
    · rw [hrec]; exact Or.inl rfl
    · rw [hrec]; exact Or.inr ⟨rfl, fun hf ↦ absurd hf hforce⟩

end Recursive

/-! ## The whole loop -/

/-- **What the loop does.**  From any point at which the invariant holds, with fuel for the entries
it has not seen, the loop ends in the map the call is meant to produce, or on a full array. -/
theorem setFrom_spec {F : Nat → Option PmmMapType} {type : PmmMapType} {force : Bool}
    (post : List PmmMapEntry) : ∀ (m : PmmMap) (pre : List PmmMapEntry)
    (base length stop fuel : Nat), base + length = stop →
    SetInv F type force m pre post base stop → 1100 * (post.length + 2) ≤ fuel →
    SetOutcome F m base stop force (setFrom fuel ⟨m, pre.length, base, length⟩ type force) := by
  induction post with
  | nil =>
    intro m pre base length stop fuel hl h hfuel
    have hsz := size_lt_fuel m
    have hlen : pre.length = m.size := by rw [← live_length, h.live]; simp
    refine h.finish hl hlen.le (by simp at hfuel; omega) fun s hs ↦ h.seen s ?_
    rwa [h.live, List.append_nil] at hs
  | cons e post ih =>
    intro m pre base length stop fuel hl h hfuel
    obtain ⟨fuel, rfl⟩ : ∃ f, fuel = f + 1 := ⟨fuel - 1, by omega⟩
    rw [List.length_cons] at hfuel
    obtain ⟨hi, he⟩ := slots_of_live h.live
    have hb := h.bound e h.mem
    have hlt := h.lt
    have hc : base + length < 2 ^ 64 := by rw [hl]; exact h.stop_lt
    have hnext : add64 pre.length 1 = pre.length + 1 := add64_eq (succ_lt_word hi)
    by_cases hclear : e.Clear base stop
    · -- the entry is clear of the range
      have := ih m (pre ++ [e]) base length stop fuel hl (h.advance hclear) (by omega)
      have hstep : setStep type force ⟨m, pre.length, base, length⟩ =
          .next ⟨m, pre.length, base, length⟩ :=
        setStep_clear he hb hc h.pos (by simpa [hl] using hclear)
      rw [setFrom_next hi hstep]
      simpa [hnext] using this
    simp only [Clear, not_or, not_le] at hclear
    obtain ⟨hc1, hc2⟩ := hclear
    have hpos := h.pos
    have hflush := h.not_flush
    cases ho : overrides type force e.type with
    | false =>
      have hforce : force ≠ true := by rintro rfl; simp at ho
      have hkept : ∀ a, base ≤ a → a < stop → e.Contains a → F a = some e.type := by
        intro a ha1 ha2 hea
        rw [← h.result, setResult, overwrite_of_mem ha1 ha2, h.typeAt_eq hea,
          settle_of_not_overrides ho]
      by_cases hs : e.base < base
      · by_cases hst : stop < e.stop
        · -- strictly inside an entry that keeps its type: nothing changes
          rw [setFrom, if_pos hi, setStep_inside_keep he hb hc hs (by simpa [hl] using hst) ho]
          have hFm : typeAt m.live = F := by
            funext a
            by_cases ha : base ≤ a ∧ a < stop
            · rw [hkept a ha.1 ha.2 ⟨by omega, by omega⟩, h.typeAt_eq ⟨by omega, by omega⟩]
            · rw [← h.result, setResult, overwrite_of_not_mem ha]
          exact ⟨⟨h.tiled, h.bound, by rw [hFm]; exact h.stale⟩, hFm, Keeps.refl _ _ _,
            fun hf ↦ absurd hf hforce⟩
        · -- the range goes on where the entry ends
          have hstep := setStep_start_keep (c := ⟨m, pre.length, base, length⟩) he hb hc hs hc1
            (by simp only [hl]; omega) ho
          simp only [hl] at hstep
          rw [setFrom_next hi hstep]
          simp only [hnext]
          have hl' : e.stop + (stop - e.stop) = stop := by omega
          rcases Nat.lt_or_ge e.stop stop with hlt' | hge
          · have := ih m (pre ++ [e]) e.stop (stop - e.stop) stop fuel hl'
              (h.start_keep hs hc1 hlt' ho) (by omega)
            rw [List.length_append, List.length_singleton] at this
            exact this.mono (Keeps.refl _ _ _) hc1.le le_rfl (fun hf ↦ absurd hf hforce)
              fun hf ↦ absurd hf hforce
          · -- nothing is left of the range
            obtain rfl : e.stop = stop := by omega
            have hcl : ∀ s ∈ m.live, s.Clear e.stop e.stop := by
              intro s hsm
              simp only [h.live, List.mem_append, List.mem_cons] at hsm
              rcases hsm with hsm | rfl | hsm
              · exact Or.inl ((h.pre_le s hsm).trans (by simp only [Span.stop]; omega))
              · exact Or.inl le_rfl
              · exact Or.inr (h.le_post s hsm)
            have hFm : typeAt m.live = F := by
              funext a
              by_cases ha : base ≤ a ∧ a < e.stop
              · rw [hkept a ha.1 ha.2 ⟨by omega, ha.2⟩, h.typeAt_eq ⟨by omega, ha.2⟩]
              · rw [← h.result, setResult, overwrite_of_not_mem ha]
            have hsz := size_lt_fuel m
            rw [setFrom_clear h.tiled h.bound (by omega) hi (by omega) fun j _ hj ↦ by
              rw [hl']; exact hcl _ (slots_mem_live m hj), setInsert, if_pos (by omega)]
            exact ⟨⟨h.tiled, h.bound, by rw [hFm]; exact h.stale⟩, hFm, Keeps.refl _ _ _,
              fun hf ↦ absurd hf hforce⟩
      · by_cases hst : stop < e.stop
        · -- the range stops where the entry begins
          have hstep := setStep_end_keep (c := ⟨m, pre.length, base, length⟩) he hb hc
            (by simp only; omega) (by simp only [hl]; omega) (by simpa [hl] using hst) ho
          rw [setFrom_next hi hstep]
          simp only [hnext]
          have hl' : base + (e.base - base) = e.base := by omega
          have hcl : ∀ s ∈ m.live, s.Clear base e.base := by
            intro s hsm
            simp only [h.live, List.mem_append, List.mem_cons] at hsm
            rcases hsm with hsm | rfl | hsm
            · exact Or.inl (h.pre_le_base hc2 s hsm)
            · exact Or.inr le_rfl
            · have := h.le_post s hsm
              exact Or.inr (by omega)
          have hres : setResult m base e.base type force = F := by
            rw [← h.result]
            funext a
            unfold setResult overwrite
            by_cases ha : base ≤ a ∧ a < e.base
            · rw [if_pos ha, if_pos (by omega)]
            · by_cases ha' : base ≤ a ∧ a < stop
              · rw [if_neg ha, if_pos ha', h.typeAt_eq ⟨by omega, by omega⟩,
                  settle_of_not_overrides ho]
              · rw [if_neg ha, if_neg ha']
          have hsz := size_lt_fuel m
          rw [setFrom_clear h.tiled h.bound (by omega) hi (by omega) fun j _ hj ↦ by
            rw [hl']; exact hcl _ (slots_mem_live m hj)]
          exact (setInsert_outcome hl' h.tiled h.bound h.stale (by omega) hres hcl).mono
            (Keeps.refl _ _ _) le_rfl hc2.le (fun hf ↦ absurd hf hforce) fun hf ↦ absurd hf hforce
        · simp only [Flush] at hflush
          rcases eq_or_ne e.base base with hbe | hbne
          · -- exactly an entry that keeps its type: nothing changes
            rw [setFrom, if_pos hi, setStep_equal_keep he hb hc hbe.symm (by simp only; omega) ho]
            have hFm : typeAt m.live = F := by
              funext a
              by_cases ha : base ≤ a ∧ a < stop
              · rw [hkept a ha.1 ha.2 ⟨by omega, by omega⟩, h.typeAt_eq ⟨by omega, by omega⟩]
              · rw [← h.result, setResult, overwrite_of_not_mem ha]
            exact ⟨⟨h.tiled, h.bound, by rw [hFm]; exact h.stale⟩, hFm, Keeps.refl _ _ _,
              fun hf ↦ absurd hf hforce⟩
          · exact around_outcome h (fun m' pre' fuel hinv hf ↦
              ih m' pre' e.stop (stop - e.stop) stop fuel (by omega) hinv hf) hl (by omega)
              (by omega) (by omega) ho
    | true =>
      by_cases hs : e.base < base
      · by_cases hst : stop < e.stop
        · exact split_outcome h hl (by omega) hs hst ho
        · -- the entry is cut back to what lies before the range
          have hlive := live_set h.live { e with length := base - e.base }
          have hinv := h.start_cut hs hc1 (by omega) ho
          rw [setFrom_next hi (setStep_start he hb hc hs hc1 (by simp only [hl]; omega) ho)]
          simp only [hnext]
          have := ih _ _ base length stop fuel hl hinv (by omega)
          rw [List.length_append, List.length_singleton] at this
          refine this.mono ?_ le_rfl le_rfl (fun _ ↦ ⟨rfl, rfl⟩) fun _ hfull hbase ↦ ⟨hfull, ?_⟩
          · rw [hlive, h.live]
            have : Keeps (pre ++ e :: post) (pre ++ [{ e with length := base - e.base }] ++ post)
                base stop :=
              keeps_cut fun p q hpq hout hp hq ↦ ⟨_, List.mem_singleton_self _, hp, by
                simp only [Span.stop] at *; omega⟩
            simpa using this
          · intro x hx
            simp only [h.live, List.mem_append, List.mem_cons] at hx
            rcases hx with hx | rfl | hx
            · exact hbase x (by rw [hlive]; simp [hx])
            · exact hs.le
            · exact hbase x (by rw [hlive]; simp [hx])
      · by_cases hst : stop < e.stop
        · -- the entry is cut back to what lies after the range
          have hlive := live_set h.live ⟨stop, e.stop - stop, e.type⟩
          have hinv := h.stop_cut (by omega) hc2 hst ho
          have hstep := setStep_end (c := ⟨m, pre.length, base, length⟩) he hb hc
            (by simp only; omega) (by simp only [hl]; omega) (by simpa [hl] using hst) ho
          simp only [hl] at hstep
          rw [setFrom_next hi hstep]
          simp only [hnext]
          have := ih _ _ base length stop fuel hl hinv (by omega)
          rw [List.length_append, List.length_singleton] at this
          refine this.mono ?_ le_rfl le_rfl (fun _ ↦ ⟨rfl, rfl⟩) fun _ _ hbase ↦ ?_
          · rw [hlive, h.live]
            have : Keeps (pre ++ e :: post) (pre ++ [⟨stop, e.stop - stop, e.type⟩] ++ post)
                base stop :=
              keeps_cut fun p q hpq hout hp hq ↦ ⟨_, List.mem_singleton_self _,
                by simp only at *; omega, by simp only [Span.stop] at *; omega⟩
            simpa using this
          · have := hbase ⟨stop, e.stop - stop, e.type⟩ (by rw [hlive]; simp)
            simp only at this; omega
        · -- the entry is dropped, and the loop looks at the same index again
          have hinv := h.cover_cut (by omega) (by omega) ho
          have hstep := setStep_cover (c := ⟨m, pre.length, base, length⟩) he hb hc hpos
            (by simp only; omega) (by simp only [hl]; omega) (by simpa [hl] using hflush) ho
          rw [setFrom_next hi hstep]
          simp only [add64_sub64_one (show pre.length < 2 ^ 64 by have := succ_lt_word hi; omega)]
          have := ih _ _ base length stop fuel hl hinv (by omega)
          refine this.mono ?_ le_rfl le_rfl (fun _ ↦ ⟨rfl, rfl⟩) fun _ hfull _ ↦ ?_
          · rw [live_mapDelete h.live, h.live]
            have : Keeps (pre ++ e :: post) (pre ++ [] ++ post) base stop :=
              keeps_cut fun p q hpq hout hp hq ↦ by omega
            simpa using this
          · have := m.size_le
            rw [mapDelete_size] at hfull
            unfold pmmMapMaxEntries at *; omega

/-! ## `pmm_map_set` -/

/-- The invariant at the call: nothing is passed yet. -/
theorem PmmMap.Wf.setInv {m : PmmMap} {base stop : Nat} {type : PmmMapType} {force : Bool}
    (h : m.Wf) (hlt : base < stop) (hs : stop < 2 ^ 64)
    (hc : Clean type force m.live base stop) :
    SetInv (setResult m base stop type force) type force m [] m.live base stop where
  live := rfl
  tiled := h.tiled
  bound := h.bound
  stale := h.stale.mono fun _ ha ↦ setResult_ne_none ha
  stop_lt := hs
  lt := hlt
  result := rfl
  seen := by simp
  clean := hc

/-- **`pmm_map_set` on a clean range**: a well-formed map with the intended types, or a full
array. -/
theorem pmmMapSet_spec {m : PmmMap} {base length stop : Nat} (type : PmmMapType) (force : Bool)
    (h : m.Wf) (hl : base + length = stop) (hlt : base < stop) (hs : stop < 2 ^ 64)
    (hc : Clean type force m.live base stop) :
    SetOutcome (setResult m base stop type force) m base stop force
      (pmmMapSet m base length type force) := by
  refine setFrom_spec m.live m [] base length stop setFuel hl (h.setInv hlt hs hc) ?_
  have := m.size_le
  rw [live_length]
  unfold pmmMapMaxEntries at this
  unfold setFuel; omega

/-- Putting back what a cut took off an entry gives the map as it was. -/
theorem set_set_self {m : PmmMap} {i : Nat} (e : PmmMapEntry) (h : m.slots i = e)
    (e' : PmmMapEntry) : (m.set i e').set i e = m := by
  subst h
  simp [PmmMap.set]

/-- **An empty range changes nothing.**  Strictly inside an entry it does split the entry, but the
two halves are glued together again. -/
theorem pmmMapSet_zero {m : PmmMap} {base : Nat} {type : PmmMapType} {force : Bool} (h : m.Wf)
    (hb : base < 2 ^ 64) : pmmMapSet m base 0 type force = .ok m := by
  have hsz := size_lt_fuel m
  have hrest : ∀ fuel i, m.size < fuel → i ≤ m.size →
      (∀ j, i ≤ j → j < m.size → (m.slots j).Clear base base) →
      setFrom fuel ⟨m, i, base, 0⟩ type force = .ok m := by
    intro fuel i hf hi hc
    rw [setFrom_clear h.tiled h.bound (by simpa using hb) hi hf (by simpa using hc), setInsert,
      if_pos rfl]
  by_cases hin : ∃ e ∈ m.live, e.base < base ∧ base < e.stop
  swap
  · -- every entry is clear of the range
    refine hrest _ 0 (by unfold setFuel; omega) (Nat.zero_le _) fun j _ hj ↦ ?_
    by_contra hc
    simp only [Clear, not_or, not_le] at hc
    exact hin ⟨_, slots_mem_live m hj, hc.2, hc.1⟩
  obtain ⟨e, he, h1, h2⟩ := hin
  obtain ⟨pre, post, hlive⟩ := List.append_of_mem he
  obtain ⟨hi, hslot⟩ := slots_of_live hlive
  have ht := h.tiled
  rw [hlive, tiled_append, tiled_cons] at ht
  have hpre : ∀ j, 0 ≤ j → j < 0 + pre.length → (m.slots j).Clear base (base + 0) := by
    intro j _ hj
    have hmem : m.slots j ∈ pre := by
      rw [← live_getElem m (by simp; omega)]
      simp only [hlive]
      rw [List.getElem_append_left (by omega)]
      exact List.getElem_mem _
    have := ht.2.2 _ hmem e (by simp)
    exact Or.inl (by omega)
  have hskip := setFrom_skip base 0 type force h.tiled h.bound (by simpa using hb) pre.length 0 (setFuel - pre.length - 1 + 1) (by omega) hpre
  have hfuel : setFuel - pre.length - 1 + 1 + pre.length = setFuel := by unfold setFuel; omega
  rw [hfuel, Nat.zero_add] at hskip
  rw [pmmMapSet, hskip, setFrom, if_pos hi]
  have hstop := h.bound e he
  cases ho : overrides type force e.type with
  | false => rw [setStep_inside_keep hslot hstop (by simpa using hb) h1 (by simpa using h2) ho]
  | true =>
    rw [setStep_inside hslot hstop (by simpa using hb) h1 (by simpa using h2) ho]
    simp only [Nat.add_zero]
    set left : PmmMapEntry := { e with length := base - e.base } with hleft
    have hlive₁ : (m.set pre.length left).live = pre ++ left :: post := live_set hlive left
    have ht₁ : Tiled (pre ++ left :: post) := by
      simp only [tiled_append, tiled_cons, hleft]
      refine ⟨ht.1, ⟨by simp; omega, fun t htm ↦ ?_, ht.2.1.2.2⟩, fun s hs t htm ↦ ?_⟩
      · have := ht.2.1.2.1 t htm
        simp only [Span.stop] at *; omega
      · rcases List.mem_cons.mp htm with rfl | htm
        · exact ht.2.2 s hs e (by simp)
        · exact ht.2.2 s hs t (by simp [htm])
    have hb₁ : ∀ s ∈ (m.set pre.length left).live, s.stop < 2 ^ 64 := by
      intro s hs
      simp only [hlive₁, List.mem_append, List.mem_cons] at hs
      rcases hs with hs | rfl | hs
      · exact h.bound s (by rw [hlive]; simp [hs])
      · simp only [hleft, Span.stop] at *; omega
      · exact h.bound s (by rw [hlive]; simp [hs])
    have hc₁ : ∀ s ∈ (m.set pre.length left).live, s.Clear base (base + (e.stop - base)) := by
      intro s hs
      simp only [hlive₁, List.mem_append, List.mem_cons] at hs
      rcases hs with hs | rfl | hs
      · have := ht.2.2 s hs e (by simp)
        exact Or.inl (by omega)
      · exact Or.inl (by simp only [hleft, Span.stop]; omega)
      · have := ht.2.1.2.1 s hs
        exact Or.inr (by omega)
    -- the end of the entry continues its start, which is where the search stops
    have hins : setInsert (m.set pre.length left) base (e.stop - base) e.type = .ok m := by
      obtain ⟨l, r, hlr, hidx, hl, hr⟩ :=
        live_eq_of_clear (by rw [hlive₁]; exact ht₁) hc₁ (by omega)
      have hlen : l.length = pre.length + 1 := by
        rw [hlive₁, List.append_cons] at hlr
        rcases List.append_eq_append_iff.mp hlr with ⟨c, hc, hc'⟩ | ⟨c, hc, hc'⟩
        · cases c with
          | nil => simp [hc]
          | cons x c =>
            have h3 := hl x (by simp [hc])
            have h4 := ht.2.1.2.1 x (by simp [hc'])
            have h5 := ht.2.1.2.2.pos x (by simp [hc'])
            simp only [Span.stop] at h2 h3 h4; omega
        · rcases List.eq_nil_or_concat' c with rfl | ⟨c, x, rfl⟩
          · simpa using (congrArg List.length hc).symm
          · rw [← List.append_assoc] at hc
            obtain ⟨-, hx⟩ := List.append_inj' hc rfl
            have := hr left (by rw [hc', List.singleton_inj.mp hx]; simp)
            simp only [hleft] at this; omega
      rw [setInsert, if_neg (by omega)]
      simp only [← hidx, hlen, Nat.add_sub_cancel, set_slots_self]
      have hcont : add64 left.base left.length = base := by
        rw [add64_eq (by simp only [hleft]; omega)]; simp only [hleft]; omega
      rw [if_pos ⟨by omega, rfl, hcont⟩,
        add64_eq (by simp only [hleft, Span.stop] at *; omega)]
      rw [show ({ left with length := left.length + (e.stop - base) } : PmmMapEntry) = e from ?_,
        set_set_self e hslot]
      simp only [hleft, Span.stop] at *
      congr; omega
    rw [setFrom_clear (by rw [hlive₁]; exact ht₁) hb₁ (by omega) (Nat.zero_le _)
      (by rw [set_size]; unfold setFuel; omega) fun j _ hj ↦ hc₁ _ (slots_mem_live _ hj), hins]
    refine hrest _ _ (by unfold setFuel; omega) (by rw [add64_eq (succ_lt_word hi)]; omega)
      fun j hj hj' ↦ ?_
    -- the entries after the split one begin past its end
    rw [add64_eq (succ_lt_word hi)] at hj
    have hsep := List.pairwise_iff_getElem.mp h.tiled.sep pre.length j (by simpa using hi)
      (by simpa using hj') (by omega)
    rw [live_getElem, live_getElem, hslot] at hsep
    exact Or.inr (by omega)

end LunarPrekernel
