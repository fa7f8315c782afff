import LunarPrekernel.Pmm.SetSpec

/-!
# `pmm_map_set` ends on every table

On a tiled map `setFrom_spec` says how much fuel the loop needs.  Here the map is whatever the array
holds: unsorted, overlapping or empty entries, anything in the dead slots.  `pmmMapSet_halts` says
that the call still ends.

## What gets smaller

A forced call that splits an entry calls itself on the part of the entry behind the range, so its
base moves up, and no end in the map is ever above the largest one at the start (`callRank`).  A call
that is not forced goes on with a shorter range.

Inside one call the index comes closer to the size of the map, except after a split, when the nested
call may have added entries.  `pierced x m` counts the entries that have `x` strictly inside.  A
split takes one away at the end of the range; the nested call, which begins there, gives at most one
back, and only when it glues its range to an entry and adds none (`Settled`).

## The slot behind a full array

With the array full and no entry beginning above the range, the insertion reads the slot behind the
array, which is a `fault`.  `setInsertRaw` does what a machine does that lets it: it takes that slot
for what `slots` says.
-/

set_option autoImplicit false

namespace LunarPrekernel

open SpanMap Span PmmMap

/-! ## The loop over an insertion -/

/-- `setInsert`, reading and writing on behind the array. -/
def setInsertRaw (m : PmmMap) (base length : Nat) (type : PmmMapType) : Except Stop PmmMap :=
  if length = 0 then .ok m
  else
    let i := insertIndex m base m.size 0
    let prev := m.slots (i - 1)
    if i ≠ 0 ∧ prev.type = type ∧ add64 prev.base prev.length = base then
      .ok (m.set (i - 1) { prev with length := add64 prev.length length })
    else
      let next := m.slots i
      if next.type = type ∧ next.base = add64 base length then
        .ok (m.set i { next with base := base, length := add64 next.length length })
      else mapInsert m i ⟨base, length, type⟩

/-- `setFrom`, with `ins` for what follows the loop. -/
def setFromBy (ins : PmmMap → Nat → Nat → PmmMapType → Except Stop PmmMap) :
    Nat → SetCursor → PmmMapType → Bool → Except Stop PmmMap
  | 0, _, _, _ => .error .fuel
  | fuel + 1, c, type, force =>
    if c.i < c.map.size then
      match setStep type force c with
      | .done m => .ok m
      | .next c => setFromBy ins fuel { c with i := add64 c.i 1 } type force
      | .split c endBase endLength entryType => do
        let m ← setFromBy ins fuel ⟨c.map, 0, endBase, endLength⟩ entryType true
        setFromBy ins fuel { c with map := m, i := add64 c.i 1 } type force
      | .around m startBase startLength endBase endLength => do
        let m ← setFromBy ins fuel ⟨m, 0, startBase, startLength⟩ type force
        setFromBy ins fuel ⟨m, 0, endBase, endLength⟩ type force
    else ins c.map c.base c.length type

theorem setInsert_eq_raw (m : PmmMap) (base length : Nat) (type : PmmMapType) :
    setInsert m base length type = setInsertRaw m base length type ∨
      setInsert m base length type = .error .fault := by
  rw [setInsert, setInsertRaw]
  split
  · exact Or.inl rfl
  dsimp only
  split
  · exact Or.inl rfl
  split
  · exact Or.inr rfl
  · exact Or.inl rfl

/-- With enough fuel the loop gives `r`. -/
def RunsTo (ins : PmmMap → Nat → Nat → PmmMapType → Except Stop PmmMap) (c : SetCursor)
    (type : PmmMapType) (force : Bool) (r : Except Stop PmmMap) : Prop :=
  ∃ n, ∀ fuel, n ≤ fuel → setFromBy ins fuel c type force = r

section RunsTo

variable {ins : PmmMap → Nat → Nat → PmmMapType → Except Stop PmmMap} {c c' : SetCursor}
  {type t : PmmMapType} {force : Bool} {r : Except Stop PmmMap} {m m' : PmmMap} {b l b' l' : Nat}

theorem RunsTo.of_succ (n : Nat) (h : ∀ fuel, n ≤ fuel → setFromBy ins (fuel + 1) c type force = r) :
    RunsTo ins c type force r := by
  refine ⟨n + 1, fun fuel hf ↦ ?_⟩
  obtain ⟨k, rfl⟩ : ∃ k, fuel = k + 1 := ⟨fuel - 1, by omega⟩
  exact h k (by omega)

theorem runsTo_insert (hi : ¬ c.i < c.map.size) :
    RunsTo ins c type force (ins c.map c.base c.length type) :=
  RunsTo.of_succ 0 fun fuel _ ↦ by rw [setFromBy, if_neg hi]

theorem runsTo_done (hi : c.i < c.map.size) (hs : setStep type force c = .done m) :
    RunsTo ins c type force (.ok m) :=
  RunsTo.of_succ 0 fun fuel _ ↦ by rw [setFromBy, if_pos hi, hs]

theorem runsTo_next (hi : c.i < c.map.size) (hs : setStep type force c = .next c')
    (h : RunsTo ins { c' with i := add64 c'.i 1 } type force r) : RunsTo ins c type force r := by
  obtain ⟨n, hn⟩ := h
  refine RunsTo.of_succ n fun fuel hf ↦ ?_
  rw [setFromBy, if_pos hi, hs]
  exact hn fuel hf

theorem runsTo_split_error {stop : Stop} (hi : c.i < c.map.size)
    (hs : setStep type force c = .split c' b l t)
    (h : RunsTo ins ⟨c'.map, 0, b, l⟩ t true (.error stop)) :
    RunsTo ins c type force (.error stop) := by
  obtain ⟨n, hn⟩ := h
  refine RunsTo.of_succ n fun fuel hf ↦ ?_
  rw [setFromBy, if_pos hi, hs]
  dsimp only
  rw [hn fuel hf]
  rfl

theorem runsTo_split (hi : c.i < c.map.size) (hs : setStep type force c = .split c' b l t)
    (h : RunsTo ins ⟨c'.map, 0, b, l⟩ t true (.ok m'))
    (h' : RunsTo ins { c' with map := m', i := add64 c'.i 1 } type force r) :
    RunsTo ins c type force r := by
  obtain ⟨n, hn⟩ := h
  obtain ⟨n', hn'⟩ := h'
  refine RunsTo.of_succ (max n n') fun fuel hf ↦ ?_
  rw [setFromBy, if_pos hi, hs]
  dsimp only
  rw [hn fuel (by omega)]
  exact hn' fuel (by omega)

theorem runsTo_around_error {stop : Stop} (hi : c.i < c.map.size)
    (hs : setStep type force c = .around m b l b' l')
    (h : RunsTo ins ⟨m, 0, b, l⟩ type force (.error stop)) :
    RunsTo ins c type force (.error stop) := by
  obtain ⟨n, hn⟩ := h
  refine RunsTo.of_succ n fun fuel hf ↦ ?_
  rw [setFromBy, if_pos hi, hs]
  dsimp only
  rw [hn fuel hf]
  rfl

theorem runsTo_around (hi : c.i < c.map.size) (hs : setStep type force c = .around m b l b' l')
    (h : RunsTo ins ⟨m, 0, b, l⟩ type force (.ok m')) (h' : RunsTo ins ⟨m', 0, b', l'⟩ type force r) :
    RunsTo ins c type force r := by
  obtain ⟨n, hn⟩ := h
  obtain ⟨n', hn'⟩ := h'
  refine RunsTo.of_succ (max n n') fun fuel hf ↦ ?_
  rw [setFromBy, if_pos hi, hs]
  dsimp only
  rw [hn fuel (by omega)]
  exact hn' fuel (by omega)

end RunsTo

/-! ## The ways one iteration can go -/

/-- The ways the body of the loop can go on any entry `e`. -/
inductive StepCase (type : PmmMapType) (force : Bool) (c : SetCursor) (e : PmmMapEntry) :
    SetStep → Prop where
  /-- The range is dropped. -/
  | done : StepCase type force c e (.done c.map)
  /-- The entry is dropped. -/
  | drop : StepCase type force c e (.next { c with map := mapDelete c.map c.i, i := sub64 c.i 1 })
  /-- The entry is passed over or cut back. -/
  | shrink (e' : PmmMapEntry) (hb : e.base ≤ e'.base) (hs : e'.stop ≤ e.stop) :
    StepCase type force c e (.next { c with map := c.map.set c.i e' })
  /-- The range is cut back. -/
  | trim (base length : Nat) (hforce : force = false) (hb : c.base ≤ base)
    (hs : base + length ≤ c.base + c.length) (hl : length < c.length) :
    StepCase type force c e (.next { c with base := base, length := length })
  /-- The entry is split. -/
  | split (hb : e.base < c.base) (hs : c.base + c.length < e.stop) :
    StepCase type force c e
      (.split { c with map := c.map.set c.i { e with length := c.base - e.base } }
        (c.base + c.length) (e.stop - (c.base + c.length)) e.type)
  /-- The range is split. -/
  | around (hforce : force = false) (hb : c.base < e.base) (hs : e.stop < c.base + c.length) :
    StepCase type force c e
      (.around c.map c.base (e.base - c.base) e.stop (c.base + c.length - e.stop))

section Steps

variable {type : PmmMapType} {force : Bool} {c : SetCursor} {e : PmmMapEntry}

theorem StepCase.pass (he : c.map.slots c.i = e) : StepCase type force c e (.next c) := by
  have hself : c.map.set c.i e = c.map := by
    rw [← he]
    simp [PmmMap.set]
  have h : StepCase type force c e (.next { c with map := c.map.set c.i e }) :=
    .shrink e le_rfl le_rfl
  rwa [hself] at h

theorem force_of_not_overrides (ho : overrides type force e.type = false) : force = false := by
  cases force
  · rfl
  · rw [overrides_force] at ho; cases ho

/-- No endpoint of the range is strictly inside the entry. -/
theorem coverStep_case (he : c.map.slots c.i = e) (hb : e.stop < 2 ^ 64)
    (hc : c.base + c.length < 2 ^ 64) :
    StepCase type force c e (coverStep c.i (overrides type force e.type) c) := by
  have h1 : add64 e.base e.length = e.stop := add64_eq hb
  have h2 : add64 c.base c.length = c.base + c.length := add64_eq hc
  simp only [coverStep, he, h1, h2]
  split
  · rename_i h
    cases ho : overrides type force e.type with
    | true => exact .drop
    | false =>
      have hle : e.base ≤ e.stop := Nat.le_add_right _ _
      rw [if_neg Bool.false_ne_true, sub64_eq (by omega) h.1.le, sub64_eq hc h.2.le]
      exact .around (force_of_not_overrides ho) h.1 h.2
  split
  · cases overrides type force e.type with
    | true => exact .drop
    | false => exact .done
  · exact .pass he

theorem setStep_case (he : c.map.slots c.i = e) (hb : e.stop < 2 ^ 64)
    (hc : c.base + c.length < 2 ^ 64) : StepCase type force c e (setStep type force c) := by
  have hlen : e.stop = e.base + e.length := rfl
  have hov : ∀ b, decide (e.base < b ∧ b < add64 e.base e.length) = true ↔
      e.base < b ∧ b < e.stop := by
    intro b
    rw [add64_eq hb, decide_eq_true_iff]
    rfl
  by_cases hs : e.base < c.base ∧ c.base < e.stop
  · rcases Nat.lt_or_ge (c.base + c.length) e.stop with ht | ht
    · cases ho : overrides type force e.type with
      | true =>
        rw [setStep_inside he hb hc hs.1 ht ho]
        exact .split hs.1 ht
      | false =>
        rw [setStep_inside_keep he hb hc hs.1 ht ho]
        exact .done
    · cases ho : overrides type force e.type with
      | true =>
        rw [setStep_start he hb hc hs.1 hs.2 ht ho]
        refine .shrink _ le_rfl ?_
        simp only [Span.stop]; omega
      | false =>
        rw [setStep_start_keep he hb hc hs.1 hs.2 ht ho]
        exact .trim _ _ (force_of_not_overrides ho) hs.2.le (by omega) (by omega)
  by_cases ht : e.base < c.base + c.length ∧ c.base + c.length < e.stop
  · have hle : c.base ≤ e.base := by omega
    cases ho : overrides type force e.type with
    | true =>
      rw [setStep_end he hb hc hle ht.1 ht.2 ho]
      refine .shrink _ ht.1.le ?_
      simp only [Span.stop] at *; omega
    | false =>
      rw [setStep_end_keep he hb hc hle ht.1 ht.2 ho]
      exact .trim _ _ (force_of_not_overrides ho) le_rfl (by omega) (by omega)
  · have heq : setStep type force c = coverStep c.i (overrides type force e.type) c := by
      have hs' := mt (hov c.base).1 hs
      have ht' := mt (hov (c.base + c.length)).1 ht
      rw [Bool.not_eq_true] at hs' ht'
      simp only [setStep, he, add64_eq hc, hs', ht', Bool.and_self, Bool.false_eq_true, if_false]
    rw [heq]
    exact coverStep_case he hb hc

end Steps

/-! ## Entries with a point strictly inside -/

/-- How many live entries have `x` strictly inside. -/
def pierced (x : Nat) (m : PmmMap) : Nat :=
  m.live.countP fun e ↦ decide (e.base < x ∧ x < e.stop)

section Pierced

variable {x : Nat} {m : PmmMap} {pre post : List PmmMapEntry} {e : PmmMapEntry}

theorem pierced_split (h : m.live = pre ++ e :: post) :
    pierced x m = pre.countP (fun e ↦ decide (e.base < x ∧ x < e.stop)) +
      post.countP (fun e ↦ decide (e.base < x ∧ x < e.stop)) +
      if e.base < x ∧ x < e.stop then 1 else 0 := by
  rw [pierced, h, List.countP_append, List.countP_cons, Nat.add_assoc]
  simp only [decide_eq_true_eq]

theorem pierced_set {i : Nat} (hi : i < m.size) (e : PmmMapEntry) :
    pierced x (m.set i e) + (if (m.slots i).base < x ∧ x < (m.slots i).stop then 1 else 0) =
      pierced x m + if e.base < x ∧ x < e.stop then 1 else 0 := by
  have hlive := live_split m hi
  have hlen : (m.live.take i).length = i := by simp; omega
  have hset := live_set hlive e
  rw [hlen] at hset
  rw [pierced_split hlive, pierced_split hset]
  omega

theorem pierced_set_le_succ {i : Nat} (hi : i < m.size) (e : PmmMapEntry) :
    pierced x (m.set i e) ≤ pierced x m + 1 := by
  have h := @pierced_set x m i hi e
  split at h <;> split at h <;> omega

theorem pierced_set_le {i : Nat} (hi : i < m.size)
    (he : e.base < x ∧ x < e.stop → (m.slots i).base < x ∧ x < (m.slots i).stop) :
    pierced x (m.set i e) ≤ pierced x m := by
  have h := @pierced_set x m i hi e
  by_cases hx : e.base < x ∧ x < e.stop
  · rw [if_pos hx, if_pos (he hx)] at h
    omega
  · rw [if_neg hx] at h
    omega

theorem pierced_set_lt {i : Nat} (hi : i < m.size) (he : ¬ (e.base < x ∧ x < e.stop))
    (hx : (m.slots i).base < x ∧ x < (m.slots i).stop) :
    pierced x (m.set i e) < pierced x m := by
  have h := @pierced_set x m i hi e
  rw [if_pos hx, if_neg he] at h
  omega

theorem pierced_mapDelete_le {i : Nat} (hi : i < m.size) :
    pierced x (mapDelete m i) ≤ pierced x m := by
  have hlive := live_split m hi
  have hlen : (m.live.take i).length = i := by simp; omega
  have hdel := live_mapDelete hlive
  rw [hlen] at hdel
  rw [pierced_split hlive, pierced, hdel, List.countP_append]
  omega

end Pierced

/-! ## The insertion -/

/-- No live entry ends above `M`. -/
def EndsBy (M : Nat) (m : PmmMap) : Prop := ∀ e ∈ m.live, e.stop ≤ M

/-- What a call leaves behind. -/
structure Settled (M : Nat) (force : Bool) (c : SetCursor) (m : PmmMap) : Prop where
  bound : EndsBy M m
  below : force = true → ∀ x, x < c.base → pierced x m ≤ pierced x c.map
  /-- Only an insertion that is glued to an entry can put the base inside one. -/
  atBase : force = true → 0 < c.length → pierced c.base m ≤ pierced c.base c.map ∨
    pierced c.base m ≤ pierced c.base c.map + 1 ∧ m.size ≤ c.map.size

/-- The call returns such a map, or ends in a stop of `E`. -/
def Ended (E : Stop → Prop) (Q : PmmMap → Prop) (r : Except Stop PmmMap) : Prop :=
  (∃ m, r = .ok m ∧ Q m) ∨ ∃ stop, r = .error stop ∧ E stop

section Insert

variable {M : Nat} {m : PmmMap} {c : SetCursor} {force : Bool} {e : PmmMapEntry} {i : Nat}

theorem EndsBy.set (h : EndsBy M m) (hi : i < m.size) (he : e.stop ≤ M) : EndsBy M (m.set i e) := by
  intro s hs
  obtain ⟨j, hj, rfl⟩ := mem_live.1 hs
  rcases eq_or_ne j i with rfl | hne
  · rwa [set_slots_self]
  · rw [set_slots_of_ne m e hne]
    exact h _ (slots_mem_live m hj)

theorem EndsBy.mapDelete (h : EndsBy M m) (hi : i < m.size) : EndsBy M (mapDelete m i) := by
  have hlive := live_split m hi
  have hlen : (m.live.take i).length = i := by simp; omega
  have hdel := live_mapDelete hlive
  rw [hlen] at hdel
  intro s hs
  rw [hdel, List.mem_append] at hs
  exact h s (hs.elim List.mem_of_mem_take List.mem_of_mem_drop)

theorem Settled.refl (h : EndsBy M c.map) : Settled M force c c.map :=
  ⟨h, fun _ _ _ ↦ le_rfl, fun _ _ ↦ Or.inl le_rfl⟩

/-- Writing a dead slot leaves the live entries alone. -/
theorem live_set_dead (hi : m.size ≤ i) (e : PmmMapEntry) : (m.set i e).live = m.live := by
  refine live_ext (by rw [live_length, set_size]) fun j hj ↦ ?_
  rw [live_length] at hj
  rw [live_getElem, set_slots_of_ne m e (by omega)]

/-- The insertion, with nothing added where the range is glued to the entry before it. -/
theorem setInsertRaw_ended (hM : M < 2 ^ 64) (h : EndsBy M c.map) (hc : c.base + c.length ≤ M)
    (type : PmmMapType) :
    Ended (· = .panic "memory map overflow" []) (Settled M force c)
      (setInsertRaw c.map c.base c.length type) := by
  have hslot : ∀ i, i < c.map.size → (c.map.slots i).stop ≤ M :=
    fun i hi ↦ h _ (slots_mem_live c.map hi)
  obtain ⟨-, hle, -, -⟩ := insertIndex_spec c.map c.base c.map.size 0
  rw [Nat.zero_add] at hle
  rw [setInsertRaw]
  split
  · exact Or.inl ⟨_, rfl, .refl h⟩
  rename_i hlen
  dsimp only
  generalize insertIndex c.map c.base c.map.size 0 = i at hle
  split
  · -- glued to the entry before it
    rename_i hprev
    obtain ⟨hne, -, hbase⟩ := hprev
    have hi : i - 1 < c.map.size := by omega
    have hs := hslot _ hi
    simp only [Span.stop] at hs
    rw [add64_eq (by omega)] at hbase
    rw [add64_eq (by omega)]
    refine Or.inl ⟨_, rfl, h.set hi (by simp only [Span.stop]; omega), fun _ x hx ↦ ?_,
      fun _ _ ↦ Or.inr ⟨pierced_set_le_succ hi _, le_rfl⟩⟩
    refine pierced_set_le hi fun hp ↦ ⟨hp.1, ?_⟩
    simp only [Span.stop]; omega
  split
  · -- glued to what is in the slot after it
    rename_i hnext
    obtain ⟨-, hbase⟩ := hnext
    rw [add64_eq (by omega)] at hbase
    rcases Nat.lt_or_ge i c.map.size with hi | hi
    · have hs := hslot _ hi
      simp only [Span.stop] at hs
      rw [add64_eq (by omega)]
      have hle : ∀ x, x ≤ c.base → pierced x (c.map.set i
          ⟨c.base, (c.map.slots i).length + c.length, (c.map.slots i).type⟩) ≤
          pierced x c.map :=
        fun x hx ↦ pierced_set_le hi fun hp ↦ absurd hp.1 hx.not_gt
      exact Or.inl ⟨_, rfl, h.set hi (by simp only [Span.stop]; omega), fun _ x hx ↦ hle x hx.le,
        fun _ _ ↦ Or.inl (hle _ le_rfl)⟩
    · refine Or.inl ⟨_, rfl, ?_, fun _ x _ ↦ ?_, fun _ _ ↦ Or.inl ?_⟩
      · rw [EndsBy, live_set_dead hi]
        exact h
      · rw [pierced, live_set_dead hi]
        exact le_rfl
      · rw [pierced, live_set_dead hi]
        exact le_rfl
  · -- an entry of its own
    rcases eq_or_ne c.map.size pmmMapMaxEntries with hfull | hroom
    · exact Or.inr ⟨_, mapInsert_error hfull, rfl⟩
    have hlive : c.map.live = c.map.live.take i ++ c.map.live.drop i :=
      (List.take_append_drop _ _).symm
    have hleni : (c.map.live.take i).length = i := by simp; omega
    obtain ⟨m', hm', hlive', -⟩ := mapInsert_ok (e := ⟨c.base, c.length, type⟩) hlive hroom
    rw [hleni] at hm'
    have hle : ∀ x, x ≤ c.base → pierced x m' ≤ pierced x c.map := by
      intro x hx
      rw [pierced_split hlive', if_neg (by simp only; omega), Nat.add_zero, ← List.countP_append,
        ← hlive]
      exact le_rfl
    refine Or.inl ⟨m', hm', fun s hs ↦ ?_, fun _ x hx ↦ hle x hx.le, fun _ _ ↦ Or.inl (hle _ le_rfl)⟩
    rw [hlive', List.mem_append, List.mem_cons] at hs
    rcases hs with hs | rfl | hs
    · exact h s (List.mem_of_mem_take hs)
    · exact hc
    · exact h s (List.mem_of_mem_drop hs)

end Insert

/-! ## The rank of a call -/

/-- A forced call moves its base up, another one shortens its range. -/
def callRank (M : Nat) (force : Bool) (base length : Nat) : Nat :=
  if force then 2 * (M - base) + (if length = 0 then 1 else 0) else 2 * M + 2 + length

/-- The rank of the loop at an index. -/
def loopRank (M : Nat) (force : Bool) (c : SetCursor) : Nat ×ₗ Nat ×ₗ Nat :=
  toLex (callRank M force c.base c.length,
    toLex (pierced (c.base + c.length) c.map, c.map.size - c.i))

section Rank

variable {M : Nat} {force force' : Bool} {c c' : SetCursor}

theorem loopRank_lt_of_call
    (h : callRank M force' c'.base c'.length < callRank M force c.base c.length) :
    loopRank M force' c' < loopRank M force c :=
  Prod.Lex.toLex_lt_toLex.2 (Or.inl h)

theorem loopRank_lt (hb : c'.base = c.base) (hl : c'.length = c.length)
    (h : pierced (c.base + c.length) c'.map < pierced (c.base + c.length) c.map ∨
      pierced (c.base + c.length) c'.map ≤ pierced (c.base + c.length) c.map ∧
        c'.map.size - c'.i < c.map.size - c.i) :
    loopRank M force c' < loopRank M force c := by
  rw [loopRank, loopRank, hb, hl]
  refine Prod.Lex.toLex_lt_toLex.2 (Or.inr ⟨rfl, Prod.Lex.toLex_lt_toLex.2 ?_⟩)
  dsimp only
  omega

theorem callRank_forced_lt {base length length' stop : Nat} (hM : stop ≤ M)
    (hs : base + length < stop) (hl : 0 < length') :
    callRank M true (base + length) length' < callRank M force base length := by
  rw [callRank, callRank, if_pos rfl, if_neg (by omega)]
  cases force
  · rw [if_neg Bool.false_ne_true]
    omega
  · rw [if_pos rfl]
    split <;> omega

theorem callRank_shorter {base base' length length' : Nat} (h : length' < length) :
    callRank M false base' length' < callRank M false base length := by
  rw [callRank, callRank, if_neg Bool.false_ne_true, if_neg Bool.false_ne_true]
  omega

end Rank

/-! ## The call ends -/

section Halt

variable {ins : PmmMap → Nat → Nat → PmmMapType → Except Stop PmmMap} {M : Nat}
  {E : Stop → Prop} {force : Bool} {c c' : SetCursor} {m : PmmMap}

/-- An iteration that keeps the range and puts no point inside an entry hands on what the rest of
the loop settles. -/
theorem Settled.of_next (h : Settled M force c' m) (hb : c'.base = c.base)
    (hl : c'.length = c.length) (hp : ∀ x, pierced x c'.map ≤ pierced x c.map)
    (hs : c'.map.size ≤ c.map.size) : Settled M force c m := by
  refine ⟨h.bound, fun hf x hx ↦ (h.below hf x (hb ▸ hx)).trans (hp x), fun hf hpos ↦ ?_⟩
  have hat := h.atBase hf (hl ▸ hpos)
  rw [hb] at hat
  have := hp c.base
  omega

theorem Settled.of_unforced (hf : force = false) (h : EndsBy M m) : Settled M force c m := by
  rw [hf]
  exact ⟨h, fun h ↦ absurd h Bool.false_ne_true, fun h ↦ absurd h Bool.false_ne_true⟩

theorem Ended.mono {Q Q' : PmmMap → Prop} {r : Except Stop PmmMap} (h : Ended E Q r)
    (hQ : ∀ m, Q m → Q' m) : Ended E Q' r :=
  h.imp_left fun ⟨m, hm, hq⟩ ↦ ⟨m, hm, hQ m hq⟩

/-- **The loop ends**, wherever it is. -/
theorem loop_ends (hM : M < 2 ^ 64)
    (hins : ∀ (force : Bool) (c : SetCursor) (type : PmmMapType), EndsBy M c.map →
      c.base + c.length ≤ M →
      Ended E (Settled M force c) (ins c.map c.base c.length type))
    (type : PmmMapType) (hmap : EndsBy M c.map) (hc : c.base + c.length ≤ M) :
    ∃ r, RunsTo ins c type force r ∧ Ended E (Settled M force c) r := by
  obtain ⟨μ, hμ⟩ : ∃ μ, μ = loopRank M force c := ⟨_, rfl⟩
  induction μ using WellFoundedLT.induction generalizing c type force with
  | ind μ ih =>
    have ih : ∀ {force' : Bool} {c' : SetCursor} (type : PmmMapType), EndsBy M c'.map →
        c'.base + c'.length ≤ M → loopRank M force' c' < loopRank M force c →
        ∃ r, RunsTo ins c' type force' r ∧ Ended E (Settled M force' c') r :=
      fun type hmap hc hlt ↦ ih _ (hμ ▸ hlt) type hmap hc rfl
    by_cases hi : c.i < c.map.size
    swap
    · exact ⟨_, runsTo_insert hi, hins force c type hmap hc⟩
    obtain ⟨e, he⟩ : ∃ e, c.map.slots c.i = e := ⟨_, rfl⟩
    have hemem : e.stop ≤ M := hmap e (he ▸ slots_mem_live c.map hi)
    have hword := succ_lt_word hi
    have hcase : StepCase type force c e (setStep type force c) :=
      setStep_case he (by omega) (by omega)
    generalize hstep : setStep type force c = step at hcase
    cases hcase with
    | done => exact ⟨_, runsTo_done hi hstep, Or.inl ⟨_, rfl, .refl hmap⟩⟩
    | drop =>
      have hback : add64 (sub64 c.i 1) 1 = c.i := add64_sub64_one (by omega)
      obtain ⟨r, hr, hq⟩ := @ih force ⟨mapDelete c.map c.i, c.i, c.base, c.length⟩ type
        (hmap.mapDelete hi) hc (loopRank_lt rfl rfl (Or.inr ⟨pierced_mapDelete_le hi, by
          rw [mapDelete_size]; dsimp only; omega⟩))
      refine ⟨r, runsTo_next hi hstep ?_, hq.mono fun m hm ↦ hm.of_next rfl rfl
        (fun x ↦ pierced_mapDelete_le hi) (Nat.sub_le _ _)⟩
      rwa [hback]
    | shrink e' hb hs =>
      have hle : ∀ x, pierced x (c.map.set c.i e') ≤ pierced x c.map :=
        fun x ↦ pierced_set_le hi fun hp ↦ by rw [he]; omega
      obtain ⟨r, hr, hq⟩ := @ih force ⟨c.map.set c.i e', c.i + 1, c.base, c.length⟩ type
        (hmap.set hi (hs.trans hemem)) hc (loopRank_lt rfl rfl (Or.inr ⟨hle _, by
          rw [set_size]; dsimp only; omega⟩))
      refine ⟨r, runsTo_next hi hstep ?_, hq.mono fun m hm ↦ hm.of_next rfl rfl hle le_rfl⟩
      rwa [add64_eq hword]
    | trim base length hforce hb hs hl =>
      obtain ⟨r, hr, hq⟩ := @ih force ⟨c.map, c.i + 1, base, length⟩ type hmap (hs.trans hc)
        (loopRank_lt_of_call (by rw [hforce]; exact callRank_shorter hl))
      refine ⟨r, runsTo_next hi hstep ?_, hq.mono fun m hm ↦ .of_unforced hforce hm.bound⟩
      rwa [add64_eq hword]
    | split hb hs =>
      set left : PmmMapEntry := { e with length := c.base - e.base } with hleft
      have hstop : left.stop = c.base := by simp only [hleft, Span.stop]; omega
      have hmap' : EndsBy M (c.map.set c.i left) := hmap.set hi (by omega)
      have hle : ∀ x, pierced x (c.map.set c.i left) ≤ pierced x c.map := by
        refine fun x ↦ pierced_set_le hi fun hp ↦ ?_
        rw [he]
        exact ⟨hp.1, by omega⟩
      -- the entry no longer has the endpoints of the range inside
      have hlt : ∀ x, c.base ≤ x → x ≤ c.base + c.length →
          pierced x (c.map.set c.i left) < pierced x c.map := by
        intro x hx hx'
        exact pierced_set_lt hi (by omega) (by rw [he]; omega)
      obtain ⟨r, hr, hq⟩ := @ih true ⟨c.map.set c.i left, 0, c.base + c.length,
        e.stop - (c.base + c.length)⟩ e.type hmap' (by dsimp only; omega)
        (loopRank_lt_of_call (callRank_forced_lt hemem hs (by dsimp only; omega)))
      rcases hq with ⟨m, rfl, hm⟩ | ⟨stop, rfl, hstop⟩
      swap
      · exact ⟨_, runsTo_split_error hi hstep hr, Or.inr ⟨stop, rfl, hstop⟩⟩
      have hat := hm.atBase rfl (by dsimp only; omega)
      dsimp only at hat
      have hlt' := hlt (c.base + c.length) (by omega) le_rfl
      obtain ⟨r', hr', hq'⟩ := @ih force ⟨m, c.i + 1, c.base, c.length⟩ type hm.bound hc
        (loopRank_lt rfl rfl (by rw [set_size] at hat; dsimp only; omega))
      refine ⟨r', runsTo_split hi hstep hr (by rwa [add64_eq hword]), hq'.mono fun m' hm' ↦ ?_⟩
      refine ⟨hm'.bound, fun hf x hx ↦ ?_, fun hf hpos ↦ Or.inl ?_⟩
      · calc pierced x m' ≤ pierced x m := hm'.below hf x hx
          _ ≤ pierced x (c.map.set c.i left) := hm.below rfl x (by dsimp only; omega)
          _ ≤ pierced x c.map := hle x
      · have h1 := hm'.atBase hf hpos
        have h2 := hm.below rfl c.base (by dsimp only; omega)
        have h3 := hlt c.base le_rfl (by omega)
        dsimp only at h1 h2
        omega
    | around hforce hb hs =>
      have hle : e.base ≤ e.stop := Nat.le_add_right _ _
      subst hforce
      obtain ⟨r, hr, hq⟩ := @ih false ⟨c.map, 0, c.base, e.base - c.base⟩ type hmap
        (by dsimp only; omega) (loopRank_lt_of_call (callRank_shorter (by dsimp only; omega)))
      rcases hq with ⟨m, rfl, hm⟩ | ⟨stop, rfl, hstop⟩
      swap
      · exact ⟨_, runsTo_around_error hi hstep hr, Or.inr ⟨stop, rfl, hstop⟩⟩
      obtain ⟨r', hr', hq'⟩ := @ih false ⟨m, 0, e.stop, c.base + c.length - e.stop⟩ type hm.bound
        (by dsimp only; omega) (loopRank_lt_of_call (callRank_shorter (by dsimp only; omega)))
      exact ⟨r', runsTo_around hi hstep hr hr', hq'.mono fun m' hm' ↦ .of_unforced rfl hm'.bound⟩

end Halt

/-! ## `pmm_map_set` -/

section Set

variable {m : PmmMap} {base length : Nat} {type : PmmMapType} {force : Bool}

/-- The loop does the same as the one that goes on behind the array, up to where it would. -/
theorem setFrom_eq_raw (fuel : Nat) (c : SetCursor) (type : PmmMapType) (force : Bool) :
    setFrom fuel c type force = setFromBy setInsertRaw fuel c type force ∨
      setFrom fuel c type force = .error .fault := by
  induction fuel generalizing c type force with
  | zero => exact Or.inl rfl
  | succ fuel ih =>
    rw [setFrom, setFromBy]
    split
    swap
    · exact setInsert_eq_raw c.map c.base c.length type
    cases setStep type force c with
    | done m => exact Or.inl rfl
    | next c => exact ih _ type force
    | split c endBase endLength entryType =>
      dsimp only
      rcases ih ⟨c.map, 0, endBase, endLength⟩ entryType true with h | h
      · rw [h]
        cases setFromBy setInsertRaw fuel ⟨c.map, 0, endBase, endLength⟩ entryType true with
        | ok m => exact ih _ type force
        | error stop => exact Or.inl rfl
      · rw [h]
        exact Or.inr rfl
    | around m startBase startLength endBase endLength =>
      dsimp only
      rcases ih ⟨m, 0, startBase, startLength⟩ type force with h | h
      · rw [h]
        cases setFromBy setInsertRaw fuel ⟨m, 0, startBase, startLength⟩ type force with
        | ok m => exact ih _ type force
        | error stop => exact Or.inl rfl
      · rw [h]
        exact Or.inr rfl

/-- **`pmm_map_set` ends**, whatever is in the array: it returns a map or panics on a full one.
`setFrom` gives the same, or comes to the slot behind the full array. -/
theorem pmmMapSet_halts (hm : ∀ e ∈ m.live, e.stop < 2 ^ 64) (hlt : base + length < 2 ^ 64) :
    ∃ n r, ((∃ m', r = .ok m') ∨ r = .error (.panic "memory map overflow" [])) ∧
      ∀ fuel, n ≤ fuel → setFromBy setInsertRaw fuel ⟨m, 0, base, length⟩ type force = r ∧
        (setFrom fuel ⟨m, 0, base, length⟩ type force = r ∨
          setFrom fuel ⟨m, 0, base, length⟩ type force = .error .fault) := by
  obtain ⟨r, ⟨n, hn⟩, hr⟩ := @loop_ends setInsertRaw (2 ^ 64 - 1) _ force ⟨m, 0, base, length⟩
    (by decide) (fun force c type h hc ↦ setInsertRaw_ended (by decide) h hc type) type
    (fun e he ↦ Nat.le_pred_of_lt (hm e he)) (Nat.le_pred_of_lt hlt)
  refine ⟨n, r, ?_, fun fuel hf ↦ ⟨hn fuel hf, ?_⟩⟩
  · rcases hr with ⟨m', rfl, -⟩ | ⟨stop, rfl, rfl⟩
    · exact Or.inl ⟨m', rfl⟩
    · exact Or.inr rfl
  · rw [← hn fuel hf]
    exact setFrom_eq_raw fuel _ type force

/-- Two overlapping entries and an empty one, in no order. -/
def unsortedMap : PmmMap where
  size := 3
  slots i := if i = 0 then ⟨0x3000, 0, .bad⟩ else if i = 1 then ⟨0x1000, 0x1000, .free⟩ else
    ⟨0, 0x2000, .reserved⟩
  size_le := Nat.le_of_ble_eq_true rfl

/-- A forced range inside both. -/
theorem pmmMapSet_halts_unsorted :
    ∃ n r, ((∃ m', r = .ok m') ∨ r = .error (.panic "memory map overflow" [])) ∧
      ∀ fuel, n ≤ fuel →
        setFromBy setInsertRaw fuel ⟨unsortedMap, 0, 0x1800, 0x400⟩ .used true = r ∧
          (setFrom fuel ⟨unsortedMap, 0, 0x1800, 0x400⟩ .used true = r ∨
            setFrom fuel ⟨unsortedMap, 0, 0x1800, 0x400⟩ .used true = .error .fault) :=
  pmmMapSet_halts (by decide) (by decide)

end Set

end LunarPrekernel
