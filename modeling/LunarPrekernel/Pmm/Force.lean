import LunarPrekernel.Pmm.Firmware

/-!
# Forced calls of `pmm_map_set`

With `force` set, the loop of `pmm_map_set` does to each live entry what the entry alone decides:
`remains` is what it leaves of it.  An entry clear of the range stays, one that reaches over an end
of the range is cut, one that lies in the range goes — except that an entry flush with the range
stays whole, which is the mistake described in `LunarPrekernel.Pmm.Set`.  `setFrom_remains` is the
loop in these terms, for a table whose live entries are tiled and whose dead slots hold anything.

The other thing that can go wrong is a dead slot.  A range that goes in behind the last entry is
compared with the slot after it, and if that slot looks like a continuation the range is merged
into it and lost: `Swallowed`.

* `pmmMapSet_force` — a forced call that returns is the update it should be if and only if no entry
  is flush with the range and no dead slot swallows it.
* `Reachable` — the tables that calls of `pmm_map_set` can make; they are what `pmmMapSet_force` is
  about.
-/

set_option autoImplicit false

namespace LunarPrekernel

open SpanMap Span PmmMap

/-! ## What is left of an entry -/

/-- What lies before `base`. -/
def beforeRange (base : Nat) (x : PmmMapEntry) : List PmmMapEntry :=
  if x.base < base then [{ x with length := min x.stop base - x.base }] else []

/-- What lies from `stop` on. -/
def afterRange (stop : Nat) (x : PmmMapEntry) : List PmmMapEntry :=
  if stop < x.stop then [⟨max x.base stop, x.stop - max x.base stop, x.type⟩] else []

/-- What the loop of a forced call for `[base, stop)` leaves of an entry. -/
def remains (base stop : Nat) (x : PmmMapEntry) : List PmmMapEntry :=
  if Flush base stop x then [x] else beforeRange base x ++ afterRange stop x

section Remains

variable {base stop : Nat} {x y : PmmMapEntry} {l : List PmmMapEntry}

theorem remains_of_flush (h : Flush base stop x) : remains base stop x = [x] := if_pos h

theorem remains_of_clear (hbs : base < stop) (hp : 0 < x.length) (h : x.Clear base stop) :
    remains base stop x = [x] := by
  have hf : ¬ Flush base stop x := by
    simp only [Flush, Clear, Span.stop] at *; omega
  rw [remains, if_neg hf, beforeRange, afterRange]
  rcases h with h | h
  · rw [if_pos (by simp only [Span.stop] at h; omega), if_neg (by omega), min_eq_left h,
      List.append_nil, Span.stop, Nat.add_sub_cancel_left]
  · rw [if_neg (by omega), if_pos (by simp only [Span.stop]; omega), max_eq_left h,
      List.nil_append, Span.stop, Nat.add_sub_cancel_left]

/-- The pieces lie in the entry, in order, and none is empty. -/
theorem mem_remains (hp : 0 < x.length) (h : y ∈ remains base stop x) :
    0 < y.length ∧ x.base ≤ y.base ∧ y.stop ≤ x.stop ∧ y.type = x.type ∧
      (Flush base stop x ∧ y = x ∨ ¬ Flush base stop x ∧ y.Clear base stop) := by
  unfold remains at h
  split at h
  · rename_i hf
    obtain rfl := List.mem_singleton.mp h
    exact ⟨hp, le_rfl, le_rfl, rfl, Or.inl ⟨hf, rfl⟩⟩
  · rename_i hf
    rcases List.mem_append.mp h with h | h
    · unfold beforeRange at h
      split at h
      · obtain rfl := List.mem_singleton.mp h
        simp only [Span.stop, Clear]
        exact ⟨by omega, le_rfl, by omega, trivial, Or.inr ⟨hf, by omega⟩⟩
      · simp at h
    · unfold afterRange at h
      split at h
      · obtain rfl := List.mem_singleton.mp h
        simp only [Span.stop, Clear] at *
        exact ⟨by omega, by omega, by omega, trivial, Or.inr ⟨hf, by omega⟩⟩
      · simp at h

theorem remains_sep (hbs : base ≤ stop) : (remains base stop x).Pairwise fun s t ↦ s.stop ≤ t.base := by
  rw [remains]
  split
  · exact List.pairwise_singleton _ _
  · rw [beforeRange, afterRange]
    split <;> split <;> simp [Span.stop]
    omega

theorem typeAt_beforeRange (a : Nat) :
    typeAt (beforeRange base x) a = if x.Contains a ∧ a < base then some x.type else none := by
  rw [beforeRange]
  split
  · rw [typeAt_cons, typeAt_nil]
    refine if_congr ?_ rfl rfl
    simp only [Contains, Span.stop]; omega
  · rw [typeAt_nil, if_neg (by simp only [Contains]; omega)]

theorem typeAt_afterRange (a : Nat) :
    typeAt (afterRange stop x) a = if x.Contains a ∧ stop ≤ a then some x.type else none := by
  rw [afterRange]
  split
  · rw [typeAt_cons, typeAt_nil]
    refine if_congr ?_ rfl rfl
    simp only [Contains, Span.stop] at *; omega
  · rw [typeAt_nil, if_neg (by simp only [Contains]; omega)]

/-- Outside the range the pieces hold what the entry held. -/
theorem contains_remains {a : Nat} (ha : ¬ (base ≤ a ∧ a < stop)) :
    typeAt (remains base stop x) a = typeAt [x] a := by
  rw [remains]
  split
  · rfl
  · rw [typeAt_append, typeAt_beforeRange, typeAt_afterRange, typeAt_cons, typeAt_nil]
    rcases Nat.lt_or_ge a base with hab | hab
    · simp only [hab, and_true]
      by_cases hc : x.Contains a
      · rw [if_pos hc, Option.some_or]
      · rw [if_neg hc, if_neg fun h ↦ hc h.1, Option.none_or]
    · have hstop : stop ≤ a := by omega
      simp only [hstop, and_true]
      rw [if_neg (by omega), Option.none_or]

theorem tiled_remains (hbs : base ≤ stop) (h : Tiled l) : Tiled (l.flatMap (remains base stop)) := by
  refine ⟨fun s hs ↦ ?_, List.pairwise_flatMap.mpr ⟨fun x _ ↦ remains_sep hbs, ?_⟩⟩
  · obtain ⟨x, hx, hsx⟩ := List.mem_flatMap.mp hs
    exact (mem_remains (h.pos x hx) hsx).1
  · refine h.sep.imp_of_mem fun {x y} hx hy hxy s hs t ht ↦ ?_
    have h1 := mem_remains (h.pos x hx) hs
    have h2 := mem_remains (h.pos y hy) ht
    omega

theorem typeAt_remains {a : Nat} (ha : ¬ (base ≤ a ∧ a < stop)) :
    typeAt (l.flatMap (remains base stop)) a = typeAt l a := by
  induction l with
  | nil => rfl
  | cons x l ih =>
    rw [List.flatMap_cons, typeAt_append, ih, contains_remains ha, ← typeAt_append,
      List.singleton_append]

end Remains

/-! ## The insertion, whatever the live entries are -/

section Insert

variable {m m' : PmmMap} {base length stop : Nat} {type : PmmMapType}

/-- What an insertion that returns has done: it put the range between two entries, or into one of
its neighbours, or into the first dead slot. -/
theorem setInsert_cases (h : setInsert m base length type = .ok m') (hl : 0 < length)
    (hstop : base + length = stop) (hs : stop < 2 ^ 64) (hb : ∀ s ∈ m.live, s.stop < 2 ^ 64) :
    (∃ pre p post, m.live = pre ++ p :: post ∧ p.stop = base ∧
      m'.live = pre ++ { p with length := p.length + length } :: post) ∨
    (∃ pre q post, m.live = pre ++ q :: post ∧ q.base = stop ∧
      m'.live = pre ++ ⟨base, q.length + length, q.type⟩ :: post) ∨
    (∃ pre post, m.live = pre ++ post ∧ m'.live = pre ++ ⟨base, length, type⟩ :: post) ∨
    ((∀ s ∈ m.live, s.base ≤ base) ∧ DeadNext m stop type ∧ m'.live = m.live) := by
  obtain ⟨-, hle, hpre, -⟩ := insertIndex_spec m base m.size 0
  rw [setInsert, if_neg (by omega)] at h
  set i := insertIndex m base m.size 0 with hidx
  dsimp only at h
  split at h
  · rename_i hprev
    obtain ⟨hne, -, hcont⟩ := hprev
    have hi : i - 1 < m.size := by omega
    have hlen : (m.live.take (i - 1)).length = i - 1 := by simp; omega
    have hmem := slots_mem_live m hi
    have hbound := hb _ hmem
    rw [add64_eq hbound] at hcont
    have hlive := live_split m hi
    obtain rfl := Except.ok.inj h
    refine Or.inl ⟨_, _, _, hlive, hcont, ?_⟩
    have hset := live_set hlive
      { m.slots (i - 1) with length := add64 (m.slots (i - 1)).length length }
    rw [hlen] at hset
    rw [hset, add64_eq (by omega)]
  · split at h
    · cases h
    · rename_i hroom
      split at h
      · rename_i hnext
        obtain ⟨htype, hbase⟩ := hnext
        rw [add64_eq (by omega), hstop] at hbase
        obtain rfl := Except.ok.inj h
        rcases Nat.lt_or_ge i m.size with hi | hi
        · have hlen : (m.live.take i).length = i := by simp; omega
          have hbound := hb _ (slots_mem_live m hi)
          have hlive := live_split m hi
          refine Or.inr (Or.inl ⟨_, _, _, hlive, hbase, ?_⟩)
          have hset := live_set hlive
            { m.slots i with base := base, length := add64 (m.slots i).length length }
          rw [hlen] at hset
          rw [hset, add64_eq (by simp only [Span.stop] at hbound; omega)]
        · have hi : i = m.size := by omega
          refine Or.inr (Or.inr (Or.inr ⟨fun s hs ↦ ?_, ?_, ?_⟩))
          · obtain ⟨j, hj, rfl⟩ := mem_live.mp hs
            exact hpre j (Nat.zero_le _) (by omega)
          · rw [DeadNext, ← hi]
            exact ⟨htype, hbase⟩
          · refine live_ext (by simp) fun j hj ↦ ?_
            rw [live_length] at hj
            rw [set_slots_of_ne _ _ (by omega), live_getElem]
      · have hlen : (m.live.take i).length = i := by simp; omega
        have hlive : m.live = m.live.take i ++ m.live.drop i := (List.take_append_drop _ _).symm
        have hfull : m.size ≠ pmmMapMaxEntries := fun hfull ↦ by
          rw [mapInsert_error hfull] at h
          cases h
        obtain ⟨k, hk, hklive, -⟩ := mapInsert_ok (e := ⟨base, length, type⟩) hlive hfull
        rw [hlen, h] at hk
        obtain rfl := Except.ok.inj hk
        exact Or.inr (Or.inr (Or.inl ⟨_, _, hlive, hklive⟩))

/-- An insertion ends no entry anywhere but where one ended before, or where the range does. -/
theorem setInsert_stop (h : setInsert m base length type = .ok m') (hl : 0 < length)
    (hstop : base + length = stop) (hs : stop < 2 ^ 64) (hb : ∀ s ∈ m.live, s.stop < 2 ^ 64) :
    ∀ y ∈ m'.live, y.stop = stop ∨ ∃ s ∈ m.live, y.stop = s.stop := by
  intro y hy
  rcases setInsert_cases h hl hstop hs hb with ⟨pre, p, post, hlive, hp, hlive'⟩ |
    ⟨pre, q, post, hlive, hq, hlive'⟩ | ⟨pre, post, hlive, hlive'⟩ | ⟨-, -, hlive'⟩
  · simp only [hlive', List.mem_append, List.mem_cons] at hy
    rcases hy with hy | rfl | hy
    · exact Or.inr ⟨y, by rw [hlive]; simp [hy], rfl⟩
    · exact Or.inl (by simp only [Span.stop] at *; omega)
    · exact Or.inr ⟨y, by rw [hlive]; simp [hy], rfl⟩
  · simp only [hlive', List.mem_append, List.mem_cons] at hy
    rcases hy with hy | rfl | hy
    · exact Or.inr ⟨y, by rw [hlive]; simp [hy], rfl⟩
    · exact Or.inr ⟨q, by rw [hlive]; simp, by simp only [Span.stop] at *; omega⟩
    · exact Or.inr ⟨y, by rw [hlive]; simp [hy], rfl⟩
  · simp only [hlive', List.mem_append, List.mem_cons] at hy
    rcases hy with hy | rfl | hy
    · exact Or.inr ⟨y, by rw [hlive]; simp [hy], rfl⟩
    · exact Or.inl hstop
    · exact Or.inr ⟨y, by rw [hlive]; simp [hy], rfl⟩
  · rw [hlive'] at hy
    exact Or.inr ⟨y, hy, rfl⟩

/-- With an entry flush with the range in the table, either that entry and one that holds the whole
range are both there afterwards, or the range is lost. -/
theorem setInsert_flush (h : setInsert m base length type = .ok m') (hl : 0 < length)
    (hstop : base + length = stop) (hs : stop < 2 ^ 64) (hb : ∀ s ∈ m.live, s.stop < 2 ^ 64)
    (hp : ∀ s ∈ m.live, 0 < s.length) :
    (Within m'.live base stop ∧ ∀ x ∈ m.live, Flush base stop x → x ∈ m'.live) ∨
    ((∀ s ∈ m.live, s.base ≤ base) ∧ m'.live = m.live) := by
  have hkeep : ∀ {pre post : List PmmMapEntry} {p y : PmmMapEntry}, m.live = pre ++ p :: post →
      m'.live = pre ++ y :: post → p.stop = base ∨ p.base = stop →
      ∀ x ∈ m.live, Flush base stop x → x ∈ m'.live := by
    intro pre post p y hlive hlive' hend x hx hf
    have hpos := hp x hx
    simp only [hlive, hlive', List.mem_append, List.mem_cons] at hx ⊢
    rcases hx with hx | rfl | hx
    · exact Or.inl hx
    · simp only [Flush, Span.stop] at hf hend; omega
    · exact Or.inr (Or.inr hx)
  rcases setInsert_cases h hl hstop hs hb with ⟨pre, p, post, hlive, hend, hlive'⟩ |
    ⟨pre, q, post, hlive, hend, hlive'⟩ | ⟨pre, post, hlive, hlive'⟩ | ⟨hall, -, hlive'⟩
  · refine Or.inl ⟨⟨{ p with length := p.length + length }, by rw [hlive']; simp, ?_, ?_⟩,
      hkeep hlive hlive' (Or.inl hend)⟩
    · show p.base ≤ base
      simp only [Span.stop] at hend; omega
    · simp only [Span.stop] at hend ⊢; omega
  · refine Or.inl ⟨⟨⟨base, q.length + length, q.type⟩, by rw [hlive']; simp, le_rfl, ?_⟩,
      hkeep hlive hlive' (Or.inr hend)⟩
    simp only [Span.stop]; omega
  · refine Or.inl ⟨⟨⟨base, length, type⟩, by rw [hlive']; simp, le_rfl, hstop.ge⟩,
      fun x hx _ ↦ ?_⟩
    rw [hlive] at hx
    rw [hlive']
    rcases List.mem_append.mp hx with hx | hx <;> simp [hx]
  · exact Or.inr ⟨hall, hlive'⟩

/-- Behind the last entry, a dead slot that looks like a continuation takes the range in. -/
theorem setInsert_dead (h : setInsert m base length type = .ok m') (hl : 0 < length)
    (hstop : base + length = stop) (hs : stop < 2 ^ 64) (hb : ∀ s ∈ m.live, s.stop < 2 ^ 64)
    (hbase : ∀ s ∈ m.live, s.base ≤ base) (hd : DeadNext m stop type)
    (hprev : ∀ s ∈ m.live, ¬ (s.type = type ∧ s.stop = base)) : m'.live = m.live := by
  obtain ⟨-, hle, -, hgt⟩ := insertIndex_spec m base m.size 0
  have hi : insertIndex m base m.size 0 = m.size := by
    by_contra hne
    have hlt : insertIndex m base m.size 0 < m.size := by omega
    have := hbase _ (slots_mem_live m hlt)
    have := hgt (by omega)
    omega
  rw [setInsert, if_neg (by omega)] at h
  simp only [hi] at h
  rw [if_neg] at h
  · split at h
    · cases h
    · rw [if_pos ⟨hd.1, by rw [add64_eq (by omega), hstop]; exact hd.2⟩] at h
      obtain rfl := Except.ok.inj h
      refine live_ext (by simp) fun j hj ↦ ?_
      rw [live_length] at hj
      rw [set_slots_of_ne _ _ (by omega), live_getElem]
  · rintro ⟨hne, htype, hcont⟩
    have hmem := slots_mem_live m (i := m.size - 1) (by omega)
    rw [add64_eq (hb _ hmem)] at hcont
    exact hprev _ hmem ⟨htype, hcont⟩

end Insert

/-! ## The loop -/

section Loop

variable {type : PmmMapType} {m : PmmMap} {pre post : List PmmMapEntry} {x : PmmMapEntry}
  {base length stop : Nat}

/-- An entry flush with the range is passed over. -/
theorem setStep_flush {force : Bool} {c : SetCursor} (he : c.map.slots c.i = x)
    (hb : x.stop < 2 ^ 64) (hc : c.base + c.length < 2 ^ 64) (hpos : 0 < x.length)
    (hf : Flush c.base (c.base + c.length) x) : setStep type force c = .next c := by
  have h1 : add64 x.base x.length = x.base + x.length := add64_eq hb
  have h2 : add64 c.base c.length = c.base + c.length := add64_eq hc
  simp only [Flush, Span.stop] at hf
  have hs : ¬ (x.base < c.base ∧ c.base < x.base + x.length) := by omega
  have ht : ¬ (x.base < c.base + c.length ∧ c.base + c.length < x.base + x.length) := by omega
  simp only [setStep, he, h1, h2, hs, ht, decide_false, Bool.and_self, Bool.false_eq_true,
    if_false, coverStep]
  rw [if_neg (by omega), if_neg (by omega)]

/-- Replacing an entry by a part of it keeps the table tiled. -/
theorem tiled_replace {y : PmmMapEntry} (h : Tiled (pre ++ x :: post)) (hp : 0 < y.length)
    (h1 : x.base ≤ y.base) (h2 : y.stop ≤ x.stop) : Tiled (pre ++ y :: post) := by
  simp only [tiled_append, tiled_cons] at h ⊢
  obtain ⟨hpre, ⟨-, hx, hpost⟩, hsep⟩ := h
  refine ⟨hpre, ⟨hp, fun t ht ↦ h2.trans (hx t ht), hpost⟩, fun s hs t ht ↦ ?_⟩
  rcases List.mem_cons.mp ht with rfl | ht
  · exact (hsep s hs x (by simp)).trans h1
  · exact hsep s hs t (by simp [ht])

/-- What the loop leaves of the dead slots: the old ones are as they were, and one that an entry was
deleted from still holds an entry.  If there is one of those, the first of them does not look like
the end of the range, unless a live entry begins past it. -/
structure DeadSlots (m m' : PmmMap) (stop : Nat) : Prop where
  size_le : m'.size ≤ m.size
  same : ∀ j, m.size ≤ j → m'.slots j = m.slots j
  given : ∀ j, m'.size ≤ j → j < m.size → 0 < (m'.slots j).length
  fewer : m'.size < m.size →
    (m'.slots m'.size).base < stop ∨ ∃ s ∈ m'.live, stop ≤ s.base

theorem DeadSlots.of_set {m' : PmmMap} {i : Nat} {e : PmmMapEntry} (hi : i < m.size)
    (h : DeadSlots (m.set i e) m' stop) : DeadSlots m m' stop where
  size_le := h.size_le
  same j hj := by
    rw [h.same j hj, set_slots_of_ne m e (by omega)]
  given := h.given
  fewer := h.fewer

/-- **The loop of a forced call**, when no entry holds more than the range on both sides: it comes to
the insertion with every entry cut to what remains of it. -/
theorem setFrom_remains (type : PmmMapType) (hl : base + length = stop) (hbs : base < stop)
    (hs : stop < 2 ^ 64) (post : List PmmMapEntry) : ∀ (m : PmmMap) (pre : List PmmMapEntry)
    (fuel : Nat), m.live = pre ++ post → Tiled m.live → (∀ s ∈ m.live, s.stop < 2 ^ 64) →
    (∀ s ∈ post, ¬ (s.base < base ∧ stop < s.stop)) → post.length < fuel →
    ∃ m', setFrom fuel ⟨m, pre.length, base, length⟩ type true = setInsert m' base length type ∧
      m'.live = pre ++ post.flatMap (remains base stop) ∧ DeadSlots m m' stop := by
  induction post with
  | nil =>
    intro m pre fuel hlive _ _ _ hfuel
    have hsize : pre.length = m.size := by rw [← live_length, hlive]; simp
    obtain ⟨fuel, rfl⟩ : ∃ f, fuel = f + 1 := ⟨fuel - 1, by omega⟩
    refine ⟨m, ?_, by simpa using hlive, le_rfl, fun _ _ ↦ rfl, fun j h1 h2 ↦ by omega,
      fun h ↦ absurd h (lt_irrefl _)⟩
    rw [setFrom, if_neg (by simp only; omega)]
  | cons x post ih =>
    intro m pre fuel hlive ht hb hno hfuel
    obtain ⟨fuel, rfl⟩ : ∃ f, fuel = f + 1 := ⟨fuel - 1, by omega⟩
    rw [List.length_cons] at hfuel
    obtain ⟨hi, hx⟩ := slots_of_live hlive
    have hmem : x ∈ m.live := by rw [hlive]; simp
    have hxb := hb x hmem
    have hpos := ht.pos x hmem
    have hc : base + length < 2 ^ 64 := by omega
    have ho : overrides type true x.type = true := overrides_force _ _
    have hnext : add64 pre.length 1 = pre.length + 1 := add64_eq (succ_lt_word hi)
    have hno' : ∀ s ∈ post, ¬ (s.base < base ∧ stop < s.stop) := fun s hs ↦ hno s (by simp [hs])
    rw [List.flatMap_cons, ← List.append_assoc]
    -- the entry stays as it is
    have hstay : setStep type true ⟨m, pre.length, base, length⟩ =
        .next ⟨m, pre.length, base, length⟩ → remains base stop x = [x] →
        ∃ m', setFrom (fuel + 1) ⟨m, pre.length, base, length⟩ type true =
          setInsert m' base length type ∧
          m'.live = pre ++ remains base stop x ++ post.flatMap (remains base stop) ∧
          DeadSlots m m' stop := by
      intro hstep hrem
      rw [setFrom_next hi hstep, hrem, hnext]
      have := ih m (pre ++ [x]) fuel (by simp [hlive]) ht hb hno' (by omega)
      rwa [List.length_append, List.length_singleton] at this
    -- the entry is replaced by a part of it
    have hcut : ∀ y : PmmMapEntry, setStep type true ⟨m, pre.length, base, length⟩ =
        .next ⟨m.set pre.length y, pre.length, base, length⟩ → remains base stop x = [y] →
        ∃ m', setFrom (fuel + 1) ⟨m, pre.length, base, length⟩ type true =
          setInsert m' base length type ∧
          m'.live = pre ++ remains base stop x ++ post.flatMap (remains base stop) ∧
          DeadSlots m m' stop := by
      intro y hstep hrem
      obtain ⟨hy, h1, h2, -⟩ := mem_remains (y := y) hpos (by rw [hrem]; simp)
      have hset := live_set hlive y
      rw [hlive] at ht
      rw [setFrom_next hi hstep, hrem, hnext]
      obtain ⟨m', hm', hlive', hdead⟩ := ih (m.set pre.length y) (pre ++ [y]) fuel
        (by simp [hset]) (by rw [hset]; exact tiled_replace ht hy h1 h2) (by
          intro s hsm
          simp only [hset, List.mem_append, List.mem_cons] at hsm
          rcases hsm with hsm | rfl | hsm
          · exact hb s (by rw [hlive]; simp [hsm])
          · omega
          · exact hb s (by rw [hlive]; simp [hsm])) hno' (by omega)
      rw [List.length_append, List.length_singleton] at hm'
      exact ⟨m', hm', hlive', hdead.of_set hi⟩
    by_cases hclear : x.Clear base stop
    · exact hstay (setStep_clear hx hxb hc hpos (by simpa [hl] using hclear))
        (remains_of_clear hbs hpos hclear)
    by_cases hf : Flush base stop x
    · exact hstay (setStep_flush hx hxb hc hpos (by simpa [hl] using hf)) (remains_of_flush hf)
    simp only [Clear, not_or, not_le] at hclear
    have hrem : remains base stop x = beforeRange base x ++ afterRange stop x := if_neg hf
    have hout := hno x (by simp)
    by_cases h1 : x.base < base
    · -- it reaches into the range from below
      refine hcut { x with length := base - x.base }
        (setStep_start hx hxb hc h1 hclear.1 (by simp only [hl]; omega) ho) ?_
      rw [hrem, beforeRange, if_pos h1, afterRange, if_neg (by omega), min_eq_right (by omega),
        List.append_nil]
    by_cases h2 : stop < x.stop
    · -- it reaches out of the range above
      refine hcut ⟨stop, x.stop - stop, x.type⟩ ?_ ?_
      · have := setStep_end (c := ⟨m, pre.length, base, length⟩) hx hxb hc (by simp only; omega)
          (by simp only [hl]; omega) (by simpa [hl] using h2) ho
        simpa only [hl] using this
      · rw [hrem, beforeRange, if_neg h1, afterRange, if_pos h2, max_eq_right (by omega),
          List.nil_append]
    · -- it lies in the range
      have hstep := setStep_cover (c := ⟨m, pre.length, base, length⟩) hx hxb hc hpos
        (by simp only; omega) (by simp only [hl]; omega) (by simpa [hl] using hf) ho
      have hdel := live_mapDelete hlive
      rw [setFrom_next hi hstep, hrem, beforeRange, if_neg h1, afterRange, if_neg h2,
        List.append_nil, List.append_nil]
      simp only [add64_sub64_one (show pre.length < 2 ^ 64 by have := succ_lt_word hi; omega)]
      have hgiven := ht.pos _ (slots_mem_live m (i := m.size - 1) (by omega))
      rw [hlive] at ht
      obtain ⟨m', hm', hlive', hdead⟩ := ih (mapDelete m pre.length) pre fuel hdel (by
        rw [hdel]
        simp only [tiled_append, tiled_cons] at ht ⊢
        exact ⟨ht.1, ht.2.1.2.2, fun s hsm t htm ↦ ht.2.2 s hsm t (by simp [htm])⟩) (by
        intro s hsm
        rw [hdel] at hsm
        refine hb s ?_
        rw [hlive]
        rcases List.mem_append.mp hsm with hsm | hsm <;> simp [hsm]) hno' (by omega)
      refine ⟨m', hm', hlive', ?_⟩
      have hle := hdead.size_le
      rw [mapDelete_size] at hle
      have hsame : ∀ j, m.size - 1 ≤ j → m'.slots j = m.slots j := fun j hj ↦ by
        rw [hdead.same j (by rwa [mapDelete_size]), mapDelete_slots m hi hj]
      refine ⟨by omega, fun j hj ↦ hsame j (by omega), fun j h3 h4 ↦ ?_, fun _ ↦ ?_⟩
      · rcases Nat.lt_or_ge j (m.size - 1) with hlt | hge
        · exact hdead.given j h3 (by rwa [mapDelete_size])
        · rwa [hsame j hge, show j = m.size - 1 by omega]
      rcases Nat.lt_or_ge m'.size (m.size - 1) with hlt | hge
      · exact hdead.fewer (by rwa [mapDelete_size])
      -- nothing else was deleted: the first dead slot is the last of `x :: post`
      rw [hsame m'.size (by omega), show m'.size = m.size - 1 by omega]
      have hlast : m.slots (m.size - 1) ∈ x :: post := by
        have hlen : m.size = pre.length + (x :: post).length := by
          rw [← live_length, hlive, List.length_append]
        rw [List.length_cons] at hlen
        rw [← live_getElem m (by simp; omega)]
        simp only [hlive]
        rw [List.getElem_append_right (by omega)]
        exact List.getElem_mem _
      rcases List.mem_cons.mp hlast with heq | hlast
      · rw [heq]
        simp only [Span.stop] at h2
        exact Or.inl (by omega)
      · rcases Nat.lt_or_ge (m.slots (m.size - 1)).base stop with hlt | hge
        · exact Or.inl hlt
        · refine Or.inr ⟨m.slots (m.size - 1), ?_, hge⟩
          rw [hlive']
          refine List.mem_append_right _ (List.mem_flatMap.mpr ⟨_, hlast, ?_⟩)
          rw [remains_of_clear hbs (ht.pos _ (by simp [hlast])) (Or.inr hge)]
          simp

/-- The table with only the part of `x` before the range, as a split of `x` leaves it at first. -/
def leftOf (m : PmmMap) (i base : Nat) (x : PmmMapEntry) : PmmMap :=
  m.set i { x with length := base - x.base }

/-- The part of an entry before a range strictly inside it, and the entries around it. -/
theorem leftOf_spec (hlive : m.live = pre ++ x :: post) (ht : Tiled m.live)
    (hb : ∀ s ∈ m.live, s.stop < 2 ^ 64) (h1 : x.base < base) (h2 : stop < x.stop)
    (hbs : base < stop) :
    Tiled (leftOf m pre.length base x).live ∧
    (∀ s ∈ (leftOf m pre.length base x).live, s.stop < 2 ^ 64) ∧
    ∀ s ∈ (leftOf m pre.length base x).live, s.stop ≤ base ∨ x.stop ≤ s.base := by
  rw [leftOf, live_set hlive]
  rw [hlive] at ht hb
  refine ⟨tiled_replace ht (by simp only; omega) le_rfl (by simp only [Span.stop] at *; omega),
    fun s hs ↦ ?_, fun s hs ↦ ?_⟩
  · simp only [List.mem_append, List.mem_cons] at hs
    rcases hs with hs | rfl | hs
    · exact hb s (by simp [hs])
    · have := hb x (by simp)
      simp only [Span.stop] at *; omega
    · exact hb s (by simp [hs])
  · simp only [tiled_append, tiled_cons] at ht
    simp only [List.mem_append, List.mem_cons] at hs
    rcases hs with hs | rfl | hs
    · have := ht.2.2 s hs x (by simp)
      exact Or.inl (by omega)
    · exact Or.inl (by simp only [Span.stop]; omega)
    · exact Or.inr (ht.2.1.2.1 s hs)

/-- Putting the end of a split entry back either inserts it or loses it to a dead slot. -/
theorem insert_end (hlive : m.live = pre ++ x :: post) (ht : Tiled m.live)
    (hb : ∀ s ∈ m.live, s.stop < 2 ^ 64) (h1 : x.base < base) (h2 : stop < x.stop)
    (hbs : base < stop) {m₂ : PmmMap}
    (hm₂ : setInsert (leftOf m pre.length base x) stop (x.stop - stop) x.type = .ok m₂) :
    Inserted (leftOf m pre.length base x) m₂ ⟨stop, x.stop - stop, x.type⟩ ∨
    ((∀ s ∈ (leftOf m pre.length base x).live, s.base ≤ stop) ∧
      DeadNext (leftOf m pre.length base x) x.stop x.type ∧
      m₂.live = (leftOf m pre.length base x).live) := by
  obtain ⟨ht₁, hb₁, hsep⟩ := leftOf_spec hlive ht hb h1 h2 hbs
  have hxb := hb x (by rw [hlive]; simp)
  have hstop : stop + (x.stop - stop) = x.stop := by omega
  generalize leftOf m pre.length base x = m₁ at *
  by_cases hd : (∀ s ∈ m₁.live, s.base ≤ stop) ∧ DeadNext m₁ x.stop x.type
  · refine Or.inr ⟨hd.1, hd.2, setInsert_dead hm₂ (by omega) hstop hxb hb₁ hd.1 hd.2 ?_⟩
    rintro s hs ⟨-, hc⟩
    rcases hsep s hs with hsep | hsep <;> simp only [Span.stop] at * <;> omega
  · have hc : ∀ s ∈ m₁.live, s.Clear stop (stop + (x.stop - stop)) := by
      intro s hs
      rw [hstop]
      exact (hsep s hs).imp (fun h ↦ by omega) fun h ↦ h
    rcases setInsert_spec x.type ht₁ hb₁ hc (by omega) (by omega)
      (fun hlow _ hn ↦ hd ⟨hlow, by rwa [hstop] at hn⟩) with ⟨k, hk, hins⟩ | ⟨-, herr⟩
    · rw [hm₂] at hk
      obtain rfl := Except.ok.inj hk
      exact Or.inl hins
    · rcases herr with herr | ⟨herr, -⟩ <;> rw [hm₂] at herr <;> cases herr

/-- Either way, what is in the table now is clear of the range. -/
theorem clear_of_insert_end (hlive : m.live = pre ++ x :: post) (ht : Tiled m.live)
    (hb : ∀ s ∈ m.live, s.stop < 2 ^ 64) (h1 : x.base < base) (h2 : stop < x.stop)
    (hbs : base < stop) {m₂ : PmmMap}
    (hm₂ : setInsert (leftOf m pre.length base x) stop (x.stop - stop) x.type = .ok m₂) :
    Tiled m₂.live ∧ (∀ s ∈ m₂.live, s.stop < 2 ^ 64) ∧ pre.length + 1 ≤ m₂.size ∧
      ∀ s ∈ m₂.live, s.Clear base stop := by
  obtain ⟨ht₁, hb₁, hsep⟩ := leftOf_spec hlive ht hb h1 h2 hbs
  have hi := (slots_of_live hlive).1
  have hxb := hb x (by rw [hlive]; simp)
  have hsize : (leftOf m pre.length base x).size = m.size := rfl
  rcases insert_end hlive ht hb h1 h2 hbs hm₂ with hins | ⟨-, -, hsame⟩
  · have ht₂ := tiled_of_inserted hins (show 0 < x.stop - stop by omega) ht₁
    refine ⟨ht₂, bound_of_inserted hins (show stop + (x.stop - stop) < 2 ^ 64 by omega) hb₁, ?_, ?_⟩
    · obtain ⟨-, -, -, -, -, -, hj⟩ := hins
      have := (hj m₂.size le_rfl).1
      omega
    · refine ht₂.clear_of_typeAt hbs fun a h3 h4 ↦ ?_
      rw [typeAt_of_inserted hins, overwrite_of_not_mem (by simp only; omega), typeAt_eq_none]
      intro s hs hsa
      have := hsa.base_le; have := hsa.lt_stop
      rcases hsep s hs with hsep | hsep <;> omega
  · refine ⟨by rwa [hsame], by rwa [hsame], ?_, fun s hs ↦ ?_⟩
    · have := congrArg List.length hsame
      rw [live_length, live_length] at this
      omega
    · rw [hsame] at hs
      exact (hsep s hs).imp (fun h ↦ h) fun h ↦ by omega

/-- A forced call for a range strictly inside an entry inserts the end of the entry, and then the
range. -/
theorem pmmMapSet_inside (type : PmmMapType) (hlive : m.live = pre ++ x :: post)
    (ht : Tiled m.live) (hb : ∀ s ∈ m.live, s.stop < 2 ^ 64) (hl : base + length = stop)
    (hbs : base < stop) (h1 : x.base < base) (h2 : stop < x.stop) :
    pmmMapSet m base length type true =
      (setInsert (leftOf m pre.length base x) stop (x.stop - stop) x.type).bind
        fun m' ↦ setInsert m' base length type := by
  obtain ⟨hi, hx⟩ := slots_of_live hlive
  have hxb := hb x (by rw [hlive]; simp)
  have hle := m.size_le
  obtain ⟨ht₁, hb₁, hsep⟩ := leftOf_spec hlive ht hb h1 h2 hbs
  have hclear : ∀ j, 0 ≤ j → j < 0 + pre.length → (m.slots j).Clear base (base + length) := by
    intro j _ hj
    have hmem : m.slots j ∈ pre := by
      rw [← live_getElem m (by simp; omega)]
      simp only [hlive]
      rw [List.getElem_append_left (by omega)]
      exact List.getElem_mem _
    rw [hlive, tiled_append] at ht
    have := ht.2.2 _ hmem x (by simp)
    exact Or.inl (by omega)
  have hskip := setFrom_skip base length type true ht hb (by omega) pre.length 0
    (setFuel - pre.length - 1 + 1) (by omega) hclear
  have hfuel : setFuel - pre.length - 1 + 1 + pre.length = setFuel := by
    unfold setFuel pmmMapMaxEntries at *; omega
  rw [hfuel, Nat.zero_add] at hskip
  rw [pmmMapSet, hskip, setFrom, if_pos hi, setStep_inside hx hxb
    (show base + length < 2 ^ 64 by omega) h1 (by simpa [hl] using h2) (overrides_force _ _)]
  simp only [hl, add64_eq (succ_lt_word hi)]
  have hsz : (leftOf m pre.length base x).size = m.size := rfl
  rw [show m.set pre.length { x with length := base - x.base } = leftOf m pre.length base x from rfl]
  rw [setFrom_clear ht₁ hb₁ (by omega) (Nat.zero_le _)
    (by unfold setFuel pmmMapMaxEntries at *; omega) fun j _ hj ↦ ?_]
  · cases hm₂ : setInsert (leftOf m pre.length base x) stop (x.stop - stop) x.type with
    | error e => rfl
    | ok m₂ =>
      obtain ⟨ht₂, hb₂, hle₂, hc₂⟩ := clear_of_insert_end hlive ht hb h1 h2 hbs hm₂
      have hsz₂ := m₂.size_le
      refine setFrom_clear ht₂ hb₂ (by omega) hle₂
        (by unfold setFuel pmmMapMaxEntries at *; omega) fun j _ hj ↦ ?_
      rw [hl]
      exact hc₂ _ (slots_mem_live m₂ hj)
  · have := hsep _ (slots_mem_live _ hj)
    simp only [Clear]; omega

end Loop

/-! ## When a dead slot swallows the range -/

/-- The range, or the end of the entry it is put into, would go in behind the last entry, and is
taken for the beginning of what the first dead slot still holds. -/
def Swallowed (m : PmmMap) (base stop : Nat) (type : PmmMapType) : Prop :=
  (∃ x ∈ m.live, x.base < base ∧ stop < x.stop ∧ (∀ s ∈ m.live, s.base ≤ x.base) ∧
    DeadNext m x.stop x.type) ∨
  (∀ s ∈ m.live, s.base < base ∧ s.stop ≤ stop ∧ ¬ (base ≤ s.stop ∧ s.type = type)) ∧
    DeadNext m stop type

instance (m : PmmMap) (base stop : Nat) (type : PmmMapType) :
    Decidable (Swallowed m base stop type) :=
  inferInstanceAs (Decidable (_ ∨ _))

/-- What a forced call is for: exactly the addresses of the range get the type. -/
structure ForceSpec (m m' : PmmMap) (base stop : Nat) (type : PmmMapType) : Prop where
  tiled : Tiled m'.live
  typeAt_eq : ∀ a, typeAt m'.live a =
    if base ≤ a ∧ a < stop then some type else typeAt m.live a

section Force

variable {type : PmmMapType} {m m₁ m' : PmmMap} {x : PmmMapEntry} {base length stop : Nat}

/-- An insertion that returns, into a table with the range cut out of it. -/
theorem inserted_of_insert (ht : Tiled m₁.live) (hb : ∀ s ∈ m₁.live, s.stop < 2 ^ 64)
    (hl : base + length = stop) (hbs : base < stop) (hs : stop < 2 ^ 64)
    (hc : ∀ s ∈ m₁.live, s.Clear base stop)
    (hd : (∀ s ∈ m₁.live, s.base ≤ base) →
      (∀ s ∈ m₁.live, ¬ (s.type = type ∧ s.stop = base)) → ¬ DeadNext m₁ stop type)
    (h : setInsert m₁ base length type = .ok m') : Inserted m₁ m' ⟨base, length, type⟩ := by
  subst hl
  rcases setInsert_spec type ht hb hc (by omega) hs hd with ⟨k, hk, hins⟩ | ⟨-, herr⟩
  · rw [h] at hk
    obtain rfl := Except.ok.inj hk
    exact hins
  · rcases herr with herr | ⟨herr, -⟩ <;> rw [h] at herr <;> cases herr

theorem pmmMapSet_remains (type : PmmMapType) (ht : Tiled m.live)
    (hb : ∀ s ∈ m.live, s.stop < 2 ^ 64) (hl : base + length = stop) (hbs : base < stop)
    (hs : stop < 2 ^ 64) (hno : ∀ s ∈ m.live, ¬ (s.base < base ∧ stop < s.stop)) :
    ∃ m₁, pmmMapSet m base length type true = setInsert m₁ base length type ∧
      m₁.live = m.live.flatMap (remains base stop) ∧ DeadSlots m m₁ stop := by
  have hsz := size_lt_fuel m
  exact setFrom_remains type hl hbs hs m.live m [] setFuel rfl ht hb hno
    (by rw [live_length]; unfold setFuel; omega)

theorem bound_of_remains (ht : Tiled m.live) (hb : ∀ s ∈ m.live, s.stop < 2 ^ 64)
    (hm : m₁.live = m.live.flatMap (remains base stop)) : ∀ s ∈ m₁.live, s.stop < 2 ^ 64 := by
  intro s hs
  rw [hm] at hs
  obtain ⟨x, hx, hsx⟩ := List.mem_flatMap.mp hs
  have := (mem_remains (ht.pos x hx) hsx).2.2.1
  have := hb x hx
  omega

/-- An entry that is not split leaves one piece, or none if it lies in the range. -/
theorem length_remains (hx : ¬ (x.base < base ∧ stop < x.stop)) :
    (remains base stop x).length ≤ 1 := by
  rw [remains, beforeRange, afterRange]
  split_ifs <;> simp
  omega

/-- If an entry went, there are fewer of them. -/
theorem length_flatMap_remains {l : List PmmMapEntry}
    (hl : ∀ x ∈ l, ¬ (x.base < base ∧ stop < x.stop)) :
    (l.flatMap (remains base stop)).length ≤ l.length ∧
      ((∃ x ∈ l, remains base stop x = []) →
        (l.flatMap (remains base stop)).length < l.length) := by
  induction l with
  | nil => simp
  | cons x l ih =>
    obtain ⟨hle, hlt⟩ := ih fun y hy ↦ hl y (by simp [hy])
    have hx := length_remains (hl x (by simp))
    rw [List.flatMap_cons, List.length_append, List.length_cons]
    refine ⟨by omega, ?_⟩
    rintro ⟨y, hy, hnil⟩
    rcases List.mem_cons.mp hy with rfl | hy
    · rw [hnil, List.length_nil]; omega
    · have := hlt ⟨y, hy, hnil⟩
      omega

/-- If the first dead slot looks like a continuation when the loop is over, the range is
swallowed. -/
theorem swallowed_of_remains (hbs : base < stop)
    (hno : ∀ s ∈ m.live, ¬ (s.base < base ∧ stop < s.stop))
    (hf : ∀ s ∈ m.live, ¬ Flush base stop s)
    (hm : m₁.live = m.live.flatMap (remains base stop)) (hdead : DeadSlots m m₁ stop)
    (hbase : ∀ s ∈ m₁.live, s.base ≤ base)
    (hprev : ∀ s ∈ m₁.live, ¬ (s.type = type ∧ s.stop = base)) (hd : DeadNext m₁ stop type) :
    Swallowed m base stop type := by
  have hsize : m₁.size = m.size := by
    refine le_antisymm hdead.size_le ?_
    by_contra hlt
    rcases hdead.fewer (by omega) with h | ⟨s, hs, h⟩
    · have := hd.2
      omega
    · have := hbase s hs
      omega
  have hmem : ∀ s ∈ m.live, ∀ y ∈ remains base stop s, y ∈ m₁.live := by
    intro s hs y hy
    rw [hm]
    exact List.mem_flatMap.mpr ⟨s, hs, hy⟩
  have hrem : ∀ s ∈ m.live,
      remains base stop s = beforeRange base s ++ afterRange stop s := fun s hs ↦ if_neg (hf s hs)
  have hle : ∀ s ∈ m.live, s.stop ≤ stop := by
    intro s hs
    by_contra hlt
    have := hbase _ (hmem s hs ⟨max s.base stop, s.stop - max s.base stop, s.type⟩ (by
      rw [hrem s hs, afterRange, if_pos (by omega)]; simp))
    simp only at this; omega
  have hlow : ∀ s ∈ m.live, s.base < base := by
    intro s hs
    by_contra hge
    have hnil : remains base stop s = [] := by
      rw [hrem s hs, beforeRange, if_neg hge, afterRange, if_neg (by have := hle s hs; omega)]
      rfl
    have hlt := (length_flatMap_remains hno).2 ⟨s, hs, hnil⟩
    rw [← hm, live_length, live_length] at hlt
    omega
  refine Or.inr ⟨fun s hs ↦ ⟨hlow s hs, hle s hs, ?_⟩, ?_⟩
  · rintro ⟨h1, h2⟩
    have hlow := hlow s hs
    refine hprev _ (hmem s hs { s with length := min s.stop base - s.base } (by
      rw [hrem s hs, beforeRange, if_pos hlow]; simp)) ⟨h2, ?_⟩
    simp only [Span.stop] at h1 ⊢; omega
  · rw [DeadNext, ← hdead.same m.size le_rfl, ← hsize]
    exact hd

/-- The end of a split entry goes back in, if no dead slot swallows it. -/
theorem insert_end_of_not_swallowed {pre post : List PmmMapEntry}
    (hlive : m.live = pre ++ x :: post) (ht : Tiled m.live) (hb : ∀ s ∈ m.live, s.stop < 2 ^ 64)
    (h1 : x.base < base) (h2 : stop < x.stop) (hbs : base < stop)
    (hsw : ¬ Swallowed m base stop type) {m₂ : PmmMap}
    (hm₂ : setInsert (leftOf m pre.length base x) stop (x.stop - stop) x.type = .ok m₂) :
    Inserted (leftOf m pre.length base x) m₂ ⟨stop, x.stop - stop, x.type⟩ := by
  obtain ⟨hi, -⟩ := slots_of_live hlive
  refine (insert_end hlive ht hb h1 h2 hbs hm₂).resolve_right fun ⟨hlow, hd, _⟩ ↦
    hsw (Or.inl ⟨x, by rw [hlive]; simp, h1, h2, fun s hsm ↦ ?_, ?_⟩)
  · rw [leftOf, live_set hlive] at hlow
    simp only [hlive, List.mem_append, List.mem_cons] at hsm
    rw [hlive] at ht
    rcases hsm with hsm | rfl | hsm
    · have := (tiled_append.mp ht).2.2 s hsm x (by simp)
      simp only [Span.stop] at this; omega
    · exact le_rfl
    · have h3 := hlow s (by simp [hsm])
      have h4 := (tiled_cons.mp (tiled_append.mp ht).2.1).2.1 s hsm
      omega
  · rw [DeadNext, leftOf, set_size, set_slots_of_ne m _ (by omega)] at hd
    exact hd

/-- The call inserts the range into a table from which it was cut out, if no entry is flush with it
and no dead slot swallows it. -/
theorem force_inserted (ht : Tiled m.live) (hb : ∀ s ∈ m.live, s.stop < 2 ^ 64)
    (hl : base + length = stop) (hbs : base < stop) (hs : stop < 2 ^ 64)
    (hf : ∀ s ∈ m.live, ¬ Flush base stop s) (hsw : ¬ Swallowed m base stop type)
    (h : pmmMapSet m base length type true = .ok m') :
    ∃ m₁, Tiled m₁.live ∧ Inserted m₁ m' ⟨base, length, type⟩ ∧
      ∀ a, typeAt m₁.live a = if base ≤ a ∧ a < stop then none else typeAt m.live a := by
  by_cases hno : ∀ s ∈ m.live, ¬ (s.base < base ∧ stop < s.stop)
  · obtain ⟨m₁, hm₁, hlive, hdead⟩ := pmmMapSet_remains type ht hb hl hbs hs hno
    rw [hm₁] at h
    have ht₁ : Tiled m₁.live := by rw [hlive]; exact tiled_remains hbs.le ht
    have hc₁ : ∀ s ∈ m₁.live, s.Clear base stop := by
      intro s hsm
      rw [hlive] at hsm
      obtain ⟨x, hx, hsx⟩ := List.mem_flatMap.mp hsm
      rcases (mem_remains (ht.pos x hx) hsx).2.2.2.2 with ⟨hc, -⟩ | ⟨-, hc⟩
      · exact absurd hc (hf x hx)
      · exact hc
    refine ⟨m₁, ht₁, inserted_of_insert ht₁ (bound_of_remains ht hb hlive) hl hbs hs hc₁
      (fun h1 h2 h3 ↦ hsw (swallowed_of_remains hbs hno hf hlive hdead h1 h2 h3)) h, fun a ↦ ?_⟩
    split
    · rename_i ha
      exact typeAt_eq_none_of_clear hc₁ ha.1 ha.2
    · rename_i ha
      rw [hlive, typeAt_remains ha]
  · -- one entry holds more than the range on both sides
    push Not at hno
    obtain ⟨x, hx, h1, h2⟩ := hno
    obtain ⟨pre, post, hlive⟩ := List.append_of_mem hx
    obtain ⟨hi, hslot⟩ := slots_of_live hlive
    have hxb := hb x hx
    obtain ⟨ht₁, hb₁, hsep⟩ := leftOf_spec hlive ht hb h1 h2 hbs
    have hlive₁ : (leftOf m pre.length base x).live =
        pre ++ { x with length := base - x.base } :: post := live_set hlive _
    rw [pmmMapSet_inside type hlive ht hb hl hbs h1 h2] at h
    obtain ⟨m₂, hm₂, h⟩ := bind_eq_ok h
    obtain ⟨ht₂, hb₂, hle₂, hc₂⟩ := clear_of_insert_end hlive ht hb h1 h2 hbs hm₂
    have hins := insert_end_of_not_swallowed hlive ht hb h1 h2 hbs hsw hm₂
    refine ⟨m₂, ht₂, inserted_of_insert ht₂ hb₂ hl hbs hs hc₂ (fun hlow ↦ ?_) h, fun a ↦ ?_⟩
    · -- the end of the entry begins past the range
      obtain ⟨y, hy, hy1, hy2⟩ := within_of_inserted hins
      have h3 := hlow y hy
      simp only [Span.stop_mk] at hy1 hy2
      rcases hc₂ y hy with hc | hc <;> omega
    split
    · rename_i ha
      exact typeAt_eq_none_of_clear hc₂ ha.1 ha.2
    · rename_i ha
      rw [typeAt_of_inserted hins, overwrite]
      simp only [Span.stop_mk, show stop + (x.stop - stop) = x.stop by omega]
      by_cases hxa : x.Contains a
      · rw [ht.typeAt_of_within hx hxa]
        simp only [Contains] at hxa
        by_cases hstop : stop ≤ a
        · rw [if_pos ⟨hstop, hxa.2⟩]
        · rw [if_neg (by omega)]
          refine ht₁.typeAt_of_within (s := { x with length := base - x.base })
            (by rw [hlive₁]; simp) ?_
          simp only [Contains, Span.stop]; omega
      · rw [if_neg (by simp only [Contains] at hxa; omega), hlive₁, hlive, typeAt_append,
          typeAt_append, typeAt_cons, typeAt_cons, if_neg hxa, if_neg]
        simp only [Contains, Span.stop] at hxa h2 ⊢; omega

/-- Such a call makes the update. -/
theorem force_of_not (ht : Tiled m.live) (hb : ∀ s ∈ m.live, s.stop < 2 ^ 64)
    (hl : base + length = stop) (hbs : base < stop) (hs : stop < 2 ^ 64)
    (hf : ∀ s ∈ m.live, ¬ Flush base stop s) (hsw : ¬ Swallowed m base stop type)
    (h : pmmMapSet m base length type true = .ok m') : ForceSpec m m' base stop type := by
  obtain ⟨m₁, ht₁, hins, hout⟩ := force_inserted ht hb hl hbs hs hf hsw h
  refine ⟨tiled_of_inserted hins (show 0 < length by omega) ht₁, fun a ↦ ?_⟩
  rw [typeAt_of_inserted hins, overwrite, hout]
  simp only [Span.stop_mk, hl]
  split
  · rfl
  · rfl

/-- The dead slots of a well-formed table swallow nothing. -/
theorem PmmMap.Wf.not_swallowed (h : m.Wf) (hbs : base < stop) : ¬ Swallowed m base stop type := by
  have hdead : ∀ {t u}, DeadNext m t u → 0 < t → ∃ s ∈ m.live, s.Contains t := by
    intro t u hd ht
    have hbase := hd.2
    rcases h.stale m.size le_rfl with hz | ⟨hpos, hin⟩
    · rw [hz] at hbase
      simp only [PmmMapEntry.zero] at hbase; omega
    · exact typeAt_isSome.mp (hin t ⟨hbase.le, by simp only [Span.stop]; omega⟩)
  rintro (⟨x, hx, h1, h2, hlast, hd⟩ | ⟨hlow, hd⟩)
  · obtain ⟨s, hs, hsa⟩ := hdead hd (by omega)
    have hsb := hlast s hs
    have := hsa.lt_stop
    obtain rfl := h.tiled.unique hs hx (a := x.base) ⟨hsb, by omega⟩ ⟨le_rfl, by omega⟩
    omega
  · obtain ⟨s, hs, hsa⟩ := hdead hd (by omega)
    have := (hlow s hs).2.1
    have := hsa.lt_stop
    omega

/-- An entry flush with the range is still there afterwards, and so is the range, or it is lost. -/
theorem not_force_of_flush (ht : Tiled m.live) (hb : ∀ s ∈ m.live, s.stop < 2 ^ 64)
    (hl : base + length = stop) (hbs : base < stop) (hs : stop < 2 ^ 64) (hx : x ∈ m.live)
    (hf : Flush base stop x) (h : pmmMapSet m base length type true = .ok m') :
    ¬ ForceSpec m m' base stop type := by
  intro hspec
  have hpos := ht.pos x hx
  have hno : ∀ s ∈ m.live, ¬ (s.base < base ∧ stop < s.stop) := by
    rintro s hsm ⟨h1, h2⟩
    have hsx : s.Contains x.base ∧ x.Contains x.base := by
      simp only [Contains, Flush, Span.stop] at *; omega
    obtain rfl := ht.unique hsm hx hsx.1 hsx.2
    simp only [Flush] at hf; omega
  obtain ⟨m₁, hm₁, hlive, -⟩ := pmmMapSet_remains type ht hb hl hbs hs hno
  rw [hm₁] at h
  have hx₁ : x ∈ m₁.live := by
    rw [hlive]
    exact List.mem_flatMap.mpr ⟨x, hx, by rw [remains_of_flush hf]; simp⟩
  rcases setInsert_flush h (by omega) hl hs (bound_of_remains ht hb hlive)
    (by rw [hlive]; exact (tiled_remains hbs.le ht).pos) with ⟨⟨y, hy, h1, h2⟩, hkeep⟩ | ⟨hlow, hsame⟩
  · -- `x` and an entry that holds the range overlap
    have hxy : y.Contains x.base ∧ x.Contains x.base := by
      simp only [Contains, Flush, Span.stop] at *; omega
    obtain rfl := hspec.tiled.unique hy (hkeep x hx₁ hf) hxy.1 hxy.2
    simp only [Flush] at hf; omega
  · -- no entry holds the last address of the range
    have hend := hspec.typeAt_eq (stop - 1)
    have hnone : typeAt m₁.live (stop - 1) = none := by
      refine typeAt_eq_none.mpr fun s hsm hsa ↦ ?_
      have hsb := hlow s hsm
      rw [hlive] at hsm
      obtain ⟨y, hy, hsy⟩ := List.mem_flatMap.mp hsm
      have := hsa.base_le; have := hsa.lt_stop
      rcases (mem_remains (ht.pos y hy) hsy).2.2.2.2 with ⟨hfy, rfl⟩ | ⟨-, hc⟩
      · simp only [Flush] at hfy; omega
      · rcases hc with hc | hc <;> omega
    rw [if_pos (by omega), hsame, hnone] at hend
    cases hend

/-- What is swallowed is lost. -/
theorem not_force_of_swallowed (ht : Tiled m.live) (hb : ∀ s ∈ m.live, s.stop < 2 ^ 64)
    (hl : base + length = stop) (hbs : base < stop) (hs : stop < 2 ^ 64)
    (hf : ∀ s ∈ m.live, ¬ Flush base stop s) (hsw : Swallowed m base stop type)
    (h : pmmMapSet m base length type true = .ok m') : ¬ ForceSpec m m' base stop type := by
  intro hspec
  rcases hsw with ⟨x, hx, h1, h2, hlast, hd⟩ | ⟨hlow, hd⟩
  · -- no entry holds the last address of the entry that was split
    obtain ⟨pre, post, hlive⟩ := List.append_of_mem hx
    obtain ⟨hi, hslot⟩ := slots_of_live hlive
    have hxb := hb x hx
    have hpost : post = [] := by
      refine List.eq_nil_iff_forall_not_mem.mpr fun s hsm ↦ ?_
      have h3 := hlast s (by rw [hlive]; simp [hsm])
      have h4 := ht.pos x hx
      rw [hlive] at ht
      have h5 := (tiled_cons.mp (tiled_append.mp ht).2.1).2.1 s hsm
      simp only [Span.stop] at h5; omega
    have hlow₁ : ∀ s ∈ (leftOf m pre.length base x).live, s.stop ≤ base := by
      intro s hsm
      rw [leftOf, live_set hlive, hpost] at hsm
      rcases List.mem_append.mp hsm with hsm | hsm
      · rw [hlive] at ht
        have := (tiled_append.mp ht).2.2 s hsm x (by simp)
        omega
      · rw [List.mem_singleton.mp hsm]
        simp only [Span.stop]; omega
    have hd₁ : DeadNext (leftOf m pre.length base x) x.stop x.type := by
      rw [DeadNext, leftOf, set_size, set_slots_of_ne m _ (by omega)]
      exact hd
    rw [pmmMapSet_inside type hlive ht hb hl hbs h1 h2] at h
    obtain ⟨m₂, hm₂, h⟩ := bind_eq_ok h
    have hlive₂ : m₂.live = (leftOf m pre.length base x).live := by
      refine setInsert_dead hm₂ (by omega) (by omega) hxb
        (leftOf_spec hlive ht hb h1 h2 hbs).2.1 (fun s hsm ↦ ?_) hd₁ fun s hsm hc ↦ ?_
      · have := hlow₁ s hsm
        simp only [Span.stop] at this; omega
      · have := hlow₁ s hsm
        omega
    have hstop := setInsert_stop h (by omega) hl hs
      (by rw [hlive₂]; exact (leftOf_spec hlive ht hb h1 h2 hbs).2.1)
    have hend := hspec.typeAt_eq (x.stop - 1)
    rw [if_neg (by omega), ht.typeAt_of_within hx (by simp only [Contains, Span.stop] at *; omega)]
      at hend
    refine absurd hend ?_
    rw [typeAt_eq_none.mpr]
    · simp
    · intro s hsm hsa
      have := hsa.lt_stop
      rcases hstop s hsm with h3 | ⟨y, hy, h3⟩
      · omega
      · rw [hlive₂] at hy
        have := hlow₁ y hy
        omega
  · -- no entry holds the first address of the range
    have hno : ∀ s ∈ m.live, ¬ (s.base < base ∧ stop < s.stop) := by
      rintro s hsm ⟨-, h2⟩
      have := (hlow s hsm).2.1
      omega
    obtain ⟨m₁, hm₁, hlive, hdead⟩ := pmmMapSet_remains type ht hb hl hbs hs hno
    rw [hm₁] at h
    have hmap : m₁.live = m.live.map fun s ↦ { s with length := min s.stop base - s.base } := by
      rw [hlive, List.map_eq_flatMap]
      refine List.flatMap_congr fun s hsm ↦ ?_
      obtain ⟨h1, h2, -⟩ := hlow s hsm
      rw [remains, if_neg (hf s hsm), beforeRange, if_pos h1, afterRange, if_neg (by omega),
        List.append_nil]
    have hpiece : ∀ y ∈ m₁.live, y.base ≤ base ∧ y.stop ≤ base ∧
        ¬ (y.type = type ∧ y.stop = base) := by
      intro y hy
      rw [hmap] at hy
      obtain ⟨s, hsm, rfl⟩ := List.mem_map.mp hy
      obtain ⟨h1, h2, h3⟩ := hlow s hsm
      refine ⟨h1.le, by simp only [Span.stop]; omega, fun hc ↦ h3 ⟨?_, hc.1⟩⟩
      have := hc.2
      simp only [Span.stop] at this ⊢; omega
    have hsize : m₁.size = m.size := by
      rw [← live_length, hmap, List.length_map, live_length]
    have hd₁ : DeadNext m₁ stop type := by
      rw [DeadNext, hsize, hdead.same m.size le_rfl]
      exact hd
    have hsame := setInsert_dead h (by omega) hl hs (bound_of_remains ht hb hlive)
      (fun y hy ↦ (hpiece y hy).1) hd₁ fun y hy ↦ (hpiece y hy).2.2
    have hfirst := hspec.typeAt_eq base
    rw [if_pos (by omega), hsame, typeAt_eq_none.mpr fun y hy hya ↦ by
      have := (hpiece y hy).2.1
      have := hya.lt_stop
      omega] at hfirst
    cases hfirst

end Force

/-! ## Reachable tables -/

/-- The tables that calls of `pmm_map_set` make, from the empty one on.  Nothing is asked of a call
but that its range ends below `2 ^ 64`; the live entries can overlap after one. -/
inductive Reachable : PmmMap → Prop
  | empty : Reachable .empty
  | set {m m' : PmmMap} {base length : Nat} {type : PmmMapType} {force : Bool}
      (hm : Reachable m) (hs : base + length < 2 ^ 64)
      (h : pmmMapSet m base length type force = .ok m') : Reachable m'

/-- Every live entry is a non-empty range that ends below `2 ^ 64`. -/
def Bounded (m : PmmMap) : Prop := ∀ s ∈ m.live, 0 < s.length ∧ s.stop < 2 ^ 64

section Bounded

variable {m m' : PmmMap}

theorem Bounded.set (h : Bounded m) {i : Nat} (hi : i < m.size) {e : PmmMapEntry}
    (hp : 0 < e.length) (hs : e.stop < 2 ^ 64) : Bounded (m.set i e) := by
  have hlen : (m.live.take i).length = i := by simp; omega
  have hset := live_set (live_split m hi) e
  rw [hlen] at hset
  intro s hsm
  simp only [hset, List.mem_append, List.mem_cons] at hsm
  rcases hsm with hsm | rfl | hsm
  · exact h s (List.mem_of_mem_take hsm)
  · exact ⟨hp, hs⟩
  · exact h s (List.mem_of_mem_drop hsm)

theorem Bounded.mapDelete (h : Bounded m) {i : Nat} (hi : i < m.size) :
    Bounded (mapDelete m i) := by
  have hlen : (m.live.take i).length = i := by simp; omega
  have hdel := live_mapDelete (live_split m hi)
  rw [hlen] at hdel
  intro s hsm
  rw [hdel] at hsm
  rcases List.mem_append.mp hsm with hsm | hsm
  · exact h s (List.mem_of_mem_take hsm)
  · exact h s (List.mem_of_mem_drop hsm)

theorem Bounded.setInsert {base length : Nat} {type : PmmMapType} (h : Bounded m)
    (hs : base + length < 2 ^ 64) (hm' : setInsert m base length type = .ok m') : Bounded m' := by
  rcases Nat.eq_zero_or_pos length with rfl | hl
  · rw [LunarPrekernel.setInsert, if_pos rfl] at hm'
    obtain rfl := Except.ok.inj hm'
    exact h
  · intro y hy
    refine ⟨?_, ?_⟩
    · rcases setInsert_cases hm' hl rfl hs fun s hsm ↦ (h s hsm).2 with
        ⟨pre, p, post, hlive, -, hlive'⟩ | ⟨pre, p, post, hlive, -, hlive'⟩ |
        ⟨pre, post, hlive, hlive'⟩ | ⟨-, -, hlive'⟩
      · simp only [hlive', List.mem_append, List.mem_cons] at hy
        rcases hy with hy | rfl | hy
        · exact (h y (by rw [hlive]; simp [hy])).1
        · exact Nat.add_pos_right _ hl
        · exact (h y (by rw [hlive]; simp [hy])).1
      · simp only [hlive', List.mem_append, List.mem_cons] at hy
        rcases hy with hy | rfl | hy
        · exact (h y (by rw [hlive]; simp [hy])).1
        · exact Nat.add_pos_right _ hl
        · exact (h y (by rw [hlive]; simp [hy])).1
      · simp only [hlive', List.mem_append, List.mem_cons] at hy
        rcases hy with hy | rfl | hy
        · exact (h y (by rw [hlive]; simp [hy])).1
        · exact hl
        · exact (h y (by rw [hlive]; simp [hy])).1
      · exact (h y (by rwa [hlive'] at hy)).1
    · rcases setInsert_stop hm' hl rfl hs (fun s hsm ↦ (h s hsm).2) y hy with heq | ⟨s, hsm, heq⟩
      · omega
      · have := (h s hsm).2
        omega

/-- What one pass of the loop hands on is bounded. -/
def StepBounded : SetStep → Prop
  | .done m => Bounded m
  | .next c => Bounded c.map ∧ c.base + c.length < 2 ^ 64
  | .split c endBase endLength _ =>
    Bounded c.map ∧ c.base + c.length < 2 ^ 64 ∧ endBase + endLength < 2 ^ 64
  | .around m startBase startLength endBase endLength =>
    Bounded m ∧ startBase + startLength < 2 ^ 64 ∧ endBase + endLength < 2 ^ 64

theorem setStep_bounded {c : SetCursor} (type : PmmMapType) (force : Bool) (h : Bounded c.map)
    (hi : c.i < c.map.size) (hc : c.base + c.length < 2 ^ 64) :
    StepBounded (setStep type force c) := by
  obtain ⟨hpos, hb⟩ := h _ (slots_mem_live c.map hi)
  generalize he : c.map.slots c.i = e at hpos hb
  by_cases hclear : e.Clear c.base (c.base + c.length)
  · rw [setStep_clear he hb hc hpos hclear]
    exact ⟨h, hc⟩
  simp only [Clear, not_or, not_le] at hclear
  by_cases h1 : e.base < c.base
  · by_cases h2 : c.base + c.length < e.stop
    · cases ho : overrides type force e.type with
      | false =>
        rw [setStep_inside_keep he hb hc h1 h2 ho]
        exact h
      | true =>
        rw [setStep_inside he hb hc h1 h2 ho]
        refine ⟨h.set hi (by simp only; omega) ?_, hc, by omega⟩
        simp only [Span.stop] at *; omega
    · cases ho : overrides type force e.type with
      | false =>
        rw [setStep_start_keep he hb hc h1 hclear.1 (by omega) ho]
        exact ⟨h, by simp only; omega⟩
      | true =>
        rw [setStep_start he hb hc h1 hclear.1 (by omega) ho]
        refine ⟨h.set hi (by simp only; omega) ?_, hc⟩
        simp only [Span.stop] at *; omega
  by_cases h2 : c.base + c.length < e.stop
  · cases ho : overrides type force e.type with
    | false =>
      rw [setStep_end_keep he hb hc (by omega) hclear.2 h2 ho]
      exact ⟨h, by simp only; omega⟩
    | true =>
      rw [setStep_end he hb hc (by omega) hclear.2 h2 ho]
      refine ⟨h.set hi (by simp only; omega) ?_, hc⟩
      simp only [Span.stop] at *; omega
  by_cases hf : Flush c.base (c.base + c.length) e
  · rw [setStep_flush he hb hc hpos hf]
    exact ⟨h, hc⟩
  cases ho : overrides type force e.type with
  | true =>
    rw [setStep_cover he hb hc hpos (by omega) (by omega) hf ho]
    exact ⟨h.mapDelete hi, hc⟩
  | false =>
    simp only [Flush] at hf
    rcases Nat.lt_or_ge c.base e.base with h3 | h3
    · rw [setStep_around he hb hc h3 (by omega) ho]
      exact ⟨h, by omega, by omega⟩
    · rw [setStep_equal_keep he hb hc (by omega) (by omega) ho]
      exact h

theorem setFrom_bounded (fuel : Nat) : ∀ {c : SetCursor} {type : PmmMapType} {force : Bool}
    {m' : PmmMap}, Bounded c.map → c.base + c.length < 2 ^ 64 →
    setFrom fuel c type force = .ok m' → Bounded m' := by
  induction fuel with
  | zero => intro c type force m' _ _ h; cases h
  | succ fuel ih =>
    intro c type force m' hb hc h
    rw [setFrom] at h
    split at h
    · rename_i hi
      have hstep := setStep_bounded type force hb hi hc
      revert h hstep
      cases setStep type force c with
      | done m =>
        intro h hstep
        obtain rfl := Except.ok.inj h
        exact hstep
      | next c' => exact fun h hstep ↦ ih (c := { c' with i := add64 c'.i 1 }) hstep.1 hstep.2 h
      | split c' endBase endLength entryType =>
        intro h hstep
        obtain ⟨m₁, hm₁, h⟩ := bind_eq_ok h
        have hb₁ := ih (c := ⟨c'.map, 0, endBase, endLength⟩) hstep.1 hstep.2.2 hm₁
        exact ih (c := { c' with map := m₁, i := add64 c'.i 1 }) hb₁ hstep.2.1 h
      | around m startBase startLength endBase endLength =>
        intro h hstep
        obtain ⟨m₁, hm₁, h⟩ := bind_eq_ok h
        have hb₁ := ih (c := ⟨m, 0, startBase, startLength⟩) hstep.1 hstep.2.1 hm₁
        exact ih (c := ⟨m₁, 0, endBase, endLength⟩) hb₁ hstep.2.2 h
    · exact hb.setInsert hc h

/-- Filling a table from the firmware's ranges makes such calls only. -/
theorem Reachable.addAll {l : List PmmMapEntry} (hl : ∀ r ∈ l, r.stop < 2 ^ 64) (hm : Reachable m)
    (h : addAll m l = .ok m') : Reachable m' := by
  induction l generalizing m with
  | nil =>
    obtain rfl := Except.ok.inj h
    exact hm
  | cons r l ih =>
    obtain ⟨k, hk, h⟩ := addAll_cons h
    refine ih (fun s hs ↦ hl s (by simp [hs])) ?_ h
    rw [pmmMapAdd] at hk
    split at hk
    · obtain rfl := Except.ok.inj hk
      exact hm
    · exact hm.set (hl r (by simp)) hk

theorem Reachable.bounded (h : Reachable m) : Bounded m := by
  induction h with
  | empty => intro s hs; simp [live, PmmMap.empty] at hs
  | set _ hs h ih => exact setFrom_bounded _ ih hs h

end Bounded

/-- How `pmm_map_set` stops when the table is full: with its own panic, or by reading past the
array. -/
def TableFull (e : Stop) : Prop := e = .panic "memory map overflow" [] ∨ e = .fault

theorem setInsert_error {m : PmmMap} {base length : Nat} {type : PmmMapType} {e : Stop}
    (h : setInsert m base length type = .error e) : TableFull e := by
  rw [setInsert] at h
  split at h
  · cases h
  · dsimp only at h
    split at h
    · cases h
    · split at h
      · cases h
        exact Or.inr rfl
      · split at h
        · cases h
        · unfold mapInsert at h
          split at h
          · cases h
            exact Or.inl rfl
          · cases h

/-- A forced call that does not return found the table full. -/
theorem pmmMapSet_force_error {m : PmmMap} (ht : Tiled m.live)
    (hb : ∀ s ∈ m.live, s.stop < 2 ^ 64) {base length stop : Nat} (hl : base + length = stop)
    (hbs : base < stop) (hs : stop < 2 ^ 64) {type : PmmMapType} {e : Stop}
    (h : pmmMapSet m base length type true = .error e) : TableFull e := by
  by_cases hno : ∀ s ∈ m.live, ¬ (s.base < base ∧ stop < s.stop)
  · obtain ⟨m₁, hm₁, -, -⟩ := pmmMapSet_remains type ht hb hl hbs hs hno
    rw [hm₁] at h
    exact setInsert_error h
  · push Not at hno
    obtain ⟨x, hx, h1, h2⟩ := hno
    obtain ⟨pre, post, hlive⟩ := List.append_of_mem hx
    rw [pmmMapSet_inside type hlive ht hb hl hbs h1 h2] at h
    cases hm₂ : setInsert (leftOf m pre.length base x) stop (x.stop - stop) x.type with
    | error e' =>
      rw [hm₂] at h
      cases h
      exact setInsert_error hm₂
    | ok m₂ =>
      rw [hm₂] at h
      exact setInsert_error h

/-- **A forced call**, on any reachable table whose live entries are tiled, returns or finds the
table full.  If it returns, it has made the update it is for if and only if no entry lies in the
range and shares exactly one endpoint with it, and no dead slot swallows what goes in behind the
last entry. -/
theorem pmmMapSet_force {m : PmmMap} (hm : Reachable m) (ht : Tiled m.live) {base stop : Nat}
    (hbs : base < stop) (hs : stop < 2 ^ 64) (type : PmmMapType) :
    (∀ e, pmmMapSet m base (stop - base) type true = .error e → TableFull e) ∧
      ∀ m', pmmMapSet m base (stop - base) type true = .ok m' →
        (ForceSpec m m' base stop type ↔
          (∀ x ∈ m.live, ¬ Flush base stop x) ∧ ¬ Swallowed m base stop type) := by
  have hb : ∀ s ∈ m.live, s.stop < 2 ^ 64 := fun s hsm ↦ (hm.bounded s hsm).2
  have hl : base + (stop - base) = stop := by omega
  refine ⟨fun e h ↦ pmmMapSet_force_error ht hb hl hbs hs h, fun m' h ↦
    ⟨fun hspec ↦ ?_, fun ⟨hf, hsw⟩ ↦ force_of_not ht hb hl hbs hs hf hsw h⟩⟩
  have hf : ∀ x ∈ m.live, ¬ Flush base stop x := fun x hx hf ↦
    not_force_of_flush ht hb hl hbs hs hx hf h hspec
  exact ⟨hf, fun hsw ↦ not_force_of_swallowed ht hb hl hbs hs hf hsw h hspec⟩

/-- A range that cuts one entry, swallows the next and cuts the last. -/
theorem pmmMapSet_force_three : ∃ m m',
    addAll .empty [⟨0x1000, 0x1000, .free⟩, ⟨0x2000, 0x1000, .reserved⟩,
      ⟨0x4000, 0x2000, .used⟩] = .ok m ∧
    pmmMapSet m 0x1800 (0x5000 - 0x1800) .acpiNvs true = .ok m' ∧
    ForceSpec m m' 0x1800 0x5000 .acpiNvs := by
  have hadd : ((addAll .empty [⟨0x1000, 0x1000, .free⟩, ⟨0x2000, 0x1000, .reserved⟩,
      ⟨0x4000, 0x2000, .used⟩]).toOption.map fun m ↦
        (m.live, decide (Swallowed m 0x1800 0x5000 .acpiNvs),
          (pmmMapSet m 0x1800 (0x5000 - 0x1800) .acpiNvs true).isOk)) =
      some ([⟨0x1000, 0x1000, .free⟩, ⟨0x2000, 0x1000, .reserved⟩, ⟨0x4000, 0x2000, .used⟩],
        false, true) := by decide +kernel
  obtain ⟨m, hm, hfacts⟩ := Option.map_eq_some_iff.mp hadd
  have hm := toOption_eq_some hm
  simp only [Prod.mk.injEq, decide_eq_false_iff_not] at hfacts
  obtain ⟨hlive, hsw, hok⟩ := hfacts
  obtain ⟨m', hm'⟩ := isOk_eq_true hok
  have ht : Tiled m.live := by rw [hlive]; exact ⟨by decide, by decide⟩
  have hf : ∀ x ∈ m.live, ¬ Flush 0x1800 0x5000 x := by rw [hlive]; decide
  refine ⟨m, m', hm, hm', ?_⟩
  exact ((pmmMapSet_force (Reachable.empty.addAll (by decide) hm) ht (by decide) (by decide)
    .acpiNvs).2 m' hm').mpr ⟨hf, hsw⟩

/-- **A range that begins where an entry does.**  The free entry lies in the range and shares its
first address: it stays, and the range is inserted over it. -/
theorem pmmMapSet_force_flush : ∃ m m',
    addAll .empty [⟨0x1000, 0x1000, .free⟩] = .ok m ∧ Reachable m ∧ Tiled m.live ∧
    pmmMapSet m 0x1000 (0x3000 - 0x1000) .reserved true = .ok m' ∧
    m'.live = [⟨0x1000, 0x1000, .free⟩, ⟨0x1000, 0x2000, .reserved⟩] ∧
    ¬ ForceSpec m m' 0x1000 0x3000 .reserved := by
  have hadd : ((addAll .empty [⟨0x1000, 0x1000, .free⟩]).toOption.bind fun m ↦
      (pmmMapSet m 0x1000 (0x3000 - 0x1000) .reserved true).toOption.map fun m' ↦
        (m.live, m'.live)) =
      some ([⟨0x1000, 0x1000, .free⟩],
        [⟨0x1000, 0x1000, .free⟩, ⟨0x1000, 0x2000, .reserved⟩]) := by decide +kernel
  obtain ⟨m, hm, hset⟩ := Option.bind_eq_some_iff.mp hadd
  obtain ⟨m', hm', hlive⟩ := Option.map_eq_some_iff.mp hset
  simp only [Prod.mk.injEq] at hlive
  refine ⟨m, m', toOption_eq_some hm, Reachable.empty.addAll (by decide) (toOption_eq_some hm),
    by rw [hlive.1]; exact ⟨by decide, by decide⟩, toOption_eq_some hm', hlive.2, fun hspec ↦ ?_⟩
  have hsep := hspec.tiled.sep
  rw [hlive.2] at hsep
  exact absurd hsep (by decide)

end LunarPrekernel
