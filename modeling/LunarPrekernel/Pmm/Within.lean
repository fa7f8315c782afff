import LunarPrekernel.Pmm.SetSpec

/-!
# Requests inside one entry, and the dead slots

`pmm_alloc_ext` and `pmm_free` only ever pass `pmm_map_set` a range that lies inside a single live
entry.  On such a range the loop does one thing, and `pmmMapSet_within` says which: it cuts the
entry back, or drops it, or splits it, and inserts what is to be inserted.

The closed form is what shows that the dead slots do not matter.  `pmmMapSet_live` compares two
maps with the same live entries and whatever dead ones: both calls end alike and leave the same
live entries.  The one place where a dead slot is read, the merge with the next entry at the end of
the table, is `setInsert_live`; the condition of that lemma is `Stale.not_continues`.
-/

set_option autoImplicit false

namespace LunarPrekernel

open SpanMap Span PmmMap

/-! ## The insertion, on maps with the same live entries -/

section Congr

variable {m m₀ : PmmMap}

theorem size_eq_of_live (h : m.live = m₀.live) : m.size = m₀.size := by
  rw [← live_length, h, live_length]

theorem slots_eq_of_live (h : m.live = m₀.live) {i : Nat} (hi : i < m.size) :
    m.slots i = m₀.slots i := by
  have hi₀ : i < m₀.size := by rwa [← size_eq_of_live h]
  rw [← live_getElem m (by simpa using hi), ← live_getElem m₀ (by simpa using hi₀)]
  simp only [h]

theorem live_set_congr (h : m.live = m₀.live) (i : Nat) (e : PmmMapEntry) :
    (m.set i e).live = (m₀.set i e).live := by
  refine live_ext (by simp [size_eq_of_live h]) fun j hj ↦ ?_
  rw [live_getElem]
  rcases eq_or_ne j i with rfl | hne
  · rw [set_slots_self, set_slots_self]
  · rw [set_slots_of_ne _ _ hne, set_slots_of_ne _ _ hne]
    exact slots_eq_of_live h (by simpa [size_eq_of_live h] using hj)

theorem insertIndex_congr (h : m.live = m₀.live) (base n i : Nat) (hn : i + n ≤ m.size) :
    insertIndex m base n i = insertIndex m₀ base n i := by
  induction n generalizing i with
  | zero => rfl
  | succ n ih =>
    rw [insertIndex, insertIndex, slots_eq_of_live h (by omega), ih (i + 1) (by omega)]

theorem mapInsert_congr (h : m.live = m₀.live) {i : Nat} (hi : i ≤ m.size) (e : PmmMapEntry) :
    (mapInsert m i e).map live = (mapInsert m₀ i e).map live := by
  have hs := size_eq_of_live h
  by_cases hfull : m.size = pmmMapMaxEntries
  · rw [mapInsert_error hfull, mapInsert_error (hs ▸ hfull)]
  · have hlen : (m.live.take i).length = i := by simpa using hi
    have hsplit : m.live = m.live.take i ++ m.live.drop i := (List.take_append_drop _ _).symm
    obtain ⟨k, hk, hkl, -⟩ := mapInsert_ok (e := e) hsplit hfull
    obtain ⟨k₀, hk₀, hkl₀, -⟩ := mapInsert_ok (e := e) (h.symm.trans hsplit) (hs ▸ hfull)
    rw [hlen] at hk hk₀
    rw [hk, hk₀]
    show Except.ok k.live = Except.ok k₀.live
    rw [hkl, hkl₀]

/-- The insertion reads the live entries only, if the first dead slots of both maps do not look
like a continuation of the range. -/
theorem setInsert_live {base length : Nat} (type : PmmMapType) (h : m.live = m₀.live)
    (he : base + length < 2 ^ 64)
    (hd : (∀ s ∈ m.live, s.base ≤ base) → (m.slots m.size).base ≠ base + length)
    (hd₀ : (∀ s ∈ m.live, s.base ≤ base) → (m₀.slots m₀.size).base ≠ base + length) :
    (setInsert m base length type).map live = (setInsert m₀ base length type).map live := by
  have hs := size_eq_of_live h
  obtain ⟨-, hle, hpre, -⟩ := insertIndex_spec m base m.size 0
  have hidx : insertIndex m₀ base m₀.size 0 = insertIndex m base m.size 0 := by
    rw [← hs, insertIndex_congr h base m.size 0 (by omega)]
  rw [setInsert, setInsert]
  simp only [hidx]
  set i := insertIndex m base m.size 0
  rcases eq_or_ne length 0 with hz | hz
  · rw [if_pos hz, if_pos hz]
    exact congrArg Except.ok h
  rw [if_neg hz, if_neg hz]
  have hprev : i ≠ 0 → m₀.slots (i - 1) = m.slots (i - 1) := fun hi ↦
    (slots_eq_of_live h (by omega)).symm
  by_cases hmerge : i ≠ 0 ∧ (m.slots (i - 1)).type = type ∧
      add64 (m.slots (i - 1)).base (m.slots (i - 1)).length = base
  · rw [if_pos hmerge, hprev hmerge.1, if_pos hmerge]
    exact congrArg Except.ok (live_set_congr h _ _)
  have hmerge₀ : ¬ (i ≠ 0 ∧ (m₀.slots (i - 1)).type = type ∧
      add64 (m₀.slots (i - 1)).base (m₀.slots (i - 1)).length = base) := fun hm ↦
    hmerge ⟨hm.1, by rw [← hprev hm.1]; exact hm.2⟩
  rw [if_neg hmerge, if_neg hmerge₀]
  by_cases hfull : i ≥ pmmMapMaxEntries
  · rw [if_pos hfull, if_pos hfull]
  rw [if_neg hfull, if_neg hfull]
  rcases Nat.lt_or_ge i m.size with hi | hi
  · rw [← slots_eq_of_live h hi]
    by_cases hnext : (m.slots i).type = type ∧ (m.slots i).base = add64 base length
    · rw [if_pos hnext, if_pos hnext]
      exact congrArg Except.ok (live_set_congr h _ _)
    · rw [if_neg hnext, if_neg hnext]
      exact mapInsert_congr h hi.le _
  · -- every entry begins before the range, and the slot the code looks at is a dead one
    have hi : i = m.size := by omega
    have hbase : ∀ s ∈ m.live, s.base ≤ base := by
      intro s hsm
      obtain ⟨j, hj, rfl⟩ := mem_live.mp hsm
      exact hpre j (Nat.zero_le _) (by omega)
    have hnext : ¬ ((m.slots i).type = type ∧ (m.slots i).base = base + length) := fun hc ↦
      hd hbase (by rw [← hi]; exact hc.2)
    have hnext₀ : ¬ ((m₀.slots i).type = type ∧ (m₀.slots i).base = base + length) := fun hc ↦
      hd₀ hbase (by rw [← hs, ← hi]; exact hc.2)
    rw [add64_eq he, if_neg hnext, if_neg hnext₀]
    exact mapInsert_congr h hi.le _

end Congr

/-! ## The loop, on a range inside one entry -/

/-- What `pmm_map_set` does to a range inside the entry `e` at index `i`. -/
def setWithin (m : PmmMap) (i : Nat) (e : PmmMapEntry) (base length : Nat) (type : PmmMapType) :
    Except Stop PmmMap :=
  if e.base < base then
    if base + length < e.stop then do
      let m ← setInsert (m.set i { e with length := base - e.base }) (base + length)
        (e.stop - (base + length)) e.type
      setInsert m base length type
    else setInsert (m.set i { e with length := base - e.base }) base length type
  else if base + length < e.stop then
    setInsert (m.set i ⟨base + length, e.stop - (base + length), e.type⟩) base length type
  else setInsert (mapDelete m i) base length type

section Within

variable {m : PmmMap} {pre post : List PmmMapEntry} {e : PmmMapEntry} {base length stop : Nat}
  {type : PmmMapType}

/-- The invariant when the loop comes to the entry the range lies in. -/
theorem PmmMap.Wf.setInv_within (type : PmmMapType) (h : m.Wf) (hlive : m.live = pre ++ e :: post)
    (hlt : base < stop) (h1 : e.base ≤ base) (h2 : stop ≤ e.stop) :
    SetInv (setResult m base stop type true) type true m pre (e :: post) base stop := by
  have ht := h.tiled
  rw [hlive] at ht
  have he := h.bound e (by rw [hlive]; simp)
  exact
    { live := hlive
      tiled := h.tiled
      bound := h.bound
      stale := h.stale.mono fun _ ha ↦ setResult_ne_none ha
      stop_lt := by omega
      lt := hlt
      result := rfl
      seen := fun s hs ↦ Or.inl (((tiled_append.mp ht).2.2 s hs e (by simp)).trans h1)
      clean := clean_of_within (tiled_append.mp ht).2.1 hlt ⟨e, by simp, h1, h2⟩ }

/-- A cut of the entry that reaches across the range leaves everything clear of it. -/
theorem SetInv.clear_of_parts {F : Nat → Option PmmMapType} {m' : PmmMap}
    {parts : List PmmMapEntry} (h : SetInv F type true m pre (e :: post) base stop)
    (h2 : stop ≤ e.stop) (h' : SetInv F type true m' (pre ++ parts) post base stop) :
    ∀ s ∈ m'.live, s.Clear base stop := by
  intro s hs
  rw [h'.live] at hs
  rcases List.mem_append.mp hs with hs | hs
  · exact h'.seen s hs
  · exact Or.inr (h2.trans (h.le_post s hs))

/-- The dead slots do not continue the range when the loop is over. -/
theorem SetInv.not_continues {F : Nat → Option PmmMapType}
    (h : SetInv F type true m pre post base stop) (hl : base + length = stop)
    (hc : ∀ s ∈ m.live, s.Clear base stop) :
    (∀ s ∈ m.live, s.base ≤ base) → (m.slots m.size).base ≠ base + length := by
  subst hl
  have hlt := h.lt
  refine h.stale.not_continues (by omega) hc fun hne ↦ ?_
  rw [← h.result, setResult, overwrite_of_not_mem (by omega)] at hne
  exact typeAt_isSome.mp hne

/-- A call that is to put a range into the entry `e` comes to the insertions of `setWithin`. -/
theorem pmmMapSet_within (h : m.Wf) (hlive : m.live = pre ++ e :: post)
    (hl : base + length = stop) (hlt : base < stop) (h1 : e.base ≤ base) (h2 : stop ≤ e.stop) :
    pmmMapSet m base length type true = setWithin m pre.length e base length type := by
  have hinv := h.setInv_within type hlive hlt h1 h2
  obtain ⟨hi, hslot⟩ := slots_of_live hlive
  have hsz := size_lt_fuel m
  have hstop := h.bound e hinv.mem
  have hpos := hinv.pos
  have ho : overrides type true e.type = true := overrides_force _ _
  have hbound : base + length < 2 ^ 64 := by omega
  have hclear : ∀ j, 0 ≤ j → j < 0 + pre.length → (m.slots j).Clear base (base + length) := by
    intro j _ hj
    rw [hl]
    refine hinv.seen _ ?_
    rw [← live_getElem m (by simp; omega)]
    simp only [hlive]
    rw [List.getElem_append_left (by omega)]
    exact List.getElem_mem _
  have hskip := setFrom_skip base length type true h.tiled h.bound hbound pre.length 0 (setFuel - pre.length - 1 + 1) (by omega) hclear
  have hfuel : setFuel - pre.length - 1 + 1 + pre.length = setFuel := by unfold setFuel; omega
  rw [hfuel, Nat.zero_add] at hskip
  rw [pmmMapSet, hskip, setFrom, if_pos hi, setWithin, hl]
  -- after the entry, nothing is left but clear entries
  have hrest : ∀ {m' : PmmMap} (parts : List PmmMapEntry) {i : Nat},
      SetInv (setResult m base stop type true) type true m' (pre ++ parts) post base stop →
      i ≤ m'.size → setFrom (setFuel - pre.length - 1) ⟨m', i, base, length⟩ type true =
        setInsert m' base length type := by
    intro m' parts i hinv' hi'
    have hsz' := size_lt_fuel m'
    refine setFrom_clear hinv'.tiled hinv'.bound hbound hi' (by unfold setFuel; omega)
      fun j _ hj ↦ ?_
    rw [hl]
    exact hinv.clear_of_parts h2 hinv' _ (slots_mem_live m' hj)
  have hnext := add64_eq (succ_lt_word hi)
  by_cases hs : e.base < base
  · rw [if_pos hs]
    by_cases ht : stop < e.stop
    · -- the end of the entry is inserted first
      rw [if_pos ht, setStep_inside hslot hstop hbound hs (by simp only; omega) ho]
      simp only [hnext, hl]
      generalize hm₁ : m.set pre.length { e with length := base - e.base } = m₁
      obtain ⟨ht₁, hb₁, -, -, -⟩ := hinv.split_cut hs ht hm₁
      obtain ⟨hc, hd⟩ := hinv.split_insert hs ht hm₁
      have hsz₁ := size_lt_fuel m₁
      rw [setFrom_clear ht₁ hb₁ (show stop + (e.stop - stop) < 2 ^ 64 by omega) (Nat.zero_le _)
        (by unfold setFuel; omega) fun j _ hj ↦ hc _ (slots_mem_live m₁ hj)]
      rcases setInsert_spec e.type ht₁ hb₁ hc (by omega) (by omega) (fun h _ hn ↦ hd h hn.2) with
        ⟨m₂, hm₂, hins⟩ | ⟨-, herr⟩
      · rw [hm₂]
        have hinv₂ := hinv.split_back hs ht ho hm₁ hins
        have hle : m₁.size ≤ m₂.size := by
          obtain ⟨-, -, -, -, -, -, hdead⟩ := hins
          exact (hdead m₂.size le_rfl).1
        have hi₂ : pre.length < m₁.size := by rw [← hm₁]; exact hi
        have hsz₂ := size_lt_fuel m₂
        refine setFrom_clear hinv₂.tiled hinv₂.bound hbound (by omega)
          (by unfold setFuel; omega) fun j _ hj ↦ ?_
        rw [hl]
        exact hinv₂.seen _ (slots_mem_live m₂ hj)
      · rcases herr with herr | ⟨herr, -⟩ <;> rw [herr] <;> rfl
    · rw [if_neg ht, setStep_start hslot hstop hbound hs (by simp only; omega)
        (by simp only; omega) ho]
      simp only [hnext]
      exact hrest _ (hinv.start_cut hs (by omega) (by omega) ho) (by simpa using hi)
  · rw [if_neg hs]
    by_cases ht : stop < e.stop
    · rw [if_pos ht, setStep_end hslot hstop hbound (by simp only; omega) (by simp only; omega)
        (by simp only; omega) ho]
      simp only [hnext, hl]
      exact hrest _ (hinv.stop_cut (by omega) (by omega) ht ho) (by simpa using hi)
    · rw [if_neg ht, setStep_cover hslot hstop hbound hpos (by simp only; omega)
        (by simp only; omega) (by simp only [Flush]; omega) ho]
      have hcut := hinv.cover_cut (by omega) (by omega) ho
      simp only [add64_sub64_one (show pre.length < 2 ^ 64 by have := succ_lt_word hi; omega)]
      refine hrest [] (by simpa using hcut) ?_
      rw [mapDelete_size]; omega

end Within

/-! ## The dead slots -/

/-- The map with its dead slots as the zero-initialised array had them. -/
def PmmMap.scrub (m : PmmMap) : PmmMap :=
  { m with slots := fun i ↦ if i < m.size then m.slots i else .zero }

@[simp] theorem scrub_live (m : PmmMap) : m.scrub.live = m.live := by
  refine live_ext (by simp [scrub]) fun i hi ↦ ?_
  rw [live_getElem]
  exact if_pos (by simpa using hi)

theorem PmmMap.Wf.scrub {m : PmmMap} (h : m.Wf) : m.scrub.Wf where
  tiled := by rw [scrub_live]; exact h.tiled
  bound := by rw [scrub_live]; exact h.bound
  stale := fun j hj ↦ Or.inl (if_neg (by simpa [PmmMap.scrub] using hj))

/-- **The dead slots do not matter.**  Two well-formed maps with the same live entries are changed
alike by a call for a range inside one entry. -/
theorem pmmMapSet_live {m m₀ : PmmMap} {base length : Nat} {type : PmmMapType} (h : m.Wf)
    (h₀ : m₀.Wf) (hm : m.live = m₀.live) (hl : 0 < length)
    (hw : Within m.live base (base + length)) :
    (pmmMapSet m base length type true).map live =
      (pmmMapSet m₀ base length type true).map live := by
  obtain ⟨e, he, h1, h2⟩ := hw
  obtain ⟨pre, post, hlive⟩ := List.append_of_mem he
  have hlive₀ : m₀.live = pre ++ e :: post := hm.symm.trans hlive
  have hlt : base < base + length := by omega
  have hinv := h.setInv_within type hlive hlt h1 h2
  have hinv₀ := h₀.setInv_within type hlive₀ hlt h1 h2
  have hstop := h.bound e he
  have ho : overrides type true e.type = true := overrides_force _ _
  rw [pmmMapSet_within h hlive rfl hlt h1 h2, pmmMapSet_within h₀ hlive₀ rfl hlt h1 h2]
  -- with everything clear of the range, what is left is an insertion
  have hfin : ∀ {k k₀ : PmmMap} {F F₀ : Nat → Option PmmMapType} {l l₀ r : List PmmMapEntry},
      k.live = k₀.live → SetInv F type true k l r base (base + length) →
      SetInv F₀ type true k₀ l₀ r base (base + length) →
      (∀ s ∈ k.live, s.Clear base (base + length)) →
      (setInsert k base length type).map live = (setInsert k₀ base length type).map live := by
    intro k k₀ F F₀ l l₀ r hk hi hi₀ hc
    refine setInsert_live type hk hi.stop_lt (hi.not_continues rfl hc) ?_
    have := hi₀.not_continues rfl (by rwa [← hk])
    rwa [← hk] at this
  unfold setWithin
  by_cases hs : e.base < base
  · by_cases ht : base + length < e.stop
    · rw [if_pos hs, if_pos ht, if_pos hs, if_pos ht]
      generalize hm₁ : m.set pre.length { e with length := base - e.base } = m₁
      generalize hk₁ : m₀.set pre.length { e with length := base - e.base } = k₁
      have hlive₁ : m₁.live = k₁.live := by
        rw [← hm₁, ← hk₁]
        exact live_set_congr hm _ _
      obtain ⟨ht₁, hb₁, -, -, -⟩ := hinv.split_cut hs ht hm₁
      obtain ⟨hc, hd⟩ := hinv.split_insert hs ht hm₁
      obtain ⟨hc₀, hd₀⟩ := hinv₀.split_insert hs ht hk₁
      obtain ⟨htk₁, hbk₁, -, -, -⟩ := hinv₀.split_cut hs ht hk₁
      have hboth := setInsert_live e.type hlive₁ (by omega) hd (by rwa [← hlive₁] at hd₀)
      rcases setInsert_spec e.type ht₁ hb₁ hc (by omega) (by omega) (fun h _ hn ↦ hd h hn.2) with
        ⟨m₂, hm₂, hins⟩ | ⟨-, herr⟩ <;>
      rcases setInsert_spec e.type htk₁ hbk₁ hc₀ (by omega) (by omega) (fun h _ hn ↦ hd₀ h hn.2) with
        ⟨k₂, hk₂, hins₀⟩ | ⟨-, herr₀⟩
      · rw [hm₂, hk₂] at hboth ⊢
        have hlive₂ : m₂.live = k₂.live := Except.ok.inj hboth
        have hinv₂ := hinv.split_back hs ht ho hm₁ hins
        exact hfin hlive₂ hinv₂ (hinv₀.split_back hs ht ho hk₁ hins₀) hinv₂.seen
      · rcases herr₀ with herr₀ | ⟨herr₀, -⟩ <;> rw [hm₂, herr₀] at hboth <;> cases hboth
      · rcases herr with herr | ⟨herr, -⟩ <;> rw [hk₂, herr] at hboth <;> cases hboth
      · rcases herr with herr | ⟨herr, -⟩ <;> rcases herr₀ with herr₀ | ⟨herr₀, -⟩ <;>
          rw [herr, herr₀] at hboth ⊢ <;> cases hboth
    · rw [if_pos hs, if_neg ht, if_pos hs, if_neg ht]
      have hcut := hinv.start_cut hs (by omega) (by omega) ho
      exact hfin (live_set_congr hm _ _) hcut (hinv₀.start_cut hs (by omega) (by omega) ho)
        (hinv.clear_of_parts h2 hcut)
  · by_cases ht : base + length < e.stop
    · rw [if_neg hs, if_pos ht, if_neg hs, if_pos ht]
      have hcut := hinv.stop_cut (by omega) (by omega) ht ho
      exact hfin (live_set_congr hm _ _) hcut (hinv₀.stop_cut (by omega) (by omega) ht ho)
        (hinv.clear_of_parts h2 hcut)
    · rw [if_neg hs, if_neg ht, if_neg hs, if_neg ht]
      have hcut := hinv.cover_cut (by omega) (by omega) ho
      refine hfin (by rw [live_mapDelete hlive, live_mapDelete hlive₀]) hcut
        (hinv₀.cover_cut (by omega) (by omega) ho) (hinv.clear_of_parts h2
          (show SetInv _ _ _ _ (pre ++ []) _ _ _ by simpa using hcut))

end LunarPrekernel
