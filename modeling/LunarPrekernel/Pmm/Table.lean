import LunarPrekernel.Pmm.Defs

/-!
# The live entries of the map

`PmmMap.live` reads `g_pmm_map[0 .. g_pmm_map_size)` as a list, and this file says what each way of
writing the array does to that list and to the dead slots behind it:

* `live_set`, `live_mapDelete`, `live_mapInsert` — an assignment to a live slot, `map_delete` and
  `map_insert` are replacing, dropping and adding a list element;
* `insertIndex_spec` — the search for the insertion point stops behind the entries that begin at
  or before the base;
* `setInsert_spec` — the insertion at the end of `pmm_map_set` is `SpanMap.Join`, provided the
  range is clear of every live entry and the first dead slot does not look like a continuation of
  it.

The last condition is where the dead slots come in.  `Stale m C` is the invariant that gives it:
a dead slot still is as the zero-initialised array had it, or holds addresses of `C` only.
-/

set_option autoImplicit false

namespace LunarPrekernel

open SpanMap

namespace PmmMap

/-! ## Slots and list positions -/

@[simp] theorem live_length (m : PmmMap) : m.live.length = m.size := by simp [live]

theorem live_getElem (m : PmmMap) {i : Nat} (h : i < m.live.length) : m.live[i] = m.slots i := by
  simp [live]

theorem mem_live {m : PmmMap} {s : PmmMapEntry} :
    s ∈ m.live ↔ ∃ i, i < m.size ∧ m.slots i = s := by
  simp [live]

theorem slots_mem_live (m : PmmMap) {i : Nat} (h : i < m.size) : m.slots i ∈ m.live :=
  mem_live.mpr ⟨i, h, rfl⟩

theorem live_ext {m : PmmMap} {l : List PmmMapEntry} (hn : l.length = m.size)
    (h : ∀ i (hi : i < l.length), m.slots i = l[i]) : m.live = l := by
  refine List.ext_getElem (by simp [hn]) fun i h1 h2 ↦ ?_
  rw [live_getElem, h i h2]

/-- Where an element of the list sits in the array. -/
theorem slots_of_live {m : PmmMap} {pre post : List PmmMapEntry} {e : PmmMapEntry}
    (h : m.live = pre ++ e :: post) : pre.length < m.size ∧ m.slots pre.length = e := by
  have hlt : pre.length < m.size := by
    rw [← live_length, h]; simp
  refine ⟨hlt, ?_⟩
  rw [← live_getElem m (by simpa using hlt)]
  simp [h]

theorem live_split (m : PmmMap) {i : Nat} (h : i < m.size) :
    m.live = m.live.take i ++ m.slots i :: m.live.drop (i + 1) := by
  rw [← live_getElem m (by simpa using h), ← List.drop_eq_getElem_cons, List.take_append_drop]

/-! ## Assigning to a live slot -/

@[simp] theorem set_size (m : PmmMap) (i : Nat) (e : PmmMapEntry) : (m.set i e).size = m.size :=
  rfl

@[simp] theorem set_slots_self (m : PmmMap) (i : Nat) (e : PmmMapEntry) :
    (m.set i e).slots i = e := by simp [set]

theorem set_slots_of_ne (m : PmmMap) {i j : Nat} (e : PmmMapEntry) (h : j ≠ i) :
    (m.set i e).slots j = m.slots j := by simp [set, h]

theorem live_set {m : PmmMap} {pre post : List PmmMapEntry} {e : PmmMapEntry}
    (h : m.live = pre ++ e :: post) (e' : PmmMapEntry) :
    (m.set pre.length e').live = pre ++ e' :: post := by
  have hlen : m.size = (pre ++ e :: post).length := by rw [← live_length, h]
  refine live_ext (by simp [hlen]) fun i hi ↦ ?_
  rcases eq_or_ne i pre.length with rfl | hne
  · simp
  · have hi' : i < m.live.length := by simpa [hlen] using hi
    rw [set_slots_of_ne m e' hne, ← live_getElem m hi']
    simp only [h, List.getElem_append, List.getElem_cons]
    split
    · rfl
    · rw [dif_neg (by omega), dif_neg (by omega)]

/-! ## Deleting and inserting -/

theorem shiftDown_apply (n i : Nat) (slots : Nat → PmmMapEntry) (j : Nat) :
    shiftDown n i slots j = if i ≤ j ∧ j < i + n then slots (j + 1) else slots j := by
  induction n generalizing i slots with
  | zero => rw [shiftDown, if_neg (by omega)]
  | succ n ih =>
    rw [shiftDown, ih]
    rcases lt_trichotomy j i with h | rfl | h
    · rw [if_neg (by omega), if_neg (by omega), Function.update_of_ne (by omega)]
    · rw [if_neg (by omega), if_pos (by omega), Function.update_self]
    · by_cases hj : j < i + (n + 1)
      · rw [if_pos (by omega), if_pos (by omega), Function.update_of_ne (by omega)]
      · rw [if_neg (by omega), if_neg (by omega), Function.update_of_ne (by omega)]

theorem shiftUp_apply (index n : Nat) (slots : Nat → PmmMapEntry) (j : Nat) :
    shiftUp index n slots j = if index < j ∧ j ≤ n then slots (j - 1) else slots j := by
  induction n generalizing slots with
  | zero => rw [shiftUp, if_neg (by omega)]
  | succ n ih =>
    rw [shiftUp]
    split
    · rw [ih]
      rcases lt_trichotomy j (n + 1) with h | rfl | h
      · by_cases hj : index < j
        · rw [if_pos (by omega), if_pos (by omega), Function.update_of_ne (by omega)]
        · rw [if_neg (by omega), if_neg (by omega), Function.update_of_ne (by omega)]
      · rw [if_neg (by omega), if_pos (by omega), Function.update_self, Nat.add_sub_cancel]
      · rw [if_neg (by omega), if_neg (by omega), Function.update_of_ne (by omega)]
    · rw [if_neg (by omega)]

@[simp] theorem mapDelete_size (m : PmmMap) (i : Nat) : (mapDelete m i).size = m.size - 1 := rfl

theorem live_mapDelete {m : PmmMap} {pre post : List PmmMapEntry} {e : PmmMapEntry}
    (h : m.live = pre ++ e :: post) : (mapDelete m pre.length).live = pre ++ post := by
  have hlen : m.size = (pre ++ e :: post).length := by rw [← live_length, h]
  simp only [List.length_append, List.length_cons] at hlen
  refine live_ext (by simp [hlen]) fun i hi ↦ ?_
  simp only [List.length_append] at hi
  simp only [mapDelete, shiftDown_apply]
  split
  · rw [← live_getElem m (by simp; omega)]
    simp only [h, List.getElem_append, List.getElem_cons]
    rw [dif_neg (by omega), dif_neg (by omega), dif_neg (by omega)]
    congr 1; omega
  · rw [← live_getElem m (by simp; omega)]
    simp only [h, List.getElem_append]
    rw [dif_pos (by omega), dif_pos (by omega)]

/-- `map_delete` leaves the slots behind the new last entry alone; the first of them still holds
what the last live slot held. -/
theorem mapDelete_slots (m : PmmMap) {i j : Nat} (hi : i < m.size) (hj : m.size - 1 ≤ j) :
    (mapDelete m i).slots j = m.slots j := by
  show shiftDown _ i m.slots j = m.slots j
  rw [shiftDown_apply, if_neg (by omega)]

/-- `map_insert` panics exactly when the array is full. -/
theorem mapInsert_error {m : PmmMap} {i : Nat} {e : PmmMapEntry}
    (h : m.size = pmmMapMaxEntries) :
    mapInsert m i e = .error (.panic "memory map overflow" []) := dif_pos h

theorem mapInsert_ok {m : PmmMap} {pre post : List PmmMapEntry} {e : PmmMapEntry}
    (h : m.live = pre ++ post) (hsize : m.size ≠ pmmMapMaxEntries) :
    ∃ m', mapInsert m pre.length e = .ok m' ∧ m'.live = pre ++ e :: post ∧
      ∀ j, m.size < j → m'.slots j = m.slots j := by
  have hlen : m.size = (pre ++ post).length := by rw [← live_length, h]
  simp only [List.length_append] at hlen
  refine ⟨_, dif_neg hsize, live_ext (by simp [hlen]; omega) fun i hi ↦ ?_, fun j hj ↦ ?_⟩
  · simp only [List.length_append, List.length_cons] at hi
    show Function.update (shiftUp pre.length m.size m.slots) pre.length e i = _
    rcases lt_trichotomy i pre.length with hi' | rfl | hi'
    · rw [Function.update_of_ne (by omega), shiftUp_apply, if_neg (by omega),
        ← live_getElem m (by simp; omega)]
      simp only [h, List.getElem_append]
      rw [dif_pos hi', dif_pos hi']
    · simp
    · rw [Function.update_of_ne (by omega), shiftUp_apply, if_pos (by omega),
        ← live_getElem m (by simp; omega)]
      simp only [h, List.getElem_append, List.getElem_cons]
      rw [dif_neg (by omega), dif_neg (by omega), dif_neg (by omega)]
      congr 1; omega
  · show Function.update (shiftUp pre.length m.size m.slots) pre.length e j = _
    rw [Function.update_of_ne (by omega), shiftUp_apply, if_neg (by omega)]

end PmmMap

/-! ## The insertion at the end of `pmm_map_set` -/

open PmmMap

theorem insertIndex_spec (m : PmmMap) (base n i : Nat) :
    i ≤ insertIndex m base n i ∧ insertIndex m base n i ≤ i + n ∧
      (∀ j, i ≤ j → j < insertIndex m base n i → (m.slots j).base ≤ base) ∧
      (insertIndex m base n i < i + n → base < (m.slots (insertIndex m base n i)).base) := by
  induction n generalizing i with
  | zero => simp only [insertIndex]; exact ⟨le_rfl, le_rfl, fun j h1 h2 ↦ by omega, fun h ↦ by omega⟩
  | succ n ih =>
    rw [insertIndex]
    split
    · rename_i hle
      obtain ⟨h1, h2, h3, h4⟩ := ih (i + 1)
      refine ⟨by omega, by omega, fun j hj hlt ↦ ?_, fun h ↦ h4 (by omega)⟩
      rcases eq_or_lt_of_le hj with rfl | hj
      · exact hle
      · exact h3 j hj hlt
    · rename_i hgt
      exact ⟨le_rfl, by omega, fun j h1 h2 ↦ by omega, fun _ ↦ by omega⟩

/-- The insertion point splits a tiled list into what ends before the range and what begins after
it. -/
theorem live_eq_of_clear {m : PmmMap} {base length : Nat} (ht : Tiled m.live)
    (hc : ∀ s ∈ m.live, s.Clear base (base + length)) (hl : 0 < length) :
    ∃ pre post, m.live = pre ++ post ∧ pre.length = insertIndex m base m.size 0 ∧
      (∀ p ∈ pre, p.stop ≤ base) ∧ ∀ q ∈ post, base + length ≤ q.base := by
  obtain ⟨-, hle, hpre, hpost⟩ := insertIndex_spec m base m.size 0
  set r := insertIndex m base m.size 0
  have hlen : (m.live.take r).length = r := by simp; omega
  refine ⟨m.live.take r, m.live.drop r, (List.take_append_drop _ _).symm, hlen,
    fun p hp ↦ ?_, fun q hq ↦ ?_⟩
  · obtain ⟨j, hj, rfl⟩ := List.getElem_of_mem hp
    rw [List.getElem_take, live_getElem]
    have hb := hpre j (by omega) (by omega)
    rcases hc (m.slots j) (slots_mem_live m (by omega)) with h | h
    · exact h
    · omega
  · obtain ⟨j, hj, rfl⟩ := List.getElem_of_mem hq
    simp only [List.length_drop, live_length] at hj
    rw [List.getElem_drop, live_getElem]
    have hb := hpost (by omega)
    have hmono : (m.slots r).base ≤ (m.slots (r + j)).base := by
      rcases Nat.eq_zero_or_pos j with rfl | hj0
      · exact le_rfl
      · have h := List.pairwise_iff_getElem.mp ht.sorted r (r + j) (by simp; omega)
          (by simp; omega) (by omega)
        rw [live_getElem, live_getElem] at h
        exact h.le
    have hp := ht.pos _ (slots_mem_live m (i := r + j) (by omega))
    rcases hc (m.slots (r + j)) (slots_mem_live m (by omega)) with h | h
    · simp only [Span.stop] at h; omega
    · exact h

/-- `m'` is `m` with the span `s` inserted. -/
def Inserted (m m' : PmmMap) (s : PmmMapEntry) : Prop :=
  ∃ pre post, m.live = pre ++ post ∧ (∀ p ∈ pre, p.stop ≤ s.base) ∧
    (∀ q ∈ post, s.stop ≤ q.base) ∧ Join s pre post m'.live ∧
    ∀ j, m'.size ≤ j → m.size ≤ j ∧ m'.slots j = m.slots j

theorem getLast?_eq_slot {m : PmmMap} {pre post : List PmmMapEntry} (h : m.live = pre ++ post)
    (hne : pre.length ≠ 0) : pre.getLast? = some (m.slots (pre.length - 1)) := by
  rw [List.getLast?_eq_getElem?, List.getElem?_eq_getElem (by omega),
    ← live_getElem m (by rw [h]; simp; omega)]
  simp only [h, List.getElem_append, Option.some.injEq]
  rw [dif_pos (by omega)]

/-- The first dead slot looks like an entry of the given type that begins at `stop`. -/
def DeadNext (m : PmmMap) (stop : Nat) (type : PmmMapType) : Prop :=
  (m.slots m.size).type = type ∧ (m.slots m.size).base = stop

instance (m : PmmMap) (stop : Nat) (type : PmmMapType) : Decidable (DeadNext m stop type) :=
  inferInstanceAs (Decidable (_ ∧ _))

/-- **The insertion is a join.**  On a range clear of every live entry, where the first dead slot
does not continue the range, the code after the loop inserts the range, or finds the array full. -/
theorem setInsert_spec {m : PmmMap} {base length : Nat} (type : PmmMapType) (ht : Tiled m.live)
    (hb : ∀ s ∈ m.live, s.stop < 2 ^ 64) (hc : ∀ s ∈ m.live, s.Clear base (base + length))
    (hl : 0 < length) (he : base + length < 2 ^ 64)
    (hd : (∀ s ∈ m.live, s.base ≤ base) → (∀ s ∈ m.live, ¬ (s.type = type ∧ s.stop = base)) →
      ¬ DeadNext m (base + length) type) :
    (∃ m', setInsert m base length type = .ok m' ∧ Inserted m m' ⟨base, length, type⟩) ∨
    (m.size = pmmMapMaxEntries ∧
      (setInsert m base length type = .error (.panic "memory map overflow" []) ∨
        setInsert m base length type = .error .fault ∧ ∀ s ∈ m.live, s.base ≤ base)) := by
  obtain ⟨pre, post, hlive, hidx, hpre, hpost⟩ := live_eq_of_clear ht hc hl
  have hsize : m.size = pre.length + post.length := by
    rw [← live_length, hlive, List.length_append]
  have hadd : ∀ s ∈ m.live, add64 s.base s.length = s.stop := fun s hs ↦ add64_eq (hb s hs)
  have hprev : ∀ p ∈ pre.getLast?, pre.length ≠ 0 ∧ p = m.slots (pre.length - 1) := by
    intro p hp
    have hne : pre.length ≠ 0 := by
      rintro h
      rw [List.length_eq_zero_iff] at h
      simp [h] at hp
    rw [getLast?_eq_slot hlive hne] at hp
    exact ⟨hne, (Option.some.inj hp).symm⟩
  rw [setInsert, if_neg (by omega)]
  simp only [← hidx]
  split
  · -- the entry before the range continues it
    rename_i h
    obtain ⟨hne, htype, hstop⟩ := h
    have hmem : m.slots (pre.length - 1) ∈ m.live := slots_mem_live m (by omega)
    obtain ⟨l, p, rfl⟩ := (List.eq_nil_or_concat' pre).resolve_left (by
      rintro rfl; exact hne rfl)
    have hidx' : (l ++ [p]).length - 1 = l.length := by simp
    rw [hidx'] at htype hstop hmem ⊢
    rw [List.append_assoc, List.singleton_append] at hlive
    have hp : m.slots l.length = p := (slots_of_live hlive).2
    rw [hp] at htype hstop hmem ⊢
    rw [hadd p hmem] at hstop
    refine Or.inl ⟨_, rfl, l ++ [p], post, by simpa using hlive, hpre, hpost, ?_, fun j hj ↦ ?_⟩
    · rw [live_set hlive, add64_eq (by simp only [Span.stop] at hstop; omega)]
      exact Join.prev htype hstop
    · exact ⟨hj, set_slots_of_ne m _ (by simp only [set_size] at hj; simp at hsize; omega)⟩
  · rename_i hno
    have hno' : ∀ p ∈ pre.getLast?, ¬ (p.type = type ∧ p.stop = base) := by
      intro p hp hpt
      obtain ⟨hne, rfl⟩ := hprev p hp
      have := hadd _ (slots_mem_live m (i := pre.length - 1) (by omega))
      exact hno ⟨hne, hpt.1, by rw [this]; exact hpt.2⟩
    split
    · -- the array is full, and every entry begins before the range
      rename_i hfull
      have hle := m.size_le
      refine Or.inr ⟨by omega, Or.inr ⟨rfl, fun s hs ↦ ?_⟩⟩
      have hpost' : post = [] := List.length_eq_zero_iff.mp (by omega)
      rw [hlive, hpost', List.append_nil] at hs
      have := hpre s hs
      simp only [Span.stop] at this; omega
    · rename_i hroom
      split
      · -- the entry after the range continues it, and it is a live one
        rename_i h
        obtain ⟨htype, hbase⟩ := h
        rw [add64_eq he] at hbase
        cases post with
        | nil =>
          have hsz : m.size = pre.length := by simpa using hsize
          rw [← hsz] at htype hbase
          rw [hlive, List.append_nil] at ht
          refine absurd ⟨htype, hbase⟩ (hd (fun s hs ↦ ?_) fun s hs hcont ↦ ?_)
          · rw [hlive, List.append_nil] at hs
            have := hpre s hs
            simp only [Span.stop] at this; omega
          · -- an entry that ends where the range begins is the last one
            rw [hlive, List.append_nil] at hs
            obtain ⟨l, p, rfl⟩ := (List.eq_nil_or_concat' pre).resolve_left (by
              rintro rfl; simp at hs)
            rcases List.mem_append.mp hs with hsl | hsp
            · have h1 := (tiled_append.mp ht).2.2 s hsl p (by simp)
              have h2 := ht.pos p (by simp)
              have h3 := hpre p (by simp)
              simp only [Span.stop] at h1 h3 hcont; omega
            · obtain rfl := List.mem_singleton.mp hsp
              exact hno' s (by simp) hcont
        | cons q r =>
          have hq := (slots_of_live hlive).2
          have hqm : q ∈ m.live := by rw [hlive]; simp
          have hqb := hb q hqm
          rw [hq] at htype hbase ⊢
          refine Or.inl ⟨_, rfl, pre, q :: r, hlive, hpre, hpost, ?_, fun j hj ↦ ?_⟩
          · rw [live_set hlive, add64_eq (by simp only [Span.stop] at hqb; omega)]
            exact Join.next hno' htype hbase
          · exact ⟨hj, set_slots_of_ne m _ (by simp at hsize hj; omega)⟩
      · -- a new entry
        rename_i hno2
        by_cases hfull : m.size = pmmMapMaxEntries
        · exact Or.inr ⟨hfull, Or.inl (mapInsert_error hfull)⟩
        · obtain ⟨m', hm', hlive', hslots⟩ := mapInsert_ok (e := ⟨base, length, type⟩) hlive hfull
          have hsize' : m'.size = m.size + 1 := by
            rw [← live_length, hlive', hsize]; simp; omega
          refine Or.inl ⟨m', hm', pre, post, hlive, hpre, hpost, ?_, fun j hj ↦ ?_⟩
          · rw [hlive']
            refine Join.alone hno' fun q hq hqt ↦ ?_
            cases post with
            | nil => simp at hq
            | cons x r =>
              obtain rfl : x = q := by simpa using hq
              have hx := (slots_of_live hlive).2
              exact hno2 ⟨by rw [hx]; exact hqt.1, by rw [hx, add64_eq he]; exact hqt.2⟩
          · exact ⟨by omega, hslots j (by omega)⟩

/-! ## Dead slots -/

/-- Every dead slot is as the zero-initialised array had it, or holds addresses of `C` only. -/
def Stale (m : PmmMap) (C : Nat → Prop) : Prop :=
  ∀ j, m.size ≤ j → m.slots j = .zero ∨
    0 < (m.slots j).length ∧ ∀ a, (m.slots j).Contains a → C a

theorem Stale.mono {m : PmmMap} {C D : Nat → Prop} (h : Stale m C) (hCD : ∀ a, C a → D a) :
    Stale m D :=
  fun j hj ↦ (h j hj).imp_right fun ⟨hp, hc⟩ ↦ ⟨hp, fun a ha ↦ hCD a (hc a ha)⟩

theorem Stale.empty (C : Nat → Prop) : Stale .empty C := fun _ _ ↦ Or.inl rfl

theorem Stale.set {m : PmmMap} {C : Nat → Prop} (h : Stale m C) {i : Nat} (hi : i < m.size)
    (e : PmmMapEntry) : Stale (m.set i e) C := by
  intro j hj
  rw [set_slots_of_ne m e (by simp at hj; omega)]
  exact h j hj

/-- The slot `map_delete` gives up still holds the last live entry. -/
theorem Stale.mapDelete {m : PmmMap} {C : Nat → Prop} (h : Stale m C) {i : Nat} (hi : i < m.size)
    (ht : Tiled m.live) (hC : ∀ s ∈ m.live, ∀ a, s.Contains a → C a) : Stale (mapDelete m i) C := by
  intro j hj
  rw [mapDelete_size] at hj
  rw [mapDelete_slots m hi hj]
  rcases Nat.lt_or_ge j m.size with hlt | hge
  · have hmem := slots_mem_live m hlt
    exact Or.inr ⟨ht.pos _ hmem, hC _ hmem⟩
  · exact h j hge

theorem Stale.inserted {m m' : PmmMap} {s : PmmMapEntry} {C : Nat → Prop} (h : Stale m C)
    (hi : Inserted m m' s) : Stale m' C := by
  obtain ⟨-, -, -, -, -, -, hdead⟩ := hi
  intro j hj
  rw [(hdead j hj).2]
  exact h j (hdead j hj).1

/-- A dead slot never continues a range inserted at the end: the address it would have to begin at
is held by a live entry further up. -/
theorem Stale.not_continues {m : PmmMap} {C : Nat → Prop} (h : Stale m C) {base length : Nat}
    (hl : 0 < length) (hc : ∀ s ∈ m.live, s.Clear base (base + length))
    (hC : C (base + length) → ∃ s ∈ m.live, s.Contains (base + length))
    (hbase : ∀ s ∈ m.live, s.base ≤ base) : (m.slots m.size).base ≠ base + length := by
  intro heq
  rcases h m.size le_rfl with hz | ⟨hpos, hin⟩
  · rw [hz] at heq
    simp only [PmmMapEntry.zero] at heq; omega
  · have hCe : C (base + length) := hin _ ⟨heq.le, by simp only [Span.stop]; omega⟩
    obtain ⟨s, hs, hsb, hse⟩ := hC hCe
    have := hbase s hs
    rcases hc s hs with h' | h' <;> omega

end LunarPrekernel
