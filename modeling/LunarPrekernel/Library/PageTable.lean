import LunarPrekernel.Library.Memory

/-!
# Radix page tables in byte memory

A page table is a tree of 4 KiB frames with 512 words each.  A `Format` says what a word means at
each height: nothing, the frame of the next table, a leaf that maps `span h` addresses at once, or
something the hardware rejects.  `walk` is the translation the hardware makes of it.

Tables are shared by everything mapped below them, so what one update does to *other* addresses is
the question.  `Tree` is the invariant that answers it: no frame is reached in two ways, and what a
table entry allows (`Format.meet`) never takes anything away from the leaves below it.

* `Mapped` — one page is mapped: the entries on the way are widened or made, with a fresh frame for
  each new table, and the leaf is written.
* `Mapped.result` — then the page translates to the leaf, every other address translates as before,
  and no byte outside the tables has changed.
* `MappedRange.result` — the same for a run of pages one after the other.

Addresses are read modulo `span n`, for a table of `n` levels: the walk sees no other bits of them.
-/

set_option autoImplicit false

namespace PageTable

/-! ## Formats and walks -/

/-- How many addresses one entry at height `h` covers. -/
def span : Nat → Nat
  | 0 => 4096
  | h + 1 => 512 * span h

/-- The index of the entry at height `h` on the way to `a`. -/
def index (h a : Nat) : Nat := a / span h % 512

/-- What a word of a table means. -/
inductive Slot (P : Type) where
  | absent
  /-- Present, but not a translation. -/
  | bad
  | table (frame : Nat) (perm : P)
  | leaf (base : Nat) (perm : P)

/-- A page table format: what a word means at each height, and how the permissions of the entries
on the way add up. -/
structure Format (P : Type) where
  decode : Nat → Nat → Slot P
  meet : P → P → P
  decode_zero : ∀ h, decode h 0 = .absent
  decode_lowest : ∀ w g p, decode 0 w ≠ .table g p
  table_aligned : ∀ h w g p, decode h w = .table g p → 4096 ∣ g

/-- A translation: the height of the leaf, the physical address, and what may be done there. -/
structure Hit (P : Type) where
  height : Nat
  addr : Nat
  perm : P
deriving DecidableEq, Repr

section Words

/-- Word `i` of the frame `f`. -/
def word (m : Memory) (f i : Nat) : Nat := m.load (f + 8 * i) 8

/-- The memory with word `i` of the frame `f` replaced. -/
def setWord (m : Memory) (f i w : Nat) : Memory := m.store (f + 8 * i) 8 w

/-- The memory with the frame `f` cleared. -/
def clear (m : Memory) (f : Nat) : Memory := m.fill f 4096 0

/-- The address `x` lies in the frame `f`. -/
def Page (f x : Nat) : Prop := f ≤ x ∧ x < f + 4096

variable {m : Memory} {f g i j w x : Nat}

theorem word_setWord_self (hw : w < 2 ^ 64) : word (setWord m f i w) f i = w :=
  Memory.load_store_of_lt (by simpa using hw)

theorem word_setWord_of_ne (h : i ≠ j) : word (setWord m f i w) f j = word m f j :=
  Memory.load_store_of_disjoint (by omega)

theorem word_setWord_of_frame_ne (hf : 4096 ∣ f) (hg : 4096 ∣ g) (hne : g ≠ f) (hi : i < 512)
    (hj : j < 512) : word (setWord m f i w) g j = word m g j :=
  Memory.load_store_of_disjoint (by omega)

theorem word_clear_self (hi : i < 512) : word (clear m f) f i = 0 :=
  Memory.load_fill_zero (by omega) (by omega)

theorem word_clear_of_frame_ne (hf : 4096 ∣ f) (hg : 4096 ∣ g) (hne : g ≠ f) (hj : j < 512) :
    word (clear m f) g j = word m g j :=
  Memory.load_fill_of_disjoint (by omega)

theorem setWord_of_not_page (hi : i < 512) (hx : ¬ Page f x) : setWord m f i w x = m x :=
  Memory.store_of_not_mem (by unfold Page at hx; omega)

theorem clear_of_not_page (hx : ¬ Page f x) : clear m f x = m x :=
  Memory.fill_of_not_mem hx

theorem word_congr {m' : Memory} (hi : i < 512) (h : ∀ x, Page f x → m' x = m x) :
    word m' f i = word m f i :=
  Memory.load_congr fun x h1 h2 ↦ h x ⟨by omega, by omega⟩

end Words

theorem span_pos (h : Nat) : 0 < span h := by
  induction h with
  | zero => rw [span]; omega
  | succ h ih => rw [span]; omega

theorem index_lt (h a : Nat) : index h a < 512 := Nat.mod_lt _ (by omega)

variable {P : Type} (F : Format P)

/-- What a word at height `h` does with the address `a`, if it is a leaf. -/
def hit (h : Nat) (s : Slot P) (a : Nat) : Option (Hit P) :=
  match s with
  | .leaf base p => some ⟨h, base + a % span h, p⟩
  | _ => none

theorem hit_height {h : Nat} {s : Slot P} {a : Nat} {x : Hit P} (hx : hit h s a = some x) :
    x.height = h := by
  cases s <;> cases hx
  rfl

/-- The hardware walk from the frame `f` of a table with `n` levels. -/
def walk (m : Memory) : Nat → Nat → Nat → Option (Hit P)
  | 0, _, _ => none
  | h + 1, f, a =>
    match F.decode h (word m f (index h a)) with
    | .table g p => (walk m h g a).map fun x ↦ { x with perm := F.meet p x.perm }
    | s => hit h s a

/-- The frames of the tables in the tree with `n` levels at `f`. -/
def Foot (m : Memory) : Nat → Nat → Nat → Prop
  | 0, _, _ => False
  | h + 1, f, x =>
    x = f ∨ ∃ i < 512, ∃ g p, F.decode h (word m f i) = .table g p ∧ Foot m h g x

/-- A leaf is aligned, and the hardware rejects no entry but at the lowest level. -/
def Sound (h : Nat) (s : Slot P) : Prop :=
  (∀ b p, s = .leaf b p → span h ∣ b) ∧ (s = .bad → h = 0)

/-- The invariant: frames are aligned and reached in one way only, entries are sound, and a table
entry takes nothing away from what is below it. -/
def Tree (m : Memory) : Nat → Nat → Prop
  | 0, _ => True
  | h + 1, f => 4096 ∣ f ∧ (∀ i < 512, Sound h (F.decode h (word m f i))) ∧
    (∀ i < 512, ∀ g p, F.decode h (word m f i) = .table g p →
      Tree m h g ∧ ¬ Foot F m h g f ∧
        ∀ a x, walk F m h g a = some x → F.meet p x.perm = x.perm) ∧
    ∀ i < 512, ∀ j < 512, i ≠ j → ∀ g p g' p', F.decode h (word m f i) = .table g p →
      F.decode h (word m f j) = .table g' p' → ∀ x, Foot F m h g x → ¬ Foot F m h g' x

variable {F} {m m' : Memory} {h f : Nat}

theorem walk_table {a g : Nat} {p : P}
    (hd : F.decode h (word m f (index h a)) = .table g p) :
    walk F m (h + 1) f a = (walk F m h g a).map fun x ↦ { x with perm := F.meet p x.perm } := by
  rw [walk, hd]

theorem walk_of_not_table {a : Nat}
    (hd : ∀ g p, F.decode h (word m f (index h a)) ≠ .table g p) :
    walk F m (h + 1) f a = hit h (F.decode h (word m f (index h a))) a := by
  rw [walk]
  split
  · rename_i g p hs
    exact absurd hs (hd g p)
  · rfl

/-- A table entry that takes nothing away shows what is below it. -/
theorem map_meet_eq {g : Nat} {p : P}
    (hn : ∀ a x, walk F m h g a = some x → F.meet p x.perm = x.perm) (a : Nat) :
    ((walk F m h g a).map fun x ↦ { x with perm := F.meet p x.perm }) = walk F m h g a := by
  cases hw : walk F m h g a with
  | none => rfl
  | some x => rw [Option.map_some, hn a x hw]

/-- Leaves are below the top. -/
theorem walk_height {n a : Nat} {x : Hit P} (hx : walk F m n f a = some x) : x.height < n := by
  induction n generalizing f x with
  | zero => cases hx
  | succ n ih =>
    cases hd : F.decode n (word m f (index n a)) with
    | table g p =>
      rw [walk_table hd] at hx
      obtain ⟨y, hy, rfl⟩ := Option.map_eq_some_iff.mp hx
      have := ih hy
      exact Nat.lt_succ_of_lt this
    | leaf b p =>
      rw [walk_of_not_table (by rw [hd]; simp), hd] at hx
      cases hx
      exact Nat.lt_succ_self n
    | _ =>
      rw [walk_of_not_table (by rw [hd]; simp), hd] at hx
      cases hx

theorem foot_self : Foot F m (h + 1) f f := Or.inl rfl

theorem foot_root {n : Nat} (hn : 0 < n) : Foot F m n f f := by
  obtain ⟨k, rfl⟩ : ∃ k, n = k + 1 := ⟨n - 1, by omega⟩
  exact foot_self

theorem foot_child {i g x : Nat} {p : P} (hi : i < 512)
    (hd : F.decode h (word m f i) = .table g p) (hx : Foot F m h g x) : Foot F m (h + 1) f x :=
  Or.inr ⟨i, hi, g, p, hd, hx⟩

theorem Tree.foot_aligned (ht : Tree F m h f) {x : Nat} (hx : Foot F m h f x) : 4096 ∣ x := by
  induction h generalizing f with
  | zero => exact hx.elim
  | succ h ih =>
    rcases hx with rfl | ⟨i, hi, g, p, hd, hx⟩
    · exact ht.1
    · exact ih (ht.2.2.1 i hi g p hd).1 hx

variable (F) in
/-- The height and the word that the walk of `a` ends at. -/
def last (m : Memory) : Nat → Nat → Nat → Option (Nat × Nat)
  | 0, _, _ => none
  | h + 1, f, a =>
    match F.decode h (word m f (index h a)) with
    | .table g _ => last m h g a
    | _ => some (h, word m f (index h a))

/-- Every walk ends at a sound entry. -/
theorem Tree.sound_last {n a w : Nat} (ht : Tree F m n f) (hl : last F m n f a = some (h, w)) :
    Sound h (F.decode h w) := by
  induction n generalizing f with
  | zero => cases hl
  | succ n ih =>
    have hi := index_lt n a
    rw [last] at hl
    split at hl
    · rename_i g p hd
      exact ih (ht.2.2.1 _ hi g p hd).1 hl
    · cases hl
      exact ht.2.1 _ hi

/-! ## The tree depends on its own frames only -/

/-- `m'` has the words of `m` in the frames of the tree. -/
def SameWords (F : Format P) (m m' : Memory) (h f : Nat) : Prop :=
  ∀ g, Foot F m h f g → ∀ i < 512, word m' g i = word m g i

theorem SameWords.child (hs : SameWords F m m' (h + 1) f) {i g : Nat} {p : P} (hi : i < 512)
    (hd : F.decode h (word m f i) = .table g p) : SameWords F m m' h g :=
  fun x hx j hj ↦ hs x (foot_child hi hd hx) j hj

theorem SameWords.foot (hs : SameWords F m m' h f) (x : Nat) :
    Foot F m' h f x ↔ Foot F m h f x := by
  induction h generalizing f with
  | zero => rfl
  | succ h ih =>
    have hf : ∀ i < 512, word m' f i = word m f i := hs f foot_self
    refine or_congr_right (exists_congr fun i ↦ and_congr_right fun hi ↦ ?_)
    rw [hf i hi]
    refine exists_congr fun g ↦ exists_congr fun p ↦ and_congr_right fun hd ↦ ?_
    exact ih (hs.child hi hd)

theorem SameWords.walk (hs : SameWords F m m' h f) (a : Nat) :
    walk F m' h f a = walk F m h f a := by
  induction h generalizing f with
  | zero => rfl
  | succ h ih =>
    have hf := hs f foot_self _ (index_lt h a)
    cases hd : F.decode h (word m f (index h a)) with
    | table g p =>
      rw [walk_table hd, walk_table (by rw [hf]; exact hd), ih (hs.child (index_lt h a) hd)]
    | _ =>
      rw [walk_of_not_table (by rw [hf, hd]; simp), walk_of_not_table (by rw [hd]; simp), hf]

theorem SameWords.tree (hs : SameWords F m m' h f) (ht : Tree F m h f) : Tree F m' h f := by
  induction h generalizing f with
  | zero => exact trivial
  | succ h ih =>
    have hf : ∀ i < 512, word m' f i = word m f i := hs f foot_self
    obtain ⟨hal, hsound, hsub, hdisj⟩ := ht
    refine ⟨hal, fun i hi ↦ ?_, fun i hi g p hd ↦ ?_, fun i hi j hj hij g p g' p' hd hd' x hx ↦ ?_⟩
    · rw [hf i hi]
      exact hsound i hi
    · rw [hf i hi] at hd
      obtain ⟨htg, hfg, hn⟩ := hsub i hi g p hd
      have hsg := hs.child hi hd
      refine ⟨ih hsg htg, fun hff ↦ hfg ((hsg.foot f).mp hff), fun a x hx ↦ hn a x ?_⟩
      rwa [hsg.walk] at hx
    · rw [hf i hi] at hd
      rw [hf j hj] at hd'
      rw [(hs.child hi hd).foot] at hx
      rw [(hs.child hj hd').foot]
      exact hdisj i hi j hj hij g p g' p' hd hd' x hx

/-! ## Mapping one page -/

/-- `a` and `b` go through the same entries from the top of `n` levels down to height `t`. -/
def Same (n t a b : Nat) : Prop := ∀ k, t ≤ k → k < n → index k b = index k a

theorem Same.mono {n t t' a b : Nat} (h : Same n t a b) (ht : t ≤ t') : Same n t' a b :=
  fun k hk hkn ↦ h k (ht.trans hk) hkn

theorem Same.symm {n t a b : Nat} (h : Same n t a b) : Same n t b a :=
  fun k hk hkn ↦ (h k hk hkn).symm

theorem Same.trans {n t a b c : Nat} (h : Same n t a b) (h' : Same n t b c) : Same n t a c :=
  fun k hk hkn ↦ (h' k hk hkn).trans (h k hk hkn)

theorem same_succ {n t a b : Nat} (ht : t ≤ n) :
    Same (n + 1) t a b ↔ index n b = index n a ∧ Same n t a b := by
  constructor
  · intro hs
    exact ⟨hs n ht (by omega), fun k hk hkn ↦ hs k hk (by omega)⟩
  · rintro ⟨hn, hs⟩ k hk hkn
    rcases Nat.lt_or_ge k n with hlt | hge
    · exact hs k hk hlt
    · obtain rfl : k = n := by omega
      exact hn

/-- The entry allows all that the leaf `s` does. -/
def Neutral (F : Format P) (p : P) (s : Slot P) : Prop := ∀ b r, s = .leaf b r → F.meet p r = r

/-- A word that can be written as a leaf at height `t`. -/
structure LeafWord (F : Format P) (t w : Nat) : Prop where
  lt : w < 2 ^ 64
  not_table : ∀ g p, F.decode t w ≠ .table g p
  sound : Sound t (F.decode t w)

/-- `Mapped F t a w U m n f U' m'`: on the way from the table `f` with `n` levels to the entry at
height `t` for `a`, table entries are widened and missing tables are made, and `w` is written
there.  `U` and `U'` are the frames that are in use before and after. -/
inductive Mapped (F : Format P) (t a w : Nat) :
    (Nat → Prop) → Memory → Nat → Nat → (Nat → Prop) → Memory → Prop
  | leaf {U : Nat → Prop} {m : Memory} {f : Nat} :
      Mapped F t a w U m (t + 1) f U (setWord m f (index t a) w)
  | table {U U' : Nat → Prop} {m m' : Memory} {h f g w' : Nat} {p p' : P} (ht : t < h)
      (hd : F.decode h (word m f (index h a)) = .table g p) (hw : w' < 2 ^ 64)
      (hd' : F.decode h w' = .table g p') (hle : ∀ r, F.meet p r = r → F.meet p' r = r)
      (hq : Neutral F p' (F.decode t w))
      (next : Mapped F t a w U (setWord m f (index h a) w') h g U' m') :
      Mapped F t a w U m (h + 1) f U' m'
  | fresh {U U' : Nat → Prop} {m m' : Memory} {h f g w' : Nat} {p' : P} (ht : t < h)
      (hd : F.decode h (word m f (index h a)) = .absent) (hg : ¬ U g) (hw : w' < 2 ^ 64)
      (hd' : F.decode h w' = .table g p') (hq : Neutral F p' (F.decode t w))
      (next : Mapped F t a w (fun x ↦ x = g ∨ U x) (setWord (clear m g) f (index h a) w') h g
        U' m') :
      Mapped F t a w U m (h + 1) f U' m'

/-- What mapping a page comes to. -/
structure Result (F : Format P) (t a w : Nat) (U : Nat → Prop) (m : Memory) (n f : Nat)
    (U' : Nat → Prop) (m' : Memory) : Prop where
  tree : Tree F m' n f
  /-- The addresses of the page have the leaf. -/
  here : ∀ b, Same n t a b → walk F m' n f b = hit t (F.decode t w) b
  /-- All others have what they had. -/
  elsewhere : ∀ b, ¬ Same n t a b → walk F m' n f b = walk F m n f b
  mono : ∀ x, U x → U' x
  aligned : ∀ x, U' x → ¬ U x → 4096 ∣ x
  foot : ∀ x, Foot F m' n f x → U' x ∧ (Foot F m n f x ∨ ¬ U x)
  /-- Only frames of the tree and new frames are written. -/
  frame : ∀ x, (∀ y, Foot F m n f y → ¬ Page y x) → (∀ y, U' y → ¬ U y → ¬ Page y x) →
    m' x = m x

/-- Entry `i` of the table `f` leads to `g` in `m₁`, and nothing else has changed since `m`. -/
structure Entered (F : Format P) (U : Nat → Prop) (m : Memory) (h f i : Nat) (U₁ : Nat → Prop)
    (m₁ : Memory) (g : Nat) (p : P) : Prop where
  entry : F.decode h (word m₁ f i) = .table g p
  others : ∀ j < 512, j ≠ i → word m₁ f j = word m f j
  siblings : ∀ j < 512, j ≠ i → ∀ g' q, F.decode h (word m f j) = .table g' q →
    SameWords F m m₁ h g' ∧ ∀ x, Foot F m h g' x → ¬ Foot F m₁ h g x
  tree : Tree F m₁ h g
  apart : ¬ Foot F m₁ h g f
  neutral : ∀ b x, walk F m₁ h g b = some x → F.meet p x.perm = x.perm
  walk_eq : ∀ b, index h b = i → walk F m₁ h g b = walk F m (h + 1) f b
  foot : ∀ x, Foot F m₁ h g x → U₁ x ∧ (Foot F m (h + 1) f x ∨ ¬ U x)
  mono : ∀ x, U x → U₁ x
  aligned : ∀ x, U₁ x → ¬ U x → 4096 ∣ x
  frame : ∀ x, (∀ y, Foot F m (h + 1) f y → ¬ Page y x) → (∀ y, U₁ y → ¬ U y → ¬ Page y x) →
    m₁ x = m x

theorem not_page_of_ne {y z x : Nat} (hy : 4096 ∣ y) (hz : 4096 ∣ z) (hne : y ≠ z)
    (hx : Page z x) : ¬ Page y x := by
  unfold Page at *
  omega

section Step

variable {U U₁ U' : Nat → Prop} {m₁ : Memory} {t a w g i : Nat} {p p' : P}

/-- A frame in use that is not below `g` keeps its words while the rest of the way is mapped. -/
theorem Entered.keeps (he : Entered F U m h f i U₁ m₁ g p)
    (hr : Result F t a w U₁ m₁ h g U' m') {y : Nat} (hy : 4096 ∣ y) (hyU : U y)
    (hyf : ¬ Foot F m₁ h g y) {k : Nat} (hk : k < 512) : word m' y k = word m₁ y k := by
  refine word_congr hk fun x hx ↦ hr.frame x (fun z hz ↦ ?_) fun z hz hz₁ ↦ ?_
  · refine not_page_of_ne (he.tree.foot_aligned hz) hy ?_ hx
    rintro rfl
    exact hyf hz
  · refine not_page_of_ne (hr.aligned z hz hz₁) hy ?_ hx
    rintro rfl
    exact hz₁ (he.mono _ hyU)

/-- If the rest of the way is mapped as it should, so is the whole. -/
theorem Entered.result (he : Entered F U m h f i U₁ m₁ g p) (ht : Tree F m (h + 1) f)
    (hU : ∀ x, Foot F m (h + 1) f x → U x) (hth : t ≤ h) (hi : index h a = i)
    (hq : Neutral F p (F.decode t w)) (hr : Result F t a w U₁ m₁ h g U' m') :
    Result F t a w U m (h + 1) f U' m' := by
  have hi' : i < 512 := hi ▸ index_lt h a
  have hfU : U f := hU f foot_self
  obtain ⟨hal, hsound, hsub, hdisj⟩ := ht
  have hf : ∀ j < 512, word m' f j = word m₁ f j := fun j hj ↦ he.keeps hr hal hfU he.apart hj
  have hfi : F.decode h (word m' f i) = .table g p := by rw [hf i hi', he.entry]
  have hfj : ∀ j < 512, j ≠ i → word m' f j = word m f j := fun j hj hji ↦ by
    rw [hf j hj, he.others j hj hji]
  have hsib : ∀ j < 512, j ≠ i → ∀ g' q, F.decode h (word m f j) = .table g' q →
      SameWords F m m' h g' := by
    intro j hj hji g' q hd y hy k hk
    obtain ⟨hsame, hapart⟩ := he.siblings j hj hji g' q hd
    rw [he.keeps hr ((hsub j hj g' q hd).1.foot_aligned hy) (hU y (foot_child hj hd hy))
      (hapart y hy) hk, hsame y hy k hk]
  -- the leaf that was written, or a leaf that was there, is not narrowed by the entry
  have hneutral : ∀ b x, walk F m' h g b = some x → F.meet p x.perm = x.perm := by
    intro b x hx
    by_cases hs : Same h t a b
    · rw [hr.here b hs] at hx
      unfold hit at hx
      split at hx
      · rename_i base r hd
        cases hx
        exact hq base r hd
      · cases hx
    · rw [hr.elsewhere b hs] at hx
      exact he.neutral b x hx
  have hfootU : ∀ x, Foot F m' h g x → U' x ∧ (Foot F m (h + 1) f x ∨ ¬ U x) := by
    intro x hx
    obtain ⟨hx', hold | hnew⟩ := hr.foot x hx
    · exact ⟨hx', (he.foot x hold).2⟩
    · exact ⟨hx', Or.inr fun hxU ↦ hnew (he.mono x hxU)⟩
  have hapart : ∀ j < 512, j ≠ i → ∀ g' q, F.decode h (word m f j) = .table g' q →
      ∀ x, Foot F m h g' x → ¬ Foot F m' h g x := by
    intro j hj hji g' q hd x hx hx'
    rcases (hr.foot x hx').2 with hold | hnew
    · exact (he.siblings j hj hji g' q hd).2 x hx hold
    · exact hnew (he.mono x (hU x (foot_child hj hd hx)))
  refine ⟨⟨hal, fun j hj ↦ ?_, fun j hj g' q hd ↦ ?_, ?_⟩, fun b hs ↦ ?_, fun b hs ↦ ?_,
    fun x hx ↦ hr.mono x (he.mono x hx), fun x hx hxU ↦ ?_, fun x hx ↦ ?_, fun x hx hxn ↦ ?_⟩
  · -- soundness
    rcases eq_or_ne j i with rfl | hji
    · rw [hfi]
      exact ⟨by simp, by simp⟩
    · rw [hfj j hj hji]
      exact hsound j hj
  · -- the subtrees
    rcases eq_or_ne j i with rfl | hji
    · rw [hfi] at hd
      cases hd
      refine ⟨hr.tree, fun hff ↦ ?_, hneutral⟩
      rcases (hr.foot f hff).2 with hold | hnew
      · exact he.apart hold
      · exact hnew (he.mono f hfU)
    · rw [hfj j hj hji] at hd
      have hs := hsib j hj hji g' q hd
      obtain ⟨htg, hfg, hn⟩ := hsub j hj g' q hd
      refine ⟨hs.tree htg, fun hff ↦ hfg ((hs.foot f).mp hff), fun b x hx ↦ hn b x ?_⟩
      rwa [hs.walk] at hx
  · -- no frame is reached in two ways
    intro j hj k hk hjk g₁ p₁ g₂ p₂ hd₁ hd₂ x hx₁ hx₂
    rcases eq_or_ne j i with rfl | hji
    · rw [hfi] at hd₁
      cases hd₁
      rw [hfj k hk hjk.symm] at hd₂
      rw [(hsib k hk hjk.symm _ _ hd₂).foot] at hx₂
      exact hapart k hk hjk.symm _ _ hd₂ x hx₂ hx₁
    · rw [hfj j hj hji] at hd₁
      rw [(hsib j hj hji _ _ hd₁).foot] at hx₁
      rcases eq_or_ne k i with rfl | hki
      · rw [hfi] at hd₂
        cases hd₂
        exact hapart j hj hji _ _ hd₁ x hx₁ hx₂
      · rw [hfj k hk hki] at hd₂
        rw [(hsib k hk hki _ _ hd₂).foot] at hx₂
        exact hdisj j hj k hk hjk _ _ _ _ hd₁ hd₂ x hx₁ hx₂
  · -- the page
    obtain ⟨hb, hs⟩ := (same_succ hth).mp hs
    rw [walk_table (by rw [hb, hi]; exact hfi), map_meet_eq hneutral, hr.here b hs]
  · -- every other address
    by_cases hb : index h b = i
    · have hs' : ¬ Same h t a b := fun hs' ↦ hs ((same_succ hth).mpr ⟨hb.trans hi.symm, hs'⟩)
      rw [walk_table (by rw [hb]; exact hfi), map_meet_eq hneutral, hr.elsewhere b hs',
        he.walk_eq b hb]
    · have hw := hfj _ (index_lt h b) hb
      cases hd : F.decode h (word m f (index h b)) with
      | table g' q =>
        rw [walk_table (by rw [hw]; exact hd), walk_table hd,
          (hsib _ (index_lt h b) hb g' q hd).walk]
      | _ => rw [walk_of_not_table (by rw [hw, hd]; simp), walk_of_not_table (by rw [hd]; simp), hw]
  · by_cases hx₁ : U₁ x
    · exact he.aligned x hx₁ hxU
    · exact hr.aligned x hx hx₁
  · rcases hx with rfl | ⟨j, hj, g', q, hd, hx⟩
    · exact ⟨hr.mono _ (he.mono _ hfU), Or.inl foot_self⟩
    · rcases eq_or_ne j i with rfl | hji
      · rw [hfi] at hd
        cases hd
        exact hfootU x hx
      · rw [hfj j hj hji] at hd
        rw [(hsib j hj hji g' q hd).foot] at hx
        have hx' := foot_child hj hd hx
        exact ⟨hr.mono x (he.mono x (hU x hx')), Or.inl hx'⟩
  · rw [hr.frame x (fun y hy ↦ ?_) fun y hy hyU ↦ hxn y hy fun h ↦ hyU (he.mono y h),
      he.frame x hx fun y hy ↦ hxn y (hr.mono y hy)]
    obtain ⟨hyU, hold | hnew⟩ := he.foot y hy
    · exact hx y hold
    · exact hxn y (hr.mono y hyU) hnew

/-- Writing the leaf. -/
theorem leaf_result (hw : LeafWord F t w) (ht : Tree F m (t + 1) f)
    (hU : ∀ x, Foot F m (t + 1) f x → U x) :
    Result F t a w U m (t + 1) f U (setWord m f (index t a) w) := by
  obtain ⟨hal, hsound, hsub, hdisj⟩ := ht
  set i := index t a with hidx
  have hi : i < 512 := index_lt t a
  have hself : word (setWord m f i w) f i = w := word_setWord_self hw.lt
  have hne : ∀ j, j ≠ i → word (setWord m f i w) f j = word m f j := fun j hj ↦
    word_setWord_of_ne hj.symm
  have hsib : ∀ j < 512, ∀ g' q, F.decode t (word m f j) = .table g' q →
      SameWords F m (setWord m f i w) t g' := by
    intro j hj g' q hd y hy k hk
    refine word_setWord_of_frame_ne hal ((hsub j hj g' q hd).1.foot_aligned hy) ?_ hi hk
    rintro rfl
    exact (hsub j hj g' q hd).2.1 hy
  have hkeep : ∀ {j g' q}, F.decode t (word (setWord m f i w) f j) = .table g' q →
      j ≠ i ∧ F.decode t (word m f j) = .table g' q := by
    intro j g' q hd
    rcases eq_or_ne j i with rfl | hji
    · rw [hself] at hd
      exact absurd hd (hw.not_table g' q)
    · exact ⟨hji, by rwa [hne j hji] at hd⟩
  refine ⟨⟨hal, fun j hj ↦ ?_, fun j hj g' q hd ↦ ?_, ?_⟩, fun b hs ↦ ?_, fun b hs ↦ ?_,
    fun x hx ↦ hx, fun x hx hxU ↦ absurd hx hxU, fun x hx ↦ ?_, fun x hx _ ↦ ?_⟩
  · rcases eq_or_ne j i with rfl | hji
    · rw [hself]
      exact hw.sound
    · rw [hne j hji]
      exact hsound j hj
  · obtain ⟨hji, hd⟩ := hkeep hd
    have hs := hsib j hj g' q hd
    obtain ⟨htg, hfg, hn⟩ := hsub j hj g' q hd
    refine ⟨hs.tree htg, fun hff ↦ hfg ((hs.foot f).mp hff), fun b x hx ↦ hn b x ?_⟩
    rwa [hs.walk] at hx
  · intro j hj k hk hjk g₁ p₁ g₂ p₂ hd₁ hd₂ x hx₁ hx₂
    obtain ⟨-, hd₁⟩ := hkeep hd₁
    obtain ⟨-, hd₂⟩ := hkeep hd₂
    rw [(hsib j hj _ _ hd₁).foot] at hx₁
    rw [(hsib k hk _ _ hd₂).foot] at hx₂
    exact hdisj j hj k hk hjk _ _ _ _ hd₁ hd₂ x hx₁ hx₂
  · have hb : index t b = i := hs t le_rfl (by omega)
    rw [walk_of_not_table (by rw [hb, hself]; exact hw.not_table), hb, hself]
  · have hb : index t b ≠ i := fun hb ↦ hs fun k hk hk' ↦ by
      obtain rfl : k = t := by omega
      exact hb
    cases hd : F.decode t (word m f (index t b)) with
    | table g' q =>
      rw [walk_table (by rw [hne _ hb]; exact hd), walk_table hd,
        (hsib _ (index_lt t b) g' q hd).walk]
    | _ =>
      rw [walk_of_not_table (by rw [hne _ hb, hd]; simp), walk_of_not_table (by rw [hd]; simp),
        hne _ hb]
  · have hx' : Foot F m (t + 1) f x := by
      rcases hx with rfl | ⟨j, hj, g', q, hd, hx⟩
      · exact foot_self
      · obtain ⟨-, hd⟩ := hkeep hd
        rw [(hsib j hj g' q hd).foot] at hx
        exact foot_child hj hd hx
    exact ⟨hU x hx', Or.inl hx'⟩
  · exact setWord_of_not_page hi (hx f foot_self)

/-- Going down through a table that is there, widening its entry. -/
theorem entered_table {w' : Nat} (ht : Tree F m (h + 1) f)
    (hU : ∀ x, Foot F m (h + 1) f x → U x) (hi : i < 512)
    (hd : F.decode h (word m f i) = .table g p) (hw : w' < 2 ^ 64)
    (hd' : F.decode h w' = .table g p') (hle : ∀ r, F.meet p r = r → F.meet p' r = r) :
    Entered F U m h f i U (setWord m f i w') g p' := by
  obtain ⟨hal, -, hsub, hdisj⟩ := ht
  have hsib : ∀ j < 512, ∀ g' q, F.decode h (word m f j) = .table g' q →
      SameWords F m (setWord m f i w') h g' := by
    intro j hj g' q hdj y hy k hk
    refine word_setWord_of_frame_ne hal ((hsub j hj g' q hdj).1.foot_aligned hy) ?_ hi hk
    rintro rfl
    exact (hsub j hj g' q hdj).2.1 hy
  have hs := hsib i hi g p hd
  obtain ⟨htg, hfg, hn⟩ := hsub i hi g p hd
  refine ⟨by rw [word_setWord_self hw, hd'], fun j _ hji ↦ word_setWord_of_ne hji.symm,
    fun j hj hji g' q hdj ↦ ⟨hsib j hj g' q hdj, fun x hx ↦ ?_⟩, hs.tree htg,
    fun hff ↦ hfg ((hs.foot f).mp hff), fun b x hx ↦ ?_, fun b hb ↦ ?_, fun x hx ↦ ?_,
    fun x hx ↦ hx, fun x hx hxU ↦ absurd hx hxU, fun x hx _ ↦ ?_⟩
  · rw [hs.foot]
    exact hdisj j hj i hi hji g' q g p hdj hd x hx
  · rw [hs.walk] at hx
    exact hle _ (hn b x hx)
  · rw [hs.walk, walk_table (by rw [hb]; exact hd), map_meet_eq hn]
  · have hx' := foot_child hi hd ((hs.foot x).mp hx)
    exact ⟨hU x hx', Or.inl hx'⟩
  · exact setWord_of_not_page hi (hx f foot_self)

/-- A table without entries. -/
theorem tree_of_zero {n : Nat} (hal : 4096 ∣ f) (h0 : ∀ k < 512, word m f k = 0) :
    Tree F m (n + 1) f ∧ (∀ x, Foot F m (n + 1) f x → x = f) ∧
      ∀ b, walk F m (n + 1) f b = none := by
  refine ⟨⟨hal, fun k hk ↦ ?_, fun k hk g q hd ↦ ?_, fun k hk l _ _ g q _ _ hd ↦ ?_⟩,
    fun x hx ↦ ?_, fun b ↦ ?_⟩
  · rw [h0 k hk, F.decode_zero]
    exact ⟨by simp, by simp⟩
  · rw [h0 k hk, F.decode_zero] at hd
    cases hd
  · rw [h0 k hk, F.decode_zero] at hd
    cases hd
  · rcases hx with rfl | ⟨k, hk, g, q, hd, -⟩
    · rfl
    · rw [h0 k hk, F.decode_zero] at hd
      cases hd
  · rw [walk_of_not_table (by rw [h0 _ (index_lt n b), F.decode_zero]; simp),
      h0 _ (index_lt n b), F.decode_zero]
    rfl

/-- A cleared frame is a table without entries. -/
theorem clear_tree {n : Nat} (hal : 4096 ∣ f) :
    Tree F (clear m f) (n + 1) f ∧ (∀ x, Foot F (clear m f) (n + 1) f x → x = f) ∧
      ∀ b, walk F (clear m f) (n + 1) f b = none :=
  tree_of_zero hal fun _ hk ↦ word_clear_self hk

/-- Going down through a table that is made on the way, in a fresh frame. -/
theorem entered_fresh {w' : Nat} (ht : Tree F m (h + 1) f)
    (hU : ∀ x, Foot F m (h + 1) f x → U x) (hi : i < 512) (hh : 0 < h)
    (hd : F.decode h (word m f i) = .absent) (hg : ¬ U g) (hw : w' < 2 ^ 64)
    (hd' : F.decode h w' = .table g p') :
    Entered F U m h f i (fun x ↦ x = g ∨ U x) (setWord (clear m g) f i w') g p' := by
  obtain ⟨hal, -, hsub, hdisj⟩ := ht
  obtain ⟨h, rfl⟩ : ∃ k, h = k + 1 := ⟨h - 1, by omega⟩
  have hgal := F.table_aligned _ _ _ _ hd'
  have hgf : g ≠ f := by
    rintro rfl
    exact hg (hU _ foot_self)
  have hzero : ∀ k < 512, word (setWord (clear m g) f i w') g k = 0 := fun k hk ↦ by
    rw [word_setWord_of_frame_ne hal hgal hgf hi hk, word_clear_self hk]
  have hsib : ∀ j < 512, ∀ g' q, F.decode (h + 1) (word m f j) = .table g' q →
      SameWords F m (setWord (clear m g) f i w') (h + 1) g' := by
    intro j hj g' q hdj y hy k hk
    have hyal := (hsub j hj g' q hdj).1.foot_aligned hy
    rw [word_setWord_of_frame_ne hal hyal ?_ hi hk, word_clear_of_frame_ne hgal hyal ?_ hk]
    · rintro rfl
      exact hg (hU _ (foot_child hj hdj hy))
    · rintro rfl
      exact (hsub j hj g' q hdj).2.1 hy
  obtain ⟨htree, hfoot, hwalk⟩ := tree_of_zero (F := F) (n := h) hgal hzero
  refine ⟨by rw [word_setWord_self hw, hd'], fun j hj hji ↦ ?_,
    fun j hj hji g' q hdj ↦ ⟨hsib j hj g' q hdj, fun x hx ↦ ?_⟩, ?_, ?_, fun b x hx ↦ ?_,
    fun b hb ↦ ?_, fun x hx ↦ ?_, fun x hx ↦ Or.inr hx, fun x hx hxU ↦ ?_, fun x hx hxn ↦ ?_⟩
  · rw [word_setWord_of_ne hji.symm, word_clear_of_frame_ne hgal hal hgf.symm hj]
  · intro hx'
    obtain rfl := hfoot x hx'
    exact hg (hU _ (foot_child hj hdj hx))
  · exact htree
  · exact fun hff ↦ hgf (hfoot f hff).symm
  · rw [hwalk] at hx
    cases hx
  · rw [hwalk, walk_of_not_table (by rw [hb, hd]; simp), hb, hd]
    rfl
  · obtain rfl := hfoot x hx
    exact ⟨Or.inl rfl, Or.inr hg⟩
  · rcases hx with rfl | hx
    · exact hgal
    · exact absurd hx hxU
  · rw [setWord_of_not_page hi (hx f foot_self), clear_of_not_page (hxn g (Or.inl rfl) hg)]

/-- **Mapping one page** gives the page its leaf and changes nothing else. -/
theorem Mapped.result {n : Nat} (hm : Mapped F t a w U m n f U' m') (hw : LeafWord F t w)
    (ht : Tree F m n f) (hU : ∀ x, Foot F m n f x → U x) : Result F t a w U m n f U' m' := by
  induction hm with
  | leaf => exact leaf_result hw ht hU
  | table hth hd hlt hd' hle hq _ ih =>
    have he := entered_table ht hU (index_lt _ a) hd hlt hd' hle
    exact he.result ht hU hth.le rfl hq (ih he.tree fun x hx ↦ (he.foot x hx).1)
  | fresh hth hd hg hlt hd' hq _ ih =>
    have he := entered_fresh ht hU (index_lt _ a) (by omega) hd hg hlt hd'
    exact he.result ht hU hth.le rfl hq (ih he.tree fun x hx ↦ (he.foot x hx).1)

end Step

/-! ## Which addresses a page holds -/

theorem span_eq (h : Nat) : span h = 2 ^ (12 + 9 * h) := by
  induction h with
  | zero => rw [span]; norm_num
  | succ h ih =>
    rw [span, ih]
    ring

theorem span_dvd {t h : Nat} (ht : t ≤ h) : span t ∣ span h := by
  rw [span_eq, span_eq]
  exact Nat.pow_dvd_pow 2 (by omega)

theorem page_dvd_span (h : Nat) : 4096 ∣ span h := span_dvd (t := 0) (Nat.zero_le h)

/-- The top entry, and what is left of the address below it. -/
theorem mod_span_succ (h a : Nat) : a % span (h + 1) = a % span h + span h * index h a := by
  rw [span, Nat.mul_comm, Nat.mod_mul, index]

theorem same_iff {n t : Nat} (ht : t ≤ n) (a b : Nat) :
    Same n t a b ↔ b % span n / span t = a % span n / span t := by
  induction n with
  | zero =>
    obtain rfl : t = 0 := by omega
    have h0 : ∀ c, c % span 0 / span 0 = 0 := fun c ↦
      Nat.div_eq_of_lt (Nat.mod_lt _ (span_pos 0))
    rw [h0, h0]
    exact ⟨fun _ ↦ rfl, fun _ k _ hk ↦ by omega⟩
  | succ n ih =>
    rcases Nat.eq_or_lt_of_le ht with rfl | hlt
    · have h0 : ∀ c, c % span (n + 1) / span (n + 1) = 0 := fun c ↦
        Nat.div_eq_of_lt (Nat.mod_lt _ (span_pos _))
      rw [h0, h0]
      exact ⟨fun _ ↦ rfl, fun _ k hk hk' ↦ by omega⟩
    · have htn : t ≤ n := by omega
      obtain ⟨c, hc⟩ := span_dvd htn
      have hpos := span_pos t
      have hc0 : 0 < c := Nat.pos_of_mul_pos_left (hc ▸ span_pos n)
      have hdiv : ∀ x, x % span (n + 1) / span t = x % span n / span t + c * index n x := by
        intro x
        rw [mod_span_succ, hc, Nat.mul_assoc, Nat.add_mul_div_left _ _ hpos]
      have hsmall : ∀ x, x % span n / span t < c := by
        intro x
        have := Nat.mod_lt x (span_pos n)
        exact Nat.div_lt_of_lt_mul (by rwa [← hc])
      rw [same_succ htn, ih htn, hdiv, hdiv]
      constructor
      · rintro ⟨h1, h2⟩
        rw [h1, h2]
      · intro h
        have ha := hsmall a
        have hb := hsmall b
        -- two numbers below `c`, with multiples of `c` added
        have hidx : index n b = index n a := by
          have h1 := congrArg (· / c) h
          simp only [Nat.add_mul_div_left _ _ hc0, Nat.div_eq_of_lt ha, Nat.div_eq_of_lt hb,
            Nat.zero_add] at h1
          exact h1
        rw [hidx] at h
        exact ⟨hidx, by omega⟩

/-- An aligned page holds the addresses of its stretch. -/
theorem same_iff_mem {n t a : Nat} (ht : t ≤ n) (ha : span t ∣ a) (b : Nat) :
    Same n t a b ↔ a % span n ≤ b % span n ∧ b % span n < a % span n + span t := by
  have hpos := span_pos t
  have had : span t ∣ a % span n := (Nat.dvd_mod_iff (span_dvd ht)).mpr ha
  obtain ⟨c, hc⟩ := had
  rw [same_iff ht, hc, Nat.mul_div_cancel_left _ hpos, Nat.div_eq_iff hpos, Nat.mul_comm c]
  omega

/-- The rest of a run that fits in the window of the table fits too. -/
theorem mod_add_le {n v k len : Nat} (hfit : v % span n + len ≤ span n) (hk : k ≤ len) :
    (v + k) % span n + (len - k) ≤ span n := by
  rw [← Nat.mod_add_mod]
  rcases Nat.lt_or_ge (v % span n + k) (span n) with hlt | hge
  · rw [Nat.mod_eq_of_lt hlt]
    omega
  · rw [show v % span n + k = span n by omega, Nat.mod_self]
    omega

/-! ## The two halves of the address space -/

theorem span_eq_two_mul (n : Nat) : span n = 2 * 2 ^ (11 + 9 * n) := by
  rw [span_eq, show 12 + 9 * n = 11 + 9 * n + 1 by omega, pow_succ]
  omega

/-- The upper half ends where a window of the tables does. -/
theorem span_dvd_two_pow {n : Nat} (hn : n ≤ 5) : span n ∣ 2 ^ 64 := by
  rw [span_eq]
  exact Nat.pow_dvd_pow 2 (by omega)

theorem mod_of_lower {n a : Nat} (h : a < 2 ^ (11 + 9 * n)) : a % span n = a := by
  rw [span_eq_two_mul]
  exact Nat.mod_eq_of_lt (by omega)

theorem mod_of_upper {n : Nat} (hn : n ≤ 5) {a : Nat} (h : 2 ^ 64 - 2 ^ (11 + 9 * n) ≤ a)
    (h' : a < 2 ^ 64) : a % span n + 2 ^ 64 = a + span n := by
  obtain ⟨k, hk⟩ := span_dvd_two_pow hn
  have hs := span_eq_two_mul n
  have hpos := span_pos n
  have hle : span n ≤ 2 ^ 64 := Nat.le_of_dvd (by norm_num) ⟨k, hk⟩
  have hk1 : 0 < k := Nat.pos_of_ne_zero (by rintro rfl; omega)
  have hsub : span n * (k - 1) = 2 ^ 64 - span n := by rw [Nat.mul_sub, ← hk, Nat.mul_one]
  have ha : a = span n * (k - 1) + (a - (2 ^ 64 - span n)) := by omega
  rw [ha, Nat.mul_add_mod, Nat.mod_eq_of_lt (by omega)]
  omega

/-! ## Mapping a run of pages -/

variable (F) in
/-- A translation without the height of the leaf. -/
def translate (m : Memory) (n f a : Nat) : Option (Nat × P) :=
  (walk F m n f a).map fun x ↦ (x.addr, x.perm)

variable (F) in
/-- An address of the page at `a` already has a leaf above height `t`. -/
def Blocked (m : Memory) (n f t a : Nat) : Prop := ∃ x, walk F m n f a = some x ∧ t < x.height

/-- `MappedRange F leaf out n f v p len l U m U' m'`: pages of any heights are mapped one after the
other, from `v` to `p`, until `len` is used up.  `leaf` makes the words, `out` is what they say
about a physical address, and `l` are the heights and addresses of the pages. -/
inductive MappedRange (F : Format P) (leaf : Nat → Nat → Nat) (out : Nat → Option (Nat × P))
    (n f : Nat) : Nat → Nat → Nat → List (Nat × Nat) → (Nat → Prop) → Memory → (Nat → Prop) →
      Memory → Prop
  | nil {v p : Nat} {U : Nat → Prop} {m : Memory} : MappedRange F leaf out n f v p 0 [] U m U m
  | cons {v p len t : Nat} {l : List (Nat × Nat)} {U U₁ U' : Nat → Prop} {m m₁ m' : Memory}
      (ht : t < n)
      (hv : span t ∣ v) (hl : span t ≤ len) (hw : LeafWord F t (leaf t p))
      (ho : ∀ b, (hit t (F.decode t (leaf t p)) b).map (fun x ↦ (x.addr, x.perm)) =
        out (p + b % span t))
      (hm : Mapped F t v (leaf t p) U m n f U₁ m₁)
      (next : MappedRange F leaf out n f (v + span t) (p + span t) (len - span t) l U₁ m₁ U' m') :
      MappedRange F leaf out n f v p len ((t, v) :: l) U m U' m'

/-- What mapping a run of pages comes to. -/
structure RangeResult (F : Format P) (out : Nat → Option (Nat × P)) (n f v p len : Nat)
    (l : List (Nat × Nat)) (U : Nat → Prop) (m : Memory) (U' : Nat → Prop) (m' : Memory) : Prop
    where
  tree : Tree F m' n f
  here : ∀ b, v % span n ≤ b % span n → b % span n < v % span n + len →
    translate F m' n f b = out (p + (b % span n - v % span n))
  elsewhere : ∀ b, ¬ (v % span n ≤ b % span n ∧ b % span n < v % span n + len) →
    walk F m' n f b = walk F m n f b
  /-- The pages hold the addresses of the run and no others. -/
  pages : ∀ b, (v % span n ≤ b % span n ∧ b % span n < v % span n + len) ↔
    ∃ c ∈ l, Same n c.1 c.2 b
  /-- A page has a leaf of its own height. -/
  height : ∀ c ∈ l, ∀ b, Same n c.1 c.2 b → ∀ x, walk F m' n f b = some x → x.height = c.1
  mono : ∀ x, U x → U' x
  aligned : ∀ x, U' x → ¬ U x → 4096 ∣ x
  foot : ∀ x, Foot F m' n f x → U' x ∧ (Foot F m n f x ∨ ¬ U x)
  frame : ∀ x, (∀ y, Foot F m n f y → ¬ Page y x) → (∀ y, U' y → ¬ U y → ¬ Page y x) →
    m' x = m x

theorem RangeResult.refl {out : Nat → Option (Nat × P)} {n v p : Nat} {U : Nat → Prop}
    (ht : Tree F m n f) (hU : ∀ x, Foot F m n f x → U x) :
    RangeResult F out n f v p 0 [] U m U m where
  tree := ht
  here := fun b h1 h2 ↦ by omega
  elsewhere := fun _ _ ↦ rfl
  pages := fun b ↦ ⟨fun hb ↦ by omega, fun ⟨c, hc, _⟩ ↦ absurd hc List.not_mem_nil⟩
  height := fun c hc ↦ absurd hc List.not_mem_nil
  mono := fun _ hx ↦ hx
  aligned := fun _ hx hxU ↦ absurd hx hxU
  foot := fun x hx ↦ ⟨hU x hx, Or.inl hx⟩
  frame := fun _ _ _ ↦ rfl

/-- **Mapping a run of pages** gives the run its translation and changes nothing else. -/
theorem MappedRange.result {leaf : Nat → Nat → Nat} {out : Nat → Option (Nat × P)}
    {n v p len : Nat} {l : List (Nat × Nat)} {U U' : Nat → Prop}
    (hr : MappedRange F leaf out n f v p len l U m U' m')
    (hfit : v % span n + len ≤ span n) (ht : Tree F m n f) (hU : ∀ x, Foot F m n f x → U x) :
    RangeResult F out n f v p len l U m U' m' := by
  induction hr with
  | nil => exact RangeResult.refl ht hU
  | @cons v p len t l U U₁ U' m m₁ m' htn hv hl hw ho hm _ ih =>
    have h1 := hm.result hw ht hU
    have hmem := same_iff_mem htn.le hv
    have hpos := span_pos t
    have hmod := Nat.mod_lt v (span_pos n)
    -- where the rest of the run begins, if there is one
    have hnext : v % span n + span t < span n → (v + span t) % span n = v % span n + span t := by
      intro hlt
      rw [← Nat.mod_add_mod, Nat.mod_eq_of_lt hlt]
    have hend : v % span n + span t = span n → (v + span t) % span n = 0 := by
      intro he
      rw [← Nat.mod_add_mod, he, Nat.mod_self]
    have h2 := ih (by
      rcases Nat.lt_or_ge (v % span n + span t) (span n) with hlt | hge
      · rw [hnext hlt]; omega
      · rw [hend (by omega)]; omega) h1.tree fun x hx ↦ (h1.foot x hx).1
    have hrest : ∀ b, ((v + span t) % span n ≤ b % span n ∧
        b % span n < (v + span t) % span n + (len - span t)) ↔
        v % span n + span t ≤ b % span n ∧ b % span n < v % span n + len := by
      intro b
      have hb := Nat.mod_lt b (span_pos n)
      rcases Nat.lt_or_ge (v % span n + span t) (span n) with hlt | hge
      · rw [hnext hlt]; omega
      · rw [hend (by omega)]; omega
    refine ⟨h2.tree, fun b hb hb' ↦ ?_, fun b hb ↦ ?_, fun b ↦ ?_, fun c hc b hcb x hx ↦ ?_,
      fun x hx ↦ h2.mono x (h1.mono x hx),
      fun x hx hxU ↦ ?_, fun x hx ↦ ?_, fun x hx hxn ↦ ?_⟩
    · by_cases hin : v % span n + span t ≤ b % span n
      · have hb2 := (hrest b).mpr ⟨hin, hb'⟩
        have hbn := Nat.mod_lt b (span_pos n)
        rw [h2.here b hb2.1 hb2.2]
        congr 1
        have : (v + span t) % span n = v % span n + span t := hnext (by omega)
        omega
      · have hs : Same n t v b := (hmem b).mpr ⟨hb, by omega⟩
        have hout := h2.elsewhere b fun hb2 ↦ hin ((hrest b).mp hb2).1
        rw [translate, hout, h1.here b hs, ho]
        congr 2
        -- the page is aligned, so the offset in it is the distance from its start
        have hbt : b % span t = b % span n % span t :=
          (Nat.mod_mod_of_dvd b (span_dvd htn.le)).symm
        obtain ⟨c, hc⟩ := (Nat.dvd_mod_iff (span_dvd htn.le)).mpr hv
        rw [hbt, hc]
        rw [hc] at hb hin
        obtain ⟨d, hd⟩ : ∃ d, b % span n = span t * c + d := ⟨_, (Nat.add_sub_of_le hb).symm⟩
        rw [hd, Nat.mul_add_mod, Nat.mod_eq_of_lt (by omega)]
        omega
    · rw [h2.elsewhere b fun hb2 ↦ hb ?_, h1.elsewhere b fun hs ↦ hb ?_]
      · have := (hmem b).mp hs
        omega
      · have := (hrest b).mp hb2
        omega
    · simp only [List.mem_cons, exists_eq_or_imp]
      rw [hmem b, ← h2.pages b, hrest b]
      omega
    · rcases List.mem_cons.mp hc with rfl | hc
      · rw [h2.elsewhere b fun hb2 ↦ ?_, h1.here b hcb] at hx
        · exact hit_height hx
        · have h3 := ((hmem b).mp hcb).2
          have h4 := ((hrest b).mp hb2).1
          omega
      · exact h2.height c hc b hcb x hx
    · by_cases hx₁ : U₁ x
      · exact h1.aligned x hx₁ hxU
      · exact h2.aligned x hx hx₁
    · obtain ⟨hx', hold | hnew⟩ := h2.foot x hx
      · exact ⟨hx', (h1.foot x hold).2⟩
      · exact ⟨hx', Or.inr fun hxU ↦ hnew (h1.mono x hxU)⟩
    · rw [h2.frame x (fun y hy ↦ ?_) fun y hy hyU ↦ hxn y hy fun h ↦ hyU (h1.mono y h),
        h1.frame x hx fun y hy ↦ hxn y (h2.mono y hy)]
      obtain ⟨hyU, hold | hnew⟩ := h1.foot y hy
      · exact hx y hold
      · exact hxn y (h2.mono y hyU) hnew

/-! ## Stricter formats -/

section Stricter

variable {P : Type} {F G : Format P} {Good : Hit P → Prop} {m : Memory} {n f a : Nat} {x : Hit P}

end Stricter

end PageTable
