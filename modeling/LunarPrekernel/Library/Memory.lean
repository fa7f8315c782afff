import Mathlib.Tactic

/-!
# Byte memory

A memory gives a byte to every address.  `load` and `store` read and write little-endian numbers of
any size, `fill` and `copy` are `memset` and `memcpy`.  A `Patch` is a run of bytes with its place,
for code whose effect is a list of stores.

Every operation comes with what it does to a load: one lemma for the bytes it writes, and one frame
lemma for a load that meets none of them.  All frame lemmas go through `load_congr`, so a new
operation only has to say which bytes it leaves alone.
-/

set_option autoImplicit false

/-- The contents of memory, byte by byte. -/
abbrev Memory := Nat → UInt8

namespace Memory

/-! ## The operations -/

/-- The little-endian number in the `n` bytes from `a` on. -/
def load (m : Memory) : Nat → Nat → Nat
  | _, 0 => 0
  | a, n + 1 => (m a).toNat + 256 * load m (a + 1) n

/-- `v` as a little-endian number in the `n` bytes from `a` on. -/
def store (m : Memory) (a n v : Nat) : Memory := fun x ↦
  if a ≤ x ∧ x < a + n then UInt8.ofNat (v / 256 ^ (x - a)) else m x

/-- The byte `b` in the `n` bytes from `a` on. -/
def fill (m : Memory) (a n : Nat) (b : UInt8) : Memory := fun x ↦
  if a ≤ x ∧ x < a + n then b else m x

/-- The `n` bytes from `src` on, at `dst`. -/
def copy (m : Memory) (dst src n : Nat) : Memory := fun x ↦
  if dst ≤ x ∧ x < dst + n then m (src + (x - dst)) else m x

/-! ## Reading -/

@[simp] theorem load_zero (m : Memory) (a : Nat) : m.load a 0 = 0 := by rw [load]

theorem load_succ (m : Memory) (a n : Nat) :
    m.load a (n + 1) = (m a).toNat + 256 * m.load (a + 1) n := by rw [load]

/-- A number is read in two parts. -/
theorem load_add (m : Memory) (a n k : Nat) :
    m.load a (n + k) = m.load a n + 256 ^ n * m.load (a + n) k := by
  induction n generalizing a with
  | zero => rw [Nat.zero_add, load_zero, pow_zero, Nat.one_mul, Nat.zero_add, Nat.add_zero]
  | succ n ih =>
    rw [Nat.succ_add, load_succ, ih, load_succ, pow_succ', Nat.add_right_comm a 1 n, Nat.add_assoc a n 1]
    ring

/-- A load depends on the bytes it reads. -/
theorem load_congr {m m' : Memory} {a n : Nat} (h : ∀ x, a ≤ x → x < a + n → m x = m' x) :
    m.load a n = m'.load a n := by
  induction n generalizing a with
  | zero => rw [load_zero, load_zero]
  | succ n ih =>
    rw [load_succ, load_succ, h a le_rfl (by omega),
      ih fun x hx hx' ↦ h x (by omega) (by omega)]

theorem load_lt (m : Memory) (a n : Nat) : m.load a n < 256 ^ n := by
  induction n generalizing a with
  | zero => simp
  | succ n ih =>
    have h1 := ih (a + 1)
    have h2 := (m a).toNat_lt
    rw [load_succ, pow_succ]
    omega

/-- Bytes that spell a number out are read as that number. -/
theorem load_eq {m : Memory} {a n v : Nat}
    (h : ∀ k, k < n → m (a + k) = UInt8.ofNat (v / 256 ^ k)) : m.load a n = v % 256 ^ n := by
  induction n generalizing a v with
  | zero => rw [load_zero, pow_zero, Nat.mod_one]
  | succ n ih =>
    have h0 : (m a).toNat = v % 256 := by
      have := h 0 (by omega)
      rw [Nat.add_zero, pow_zero, Nat.div_one] at this
      rw [this, UInt8.toNat_ofNat']
    have hn : m.load (a + 1) n = v / 256 % 256 ^ n := by
      refine ih fun k hk ↦ ?_
      have := h (k + 1) (by omega)
      rw [pow_succ', ← Nat.div_div_eq_div_mul] at this
      rw [← this]
      congr 1; omega
    rw [load_succ, h0, hn, pow_succ', Nat.mod_mul]

/-! ## Writing -/

theorem store_of_not_mem {m : Memory} {a n v x : Nat} (h : ¬ (a ≤ x ∧ x < a + n)) :
    m.store a n v x = m x := if_neg h

theorem fill_of_mem {m : Memory} {a n x : Nat} {b : UInt8} (h : a ≤ x) (h' : x < a + n) :
    m.fill a n b x = b := if_pos ⟨h, h'⟩

theorem fill_of_not_mem {m : Memory} {a n x : Nat} {b : UInt8} (h : ¬ (a ≤ x ∧ x < a + n)) :
    m.fill a n b x = m x := if_neg h

theorem copy_of_mem {m : Memory} {dst src n x : Nat} (h : dst ≤ x) (h' : x < dst + n) :
    m.copy dst src n x = m (src + (x - dst)) := if_pos ⟨h, h'⟩

theorem copy_of_not_mem {m : Memory} {dst src n x : Nat} (h : ¬ (dst ≤ x ∧ x < dst + n)) :
    m.copy dst src n x = m x := if_neg h

/-- What was stored is loaded again. -/
theorem load_store (m : Memory) (a n v : Nat) : (m.store a n v).load a n = v % 256 ^ n := by
  refine load_eq fun k hk ↦ ?_
  rw [store, if_pos (by omega), Nat.add_sub_cancel_left]

theorem load_store_of_lt {m : Memory} {a n v : Nat} (h : v < 256 ^ n) :
    (m.store a n v).load a n = v := by
  rw [load_store, Nat.mod_eq_of_lt h]

theorem load_store_of_disjoint {m : Memory} {a n v b k : Nat} (h : a + n ≤ b ∨ b + k ≤ a) :
    (m.store a n v).load b k = m.load b k :=
  load_congr fun _ hx hx' ↦ store_of_not_mem (by omega)

/-- A store of what is there already changes nothing. -/
theorem store_load (m : Memory) (a n : Nat) : m.store a n (m.load a n) = m := by
  induction n generalizing a with
  | zero =>
    funext x
    exact store_of_not_mem (by omega)
  | succ n ih =>
    funext x
    have hb := (m a).toNat_lt
    have hrest : ∀ y, m.store (a + 1) n (m.load (a + 1) n) y = m y := fun y ↦ congrFun (ih (a + 1)) y
    by_cases hx : a ≤ x ∧ x < a + (n + 1)
    · rw [store, if_pos hx, load_succ]
      rcases eq_or_ne x a with rfl | hne
      · rw [Nat.sub_self, pow_zero, Nat.div_one]
        refine UInt8.toNat_inj.mp ?_
        rw [UInt8.toNat_ofNat']
        omega
      · have hxa : x - a = x - (a + 1) + 1 := by omega
        rw [hxa, pow_succ', ← Nat.div_div_eq_div_mul,
          show ((m a).toNat + 256 * m.load (a + 1) n) / 256 = m.load (a + 1) n by omega]
        have := hrest x
        rwa [store, if_pos (by omega)] at this
    · exact store_of_not_mem hx

theorem load_fill_of_disjoint {m : Memory} {a n b k : Nat} {c : UInt8}
    (h : a + n ≤ b ∨ b + k ≤ a) : (m.fill a n c).load b k = m.load b k :=
  load_congr fun _ hx hx' ↦ fill_of_not_mem (by omega)

/-- A cleared stretch reads as zero. -/
theorem load_fill_zero {m : Memory} {a n b k : Nat} (h : a ≤ b) (h' : b + k ≤ a + n) :
    (m.fill a n 0).load b k = 0 := by
  have : (m.fill a n 0).load b k = 0 % 256 ^ k := load_eq fun i hi ↦ by
    rw [fill_of_mem (by omega) (by omega), Nat.zero_div]
    rfl
  rw [this, Nat.zero_mod]

theorem load_copy_of_disjoint {m : Memory} {dst src n b k : Nat} (h : dst + n ≤ b ∨ b + k ≤ dst) :
    (m.copy dst src n).load b k = m.load b k :=
  load_congr fun _ hx hx' ↦ copy_of_not_mem (by omega)

/-! ## Copying in place -/

/-- One byte more at the upper end, if it has not been overwritten. -/
theorem copy_succ {m : Memory} {dst src n : Nat} (h : ¬ (dst ≤ src + n ∧ src + n < dst + n)) :
    Function.update (m.copy dst src n) (dst + n) (m.copy dst src n (src + n)) =
      m.copy dst src (n + 1) := by
  funext x
  rcases eq_or_ne x (dst + n) with rfl | hx
  · rw [Function.update_self, copy_of_not_mem h, copy_of_mem (by omega) (by omega),
      Nat.add_sub_cancel_left]
  · rw [Function.update_of_ne hx]
    by_cases hin : dst ≤ x ∧ x < dst + n
    · rw [copy_of_mem hin.1 hin.2, copy_of_mem hin.1 (by omega)]
    · rw [copy_of_not_mem hin, copy_of_not_mem (by omega)]

/-- One byte more at the lower end, if it has not been overwritten. -/
theorem copy_pred {m : Memory} {dst src n : Nat}
    (h : ¬ (dst + 1 ≤ src ∧ src < dst + 1 + n)) :
    Function.update (m.copy (dst + 1) (src + 1) n) dst (m.copy (dst + 1) (src + 1) n src) =
      m.copy dst src (n + 1) := by
  funext x
  rcases eq_or_ne x dst with rfl | hx
  · rw [Function.update_self, copy_of_not_mem h, copy_of_mem le_rfl (by omega), Nat.sub_self,
      Nat.add_zero]
  · rw [Function.update_of_ne hx]
    by_cases hin : dst + 1 ≤ x ∧ x < dst + 1 + n
    · rw [copy_of_mem hin.1 hin.2, copy_of_mem (by omega) (by omega)]
      congr 1; omega
    · rw [copy_of_not_mem hin, copy_of_not_mem (by omega)]

@[simp] theorem copy_zero (m : Memory) (dst src : Nat) : m.copy dst src 0 = m :=
  funext fun _ ↦ copy_of_not_mem (by omega)

/-- Bytes that are where they should be already. -/
theorem copy_self (m : Memory) (a n : Nat) : m.copy a a n = m := by
  funext x
  by_cases hin : a ≤ x ∧ x < a + n
  · rw [copy_of_mem hin.1 hin.2]
    congr 1; omega
  · exact copy_of_not_mem hin

/-! ## Runs of bytes -/

/-- The bytes `l`, from `a` on. -/
def write (m : Memory) (a : Nat) (l : List UInt8) : Memory := fun x ↦
  if h : a ≤ x ∧ x < a + l.length then l[x - a] else m x

/-- The bytes `l` stand at `a`. -/
def Spells (m : Memory) (a : Nat) (l : List UInt8) : Prop :=
  ∀ i (h : i < l.length), m (a + i) = l[i]

/-- The `n` bytes of a little-endian number. -/
def littleEndian (n v : Nat) : List UInt8 := (List.range n).map fun i ↦ UInt8.ofNat (v / 256 ^ i)

/-- The bytes `l` with `l'` in place of those from the `k`-th on. -/
def splice (l : List UInt8) (k : Nat) (l' : List UInt8) : List UInt8 :=
  l.take k ++ l' ++ l.drop (k + l'.length)

section Spells

variable {m : Memory} {a b v : Nat} {l k : List UInt8}

theorem spells_append : m.Spells a (l ++ k) ↔ m.Spells a l ∧ m.Spells (a + l.length) k := by
  constructor
  · intro h
    refine ⟨fun i hi ↦ ?_, fun i hi ↦ ?_⟩
    · rw [h i (by rw [List.length_append]; omega), List.getElem_append_left hi]
    · rw [Nat.add_assoc, h (l.length + i) (by rw [List.length_append]; omega),
        List.getElem_append_right (by omega)]
      simp only [Nat.add_sub_cancel_left]
  · rintro ⟨hl, hk⟩ i hi
    rw [List.length_append] at hi
    rcases Nat.lt_or_ge i l.length with hlt | hge
    · rw [hl i hlt, List.getElem_append_left hlt]
    · have := hk (i - l.length) (by omega)
      rw [List.getElem_append_right hge, ← this]
      congr 1; omega

theorem spells_write (m : Memory) (a : Nat) (l : List UInt8) : (m.write a l).Spells a l := by
  intro i hi
  rw [write, dif_pos (by omega)]
  simp only [Nat.add_sub_cancel_left]

theorem Spells.write (h : m.Spells a l) (hd : a + l.length ≤ b ∨ b + k.length ≤ a) :
    (m.write b k).Spells a l := by
  intro i hi
  rw [Memory.write, dif_neg (by omega), h i hi]

theorem splice_length {k : Nat} {l' : List UInt8} (h : k + l'.length ≤ l.length) :
    (splice l k l').length = l.length := by
  rw [splice, List.length_append, List.length_append, List.length_take, List.length_drop]
  omega

/-- A run of bytes is written within another one. -/
theorem write_write {k : Nat} {l' : List UInt8} (m : Memory) (a : Nat)
    (h : k + l'.length ≤ l.length) :
    (m.write a l).write (a + k) l' = m.write a (splice l k l') := by
  have hlen := splice_length h
  unfold splice at hlen ⊢
  funext x
  by_cases hin : a + k ≤ x ∧ x < a + k + l'.length
  · rw [Memory.write, dif_pos hin, Memory.write, dif_pos (by omega),
      List.getElem_append_left (by rw [List.length_append, List.length_take]; omega),
      List.getElem_append_right (by rw [List.length_take]; omega)]
    congr 1
    rw [List.length_take]
    omega
  · rw [Memory.write, dif_neg hin]
    by_cases hl : a ≤ x ∧ x < a + l.length
    · rw [Memory.write, dif_pos hl, Memory.write, dif_pos (by omega)]
      rcases Nat.lt_or_ge (x - a) k with hlt | hge
      · rw [List.getElem_append_left (by rw [List.length_append, List.length_take]; omega),
          List.getElem_append_left (by rw [List.length_take]; omega), List.getElem_take]
      · rw [List.getElem_append_right (by rw [List.length_append, List.length_take]; omega),
          List.getElem_drop]
        congr 1
        rw [List.length_append, List.length_take]
        omega
    · rw [Memory.write, dif_neg hl, Memory.write, dif_neg (by omega)]

/-- Bytes in the middle are replaced by as many others. -/
theorem splice_middle {p q : List UInt8} (h : l.length = k.length) :
    splice (p ++ l ++ q) p.length k = p ++ k ++ q := by
  have htake : (p ++ l ++ q).take p.length = p := by rw [List.append_assoc, List.take_left]
  have hdrop : (p ++ l ++ q).drop (p.length + l.length) = q := by
    rw [← List.length_append, List.drop_left]
  rw [splice, ← h, htake, hdrop]

/-- The runs of bytes are stored one behind the other, from the `k`-th byte on. -/
def Consecutive : Nat → List (Nat × List UInt8) → Prop
  | _, [] => True
  | k, s :: ss => s.1 = k ∧ Consecutive (k + s.2.length) ss

/-- Fields that are stored one by one make up the whole. -/
theorem foldl_splice {ss : List (Nat × List UInt8)} (h : Consecutive l.length ss)
    (hlen : k.length = (ss.map fun s ↦ s.2.length).sum) :
    ss.foldl (fun l s ↦ splice l s.1 s.2) (l ++ k) = l ++ (ss.map Prod.snd).flatten := by
  induction ss generalizing l k with
  | nil =>
    obtain rfl := List.eq_nil_of_length_eq_zero hlen
    rfl
  | cons s ss ih =>
    obtain ⟨hs, hss⟩ := h
    rw [List.map_cons, List.sum_cons] at hlen
    have hsplice : splice (l ++ k) s.1 s.2 = (l ++ s.2) ++ k.drop s.2.length := by
      rw [splice, hs, List.take_left, List.drop_length_add_append]
    rw [List.foldl_cons, hsplice, ih (by rwa [List.length_append]), List.map_cons, List.flatten_cons,
      List.append_assoc]
    rw [List.length_drop]
    omega

theorem littleEndian_length (n v : Nat) : (littleEndian n v).length = n := by
  rw [littleEndian, List.length_map, List.length_range]

/-- The bytes of a number are read as that number. -/
theorem Spells.load {n : Nat} (h : m.Spells a (littleEndian n v)) : m.load a n = v % 256 ^ n := by
  refine load_eq fun i hi ↦ ?_
  rw [h i (by rwa [littleEndian_length])]
  simp only [littleEndian, List.getElem_map, List.getElem_range]

end Spells

/-- Bytes, and where they go. -/
structure Patch where
  address : Nat
  bytes : List UInt8

namespace Patch

def stop (p : Patch) : Nat := p.address + p.bytes.length

theorem stop_mk (a : Nat) (l : List UInt8) : stop ⟨a, l⟩ = a + l.length := rfl

/-- The two runs of bytes do not overlap. -/
def Disjoint (p q : Patch) : Prop := p.stop ≤ q.address ∨ q.stop ≤ p.address

instance (p q : Patch) : Decidable (p.Disjoint q) := inferInstanceAs (Decidable (_ ∨ _))

theorem Disjoint.symm {p q : Patch} (h : p.Disjoint q) : q.Disjoint p := Or.symm h

instance : Std.Symm Disjoint := ⟨fun _ _ ↦ Disjoint.symm⟩

/-- No byte belongs to both; a run of no bytes may be anywhere. -/
def Apart (p q : Patch) : Prop :=
  ∀ x, p.address ≤ x → x < p.stop → ¬ (q.address ≤ x ∧ x < q.stop)

theorem Apart.symm {p q : Patch} (h : p.Apart q) : q.Apart p :=
  fun x h1 h2 hp ↦ h x hp.1 hp.2 ⟨h1, h2⟩

instance : Std.Symm Apart := ⟨fun _ _ ↦ Apart.symm⟩

theorem Disjoint.apart {p q : Patch} (h : p.Disjoint q) : p.Apart q := by
  intro x h1 h2 hq
  rcases h with h | h <;> omega

end Patch

/-- Store after store. -/
def patch (m : Memory) (ps : List Patch) : Memory := ps.foldl (fun m p ↦ m.write p.address p.bytes) m

theorem patch_append (m : Memory) (ps qs : List Patch) :
    m.patch (ps ++ qs) = (m.patch ps).patch qs := List.foldl_append

/-- A byte that no store meets is as it was. -/
theorem patch_of_not_mem {ps : List Patch} {x : Nat}
    (h : ∀ p ∈ ps, ¬ (p.address ≤ x ∧ x < p.stop)) (m : Memory) : m.patch ps x = m x := by
  induction ps generalizing m with
  | nil => rfl
  | cons p ps ih =>
    show (m.write p.address p.bytes).patch ps x = m x
    rw [ih fun q hq ↦ h q (by simp [hq])]
    exact dif_neg (h p (by simp))

/-- A store is there at the end if every other one stores the same, or none of its bytes. -/
theorem spells_patch_of_apart {ps : List Patch} {p : Patch} (hp : p ∈ ps)
    (h : ∀ q ∈ ps, q = p ∨ p.Apart q) (m : Memory) :
    (m.patch ps).Spells p.address p.bytes := by
  have hkeep : ∀ {qs : List Patch} {m : Memory}, (∀ q ∈ qs, q = p ∨ p.Apart q) →
      m.Spells p.address p.bytes → (m.patch qs).Spells p.address p.bytes := by
    intro qs
    induction qs with
    | nil => exact fun _ hm ↦ hm
    | cons q qs ih =>
      intro m hd hm
      refine ih (fun r hr ↦ hd r (by simp [hr])) ?_
      rcases hd q (by simp) with rfl | hq
      · exact spells_write m _ _
      · intro i hi
        rw [← hm i hi]
        exact dif_neg (hq (p.address + i) (by omega) (by rw [Patch.stop]; omega))
  induction ps generalizing m with
  | nil => simp at hp
  | cons q qs ih =>
    rcases List.mem_cons.mp hp with rfl | hp
    · show (patch (m.write p.address p.bytes) qs).Spells _ _
      exact hkeep (fun r hr ↦ h r (by simp [hr])) (spells_write m _ _)
    · exact ih hp (fun r hr ↦ h r (by simp [hr])) _

/-- A store is there at the end if every other one that meets it stores the same. -/
theorem spells_patch_of_mem {ps : List Patch} {p : Patch} (hp : p ∈ ps)
    (h : ∀ q ∈ ps, q = p ∨ p.Disjoint q) (m : Memory) :
    (m.patch ps).Spells p.address p.bytes :=
  spells_patch_of_apart hp (fun q hq ↦ (h q hq).imp_right Patch.Disjoint.apart) m

/-- Stores that do not overlap are all there at the end. -/
theorem spells_patch {ps : List Patch} (h : ps.Pairwise Patch.Disjoint) (m : Memory) {p : Patch}
    (hp : p ∈ ps) : (m.patch ps).Spells p.address p.bytes := by
  refine spells_patch_of_mem hp (fun q hq ↦ or_iff_not_imp_left.mpr fun hne ↦ ?_) m
  exact h.forall hp hq (Ne.symm hne)

end Memory
