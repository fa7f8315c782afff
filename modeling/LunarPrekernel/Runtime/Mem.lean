import LunarPrekernel.Library.Memory
import LunarPrekernel.Machine

/-!
# Memory and strings

`runtime/mem.c` stands in for the C library, also for the ACPI and device tree code that is linked
in.

* `memmove_copy` — `memmove` for every overlap, and when `memcpy` does the same.
* `memcmp_strcmp` — what `memcmp` and `strcmp` say about an order.

What a function reads only is given as the bytes that can be read from its argument on, so that a
read behind them is a `fault`.
-/

set_option autoImplicit false

namespace LunarPrekernel

/-! ## The code -/

/-- `dest[i] = src[i]`. -/
def copyByte (dest src i : Nat) (m : Memory) : Memory :=
  Function.update m (add64 dest i) (m (add64 src i))

/-- `for(i = ..; i < count; i++) dest[i] = src[i]`, with `count - i` bytes to go. -/
def copyUp (dest src : Nat) : Nat → Nat → Memory → Memory
  | 0, _, m => m
  | n + 1, i, m => copyUp dest src n (i + 1) (copyByte dest src i m)

/-- `for(i = ..; i > 0; i--) dest[i - 1] = src[i - 1]`. -/
def copyDown (dest src : Nat) : Nat → Memory → Memory
  | 0, m => m
  | i + 1, m => copyDown dest src i (copyByte dest src i m)

/-- `memcpy`. -/
def memcpy (dest src count : Nat) (m : Memory) : Memory := copyUp dest src count 0 m

/-- `memmove`. -/
def memmove (dest src count : Nat) (m : Memory) : Memory :=
  if src = dest then m
  else if dest < src then copyUp dest src count 0 m
  else copyDown dest src count m

/-- `memcmp`. -/
def memcmp : List UInt8 → List UInt8 → Nat → Except Stop Int
  | _, _, 0 => .ok 0
  | c :: lhs, d :: rhs, count + 1 =>
    if d < c then .ok (-1) else if c < d then .ok 1 else memcmp lhs rhs count
  | _, _, _ + 1 => .error .fault

/-- `strlen` from index `length` on.  Its counter is an `int`, which must not overflow. -/
def strlenFrom : List UInt8 → Nat → Except Stop Nat
  | [], _ => .error .fault
  | c :: str, length =>
    if c = 0 then .ok length
    else if length = 2 ^ 31 - 1 then .error .fault
    else strlenFrom str (length + 1)

/-- `strlen`. -/
def strlen (str : List UInt8) : Except Stop Nat := strlenFrom str 0

/-- `strcmp`. -/
def strcmp : List UInt8 → List UInt8 → Except Stop Int
  | c :: s1, d :: s2 => if c ≠ 0 ∧ c = d then strcmp s1 s2 else .ok (c.toNat - d.toNat)
  | _, _ => .error .fault

/-! ## Copying -/

section Copy

variable {m : Memory} {dest src n : Nat}

theorem copyByte_eq {i : Nat} (hd : dest + n ≤ 2 ^ 64) (hs : src + n ≤ 2 ^ 64) (hi : i < n) :
    copyByte dest src i m = Function.update m (dest + i) (m (src + i)) := by
  rw [copyByte, add64_eq (by omega), add64_eq (by omega)]

/-- **Upwards**: what lies above has not been overwritten. -/
theorem copyUp_eq (hd : dest + n ≤ 2 ^ 64) (hs : src + n ≤ 2 ^ 64)
    (h : dest ≤ src ∨ src + n ≤ dest) {k i : Nat} (hk : k + i = n) :
    copyUp dest src k i (m.copy dest src i) = m.copy dest src n := by
  induction k generalizing i with
  | zero =>
    rw [Nat.zero_add] at hk
    rw [copyUp, hk]
  | succ k ih =>
    rw [copyUp, copyByte_eq hd hs (by omega), Memory.copy_succ (by omega)]
    exact ih (by omega)

/-- **Downwards**: what lies below has not been overwritten. -/
theorem copyDown_eq (hd : dest + n ≤ 2 ^ 64) (hs : src + n ≤ 2 ^ 64) (h : src ≤ dest) {i : Nat}
    (hi : i ≤ n) :
    copyDown dest src i (m.copy (dest + i) (src + i) (n - i)) = m.copy dest src n := by
  induction i with
  | zero => rfl
  | succ i ih =>
    rw [copyDown, copyByte_eq hd hs (by omega), ← Nat.add_assoc, ← Nat.add_assoc,
      Memory.copy_pred (by omega), show n - (i + 1) + 1 = n - i by omega]
    exact ih (by omega)

theorem memmove_eq (hd : dest + n ≤ 2 ^ 64) (hs : src + n ≤ 2 ^ 64) :
    memmove dest src n m = m.copy dest src n := by
  rw [memmove]
  split
  · rename_i heq
    rw [heq, Memory.copy_self]
  split
  · rename_i hlt
    have := @copyUp_eq m dest src n hd hs (Or.inl hlt.le) n 0 rfl
    rwa [Memory.copy_zero] at this
  · have := @copyDown_eq m dest src n hd hs (by omega) n le_rfl
    rwa [Nat.sub_self, Memory.copy_zero] at this

theorem memcpy_eq (hd : dest + n ≤ 2 ^ 64) (hs : src + n ≤ 2 ^ 64)
    (h : dest ≤ src ∨ src + n ≤ dest) : memcpy dest src n m = m.copy dest src n := by
  have := @copyUp_eq m dest src n hd hs h n 0 rfl
  rwa [Memory.copy_zero] at this

/-- **`memmove`** copies, however the ranges overlap, and `memcpy` does the same if they are disjoint
or the destination is below the source. -/
theorem memmove_copy (m : Memory) (hd : dest + n ≤ 2 ^ 64) (hs : src + n ≤ 2 ^ 64) :
    (∀ i, i < n → memmove dest src n m (dest + i) = m (src + i)) ∧
      (∀ x, ¬ (dest ≤ x ∧ x < dest + n) → memmove dest src n m x = m x) ∧
      (dest + n ≤ src ∨ src + n ≤ dest ∨ dest ≤ src →
        memcpy dest src n m = memmove dest src n m) := by
  rw [memmove_eq hd hs]
  refine ⟨fun i hi ↦ ?_, fun x hx ↦ Memory.copy_of_not_mem hx, fun h ↦ memcpy_eq hd hs (by omega)⟩
  rw [Memory.copy_of_mem (by omega) (by omega), Nat.add_sub_cancel_left]

/-- Three bytes, two up: the ranges overlap, and the copy goes downwards. -/
theorem memmove_copy_overlap :
    (∀ i, i < 3 → memmove 2 0 3 (fun a ↦ UInt8.ofNat a) (2 + i) = UInt8.ofNat (0 + i)) ∧
      memmove 2 0 3 (fun a ↦ UInt8.ofNat a) 1 = 1 ∧
      memcpy 0 2 3 (fun a ↦ UInt8.ofNat a) = memmove 0 2 3 (fun a ↦ UInt8.ofNat a) :=
  ⟨(memmove_copy _ (by decide) (by decide)).1, (memmove_copy _ (by decide) (by decide)).2.1 1
    (by decide), (memmove_copy _ (by decide) (by decide)).2.2 (Or.inr (Or.inr (by decide)))⟩

end Copy

/-! ## Comparing -/

section Strlen

variable {str : List UInt8}

theorem strlenFrom_eq (hstr : ∀ c ∈ str, c ≠ 0) (after : List UInt8) (n : Nat)
    (hn : n + str.length < 2 ^ 31) : strlenFrom (str ++ 0 :: after) n = .ok (n + str.length) := by
  induction str generalizing n with
  | nil => rw [List.nil_append, strlenFrom, if_pos rfl, List.length_nil, Nat.add_zero]
  | cons c str ih =>
    rw [List.length_cons] at hn ⊢
    rw [List.cons_append, strlenFrom, if_neg (hstr c (by simp)), if_neg (by omega),
      ih (fun d hd ↦ hstr d (by simp [hd])) (n + 1) (by omega)]
    congr 1; omega

/-- A string that is too long overflows the counter. -/
theorem strlenFrom_long (hstr : ∀ c ∈ str, c ≠ 0) (after : List UInt8) (n : Nat) (h : n < 2 ^ 31)
    (hn : 2 ^ 31 ≤ n + str.length) : strlenFrom (str ++ 0 :: after) n = .error .fault := by
  induction str generalizing n with
  | nil => rw [List.length_nil] at hn; omega
  | cons c str ih =>
    rw [List.length_cons] at hn
    rw [List.cons_append, strlenFrom, if_neg (hstr c (by simp))]
    split
    · rfl
    · exact ih (fun d hd ↦ hstr d (by simp [hd])) (n + 1) (by omega) (by omega)

theorem strlen_eq_ok (hstr : ∀ c ∈ str, c ≠ 0) (after : List UInt8) {n : Nat} :
    strlen (str ++ 0 :: after) = .ok n ↔ n = str.length ∧ str.length < 2 ^ 31 := by
  rw [strlen]
  rcases Nat.lt_or_ge str.length (2 ^ 31) with hlt | hge
  · rw [strlenFrom_eq hstr after 0 (by omega), Nat.zero_add, Except.ok.injEq]
    constructor
    · rintro rfl
      exact ⟨rfl, hlt⟩
    · exact fun h ↦ h.1.symm
  · rw [strlenFrom_long hstr after 0 (by omega) (by omega)]
    constructor
    · intro h
      cases h
    · intro h
      omega

end Strlen

/-- `memcmp` orders the two as the C standard says. -/
def MemcmpOrders (lhs rhs : List UInt8) (count : Nat) : Prop :=
  ∃ v, memcmp lhs rhs count = .ok v ∧ compare v 0 = compare (lhs.take count) (rhs.take count)

/-- The sign of `strcmp` is the one of `memcmp` up to the end of the shorter string. -/
def StrcmpAgrees (s1 s2 : List UInt8) : Prop :=
  ∃ i j v w, strlen s1 = .ok i ∧ strlen s2 = .ok j ∧ strcmp s1 s2 = .ok v ∧
    memcmp s1 s2 (min i j + 1) = .ok w ∧ compare v 0 = compare w 0

section Compare

variable {lhs rhs a b : List UInt8} {n : Nat}

/-- Where the order does not matter, nothing differs. -/
theorem eq_of_compare_comm {x y : List UInt8} (h : compare x y = compare y x) : x = y := by
  rw [Std.OrientedOrd.eq_swap] at h
  apply Std.compare_eq_iff_eq.1
  rw [Std.OrientedOrd.eq_swap]
  cases hyx : compare y x with
  | eq => rfl
  | lt => rw [hyx] at h; cases h
  | gt => rw [hyx] at h; cases h

/-- `-1` stands for greater: the order is the other way round. -/
theorem memcmp_eq (hl : n ≤ lhs.length) (hr : n ≤ rhs.length) :
    ∃ v, memcmp lhs rhs n = .ok v ∧ compare v 0 = compare (rhs.take n) (lhs.take n) := by
  induction n generalizing lhs rhs with
  | zero => exact ⟨0, by rw [memcmp], by rw [List.take_zero, List.take_zero]; rfl⟩
  | succ n ih =>
    obtain _ | ⟨c, lhs⟩ := lhs
    · cases hl
    obtain _ | ⟨d, rhs⟩ := rhs
    · cases hr
    rw [memcmp, List.take_succ_cons, List.take_succ_cons, List.compare_cons_cons]
    obtain hlt | rfl | hgt := Std.lt_trichotomy d c
    · exact ⟨-1, by rw [if_pos hlt], by rw [Std.compare_eq_lt.2 hlt]; rfl⟩
    · obtain ⟨v, hv, hcmp⟩ := ih (Nat.le_of_succ_le_succ hl) (Nat.le_of_succ_le_succ hr)
      refine ⟨v, ?_, ?_⟩
      · rw [if_neg (UInt8.lt_irrefl d), if_neg (UInt8.lt_irrefl d), hv]
      · rw [Std.compare_self, hcmp]
        rfl
    · refine ⟨1, ?_, by rw [Std.compare_eq_gt.2 hgt]; rfl⟩
      rw [if_neg (UInt8.lt_asymm hgt), if_pos hgt]

theorem memcmpOrders_iff (hl : n ≤ lhs.length) (hr : n ≤ rhs.length) :
    MemcmpOrders lhs rhs n ↔ lhs.take n = rhs.take n := by
  obtain ⟨v, hv, hcmp⟩ := memcmp_eq hl hr
  constructor
  · rintro ⟨w, hw, hord⟩
    rw [hv, Except.ok.injEq] at hw
    rw [← hw, hcmp] at hord
    exact (eq_of_compare_comm hord).symm
  · intro heq
    exact ⟨v, hv, by rw [hcmp, heq]⟩

theorem compare_sub (c d : UInt8) : compare (c.toNat - d.toNat : Int) 0 = compare c d := by
  obtain hlt | rfl | hgt := Std.lt_trichotomy c d
  · rw [Std.compare_eq_lt.2 hlt]
    rw [UInt8.lt_iff_toNat_lt] at hlt
    exact Std.compare_eq_lt.2 (by omega)
  · rw [Std.compare_self, Int.sub_self]
    rfl
  · rw [Std.compare_eq_gt.2 hgt]
    rw [UInt8.lt_iff_toNat_lt] at hgt
    exact Std.compare_eq_gt.2 (by omega)

/-- `strcmp` has the order right. -/
theorem strcmp_eq (ha : ∀ c ∈ a, c ≠ 0) (hb : ∀ c ∈ b, c ≠ 0) (afterA afterB : List UInt8) :
    ∃ v, strcmp (a ++ 0 :: afterA) (b ++ 0 :: afterB) = .ok v ∧ compare v 0 = compare a b := by
  induction a generalizing b with
  | nil =>
    obtain _ | ⟨d, b⟩ := b
    · exact ⟨0, rfl, rfl⟩
    · refine ⟨_, rfl, ?_⟩
      rw [List.compare_nil_cons, compare_sub, Std.compare_eq_lt]
      exact UInt8.pos_iff_ne_zero.2 (hb d (by simp))
  | cons c a ih =>
    have hc := ha c (by simp)
    obtain _ | ⟨d, b⟩ := b
    · refine ⟨_, by rw [List.cons_append, List.nil_append, strcmp, if_neg (fun h ↦ h.1 h.2)], ?_⟩
      rw [List.compare_cons_nil, compare_sub, Std.compare_eq_gt]
      exact UInt8.pos_iff_ne_zero.2 hc
    rw [List.cons_append, List.cons_append, strcmp, List.compare_cons_cons]
    rcases eq_or_ne c d with rfl | hne
    · rw [if_pos ⟨hc, rfl⟩, Std.compare_self]
      exact ih (fun x hx ↦ ha x (by simp [hx])) (fun x hx ↦ hb x (by simp [hx]))
    · refine ⟨_, by rw [if_neg (fun h ↦ hne h.2)], ?_⟩
      rw [compare_sub]
      cases h : compare c d with
      | eq => exact absurd (Std.compare_eq_iff_eq.1 h) hne
      | lt => rfl
      | gt => rfl

/-- Nothing behind the end of the shorter string decides. -/
theorem compare_take (ha : ∀ c ∈ a, c ≠ 0) (hb : ∀ c ∈ b, c ≠ 0) (afterA afterB : List UInt8) :
    compare ((a ++ 0 :: afterA).take (min a.length b.length + 1))
      ((b ++ 0 :: afterB).take (min a.length b.length + 1)) = compare a b := by
  induction a generalizing b with
  | nil =>
    obtain _ | ⟨d, b⟩ := b
    · rw [List.length_nil, Nat.min_self]
      rfl
    · have hd : 0 < d := UInt8.pos_iff_ne_zero.2 (hb d (by simp))
      rw [List.length_nil, Nat.zero_min, List.nil_append, List.cons_append, List.take_succ_cons,
        List.take_succ_cons, List.compare_cons_cons, Std.compare_eq_lt.2 hd, List.compare_nil_cons]
      rfl
  | cons c a ih =>
    obtain _ | ⟨d, b⟩ := b
    · have hc : 0 < c := UInt8.pos_iff_ne_zero.2 (ha c (by simp))
      rw [List.length_nil, Nat.min_zero, List.nil_append, List.cons_append, List.take_succ_cons,
        List.take_succ_cons, List.compare_cons_cons, Std.compare_eq_gt.2 hc, List.compare_cons_nil]
      rfl
    · rw [List.length_cons, List.length_cons, Nat.succ_min_succ, List.cons_append,
        List.cons_append, List.take_succ_cons, List.take_succ_cons, List.compare_cons_cons,
        List.compare_cons_cons,
        ih (fun x hx ↦ ha x (by simp [hx])) (fun x hx ↦ hb x (by simp [hx]))]

theorem strcmpAgrees_iff (ha : ∀ c ∈ a, c ≠ 0) (hb : ∀ c ∈ b, c ≠ 0)
    (afterA afterB : List UInt8) :
    StrcmpAgrees (a ++ 0 :: afterA) (b ++ 0 :: afterB) ↔ a = b ∧ a.length < 2 ^ 31 := by
  obtain ⟨v, hv, hvcmp⟩ := strcmp_eq ha hb afterA afterB
  obtain ⟨w, hw, hwcmp⟩ := @memcmp_eq (a ++ 0 :: afterA) (b ++ 0 :: afterB)
    (min a.length b.length + 1) (by rw [List.length_append, List.length_cons]; omega)
    (by rw [List.length_append, List.length_cons]; omega)
  have hswap : compare w 0 = compare b a := by
    rw [hwcmp, Nat.min_comm, compare_take hb ha]
  constructor
  · rintro ⟨i, j, v', w', hi, hj, hv', hw', hcmp⟩
    obtain ⟨rfl, hlt⟩ := (strlen_eq_ok ha afterA).1 hi
    obtain ⟨rfl, -⟩ := (strlen_eq_ok hb afterB).1 hj
    rw [hv, Except.ok.injEq] at hv'
    rw [hw, Except.ok.injEq] at hw'
    rw [← hv', ← hw', hvcmp, hswap] at hcmp
    exact ⟨eq_of_compare_comm hcmp, hlt⟩
  · rintro ⟨rfl, hlt⟩
    refine ⟨a.length, a.length, v, w, (strlen_eq_ok ha afterA).2 ⟨rfl, hlt⟩,
      (strlen_eq_ok hb afterB).2 ⟨rfl, hlt⟩, hv, hw, by rw [hvcmp, hswap]⟩

/-- **The comparison**: `memcmp` and `strcmp` go opposite ways, so they are right about an order, and
in agreement, only where nothing differs.  The lengths are those `strlen` counts in an `int`. -/
theorem memcmp_strcmp (hl : n ≤ lhs.length) (hr : n ≤ rhs.length) (ha : ∀ c ∈ a, c ≠ 0)
    (hb : ∀ c ∈ b, c ≠ 0) (afterA afterB : List UInt8) :
    (MemcmpOrders lhs rhs n ↔ lhs.take n = rhs.take n) ∧
      (StrcmpAgrees (a ++ 0 :: afterA) (b ++ 0 :: afterB) ↔ a = b ∧ a.length < 2 ^ 31) :=
  ⟨memcmpOrders_iff hl hr, strcmpAgrees_iff ha hb afterA afterB⟩

/-- One byte equal, one string of one character. -/
theorem memcmp_strcmp_equal :
    MemcmpOrders [1, 7] [1, 8] 1 ∧ StrcmpAgrees [98, 0, 5] [98, 0] := by
  have h := @memcmp_strcmp [1, 7] [1, 8] [98] [98] 1 (by decide) (by decide) (by simp) (by simp)
    [5] []
  exact ⟨h.1.2 rfl, h.2.2 ⟨rfl, by decide⟩⟩

/-- `memcmp` calls the greater of two bytes the smaller one, and `strcmp` does not. -/
theorem memcmp_strcmp_greater :
    ¬ MemcmpOrders [1] [0] 1 ∧ strcmp [98, 0] [97, 0] = .ok 1 ∧ ¬ StrcmpAgrees [98, 0] [97, 0] := by
  refine ⟨?_, by decide, ?_⟩
  · rintro ⟨v, hv, hcmp⟩
    cases hv
    revert hcmp
    decide
  · rintro ⟨i, j, v, w, hi, hj, hv, hw, hcmp⟩
    cases hi
    cases hj
    cases hv
    cases hw
    revert hcmp
    decide

end Compare

end LunarPrekernel
