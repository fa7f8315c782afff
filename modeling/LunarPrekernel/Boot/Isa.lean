import LunarPrekernel.Pmm.Paged
import LunarPrekernel.Runtime.Mem

/-!
# The ISA string

`parse_isa_string` of `arch/riscv64/isa.c` copies the ISA string into a block of its own: the base,
up to the first underscore, then an array of pointers, then the extensions, one string each.  It
makes three passes over its argument.  `strlen` and `scanIsa` say how long the string is, how many
underscores it has and where the first one is; the block is sized from these; and `copyPieces` cuts
the rest at its underscores.

The argument is given as the bytes that can be read from `isa_string` on, so that a read behind
them is a `fault`.  What the function does to memory is the list of its stores.
-/

set_option autoImplicit false

namespace LunarPrekernel

/-! ## The code -/

/-- `'_'`. -/
def underscore : UInt8 := 95

/-- The first loop of `parse_isa_string`, from index `i` on: `isa_string_len` and
`extention_count`. -/
def scanIsa : List UInt8 → Nat → Nat → Nat → Nat × Nat
  | [], _, isaStringLen, extentionCount => (isaStringLen, extentionCount)
  | c :: str, i, isaStringLen, extentionCount =>
    scanIsa str (i + 1) (if c = underscore ∧ isaStringLen = 0 then i else isaStringLen)
      (if c = underscore then extentionCount + 1 else extentionCount)

/-- Which part of the block a store is meant for. -/
inductive IsaRegion where
  | base
  | pointers
  | strings
deriving DecidableEq

/-- A store into the block. -/
structure IsaStore extends Memory.Patch where
  region : IsaRegion

/-- The variables of the copying loop, and the stores so far. -/
structure IsaCopy where
  cursor : Nat
  extIndex : Nat
  stores : List IsaStore

/-- `while(*end && *end != '_') { end++; }`: what is passed over, and what is left. -/
def pieceEnd : List UInt8 → Except Stop (List UInt8 × List UInt8)
  | [] => .error .fault
  | c :: str =>
    if c ≠ 0 ∧ c ≠ underscore then (pieceEnd str).map fun r ↦ (c :: r.1, r.2)
    else .ok ([], c :: str)

/-- What an iteration of the copying loop stores. -/
def IsaCopy.push (s : IsaCopy) (extensions : Nat) (piece : List UInt8) : IsaCopy where
  cursor := s.cursor + (piece.length + 1)
  extIndex := s.extIndex + 1
  stores := s.stores ++
    [⟨⟨extensions + 8 * s.extIndex, Memory.littleEndian 8 s.cursor⟩, .pointers⟩,
      ⟨⟨s.cursor, piece⟩, .strings⟩, ⟨⟨s.cursor + piece.length, [0]⟩, .strings⟩]

/-- The copying loop, with `p` at the given bytes. -/
def copyPieces : Nat → Nat → List UInt8 → IsaCopy → Except Stop IsaCopy
  | 0, _, _, _ => .error .fuel
  | _ + 1, _, [], _ => .error .fault
  | fuel + 1, extensions, c :: str, s =>
    if c = 0 then .ok s
    else
      (pieceEnd (c :: str)).bind fun r ↦
        match r.2 with
        | [] => .error .fault
        | d :: rest =>
          if d = 0 then .ok (s.push extensions r.1)
          else copyPieces fuel extensions rest (s.push extensions r.1)

/-- What `parse_isa_string` publishes. -/
structure IsaInfo where
  /-- `riscv_base_isa_string`. -/
  baseIsa : Nat
  /-- `riscv_extension_count`. -/
  extensionCount : Nat
  /-- `riscv_extentions`. -/
  extentions : Nat

/-- `info_size`, rounded up. -/
def isaInfoSize (isaLen extentionCount : Nat) : Nat :=
  mathAlignUp (add64 (add64 isaLen 1) (mul64 (add64 extentionCount 1) 8)) ptmPageGranularity

/-- `parse_isa_string`: what it publishes, its stores, and the map after its allocation. -/
def parseIsaString (m : PmmMap) (hhdmOffset : Nat) (isaString : List UInt8) :
    Except Stop (IsaInfo × List IsaStore × PmmMap) :=
  (strlen isaString).bind fun isaLen ↦
    let (isaStringLen, extentionCount) := scanIsa (isaString.take isaLen) 0 0 0
    (pmmAlloc m (isaInfoSize isaLen extentionCount / ptmPageGranularity)).bind fun r ↦
      let baseIsa := add64 r.1 hhdmOffset
      let extensions := mathAlignUp (baseIsa + (isaStringLen + 1)) 8
      let cursor := extensions + (extentionCount + 1) * 8
      let stores := [⟨⟨baseIsa, isaString.take isaStringLen⟩, .base⟩,
        ⟨⟨baseIsa + isaStringLen, [0]⟩, .base⟩]
      (copyPieces (isaString.length + 1) extensions (isaString.drop (isaStringLen + 1))
        ⟨cursor, 0, stores⟩).map fun s ↦
          (⟨baseIsa, s.extIndex, extensions⟩, s.stores, r.2)

/-! ## The three passes -/

section Passes

variable {str after : List UInt8}

/-- Where `parse_isa_string` thinks that the base ends: at the first underscore past index 0. -/
def isaMarker : List UInt8 → Nat
  | [] => 0
  | _ :: str => if underscore ∈ str then str.idxOf underscore + 1 else 0

theorem scanIsa_of_ne_zero {len : Nat} (h : len ≠ 0) (i n : Nat) :
    scanIsa str i len n = (len, n + str.count underscore) := by
  induction str generalizing i n with
  | nil => rw [scanIsa, List.count_nil, Nat.add_zero]
  | cons c str ih =>
    rw [scanIsa, if_neg (fun hc ↦ h hc.2), ih, List.count_cons]
    congr 1
    by_cases hc : c = underscore
    · simp only [hc, beq_self_eq_true, if_true]; omega
    · simp only [hc, beq_iff_eq, if_false]; omega

theorem scanIsa_zero {i : Nat} (hi : i ≠ 0) (n : Nat) :
    scanIsa str i 0 n =
      (if underscore ∈ str then str.idxOf underscore + i else 0, n + str.count underscore) := by
  induction str generalizing i n with
  | nil => simp [scanIsa]
  | cons c str ih =>
    rw [scanIsa]
    by_cases hc : c = underscore
    · subst hc
      rw [if_pos ⟨rfl, rfl⟩, if_pos rfl, scanIsa_of_ne_zero hi, if_pos (by simp),
        List.idxOf_cons_self, List.count_cons_self]
      congr 1 <;> omega
    · rw [if_neg (fun h ↦ hc h.1), if_neg hc, ih (by omega),
        List.idxOf_cons_ne _ hc, List.count_cons_of_ne hc]
      simp only [List.mem_cons, Ne.symm hc, false_or]
      congr 1
      split <;> omega

theorem scanIsa_eq (str : List UInt8) :
    scanIsa str 0 0 0 = (isaMarker str, str.count underscore) := by
  cases str with
  | nil => rfl
  | cons c str =>
    rw [scanIsa, isaMarker, ite_self, scanIsa_zero (by decide), List.count_cons]
    congr 1
    by_cases hc : c = underscore
    · simp only [hc, beq_self_eq_true, if_true]; omega
    · simp only [hc, beq_iff_eq, if_false]; omega

theorem pieceEnd_eq {piece rest : List UInt8} {d : UInt8}
    (h : ∀ c ∈ piece, c ≠ 0 ∧ c ≠ underscore) (hd : d = 0 ∨ d = underscore) :
    pieceEnd (piece ++ d :: rest) = .ok (piece, d :: rest) := by
  induction piece with
  | nil =>
    rw [List.nil_append, pieceEnd, if_neg]
    rintro ⟨h1, h2⟩
    exact hd.elim h1 h2
  | cons c piece ih =>
    rw [List.cons_append, pieceEnd, if_pos (h c (by simp)),
      ih fun e he ↦ h e (by simp [he])]
    rfl

/-- The pieces of a string between its underscores; what follows the last one is a piece only if
something does. -/
def isaPieces (str : List UInt8) : List (List UInt8) :=
  if (str.splitOn underscore).getLast? = some [] then (str.splitOn underscore).dropLast
  else str.splitOn underscore

theorem isaPieces_nil : isaPieces [] = [] := rfl

theorem isaPieces_of_not_mem (h : underscore ∉ str) (hne : str ≠ []) : isaPieces str = [str] := by
  rw [isaPieces, List.splitOn_eq_singleton h, if_neg (by simpa using hne)]

theorem isaPieces_append {piece : List UInt8} (h : underscore ∉ piece) (rest : List UInt8) :
    isaPieces (piece ++ underscore :: rest) = piece :: isaPieces rest := by
  have hsplit : (piece ++ underscore :: rest).splitOn underscore =
      piece :: rest.splitOn underscore := by
    rw [List.splitOn_append_cons_of_beq _ _ (beq_self_eq_true _), List.splitOn_eq_singleton h,
      List.singleton_append]
  obtain ⟨l, ls, hl⟩ := List.exists_cons_of_ne_nil (List.splitOn_ne_nil underscore rest)
  rw [isaPieces, isaPieces, hsplit, hl, List.getLast?_cons_cons, List.dropLast_cons_cons]
  split <;> rfl

/-- Piece by piece. -/
theorem isaPieces_induction {P : List UInt8 → Prop} (nil : P [])
    (last : ∀ str, str ≠ [] → underscore ∉ str → P str)
    (append : ∀ piece rest, underscore ∉ piece → P rest → P (piece ++ underscore :: rest))
    (str : List UInt8) : P str := by
  induction hn : str.length using Nat.strong_induction_on generalizing str with
  | _ n ih =>
    rcases eq_or_ne str [] with rfl | hne
    · exact nil
    by_cases hu : underscore ∈ str
    · obtain ⟨piece, rest, rfl, hpiece⟩ := List.eq_append_cons_of_mem hu
      refine append piece rest hpiece (ih rest.length ?_ rest rfl)
      rw [← hn, List.length_append, List.length_cons]
      omega
    · exact last str hne hu

theorem isaPieces_length_le (str : List UInt8) :
    (isaPieces str).length ≤ str.count underscore + 1 := by
  induction str using isaPieces_induction with
  | nil => exact Nat.zero_le _
  | last str hne hu => rw [isaPieces_of_not_mem hu hne, List.length_singleton]; omega
  | append piece rest hpiece ih =>
    rw [isaPieces_append hpiece, List.length_cons, List.count_append, List.count_cons_self]
    omega

/-- The bytes that the pieces take, with a NUL for each. -/
def isaBytes (pieces : List (List UInt8)) : Nat := (pieces.map fun piece ↦ piece.length + 1).sum

theorem isaBytes_eq (str : List UInt8) : isaBytes (isaPieces str) =
    if str = [] ∨ str.getLast? = some underscore then str.length else str.length + 1 := by
  induction str using isaPieces_induction with
  | nil => rfl
  | last str hne hu =>
    have hlast : str.getLast? ≠ some underscore := fun h ↦ hu (List.mem_of_getLast? h)
    rw [isaPieces_of_not_mem hu hne, if_neg (by simp [hne, hlast])]
    rfl
  | append piece rest hpiece ih =>
    have hsum : isaBytes (isaPieces (piece ++ underscore :: rest)) =
        piece.length + 1 + isaBytes (isaPieces rest) := by
      rw [isaPieces_append hpiece]
      rfl
    have hlen : (piece ++ underscore :: rest).length = piece.length + 1 + rest.length := by
      simp only [List.length_append, List.length_cons]; omega
    rw [hsum, ih, hlen]
    cases rest with
    | nil =>
      rw [if_pos (Or.inl rfl), if_pos (Or.inr (by simp))]
    | cons c rest =>
      have hlast : (piece ++ underscore :: c :: rest).getLast? = (c :: rest).getLast? := by
        rw [List.getLast?_append_of_ne_nil _ (List.cons_ne_nil _ _), List.getLast?_cons_cons]
      rw [hlast]
      simp only [reduceCtorEq, List.append_eq_nil_iff, and_false, false_or]
      split <;> omega

theorem isaPieces_ne_nil (hne : str ≠ []) : isaPieces str ≠ [] := by
  intro h
  have hbytes := isaBytes_eq str
  have hlen := List.length_pos_iff.mpr hne
  rw [h] at hbytes
  have hzero : isaBytes [] = 0 := rfl
  rw [hzero] at hbytes
  split at hbytes <;> omega

/-- The copying loop, on a string with whatever follows its NUL. -/
theorem copyPieces_eq (hstr : ∀ c ∈ str, c ≠ 0) (after : List UInt8) (extensions : Nat)
    (s : IsaCopy) (fuel : Nat) (hf : str.length < fuel) :
    copyPieces fuel extensions (str ++ 0 :: after) s =
      .ok ((isaPieces str).foldl (fun s piece ↦ s.push extensions piece) s) := by
  have hstep : ∀ {piece rest : List UInt8} {d : UInt8} (fuel : Nat) (s : IsaCopy),
      (∀ c ∈ piece, c ≠ 0) → underscore ∉ piece → (piece ++ [d]).head? ≠ some 0 →
      (d = 0 ∨ d = underscore) → copyPieces (fuel + 1) extensions (piece ++ d :: rest) s =
        if d = 0 then .ok (s.push extensions piece)
        else copyPieces fuel extensions rest (s.push extensions piece) := by
    intro piece rest d fuel s hpiece hu hhead hd
    have hend := @pieceEnd_eq piece rest d (fun e he ↦ ⟨hpiece e he, fun h ↦ hu (h ▸ he)⟩) hd
    cases piece with
    | nil =>
      have hd0 : d ≠ 0 := by simpa using hhead
      rw [List.nil_append] at hend ⊢
      rw [copyPieces, if_neg hd0, hend]
      rfl
    | cons c piece =>
      rw [List.cons_append] at hend ⊢
      rw [copyPieces, if_neg (hpiece c (by simp)), hend]
      rfl
  induction str using isaPieces_induction generalizing s fuel with
  | nil =>
    obtain ⟨fuel, rfl⟩ : ∃ f, fuel = f + 1 := ⟨fuel - 1, by omega⟩
    rfl
  | last str hne hu =>
    obtain ⟨fuel, rfl⟩ : ∃ f, fuel = f + 1 := ⟨fuel - 1, by omega⟩
    obtain ⟨c, str, rfl⟩ := List.exists_cons_of_ne_nil hne
    rw [hstep fuel s hstr hu (by simpa using hstr c (by simp)) (Or.inl rfl), if_pos rfl,
      isaPieces_of_not_mem hu hne]
    rfl
  | append piece rest hpiece ih =>
    obtain ⟨fuel, rfl⟩ : ∃ f, fuel = f + 1 := ⟨fuel - 1, by omega⟩
    have hmem : ∀ c ∈ piece ++ [underscore], c ≠ 0 := fun c hc ↦
      hstr c (by
        rcases List.mem_append.mp hc with hc | hc
        · simp [hc]
        · rw [List.mem_singleton.mp hc]; simp)
    rw [List.append_assoc, List.cons_append,
      hstep fuel s (fun c hc ↦ hmem c (by simp [hc])) hpiece
        (fun h ↦ hmem 0 (List.mem_of_head? h) rfl) (Or.inr rfl),
      if_neg (by decide), ih (fun c hc ↦ hstr c (by simp [hc])), isaPieces_append hpiece]
    · rfl
    · simp only [List.length_append, List.length_cons] at hf
      omega

theorem isaMarker_lt (hne : str ≠ []) : isaMarker str < str.length := by
  cases str with
  | nil => exact absurd rfl hne
  | cons c str =>
    rw [isaMarker, List.length_cons]
    split
    · rename_i h
      have := List.idxOf_lt_length_of_mem h
      omega
    · omega

end Passes

/-! ## The stores -/

/-- The stores of the copying loop, from its `extIndex`-th extension and `cursor` on. -/
def isaStores (extensions : Nat) : Nat → Nat → List (List UInt8) → List IsaStore
  | _, _, [] => []
  | extIndex, cursor, piece :: pieces =>
    ⟨⟨extensions + 8 * extIndex, Memory.littleEndian 8 cursor⟩, .pointers⟩ ::
      ⟨⟨cursor, piece⟩, .strings⟩ :: ⟨⟨cursor + piece.length, [0]⟩, .strings⟩ ::
      isaStores extensions (extIndex + 1) (cursor + (piece.length + 1)) pieces

section Stores

variable {extensions i c : Nat} {pieces : List (List UInt8)}

theorem isaBytes_cons (piece : List UInt8) (pieces : List (List UInt8)) :
    isaBytes (piece :: pieces) = piece.length + 1 + isaBytes pieces := rfl

theorem foldl_push (extensions : Nat) (pieces : List (List UInt8)) (s : IsaCopy) :
    pieces.foldl (fun s piece ↦ s.push extensions piece) s =
      ⟨s.cursor + isaBytes pieces, s.extIndex + pieces.length,
        s.stores ++ isaStores extensions s.extIndex s.cursor pieces⟩ := by
  induction pieces generalizing s with
  | nil => rw [List.foldl_nil, isaStores, List.append_nil]; rfl
  | cons piece pieces ih =>
    rw [List.foldl_cons, ih, isaStores, isaBytes_cons, List.length_cons]
    simp only [IsaCopy.push, List.append_assoc, List.cons_append, List.nil_append,
      IsaCopy.mk.injEq, and_true]
    omega

/-- Where the stores of the copying loop go. -/
theorem mem_isaStores {st : IsaStore} (h : st ∈ isaStores extensions i c pieces) :
    (st.region = .pointers ∧ extensions + 8 * i ≤ st.address ∧
      st.stop ≤ extensions + 8 * (i + pieces.length)) ∨
    (st.region = .strings ∧ c ≤ st.address ∧ st.stop ≤ c + isaBytes pieces) := by
  induction pieces generalizing i c with
  | nil => simp [isaStores] at h
  | cons piece pieces ih =>
    rw [isaStores, List.mem_cons, List.mem_cons, List.mem_cons] at h
    rw [List.length_cons, isaBytes_cons]
    rcases h with rfl | rfl | rfl | h
    · refine Or.inl ⟨rfl, le_rfl, ?_⟩
      simp only [Memory.Patch.stop_mk, Memory.littleEndian_length]
      omega
    · refine Or.inr ⟨rfl, le_rfl, ?_⟩
      simp only [Memory.Patch.stop_mk]
      omega
    · refine Or.inr ⟨rfl, Nat.le_add_right _ _, ?_⟩
      simp only [Memory.Patch.stop_mk, List.length_singleton]
      omega
    · rcases ih h with ⟨hr, h1, h2⟩ | ⟨hr, h1, h2⟩
      · exact Or.inl ⟨hr, by omega, by omega⟩
      · exact Or.inr ⟨hr, by omega, by omega⟩

theorem count_isaStores :
    ((isaStores extensions i c pieces).filter fun st ↦ st.region = .pointers).length =
      pieces.length := by
  induction pieces generalizing i c with
  | nil => rfl
  | cons piece pieces ih => simpa [isaStores] using ih

/-- The last byte of the block that the loop writes: the NUL of the last piece. -/
theorem last_isaStores (hne : pieces ≠ []) :
    ⟨⟨c + isaBytes pieces - 1, [0]⟩, .strings⟩ ∈ isaStores extensions i c pieces := by
  induction pieces generalizing i c with
  | nil => exact absurd rfl hne
  | cons piece pieces ih =>
    rw [isaStores, isaBytes_cons]
    rcases eq_or_ne pieces [] with rfl | hne'
    · refine List.mem_cons_of_mem _ (List.mem_cons_of_mem _ ?_)
      rw [List.mem_cons]
      left
      congr 2
    · have := ih (i := i + 1) (c := c + (piece.length + 1)) hne'
      rw [Nat.add_assoc] at this
      exact List.mem_cons_of_mem _ (List.mem_cons_of_mem _ (List.mem_cons_of_mem _ this))

theorem isaStores_pairwise (h : extensions + 8 * (i + pieces.length) ≤ c) :
    (isaStores extensions i c pieces).Pairwise fun s t ↦ s.Disjoint t.toPatch := by
  induction pieces generalizing i c with
  | nil => exact List.Pairwise.nil
  | cons piece pieces ih =>
    rw [List.length_cons] at h
    have hrest := ih (i := i + 1) (c := c + (piece.length + 1)) (by omega)
    have hbelow : ∀ {t : IsaStore}, t ∈ isaStores extensions (i + 1)
        (c + (piece.length + 1)) pieces → extensions + 8 * (i + 1) ≤ t.address ∧
          (t.stop ≤ c ∨ c + (piece.length + 1) ≤ t.address) := by
      intro t ht
      rcases mem_isaStores ht with ⟨-, h1, h2⟩ | ⟨-, h1, -⟩
      · exact ⟨h1, Or.inl (by omega)⟩
      · exact ⟨by omega, Or.inr h1⟩
    rw [isaStores]
    refine List.pairwise_cons.mpr ⟨fun t ht ↦ ?_, List.pairwise_cons.mpr ⟨fun t ht ↦ ?_,
      List.pairwise_cons.mpr ⟨fun t ht ↦ ?_, hrest⟩⟩⟩
    · left
      simp only [Memory.Patch.stop_mk, Memory.littleEndian_length]
      rcases List.mem_cons.mp ht with rfl | ht
      · simp only; omega
      rcases List.mem_cons.mp ht with rfl | ht
      · simp only; omega
      have := (hbelow ht).1
      omega
    · rcases List.mem_cons.mp ht with rfl | ht
      · exact Or.inl le_rfl
      rcases (hbelow ht).2 with h' | h'
      · exact Or.inr h'
      · left
        simp only [Memory.Patch.stop_mk]
        omega
    · rcases (hbelow ht).2 with h' | h'
      · exact Or.inr (h'.trans (Nat.le_add_right _ _))
      · left
        simp only [Memory.Patch.stop_mk, List.length_singleton]
        omega

/-- A memory that holds the stores has the pointers, and at each of them its piece. -/
theorem spells_isaStores {mem : Memory}
    (hmem : ∀ st ∈ isaStores extensions i c pieces, mem.Spells st.address st.bytes)
    (hc : c + isaBytes pieces < 2 ^ 64) {j : Nat} (hj : j < pieces.length) :
    mem.Spells (mem.load (extensions + 8 * (i + j)) 8) (pieces[j] ++ [0]) := by
  induction pieces generalizing i c j with
  | nil => exact absurd hj (Nat.not_lt_zero j)
  | cons piece pieces ih =>
    rw [isaBytes_cons] at hc
    cases j with
    | zero =>
      have hpointer := (hmem ⟨⟨extensions + 8 * i, Memory.littleEndian 8 c⟩, .pointers⟩
        (by simp [isaStores])).load
      rw [Nat.mod_eq_of_lt (by omega)] at hpointer
      rw [Nat.add_zero, hpointer]
      exact Memory.spells_append.mpr ⟨hmem ⟨⟨c, piece⟩, .strings⟩ (by simp [isaStores]),
        hmem ⟨⟨c + piece.length, [0]⟩, .strings⟩ (by simp [isaStores])⟩
    | succ j =>
      have := ih (i := i + 1) (c := c + (piece.length + 1))
        (fun st hst ↦ hmem st (by simp [isaStores, hst])) (by omega)
        (Nat.lt_of_succ_lt_succ (by rwa [List.length_cons] at hj))
      rw [Nat.add_right_comm i 1 j] at this
      exact this

end Stores

/-! ## The call -/

/-- The pieces that the call copies. -/
def isaCopied (str : List UInt8) : List (List UInt8) := isaPieces (str.drop (isaMarker str + 1))

/-- Where the pointers start, in a block at `base`. -/
def isaPointers (base : Nat) (str : List UInt8) : Nat := mathAlignUp (base + (isaMarker str + 1)) 8

/-- Where the extensions start, in a block at `base`. -/
def isaStrings (base : Nat) (str : List UInt8) : Nat :=
  isaPointers base str + (str.count underscore + 1) * 8

/-- All stores of the call, to a block at `base`. -/
def isaBlock (base : Nat) (str : List UInt8) : List IsaStore :=
  ⟨⟨base, str.take (isaMarker str)⟩, .base⟩ :: ⟨⟨base + isaMarker str, [0]⟩, .base⟩ ::
    isaStores (isaPointers base str) 0 (isaStrings base str) (isaCopied str)

section Call

variable {str : List UInt8} {m : PmmMap} {hhdmOffset base : Nat} {r : Nat × PmmMap}

theorem parseIsaString_eq (hstr : ∀ c ∈ str, c ≠ 0) (hne : str ≠ []) (hlen : str.length < 2 ^ 31)
    (after : List UInt8)
    (hr : pmmAlloc m (isaInfoSize str.length (str.count underscore) / ptmPageGranularity) = .ok r) :
    parseIsaString m hhdmOffset (str ++ 0 :: after) =
      .ok (⟨add64 r.1 hhdmOffset, (isaCopied str).length, isaPointers (add64 r.1 hhdmOffset) str⟩,
        isaBlock (add64 r.1 hhdmOffset) str, r.2) := by
  have hmarker := isaMarker_lt hne
  have hscan : strlen (str ++ 0 :: after) = .ok str.length := by
    rw [strlen, strlenFrom_eq hstr after 0 (by omega), Nat.zero_add]
  have htake : (str ++ 0 :: after).take (isaMarker str) = str.take (isaMarker str) :=
    List.take_append_of_le_length hmarker.le
  have hdrop : (str ++ 0 :: after).drop (isaMarker str + 1) =
      str.drop (isaMarker str + 1) ++ 0 :: after := List.drop_append_of_le_length hmarker
  have hrest : (str.drop (isaMarker str + 1)).length < (str ++ 0 :: after).length + 1 := by
    rw [List.length_drop, List.length_append]
    omega
  rw [parseIsaString, hscan, Except.bind, List.take_left]
  simp only [scanIsa_eq]
  rw [hr, Except.bind, htake, hdrop,
    copyPieces_eq (fun c hc ↦ hstr c (List.mem_of_mem_drop hc)) after _ _ _ hrest, foldl_push]
  simp only [Except.map, Nat.zero_add]
  rfl

/-- Without a character before it, the copying loop starts behind the NUL. -/
theorem parseIsaString_nil (m : PmmMap) (hhdmOffset : Nat) :
    ∃ e, parseIsaString m hhdmOffset [0] = .error e := by
  rw [parseIsaString]
  show ∃ e, (pmmAlloc m (isaInfoSize 0 0 / ptmPageGranularity)).bind _ = _
  cases pmmAlloc m (isaInfoSize 0 0 / ptmPageGranularity) with
  | error e => exact ⟨e, rfl⟩
  | ok r => exact ⟨.fault, rfl⟩

theorem parseIsaString_long (hstr : ∀ c ∈ str, c ≠ 0) (hlen : 2 ^ 31 ≤ str.length)
    (after : List UInt8) : parseIsaString m hhdmOffset (str ++ 0 :: after) = .error .fault := by
  rw [parseIsaString, strlen, strlenFrom_long hstr after 0 (by decide) (by omega)]
  rfl

theorem isaInfoSize_eq {n u : Nat} (hn : n < 2 ^ 31) (hu : u ≤ n) :
    isaInfoSize n u = (n + 1 + 8 * (u + 1) + 4095) / 4096 * 4096 := by
  rw [isaInfoSize, add64_eq (by omega : n + 1 < 2 ^ 64), add64_eq (by omega : u + 1 < 2 ^ 64),
    mul64_eq (by omega), add64_eq (by omega), mathAlignUp_page (by omega), Nat.mul_comm 8]

theorem isaPointers_eq (hbase : 8 ∣ base) (h : base + isaMarker str + 8 < 2 ^ 64) :
    isaPointers base str = base + (isaMarker str + 8) / 8 * 8 := by
  have halign : mathAlignUp (base + (isaMarker str + 1)) 8 =
      (base + (isaMarker str + 1) + 7) / 8 * 8 :=
    mathAlignUp_two_pow (k := 3) (by decide) (by omega)
  rw [isaPointers, halign]
  omega

theorem isaCopied_length_le (str : List UInt8) :
    (isaCopied str).length ≤ str.count underscore + 1 :=
  (isaPieces_length_le _).trans
    (Nat.succ_le_succ (List.Sublist.count_le _ (List.drop_sublist _ _)))

end Call

/-! ## The bounds of the block -/

/-- The stores stay inside the `size` bytes at `base`, there is a slot for each pointer, and what is
meant for one region does not overlap what is meant for another. -/
structure IsaBounded (base size slots : Nat) (stores : List IsaStore) : Prop where
  inside : ∀ st ∈ stores, base ≤ st.address ∧ st.stop ≤ base + size
  slots : (stores.filter fun st ↦ st.region = .pointers).length ≤ slots
  apart : ∀ s ∈ stores, ∀ t ∈ stores, s.region ≠ t.region → s.Disjoint t.toPatch

/-- The bytes lost before the pointers, which have to be aligned. -/
def isaPadding (str : List UInt8) : Nat := (8 - (isaMarker str + 1) % 8) % 8

/-- The bytes won by rounding the estimate up to whole pages. -/
def isaSlack (str : List UInt8) : Nat :=
  (4096 - (str.length + 1 + 8 * (str.count underscore + 1)) % 4096) % 4096

/-- The padding goes into the slack, or there is nothing behind it; a string that ends in an
underscore takes a byte less. -/
def IsaFits (str : List UInt8) : Prop :=
  str.drop (isaMarker str + 1) = [] ∨
    isaPadding str ≤ isaSlack str + if str.getLast? = some underscore then 1 else 0

instance (str : List UInt8) : Decidable (IsaFits str) := inferInstanceAs (Decidable (_ ∨ _))

section Bounds

variable {str : List UInt8} {m : PmmMap} {hhdmOffset base : Nat} {r : Nat × PmmMap}

/-- Each store, and the region it is meant for. -/
theorem mem_isaBlock (hne : str ≠ []) {st : IsaStore} (h : st ∈ isaBlock base str) :
    (st.region = .base ∧ base ≤ st.address ∧ st.stop ≤ base + (isaMarker str + 1)) ∨
    (st.region = .pointers ∧ isaPointers base str ≤ st.address ∧
      st.stop ≤ isaPointers base str + 8 * (isaCopied str).length) ∨
    (st.region = .strings ∧ isaStrings base str ≤ st.address ∧
      st.stop ≤ isaStrings base str + isaBytes (isaCopied str)) := by
  have hmarker := isaMarker_lt hne
  rw [isaBlock, List.mem_cons, List.mem_cons] at h
  rcases h with rfl | rfl | h
  · refine Or.inl ⟨rfl, le_rfl, ?_⟩
    simp only [Memory.Patch.stop_mk, List.length_take]
    omega
  · exact Or.inl ⟨rfl, Nat.le_add_right _ _, le_rfl⟩
  · rcases mem_isaStores h with h | h
    · rw [Nat.zero_add, Nat.mul_zero, Nat.add_zero] at h
      exact Or.inr (Or.inl h)
    · exact Or.inr (Or.inr h)

theorem count_isaBlock :
    ((isaBlock base str).filter fun st ↦ st.region = .pointers).length =
      (isaCopied str).length := by
  simpa [isaBlock] using count_isaStores

/-- The regions lie behind one another. -/
theorem isaBlock_order (hbase : 8 ∣ base) (h : base + isaMarker str + 8 < 2 ^ 64) :
    base + (isaMarker str + 1) ≤ isaPointers base str ∧
      isaPointers base str + 8 * (isaCopied str).length ≤ isaStrings base str := by
  have hcount := isaCopied_length_le str
  rw [isaStrings, isaPointers_eq hbase h]
  omega

theorem isaBlock_apart (hne : str ≠ []) (hbase : 8 ∣ base)
    (h : base + isaMarker str + 8 < 2 ^ 64) {s t : IsaStore} (hs : s ∈ isaBlock base str)
    (ht : t ∈ isaBlock base str) (hst : s.region ≠ t.region) : s.Disjoint t.toPatch := by
  obtain ⟨h1, h2⟩ := isaBlock_order hbase h
  rcases mem_isaBlock hne hs with ⟨hr, hs, hs'⟩ | ⟨hr, hs, hs'⟩ | ⟨hr, hs, hs'⟩ <;>
  rcases mem_isaBlock hne ht with ⟨hr', ht, ht'⟩ | ⟨hr', ht, ht'⟩ | ⟨hr', ht, ht'⟩ <;>
  first
  | exact absurd (hr.trans hr'.symm) hst
  | exact Or.inl (by omega)
  | exact Or.inr (by omega)

/-- Where the last extension ends. -/
theorem isaBlock_end (hne : str ≠ []) (hbase : 8 ∣ base) (h : base + isaMarker str + 8 < 2 ^ 64)
    (hrest : str.drop (isaMarker str + 1) ≠ []) :
    isaStrings base str + isaBytes (isaCopied str) +
        (if str.getLast? = some underscore then 1 else 0) =
      base + (str.length + 1 + 8 * (str.count underscore + 1)) + isaPadding str := by
  have hmarker := isaMarker_lt hne
  have hlast : (str.drop (isaMarker str + 1)).getLast? = str.getLast? := by
    rw [List.getLast?_drop, if_neg (by simpa using hrest)]
  have hlen : 0 < (str.drop (isaMarker str + 1)).length := List.length_pos_iff.mpr hrest
  rw [List.length_drop] at hlen
  rw [isaStrings, isaPointers_eq hbase h, isaCopied, isaBytes_eq, hlast, List.length_drop,
    isaPadding]
  simp only [hrest, false_or]
  split <;> omega

theorem isaSlack_spec (hlen : str.length < 2 ^ 31) :
    isaInfoSize str.length (str.count underscore) =
      str.length + 1 + 8 * (str.count underscore + 1) + isaSlack str := by
  rw [isaInfoSize_eq hlen List.count_le_length, isaSlack]
  omega

/-- A block of whole pages that ends before the last address leaves room for the padding. -/
theorem isaBlock_word (hne : str ≠ []) (hlen : str.length < 2 ^ 31) (hbase : 4096 ∣ base)
    (hword : base + isaInfoSize str.length (str.count underscore) < 2 ^ 64) :
    base + isaMarker str + 8 < 2 ^ 64 ∧
      isaStrings base str + isaBytes (isaCopied str) < 2 ^ 64 := by
  have hmarker := isaMarker_lt hne
  have h8 : 8 ∣ base := Dvd.dvd.trans (by decide) hbase
  have hsize := isaInfoSize_eq hlen (List.count_le_length (a := underscore))
  have h : base + isaMarker str + 8 < 2 ^ 64 := by omega
  refine ⟨h, ?_⟩
  by_cases hrest : str.drop (isaMarker str + 1) = []
  · have hbytes : isaBytes (isaCopied str) = 0 := by rw [isaCopied, hrest]; rfl
    rw [hbytes, isaStrings, isaPointers_eq h8 h]
    omega
  · have hend := isaBlock_end hne h8 h hrest
    have hpad : isaPadding str < 8 := Nat.mod_lt _ (by decide)
    omega

theorem isaBounded_iff (hne : str ≠ []) (hlen : str.length < 2 ^ 31) (hbase : 8 ∣ base)
    (h : base + isaMarker str + 8 < 2 ^ 64) :
    IsaBounded base (isaInfoSize str.length (str.count underscore)) (str.count underscore + 1)
      (isaBlock base str) ↔ IsaFits str := by
  have hmarker := isaMarker_lt hne
  have hslack := isaSlack_spec hlen
  obtain ⟨h1, h2⟩ := isaBlock_order hbase h
  constructor
  · intro hb
    by_cases hrest : str.drop (isaMarker str + 1) = []
    · exact Or.inl hrest
    refine Or.inr ?_
    have hend := isaBlock_end hne hbase h hrest
    have hpieces : isaCopied str ≠ [] := isaPieces_ne_nil hrest
    have hpos : 0 < isaBytes (isaCopied str) := by
      obtain ⟨piece, pieces, hp⟩ := List.exists_cons_of_ne_nil hpieces
      rw [hp, isaBytes_cons]
      omega
    have hlast := (hb.inside _ (List.mem_cons_of_mem _ (List.mem_cons_of_mem _
      (last_isaStores hpieces)))).2
    simp only [Memory.Patch.stop_mk, List.length_singleton] at hlast
    omega
  · intro hfits
    refine ⟨fun st hst ↦ ?_, ?_, fun s hs t ht ↦ isaBlock_apart hne hbase h hs ht⟩
    · by_cases hrest : str.drop (isaMarker str + 1) = []
      · have hpieces : isaCopied str = [] := by rw [isaCopied, hrest, isaPieces_nil]
        rw [isaBlock, hpieces, isaStores] at hst
        rw [isaSlack_spec hlen]
        simp only [List.mem_cons, List.not_mem_nil, or_false] at hst
        rcases hst with rfl | rfl
        · simp only [Memory.Patch.stop_mk, List.length_take]
          omega
        · simp only [Memory.Patch.stop_mk, List.length_singleton]
          omega
      · have hend := isaBlock_end hne hbase h hrest
        have hpad := hfits.resolve_left hrest
        rcases mem_isaBlock hne hst with ⟨-, hs, hs'⟩ | ⟨-, hs, hs'⟩ | ⟨-, hs, hs'⟩
        all_goals constructor <;> omega
    · rw [count_isaBlock]
      exact isaCopied_length_le str

/-- **The block is large enough** exactly for the strings whose padding fits into what rounding up
to pages leaves over. -/
theorem isa_buffer_bounds (hstr : ∀ c ∈ str, c ≠ 0) (hoff : ptmPageGranularity ∣ hhdmOffset)
    (hr : pmmAlloc m (isaInfoSize str.length (str.count underscore) / ptmPageGranularity) = .ok r)
    (hword : r.1 + hhdmOffset + isaInfoSize str.length (str.count underscore) < 2 ^ 64) :
    (∀ after, ∃ info stores m',
      parseIsaString m hhdmOffset (str ++ 0 :: after) = .ok (info, stores, m') ∧
      IsaBounded (r.1 + hhdmOffset) (isaInfoSize str.length (str.count underscore))
        (str.count underscore + 1) stores) ↔
      str ≠ [] ∧ str.length < 2 ^ 31 ∧ IsaFits str := by
  have hdvd : 4096 ∣ r.1 + hhdmOffset := dvd_add (pmmAlloc_dvd hr) hoff
  have hbase : 8 ∣ r.1 + hhdmOffset := Dvd.dvd.trans (by decide) hdvd
  have hadd : add64 r.1 hhdmOffset = r.1 + hhdmOffset := add64_eq (by omega)
  constructor
  · intro h
    have hne : str ≠ [] := by
      rintro rfl
      obtain ⟨info, stores, m', hp, -⟩ := h []
      obtain ⟨e, he⟩ := parseIsaString_nil m hhdmOffset
      rw [List.nil_append, he] at hp
      cases hp
    obtain ⟨info, stores, m', hp, hb⟩ := h []
    have hlen : str.length < 2 ^ 31 := by
      by_contra hlong
      rw [parseIsaString_long hstr (not_lt.mp hlong)] at hp
      cases hp
    rw [parseIsaString_eq hstr hne hlen [] hr, hadd] at hp
    cases hp
    exact ⟨hne, hlen, (isaBounded_iff hne hlen hbase (isaBlock_word hne hlen hdvd hword).1).mp hb⟩
  · rintro ⟨hne, hlen, hfits⟩ after
    refine ⟨_, _, _, parseIsaString_eq hstr hne hlen after hr, ?_⟩
    rw [hadd]
    exact (isaBounded_iff hne hlen hbase (isaBlock_word hne hlen hdvd hword).1).mpr hfits

/-- A map with one free range, and the page it gives out first. -/
theorem exists_isaPage : ∃ m r, pmmMapAdd .empty 0x1000 0x10000 .free = .ok m ∧
    pmmAlloc m 1 = .ok r ∧ r.1 = 0x1000 := by
  have hrun : ((pmmMapAdd .empty 0x1000 0x10000 .free).toOption.bind fun m ↦
      (pmmAlloc m 1).toOption.map fun r ↦ r.1) = some 0x1000 := by
    decide +kernel
  obtain ⟨m, hm, hrun⟩ := Option.bind_eq_some_iff.mp hrun
  obtain ⟨r, hr, hfirst⟩ := Option.map_eq_some_iff.mp hrun
  exact ⟨m, r, toOption_eq_some hm, toOption_eq_some hr, hfirst⟩

/-- `rv64i_m` fits. -/
theorem isa_buffer_bounds_short : ∃ m, pmmMapAdd .empty 0x1000 0x10000 .free = .ok m ∧
    ∀ after, ∃ info stores m',
      parseIsaString m 0xffffffc000000000 ([114, 118, 54, 52, 105, 95, 109] ++ 0 :: after) =
        .ok (info, stores, m') ∧
      IsaBounded 0xffffffc000001000 4096 2 stores := by
  obtain ⟨m, r, hm, hr, hfirst⟩ := exists_isaPage
  have h := (@isa_buffer_bounds [114, 118, 54, 52, 105, 95, 109] m 0xffffffc000000000 r (by simp)
    (by decide) hr (by rw [hfirst]; decide)).mpr ⟨by decide, by decide, by decide⟩
  rw [hfirst] at h
  exact ⟨m, hm, h⟩

/-- **A string that does not fit.**  `rv64_` and 4074 characters make an estimate of one page to the
byte; the three bytes of padding before the pointers push the end of the extension out of it. -/
theorem isa_buffer_overrun : ∃ m r info stores m',
    pmmMapAdd .empty 0x1000 0x10000 .free = .ok m ∧ isaInfoSize 4079 1 = 4096 ∧
    pmmAlloc m 1 = .ok r ∧ r.1 = 0x1000 ∧
    parseIsaString m 0xffffffc000000000
      (([114, 118, 54, 52, 95] ++ List.replicate 4074 97) ++ [0]) = .ok (info, stores, m') ∧
    (∃ st ∈ stores, st.stop = 0xffffffc000001000 + 4099) ∧
    ¬ IsaBounded 0xffffffc000001000 4096 2 stores := by
  obtain ⟨m, r, hm, hr, hfirst⟩ := exists_isaPage
  obtain ⟨str, hstr⟩ : ∃ str : List UInt8, str = [114, 118, 54, 52, 95] ++ List.replicate 4074 97 :=
    ⟨_, rfl⟩
  have hlen : str.length = 4079 := by rw [hstr]; decide +kernel
  have hcount : str.count underscore = 1 := by rw [hstr]; decide +kernel
  have hfits : ¬ IsaFits str := by rw [hstr]; decide +kernel
  have hzero : ∀ c ∈ str, c ≠ 0 := by
    rw [hstr]
    intro c hc
    rcases List.mem_append.mp hc with hc | hc
    · fin_cases hc <;> decide
    · rw [List.eq_of_mem_replicate hc]
      decide
  have hne : str ≠ [] := by rw [hstr]; decide
  have hsize : isaInfoSize str.length (str.count underscore) = 4096 := by rw [hlen, hcount]; decide
  have hp := @parseIsaString_eq str m 0xffffffc000000000 r hzero hne (by omega) []
    (by rw [hsize]; exact hr)
  rw [hfirst] at hp
  have hend : ∃ st ∈ isaBlock 0xffffffc000001000 str, st.stop = 0xffffffc000001000 + 4099 := by
    rw [hstr]; decide +kernel
  have hbounded := @isaBounded_iff str 0xffffffc000001000 hne (by omega) (by decide)
    ((isaBlock_word hne (by omega) (by decide) (by rw [hsize]; decide)).1)
  rw [hsize, hcount] at hbounded
  rw [← hstr]
  exact ⟨m, r, _, _, _, hm, by decide, hr, hfirst, hp, hend, fun hb ↦ hfits (hbounded.mp hb)⟩

end Bounds

/-! ## What is published -/

/-- The string up to its first underscore. -/
def isaBase (str : List UInt8) : List UInt8 := str.takeWhile fun c ↦ c ≠ underscore

/-- What stands behind the first underscore. -/
def isaRest (str : List UInt8) : List UInt8 := (str.dropWhile fun c ↦ c ≠ underscore).tail

/-- The pieces of the rest, none if there is no rest. -/
def isaExtensions (str : List UInt8) : List (List UInt8) :=
  if isaRest str = [] then [] else (isaRest str).splitOn underscore

/-- The boot information points to these strings. -/
structure IsaPublished (mem : Memory) (info : IsaInfo) (base : List UInt8)
    (extentions : List (List UInt8)) : Prop where
  base : mem.Spells info.baseIsa (base ++ [0])
  count : info.extensionCount = extentions.length
  extentions : ∀ i (h : i < extentions.length),
    mem.Spells (mem.load (info.extentions + 8 * i) 8) (extentions[i] ++ [0])

/-- The call reads nothing but the string and its NUL, and publishes these strings, whatever memory
held before. -/
def IsaParsed (m : PmmMap) (hhdmOffset : Nat) (str base : List UInt8)
    (extentions : List (List UInt8)) : Prop :=
  ∃ info stores m', parseIsaString m hhdmOffset (str ++ [0]) = .ok (info, stores, m') ∧
    ∀ mem : Memory, IsaPublished (mem.patch (stores.map IsaStore.toPatch)) info base extentions

/-- There is an underscore, and the one that ends the base is the first. -/
def IsaSplits (str : List UInt8) : Prop :=
  underscore ∈ str ∧ (str.head? = some underscore → underscore ∉ str.tail)

instance (str : List UInt8) : Decidable (IsaSplits str) := inferInstanceAs (Decidable (_ ∧ _))

section Published

variable {str base rest : List UInt8} {m : PmmMap} {hhdmOffset address : Nat} {r : Nat × PmmMap}

theorem isaBase_append (h : underscore ∉ base) : isaBase (base ++ underscore :: rest) = base := by
  have hpos : ∀ c ∈ base, decide (c ≠ underscore) = true :=
    fun c hc ↦ decide_eq_true (ne_of_mem_of_not_mem hc h)
  rw [isaBase, List.takeWhile_append_of_pos hpos,
    List.takeWhile_cons_of_neg (by simp), List.append_nil]

theorem isaRest_append (h : underscore ∉ base) : isaRest (base ++ underscore :: rest) = rest := by
  have hpos : ∀ c ∈ base, decide (c ≠ underscore) = true :=
    fun c hc ↦ decide_eq_true (ne_of_mem_of_not_mem hc h)
  rw [isaRest, List.dropWhile_append_of_pos hpos,
    List.dropWhile_cons_of_neg (by simp), List.tail_cons]

theorem isaMarker_append (h : underscore ∉ base) (h' : base = [] → underscore ∉ rest) :
    isaMarker (base ++ underscore :: rest) = base.length := by
  cases base with
  | nil => rw [List.nil_append, isaMarker, if_neg (h' rfl), List.length_nil]
  | cons c base =>
    rw [List.cons_append, isaMarker, if_pos (by simp),
      List.idxOf_append_of_notMem (fun hc ↦ h (by simp [hc])), List.idxOf_cons_self, Nat.add_zero,
      List.length_cons]

/-- Where the base ends at the first underscore, the call does what it should. -/
theorem IsaSplits.eq (h : IsaSplits str) :
    str.take (isaMarker str) = isaBase str ∧ isaCopied str = isaPieces (isaRest str) := by
  obtain ⟨base, rest, rfl, hbase⟩ := List.eq_append_cons_of_mem h.1
  have hmarker : isaMarker (base ++ underscore :: rest) = base.length := by
    refine isaMarker_append hbase ?_
    rintro rfl
    exact h.2 rfl
  rw [isaCopied, hmarker, isaBase_append hbase, isaRest_append hbase, List.take_left]
  refine ⟨rfl, ?_⟩
  rw [← List.drop_drop, List.drop_left, List.drop_one, List.tail_cons]

/-- Where it does not, already the first byte of the base is wrong. -/
theorem IsaSplits.of_head (hstr : ∀ c ∈ str, c ≠ 0) (hne : str ≠ [])
    (h : (str.take (isaMarker str) ++ [0]).head? = (isaBase str ++ [0]).head?) :
    IsaSplits str := by
  obtain ⟨c, str, rfl⟩ := List.exists_cons_of_ne_nil hne
  have hc : c ≠ 0 := hstr c (by simp)
  rw [isaMarker] at h
  by_cases hmem : underscore ∈ str
  · refine ⟨by simp [hmem], fun hhead ↦ ?_⟩
    obtain rfl := Option.some.inj hhead
    rw [if_pos hmem, List.take_succ_cons, isaBase, List.takeWhile_cons_of_neg (by simp)] at h
    exact absurd (Option.some.inj h) (by decide)
  · refine ⟨?_, fun _ ↦ hmem⟩
    by_contra hno
    have hcu : c ≠ underscore := fun he ↦ hno (by simp [he])
    rw [if_neg hmem, List.take_zero, isaBase,
      List.takeWhile_cons_of_pos (by simpa using hcu)] at h
    exact hc (Option.some.inj h).symm

theorem getLast?_splitOn (str : List UInt8) :
    (str.splitOn underscore).getLast? = some [] ↔ str = [] ∨ str.getLast? = some underscore := by
  induction str using isaPieces_induction with
  | nil => simp
  | last str hne hu =>
    rw [List.splitOn_eq_singleton hu]
    have hlast : str.getLast? ≠ some underscore := fun h ↦ hu (List.mem_of_getLast? h)
    simp [hne, hlast]
  | append piece rest hpiece ih =>
    obtain ⟨l, ls, hl⟩ := List.exists_cons_of_ne_nil (List.splitOn_ne_nil underscore rest)
    rw [List.splitOn_append_cons_of_beq _ _ (beq_self_eq_true _), List.splitOn_eq_singleton hpiece,
      List.singleton_append, hl, List.getLast?_cons_cons, ← hl, ih]
    cases rest with
    | nil => simp
    | cons c rest =>
      rw [List.getLast?_append_of_ne_nil _ (List.cons_ne_nil _ _), List.getLast?_cons_cons]
      simp

/-- The pieces are what the rest splits into, but for an empty piece behind a last underscore. -/
theorem isaExtensions_eq_iff :
    (isaExtensions str).length = (isaPieces (isaRest str)).length ↔
      (isaRest str).getLast? ≠ some underscore := by
  rw [isaExtensions, isaPieces]
  by_cases hrest : isaRest str = []
  · simp [hrest]
  · have hpos := List.length_pos_iff.mpr (List.splitOn_ne_nil underscore (isaRest str))
    simp only [getLast?_splitOn, hrest, if_false, false_or]
    split
    · rename_i hlast
      rw [List.length_dropLast]
      exact ⟨fun h ↦ by omega, fun h ↦ absurd hlast h⟩
    · rename_i hlast
      exact ⟨fun _ ↦ hlast, fun _ ↦ rfl⟩

theorem isaExtensions_eq (h : (isaRest str).getLast? ≠ some underscore) :
    isaExtensions str = isaPieces (isaRest str) := by
  rw [isaExtensions, isaPieces]
  by_cases hrest : isaRest str = []
  · simp [hrest]
  · rw [if_neg hrest, if_neg (by rw [getLast?_splitOn]; simp [hrest, h])]

theorem isaBlock_pairwise (hne : str ≠ []) (haddress : 8 ∣ address)
    (h : address + isaMarker str + 8 < 2 ^ 64) :
    (isaBlock address str).Pairwise fun s t ↦ s.Disjoint t.toPatch := by
  have hmarker := isaMarker_lt hne
  obtain ⟨h1, h2⟩ := isaBlock_order haddress h
  have hbehind : ∀ st ∈ isaStores (isaPointers address str) 0 (isaStrings address str)
      (isaCopied str), address + (isaMarker str + 1) ≤ st.address := by
    intro st hst
    rcases mem_isaStores hst with ⟨-, h, -⟩ | ⟨-, h, -⟩ <;> omega
  refine List.pairwise_cons.mpr ⟨fun t ht ↦ Or.inl ?_, List.pairwise_cons.mpr
    ⟨fun t ht ↦ Or.inl (hbehind t ht), isaStores_pairwise (by rwa [Nat.zero_add])⟩⟩
  simp only [Memory.Patch.stop_mk, List.length_take]
  rcases List.mem_cons.mp ht with rfl | ht
  · exact Nat.add_le_add_left (Nat.min_le_left _ _) _
  · have := hbehind t ht
    omega

/-- Memory after the stores of the call. -/
theorem isaBlock_published (hne : str ≠ []) (haddress : 8 ∣ address)
    (h : address + isaMarker str + 8 < 2 ^ 64)
    (hend : isaStrings address str + isaBytes (isaCopied str) < 2 ^ 64) (mem : Memory) :
    IsaPublished (mem.patch ((isaBlock address str).map IsaStore.toPatch))
      ⟨address, (isaCopied str).length, isaPointers address str⟩ (str.take (isaMarker str))
      (isaCopied str) := by
  have hspells : ∀ st ∈ isaBlock address str,
      (mem.patch ((isaBlock address str).map IsaStore.toPatch)).Spells st.address st.bytes :=
    fun st hst ↦ Memory.spells_patch (List.pairwise_map.mpr (isaBlock_pairwise hne haddress h)) mem
      (List.mem_map_of_mem hst)
  refine ⟨Memory.spells_append.mpr ⟨hspells ⟨⟨address, str.take (isaMarker str)⟩, .base⟩
    List.mem_cons_self, ?_⟩, rfl, fun i hi ↦ ?_⟩
  · rw [List.length_take_of_le (isaMarker_lt hne).le]
    exact hspells ⟨⟨address + isaMarker str, [0]⟩, .base⟩
      (List.mem_cons_of_mem _ List.mem_cons_self)
  · have := spells_isaStores (i := 0)
      (fun st hst ↦ hspells st (List.mem_cons_of_mem _ (List.mem_cons_of_mem _ hst))) hend hi
    rwa [Nat.zero_add] at this

theorem head?_of_spells {mem : Memory} {k l : List UInt8} (hk : mem.Spells address (k ++ [0]))
    (hl : mem.Spells address (l ++ [0])) : (k ++ [0]).head? = (l ++ [0]).head? := by
  have hk := hk 0 (by simp)
  rw [hl 0 (by simp)] at hk
  rw [List.head?_eq_getElem?, List.head?_eq_getElem?, List.getElem?_eq_getElem (by simp),
    List.getElem?_eq_getElem (by simp), hk]

/-- What the call publishes, if the block is not at the very end of the address space. -/
theorem isaParsed_base (hstr : ∀ c ∈ str, c ≠ 0) (hoff : ptmPageGranularity ∣ hhdmOffset)
    (hr : pmmAlloc m (isaInfoSize str.length (str.count underscore) / ptmPageGranularity) = .ok r)
    (hword : r.1 + hhdmOffset + isaInfoSize str.length (str.count underscore) < 2 ^ 64)
    (hne : str ≠ []) (hlen : str.length < 2 ^ 31) :
    IsaParsed m hhdmOffset str (str.take (isaMarker str)) (isaCopied str) := by
  have hdvd : 4096 ∣ r.1 + hhdmOffset := dvd_add (pmmAlloc_dvd hr) hoff
  obtain ⟨h1, h2⟩ := isaBlock_word hne hlen hdvd hword
  have hadd : add64 r.1 hhdmOffset = r.1 + hhdmOffset := add64_eq (by omega)
  refine ⟨_, _, _, parseIsaString_eq hstr hne hlen [] hr, fun mem ↦ ?_⟩
  rw [hadd]
  exact isaBlock_published hne (Dvd.dvd.trans (by decide) hdvd) h1 h2 mem

/-- What is published is published once. -/
theorem IsaParsed.unique {k : List UInt8} {exts exts' : List (List UInt8)}
    (h : IsaParsed m hhdmOffset str base exts) (h' : IsaParsed m hhdmOffset str k exts') :
    (base ++ [0]).head? = (k ++ [0]).head? ∧ exts.length = exts'.length := by
  obtain ⟨info, stores, m', hp, hpub⟩ := h
  obtain ⟨info', stores', m'', hp', hpub'⟩ := h'
  rw [hp] at hp'
  cases hp'
  have h1 := hpub fun _ ↦ 0
  have h2 := hpub' fun _ ↦ 0
  exact ⟨head?_of_spells h1.base h2.base, h1.count.symm.trans h2.count⟩

/-- A call that publishes something got to the end of its argument. -/
theorem IsaParsed.length_lt {exts : List (List UInt8)} (hstr : ∀ c ∈ str, c ≠ 0)
    (h : IsaParsed m hhdmOffset str base exts) : str ≠ [] ∧ str.length < 2 ^ 31 := by
  obtain ⟨info, stores, m', hp, -⟩ := h
  constructor
  · rintro rfl
    obtain ⟨e, he⟩ := parseIsaString_nil m hhdmOffset
    rw [List.nil_append, he] at hp
    cases hp
  · by_contra hlong
    rw [parseIsaString_long hstr (not_lt.mp hlong)] at hp
    cases hp

/-- **The string is taken apart at its underscores** exactly where the first of them ends the base:
there is one, and if it is the first character it is the only one.  Read to the letter, the rest
must not end in an underscore either, for the empty piece behind it is dropped. -/
theorem parse_isa_string_splits (hstr : ∀ c ∈ str, c ≠ 0) (hoff : ptmPageGranularity ∣ hhdmOffset)
    (hr : pmmAlloc m (isaInfoSize str.length (str.count underscore) / ptmPageGranularity) = .ok r)
    (hword : r.1 + hhdmOffset + isaInfoSize str.length (str.count underscore) < 2 ^ 64) :
    (IsaParsed m hhdmOffset str (isaBase str) (isaPieces (isaRest str)) ↔
      IsaSplits str ∧ str.length < 2 ^ 31) ∧
    (IsaParsed m hhdmOffset str (isaBase str) (isaExtensions str) ↔
      (IsaSplits str ∧ str.length < 2 ^ 31) ∧ (isaRest str).getLast? ≠ some underscore) := by
  have hsplit : ∀ {exts : List (List UInt8)}, IsaParsed m hhdmOffset str (isaBase str) exts →
      (IsaSplits str ∧ str.length < 2 ^ 31) ∧
        exts.length = (isaPieces (isaRest str)).length := by
    intro exts h
    obtain ⟨hne, hlen⟩ := h.length_lt hstr
    obtain ⟨hhead, hcount⟩ :=
      IsaParsed.unique (isaParsed_base hstr hoff hr hword hne hlen) h
    have hs := IsaSplits.of_head hstr hne hhead
    exact ⟨⟨hs, hlen⟩, by rw [← hcount, hs.eq.2]⟩
  have hparsed : IsaSplits str ∧ str.length < 2 ^ 31 →
      IsaParsed m hhdmOffset str (isaBase str) (isaPieces (isaRest str)) := by
    rintro ⟨hs, hlen⟩
    have hbase := isaParsed_base hstr hoff hr hword (List.ne_nil_of_mem hs.1) hlen
    rwa [hs.eq.1, hs.eq.2] at hbase
  refine ⟨⟨fun h ↦ (hsplit h).1, hparsed⟩, ⟨fun h ↦ ?_, fun ⟨h, hlast⟩ ↦ ?_⟩⟩
  · exact ⟨(hsplit h).1, isaExtensions_eq_iff.mp (hsplit h).2⟩
  · rw [isaExtensions_eq hlast]
    exact hparsed h

/-- `rv64i_m_a`. -/
theorem parse_isa_string_splits_rv64i : ∃ m, pmmMapAdd .empty 0x1000 0x10000 .free = .ok m ∧
    IsaParsed m 0xffffffc000000000 [114, 118, 54, 52, 105, 95, 109, 95, 97]
      [114, 118, 54, 52, 105] [[109], [97]] := by
  obtain ⟨m, r, hm, hr, hfirst⟩ := exists_isaPage
  exact ⟨m, hm, (@parse_isa_string_splits [114, 118, 54, 52, 105, 95, 109, 95, 97] m
    0xffffffc000000000 r (by simp) (by decide) hr
    (by rw [hfirst]; decide)).2.mpr (by decide)⟩

/-- **A string without an underscore.**  `rv64` is published as an empty base with the extension
`v64`. -/
theorem parse_isa_string_loses_base : ∃ m, pmmMapAdd .empty 0x1000 0x10000 .free = .ok m ∧
    IsaParsed m 0xffffffc000000000 [114, 118, 54, 52] [] [[118, 54, 52]] ∧
    isaBase [114, 118, 54, 52] = [114, 118, 54, 52] ∧ isaExtensions [114, 118, 54, 52] = [] ∧
    ¬ IsaParsed m 0xffffffc000000000 [114, 118, 54, 52] (isaBase [114, 118, 54, 52])
      (isaExtensions [114, 118, 54, 52]) := by
  obtain ⟨m, r, hm, hr, hfirst⟩ := exists_isaPage
  have hp := @isaParsed_base [114, 118, 54, 52] m 0xffffffc000000000 r (by simp) (by decide) hr
    (by rw [hfirst]; decide) (by decide) (by decide)
  exact ⟨m, hm, hp, by decide, by decide, fun h ↦ absurd (hp.unique h).2 (by decide)⟩

end Published

end LunarPrekernel
