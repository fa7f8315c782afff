import LunarPrekernel.Pmm.Faithful

/-!
# How much longer an attempt makes the table

Code that exports the table into a block it allocates has to size the block before the allocation
changes the table, and gives the block back when it turns out too small.  `grown_mem` and `free_grown`
bound what one such attempt does: a block that makes the table longer is an entry of its own, and
once it is given back the table is at most one entry longer than before, although the free entry the
block was cut out of may have lost its end to another entry for good.
-/

set_option autoImplicit false

namespace LunarPrekernel

open SpanMap Span PmmMap

/-! ## What lies beside a range -/

section Beside

variable {l : List PmmMapEntry} {x : PmmMapEntry} {a : Nat} {type : PmmMapType}

theorem mem_of_typeAt (ht : Tiled l) (h : typeAt l a = some type) :
    ∃ p ∈ l, p.type = type ∧ p.Contains a := by
  obtain ⟨p, hp, hpa⟩ := typeAt_isSome.mp (show typeAt l a ≠ none by rw [h]; simp)
  rw [ht.typeAt_of_within hp hpa] at h
  exact ⟨p, hp, Option.some.inj h, hpa⟩

/-- The address before `a` has a type that the entry at `a` has not: that entry begins at `a`, and
the one before runs up to it. -/
theorem beside_below (ht : Tiled l) (hx : x ∈ l) (hxa : x.Contains a) (hne : x.type ≠ type)
    (ha : 0 < a) (h : typeAt l (a - 1) = some type) :
    x.base = a ∧ ∃ p ∈ l, p.type = type ∧ p.stop = a := by
  obtain ⟨p, hp, hpt, hpa⟩ := mem_of_typeAt ht h
  have hno : ∀ b, p.Contains b → ¬ x.Contains b := by
    rintro b hpb hxb
    rw [ht.unique hp hx hpb hxb] at hpt
    exact hne hpt
  refine ⟨?_, p, hp, hpt, ?_⟩
  · have := hno (a - 1) hpa
    simp only [Contains] at *; omega
  · have : ¬ p.Contains a := fun hpb ↦ hno a hpb hxa
    simp only [Contains] at *; omega

/-- The address `a` has a type that the entry before it has not: that entry ends at `a`, and the next
one runs on from it. -/
theorem beside_above (ht : Tiled l) (hx : x ∈ l) (hxa : x.Contains (a - 1)) (hne : x.type ≠ type)
    (ha : 0 < a) (h : typeAt l a = some type) :
    x.stop = a ∧ ∃ q ∈ l, q.type = type ∧ q.base = a := by
  obtain ⟨q, hq, hqt, hqa⟩ := mem_of_typeAt ht h
  have hno : ∀ b, q.Contains b → ¬ x.Contains b := by
    rintro b hqb hxb
    rw [ht.unique hq hx hqb hxb] at hqt
    exact hne hqt
  refine ⟨?_, q, hq, hqt, ?_⟩
  · have := hno a hqa
    simp only [Contains] at *; omega
  · have : ¬ q.Contains (a - 1) := fun hqb ↦ hno (a - 1) hqb hxa
    simp only [Contains] at *; omega

end Beside

/-! ## One attempt -/

section Attempt

variable {m m' : PmmMap} {x : PmmMapEntry} {base length stop : Nat} {type : PmmMapType}

/-- A call that returns, on a range inside one entry. -/
theorem set_inside (hwf : m.Wf) (hx : x ∈ m.live) (hl : base + length = stop) (hbs : base < stop)
    (h1 : x.base ≤ base) (h2 : stop ≤ x.stop) (h : pmmMapSet m base length type true = .ok m') :
    m'.Wf ∧ typeAt m'.live = overwrite (typeAt m.live) base stop (fun _ ↦ type) ∧
      Within m'.live base stop := by
  subst hl
  have hxb := hwf.bound x hx
  rcases pmmMapSet_force_within base length type hwf (by omega) fun _ ↦ ⟨x, hx, h1, h2⟩ with
    ⟨k, hk, hwf', ht, -, hw⟩ | ⟨e, herr, -⟩
  · rw [h] at hk
    obtain rfl := Except.ok.inj hk
    exact ⟨hwf', ht, hw (by omega)⟩
  · rw [h] at herr
    cases herr

/-- A range that gets another type than the entry it lies in, and makes the table longer, is an entry
of its own.  It is longer by one, or the entry is left with a part below the range. -/
theorem grown_mem (hwf : m.Wf) (hx : x ∈ m.live) (hl : base + length = stop) (hbs : base < stop)
    (h1 : x.base ≤ base) (h2 : stop ≤ x.stop) (hne : x.type ≠ type)
    (h : pmmMapSet m base length type true = .ok m') (hgrown : m.size < m'.size) :
    ⟨base, length, type⟩ ∈ m'.live ∧
      (m'.size ≤ m.size + 1 ∨ x.base < base ∧ m'.size ≤ m.size + 2) := by
  obtain ⟨hsize, -⟩ := size_of_set hwf.tiled hwf.bound hx hl hbs h1 h2 hne
    (hwf.not_swallowed hbs) h
  obtain ⟨hwf', ht, z, hz, hz1, hz2⟩ := set_inside hwf hx hl hbs h1 h2 h
  have hztype : z.type = type := by
    have hzb := hwf'.tiled.typeAt_of_within hz (a := base) ⟨hz1, by omega⟩
    rw [ht, overwrite_of_mem le_rfl hbs] at hzb
    exact (Option.some.inj hzb).symm
  -- glued to an entry beside it, the range would have made the table no longer
  have hnot : ¬ (¬ (x.base < base ∧ stop < x.stop) ∧ Touches m.live ⟨base, length, type⟩) := by
    rintro ⟨hin, htouch⟩
    rw [sizeTaken, if_neg hin, show stop - base = length by omega] at hsize
    dsimp only at hsize
    rw [if_pos htouch] at hsize
    split at hsize <;> omega
  have hzbase : z.base = base := by
    by_contra hlt
    have hout := hwf'.tiled.typeAt_of_within hz (a := base - 1)
      ⟨by omega, by omega⟩
    rw [ht, overwrite_of_not_mem (by omega), hztype] at hout
    obtain ⟨hxb, p, hp, hpt, hps⟩ := beside_below hwf.tiled hx ⟨h1, by omega⟩ hne (by omega) hout
    exact hnot ⟨by omega, p, hp, hpt, Or.inl hps⟩
  have hzstop : z.stop = stop := by
    by_contra hlt
    have hout := hwf'.tiled.typeAt_of_within hz (a := stop) ⟨by omega, by omega⟩
    rw [ht, overwrite_of_not_mem (by omega), hztype] at hout
    obtain ⟨hxs, q, hq, hqt, hqb⟩ := beside_above hwf.tiled hx (a := stop)
      ⟨by omega, by omega⟩ hne (by omega) hout
    exact hnot ⟨by omega, q, hq, hqt, Or.inr (by rw [Span.stop_mk]; omega)⟩
  constructor
  · obtain ⟨b, n, t⟩ := z
    simp only [Span.stop_mk] at hzstop hzbase hztype
    subst hzbase hztype
    obtain rfl : n = length := by omega
    exact hz
  · rw [sizeTaken] at hsize
    dsimp only at hsize
    split_ifs at hsize <;> omega

/-- Given back, such a range leaves the table at most one entry longer than it was before. -/
theorem free_grown (hwf : m.Wf) (hx : x ∈ m.live) (hl : base + length = stop) (hbs : base < stop)
    (h1 : x.base ≤ base) (h2 : stop ≤ x.stop) (hne : x.type ≠ type)
    (h : pmmMapSet m base length type true = .ok m') (hgrown : m.size < m'.size) :
    ∃ m'', pmmMapSet m' base length x.type true = .ok m'' ∧ m''.size ≤ m.size + 1 ∧ m''.Wf ∧
      typeAt m''.live = overwrite (typeAt m.live) base stop (fun _ ↦ x.type) := by
  obtain ⟨hwf', ht, -⟩ := set_inside hwf hx hl hbs h1 h2 h
  obtain ⟨hz, hsize⟩ := grown_mem hwf hx hl hbs h1 h2 hne h hgrown
  have hs : stop < 2 ^ 64 := (h2.trans_lt (hwf.bound x hx))
  obtain ⟨pre, post, hlive⟩ := List.append_of_mem hz
  -- the range is cut out of the table, and goes in again
  obtain ⟨k, hk, hready, -⟩ := force_ready hwf'.tiled hwf'.bound hlive hl hbs le_rfl
    (by rw [Span.stop_mk, hl]) (fun hc ↦ lt_irrefl _ hc.1)
    (show ¬ Swallowed m' base stop x.type from hwf'.not_swallowed hbs)
  rw [beforeRange, if_neg (lt_irrefl base), List.append_nil, afterRange,
    if_neg (by rw [Span.stop_mk]; omega), List.nil_append] at hready
  have hklive : k.live.length + 1 = m'.live.length := by
    rw [hready.live, hlive, List.length_append, List.length_append, List.length_cons,
      Nat.add_assoc]
  rw [live_length, live_length] at hklive
  have hle := m'.size_le
  obtain ⟨m'', hm''⟩ := hready.returns hl hbs hs (Or.inl (by omega))
  have hins := inserted_of_insert hready.tiled hready.bound hl hbs hs hready.clear hready.dead hm''
  have hsize'' := hins.size_eq hready.tiled (show 0 < length by omega)
  rw [← hk] at hm''
  obtain ⟨hwf'', ht'', -⟩ := set_inside hwf' hz hl hbs le_rfl (by rw [Span.stop_mk, hl]) hm''
  refine ⟨m'', hm'', ?_, hwf'', ?_⟩
  · rcases hsize with hsize | ⟨hxb, hsize⟩
    · split at hsize'' <;> omega
    · -- the part below the range takes it in
      have hout : typeAt m'.live (base - 1) = some x.type := by
        rw [ht, overwrite_of_not_mem (by omega)]
        exact hwf.tiled.typeAt_of_within hx ⟨by omega, by omega⟩
      obtain ⟨-, p, hp, hpt, hps⟩ := beside_below hwf'.tiled hz (a := base)
        ⟨le_rfl, by rw [Span.stop_mk]; omega⟩ hne.symm (by omega) hout
      have hpk : p ∈ k.live := by
        rw [hready.live]
        rw [hlive] at hp
        simp only [List.mem_append, List.mem_cons] at hp ⊢
        rcases hp with hp | rfl | hp
        · exact Or.inl hp
        · exact absurd hpt.symm hne
        · exact Or.inr hp
      rw [if_pos ⟨p, hpk, hpt, Or.inl hps⟩] at hsize''
      omega
  · rw [ht'', ht]
    funext a
    simp only [overwrite]
    split <;> rfl

end Attempt

end LunarPrekernel
