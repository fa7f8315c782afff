import LunarPrekernel.Pmm.Undo

/-!
# When a snapshot holds the live entries and nothing else

`pmm_create_snapshot` settles how many slots it copies before it allocates its block: two more than
there are live entries.  The allocation leaves between one entry less and two more, and the slots of
the copy behind the last live entry are dead ones.  So the copy is faithful if and only if each of
those has never been used, and `sizeTaken` says which they are, from the table before the call.

* `size_of_set` — how many entries there are after a forced call inside one entry, and what its
  dead slots hold.
* `snapshot_faithful` — the condition, for every reachable table.
-/

set_option autoImplicit false

namespace LunarPrekernel

open SpanMap Span PmmMap

/-! ## The size of the table after a call -/

/-- The number of entries once the range `[base, stop)` of the entry `x` has the given type.  Of `x`
two parts are left, or one, or none; the upper one of two goes in like a range of its own. -/
def sizeTaken (m : PmmMap) (x : PmmMapEntry) (base stop : Nat) (type : PmmMapType) : Nat :=
  if x.base < base ∧ stop < x.stop then
    if Touches m.live ⟨stop, x.stop - stop, x.type⟩ then m.size + 1 else m.size + 2
  else
    let cut := if x.base < base ∨ stop < x.stop then m.size else m.size - 1
    if Touches m.live ⟨base, stop - base, type⟩ then cut else cut + 1

section Size

variable {m m₁ m' : PmmMap} {pre post : List PmmMapEntry} {s x : PmmMapEntry}
  {base length stop : Nat} {type : PmmMapType}

theorem Inserted.size_eq (h : Inserted m m' s) (ht : Tiled m.live) (hs : 0 < s.length) :
    m'.size = if Touches m.live s then m.size else m.size + 1 := by
  obtain ⟨pre, post, hlive, hpre, hpost, hj, -⟩ := h
  rw [hlive] at ht
  rw [← live_length, hj.length_eq ht hs hpre hpost, ← hlive, live_length]

/-- What a call leaves behind the last entry: the old dead slots are as they were, and a slot that
was live still holds an entry. -/
def DeadKept (m m' : PmmMap) : Prop :=
  ∀ j, m'.size ≤ j → (m.size ≤ j → m'.slots j = m.slots j) ∧ (j < m.size → 0 < (m'.slots j).length)

theorem DeadSlots.kept (h : DeadSlots m m₁ stop) (hi : Inserted m₁ m' s) : DeadKept m m' := by
  obtain ⟨-, -, -, -, -, -, hdead⟩ := hi
  intro j hj
  obtain ⟨hge, hslot⟩ := hdead j hj
  rw [hslot]
  exact ⟨h.same j, h.given j hge⟩

/-- The parts of an entry of another type do not touch the range. -/
theorem touches_parts (hne : x.type ≠ type) :
    Touches ((pre ++ beforeRange base x) ++ (afterRange stop x ++ post)) ⟨base, length, type⟩ ↔
      Touches (pre ++ x :: post) ⟨base, length, type⟩ := by
  have hnil : ¬ Touches [] (⟨base, length, type⟩ : PmmMapEntry) := by simp [Touches]
  have hone : ∀ b n, ¬ Touches [⟨b, n, x.type⟩] (⟨base, length, type⟩ : PmmMapEntry) := by
    simp [Touches, hne]
  have hbefore : ¬ Touches (beforeRange base x) ⟨base, length, type⟩ := by
    rw [beforeRange]
    split
    · exact hone _ _
    · exact hnil
  have hafter : ¬ Touches (afterRange stop x) ⟨base, length, type⟩ := by
    rw [afterRange]
    split
    · exact hone _ _
    · exact hnil
  simp only [touches_append, touches_cons, hbefore, hafter, hne, false_and, false_or, or_false]

/-- Neither an entry nor its part below the range touches its part above it. -/
theorem touches_leftOf (hlive : m.live = pre ++ x :: post) (h1 : x.base < base) (h2 : stop < x.stop)
    (hbs : base < stop) :
    Touches (leftOf m pre.length base x).live ⟨stop, x.stop - stop, x.type⟩ ↔
      Touches m.live ⟨stop, x.stop - stop, x.type⟩ := by
  have hleft : x.base + (base - x.base) = base := by omega
  have hstop : stop + (x.stop - stop) = x.stop := by omega
  rw [leftOf, live_set hlive, hlive]
  simp only [touches_append, touches_cons, Span.stop_mk, hleft, hstop]
  rw [show ¬ (base = stop ∨ x.base = x.stop) by omega |> eq_false,
    show ¬ (x.stop = stop ∨ x.base = x.stop) by omega |> eq_false]

/-- **The size of the table** after a forced call that gives another type to a range inside one
entry, and what is behind its last entry. -/
theorem size_of_set (ht : Tiled m.live) (hb : ∀ s ∈ m.live, s.stop < 2 ^ 64) (hx : x ∈ m.live)
    (hl : base + length = stop) (hbs : base < stop) (h1 : x.base ≤ base) (h2 : stop ≤ x.stop)
    (hne : x.type ≠ type) (hsw : ¬ Swallowed m base stop type)
    (h : pmmMapSet m base length type true = .ok m') :
    m'.size = sizeTaken m x base stop type ∧ DeadKept m m' := by
  obtain ⟨pre, post, hlive⟩ := List.append_of_mem hx
  have hxb := hb x hx
  have hlen : 0 < length := by omega
  by_cases hin : x.base < base ∧ stop < x.stop
  · -- the part above the range goes in first
    obtain ⟨h3, h4⟩ := hin
    rw [pmmMapSet_inside type hlive ht hb hl hbs h3 h4] at h
    obtain ⟨m₂, hm₂, h⟩ := bind_eq_ok h
    obtain ⟨ht₁, -, -⟩ := leftOf_spec hlive ht hb h3 h4 hbs
    obtain ⟨ht₂, hb₂, hle₂, hc₂⟩ := clear_of_insert_end hlive ht hb h3 h4 hbs hm₂
    have hins := insert_end_of_not_swallowed hlive ht hb h3 h4 hbs hsw hm₂
    have hsize₂ := hins.size_eq ht₁ (show 0 < x.stop - stop by omega)
    simp only [touches_leftOf hlive h3 h4 hbs] at hsize₂
    have hstop : stop + (x.stop - stop) = x.stop := by omega
    -- on both sides of the range lie parts of the entry
    have hbelow : typeAt m₂.live (base - 1) = some x.type := by
      rw [typeAt_of_inserted hins, overwrite_of_not_mem (by simp only; omega)]
      refine ht₁.typeAt_of_within (s := { x with length := base - x.base }) ?_ ?_
      · rw [leftOf, live_set hlive]
        simp
      · simp only [Contains, Span.stop]; omega
    have habove : typeAt m₂.live stop = some x.type := by
      rw [typeAt_of_inserted hins, overwrite_of_mem le_rfl (by simp only [Span.stop_mk]; omega)]
    have hnot : ¬ Touches m₂.live ⟨base, length, type⟩ := by
      refine ht₂.not_touches ?_ ?_
      · simpa only [hbelow, ne_eq, Option.some.injEq] using hne
      · simpa only [Span.stop_mk, hl, habove, ne_eq, Option.some.injEq] using hne
    have hins₂ : Inserted m₂ m' ⟨base, length, type⟩ := by
      refine inserted_of_insert ht₂ hb₂ hl hbs (by omega) hc₂ (fun hlow ↦ ?_) h
      obtain ⟨y, hy, hy1, hy2⟩ := within_of_inserted hins
      have h5 := hlow y hy
      simp only [Span.stop_mk] at hy1 hy2
      rcases hc₂ y hy with hc | hc <;> omega
    have hsize' := hins₂.size_eq ht₂ hlen
    rw [if_neg hnot, hsize₂] at hsize'
    refine ⟨?_, fun j hj ↦ ?_⟩
    · have hsize₁ : (leftOf m pre.length base x).size = m.size := rfl
      simp only [hsize', sizeTaken, h3, h4, and_self, if_true, hsize₁]
      split <;> rfl
    · obtain ⟨-, -, -, -, -, -, hdead⟩ := hins
      obtain ⟨-, -, -, -, -, -, hdead₂⟩ := hins₂
      obtain ⟨hj₂, hslot₂⟩ := hdead₂ j hj
      obtain ⟨hj₁, hslot₁⟩ := hdead j hj₂
      have hj₁ : m.size ≤ j := hj₁
      refine ⟨fun _ ↦ ?_, fun hlt ↦ by omega⟩
      have hi := (slots_of_live hlive).1
      rw [hslot₂, hslot₁, leftOf, set_slots_of_ne m _ (by omega)]
  · obtain ⟨m₁, hm₁, hready, hdead⟩ := force_ready ht hb hlive hl hbs h1 h2 hin hsw
    rw [hm₁] at h
    have hins := inserted_of_insert hready.tiled hready.bound hl hbs (by omega) hready.clear
      hready.dead h
    have hsize := hins.size_eq hready.tiled hlen
    have hsize₁ : m₁.size = if x.base < base ∨ stop < x.stop then m.size else m.size - 1 := by
      rw [← live_length, hready.live, ← live_length, hlive, beforeRange, afterRange]
      split_ifs <;> simp at * <;> omega
    rw [hready.live] at hsize
    simp only [touches_parts hne, ← hlive, hsize₁] at hsize
    refine ⟨?_, hdead.kept hins⟩
    rw [hsize, sizeTaken, if_neg hin]
    simp only [show stop - base = length by omega]

end Size

/-! ## Snapshots -/

/-- The live entries of `m` are copied, each once and in their order, and what else is copied has
length 0. -/
def Faithful (x : PmmMapSnapshot) (m : PmmMap) : Prop :=
  x.entries.filter (fun e ↦ e.length ≠ 0) = m.live

/-- Where the block of the snapshot will be. -/
def snapshotFit (m : PmmMap) : Option Nat :=
  allocFit m (snapshotBytes m) ptmPageGranularity m.size 0

/-- With the block at `u`, the slots that are copied from behind the last entry have length 0. -/
def RoomClear (m : PmmMap) (u : Nat) : Prop :=
  ∀ x ∈ m.live, x.Contains u → ∀ j ∈ List.range (m.size + 2),
    sizeTaken m x u (u + snapshotBytes m) .allocated ≤ j → (m.slots j).length = 0

instance (m : PmmMap) (u : Nat) : Decidable (RoomClear m u) :=
  inferInstanceAs (Decidable (∀ _ ∈ _, _))

/-- The tables a snapshot is faithful to: the live entries are tiled, nothing that goes in behind the
last of them is lost to a dead slot, and the dead slots that are copied were never used. -/
structure SnapshotClean (m : PmmMap) : Prop where
  tiled : Tiled m.live
  keeps : ∀ u ∈ snapshotFit m, ¬ Swallowed m u (u + snapshotBytes m) .allocated
  room : ∀ u ∈ snapshotFit m, RoomClear m u

section Snapshot

variable {m m' : PmmMap} {x : PmmMapSnapshot} {n : Nat}

/-- What `pmm_create_snapshot` has done when it returns. -/
theorem pmmCreateSnapshot_ok (h : pmmCreateSnapshot m = .ok (x, m')) :
    snapshotFit m = some x.phys ∧ x.phys ≠ 0 ∧
      pmmMapSet m x.phys (snapshotBytes m) .allocated true = .ok m' ∧
      x.entries = (List.range (m.size + 2)).map m'.slots := by
  have hsize := m.size_le
  unfold pmmMapMaxEntries at hsize
  have hbytes : mul64 (snapshotBytes m / ptmPageGranularity) ptmPageGranularity =
      snapshotBytes m := by
    rw [snapshotBytes_eq, ptmPageGranularity, Nat.mul_div_cancel _ (by decide), mul64_eq (by omega)]
  have hcount : add64 m.size 2 = m.size + 2 := add64_eq (by omega)
  rw [pmmCreateSnapshot] at h
  obtain ⟨r, hr, h⟩ := bind_eq_ok h
  obtain ⟨hfit, hset⟩ := pmmAllocExt_ok hr
  rw [hbytes] at hfit hset
  rw [hcount] at h
  split at h
  · cases h
  rename_i hzero
  split at h
  · cases h
  split at h
  · cases h
  cases h
  exact ⟨hfit, hzero, hset, rfl⟩

/-- The block of the snapshot lies in a free entry. -/
theorem snapshotFit_spec (hb : ∀ s ∈ m.live, s.stop < 2 ^ 64) {u : Nat}
    (h : snapshotFit m = some u) (hu : u ≠ 0) :
    ∃ e ∈ m.live, e.type = .free ∧ e.base ≤ u ∧ u + snapshotBytes m ≤ e.stop := by
  obtain ⟨e, he, hfree, hue, hlt, hfit⟩ := allocFit_eq_some (by omega) h
  have hbe := hb e he
  rw [add64_eq hbe] at hlt
  have hround : e.base + ptmPageGranularity - 1 < 2 ^ 64 := by
    by_contra hge
    simp only [Span.stop] at hbe
    exact hu (hue.trans (mathCeil_wrap (by decide) (by omega) (by decide) (by omega)))
  have hle : e.base ≤ u := by
    rw [hue]
    exact (mathCeil_spec (by decide) hround).1
  simp only [Span.stop] at hbe
  rw [sub64_eq (by omega) hle, sub64_eq (by omega) (by omega)] at hfit
  exact ⟨e, he, hfree, hle, by simp only [Span.stop]; omega⟩

/-- Copying more slots than are live gives the live entries, if what is behind them is empty. -/
theorem filter_slots_eq_live (hpos : ∀ s ∈ m.live, 0 < s.length) (hn : m.size ≤ n) :
    ((List.range n).map m.slots).filter (fun e ↦ e.length ≠ 0) = m.live ↔
      ∀ j, m.size ≤ j → j < n → (m.slots j).length = 0 := by
  obtain ⟨k, rfl⟩ : ∃ k, n = m.size + k := ⟨n - m.size, by omega⟩
  have hlive : m.live.filter (fun e ↦ e.length ≠ 0) = m.live :=
    List.filter_eq_self.mpr fun s hs ↦ by simpa using (hpos s hs).ne'
  rw [List.range_add, List.map_append, List.filter_append]
  show m.live.filter _ ++ _ = _ ↔ _
  rw [hlive, List.append_right_eq_self, List.filter_eq_nil_iff]
  simp only [List.map_map, List.mem_map, List.mem_range, Function.comp_apply, forall_exists_index,
    and_imp, ne_eq, decide_eq_true_eq, not_not]
  constructor
  · intro h j h1 h2
    have := h (m.slots j) (j - m.size) (by omega)
    rw [show m.size + (j - m.size) = j by omega] at this
    exact this rfl
  · rintro h - j hj rfl
    exact h _ (by omega) (by omega)

/-- On a tiled table that keeps all its memory, a snapshot is faithful if and only if the dead slots
that it copies have never been used. -/
theorem faithful_iff (hm : Reachable m) (ht : Tiled m.live)
    (h : pmmCreateSnapshot m = .ok (x, m'))
    (hsw : ¬ Swallowed m x.phys (x.phys + snapshotBytes m) .allocated) :
    Faithful x m' ↔ RoomClear m x.phys := by
  have hb : ∀ s ∈ m.live, s.stop < 2 ^ 64 := fun s hs ↦ (hm.bounded s hs).2
  obtain ⟨hfit, hzero, hset, hentries⟩ := pmmCreateSnapshot_ok h
  obtain ⟨e, he, hfree, h1, h2⟩ := snapshotFit_spec hb hfit hzero
  have hbytes : 0 < snapshotBytes m := by rw [snapshotBytes_eq]; omega
  have hpos' := (setFrom_bounded _ hm.bounded (by have := hb e he; simp only; omega) hset)
  obtain ⟨hsize, hdead⟩ := size_of_set ht hb he rfl (by omega) h1 h2
    (show e.type ≠ .allocated by simp [hfree]) hsw hset
  have hsize_le : m'.size ≤ m.size + 2 := by
    rw [hsize, sizeTaken]
    dsimp only
    split_ifs <;> omega
  have hslot : ∀ j, m'.size ≤ j → ((m'.slots j).length = 0 ↔ (m.slots j).length = 0) := by
    intro j hj
    obtain ⟨hsame, hgiven⟩ := hdead j hj
    rcases Nat.lt_or_ge j m.size with hlt | hge
    · have h3 := hgiven hlt
      have h4 := (hm.bounded _ (slots_mem_live m hlt)).1
      omega
    · rw [hsame hge]
  rw [Faithful, hentries, filter_slots_eq_live (fun s hs ↦ (hpos' s hs).1) hsize_le, RoomClear]
  constructor
  · intro hclear y hy hyu j hj hle
    obtain rfl := ht.unique hy he hyu ⟨h1, by omega⟩
    rw [← hsize] at hle
    exact (hslot j hle).mp (hclear j hle (List.mem_range.mp hj))
  · intro hroom j h3 h4
    exact (hslot j h3).mpr
      (hroom e he ⟨h1, by omega⟩ j (List.mem_range.mpr h4) (by rwa [← hsize]))

/-- **A snapshot is faithful** to every reachable table that meets `SnapshotClean`; and if it is
faithful to one that keeps all its memory, then the dead slots it copies have never been used. -/
theorem snapshot_faithful (hm : Reachable m) (h : pmmCreateSnapshot m = .ok (x, m')) :
    (SnapshotClean m → Faithful x m') ∧
    (Tiled m.live → (∀ u ∈ snapshotFit m, ¬ Swallowed m u (u + snapshotBytes m) .allocated) →
      Faithful x m' → SnapshotClean m) := by
  have hfit := (pmmCreateSnapshot_ok h).1
  refine ⟨fun hc ↦ ?_, fun ht hsw hf ↦ ⟨ht, hsw, fun u hu ↦ ?_⟩⟩
  · exact (faithful_iff hm hc.tiled h (hc.keeps _ hfit)).mpr (hc.room _ hfit)
  · obtain rfl := Option.some.inj (hfit.symm.trans hu)
    exact (faithful_iff hm ht h (hsw _ hfit)).mp hf

end Snapshot

/-- A block from the beginning of a free entry: the copy is one entry longer than the table. -/
theorem snapshot_faithful_front : ∃ m x m',
    addAll .empty [⟨0x1000, 0x10000, .free⟩, ⟨0x20000, 0x1000, .reserved⟩] = .ok m ∧
    pmmCreateSnapshot m = .ok (x, m') ∧ Faithful x m' := by
  have hrun : ((addAll .empty [⟨0x1000, 0x10000, .free⟩,
      ⟨0x20000, 0x1000, .reserved⟩]).toOption.bind fun m ↦
        (pmmCreateSnapshot m).toOption.map fun _ ↦
          (m.live, snapshotFit m, decide (Swallowed m 0x1000 0x2000 .allocated),
            snapshotBytes m, decide (RoomClear m 0x1000))) =
      some ([⟨0x1000, 0x10000, .free⟩, ⟨0x20000, 0x1000, .reserved⟩], some 0x1000, false, 0x1000,
        true) := by
    decide +kernel
  obtain ⟨m, hm, hrun⟩ := Option.bind_eq_some_iff.mp hrun
  obtain ⟨⟨x, m'⟩, hx, hfacts⟩ := Option.map_eq_some_iff.mp hrun
  simp only [Prod.mk.injEq, decide_eq_false_iff_not, decide_eq_true_eq] at hfacts
  obtain ⟨hlive, hfit, hsw, hbytes, hroom⟩ := hfacts
  have hm := toOption_eq_some hm
  have hx := toOption_eq_some hx
  refine ⟨m, x, m', hm, hx, ?_⟩
  refine (snapshot_faithful (Reachable.empty.addAll (by decide) hm) hx).1
    ⟨by rw [hlive]; exact ⟨by decide, by decide⟩, fun u hu ↦ ?_, fun u hu ↦ ?_⟩
  · obtain rfl := Option.some.inj (hfit.symm.trans hu)
    rwa [hbytes]
  · obtain rfl := Option.some.inj (hfit.symm.trans hu)
    exact hroom

/-- **A reserved range that is copied twice.**  The block takes a whole free entry and is glued to
the block before it, so the table has one entry less, and the copy three slots more than it: the
first of them is where the reserved entry was before. -/
theorem snapshot_unfaithful : ∃ m m₁ r x m',
    addAll .empty [⟨0x1000, 0x2000, .free⟩, ⟨0x8000, 0x1000, .reserved⟩] = .ok m ∧
    pmmAlloc m 1 = .ok (r, m₁) ∧ Reachable m₁ ∧ Tiled m₁.live ∧
    pmmCreateSnapshot m₁ = .ok (x, m') ∧
    m'.live = [⟨0x1000, 0x2000, .allocated⟩, ⟨0x8000, 0x1000, .reserved⟩] ∧
    x.entries = [⟨0x1000, 0x2000, .allocated⟩, ⟨0x8000, 0x1000, .reserved⟩,
      ⟨0x8000, 0x1000, .reserved⟩, .zero, .zero] ∧ ¬ Faithful x m' := by
  have hrun : ((addAll .empty [⟨0x1000, 0x2000, .free⟩,
      ⟨0x8000, 0x1000, .reserved⟩]).toOption.bind fun m ↦
        (pmmAlloc m 1).toOption.bind fun r ↦
          (pmmCreateSnapshot r.2).toOption.map fun x ↦
            (r.1, [r.2.live, x.2.live, x.1.entries])) =
      some (0x1000, [[⟨0x1000, 0x1000, .allocated⟩, ⟨0x2000, 0x1000, .free⟩, ⟨0x8000, 0x1000, .reserved⟩],
        [⟨0x1000, 0x2000, .allocated⟩, ⟨0x8000, 0x1000, .reserved⟩],
        [⟨0x1000, 0x2000, .allocated⟩, ⟨0x8000, 0x1000, .reserved⟩, ⟨0x8000, 0x1000, .reserved⟩,
          .zero, .zero]]) := by
    decide +kernel
  obtain ⟨m, hm, hrun⟩ := Option.bind_eq_some_iff.mp hrun
  obtain ⟨⟨r, m₁⟩, hr, hrun⟩ := Option.bind_eq_some_iff.mp hrun
  obtain ⟨⟨x, m'⟩, hx, hfacts⟩ := Option.map_eq_some_iff.mp hrun
  simp only [Prod.mk.injEq, List.cons.injEq, and_true] at hfacts
  obtain ⟨rfl, hlive₁, hlive', hentries⟩ := hfacts
  have hm := toOption_eq_some hm
  have hr := toOption_eq_some hr
  have hword : 0x1000 + mul64 1 ptmPageGranularity < 2 ^ 64 := by decide
  refine ⟨m, m₁, _, x, m', hm, hr,
    (Reachable.empty.addAll (by decide) hm).set hword (pmmAllocExt_ok hr).2,
    by rw [hlive₁]; exact ⟨by decide, by decide⟩, toOption_eq_some hx, hlive', hentries,
    fun hf ↦ ?_⟩
  rw [Faithful, hentries, hlive'] at hf
  exact absurd hf (by decide)

end LunarPrekernel
