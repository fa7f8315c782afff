import LunarPrekernel.Ptm.Frames

/-!
# `ptm_map`, whatever the architecture

A `Mapper` is `ptm_map` with the tables it works on: the format of the words, the root, and the
proof that a call is a `RangeOutcome` — which is all that the two architectures have to show.  What
follows from it is said here once.

* `Mapper.Inv` — what holds between two calls: the tables are a `Tree`, and their frames are out.
* `Mapper.Inv.call_ok`, `Mapper.Inv.call_error` — how a call can end.
* `Mapper.Inv.run` — the invariant at every point of a run.
-/

set_option autoImplicit false

namespace LunarPrekernel

open PageTable

/-- `PTM_FLAG_EXEC` is set. -/
def flagExec (flags : Nat) : Bool := flags.testBit 0
/-- `PTM_FLAG_WRITE` is set. -/
def flagWrite (flags : Nat) : Bool := flags.testBit 1
/-- `PTM_FLAG_READ` is set. -/
def flagRead (flags : Nat) : Bool := flags.testBit 2

/-- The arguments of a call of `ptm_map`. -/
structure MapCall where
  vaddr : Nat
  paddr : Nat
  length : Nat
  flags : Nat
deriving DecidableEq, Repr

namespace MapCall

/-- One of the arguments is not a multiple of 4096. -/
def Unaligned (c : MapCall) : Prop :=
  c.paddr % ptmPageGranularity ≠ 0 ∨ c.vaddr % ptmPageGranularity ≠ 0 ∨
    c.length % ptmPageGranularity ≠ 0

instance (c : MapCall) : Decidable c.Unaligned := inferInstanceAs (Decidable (_ ∨ _))

/-- `a` is an address of the range. -/
def Contains (c : MapCall) (a : Nat) : Prop := c.vaddr ≤ a ∧ a < c.vaddr + c.length

instance (c : MapCall) (a : Nat) : Decidable (c.Contains a) := inferInstanceAs (Decidable (_ ∧ _))

/-- The address `a` is in the range, as far as a walk of `n` levels can tell. -/
def Meets (c : MapCall) (n a : Nat) : Prop :=
  c.vaddr % span n ≤ a % span n ∧ a % span n < c.vaddr % span n + c.length

instance (c : MapCall) (n a : Nat) : Decidable (c.Meets n a) := inferInstanceAs (Decidable (_ ∧ _))

/-- The pages the loop cuts the range into; `top` is the height of the largest pages. -/
def pages (c : MapCall) (top : Nat) : List (Nat × Nat) :=
  LunarPrekernel.pages top (c.length / ptmPageGranularity + 1) c.vaddr c.paddr c.length

/-- A page of the later call `d` lies in a larger page of the call `c`. -/
def Clash (top levels : Nat) (c d : MapCall) : Prop :=
  ∃ P ∈ c.pages top, ∃ Q ∈ d.pages top, Q.1 < P.1 ∧ Same levels P.1 P.2 Q.2

theorem aligned_of_not {c : MapCall} (hu : ¬ c.Unaligned) :
    4096 ∣ c.paddr ∧ 4096 ∣ c.vaddr ∧ 4096 ∣ c.length := by
  simp only [Unaligned, not_or, not_not] at hu
  exact ⟨Nat.dvd_of_mod_eq_zero hu.1, Nat.dvd_of_mod_eq_zero hu.2.1, Nat.dvd_of_mod_eq_zero hu.2.2⟩

end MapCall

/-- `ptm_map` on the tables at `root`.  `Fits` are the calls that stay in the window of the tables
and in physical memory, and `Panics` is how a call says that it was not possible. -/
structure Mapper {A : Type} (src : FrameSource A) (P : Type) where
  format : Format P
  root : Nat
  levels : Nat
  /-- The height of the largest pages. -/
  top : Nat
  leaf : Nat → Nat → Nat → Nat
  perm : Nat → P
  Fits : MapCall → Prop
  Panics : MapCall → Stop → Prop
  call : Machine A → MapCall → Except Stop (Machine A)
  window : ∀ {c : MapCall}, Fits c → c.vaddr % span levels + c.length ≤ span levels
  end_le : ∀ {c : MapCall}, Fits c → c.vaddr + c.length ≤ 2 ^ 64
  /-- A part of a range that fits, fits. -/
  part : ∀ {c d : MapCall}, Fits c → c.vaddr ≤ d.vaddr → d.vaddr + d.length ≤ c.vaddr + c.length →
    d.vaddr < 2 ^ 64 → d.paddr + d.length ≤ c.paddr + c.length → d.flags = c.flags → Fits d
  unaligned : ∀ (s : Machine A) {c : MapCall}, c.Unaligned →
    ∃ e, call s c = .error e ∧ Panics c e
  outcome : ∀ {c : MapCall} {s : Machine A} {U : Nat → Prop}, Fits c → ¬ c.Unaligned →
    src.Owns s.frames U → Tree format s.mem levels root →
    (∀ x, Foot format s.mem levels root x → U x) →
    src.RangeOutcome format (leaf c.flags) (fun a ↦ some (a, perm c.flags)) (Panics c) top levels
      root (c.length / ptmPageGranularity + 1) c.vaddr c.paddr c.length U s (call s c)

namespace Mapper

variable {A P : Type} {src : FrameSource A} (m : Mapper src P)

/-- The walk of the tables. -/
def translate (mem : Memory) (a : Nat) : Option (Nat × P) :=
  PageTable.translate m.format mem m.levels m.root a

/-- A page of the call lies inside a leaf that is larger than the page. -/
def Blocked (c : MapCall) (mem : Memory) : Prop :=
  ∃ page ∈ c.pages m.top, PageTable.Blocked m.format mem m.levels m.root page.1 page.2

/-- A run of calls. -/
def run (s : Machine A) (cs : List MapCall) : Except Stop (Machine A) := cs.foldlM m.call s

/-- The tables between two calls; the frames that are out are in `U`. -/
structure Inv (s : Machine A) (U : Nat → Prop) : Prop where
  owns : src.Owns s.frames U
  tree : Tree m.format s.mem m.levels m.root
  foot : ∀ x, Foot m.format s.mem m.levels m.root x → U x

variable {m} {s s' : Machine A} {U : Nat → Prop} {c : MapCall}

/-- **A call that returns**: the tables are as the call says, and no byte outside them has
changed. -/
theorem Inv.call_ok (h : m.Inv s U) (hc : m.Fits c) (hs' : m.call s c = .ok s') :
    ¬ c.Unaligned ∧ ¬ m.Blocked c s.mem ∧ ∃ U', m.Inv s' U' ∧
      RangeResult m.format (fun a ↦ some (a, m.perm c.flags)) m.levels m.root c.vaddr c.paddr
        c.length (c.pages m.top) U s.mem U' s'.mem := by
  by_cases hu : c.Unaligned
  · obtain ⟨e, he, -⟩ := m.unaligned s hu
    rw [he] at hs'
    cases hs'
  · have ho := m.outcome hc hu h.owns h.tree h.foot
    rw [hs'] at ho
    obtain ⟨hb, U', hm, hown⟩ := ho
    have hr := hm.result (m.window hc) h.tree h.foot
    refine ⟨hu, ?_, U', ⟨hown, hr.tree, fun x hx ↦ (hr.foot x hx).1⟩, hr⟩
    rintro ⟨page, hp, hpb⟩
    exact hb page hp hpb

/-- **A call that does not return.** -/
theorem Inv.call_error (h : m.Inv s U) (hc : m.Fits c) {e : Stop} (he : m.call s c = .error e) :
    src.Fails e ∨ (c.Unaligned ∨ m.Blocked c s.mem) ∧ m.Panics c e := by
  by_cases hu : c.Unaligned
  · obtain ⟨e', he', hp⟩ := m.unaligned s hu
    rw [he'] at he
    cases he
    exact Or.inr ⟨Or.inl hu, hp⟩
  · have ho := m.outcome hc hu h.owns h.tree h.foot
    rw [he] at ho
    exact Or.imp_right (fun hb ↦ ⟨Or.inr hb.1, hb.2⟩) ho

/-- The invariant at every point of a run. -/
theorem Inv.run (h : m.Inv s U) {cs : List MapCall} (hcs : ∀ c ∈ cs, m.Fits c)
    (hr : m.run s cs = .ok s') : ∃ U', m.Inv s' U' := by
  induction cs generalizing s U with
  | nil =>
    cases hr
    exact ⟨U, h⟩
  | cons c cs ih =>
    rw [Mapper.run, List.foldlM_cons] at hr
    cases hc : m.call s c with
    | error e => rw [hc] at hr; cases hr
    | ok t =>
      rw [hc] at hr
      obtain ⟨-, -, U₁, h₁, -⟩ := h.call_ok (hcs c List.mem_cons_self) hc
      exact ih h₁ (fun d hd ↦ hcs d (List.mem_cons_of_mem _ hd)) hr

/-- What a call that returns has mapped. -/
theorem Inv.translate_of_meets (h : m.Inv s U) (hc : m.Fits c) (hs' : m.call s c = .ok s')
    {a : Nat} (ha : c.Meets m.levels a) : m.translate s'.mem a =
      some (c.paddr + (a % span m.levels - c.vaddr % span m.levels), m.perm c.flags) := by
  obtain ⟨-, -, U', -, hr⟩ := h.call_ok hc hs'
  exact hr.here a ha.1 ha.2

/-- What a call that returns has left alone. -/
theorem Inv.translate_of_not_meets (h : m.Inv s U) (hc : m.Fits c) (hs' : m.call s c = .ok s')
    {a : Nat} (ha : ¬ c.Meets m.levels a) : m.translate s'.mem a = m.translate s.mem a := by
  obtain ⟨-, -, U', -, hr⟩ := h.call_ok hc hs'
  rw [translate, translate, PageTable.translate, PageTable.translate, hr.elsewhere a ha]

/-! ## The flat map -/

variable (m) in
/-- The translation of `a` after one more call, if it was `t` before. -/
def paint (a : Nat) (t : Option (Nat × P)) (c : MapCall) : Option (Nat × P) :=
  if c.Meets m.levels a then
    some (c.paddr + (a % span m.levels - c.vaddr % span m.levels), m.perm c.flags)
  else t

/-- One call on the flat map. -/
theorem Inv.translate_call (h : m.Inv s U) (hc : m.Fits c) (hs' : m.call s c = .ok s') (a : Nat) :
    m.translate s'.mem a = m.paint a (m.translate s.mem a) c := by
  rw [paint]
  split
  · exact h.translate_of_meets hc hs' (by assumption)
  · exact h.translate_of_not_meets hc hs' (by assumption)

/-- **A run refines the flat map**: each call overwrites the translations of its range. -/
theorem Inv.translate_run (h : m.Inv s U) {cs : List MapCall} (hcs : ∀ c ∈ cs, m.Fits c)
    (hr : m.run s cs = .ok s') (a : Nat) :
    m.translate s'.mem a = cs.foldl (m.paint a) (m.translate s.mem a) := by
  induction cs generalizing s U with
  | nil =>
    cases hr
    rfl
  | cons c cs ih =>
    obtain ⟨t, hc, hr⟩ := bind_eq_ok hr
    have hcf := hcs c List.mem_cons_self
    obtain ⟨-, -, U₁, h₁, -⟩ := h.call_ok hcf hc
    rw [List.foldl_cons, ← h.translate_call hcf hc,
      ih h₁ (fun d hd ↦ hcs d (List.mem_cons_of_mem _ hd)) hr]

/-! ## Which calls can follow each other -/

variable (m) in
/-- The calls `cs` have been made in the window `W`, which had nothing mapped before.  A page is
covered by its own leaf or a larger one, and each leaf belongs to a page. -/
structure Laid (W : Nat → Prop) (cs : List MapCall) (mem : Memory) : Prop where
  up : ∀ c ∈ cs, ∀ page ∈ c.pages m.top, ∀ a, Same m.levels page.1 page.2 a →
    ∃ x, walk m.format mem m.levels m.root a = some x ∧ page.1 ≤ x.height
  down : ∀ a x, W a → walk m.format mem m.levels m.root a = some x →
    ∃ c ∈ cs, ∃ page ∈ c.pages m.top, Same m.levels page.1 page.2 a ∧ x.height = page.1

variable {W : Nat → Prop} {cs : List MapCall} {mem : Memory}

theorem Laid.nil (h : ∀ a, W a → m.translate mem a = none) : m.Laid W [] mem where
  up c hc := absurd hc List.not_mem_nil
  down a x ha hx := by
    have := h a ha
    rw [translate, PageTable.translate, hx] at this
    cases this

/-- A call is blocked by a larger page of an earlier one, and by nothing else. -/
theorem Laid.blocked_iff (h : m.Laid W cs mem) {d : MapCall}
    (hd : ∀ Q ∈ d.pages m.top, W Q.2) : m.Blocked d mem ↔ ∃ c ∈ cs, c.Clash m.top m.levels d := by
  constructor
  · rintro ⟨Q, hQ, x, hx, hlt⟩
    obtain ⟨c, hc, P, hP, hsame, hheight⟩ := h.down Q.2 x (hd Q hQ) hx
    exact ⟨c, hc, P, hP, Q, hQ, hheight ▸ hlt, hsame⟩
  · rintro ⟨c, hc, P, hP, Q, hQ, hlt, hsame⟩
    obtain ⟨x, hx, hle⟩ := h.up c hc P hP Q.2 hsame
    exact ⟨Q, hQ, x, hx, hlt.trans_le hle⟩

/-- One more call. -/
theorem Laid.call (hl : m.Laid W cs s.mem) (h : m.Inv s U) (hc : m.Fits c)
    (hs' : m.call s c = .ok s') : m.Laid W (cs ++ [c]) s'.mem := by
  obtain ⟨-, hb, U', -, hr⟩ := h.call_ok hc hs'
  -- an address of the range has the leaf of its page
  have hnew : ∀ a, c.Meets m.levels a → ∃ Q ∈ c.pages m.top, Same m.levels Q.1 Q.2 a ∧
      ∃ x, walk m.format s'.mem m.levels m.root a = some x ∧ x.height = Q.1 := by
    intro a ha
    obtain ⟨Q, hQ, hsame⟩ := (hr.pages a).mp ha
    have ht := h.translate_of_meets hc hs' ha
    rw [translate, PageTable.translate] at ht
    obtain ⟨x, hx, -⟩ := Option.map_eq_some_iff.mp ht
    exact ⟨Q, hQ, hsame, x, hx, hr.height Q hQ a hsame x hx⟩
  refine ⟨fun d hd P hP a ha ↦ ?_, fun a x hW hx ↦ ?_⟩
  · rcases List.mem_append.mp hd with hd | hd
    · obtain ⟨y, hy, hle⟩ := hl.up d hd P hP a ha
      by_cases hin : c.Meets m.levels a
      · obtain ⟨Q, hQ, hsame, x, hx, hheight⟩ := hnew a hin
        refine ⟨x, hx, ?_⟩
        rw [hheight]
        -- otherwise the page of the call would lie in the larger one
        by_contra hlt
        have hPQ : Same m.levels P.1 P.2 Q.2 :=
          ha.trans (hsame.mono (Nat.le_of_not_le hlt)).symm
        obtain ⟨z, hz, hle'⟩ := hl.up d hd P hP Q.2 hPQ
        exact hb ⟨Q, hQ, z, hz, (Nat.lt_of_not_le hlt).trans_le hle'⟩
      · exact ⟨y, (hr.elsewhere a hin).trans hy, hle⟩
    · obtain rfl := List.mem_singleton.mp hd
      have hin : d.Meets m.levels a := (hr.pages a).mpr ⟨P, hP, ha⟩
      obtain ⟨-, -, -, x, hx, -⟩ := hnew a hin
      exact ⟨x, hx, (hr.height P hP a ha x hx).ge⟩
  · by_cases hin : c.Meets m.levels a
    · obtain ⟨Q, hQ, hsame, y, hy, hheight⟩ := hnew a hin
      obtain rfl : y = x := Option.some.inj (hy.symm.trans hx)
      exact ⟨c, by simp, Q, hQ, hsame, hheight⟩
    · rw [hr.elsewhere a hin] at hx
      obtain ⟨d, hd, P, hP, hsame, hheight⟩ := hl.down a x hW hx
      exact ⟨d, List.mem_append_left _ hd, P, hP, hsame, hheight⟩

variable (m) in
/-- The calls `cs` can be made one after the other when `ds` have been made. -/
def Follow (ds cs : List MapCall) : Prop :=
  (∀ d ∈ ds, ∀ c ∈ cs, ¬ d.Clash m.top m.levels c) ∧ cs.Pairwise fun c d ↦ ¬ c.Clash m.top m.levels d

theorem follow_cons {ds : List MapCall} :
    m.Follow ds (c :: cs) ↔ (∀ d ∈ ds, ¬ d.Clash m.top m.levels c) ∧ m.Follow (ds ++ [c]) cs := by
  simp only [Follow, List.pairwise_cons, List.mem_append, List.mem_cons, List.not_mem_nil,
    or_false]
  constructor
  · rintro ⟨hall, hce, hp⟩
    refine ⟨fun d hd ↦ hall d hd c (Or.inl rfl), fun d hd e he ↦ ?_, hp⟩
    rcases hd with hd | rfl
    · exact hall d hd e (Or.inr he)
    · exact hce e he
  · rintro ⟨hc, hall, hp⟩
    refine ⟨fun d hd e he ↦ ?_, fun e he ↦ hall c (Or.inr rfl) e he, hp⟩
    rcases he with rfl | he
    · exact hc d hd
    · exact hall d (Or.inl hd) e he

/-- **A run in an empty window**: it returns only if no page lies in a larger page of an earlier
call, and if none does, only a missing frame can stop it. -/
theorem Laid.run {ds : List MapCall} (hl : m.Laid W ds s.mem) (h : m.Inv s U)
    (hcs : ∀ c ∈ cs, m.Fits c ∧ ¬ c.Unaligned ∧ ∀ Q ∈ c.pages m.top, W Q.2) :
    (∀ s', m.run s cs = .ok s' → m.Follow ds cs) ∧
      ∀ e, m.run s cs = .error e → src.Fails e ∨ ¬ m.Follow ds cs := by
  induction cs generalizing s U ds with
  | nil => exact ⟨fun _ _ ↦ ⟨by simp, List.Pairwise.nil⟩, fun e he ↦ by cases he⟩
  | cons c cs ih =>
    obtain ⟨hc, hu, hW⟩ := hcs c List.mem_cons_self
    have hblocked := hl.blocked_iff hW
    have hrun : m.run s (c :: cs) = (m.call s c).bind fun t ↦ m.run t cs := rfl
    rw [hrun, follow_cons]
    cases hs' : m.call s c with
    | error e =>
      refine ⟨fun s' h' ↦ (by cases h'), fun e' he' ↦ ?_⟩
      cases he'
      refine (h.call_error hc hs').imp_right fun hb hno ↦ ?_
      obtain ⟨d, hd, hclash⟩ := hblocked.mp (hb.1.resolve_left hu)
      exact hno.1 d hd hclash
    | ok t =>
      obtain ⟨-, hb, U₁, h₁, -⟩ := h.call_ok hc hs'
      obtain ⟨hok, herr⟩ := ih (hl.call h hc hs') h₁ fun d hd ↦ hcs d (List.mem_cons_of_mem c hd)
      exact ⟨fun s' h' ↦ ⟨fun d hd hclash ↦ hb (hblocked.mpr ⟨d, hd, hclash⟩), hok s' h'⟩,
        fun e he ↦ (herr e he).imp_right fun hno hall ↦ hno hall.2⟩

end Mapper

/-- A frame that was allocated for the root of the tables and cleared. -/
theorem FrameSource.root_tree {A P : Type} {src : FrameSource A} {F : Format P} {a a' : A}
    {U : Nat → Prop} (hs : src.Owns a U) {g : Nat} (ha : src.alloc a = .ok (g, a')) (mem : Memory)
    {n : Nat} (hn : 0 < n) : src.Owns a' (fun x ↦ x = g ∨ U x) ∧ Tree F (clear mem g) n g ∧
      (∀ x, Foot F (clear mem g) n g x → x = g ∨ U x) ∧
        ∀ b, PageTable.translate F (clear mem g) n g b = none := by
  obtain ⟨-, ho⟩ := src.fresh hs ha
  obtain ⟨hal, -⟩ := src.owned ho (Or.inl rfl)
  obtain ⟨k, rfl⟩ : ∃ k, n = k + 1 := ⟨n - 1, by omega⟩
  obtain ⟨htree, hfoot, hwalk⟩ := clear_tree (F := F) (m := mem) (n := k) hal
  refine ⟨ho, htree, fun x hx ↦ Or.inl (hfoot x hx), fun b ↦ ?_⟩
  rw [PageTable.translate, hwalk]
  rfl

end LunarPrekernel
