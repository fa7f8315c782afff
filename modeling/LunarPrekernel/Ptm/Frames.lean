import LunarPrekernel.Machine
import LunarPrekernel.Library.PageTable

/-!
# What the page table code of both architectures shares

`arch/x86_64/ptm.c` and `arch/riscv64/ptm.c` get every table from `pmm_alloc(1)` and walk down from
the top to the level of the page they map.  All that matters about the allocator there is that a
frame it hands out is aligned and was never handed out before; a `FrameSource` is an allocator that
says so, and keeps track of which frames are out.

`Outcome` is how mapping one page can end, and `RangeOutcome` how mapping a run of pages can: by
returning, with every page mapped as `PageTable.Mapped` says; because no frame was to be had; or
because a page lies inside a leaf that is larger than itself.  The lemmas are one for each thing the
walk down can do, so that the two architectures only have to show what their words mean.
-/

set_option autoImplicit false

namespace LunarPrekernel

open PageTable

/-- `pmm_alloc(1)`, with what the page tables need of it. -/
structure FrameSource (A : Type) where
  alloc : A → Except Stop (Nat × A)
  /-- The end of physical memory. -/
  limit : Nat
  /-- In state `a`, the frames that are out are all in `U`. -/
  Owns : A → (Nat → Prop) → Prop
  owned : ∀ {a : A} {U : Nat → Prop} {x : Nat}, Owns a U → U x → 4096 ∣ x ∧ x < limit
  fresh : ∀ {a a' : A} {U : Nat → Prop} {g : Nat}, Owns a U → alloc a = .ok (g, a') →
    ¬ U g ∧ Owns a' fun x ↦ x = g ∨ U x

/-- The same allocator, in runs on whose states and frames `Q` holds. -/
def FrameSource.keeping {A : Type} (src : FrameSource A) (Q : A → (Nat → Prop) → Prop)
    (hQ : ∀ (a a' : A) (U : Nat → Prop) (g : Nat), src.Owns a U → src.alloc a = .ok (g, a') →
      Q a U → Q a' fun x ↦ x = g ∨ U x) : FrameSource A where
  alloc := src.alloc
  limit := src.limit
  Owns a U := src.Owns a U ∧ Q a U
  owned h hx := src.owned h.1 hx
  fresh h ha := ⟨(src.fresh h.1 ha).1, (src.fresh h.1 ha).2, hQ _ _ _ _ h.1 ha h.2⟩

/-- Physical memory, and the state of the allocator. -/
structure Machine (A : Type) where
  mem : Memory
  frames : A

namespace FrameSource

variable {A : Type} (src : FrameSource A)

/-- `e` is how the allocator says that it has no frame. -/
def Fails (e : Stop) : Prop := ∃ a U, src.Owns a U ∧ src.alloc a = .error e

variable {P : Type} {F : Format P} {t a w n f : Nat} {U : Nat → Prop} {s : Machine A}
  {stops : Stop → Prop} {r : Except Stop (Machine A)}

variable (F stops) in
/-- How mapping the page at `a` can end; `stops` are the panics of the walk down. -/
def Outcome (t a w n f : Nat) (U : Nat → Prop) (s : Machine A) : Except Stop (Machine A) → Prop
  | .ok s' => ¬ Blocked F s.mem n f t a ∧
      ∃ U', Mapped F t a w U s.mem n f U' s'.mem ∧ src.Owns s'.frames U'
  | .error e => src.Fails e ∨ Blocked F s.mem n f t a ∧ stops e

/-- The last step: the leaf is written. -/
theorem outcome_leaf (hs : src.Owns s.frames U) :
    src.Outcome F stops t a w (t + 1) f U s
      (.ok { s with mem := setWord s.mem f (index t a) w }) := by
  refine ⟨?_, U, Mapped.leaf, hs⟩
  rintro ⟨x, hx, hlt⟩
  cases hd : F.decode t (word s.mem f (index t a)) with
  | table g p =>
    rw [walk_table hd] at hx
    obtain ⟨y, hy, rfl⟩ := Option.map_eq_some_iff.mp hx
    have := (walk_height hy)
    dsimp only at hlt
    omega
  | leaf b p =>
    rw [walk_of_not_table (by rw [hd]; simp), hd] at hx
    cases hx
    exact absurd hlt (lt_irrefl _)
  | _ =>
    rw [walk_of_not_table (by rw [hd]; simp), hd] at hx
    cases hx

/-- A step down through a table that is there. -/
theorem outcome_table {h g w' : Nat} {p p' : P} (ht : Tree F s.mem (h + 1) f)
    (hU : ∀ x, Foot F s.mem (h + 1) f x → U x) (hth : t < h)
    (hd : F.decode h (word s.mem f (index h a)) = .table g p) (hw : w' < 2 ^ 64)
    (hd' : F.decode h w' = .table g p') (hle : ∀ q, F.meet p q = q → F.meet p' q = q)
    (hq : Neutral F p' (F.decode t w))
    (next : ∀ s₁ : Machine A, s₁.mem = setWord s.mem f (index h a) w' → s₁.frames = s.frames →
      Tree F s₁.mem h g → (∀ x, Foot F s₁.mem h g x → U x) →
      src.Outcome F stops t a w h g U s₁ r) :
    src.Outcome F stops t a w (h + 1) f U s r := by
  have he := entered_table ht hU (index_lt h a) hd hw hd' hle
  have hnext := next ⟨_, s.frames⟩ rfl rfl he.tree fun x hx ↦ (he.foot x hx).1
  have hblock : Blocked F (setWord s.mem f (index h a) w') h g t a ↔
      Blocked F s.mem (h + 1) f t a := by
    rw [Blocked, Blocked, he.walk_eq a rfl]
  cases r with
  | ok s' =>
    obtain ⟨hb, U', hm, ho⟩ := hnext
    exact ⟨fun hb' ↦ hb (hblock.mpr hb'), U', Mapped.table hth hd hw hd' hle hq hm, ho⟩
  | error e => exact hnext.imp_right fun hb ↦ ⟨hblock.mp hb.1, hb.2⟩

/-- A step down through a table that is made on the way. -/
theorem outcome_fresh {h g w' : Nat} {p' : P} {frames : A} (hs : src.Owns s.frames U)
    (halloc : src.alloc s.frames = .ok (g, frames)) (ht : Tree F s.mem (h + 1) f)
    (hU : ∀ x, Foot F s.mem (h + 1) f x → U x) (hth : t < h)
    (hd : F.decode h (word s.mem f (index h a)) = .absent) (hw : w' < 2 ^ 64)
    (hd' : F.decode h w' = .table g p') (hq : Neutral F p' (F.decode t w))
    (next : ∀ s₁ : Machine A, s₁.mem = setWord (clear s.mem g) f (index h a) w' →
      s₁.frames = frames → src.Owns frames (fun x ↦ x = g ∨ U x) → Tree F s₁.mem h g →
      (∀ x, Foot F s₁.mem h g x → x = g ∨ U x) →
      src.Outcome F stops t a w h g (fun x ↦ x = g ∨ U x) s₁ r) :
    src.Outcome F stops t a w (h + 1) f U s r := by
  obtain ⟨hg, ho⟩ := src.fresh hs halloc
  have he := entered_fresh ht hU (index_lt h a) (by omega) hd hg hw hd'
  have hnext := next ⟨_, frames⟩ rfl rfl ho he.tree fun x hx ↦ (he.foot x hx).1
  have hblock : Blocked F (setWord (clear s.mem g) f (index h a) w') h g t a ↔
      Blocked F s.mem (h + 1) f t a := by
    rw [Blocked, Blocked, he.walk_eq a rfl]
  cases r with
  | ok s' =>
    obtain ⟨hb, U', hm, ho'⟩ := hnext
    exact ⟨fun hb' ↦ hb (hblock.mpr hb'), U', Mapped.fresh hth hd hg hw hd' hq hm, ho'⟩
  | error e => exact hnext.imp_right fun hb ↦ ⟨hblock.mp hb.1, hb.2⟩

/-- A step down that meets a leaf. -/
theorem outcome_blocked {h b : Nat} {p : P} {e : Stop} (hth : t < h)
    (hd : F.decode h (word s.mem f (index h a)) = .leaf b p) (he : stops e) :
    src.Outcome F stops t a w (h + 1) f U s (.error e) := by
  refine Or.inr ⟨⟨⟨h, b + a % span h, p⟩, ?_, hth⟩, he⟩
  rw [walk_of_not_table (by rw [hd]; simp), hd]
  rfl

end FrameSource

/-! ## The pages of a run -/

/-- The largest of the heights `0 .. top` at which a page fits at the start of the run. -/
def chooseHeight (v p len : Nat) : Nat → Nat
  | 0 => 0
  | t + 1 =>
    if span (t + 1) ∣ v ∧ span (t + 1) ∣ p ∧ span (t + 1) ≤ len then t + 1
    else chooseHeight v p len t

/-- The heights and addresses of the pages that a run is cut into. -/
def pages (top : Nat) : Nat → Nat → Nat → Nat → List (Nat × Nat)
  | 0, _, _, _ => []
  | fuel + 1, v, p, len =>
    if 0 < len then
      let t := chooseHeight v p len top
      (t, v) :: pages top fuel (v + span t) (p + span t) (len - span t)
    else []

theorem chooseHeight_le (v p len top : Nat) : chooseHeight v p len top ≤ top := by
  induction top with
  | zero => rw [chooseHeight]
  | succ t ih =>
    rw [chooseHeight]
    split
    · exact le_rfl
    · omega

theorem chooseHeight_spec {v p len : Nat} (hv : 4096 ∣ v) (hp : 4096 ∣ p) (hl : 4096 ∣ len)
    (hpos : 0 < len) (top : Nat) :
    span (chooseHeight v p len top) ∣ v ∧ span (chooseHeight v p len top) ∣ p ∧
      span (chooseHeight v p len top) ≤ len := by
  induction top with
  | zero =>
    rw [chooseHeight, span]
    exact ⟨hv, hp, Nat.le_of_dvd hpos hl⟩
  | succ t ih =>
    rw [chooseHeight]
    split
    · assumption
    · exact ih

/-- The pages of a run lie in it. -/
theorem mem_pages {top fuel v p len : Nat} (hv : 4096 ∣ v) (hp : 4096 ∣ p) (hl : 4096 ∣ len)
    {c : Nat × Nat} (hc : c ∈ pages top fuel v p len) :
    c.1 ≤ top ∧ span c.1 ∣ c.2 ∧ v ≤ c.2 ∧ c.2 + span c.1 ≤ v + len := by
  induction fuel generalizing v p len with
  | zero => cases hc
  | succ fuel ih =>
    rw [pages] at hc
    split at hc
    · rename_i hpos
      obtain ⟨h1, h2, h3⟩ := chooseHeight_spec hv hp hl hpos top
      have h4 := page_dvd_span (chooseHeight v p len top)
      rcases List.mem_cons.mp hc with rfl | hc
      · exact ⟨chooseHeight_le v p len top, h1, le_rfl, by dsimp only; omega⟩
      · obtain ⟨h5, h6, h7, h8⟩ := ih (hv.add h4) (hp.add h4) (Nat.dvd_sub hl h4) hc
        exact ⟨h5, h6, by omega, by omega⟩
    · cases hc

/-! ## Mapping a run -/

namespace FrameSource

variable {A P : Type} (src : FrameSource A) {F : Format P} {leaf : Nat → Nat → Nat}
  {out : Nat → Option (Nat × P)} {stops : Stop → Prop} {top n f : Nat} {U : Nat → Prop}
  {s : Machine A}

variable (F leaf out stops top n f) in
/-- How mapping a run can end. -/
def RangeOutcome (fuel v p len : Nat) (U : Nat → Prop) (s : Machine A) :
    Except Stop (Machine A) → Prop
  | .ok s' => (∀ c ∈ pages top fuel v p len, ¬ Blocked F s.mem n f c.1 c.2) ∧
      ∃ U', MappedRange F leaf out n f v p len (pages top fuel v p len) U s.mem U' s'.mem ∧
        src.Owns s'.frames U'
  | .error e => src.Fails e ∨ (∃ c ∈ pages top fuel v p len, Blocked F s.mem n f c.1 c.2) ∧ stops e

theorem RangeOutcome.mono {fuel v p len : Nat} {r : Except Stop (Machine A)}
    {stops' : Stop → Prop}
    (h : src.RangeOutcome F leaf out stops top n f fuel v p len U s r)
    (hst : ∀ e, stops e → stops' e) :
    src.RangeOutcome F leaf out stops' top n f fuel v p len U s r := by
  cases r with
  | ok s' => exact h
  | error e => exact Or.imp_right (fun hb ↦ ⟨hb.1, hst e hb.2⟩) h

/-- Nothing is left to be mapped. -/
theorem rangeOutcome_nil {fuel v p : Nat} (hs : src.Owns s.frames U) :
    src.RangeOutcome F leaf out stops top n f fuel v p 0 U s (.ok s) := by
  have hnil : pages top fuel v p 0 = [] := by cases fuel <;> simp [pages]
  rw [RangeOutcome, hnil]
  exact ⟨by simp, U, MappedRange.nil, hs⟩

/-- The first page, and what comes after it. -/
theorem rangeOutcome_cons {fuel v p len t : Nat} {r : Except Stop (Machine A)}
    {k : Machine A → Except Stop (Machine A)} (hpos : 0 < len) (hv : 4096 ∣ v) (hp : 4096 ∣ p)
    (hl : 4096 ∣ len) (hfit : v % span n + len ≤ span n) (htop : top < n)
    (htree : Tree F s.mem n f) (hU : ∀ x, Foot F s.mem n f x → U x)
    (ht : chooseHeight v p len top = t) (hw : LeafWord F t (leaf t p))
    (ho : ∀ b, (hit t (F.decode t (leaf t p)) b).map (fun x ↦ (x.addr, x.perm)) =
      out (p + b % span t))
    (first : src.Outcome F stops t v (leaf t p) n f U s r)
    (rest : ∀ s₁ U₁, r = .ok s₁ → src.Owns s₁.frames U₁ → Tree F s₁.mem n f →
      (∀ x, Foot F s₁.mem n f x → U₁ x) →
      src.RangeOutcome F leaf out stops top n f fuel (v + span t) (p + span t) (len - span t) U₁ s₁
        (k s₁)) :
    src.RangeOutcome F leaf out stops top n f (fuel + 1) v p len U s (r.bind k) := by
  have hpages : pages top (fuel + 1) v p len =
      (t, v) :: pages top fuel (v + span t) (p + span t) (len - span t) := by
    rw [pages, if_pos hpos]
    simp only [ht]
  obtain ⟨hvt, hpt, hlt⟩ := chooseHeight_spec hv hp hl hpos top
  have htn : t < n := (ht ▸ chooseHeight_le v p len top).trans_lt htop
  rw [ht] at hvt hpt hlt
  cases r with
  | error e =>
    refine Or.imp_right (fun hb ↦ ⟨⟨(t, v), ?_, hb.1⟩, hb.2⟩) first
    rw [hpages]
    exact List.mem_cons_self
  | ok s₁ =>
    obtain ⟨hb, U₁, hm, ho₁⟩ := first
    have h1 := hm.result hw htree hU
    have h4 := page_dvd_span t
    -- the pages to come are none of them at the first one's addresses
    have hblock : ∀ c ∈ pages top fuel (v + span t) (p + span t) (len - span t),
        Blocked F s₁.mem n f c.1 c.2 ↔ Blocked F s.mem n f c.1 c.2 := by
      intro c hc
      obtain ⟨-, -, h5, h6⟩ := mem_pages (hv.add h4) (hp.add h4) (Nat.dvd_sub hl h4) hc
      have hc0 := span_pos c.1
      have hmod : c.2 % span n = v % span n + (c.2 - v) := by
        have : c.2 = v + (c.2 - v) := by omega
        rw [this, ← Nat.mod_add_mod, Nat.mod_eq_of_lt (by omega), Nat.add_sub_cancel_left]
      rw [Blocked, Blocked, h1.elsewhere c.2 fun hs ↦ ?_]
      have := ((same_iff_mem htn.le hvt c.2).mp hs).2
      omega
    have h2 := rest s₁ U₁ rfl ho₁ h1.tree fun x hx ↦ (h1.foot x hx).1
    show src.RangeOutcome F leaf out stops top n f (fuel + 1) v p len U s (k s₁)
    cases hk : k s₁ with
    | ok s₂ =>
      rw [hk] at h2
      obtain ⟨hb₂, U₂, hm₂, ho₂⟩ := h2
      rw [RangeOutcome, hpages]
      refine ⟨fun c hc ↦ ?_, U₂, MappedRange.cons htn hvt hlt hw ho hm hm₂, ho₂⟩
      rcases List.mem_cons.mp hc with rfl | hc
      · exact hb
      · rw [← hblock c hc]
        exact hb₂ c hc
    | error e =>
      rw [hk] at h2
      refine Or.imp_right (fun hb₂ ↦ ?_) h2
      obtain ⟨⟨c, hc, hcb⟩, he⟩ := hb₂
      refine ⟨⟨c, ?_, (hblock c hc).mp hcb⟩, he⟩
      rw [hpages]
      exact List.mem_cons_of_mem _ hc

end FrameSource

end LunarPrekernel
