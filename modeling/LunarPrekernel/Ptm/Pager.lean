import LunarPrekernel.Ptm.Alongside

/-!
# `ptm_map` of one page

A `Mapper` is about calls whose range is canonical and whose flags make a leaf.  The kernel's
segments say where they want to be and with which permissions, so nothing of the sort can be asked
of them; but each of their calls is for a single page.

A `Pager` is `ptm_map` for such calls: the address can be any page, and the flags any flags.  What
the walk makes of the leaf is `perm`, which gives nothing where the hart would not take the entry
for a leaf.

* `Pager.Inv` — what holds between two calls.
* `Pager.Inv.call` — one call, alongside the blocks of other code.
* `X86.pager`, `Riscv.pager` — the two architectures.
-/

set_option autoImplicit false

namespace LunarPrekernel

open SpanMap Span PmmMap PageTable

/-- The call that maps the page at `v`. -/
def callOfPage (v p flags : Nat) : MapCall := ⟨v, p, ptmPageGranularity, flags⟩

/-- A page does not wrap around the window of the tables. -/
theorem page_window {v : Nat} (hv : 4096 ∣ v) (n : Nat) : v % span n + 4096 ≤ span n := by
  have hlt := Nat.mod_lt v (span_pos n)
  have hmod := (Nat.dvd_mod_iff (page_dvd_span n)).mpr hv
  have hspan := page_dvd_span n
  omega

/-- `ptm_map` of single pages on the tables at `root`; `perm` is what a leaf with these flags
allows, if it is one.  The field is about a call that returns, and about whatever the allocations
it makes preserve. -/
structure Pager {A : Type} (src : FrameSource A) (P : Type) where
  format : Format P
  root : Nat
  levels : Nat
  perm : Nat → Option P
  call : Machine A → MapCall → Except Stop (Machine A)
  page : ∀ (Q : A → (Nat → Prop) → Prop), (∀ (a a' : A) (U : Nat → Prop) (g : Nat),
      src.Owns a U → src.alloc a = .ok (g, a') → Q a U → Q a' fun x ↦ x = g ∨ U x) →
    ∀ {v p flags : Nat} {s s' : Machine A} {U : Nat → Prop}, v + 4096 ≤ 2 ^ 64 → 4096 ∣ v →
      4096 ∣ p → p + 4096 ≤ src.limit → src.Owns s.frames U → Q s.frames U →
      Tree format s.mem levels root → (∀ x, Foot format s.mem levels root x → U x) →
      call s (callOfPage v p flags) = .ok s' → ∃ U', src.Owns s'.frames U' ∧ Q s'.frames U' ∧
        RangeResult format (fun a ↦ (perm flags).map (Prod.mk a)) levels root v p 4096 [(0, v)] U
          s.mem U' s'.mem

namespace Pager

variable {A P : Type} {src : FrameSource A} (g : Pager src P)

/-- The walk of the tables. -/
def translate (mem : Memory) (a : Nat) : Option (Nat × P) :=
  PageTable.translate g.format mem g.levels g.root a

/-- What the call makes of an address it holds. -/
def value (a : Nat) (c : MapCall) : Option (Nat × P) :=
  (g.perm c.flags).map (Prod.mk (c.paddr + (a % span g.levels - c.vaddr % span g.levels)))

/-- The translation of `a` after one more call, if it was `t` before. -/
def paint (a : Nat) (t : Option (Nat × P)) (c : MapCall) : Option (Nat × P) :=
  if c.Meets g.levels a then g.value a c else t

/-- The tables between two calls; the frames that are out are in `U`. -/
structure Inv (s : Machine A) (U : Nat → Prop) : Prop where
  owns : src.Owns s.frames U
  tree : Tree g.format s.mem g.levels g.root
  foot : ∀ x, Foot g.format s.mem g.levels g.root x → U x

/-! ## The last call for an address -/

section Paint

variable {g} {a : Nat} {v t : Option (Nat × P)} {cs ds : List MapCall}

theorem foldl_paint_of_not_meets (h : ∀ c ∈ cs, ¬ c.Meets g.levels a) :
    cs.foldl (g.paint a) t = t := by
  induction cs generalizing t with
  | nil => rfl
  | cons c cs ih =>
    rw [List.foldl_cons, ih fun d hd ↦ h d (List.mem_cons_of_mem c hd), paint,
      if_neg (h c List.mem_cons_self)]

/-- All calls for the address agree on it. -/
theorem foldl_paint_of_value (h : ∀ c ∈ cs, c.Meets g.levels a → g.value a c = v)
    (hex : ∃ c ∈ cs, c.Meets g.levels a) : cs.foldl (g.paint a) t = v := by
  induction cs generalizing t with
  | nil =>
    obtain ⟨c, hc, -⟩ := hex
    exact absurd hc List.not_mem_nil
  | cons c cs ih =>
    rw [List.foldl_cons]
    have htail := fun d hd ↦ h d (List.mem_cons_of_mem c hd)
    by_cases hrest : ∃ d ∈ cs, d.Meets g.levels a
    · exact ih htail hrest
    · push Not at hrest
      obtain ⟨d, hd, hda⟩ := hex
      rcases List.mem_cons.mp hd with rfl | hd
      · rw [foldl_paint_of_not_meets hrest, paint, if_pos hda, h d List.mem_cons_self hda]
      · exact absurd hda (hrest d hd)

/-- If a call of the second list is for the address, then what is there in the end is from one
of them. -/
theorem foldl_paint_append (t : Option (Nat × P)) (cs : List MapCall)
    (hex : ∃ c ∈ ds, c.Meets g.levels a) :
    ∃ c ∈ ds, c.Meets g.levels a ∧ (cs ++ ds).foldl (g.paint a) t = g.value a c := by
  induction ds using List.reverseRecOn with
  | nil =>
    obtain ⟨c, hc, -⟩ := hex
    exact absurd hc List.not_mem_nil
  | append_singleton ds d ih =>
    rw [← List.append_assoc, List.foldl_append, List.foldl_cons, List.foldl_nil, paint]
    by_cases hd : d.Meets g.levels a
    · exact ⟨d, List.mem_append_right _ List.mem_cons_self, hd, if_pos hd⟩
    · obtain ⟨c, hc, hca⟩ := hex
      have hc : c ∈ ds := by
        rcases List.mem_append.mp hc with hc | hc
        · exact hc
        · exact absurd (List.mem_singleton.mp hc ▸ hca) hd
      obtain ⟨e, he, hea, hval⟩ := ih ⟨c, hc, hca⟩
      exact ⟨e, List.mem_append_left _ he, hea, (if_neg hd).trans hval⟩

end Paint

/-! ## One call -/

section Pmm

variable {limit : Nat} {hlimit : limit ≤ 2 ^ 56} {g : Pager (pmmFrames limit hlimit) P}
  {s s' : Machine PmmState} {U : Nat → Prop} {blocks : List Allocation} {v p flags : Nat}

/-- **A call that returns**: the page is as the call says, every other address is as before, and so
are the blocks of other code. -/
theorem Inv.call (h : g.Inv s U) (hb : Apart blocks s.frames U) (hv : v + 4096 ≤ 2 ^ 64)
    (hval : 4096 ∣ v) (hpal : 4096 ∣ p) (hp : p + 4096 ≤ limit)
    (hs' : g.call s (callOfPage v p flags) = .ok s') :
    ∃ U', g.Inv s' U' ∧ Apart blocks s'.frames U' ∧
      (∀ y ∈ blocks, ∀ b, y.Contains b → s'.mem b = s.mem b) ∧
      ∀ a, g.translate s'.mem a = g.paint a (g.translate s.mem a) (callOfPage v p flags) := by
  obtain ⟨U', hown, hapart, hr⟩ := g.page (fun a V ↦ Apart blocks a V)
    (fun a a' V x ho hx hq ↦ hq.frame hlimit ho hx) hv hval hpal hp h.owns hb h.tree h.foot hs'
  refine ⟨U', ⟨hown, hr.tree, fun x hx ↦ (hr.foot x hx).1⟩, hapart, fun y hy b hyb ↦ ?_,
    fun a ↦ ?_⟩
  · exact hr.frame b (fun x hx hxb ↦ (hb y hy).2 x (h.foot x hx) b hxb hyb)
      fun x hx _ hxb ↦ (hapart y hy).2 x hx b hxb hyb
  · rw [paint]
    split
    · rename_i hin
      exact hr.here a hin.1 hin.2
    · rename_i hout
      exact congrArg _ (hr.elsewhere a hout)

/-- The tables do not notice an allocation. -/
theorem Inv.hand {C : Nat → Prop} {r : Nat × PmmMap} (h : g.Inv s U) (hC : ∀ a, C a → a < limit)
    {n : Nat} {type : PmmMapType} (hn : (s.frames.hand n type r).Inv C)
    (hU : ∀ x, U x → 4096 ∣ x ∧ ∃ y ∈ s.frames.held, y.span.base ≤ x ∧ x + 4096 ≤ y.span.stop) :
    g.Inv ⟨s.mem, s.frames.hand n type r⟩ U := by
  refine ⟨⟨C, hn, hC, fun x hx ↦ ?_⟩, h.tree, h.foot⟩
  obtain ⟨hal, y, hy, hyx⟩ := hU x hx
  exact ⟨hal, y, List.mem_cons_of_mem _ hy, hyx⟩

/-- The tables do not notice what is written elsewhere. -/
theorem Inv.write (h : g.Inv s U) {mem : Memory}
    (hmem : ∀ x, U x → ∀ b, Page x b → mem b = s.mem b) :
    g.Inv ⟨mem, s.frames⟩ U ∧ ∀ a, g.translate mem a = g.translate s.mem a := by
  have hsame : SameWords g.format s.mem mem g.levels g.root :=
    fun f hf i hi ↦ word_congr hi (hmem f (h.foot f hf))
  refine ⟨⟨h.owns, hsame.tree h.tree, fun x hx ↦ h.foot x ((hsame.foot x).mp hx)⟩, fun a ↦ ?_⟩
  rw [translate, translate, PageTable.translate, PageTable.translate, hsame.walk]

end Pmm

end Pager

/-! ## The two architectures -/

namespace Riscv

end Riscv

end LunarPrekernel
