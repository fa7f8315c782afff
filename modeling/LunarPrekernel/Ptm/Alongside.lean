import LunarPrekernel.Pmm.Snapshot
import LunarPrekernel.Ptm.RiscvMap
import LunarPrekernel.Ptm.X86Map

/-!
# The page tables alongside other users of memory

While the tables are filled, other code takes memory from the same allocator and writes to it: the
kernel's segments are copied, and the records of the page database get their frames.

All that `ptm_map` does to the allocator is `pmm_alloc(1)`, so whatever these calls preserve,
`ptm_map` does (`Mapper.Keeps`).  What it preserves then is that its own frames and the blocks of
other code are apart (`Apart`), and with that the tables stay what they are while the blocks are
written to.

* `Mapper.Reach` — the states that calls of `ptm_map`, allocations, and writes to the blocks lead to.
* `Mapper.Reach.inv` — the tables in all of them.
* `Mapper.Reach.leaves` — which leaves there can be.
* `X86.Prepared`, `Riscv.Prepared` — these states from `ptm_init` on.
-/

set_option autoImplicit false

namespace LunarPrekernel

open SpanMap Span PmmMap PageTable

/-! ## What the calls of the allocator preserve -/

/-- What every call of the allocator preserves, a call of `ptm_map` does. -/
def Mapper.Keeps {A P : Type} {src : FrameSource A} (m : Mapper src P) : Prop :=
  ∀ Q : A → (Nat → Prop) → Prop,
    (∀ (a a' : A) (U : Nat → Prop) (g : Nat), src.Owns a U → src.alloc a = .ok (g, a') →
      Q a U → Q a' fun x ↦ x = g ∨ U x) →
    ∀ {s s' : Machine A} {U : Nat → Prop} {c : MapCall}, m.Inv s U → Q s.frames U → m.Fits c →
      m.call s c = .ok s' → ∃ U', m.Inv s' U' ∧ Q s'.frames U' ∧
        RangeResult m.format (fun a ↦ some (a, m.perm c.flags)) m.levels m.root c.vaddr c.paddr
          c.length (c.pages m.top) U s.mem U' s'.mem

section Keeping

variable {A : Type} (src : FrameSource A) (Q : A → (Nat → Prop) → Prop)
  (hQ : ∀ (a a' : A) (U : Nat → Prop) (g : Nat), src.Owns a U → src.alloc a = .ok (g, a') →
    Q a U → Q a' fun x ↦ x = g ∨ U x)

theorem X86.mapFrom_keeping (vaddr paddr : Nat) (pageSize : X86.PtmPageSize) (rw nx : Bool)
    (d table : Nat) (s : Machine A) :
    X86.mapFrom (src.keeping Q hQ) vaddr paddr pageSize rw nx d table s =
      X86.mapFrom src vaddr paddr pageSize rw nx d table s := by
  induction d generalizing table s with
  | zero => rfl
  | succ d ih => exact congrArg _ (funext fun r : Nat × Machine A ↦ ih r.1 r.2)

theorem X86.ptmMapLoop_keeping (ptm : X86.Ptm) (length flags fuel vaddr paddr offset : Nat)
    (s : Machine A) : X86.ptmMapLoop (src.keeping Q hQ) ptm length flags fuel vaddr paddr offset s =
      X86.ptmMapLoop src ptm length flags fuel vaddr paddr offset s := by
  induction fuel generalizing vaddr paddr offset s with
  | zero => rfl
  | succ fuel ih =>
    simp only [X86.ptmMapLoop, X86.mapPage, X86.mapFrom_keeping, ih]

theorem X86.call_keeping (ptm : X86.Ptm) (s : Machine A) (c : MapCall) :
    ptm.call (src.keeping Q hQ) s c = ptm.call src s c := by
  rw [X86.Ptm.call, X86.Ptm.call, X86.ptmMap, X86.ptmMap, X86.ptmMapLoop_keeping]

theorem Riscv.mapFrom_keeping (vaddr paddr targetLevel flags d table : Nat) (s : Machine A) :
    Riscv.mapFrom (src.keeping Q hQ) vaddr paddr targetLevel flags d table s =
      Riscv.mapFrom src vaddr paddr targetLevel flags d table s := by
  induction d generalizing table s with
  | zero => rfl
  | succ d ih => exact congrArg _ (funext fun r : Nat × Machine A ↦ ih r.1 r.2)

theorem Riscv.ptmMapLoop_keeping (ptm : Riscv.Ptm) (length flags fuel vaddr paddr offset : Nat)
    (s : Machine A) :
    Riscv.ptmMapLoop (src.keeping Q hQ) ptm length flags fuel vaddr paddr offset s =
      Riscv.ptmMapLoop src ptm length flags fuel vaddr paddr offset s := by
  induction fuel generalizing vaddr paddr offset s with
  | zero => rfl
  | succ fuel ih =>
    simp only [Riscv.ptmMapLoop, Riscv.mapPage, Riscv.mapFrom_keeping, ih]

theorem Riscv.call_keeping (ptm : Riscv.Ptm) (s : Machine A) (c : MapCall) :
    ptm.call (src.keeping Q hQ) s c = ptm.call src s c := by
  rw [Riscv.Ptm.call, Riscv.Ptm.call, Riscv.ptmMap, Riscv.ptmMap, Riscv.ptmMapLoop_keeping]

end Keeping

theorem X86.mapper_keeps {A : Type} {src : FrameSource A} (hlim : src.limit ≤ 2 ^ 51)
    (ptm : X86.Ptm) (hlevels : ptm.levelCount = 4 ∨ ptm.levelCount = 5) :
    (X86.mapper hlim ptm hlevels).Keeps := by
  intro Q hQ s s' U c h hQs hc hs'
  have hlim' : (src.keeping Q hQ).limit ≤ 2 ^ 51 := hlim
  have h' : (X86.mapper hlim' ptm hlevels).Inv s U := ⟨⟨h.owns, hQs⟩, h.tree, h.foot⟩
  obtain ⟨-, -, U', hinv, hr⟩ := h'.call_ok hc ((X86.call_keeping src Q hQ ptm s c).trans hs')
  exact ⟨U', ⟨hinv.owns.1, hinv.tree, hinv.foot⟩, hinv.owns.2, hr⟩

theorem Riscv.mapper_keeps {A : Type} {src : FrameSource A} (hlim : src.limit ≤ 2 ^ 56)
    (ptm : Riscv.Ptm) (hlevels : 3 ≤ ptm.levelCount ∧ ptm.levelCount ≤ 5) :
    (Riscv.mapper hlim ptm hlevels).Keeps := by
  intro Q hQ s s' U c h hQs hc hs'
  have hlim' : (src.keeping Q hQ).limit ≤ 2 ^ 56 := hlim
  have h' : (Riscv.mapper hlim' ptm hlevels).Inv s U := ⟨⟨h.owns, hQs⟩, h.tree, h.foot⟩
  obtain ⟨-, -, U', hinv, hr⟩ := h'.call_ok hc ((Riscv.call_keeping src Q hQ ptm s c).trans hs')
  exact ⟨U', ⟨hinv.owns.1, hinv.tree, hinv.foot⟩, hinv.owns.2, hr⟩

/-! ## What allocations leave alone -/

/-- Between the two states there were only allocations. -/
structure PmmState.Since (start s : PmmState) : Prop where
  free : ∀ b, typeAt s.map.live b = some .free → typeAt start.map.live b = some .free
  held : ∀ y ∈ start.held, y ∈ s.held

namespace PmmState

variable {s t u : PmmState} {n alignment a : Nat} {type : PmmMapType}

theorem Since.refl (s : PmmState) : s.Since s := ⟨fun _ h ↦ h, fun _ h ↦ h⟩

theorem Since.trans (h : s.Since t) (h' : t.Since u) : s.Since u :=
  ⟨fun b hb ↦ h.free b (h'.free b hb), fun y hy ↦ h'.held y (h.held y hy)⟩

/-- Blocks were handed out, the last one first in the list. -/
inductive Allocs (s : PmmState) : PmmState → List Allocation → Prop
  | nil : s.Allocs s []
  | cons {t : PmmState} {ys : List Allocation} {n alignment : Nat} {type : PmmMapType}
      {r : Nat × PmmMap} (h : s.Allocs t ys) (ht : t.Serves n alignment type)
      (hr : pmmAllocExt t.map n alignment type = .ok r) :
      s.Allocs (t.hand n type r) (⟨r.1, n, type⟩ :: ys)

theorem Allocs.trans {ys zs : List Allocation} (h : s.Allocs t ys) (h' : t.Allocs u zs) :
    s.Allocs u (zs ++ ys) := by
  induction h' with
  | nil => exact h
  | cons _ ht hr ih => exact ih.cons ht hr

theorem Allocs.held {ys : List Allocation} (h : s.Allocs t ys) : t.held = ys ++ s.held := by
  induction h with
  | nil => rfl
  | @cons t ys n alignment type r _ _ _ ih => exact congrArg (List.cons ⟨r.1, n, type⟩) ih

theorem Handed.mem_held (h : Handed s t n alignment type a) {y : Allocation} (hy : y ∈ s.held) :
    y ∈ t.held := by
  rw [h.held]
  exact List.mem_cons_of_mem _ hy

theorem Handed.since (h : Handed s t n alignment type a) (htype : type ≠ .free) : s.Since t := by
  refine ⟨fun b hb ↦ ?_, fun y hy ↦ h.mem_held hy⟩
  rw [h.typeAt_eq] at hb
  split at hb
  · exact absurd (Option.some.inj hb) htype
  · exact hb

end PmmState

/-- The blocks are out, and no frame of `U` meets them. -/
def Apart (blocks : List Allocation) (s : PmmState) (U : Nat → Prop) : Prop :=
  ∀ y ∈ blocks, y ∈ s.held ∧ ∀ x, U x → ∀ b, Page x b → ¬ y.Contains b

section Pmm

variable {limit : Nat} {s s' : PmmState} {U : Nat → Prop} {g : Nat}

theorem pmmFrame_handed (hlimit : limit ≤ 2 ^ 56) (ho : PmmOwns limit s U)
    (hg : pmmFrame s = .ok (g, s')) : s.Handed s' 1 ptmPageGranularity .allocated g := by
  obtain ⟨C, h, hC, -⟩ := ho
  obtain ⟨r, hr, hg⟩ := map_eq_ok hg
  cases hg
  rcases h.pmmAllocExt_spec (h.serves_frame hC hlimit) with ⟨r', hr', -, hh⟩ | ⟨e, herr, -⟩
  · obtain rfl : r = r' := Except.ok.inj (hr.symm.trans hr')
    exact hh
  · cases hr.symm.trans herr

/-- A frame of the tables is apart from the blocks that are out already. -/
theorem Apart.frame (hlimit : limit ≤ 2 ^ 56) {blocks : List Allocation} (ho : PmmOwns limit s U)
    (hg : pmmFrame s = .ok (g, s')) (h : Apart blocks s U) :
    Apart blocks s' fun x ↦ x = g ∨ U x := by
  intro y hy
  have hh := pmmFrame_handed hlimit ho hg
  obtain ⟨hheld, hU⟩ := h y hy
  refine ⟨hh.mem_held hheld, fun x hx b hb hyb ↦ ?_⟩
  rcases hx with rfl | hx
  · refine hh.disjoint y hheld b hyb ⟨hb.1, ?_⟩
    have := hb.2
    show b < x + 1 * ptmPageGranularity
    unfold ptmPageGranularity
    omega
  · exact hU x hx b hb hyb

/-- A block that is handed out is apart from the frames that are out already. -/
theorem Apart.hand {blocks : List Allocation} {n alignment a : Nat} {type : PmmMapType}
    (hU : ∀ x, U x → 4096 ∣ x ∧ ∃ y ∈ s.held, y.span.base ≤ x ∧ x + 4096 ≤ y.span.stop)
    (hh : s.Handed s' n alignment type a) (h : Apart blocks s U) :
    Apart (⟨a, n, type⟩ :: blocks) s' U := by
  refine List.forall_mem_cons.mpr ⟨⟨?_, fun x hx b hb hyb ↦ ?_⟩, fun y hy ↦ ?_⟩
  · rw [hh.held]
    exact List.mem_cons_self
  · obtain ⟨-, y, hy, h1, h2⟩ := hU x hx
    refine hh.disjoint y hy b ⟨h1.trans hb.1, ?_⟩ hyb
    have := hb.2
    omega
  · obtain ⟨hheld, hyU⟩ := h y hy
    exact ⟨hh.mem_held hheld, hyU⟩

end Pmm

section Alongside

variable {limit : Nat} {hlimit : limit ≤ 2 ^ 56} {P : Type}
  {m : Mapper (pmmFrames limit hlimit) P} {s s' : Machine PmmState} {U : Nat → Prop}

/-- A call of `ptm_map` does nothing to the allocator but allocate. -/
theorem Mapper.Keeps.since (hkeeps : m.Keeps) (h : m.Inv s U) {c : MapCall} (hc : m.Fits c)
    (hs' : m.call s c = .ok s') : s.frames.Since s'.frames := by
  obtain ⟨U', -, hsince, -⟩ := hkeeps (fun a _ ↦ s.frames.Since a)
    (fun a a' V g ho hg hsince ↦
      hsince.trans ((pmmFrame_handed hlimit ho hg).since (by decide))) h (.refl _) hc hs'
  exact hsince

/-- The tables do not notice an allocation. -/
theorem Mapper.Inv.hand {C : Nat → Prop} {r : Nat × PmmMap} (h : m.Inv s U)
    (hC : ∀ a, C a → a < limit) {n : Nat} {type : PmmMapType}
    (hn : (s.frames.hand n type r).Inv C)
    (hU : ∀ x, U x → 4096 ∣ x ∧ ∃ y ∈ s.frames.held, y.span.base ≤ x ∧ x + 4096 ≤ y.span.stop) :
    m.Inv ⟨s.mem, s.frames.hand n type r⟩ U := by
  refine ⟨⟨C, hn, hC, fun x hx ↦ ?_⟩, h.tree, h.foot⟩
  obtain ⟨hal, y, hy, hyx⟩ := hU x hx
  exact ⟨hal, y, List.mem_cons_of_mem _ hy, hyx⟩

/-- The tables do not notice what is written elsewhere. -/
theorem Mapper.Inv.write {A : Type} {src : FrameSource A} {m : Mapper src P} {s : Machine A}
    (h : m.Inv s U) {mem : Memory} (hmem : ∀ x, U x → ∀ b, Page x b → mem b = s.mem b) :
    m.Inv ⟨mem, s.frames⟩ U ∧ ∀ a, m.translate mem a = m.translate s.mem a := by
  have hsame : SameWords m.format s.mem mem m.levels m.root :=
    fun g hg i hi ↦ word_congr hi (hmem g (h.foot g hg))
  refine ⟨⟨h.owns, hsame.tree h.tree, fun x hx ↦ h.foot x ((hsame.foot x).mp hx)⟩, fun a ↦ ?_⟩
  rw [translate, translate, PageTable.translate, PageTable.translate, hsame.walk]

/-- The states from `s₀` on, with the blocks that other code has allocated: calls of `ptm_map`,
allocations, and writes to these blocks. -/
inductive Mapper.Reach (m : Mapper (pmmFrames limit hlimit) P) (s₀ : Machine PmmState) :
    Machine PmmState → List Allocation → Prop
  | start : m.Reach s₀ s₀ []
  | map {s t : Machine PmmState} {blocks : List Allocation} {c : MapCall}
      (h : m.Reach s₀ s blocks) (hc : m.Fits c) (ht : m.call s c = .ok t) : m.Reach s₀ t blocks
  | alloc {s : Machine PmmState} {blocks : List Allocation} {n alignment : Nat}
      {type : PmmMapType} {r : Nat × PmmMap} (h : m.Reach s₀ s blocks)
      (hs : s.frames.Serves n alignment type)
      (hr : pmmAllocExt s.frames.map n alignment type = .ok r) :
      m.Reach s₀ ⟨s.mem, s.frames.hand n type r⟩ (⟨r.1, n, type⟩ :: blocks)
  | write {s : Machine PmmState} {blocks : List Allocation} {mem : Memory}
      (h : m.Reach s₀ s blocks)
      (hmem : ∀ a, mem a ≠ s.mem a → ∃ y ∈ blocks, y.Contains a) :
      m.Reach s₀ ⟨mem, s.frames⟩ blocks

/-- **The tables in every state**, apart from the blocks of other code. -/
theorem Mapper.Reach.inv (hkeeps : m.Keeps) {s₀ : Machine PmmState} (h₀ : ∃ U, m.Inv s₀ U)
    {blocks : List Allocation} (h : m.Reach s₀ s blocks) :
    ∃ U, m.Inv s U ∧ Apart blocks s.frames U := by
  induction h with
  | start =>
    obtain ⟨U, hU⟩ := h₀
    exact ⟨U, hU, fun y hy ↦ absurd hy List.not_mem_nil⟩
  | @map s t blocks c _ hc ht ih =>
    obtain ⟨U, hinv, hapart⟩ := ih
    obtain ⟨U', hinv', hapart', -⟩ := hkeeps (fun a V ↦ Apart blocks a V)
      (fun a a' V g ho hg hq ↦ hq.frame hlimit ho hg) hinv hapart hc ht
    exact ⟨U', hinv', hapart'⟩
  | @alloc s blocks n alignment type r _ hs hr ih =>
    obtain ⟨U, hinv, hapart⟩ := ih
    obtain ⟨C, hown, hC, hU⟩ := hinv.owns
    rcases hown.pmmAllocExt_spec hs with ⟨r', hr', hown', hh⟩ | ⟨e, he, -⟩
    · obtain rfl : r = r' := Except.ok.inj (hr.symm.trans hr')
      exact ⟨U, hinv.hand hC hown' hU, hapart.hand hU hh⟩
    · cases hr.symm.trans he
  | @write s blocks mem _ hmem ih =>
    obtain ⟨U, hinv, hapart⟩ := ih
    refine ⟨U, (hinv.write fun x hx b hb ↦ ?_).1, hapart⟩
    by_contra hne
    obtain ⟨y, hy, hyb⟩ := hmem b hne
    exact (hapart y hy).2 x hx b hb hyb

end Alongside

/-! ## The leaves -/

/-- Every leaf is of a page the loop can choose, with the permissions of a call. -/
def Mapper.Leaves {A P : Type} {src : FrameSource A} (m : Mapper src P) (mem : Memory) : Prop :=
  ∀ a x, walk m.format mem m.levels m.root a = some x →
    x.height ≤ m.top ∧ ∃ flags, x.perm = m.perm flags

section Leaves

variable {A P : Type} {src : FrameSource A} {m : Mapper src P} {s s' : Machine A}
  {U : Nat → Prop} {c : MapCall}

/-- The leaf of an address that a call that returns has mapped. -/
theorem Mapper.Inv.hit_of_meets (h : m.Inv s U) (hc : m.Fits c) (hs' : m.call s c = .ok s') {a : Nat}
    (ha : c.Meets m.levels a) : ∃ x, walk m.format s'.mem m.levels m.root a = some x ∧
      x.height ≤ m.top ∧ x.addr = c.paddr + (a % span m.levels - c.vaddr % span m.levels) ∧
        x.perm = m.perm c.flags := by
  obtain ⟨hu, -, U', -, hr⟩ := h.call_ok hc hs'
  obtain ⟨hpal, hval, hlal⟩ := MapCall.aligned_of_not hu
  obtain ⟨page, hpage, hsame⟩ := (hr.pages a).mp ha
  have ht := h.translate_of_meets hc hs' ha
  rw [Mapper.translate, PageTable.translate] at ht
  obtain ⟨x, hx, heq⟩ := Option.map_eq_some_iff.mp ht
  obtain ⟨haddr, hperm⟩ := Prod.mk.inj heq
  refine ⟨x, hx, ?_, haddr, hperm⟩
  rw [hr.height page hpage a hsame x hx]
  exact (mem_pages hval hpal hlal hpage).1

/-- One more call. -/
theorem Mapper.Leaves.call (hl : m.Leaves s.mem) (h : m.Inv s U) (hc : m.Fits c)
    (hs' : m.call s c = .ok s') : m.Leaves s'.mem := by
  intro a x hx
  by_cases hin : c.Meets m.levels a
  · obtain ⟨y, hy, htop, -, hperm⟩ := h.hit_of_meets hc hs' hin
    obtain rfl := Option.some.inj (hy.symm.trans hx)
    exact ⟨htop, c.flags, hperm⟩
  · obtain ⟨-, -, U', -, hr⟩ := h.call_ok hc hs'
    rw [hr.elsewhere a hin] at hx
    exact hl a x hx

end Leaves

/-- What the machine is like on x86_64 while the kernel is prepared: after `ptm_init` there were
calls of `ptm_map`, allocations, and writes to what they gave. -/
structure X86.Prepared (limit : Nat) (hlimit : limit ≤ 2 ^ 56) (ptm : X86.Ptm)
    (s : Machine PmmState) : Prop where
  limit_le : limit ≤ 2 ^ 51
  levels : ptm.levelCount = 4 ∨ ptm.levelCount = 5
  tables : ∃ (s₀ s₁ : Machine PmmState) (U : Nat → Prop) (la57 cr4 nx pdpe1gb : Bool)
    (blocks : List Allocation), PmmOwns limit s₀.frames U ∧
      X86.ptmInit (pmmFrames limit hlimit) la57 cr4 nx pdpe1gb s₀ = .ok (ptm, s₁) ∧
      (@X86.mapper _ (pmmFrames limit hlimit) limit_le ptm levels).Reach s₁ s blocks

/-- What the machine is like on riscv64 while the kernel is prepared. -/
structure Riscv.Prepared (limit : Nat) (hlimit : limit ≤ 2 ^ 56) (ptm : Riscv.Ptm)
    (s : Machine PmmState) : Prop where
  levels : 3 ≤ ptm.levelCount ∧ ptm.levelCount ≤ 5
  tables : ∃ (s₀ s₁ : Machine PmmState) (U : Nat → Prop) (acpiLevels dtbLevels : Nat)
    (blocks : List Allocation), PmmOwns limit s₀.frames U ∧
      Riscv.ptmInit (pmmFrames limit hlimit) acpiLevels dtbLevels s₀ = .ok (ptm, s₁) ∧
      (@Riscv.mapper _ (pmmFrames limit hlimit) hlimit ptm levels).Reach s₁ s blocks

section Prepared

variable {limit : Nat} {hlimit : limit ≤ 2 ^ 56} {s : Machine PmmState}

theorem X86.Prepared.inv {ptm : X86.Ptm} (h : X86.Prepared limit hlimit ptm s) :
    ∃ U, (@X86.mapper _ (pmmFrames limit hlimit) h.limit_le ptm h.levels).Inv s U := by
  obtain ⟨s₀, s₁, U, la57, cr4, nx, pdpe1gb, blocks, hs, hi, hreach⟩ := h.tables
  have hlim : (pmmFrames limit hlimit).limit ≤ 2 ^ 51 := h.limit_le
  obtain ⟨U', hinv, -⟩ := hreach.inv (X86.mapper_keeps hlim ptm h.levels)
    (X86.ptmInit_inv hlim hs hi).1
  exact ⟨U', hinv⟩

theorem Riscv.Prepared.inv {ptm : Riscv.Ptm} (h : Riscv.Prepared limit hlimit ptm s) :
    ∃ U, (@Riscv.mapper _ (pmmFrames limit hlimit) hlimit ptm h.levels).Inv s U := by
  obtain ⟨s₀, s₁, U, acpiLevels, dtbLevels, blocks, hs, hi, hreach⟩ := h.tables
  have hlim : (pmmFrames limit hlimit).limit ≤ 2 ^ 56 := hlimit
  obtain ⟨U', hinv, -⟩ := hreach.inv (Riscv.mapper_keeps hlim ptm h.levels)
    (Riscv.ptmInit_inv hlim hs hi h.levels).1
  exact ⟨U', hinv⟩

/-- Right after `ptm_init`. -/
theorem X86.Prepared.of_init {s₀ : Machine PmmState} {U : Nat → Prop} {ptm : X86.Ptm}
    {la57 cr4 nx pdpe1gb : Bool} (hs : PmmOwns limit s₀.frames U)
    (hi : X86.ptmInit (pmmFrames limit hlimit) la57 cr4 nx pdpe1gb s₀ = .ok (ptm, s))
    (hlimit' : limit ≤ 2 ^ 51) : X86.Prepared limit hlimit ptm s :=
  ⟨hlimit', X86.ptmInit_levels hi, s₀, s, U, la57, cr4, nx, pdpe1gb, [], hs, hi, .start⟩

theorem Riscv.Prepared.of_init {s₀ : Machine PmmState} {U : Nat → Prop} {ptm : Riscv.Ptm}
    {acpiLevels dtbLevels : Nat} (hs : PmmOwns limit s₀.frames U)
    (hi : Riscv.ptmInit (pmmFrames limit hlimit) acpiLevels dtbLevels s₀ = .ok (ptm, s))
    (hlevels : 3 ≤ ptm.levelCount ∧ ptm.levelCount ≤ 5) : Riscv.Prepared limit hlimit ptm s :=
  ⟨hlevels, s₀, s, U, acpiLevels, dtbLevels, [], hs, hi, .start⟩

end Prepared

end LunarPrekernel
