import LunarPrekernel.Ptm.RiscvMap

/-!
# Leaves and pointers on riscv64

A leaf and a pointer to the next table are told apart by the permissions in the entry alone, and
these come from the caller.  So what `map_page` takes for a table is one only if every leaf that was
written allows something.

The events of a call are the entries its walks look at and the leaves they write, each with the
machine at that moment; a `Logged` allocator remembers the frames that it gave out.

* `Tables` — what holds of all the tables, wherever they are: an entry that `map_page` would follow
  points to a frame that was given out as a table, no two point to the same one, and all others are
  empty or valid leaves.
* `riscv_tables_run` — every event of every run, for all addresses and lengths.
-/

set_option autoImplicit false

namespace LunarPrekernel

/-- An allocator, and the frames that it has given out. -/
structure Logged (A : Type) where
  frames : A
  given : List Nat

/-- `pmm_alloc(1)`, with a record of its frames. -/
def FrameSource.logged {A : Type} (src : FrameSource A) : FrameSource (Logged A) where
  alloc a := (src.alloc a.frames).map fun r ↦ (r.1, ⟨r.2, r.1 :: a.given⟩)
  limit := src.limit
  Owns a U := src.Owns a.frames U ∧ ∀ g ∈ a.given, U g
  owned h hx := src.owned h.1 hx
  fresh h ha := by
    obtain ⟨r, hr, ha⟩ := map_eq_ok ha
    cases ha
    obtain ⟨hg, ho⟩ := src.fresh h.1 hr
    refine ⟨hg, ho, fun x hx ↦ ?_⟩
    exact (List.mem_cons.mp hx).imp id (h.2 x)

/-- The call is aligned and maps something. -/
def MapCall.Maps (c : MapCall) : Prop := ¬ c.Unaligned ∧ c.length ≠ 0

instance (c : MapCall) : Decidable c.Maps := inferInstanceAs (Decidable (_ ∧ _))

namespace Riscv

open PageTable

/-! ## The events of a call -/

/-- What `map_page` does at an entry of a table, and the machine just before. -/
inductive Event (A : Type) where
  /-- The entry is read, and then followed or filled. -/
  | look (level table : Nat) (s : Machine A)
  /-- The entry is overwritten with a leaf. -/
  | leaf (level table entry : Nat) (s : Machine A)

def Event.table {A : Type} : Event A → Nat
  | look _ table _ => table
  | leaf _ table _ _ => table

def Event.state {A : Type} : Event A → Machine A
  | look _ _ s => s
  | leaf _ _ _ s => s

section Events

variable {A : Type} (src : FrameSource A)

/-- The events of the loop of `map_page`, and of what follows it. -/
def walkEvents (vaddr paddr targetLevel flags : Nat) : Nat → Nat → Machine A → List (Event A)
  | 0, table, s =>
    [.leaf targetLevel table ((paToPpn paddr <<< ptePpnShift) ||| leafFlags flags) s]
  | d + 1, table, s =>
    .look (targetLevel + (d + 1)) table s ::
      match enter src vaddr (targetLevel + (d + 1)) table s with
      | .ok r => walkEvents vaddr paddr targetLevel flags d r.1 r.2
      | .error _ => []

/-- The events of `map_page`. -/
def pageEvents (rootPa totalLevels vaddr paddr targetLevel flags : Nat) (s : Machine A) :
    List (Event A) :=
  if targetLevel < 1 ∨ totalLevels < targetLevel then []
  else walkEvents src vaddr paddr targetLevel flags (totalLevels - targetLevel) rootPa s

/-- The events of the loop of `ptm_map`. -/
def loopEvents (ptm : Ptm) (length flags : Nat) :
    Nat → Nat → Nat → Nat → Machine A → List (Event A)
  | 0, _, _, _, _ => []
  | fuel + 1, vaddr, paddr, offset, s =>
    if offset < length then
      let tl := chooseTargetLevel vaddr paddr (sub64 length offset) ptm.levelCount
      let pgsz := pageSizeAtLevel tl
      pageEvents src ptm.tplt ptm.levelCount vaddr paddr tl flags s ++
        match mapPage src ptm.tplt ptm.levelCount vaddr paddr tl flags s with
        | .ok s =>
          loopEvents ptm length flags fuel (add64 vaddr pgsz) (add64 paddr pgsz) (add64 offset pgsz) s
        | .error _ => []
    else []

/-- The events of `ptm_map`. -/
def Ptm.events (ptm : Ptm) (s : Machine A) (c : MapCall) : List (Event A) :=
  if c.Unaligned then []
  else
    loopEvents src ptm c.length c.flags (c.length / ptmPageGranularity + 1) c.vaddr c.paddr 0 s

end Events

/-! ## What holds of the tables -/

/-- `map_page` takes the entry for a pointer to a table. -/
def IsPointer (entry : Nat) : Prop := entry &&& pteV ≠ 0 ∧ entry &&& (pteR ||| pteW ||| pteX) = 0

instance (entry : Nat) : Decidable (IsPointer entry) := inferInstanceAs (Decidable (_ ∧ _))

/-- The permissions of a leaf: it can be read or executed, and written only if it can be read. -/
def LeafPerm (entry : Nat) : Prop :=
  (entry.testBit 1 = true ∨ entry.testBit 3 = true) ∧
    (entry.testBit 2 = true → entry.testBit 1 = true)

instance (entry : Nat) : Decidable (LeafPerm entry) := inferInstanceAs (Decidable (_ ∧ _))

/-- A leaf for a page of this level: valid, with the permissions of a leaf, no reserved bits, and an
aligned page number. -/
def ValidLeaf (level entry : Nat) : Prop :=
  entry.testBit 0 = true ∧ LeafPerm entry ∧ entry / 2 ^ 54 = 0 ∧ 512 ^ (level - 1) ∣ ppn entry

instance (level entry : Nat) : Decidable (ValidLeaf level entry) :=
  inferInstanceAs (Decidable (_ ∧ _))

/-- The entries of the frames that were given out. -/
structure Tables (given : List Nat) (m : Memory) : Prop where
  /-- Pointers lead to frames that were given out. -/
  pointer : ∀ f ∈ given, ∀ i < 512, IsPointer (word m f i) → pteToPa (word m f i) ∈ given
  /-- No two of them lead to the same. -/
  single : ∀ f ∈ given, ∀ i < 512, ∀ g ∈ given, ∀ j < 512, IsPointer (word m f i) →
    IsPointer (word m g j) → pteToPa (word m f i) = pteToPa (word m g j) → f = g ∧ i = j
  /-- What is neither empty nor a pointer is a leaf. -/
  leaf : ∀ f ∈ given, ∀ i < 512, (word m f i).testBit 0 = true → ¬ IsPointer (word m f i) →
    LeafPerm (word m f i)

/-- The entry is in a table that was given out, and a leaf is valid. -/
def Event.Ok {A : Type} : Event (Logged A) → Prop
  | look _ table s => table ∈ s.frames.given ∧ Tables s.frames.given s.mem
  | leaf level table entry s =>
    table ∈ s.frames.given ∧ Tables s.frames.given s.mem ∧ ValidLeaf level entry

theorem Event.Ok.mem {A : Type} {e : Event (Logged A)} (h : e.Ok) :
    e.table ∈ e.state.frames.given := by
  cases e with
  | look level table s => exact h.1
  | leaf level table entry s => exact h.1

section Entries

variable {w : Nat}

theorem isPointer_iff : IsPointer w ↔ w.testBit 0 = true ∧ allows w = false := by
  have h0 := (and_pteV w).not
  have h1 := (and_pteRwx w).not
  rw [not_not, Bool.not_eq_true] at h1
  rw [Bool.not_eq_false] at h0
  rw [IsPointer, ne_eq, h0, h1]

theorem LeafPerm.allows (h : LeafPerm w) : allows w = true := by
  rw [Riscv.allows]
  rcases h.1 with h | h <;> simp [h]

theorem not_isPointer_zero : ¬ IsPointer 0 := by decide

/-- Any physical address is cut to 44 bits of page number. -/
theorem masked_entry_eq {b : Nat} (pa : Nat) (hb : b < 2 ^ 10) :
    (paToPpn pa <<< ptePpnShift) ||| b = 2 ^ 10 * (pa / 4096 % 2 ^ 44) + b := by
  rw [paToPpn, ptePpnMask, ptePpnShift, Nat.one_shiftLeft, Nat.and_two_pow_sub_one_eq_mod,
    Nat.shiftRight_eq_div_pow, show 2 ^ 12 = 4096 by norm_num, ← Nat.shiftLeft_add_eq_or_of_lt hb,
    Nat.shiftLeft_eq, Nat.mul_comm]

theorem masked_entry_lt {b : Nat} (pa : Nat) (hb : b < 2 ^ 10) :
    (paToPpn pa <<< ptePpnShift) ||| b < 2 ^ 64 := by
  rw [masked_entry_eq pa hb]
  exact entry_lt (Nat.mod_lt _ (by decide)) hb

/-- The permissions of a leaf, as the flags of a call have them. -/
theorem leafPerm_iff (flags paddr : Nat) :
    LeafPerm ((paToPpn paddr <<< ptePpnShift) ||| leafFlags flags) ↔ ValidFlags flags := by
  have hb := leafFlags_lt flags
  obtain ⟨-, h1, h2, h3⟩ := testBit_leafFlags flags
  rw [masked_entry_eq paddr hb, LeafPerm, testBit_entry hb (by omega), testBit_entry hb (by omega),
    testBit_entry hb (by omega), h1, h2, h3, ValidFlags]
  cases flagRead flags <;> cases flagWrite flags <;> cases flagExec flags <;> decide

/-- **What `map_page` writes** is a valid leaf, at any address of the right alignment. -/
theorem validLeaf_leaf {flags level paddr : Nat} (hf : ValidFlags flags) (hl : level ≤ 3)
    (hp : pageSizeAtLevel level ∣ paddr) :
    ValidLeaf level ((paToPpn paddr <<< ptePpnShift) ||| leafFlags flags) := by
  have hb := leafFlags_lt flags
  have hx : paddr / 4096 % 2 ^ 44 < 2 ^ 44 := Nat.mod_lt _ (by decide)
  refine ⟨?_, (leafPerm_iff flags paddr).mpr hf, ?_, ?_⟩
  · rw [masked_entry_eq paddr hb, testBit_entry hb (by omega)]
    exact (testBit_leafFlags flags).1
  · rw [masked_entry_eq paddr hb, entry_reserved hx hb]
  · have hpow : 512 ^ (level - 1) = 2 ^ (9 * (level - 1)) := by
      rw [pow_mul]
      norm_num
    have hdvd : 512 ^ (level - 1) ∣ 2 ^ 44 := by
      rw [hpow]
      exact Nat.pow_dvd_pow 2 (by omega)
    obtain ⟨c, rfl⟩ := hp
    rw [masked_entry_eq _ hb, ppn_entry hx hb, Nat.dvd_mod_iff hdvd, pageSizeAtLevel,
      Nat.shiftLeft_eq, ← hpow, ptmPageGranularity, Nat.mul_assoc,
      Nat.mul_div_cancel_left _ (by norm_num)]
    exact Nat.dvd_mul_right _ _

/-- A pointer to a new table. -/
theorem pointer_newEntry {g : Nat} (hg : 4096 ∣ g) (hlt : g < 2 ^ 56) :
    IsPointer ((paToPpn g <<< ptePpnShift) ||| pteV) ∧
      pteToPa ((paToPpn g <<< ptePpnShift) ||| pteV) = g := by
  have hb : pteV < 2 ^ 10 := by decide
  have hx : g / 4096 < 2 ^ 44 := by omega
  rw [entry_eq hlt hb]
  constructor
  · rw [isPointer_iff, allows, testBit_entry hb (by omega), testBit_entry hb (by omega),
      testBit_entry hb (by omega), testBit_entry hb (by omega)]
    exact ⟨rfl, rfl⟩
  · rw [pteToPa_eq (entry_reserved hx hb), ppn_entry hx hb, Nat.div_mul_cancel hg]

end Entries

/-! ## One entry more -/

section Step

variable {given : List Nat} {m : Memory} {f i w : Nat}

/-- An entry is overwritten with a leaf. -/
theorem Tables.setLeaf (h : Tables given m) (hal : ∀ f ∈ given, 4096 ∣ f) (hf : f ∈ given)
    (hi : i < 512) (hlt : w < 2 ^ 64) (hw : LeafPerm w) : Tables given (setWord m f i w) := by
  have hword : ∀ g ∈ given, ∀ j < 512, word (setWord m f i w) g j = word m g j ∨
      word (setWord m f i w) g j = w := by
    intro g hg j hj
    rcases eq_or_ne g f with rfl | hne
    · rcases eq_or_ne i j with rfl | hij
      · exact Or.inr (word_setWord_self hlt)
      · exact Or.inl (word_setWord_of_ne hij)
    · exact Or.inl (word_setWord_of_frame_ne (hal f hf) (hal g hg) hne hi hj)
  have hno : ¬ IsPointer w := fun hp ↦ by
    have := (isPointer_iff.mp hp).2
    rw [hw.allows] at this
    cases this
  have hold : ∀ g ∈ given, ∀ j < 512, IsPointer (word (setWord m f i w) g j) →
      word (setWord m f i w) g j = word m g j := by
    intro g hg j hj hp
    refine (hword g hg j hj).resolve_right fun he ↦ hno ?_
    rwa [he] at hp
  refine ⟨fun g hg j hj hp ↦ ?_, fun g hg j hj g' hg' j' hj' hp hp' he ↦ ?_,
    fun g hg j hj h0 hp ↦ ?_⟩
  · have hsame := hold g hg j hj hp
    rw [hsame] at hp ⊢
    exact h.pointer g hg j hj hp
  · have hsame := hold g hg j hj hp
    have hsame' := hold g' hg' j' hj' hp'
    rw [hsame] at hp he
    rw [hsame'] at hp' he
    exact h.single g hg j hj g' hg' j' hj' hp hp' he
  · rcases hword g hg j hj with hsame | hsame
    · rw [hsame] at h0 hp ⊢
      exact h.leaf g hg j hj h0 hp
    · rw [hsame]
      exact hw

/-- An entry is filled with a pointer to a new table. -/
theorem Tables.setPointer {g : Nat} (h : Tables given m) (hal : ∀ f ∈ given, 4096 ∣ f)
    (hf : f ∈ given) (hi : i < 512) (hlt : w < 2 ^ 64) (hg : 4096 ∣ g) (hnew : g ∉ given)
    (hw : IsPointer w) (hto : pteToPa w = g) :
    Tables (g :: given) (setWord (clear m g) f i w) := by
  have hgf : g ≠ f := fun he ↦ hnew (he ▸ hf)
  have hself : word (setWord (clear m g) f i w) f i = w := word_setWord_self hlt
  have hfresh : ∀ j < 512, word (setWord (clear m g) f i w) g j = 0 := fun j hj ↦ by
    rw [word_setWord_of_frame_ne (hal f hf) hg hgf hi hj, word_clear_self hj]
  have hother : ∀ x ∈ given, ∀ j < 512, ¬ (x = f ∧ j = i) →
      word (setWord (clear m g) f i w) x j = word m x j := by
    intro x hx j hj hne
    have hxg : x ≠ g := fun he ↦ hnew (he ▸ hx)
    have hclear : word (clear m g) x j = word m x j := word_clear_of_frame_ne hg (hal x hx) hxg hj
    rcases eq_or_ne x f with rfl | hxf
    · rw [word_setWord_of_ne fun hij ↦ hne ⟨rfl, hij.symm⟩, hclear]
    · rw [word_setWord_of_frame_ne (hal f hf) (hal x hx) hxf hi hj, hclear]
  -- a pointer is the new one, or it was there before
  have hcases : ∀ x ∈ g :: given, ∀ j < 512, IsPointer (word (setWord (clear m g) f i w) x j) →
      (x = f ∧ j = i) ∨ (x ∈ given ∧ word (setWord (clear m g) f i w) x j = word m x j) := by
    intro x hx j hj hp
    rcases List.mem_cons.mp hx with rfl | hx
    · rw [hfresh j hj] at hp
      exact absurd hp not_isPointer_zero
    · by_cases hne : x = f ∧ j = i
      · exact Or.inl hne
      · exact Or.inr ⟨hx, hother x hx j hj hne⟩
  have hold : ∀ x ∈ given, ∀ j < 512, IsPointer (word m x j) → pteToPa (word m x j) ≠ g :=
    fun x hx j hj hp he ↦ hnew (he ▸ h.pointer x hx j hj hp)
  refine ⟨fun x hx j hj hp ↦ ?_, fun x hx j hj x' hx' j' hj' hp hp' he ↦ ?_,
    fun x hx j hj h0 hp ↦ ?_⟩
  · rcases hcases x hx j hj hp with ⟨rfl, rfl⟩ | ⟨hx, hsame⟩
    · rw [hself, hto]
      exact List.mem_cons_self
    · rw [hsame] at hp ⊢
      exact List.mem_cons_of_mem _ (h.pointer x hx j hj hp)
  · rcases hcases x hx j hj hp with ⟨rfl, rfl⟩ | ⟨hx, hsame⟩ <;>
    rcases hcases x' hx' j' hj' hp' with ⟨rfl, rfl⟩ | ⟨hx', hsame'⟩
    · exact ⟨rfl, rfl⟩
    · rw [hsame'] at hp' he
      rw [hself, hto] at he
      exact absurd he.symm (hold x' hx' j' hj' hp')
    · rw [hsame] at hp he
      rw [hself, hto] at he
      exact absurd he (hold x hx j hj hp)
    · rw [hsame] at hp he
      rw [hsame'] at hp' he
      exact h.single x hx j hj x' hx' j' hj' hp hp' he
  · rcases List.mem_cons.mp hx with rfl | hx
    · rw [hfresh j hj] at h0
      exact absurd h0 (by decide)
    · by_cases hne : x = f ∧ j = i
      · obtain ⟨rfl, rfl⟩ := hne
        rw [hself] at hp
        exact absurd hw hp
      · rw [hother x hx j hj hne] at h0 hp ⊢
        exact h.leaf x hx j hj h0 hp

/-- A cleared root. -/
theorem tables_root (m : Memory) (g : Nat) : Tables [g] (clear m g) := by
  have hzero : ∀ f ∈ [g], ∀ i < 512, word (clear m g) f i = 0 := by
    rintro f hf i hi
    obtain rfl := List.mem_singleton.mp hf
    exact word_clear_self hi
  refine ⟨fun f hf i hi hp ↦ ?_, fun f hf i hi g' hg' j hj hp ↦ ?_, fun f hf i hi h0 ↦ ?_⟩
  · rw [hzero f hf i hi] at hp
    exact absurd hp not_isPointer_zero
  · rw [hzero f hf i hi] at hp
    exact absurd hp not_isPointer_zero
  · rw [hzero f hf i hi] at h0
    exact absurd h0 (by decide)

end Step

/-! ## Runs -/

/-- What holds between two calls of `map_page`. -/
structure Wired {A : Type} (src : FrameSource A) (root : Nat) (s : Machine (Logged A)) : Prop where
  owns : ∃ U, src.logged.Owns s.frames U
  root : root ∈ s.frames.given
  tables : Tables s.frames.given s.mem

section Run

variable {A : Type} {src : FrameSource A} {root : Nat} {s s' : Machine (Logged A)}

theorem Wired.aligned (h : Wired src root s) : ∀ f ∈ s.frames.given, 4096 ∣ f := by
  obtain ⟨U, hU⟩ := h.owns
  exact fun f hf ↦ (src.logged.owned hU (hU.2 f hf)).1

theorem vaddrVpn_lt (vaddr level : Nat) : vaddrVpn vaddr level < 512 :=
  Nat.lt_succ_of_le Nat.and_le_right

/-- A step down: through a pointer, or through a table made on the way. -/
theorem Wired.enter (hlim : src.limit ≤ 2 ^ 56) (h : Wired src root s) {table vaddr level : Nat}
    (ht : table ∈ s.frames.given) {r : Nat × Machine (Logged A)}
    (hr : enter src.logged vaddr level table s = .ok r) :
    r.1 ∈ r.2.frames.given ∧ Wired src root r.2 := by
  have hi := vaddrVpn_lt vaddr level
  rw [Riscv.enter] at hr
  simp only at hr
  split at hr
  · obtain ⟨⟨g, frames⟩, ha, hr⟩ := bind_eq_ok hr
    cases hr
    obtain ⟨U, hU⟩ := h.owns
    obtain ⟨hg, ho⟩ := src.logged.fresh hU ha
    obtain ⟨hgal, hglt⟩ := src.logged.owned ho (Or.inl rfl)
    obtain ⟨r, -, ha⟩ := map_eq_ok ha
    cases ha
    have hglt : r.1 < 2 ^ 56 := Nat.lt_of_lt_of_le hglt hlim
    obtain ⟨hp, hto⟩ := pointer_newEntry hgal hglt
    rw [hto]
    exact ⟨List.mem_cons_self, ⟨_, ho⟩, List.mem_cons_of_mem _ h.root,
      h.tables.setPointer h.aligned ht hi (masked_entry_lt _ (by decide)) hgal
        (fun hmem ↦ hg (hU.2 _ hmem)) hp hto⟩
  · split at hr
    · cases hr
    · rename_i h0 hx
      cases hr
      exact ⟨h.tables.pointer table ht _ hi ⟨h0, not_not.mp hx⟩, h⟩

/-- A walk. -/
theorem Wired.walk (hlim : src.limit ≤ 2 ^ 56) {vaddr paddr tl flags : Nat}
    (hf : ValidFlags flags) (hl : tl ≤ 3) (hp : pageSizeAtLevel tl ∣ paddr) (d : Nat)
    (h : Wired src root s) {table : Nat} (ht : table ∈ s.frames.given) :
    (∀ e ∈ walkEvents src.logged vaddr paddr tl flags d table s, e.Ok) ∧
      ∀ s', mapFrom src.logged vaddr paddr tl flags d table s = .ok s' → Wired src root s' := by
  induction d generalizing s table with
  | zero =>
    have hleaf := validLeaf_leaf hf hl hp
    constructor
    · intro e he
      obtain rfl := List.mem_singleton.mp he
      exact ⟨ht, h.tables, hleaf⟩
    · intro s' hs'
      cases hs'
      exact ⟨h.owns, h.root, h.tables.setLeaf h.aligned ht (vaddrVpn_lt _ _)
        (masked_entry_lt _ (leafFlags_lt flags)) hleaf.2.1⟩
  | succ d ih =>
    rw [walkEvents, mapFrom]
    cases hr : Riscv.enter src.logged vaddr (tl + (d + 1)) table s with
    | error e =>
      refine ⟨fun e' he ↦ ?_, fun s' hs' ↦ by cases hs'⟩
      obtain rfl := List.mem_singleton.mp he
      exact ⟨ht, h.tables⟩
    | ok r =>
      obtain ⟨hmem, hnext⟩ := h.enter hlim ht hr
      obtain ⟨hevents, hok⟩ := ih hnext hmem
      refine ⟨fun e he ↦ ?_, hok⟩
      rcases List.mem_cons.mp he with rfl | he
      · exact ⟨ht, h.tables⟩
      · exact hevents e he

/-- A page. -/
theorem Wired.page (hlim : src.limit ≤ 2 ^ 56) {levels vaddr paddr tl flags : Nat}
    (hf : ValidFlags flags) (hl : tl ≤ 3) (hp : pageSizeAtLevel tl ∣ paddr)
    (h : Wired src root s) :
    (∀ e ∈ pageEvents src.logged root levels vaddr paddr tl flags s, e.Ok) ∧
      ∀ s', mapPage src.logged root levels vaddr paddr tl flags s = .ok s' → Wired src root s' := by
  rw [pageEvents, mapPage]
  split
  · exact ⟨fun e he ↦ absurd he List.not_mem_nil, fun s' hs' ↦ by cases hs'⟩
  · exact h.walk hlim hf hl hp _ h.root

/-- The level that is chosen goes with the physical address. -/
theorem chooseLevelFrom_spec {vaddr paddr : Nat} (hp : 4096 ∣ paddr) (remain k : Nat) :
    chooseLevelFrom vaddr paddr remain k ≤ max k 1 ∧
      pageSizeAtLevel (chooseLevelFrom vaddr paddr remain k) ∣ paddr := by
  have hone : pageSizeAtLevel 1 ∣ paddr := hp
  induction k with
  | zero => exact ⟨Nat.le_max_right _ _, hone⟩
  | succ k ih =>
    rw [chooseLevelFrom]
    split
    · simp only
      split
      · rename_i hfit
        exact ⟨Nat.le_max_left _ _, Nat.dvd_of_mod_eq_zero hfit.2.1⟩
      · exact ⟨ih.1.trans (by omega), ih.2⟩
    · exact ⟨Nat.le_max_right _ _, hone⟩

theorem page_dvd_pageSizeAtLevel (level : Nat) : 4096 ∣ pageSizeAtLevel level := by
  rw [pageSizeAtLevel, Nat.shiftLeft_eq, ptmPageGranularity]
  exact Nat.dvd_mul_right _ _

/-- The loop of `ptm_map`. -/
theorem Wired.loop (hlim : src.limit ≤ 2 ^ 56) {ptm : Ptm} {length flags : Nat}
    (hf : ValidFlags flags) (fuel : Nat) {vaddr paddr offset : Nat} (hp : 4096 ∣ paddr)
    (h : Wired src ptm.tplt s) :
    (∀ e ∈ loopEvents src.logged ptm length flags fuel vaddr paddr offset s, e.Ok) ∧
      ∀ s', ptmMapLoop src.logged ptm length flags fuel vaddr paddr offset s = .ok s' →
        Wired src ptm.tplt s' := by
  induction fuel generalizing s vaddr paddr offset with
  | zero => exact ⟨fun e he ↦ absurd he List.not_mem_nil, fun s' hs' ↦ by cases hs'⟩
  | succ fuel ih =>
    rw [loopEvents, ptmMapLoop]
    split
    swap
    · refine ⟨fun e he ↦ absurd he List.not_mem_nil, fun s' hs' ↦ ?_⟩
      cases hs'
      exact h
    simp only
    set tl := chooseTargetLevel vaddr paddr (sub64 length offset) ptm.levelCount with htl
    obtain ⟨hle, hdvd⟩ : tl ≤ max (min ptm.levelCount 3) 1 ∧ pageSizeAtLevel tl ∣ paddr :=
      chooseLevelFrom_spec hp _ _
    obtain ⟨hevents, hok⟩ := @Wired.page _ _ _ s hlim ptm.levelCount vaddr _ tl flags hf (by omega)
      hdvd h
    cases hs₁ : mapPage src.logged ptm.tplt ptm.levelCount vaddr paddr tl flags s with
    | error e =>
      refine ⟨fun e' he ↦ ?_, fun s' hs' ↦ by cases hs'⟩
      rw [List.append_nil] at he
      exact hevents e' he
    | ok s₁ =>
      have hnext : 4096 ∣ add64 paddr (pageSizeAtLevel tl) := by
        rw [add64]
        exact (Nat.dvd_mod_iff (by decide)).mpr (hp.add (page_dvd_pageSizeAtLevel tl))
      obtain ⟨hevents', hok'⟩ := ih hnext (hok s₁ hs₁)
      refine ⟨fun e he ↦ ?_, hok'⟩
      exact (List.mem_append.mp he).elim (hevents e) (hevents' e)

/-- What a call must not ask for is only of interest if it maps something. -/
def FlagsFit (c : MapCall) : Prop := c.Maps → ValidFlags c.flags

instance (c : MapCall) : Decidable (FlagsFit c) := inferInstanceAs (Decidable (_ → _))

/-- A call. -/
theorem Wired.call (hlim : src.limit ≤ 2 ^ 56) {ptm : Ptm} (h : Wired src ptm.tplt s)
    {c : MapCall} (hc : FlagsFit c) :
    (∀ e ∈ ptm.events src.logged s c, e.Ok) ∧
      ∀ s', ptm.call src.logged s c = .ok s' → Wired src ptm.tplt s' := by
  rw [Ptm.events]
  split
  · rename_i hu
    rw [Ptm.call_unaligned hu]
    exact ⟨fun e he ↦ absurd he List.not_mem_nil, fun s' hs' ↦ by cases hs'⟩
  · rename_i hu
    rw [Ptm.call_aligned hu]
    by_cases hlen : c.length = 0
    · rw [hlen]
      refine ⟨fun e he ↦ absurd he List.not_mem_nil, fun s' hs' ↦ ?_⟩
      cases hs'
      exact h
    · exact h.loop hlim (hc ⟨hu, hlen⟩) _ (MapCall.aligned_of_not hu).1

theorem Wired.run (hlim : src.limit ≤ 2 ^ 56) {ptm : Ptm} (h : Wired src ptm.tplt s)
    {cs : List MapCall} (hcs : ∀ c ∈ cs, FlagsFit c) (hr : ptm.run src.logged s cs = .ok s') :
    Wired src ptm.tplt s' := by
  induction cs generalizing s with
  | nil =>
    cases hr
    exact h
  | cons c cs ih =>
    obtain ⟨t, hc, hr⟩ := bind_eq_ok hr
    exact ih ((h.call hlim (hcs c List.mem_cons_self)).2 t hc)
      (fun d hd ↦ hcs d (List.mem_cons_of_mem _ hd)) hr

/-- `ptm_init`. -/
theorem Wired.init {a : A} {U : Nat → Prop} (hs : src.Owns a U) {mem : Memory}
    {acpiLevels dtbLevels : Nat} {ptm : Ptm}
    (hi : ptmInit src.logged acpiLevels dtbLevels ⟨mem, ⟨a, []⟩⟩ = .ok (ptm, s)) :
    Wired src ptm.tplt s := by
  obtain ⟨levelCount, -, hi⟩ := bind_eq_ok hi
  obtain ⟨⟨g, frames⟩, ha, hr⟩ := map_eq_ok hi
  cases hr
  obtain ⟨-, ho⟩ := src.logged.fresh ⟨hs, fun x hx ↦ absurd hx List.not_mem_nil⟩ ha
  obtain ⟨r, -, ha⟩ := map_eq_ok ha
  cases ha
  exact ⟨⟨_, ho⟩, List.mem_cons_self, tables_root mem r.1⟩

/-- **Every run of `ptm_map`**, at any addresses.  If no call that maps something asks for a leaf
that allows nothing or that can be written only, then every entry that is written for a page is a
valid leaf, every table a walk looks into was given out as a table, and no table has two pointers
to it. -/
theorem riscv_tables_run (hlim : src.limit ≤ 2 ^ 56) {a : A} {U : Nat → Prop} (hs : src.Owns a U)
    {mem : Memory} {acpiLevels dtbLevels : Nat} {ptm : Ptm} {s₁ : Machine (Logged A)}
    (hi : ptmInit src.logged acpiLevels dtbLevels ⟨mem, ⟨a, []⟩⟩ = .ok (ptm, s₁))
    {cs : List MapCall} (hcs : ∀ c ∈ cs, FlagsFit c) (hr : ptm.run src.logged s₁ cs = .ok s) :
    Tables s.frames.given s.mem ∧
      ∀ c, FlagsFit c → ∀ e ∈ ptm.events src.logged s c, e.Ok :=
  have h := (Wired.init hs hi).run hlim hcs hr
  ⟨h.tables, fun _ hc ↦ (h.call hlim hc).1⟩

/-- A large page, and then a call right behind it. -/
theorem riscv_tables_run_two_calls : ∃ (m : PmmMap) (ptm : Ptm) (s₁ s : Machine (Logged PmmState)),
    addAll .empty [⟨0x10000, 0x100000, .free⟩] = .ok m ∧
      ptmInit (pmmFrames (2 ^ 56) le_rfl).logged 0 3 ⟨fun _ ↦ 0, ⟨⟨m, []⟩, []⟩⟩ = .ok (ptm, s₁) ∧
      ptm.run (pmmFrames (2 ^ 56) le_rfl).logged s₁ [⟨0x40000000, 0x200000, 0x200000, 6⟩] = .ok s ∧
      Tables s.frames.given s.mem ∧
      ∀ e ∈ ptm.events (pmmFrames (2 ^ 56) le_rfl).logged s ⟨0x40200000, 0x5000, 0x1000, 5⟩,
        e.Ok := by
  have h : ((addAll .empty [⟨0x10000, 0x100000, .free⟩]).bind fun m ↦
      (ptmInit (pmmFrames (2 ^ 56) le_rfl).logged 0 3 ⟨fun _ ↦ 0, ⟨⟨m, []⟩, []⟩⟩).bind fun r ↦
        r.1.run (pmmFrames (2 ^ 56) le_rfl).logged r.2
          [⟨0x40000000, 0x200000, 0x200000, 6⟩]).isOk = true := by decide +kernel
  obtain ⟨s, hs⟩ := isOk_eq_true h
  obtain ⟨m, hm, hs⟩ := bind_eq_ok hs
  obtain ⟨⟨ptm, s₁⟩, hi, hr⟩ := bind_eq_ok hs
  have hown : PmmOwns (2 ^ 56) ⟨m, []⟩ fun _ ↦ False :=
    PmmOwns.start ⟨by decide, by decide, by decide⟩ hm (by decide)
  have hcs : ∀ c ∈ [(⟨0x40000000, 0x200000, 0x200000, 6⟩ : MapCall)], FlagsFit c := by
    intro c hc
    obtain rfl := List.mem_singleton.mp hc
    decide
  obtain ⟨ht, hevents⟩ := riscv_tables_run le_rfl hown hi hcs hr
  exact ⟨m, ptm, s₁, s, hm, hi, hr, ht, hevents _ (by decide)⟩

/-- **A large page without permissions** is a pointer: the next call below it takes the page for a
table, and writes an entry into it. -/
theorem riscv_tables_no_permissions :
    ∃ (m : PmmMap) (ptm : Ptm) (s₁ s s' : Machine (Logged PmmState)),
      addAll .empty [⟨0x10000, 0x100000, .free⟩] = .ok m ∧
      ptmInit (pmmFrames (2 ^ 56) le_rfl).logged 0 3 ⟨fun _ ↦ 0, ⟨⟨m, []⟩, []⟩⟩ = .ok (ptm, s₁) ∧
      ptm.run (pmmFrames (2 ^ 56) le_rfl).logged s₁ [⟨0x40000000, 0x200000, 0x200000, 0⟩] = .ok s ∧
      ptm.call (pmmFrames (2 ^ 56) le_rfl).logged s ⟨0x40001000, 0x5000, 0x1000, 6⟩ = .ok s' ∧
      (∃ e ∈ ptm.events (pmmFrames (2 ^ 56) le_rfl).logged s ⟨0x40001000, 0x5000, 0x1000, 6⟩,
        e.table = 0x200000 ∧ ¬ e.Ok) ∧
      ¬ Tables s.frames.given s.mem ∧ word s.mem 0x200000 1 = 0 ∧ word s'.mem 0x200000 1 ≠ 0 := by
  have h : ((addAll .empty [⟨0x10000, 0x100000, .free⟩]).toOption.bind fun m ↦
      (ptmInit (pmmFrames (2 ^ 56) le_rfl).logged 0 3
          ⟨fun _ ↦ 0, ⟨⟨m, []⟩, []⟩⟩).toOption.bind fun r ↦
        (r.1.run (pmmFrames (2 ^ 56) le_rfl).logged r.2
            [⟨0x40000000, 0x200000, 0x200000, 0⟩]).toOption.bind fun s ↦
          (r.1.call (pmmFrames (2 ^ 56) le_rfl).logged s
              ⟨0x40001000, 0x5000, 0x1000, 6⟩).toOption.map fun s' ↦
            (((r.1.events (pmmFrames (2 ^ 56) le_rfl).logged s
                ⟨0x40001000, 0x5000, 0x1000, 6⟩).map fun e ↦
                  (e.table, e.state.frames.given))[2]?, s.frames.given,
              word s.mem 0x11000 0, word s.mem 0x200000 1, word s'.mem 0x200000 1)) =
      some (some (0x200000, [0x11000, 0x10000]), [0x11000, 0x10000], 0x80001, 0, 0x1407) := by
    decide +kernel
  obtain ⟨m, hm, h⟩ := Option.bind_eq_some_iff.mp h
  obtain ⟨⟨ptm, s₁⟩, hi, h⟩ := Option.bind_eq_some_iff.mp h
  obtain ⟨s, hs, h⟩ := Option.bind_eq_some_iff.mp h
  obtain ⟨s', hs', hfacts⟩ := Option.map_eq_some_iff.mp h
  simp only [Prod.mk.injEq] at hfacts
  obtain ⟨hevent, hgiven, hpointer, hbefore, hafter⟩ := hfacts
  refine ⟨m, ptm, s₁, s, s', toOption_eq_some hm, toOption_eq_some hi, toOption_eq_some hs,
    toOption_eq_some hs', ?_, fun ht ↦ ?_, hbefore, by rw [hafter]; decide⟩
  · rw [List.getElem?_map] at hevent
    obtain ⟨e, he, hfacts⟩ := Option.map_eq_some_iff.mp hevent
    obtain ⟨htable, hgiven⟩ := Prod.mk.inj hfacts
    refine ⟨e, List.mem_of_getElem? he, htable, fun hok ↦ ?_⟩
    have := hok.mem
    rw [htable, hgiven] at this
    exact absurd this (by decide)
  · have := ht.pointer 0x11000 (by rw [hgiven]; decide) 0 (by decide)
    rw [hpointer, hgiven] at this
    exact absurd (this (by decide)) (by decide)

end Run

end Riscv

end LunarPrekernel
