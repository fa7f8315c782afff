import LunarPrekernel.Pagedb.Run

/-!
# What the page database covers

The kernel finds the record of page `f` at `pfndb_start + f * es`, for every page of memory.  So the
record of each page that meets a live entry has to be mapped.

`pagedb_setup` does that on some maps only.  The array begins one page behind the direct map, so it
is aligned only if the memory is; and an entry is taken to end with its last whole page, so the page
it ends in gets its record from a neighbour, if at all.  `PagedbClean` says which maps are right.

* `Mapper.pagedb_iff` — all records are mapped exactly if the map is `PagedbClean`.
* `pagedb_setup` — the same for the two architectures.
-/

set_option autoImplicit false

namespace LunarPrekernel

open SpanMap Span PmmMap PageTable Sweep

/-! ## What it is for, and when it does that -/

/-- Every byte of the record of every page that meets an entry that is not bad is mapped, with the
permissions `perm`. -/
def PagedbCovers {P : Type} (translate : Memory → Nat → Option (Nat × P)) (perm : P)
    (l : List PmmMapEntry) (es : Nat) : Except Stop ((Nat × Nat) × Pagedb) → Prop
  | .ok x => ∀ f, Backed l (4096 * f) → ∀ a, x.1.1 + f * es ≤ a → a < x.1.1 + (f + 1) * es →
      ∃ g, translate x.2.machine.mem a = some (g, perm)
  | .error _ => False

/-- The last byte of page `f` is in an entry that is not bad. -/
def Filled (l : List PmmMapEntry) (f : Nat) : Prop :=
  ∃ type, typeAt l (4096 * f + 4095) = some type ∧ type ≠ .bad

/-- Page `q` of the database holds a byte of the record of page `f`. -/
def HoldsRecord (es f q : Nat) : Prop := f * es < (q + 1) * 4096 ∧ q * 4096 < (f + 1) * es

/-- The ranges of pages of the database for the records of a snapshot that are not bad. -/
def dbRanges (es : Nat) (entries : List PmmMapEntry) : List (Nat × Nat) :=
  (entries.filter fun e ↦ e.type ≠ .bad).map (dbRange es)

/-- What the map `m` has to be like: its block for the snapshot is not at address 0, two slots are
dead, the memory is whole pages (unless the records are empty), and if an entry ends within a page,
then what the page's record is in belongs to the records that the code counts for an entry: the
first that reaches behind it does not begin behind it.  `r` is what `pmm_alloc` gives for the
snapshot. -/
structure PagedbClean (size es : Nat) (m : PmmMap) (r : Nat × PmmMap) : Prop where
  address : r.1 ≠ 0
  room : m.size + 2 ≤ pmmMapMaxEntries
  aligned : es = 0 ∨ 4096 ∣ size
  edges : ∀ f, Backed m.live (4096 * f) → ¬ Filled m.live f → ∀ q, HoldsRecord es f q →
    ∃ x, behind q (dbRanges es (snapshotEntries m r.2)) = some x ∧ x.1 ≤ q

/-- There is enough memory: once the snapshot is made, no call of the allocator stops. -/
def PagedbServed (ptmMap : Machine PmmState → MapCall → Except Stop (Machine PmmState))
    (hhdmOffset size es : Nat) (s : Machine PmmState) : Prop :=
  ∀ x, s.frames.createSnapshot = .ok x →
    (∀ e, pagedbLoop ptmMap (hhdmOffset + size + 4096) es x.1.entries ⟨⟨s.mem, x.2⟩, []⟩ =
      .error e → ¬ AllocError e) ∧
    ∀ y, pagedbLoop ptmMap (hhdmOffset + size + 4096) es x.1.entries ⟨⟨s.mem, x.2⟩, []⟩ = .ok y →
      ∃ frames, y.2.machine.frames.freeSnapshot x.1 = .ok frames

/-! ## Which pages are visited -/

section Visited

variable {es size f q : Nat} {entries : List PmmMapEntry}

theorem mem_dbSweep : q ∈ dbSweep es entries ↔
    ∃ x, behind q (dbRanges es entries) = some x ∧ x.1 ≤ q :=
  mem_sweep_iff.trans ⟨And.right, fun h ↦ ⟨Nat.zero_le q, h⟩⟩

/-- They are pages of the database. -/
theorem dbSweep_lt (hentries : ∀ e ∈ entries, e.stop ≤ size) (hq : q ∈ dbSweep es entries) :
    q < dbPages size es := by
  obtain ⟨x, hx, -⟩ := mem_dbSweep.mp hq
  obtain ⟨hmem, -, hlt⟩ := behind_spec hx
  obtain ⟨e, he, rfl⟩ := List.mem_map.mp hmem
  exact hlt.trans_le (dbRange_le (hentries e (List.mem_filter.mp he).1)).2

/-- The entries that are live come first in a snapshot. -/
theorem snapshotEntries_eq {m m' : PmmMap} (h : m'.size ≤ m.size + 2) :
    ∃ rest, snapshotEntries m m' = m'.live ++ rest := by
  obtain ⟨k, hk⟩ := Nat.le.dest h
  refine ⟨(List.range' m'.size k).map m'.slots, ?_⟩
  rw [snapshotEntries, live, ← List.map_append, ← hk, List.range_eq_range', List.range_eq_range',
    ← List.range'_append_1, Nat.zero_add]

/-- A page of memory that an entry fills up to its end has its record in the entry's range. -/
theorem HoldsRecord.of_filled (h : HoldsRecord es f q) {e : PmmMapEntry}
    (he : e.Contains (4096 * f + 4095)) : (dbRange es e).1 ≤ q ∧ q < (dbRange es e).2 := by
  have h1 : e.base / 4096 * es ≤ f * es := by
    have := he.1
    exact Nat.mul_le_mul_right _ (by omega)
  have h2 : (f + 1) * es ≤ e.stop / 4096 * es := by
    have := he.2
    exact Nat.mul_le_mul_right _ (by omega)
  obtain ⟨h3, h4⟩ := h
  unfold dbRange
  omega

/-- So the pages of that record are visited. -/
theorem HoldsRecord.mem_dbSweep (h : HoldsRecord es f q) {m m' : PmmMap} (hwf : m'.Wf)
    (hsize : m'.size ≤ m.size + 2) (hf : Filled m'.live f) :
    q ∈ dbSweep es (snapshotEntries m m') := by
  obtain ⟨type, htype, hbad⟩ := hf
  obtain ⟨e, he, hin, rfl⟩ := hwf.tiled.typeAt_eq_some.mp htype
  obtain ⟨pre, post, hlive⟩ := List.append_of_mem he
  obtain ⟨rest, hrest⟩ := snapshotEntries_eq hsize
  obtain ⟨hle, hlt⟩ := h.of_filled hin
  have hranges : dbRanges es (snapshotEntries m m') =
      dbRanges es pre ++ dbRange es e :: dbRanges es (post ++ rest) := by
    rw [hrest, hlive, dbRanges, List.append_assoc, List.cons_append, List.filter_append,
      List.filter_cons_of_pos (by simpa using hbad), List.map_append, List.map_cons]
    rfl
  refine LunarPrekernel.mem_dbSweep.mpr (exists_behind hranges hle hlt fun y hy _ ↦ ?_)
  -- what comes before the entry begins before it
  obtain ⟨d, hd, rfl⟩ := List.mem_map.mp hy
  have hsep := hwf.tiled
  rw [hlive] at hsep
  have hde : d.stop ≤ e.base :=
    (tiled_append.mp hsep).2.2 d (List.mem_filter.mp hd).1 e List.mem_cons_self
  have hstop : d.stop = d.base + d.length := rfl
  have hmul : d.base / 4096 * es ≤ e.base / 4096 * es := Nat.mul_le_mul_right _ (by omega)
  unfold dbRange at hle ⊢
  dsimp only at hle ⊢
  omega

/-- Records that are not empty need a page. -/
theorem SnapshotTaken.dbSweep_ne_nil {m : PmmMap} {r : Nat × PmmMap} (h : SnapshotTaken m r)
    (hsize : r.2.size ≤ m.size + 2) (hes : 0 < es) : dbSweep es (snapshotEntries m r.2) ≠ [] := by
  obtain ⟨e, he, hbad, hlt⟩ := h.block
  refine sweep_ne_nil (x := dbRange es e) (List.mem_map.mpr ⟨e, List.mem_filter.mpr
    ⟨mem_snapshotEntries_of_live hsize he, by simpa using hbad⟩, rfl⟩) ?_
  have hmul : (e.base / 4096 + 1) * es ≤ e.stop / 4096 * es := Nat.mul_le_mul_right _ hlt
  rw [Nat.add_mul, Nat.one_mul] at hmul
  unfold dbRange
  dsimp only
  omega

/-- Empty records need none. -/
theorem dbSweep_zero : dbSweep 0 entries = [] := by
  refine List.eq_nil_iff_forall_not_mem.mpr fun q hq ↦ ?_
  obtain ⟨x, hx, -⟩ := mem_dbSweep.mp hq
  obtain ⟨hmem, hlt, -⟩ := behind_spec hx
  obtain ⟨e, -, rfl⟩ := List.mem_map.mp hmem
  simp [dbRange] at hlt

end Visited

/-! ## What is mapped -/

/-- The flat map after calls with the same flags. -/
theorem Mapper.foldl_paint_isSome {A P : Type} {src : FrameSource A} (m : Mapper src P)
    (a flags : Nat) (t : Option (Nat × P)) (cs : List MapCall) (h : ∀ c ∈ cs, c.flags = flags) :
    ((∃ c ∈ cs, c.Meets m.levels a) →
        ∃ g, cs.foldl (m.paint a) t = some (g, m.perm flags)) ∧
      ((∀ c ∈ cs, ¬ c.Meets m.levels a) → cs.foldl (m.paint a) t = t) := by
  induction cs using List.reverseRecOn with
  | nil => simp
  | append_singleton cs c ih =>
    obtain ⟨h1, h2⟩ := ih fun d hd ↦ h d (List.mem_append_left _ hd)
    rw [List.foldl_concat, Mapper.paint]
    split
    · rename_i hc
      refine ⟨fun _ ↦ ?_, fun hno ↦ absurd hc (hno c (by simp))⟩
      rw [h c (by simp)]
      exact ⟨_, rfl⟩
    · rename_i hc
      refine ⟨?_, fun hno ↦ h2 fun d hd ↦ hno d (by simp [hd])⟩
      rintro ⟨d, hd, hda⟩
      rcases List.mem_append.mp hd with hd | hd
      · exact h1 ⟨d, hd, hda⟩
      · obtain rfl := List.mem_singleton.mp hd
        exact absurd hda hc

section Main

variable {limit : Nat} {hlimit : limit ≤ 2 ^ 56} {P : Type}
  {m : Mapper (pmmFrames limit hlimit) P} {s : Machine PmmState} {U : Nat → Prop}
  {hhdmOffset size kernelBase es : Nat} {r : Nat × PmmMap}

/-- After the run an address of the database is mapped if its page was visited. -/
theorem PagedbInv.mapped {W : Nat → Prop} {mem : Memory} {start : PmmState} {base pages : Nat}
    {qs : List Nat} {t : Pagedb} (h : PagedbInv m W mem start t)
    (hw : m.DbWindow limit base pages)
    (hqs : ∀ q ∈ qs, q < pages) (hpages : t.pages.map Prod.fst = qs.map fun q ↦ base + 4096 * q)
    {a : Nat} (ha : base ≤ a) (ha' : a < base + 4096 * pages)
    (hempty : m.translate mem a = none) :
    (∃ g, m.translate t.machine.mem a = some (g, m.perm hhdmFlags)) ↔ (a - base) / 4096 ∈ qs := by
  obtain ⟨hin, hout⟩ := m.foldl_paint_isSome a hhdmFlags (m.translate mem a)
    (t.pages.map pageCall) fun c hc ↦ by
      obtain ⟨p, -, rfl⟩ := List.mem_map.mp hc
      rfl
  rw [← h.translate] at hin hout
  have hpage : ∀ p ∈ t.pages, ∃ q ∈ qs, p = (base + 4096 * q, p.2) := by
    intro p hp
    have hfst : p.1 ∈ qs.map fun q ↦ base + 4096 * q := hpages ▸ List.mem_map_of_mem hp
    obtain ⟨q, hq, hqp⟩ := List.mem_map.mp hfst
    exact ⟨q, hq, Prod.ext hqp.symm rfl⟩
  constructor
  · rintro ⟨g, hg⟩
    by_contra hno
    rw [hout, hempty] at hg
    · cases hg
    intro c hc hmeets
    obtain ⟨p, hp, rfl⟩ := List.mem_map.mp hc
    obtain ⟨q, hq, hpq⟩ := hpage p hp
    rw [hpq, hw.meets_iff (hqs q hq) ha ha'] at hmeets
    obtain rfl : (a - base) / 4096 = q := by omega
    exact hno hq
  · intro hq
    have hfst : base + 4096 * ((a - base) / 4096) ∈ t.pages.map Prod.fst := by
      rw [hpages]
      exact List.mem_map.mpr ⟨_, hq, rfl⟩
    obtain ⟨p, hp, hpa⟩ := List.mem_map.mp hfst
    refine hin ⟨pageCall p, List.mem_map_of_mem hp, ?_⟩
    rw [show p = (base + 4096 * ((a - base) / 4096), p.2) from Prod.ext hpa rfl,
      hw.meets_iff (hqs _ hq) ha ha']
    omega

/-- The record of a page that is there lies in the database. -/
theorem Backed.record_lt {l : List PmmMapEntry} {f a base : Nat} (h : Backed l (4096 * f))
    (hsize : ∀ e ∈ l, e.stop ≤ size) (ha : a < base + (f + 1) * es) :
    a < base + 4096 * dbPages size es := by
  obtain ⟨b, type, hb, htype, -⟩ := h
  obtain ⟨e, he, hin⟩ := typeAt_isSome.mp (by rw [htype]; nofun)
  have h1 := hsize e he
  have h2 := hin.2
  rw [show ptmPageGranularity = 4096 from rfl] at hb
  have hmul : (f + 1) * es ≤ (size + 4095) / 4096 * es := Nat.mul_le_mul_right _ (by omega)
  unfold dbPages
  omega

/-- **When all records are mapped.**  In an empty window below the kernel and with enough memory,
they are exactly if the physical memory map is clean. -/
theorem Mapper.pagedb_iff (hkeeps : m.Keeps) (h : m.Inv s U) (haligned : 4096 ∣ hhdmOffset)
    (hfit : DbFits hhdmOffset size es)
    (hkernel : hhdmOffset + size + 4096 + 4096 * dbPages size es ≤ kernelBase)
    (hw : m.DbWindow limit (hhdmOffset + size + 4096) (dbPages size es))
    (hsize : ∀ e ∈ s.frames.map.live, e.stop ≤ size)
    (hempty : ∀ a, hhdmOffset + size + 4096 ≤ a →
      a < hhdmOffset + size + 4096 + 4096 * dbPages size es → m.translate s.mem a = none)
    (hr : pmmAlloc s.frames.map (snapshotBytes s.frames.map / ptmPageGranularity) = .ok r)
    (hserved : PagedbServed m.call hhdmOffset size es s) :
    PagedbCovers m.translate (m.perm hhdmFlags) s.frames.map.live es
        (pagedbSetup m.call hhdmOffset size kernelBase es s) ↔
      PagedbClean size es s.frames.map r := by
  obtain ⟨C, hinv, hC, -⟩ := h.owns
  obtain ⟨hafter, htaken, hstart⟩ := PagedbInv.start
    (W := fun a ↦ hhdmOffset + size + 4096 ≤ a ∧
      a < hhdmOffset + size + 4096 + 4096 * dbPages size es) h hr fun a ha ↦ hempty a ha.1 ha.2
  have hentries := htaken.stop_le hafter.wf hsize
  have hlt : ∀ q ∈ dbSweep es (snapshotEntries s.frames.map r.2), q < dbPages size es :=
    fun q hq ↦ dbSweep_lt hentries hq
  have hfits : ∀ q ∈ dbSweep es (snapshotEntries s.frames.map r.2), ∀ g, g + 4096 ≤ limit →
      m.Fits (pageCall (hhdmOffset + size + 4096 + 4096 * q, g)) := by
    intro q hq g hg
    have := hlt q hq
    exact hw.fits _ g (by omega) (by omega) hg
  constructor
  · intro hc
    cases hx : pagedbSetup m.call hhdmOffset size kernelBase es s with
    | error e =>
      rw [hx] at hc
      exact hc.elim
    | ok x =>
      obtain ⟨-, hrange, hroom, r', hr', h0, y, hy, frames, -, hx'⟩ := h.pagedbSetup_ok hfit hsize hx
      obtain rfl : r = r' := Except.ok.inj (hr.symm.trans hr')
      obtain ⟨hinv', -, hals, hpages⟩ := hstart.run_ok hkeeps hfits hy
      refine ⟨h0, hroom, ?_, fun f hf _ q hq ↦ mem_dbSweep.mp ?_⟩
      · -- the first page is mapped, so it is aligned
        rcases Nat.eq_zero_or_pos es with hes | hes
        · exact Or.inl hes
        · obtain ⟨q, hq⟩ := List.exists_mem_of_ne_nil _ (htaken.dbSweep_ne_nil hafter.size_le hes)
          have := hals q hq
          omega
      · obtain ⟨hq1, hq2⟩ := hq
        have hes : (f + 1) * es = f * es + es := Nat.succ_mul f es
        have hpos : 0 < es := by
          by_contra hno
          obtain rfl : es = 0 := by omega
          rw [Nat.mul_zero] at hq2
          exact Nat.not_lt_zero _ hq2
        have hcovers := hc
        rw [hx] at hcovers
        have hmapped := hcovers f hf (hhdmOffset + size + 4096 + max (f * es) (q * 4096))
          (by rw [hrange]; omega) (by rw [hrange]; omega)
        rw [hx'] at hmapped
        have hin := hf.record_lt hsize
          (show hhdmOffset + size + 4096 + max (f * es) (q * 4096) <
            hhdmOffset + size + 4096 + (f + 1) * es by omega)
        rw [hinv'.mapped hw hlt hpages (by omega) hin (hempty _ (by omega) hin)] at hmapped
        have hpage : (hhdmOffset + size + 4096 + max (f * es) (q * 4096) -
            (hhdmOffset + size + 4096)) / 4096 = q := by omega
        rwa [hpage] at hmapped
  · intro hc
    have hsnap := hinv.createSnapshot_eq (fun a ha ↦ (hC a ha).trans_le hlimit) hr
    rw [if_neg hc.address, if_neg (Nat.not_lt.mpr hc.room)] at hsnap
    obtain ⟨herr, hdone⟩ := hserved _ hsnap
    have hloop := @pagedbLoop_eq m.call _ _ _ _ hfit rfl _ hentries ⟨⟨s.mem, s.frames.hand
      (snapshotBytes s.frames.map / ptmPageGranularity) .allocated r⟩, []⟩
    rw [pagedbSetup_eq hfit hkernel hsnap hentries]
    cases hy : pagedbRun m.call (hhdmOffset + size + 4096)
        (dbSweep es (snapshotEntries s.frames.map r.2)) ⟨⟨s.mem, s.frames.hand
          (snapshotBytes s.frames.map / ptmPageGranularity) .allocated r⟩, []⟩ with
    | error e =>
      rw [hy] at hloop
      refine absurd (hstart.run_error hkeeps (fun q hq ↦ ⟨?_, hfits q hq, ?_⟩) hy)
        (herr e (map_eq_error hloop))
      · rcases hc.aligned with rfl | hdvd
        · rw [dbSweep_zero] at hq
          exact absurd hq List.not_mem_nil
        · omega
      · have := hlt q hq
        omega
    | ok y =>
      rw [hy] at hloop
      obtain ⟨z, hz, rfl⟩ := map_eq_ok hloop
      obtain ⟨frames, hframes⟩ := hdone z hz
      obtain ⟨hinv', -, -, hpages⟩ := hstart.run_ok hkeeps hfits hy
      show PagedbCovers _ _ _ _ (Except.map _ (z.2.machine.frames.freeSnapshot _))
      rw [hframes]
      intro f hf a ha ha'
      have ha : hhdmOffset + size + 4096 + f * es ≤ a := ha
      have ha' : a < hhdmOffset + size + 4096 + (f + 1) * es := ha'
      have hin := hf.record_lt hsize ha'
      refine (hinv'.mapped hw hlt hpages (by omega) hin (hempty a (by omega) hin)).mpr ?_
      have hholds : HoldsRecord es f ((a - (hhdmOffset + size + 4096)) / 4096) :=
        ⟨by omega, by omega⟩
      by_cases hfilled : Filled s.frames.map.live f
      · obtain ⟨type, htype, hbad⟩ := hfilled
        obtain ⟨type', htype', hbad'⟩ := hafter.backed _ type htype hbad
        exact hholds.mem_dbSweep hafter.wf hafter.size_le ⟨type', htype', hbad'⟩
      · exact mem_dbSweep.mpr (hc.edges f hf hfilled _ hholds)

end Main

/-! ## The two architectures -/

/-- Where `pagedb_setup` puts the database, and that there is room below the kernel: `hhdm_offset` is
in the upper half of the address space of tables with `levels` levels. -/
structure PagedbLayout (levels hhdmOffset size kernelBase es : Nat) : Prop where
  aligned : 4096 ∣ hhdmOffset
  upper : 2 ^ 64 - 2 ^ (11 + 9 * levels) ≤ hhdmOffset
  fits : DbFits hhdmOffset size es
  below : hhdmOffset + size + 4096 + 4096 * dbPages size es ≤ kernelBase

/-- What holds when `pagedb_setup` is called on x86_64: nothing is mapped yet where the database
goes, and there is enough memory. -/
structure X86.PagedbStart (limit : Nat) (hlimit : limit ≤ 2 ^ 56)
    (hhdmOffset size kernelBase es : Nat) (ptm : X86.Ptm) (s : Machine PmmState) : Prop where
  prepared : X86.Prepared limit hlimit ptm s
  layout : PagedbLayout ptm.levelCount hhdmOffset size kernelBase es
  unmapped : ∀ a, hhdmOffset + size + 4096 ≤ a →
    a < hhdmOffset + size + 4096 + 4096 * dbPages size es → ptm.translate s.mem a = none
  served : PagedbServed (ptm.call (pmmFrames limit hlimit)) hhdmOffset size es s

/-- What holds when `pagedb_setup` is called on riscv64. -/
structure Riscv.PagedbStart (limit : Nat) (hlimit : limit ≤ 2 ^ 56)
    (hhdmOffset size kernelBase es : Nat) (ptm : Riscv.Ptm) (s : Machine PmmState) : Prop where
  prepared : Riscv.Prepared limit hlimit ptm s
  layout : PagedbLayout ptm.levelCount hhdmOffset size kernelBase es
  unmapped : ∀ a, hhdmOffset + size + 4096 ≤ a →
    a < hhdmOffset + size + 4096 + 4096 * dbPages size es → ptm.translate s.mem a = none
  served : PagedbServed (ptm.call (pmmFrames limit hlimit)) hhdmOffset size es s

theorem pagedbCovers_congr {P : Type} {translate translate' : Memory → Nat → Option (Nat × P)}
    {perm : P} {l : List PmmMapEntry} {es base stop : Nat}
    {r : Except Stop ((Nat × Nat) × Pagedb)} (hr : ∀ x, r = .ok x → x.1.1 = base)
    (hstop : ∀ f, Backed l (4096 * f) → ∀ a, a < base + (f + 1) * es → a < stop)
    (h : ∀ mem a, base ≤ a → a < stop → translate mem a = translate' mem a) :
    PagedbCovers translate perm l es r ↔ PagedbCovers translate' perm l es r := by
  cases r with
  | error e => rfl
  | ok x =>
    obtain rfl := hr x rfl
    refine forall_congr' fun f ↦ forall_congr' fun hf ↦ forall_congr' fun a ↦
      forall_congr' fun ha ↦ forall_congr' fun ha' ↦ ?_
    rw [h _ a ((Nat.le_add_right _ _).trans ha) (hstop f hf a ha')]

section Arch

variable {limit : Nat} {hlimit : limit ≤ 2 ^ 56} {hhdmOffset kernelBase es initial : Nat}
  {s : Machine PmmState} {r : Nat × PmmMap}

theorem X86.PagedbStart.iff {ptm : X86.Ptm}
    (h : X86.PagedbStart limit hlimit hhdmOffset (hhdmSize initial s.frames.map) kernelBase es ptm s)
    (hr : pmmAlloc s.frames.map (snapshotBytes s.frames.map / ptmPageGranularity) = .ok r) :
    PagedbCovers ptm.translate (ptm.perm hhdmFlags) s.frames.map.live es
        (pagedbSetup (ptm.call (pmmFrames limit hlimit)) hhdmOffset (hhdmSize initial s.frames.map)
          kernelBase es s) ↔
      PagedbClean (hhdmSize initial s.frames.map) es s.frames.map r := by
  obtain ⟨U, hinv⟩ := h.prepared.inv
  obtain ⟨C, hown, -⟩ := hinv.owns
  have hsize := @le_hhdmSize initial _ hown.wf.bound
  have hkeeps := @X86.mapper_keeps _ (pmmFrames limit hlimit) h.prepared.limit_le ptm h.prepared.levels
  have hwin := h.layout.fits.window
  have hup := h.layout.upper
  -- all addresses of the database are canonical
  have hcan : ∀ mem a, hhdmOffset + hhdmSize initial s.frames.map + 4096 ≤ a →
      a < hhdmOffset + hhdmSize initial s.frames.map + 4096 +
        4096 * dbPages (hhdmSize initial s.frames.map) es →
      ptm.translate mem a = PageTable.translate X86.format mem ptm.levelCount ptm.tplt a := by
    intro mem a ha ha'
    have hc : X86.Canonical ptm.levelCount a := Or.inr ⟨by omega, by omega⟩
    rw [X86.Ptm.translate, if_pos hc]
  have hiff := Mapper.pagedb_iff hkeeps hinv h.layout.aligned h.layout.fits h.layout.below
    (h.layout.fits.x86_window h.prepared.limit_le h.prepared.levels h.layout.upper) hsize
    (fun a ha ha' ↦ (hcan s.mem a ha ha').symm.trans (h.unmapped a ha ha')) hr h.served
  refine (pagedbCovers_congr (fun x hx ↦ ?_) (fun f hf a ha ↦ hf.record_lt hsize ha) hcan).trans hiff
  obtain ⟨-, hrange, -⟩ := hinv.pagedbSetup_ok h.layout.fits hsize hx
  rw [hrange]

theorem Riscv.PagedbStart.iff {ptm : Riscv.Ptm}
    (h : Riscv.PagedbStart limit hlimit hhdmOffset (hhdmSize initial s.frames.map) kernelBase es ptm
      s)
    (hr : pmmAlloc s.frames.map (snapshotBytes s.frames.map / ptmPageGranularity) = .ok r) :
    PagedbCovers ptm.translate (Riscv.permOf hhdmFlags) s.frames.map.live es
        (pagedbSetup (ptm.call (pmmFrames limit hlimit)) hhdmOffset (hhdmSize initial s.frames.map)
          kernelBase es s) ↔
      PagedbClean (hhdmSize initial s.frames.map) es s.frames.map r := by
  obtain ⟨U, hinv⟩ := h.prepared.inv
  obtain ⟨C, hown, -⟩ := hinv.owns
  have hsize := @le_hhdmSize initial _ hown.wf.bound
  have hkeeps := @Riscv.mapper_keeps _ (pmmFrames limit hlimit) hlimit ptm h.prepared.levels
  have hw := @DbFits.riscv_window limit hlimit _ _ _ _ h.layout.fits h.prepared.levels h.layout.upper
  have hiff := Mapper.pagedb_iff hkeeps hinv h.layout.aligned h.layout.fits h.layout.below hw hsize
    h.unmapped hr h.served
  exact hiff

/-- **The page database of either architecture** covers the records of all memory exactly if the
physical memory map is clean. -/
theorem pagedb_setup
    (hr : pmmAlloc s.frames.map (snapshotBytes s.frames.map / ptmPageGranularity) = .ok r) :
    (∀ ptm : X86.Ptm, X86.PagedbStart limit hlimit hhdmOffset (hhdmSize initial s.frames.map)
        kernelBase es ptm s →
      (PagedbCovers ptm.translate (ptm.perm hhdmFlags) s.frames.map.live es
          (pagedbSetup (ptm.call (pmmFrames limit hlimit)) hhdmOffset
            (hhdmSize initial s.frames.map) kernelBase es s) ↔
        PagedbClean (hhdmSize initial s.frames.map) es s.frames.map r)) ∧
    ∀ ptm : Riscv.Ptm, Riscv.PagedbStart limit hlimit hhdmOffset (hhdmSize initial s.frames.map)
        kernelBase es ptm s →
      (PagedbCovers ptm.translate (Riscv.permOf hhdmFlags) s.frames.map.live es
          (pagedbSetup (ptm.call (pmmFrames limit hlimit)) hhdmOffset
            (hhdmSize initial s.frames.map) kernelBase es s) ↔
        PagedbClean (hhdmSize initial s.frames.map) es s.frames.map r) :=
  ⟨fun _ h ↦ h.iff hr, fun _ h ↦ h.iff hr⟩

/-! ## Runs right after `ptm_init` -/

/-- If the function returns, the allocator has not stopped it. -/
theorem PagedbServed.of_ok {ptmMap : Machine PmmState → MapCall → Except Stop (Machine PmmState)}
    {size : Nat} (hfit : DbFits hhdmOffset size es) {x : (Nat × Nat) × Pagedb}
    (hx : pagedbSetup ptmMap hhdmOffset size kernelBase es s = .ok x) :
    (∃ r, pmmAlloc s.frames.map (snapshotBytes s.frames.map / ptmPageGranularity) = .ok r) ∧
      PagedbServed ptmMap hhdmOffset size es s := by
  obtain ⟨-, hbase, -⟩ := pagedb_layout hfit
  rw [pagedbSetup, hbase] at hx
  split at hx
  · cases hx
  obtain ⟨z, hz, hx⟩ := bind_eq_ok hx
  obtain ⟨y, hy, hx⟩ := bind_eq_ok hx
  obtain ⟨frames, hframes, -⟩ := map_eq_ok hx
  obtain ⟨w, hw, -⟩ := map_eq_ok hz
  obtain ⟨r, hr, -⟩ := bind_eq_ok hw
  refine ⟨⟨r, hr⟩, fun z' hz' ↦ ?_⟩
  obtain rfl : z = z' := Except.ok.inj (hz.symm.trans hz')
  refine ⟨fun e he ↦ ?_, fun y' hy' ↦ ?_⟩
  · cases hy.symm.trans he
  · cases hy.symm.trans hy'
    exact ⟨frames, hframes⟩

/-- Nor has it if the loop stops with a panic that prints something. -/
theorem PagedbServed.of_stop {ptmMap : Machine PmmState → MapCall → Except Stop (Machine PmmState)}
    {size : Nat} {z : PmmMapSnapshot × PmmState} (hz : s.frames.createSnapshot = .ok z)
    {fmt : String} {n : Nat} {args : List Nat}
    (he : pagedbLoop ptmMap (hhdmOffset + size + 4096) es z.1.entries ⟨⟨s.mem, z.2⟩, []⟩ =
      .error (.panic fmt (n :: args))) : PagedbServed ptmMap hhdmOffset size es s := by
  intro z' hz'
  obtain rfl : z = z' := Except.ok.inj (hz.symm.trans hz')
  refine ⟨fun e' he' hfail ↦ ?_, fun y hy ↦ ?_⟩
  · obtain rfl := Except.error.inj (he.symm.trans he')
    rcases hfail with ⟨fmt', hfmt⟩ | hfmt <;> cases hfmt
  · cases he.symm.trans hy

/-- Nothing is mapped after `ptm_init`. -/
theorem X86.PagedbStart.of_init {size : Nat} {s₀ : Machine PmmState} {U : Nat → Prop}
    {ptm : X86.Ptm} {la57 cr4 nx pdpe1gb : Bool} (hs : PmmOwns limit s₀.frames U)
    (hi : X86.ptmInit (pmmFrames limit hlimit) la57 cr4 nx pdpe1gb s₀ = .ok (ptm, s))
    (hlimit' : limit ≤ 2 ^ 51)
    (hlayout : PagedbLayout ptm.levelCount hhdmOffset size kernelBase es)
    (hserved : PagedbServed (ptm.call (pmmFrames limit hlimit)) hhdmOffset size es s) :
    X86.PagedbStart limit hlimit hhdmOffset size kernelBase es ptm s where
  prepared := .of_init hs hi hlimit'
  layout := hlayout
  unmapped a _ _ := by
    rw [X86.Ptm.translate]
    split
    · exact (X86.ptmInit_inv (show (pmmFrames limit hlimit).limit ≤ 2 ^ 51 from hlimit') hs hi).2 _
    · rfl
  served := hserved

theorem Riscv.PagedbStart.of_init {size : Nat} {s₀ : Machine PmmState} {U : Nat → Prop}
    {ptm : Riscv.Ptm} {acpiLevels dtbLevels : Nat} (hs : PmmOwns limit s₀.frames U)
    (hi : Riscv.ptmInit (pmmFrames limit hlimit) acpiLevels dtbLevels s₀ = .ok (ptm, s))
    (hlevels : 3 ≤ ptm.levelCount ∧ ptm.levelCount ≤ 5)
    (hlayout : PagedbLayout ptm.levelCount hhdmOffset size kernelBase es)
    (hserved : PagedbServed (ptm.call (pmmFrames limit hlimit)) hhdmOffset size es s) :
    Riscv.PagedbStart limit hlimit hhdmOffset size kernelBase es ptm s where
  prepared := .of_init hs hi hlevels
  layout := hlayout
  unmapped _ _ _ :=
    (Riscv.ptmInit_inv (show (pmmFrames limit hlimit).limit ≤ 2 ^ 56 from hlimit) hs hi
      hlevels).2 _
  served := hserved

end Arch

/-- Three regions of whole pages, on either architecture. -/
theorem pagedb_setup_three_regions : ∃ (m : PmmMap) (s t : Machine PmmState) (ptm : X86.Ptm)
    (ptm' : Riscv.Ptm) (r r' : Nat × PmmMap),
    addAll .empty [⟨0x10000, 0x20000, .free⟩, ⟨0x100000, 0x1000, .acpiReclaimable⟩,
      ⟨0x200000, 0x1000, .reserved⟩] = .ok m ∧
    X86.ptmInit (pmmFrames (2 ^ 40) limit_le) false false true true ⟨fun _ ↦ 0, ⟨m, []⟩⟩ =
      .ok (ptm, s) ∧
    Riscv.ptmInit (pmmFrames (2 ^ 40) limit_le) 0 4 ⟨fun _ ↦ 0, ⟨m, []⟩⟩ = .ok (ptm', t) ∧
    (PagedbCovers ptm.translate (ptm.perm hhdmFlags) s.frames.map.live 64
        (pagedbSetup (ptm.call (pmmFrames (2 ^ 40) limit_le)) 0xffff800000000000
          (hhdmSize 0 s.frames.map) 0xffffffff80000000 64 s) ↔
      PagedbClean (hhdmSize 0 s.frames.map) 64 s.frames.map r) ∧
    (PagedbCovers ptm'.translate (Riscv.permOf hhdmFlags) t.frames.map.live 64
        (pagedbSetup (ptm'.call (pmmFrames (2 ^ 40) limit_le)) 0xffff800000000000
          (hhdmSize 0 t.frames.map) 0xffffffff80000000 64 t) ↔
      PagedbClean (hhdmSize 0 t.frames.map) 64 t.frames.map r') := by
  have h : ((addAll .empty [⟨0x10000, 0x20000, .free⟩, ⟨0x100000, 0x1000, .acpiReclaimable⟩,
      ⟨0x200000, 0x1000, .reserved⟩]).bind fun m ↦
      (X86.ptmInit (pmmFrames (2 ^ 40) limit_le) false false true true
        ⟨fun _ ↦ 0, ⟨m, []⟩⟩).bind fun a ↦
      (Riscv.ptmInit (pmmFrames (2 ^ 40) limit_le) 0 4 ⟨fun _ ↦ 0, ⟨m, []⟩⟩).bind fun b ↦
      (pagedbSetup (a.1.call (pmmFrames (2 ^ 40) limit_le)) 0xffff800000000000
        (hhdmSize 0 a.2.frames.map) 0xffffffff80000000 64 a.2).bind fun _ ↦
      (pagedbSetup (b.1.call (pmmFrames (2 ^ 40) limit_le)) 0xffff800000000000
        (hhdmSize 0 b.2.frames.map) 0xffffffff80000000 64 b.2).map fun _ ↦
          (hhdmSize 0 a.2.frames.map, hhdmSize 0 b.2.frames.map, a.1.levelCount,
            b.1.levelCount)).toOption = some (0x201000, 0x201000, 4, 4) := by decide +kernel
  obtain ⟨m, hm, h⟩ := bind_eq_ok (toOption_eq_some h)
  obtain ⟨⟨ptm, s⟩, hi, h⟩ := bind_eq_ok h
  obtain ⟨⟨ptm', t⟩, hi', h⟩ := bind_eq_ok h
  obtain ⟨x, hx, h⟩ := bind_eq_ok h
  obtain ⟨x', hx', h⟩ := map_eq_ok h
  simp only [Prod.mk.injEq] at h
  obtain ⟨hsize, hsize', hlevel, hlevel'⟩ := h
  have hown : PmmOwns (2 ^ 40) ⟨m, []⟩ fun _ ↦ False :=
    PmmOwns.start ⟨by decide, by decide, by decide⟩ hm (by decide)
  have hlayout : PagedbLayout 4 0xffff800000000000 0x201000 0xffffffff80000000 64 :=
    ⟨by decide, by decide, ⟨by decide, by decide⟩, by decide⟩
  have hlay : PagedbLayout ptm.levelCount 0xffff800000000000 (hhdmSize 0 s.frames.map)
      0xffffffff80000000 64 := by
    rwa [hsize, hlevel]
  have hlay' : PagedbLayout ptm'.levelCount 0xffff800000000000 (hhdmSize 0 t.frames.map)
      0xffffffff80000000 64 := by
    rwa [hsize', hlevel']
  obtain ⟨⟨r, hr⟩, hserved⟩ := PagedbServed.of_ok hlay.fits hx
  obtain ⟨⟨r', hr'⟩, hserved'⟩ := PagedbServed.of_ok hlay'.fits hx'
  refine ⟨m, s, t, ptm, ptm', r, r', hm, hi, hi', (pagedb_setup hr).1 ptm ?_,
    (pagedb_setup hr').2 ptm' ?_⟩
  · exact X86.PagedbStart.of_init hown hi (by decide) hlay hserved
  · exact Riscv.PagedbStart.of_init hown hi' (by omega) hlay' hserved'

/-- **Memory that ends within a page.**  The database begins one page behind it, and is as little
aligned. -/
theorem pagedb_setup_unaligned : ∃ (m : PmmMap) (s : Machine PmmState) (ptm : X86.Ptm),
    addAll .empty [⟨0x10000, 0x20800, .free⟩] = .ok m ∧
    X86.ptmInit (pmmFrames (2 ^ 40) limit_le) false false true true ⟨fun _ ↦ 0, ⟨m, []⟩⟩ =
      .ok (ptm, s) ∧
    X86.PagedbStart (2 ^ 40) limit_le 0xffff800000000000 (hhdmSize 0 s.frames.map)
      0xffffffff80000000 32 ptm s ∧
    pagedbSetup (ptm.call (pmmFrames (2 ^ 40) limit_le)) 0xffff800000000000
        (hhdmSize 0 s.frames.map) 0xffffffff80000000 32 s =
      .error (.panic "unaligned mapping (%lx -> %lx / %lx)"
        [0x12000, 0xffff800000031800, 0x1000]) ∧
    ¬ PagedbCovers ptm.translate (ptm.perm hhdmFlags) s.frames.map.live 32
      (pagedbSetup (ptm.call (pmmFrames (2 ^ 40) limit_le)) 0xffff800000000000
        (hhdmSize 0 s.frames.map) 0xffffffff80000000 32 s) := by
  have h : ((addAll .empty [⟨0x10000, 0x20800, .free⟩]).bind fun m ↦
      (X86.ptmInit (pmmFrames (2 ^ 40) limit_le) false false true true
        ⟨fun _ ↦ 0, ⟨m, []⟩⟩).bind fun a ↦
      a.2.frames.createSnapshot.map fun x ↦
        (stopOf (pagedbLoop (a.1.call (pmmFrames (2 ^ 40) limit_le))
            (0xffff800000000000 + 0x30800 + 4096) 32 x.1.entries ⟨⟨a.2.mem, x.2⟩, []⟩),
          stopOf (pagedbSetup (a.1.call (pmmFrames (2 ^ 40) limit_le)) 0xffff800000000000
            (hhdmSize 0 a.2.frames.map) 0xffffffff80000000 32 a.2),
          hhdmSize 0 a.2.frames.map, a.1.levelCount)).toOption =
      some (some (.panic "unaligned mapping (%lx -> %lx / %lx)"
          [0x12000, 0xffff800000031800, 0x1000]),
        some (.panic "unaligned mapping (%lx -> %lx / %lx)"
          [0x12000, 0xffff800000031800, 0x1000]), 0x30800, 4) := by decide +kernel
  obtain ⟨m, hm, h⟩ := bind_eq_ok (toOption_eq_some h)
  obtain ⟨⟨ptm, s⟩, hi, h⟩ := bind_eq_ok h
  obtain ⟨z, hz, h⟩ := map_eq_ok h
  simp only [Prod.mk.injEq] at h
  obtain ⟨hloop, hstop, hsize, hlevel⟩ := h
  have hown : PmmOwns (2 ^ 40) ⟨m, []⟩ fun _ ↦ False :=
    PmmOwns.start ⟨by decide, by decide, by decide⟩ hm (by decide)
  have hlayout : PagedbLayout 4 0xffff800000000000 0x30800 0xffffffff80000000 32 :=
    ⟨by decide, by decide, ⟨by decide, by decide⟩, by decide⟩
  have herror := stopOf_eq_some hstop
  refine ⟨m, s, ptm, hm, hi, ?_, herror, fun hc ↦ ?_⟩
  · refine X86.PagedbStart.of_init hown hi (by decide) (by rwa [hsize, hlevel]) ?_
    rw [hsize]
    exact PagedbServed.of_stop hz (stopOf_eq_some hloop)
  · rw [herror] at hc
    exact hc

end LunarPrekernel
