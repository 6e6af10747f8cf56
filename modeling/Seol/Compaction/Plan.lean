import Seol.Levels
import Seol.Options

/-!
# Planning a compaction

Reference: `compaction.go`. The planner takes the last table of the first level in use, closes it
under overlap inside that level, and adds the overlapping tables of level 1. The closure loop is a
fixed point of one pass over the level: `Selection.Closed` is what it guarantees.
-/

namespace Seol

open Common

/-- The state of the loop in `selectL0CompactionSource`: selected names and the range they span. -/
structure Selection where
  names : List Bytes
  smallest : Bytes
  largest : Bytes

/-- One table of a pass: select it if it meets the range, and widen the range. -/
def Selection.visit (s : Selection) (t : TableMeta) : Selection :=
  if t.filename ∈ s.names then s
  else if t.largest < s.smallest ∨ s.largest < t.smallest then s
  else
    { names := t.filename :: s.names
      smallest := if t.smallest < s.smallest then t.smallest else s.smallest
      largest := if s.largest < t.largest then t.largest else s.largest }

/-- One pass of the loop. -/
def Selection.pass (l0 : List TableMeta) (s : Selection) : Selection := l0.foldl Selection.visit s

/-- Passes until one selects nothing. Every other pass selects a table, so a pass for each table and
one more suffice. -/
def Selection.close (l0 : List TableMeta) : ℕ → Selection → Selection
  | 0, s => s
  | fuel + 1, s =>
    if (s.pass l0).names.length = s.names.length then s.pass l0
    else Selection.close l0 fuel (s.pass l0)

/-- The selection `selectL0CompactionSource` starts from and ends with. -/
def selectionFrom (l0 : List TableMeta) (oldest : TableMeta) : Selection :=
  Selection.close l0 (l0.length + 1) ⟨[oldest.filename], oldest.smallest, oldest.largest⟩

/-- `selectL0CompactionSource`. -/
def selectL0CompactionSource (l0 : List TableMeta) : List TableMeta :=
  match l0.getLast? with
  | none => []
  | some oldest => l0.filter fun t => t.filename ∈ (selectionFrom l0 oldest).names

/-- `tableMetaBounds`. -/
def tableMetaBounds : List TableMeta → Bytes × Bytes
  | [] => ([], [])
  | t :: ts => ts.foldl (fun b t =>
      (if t.smallest < b.1 then t.smallest else b.1, if b.2 < t.largest then t.largest else b.2))
      (t.smallest, t.largest)

/-- `overlappingTableMeta`. -/
def overlappingTableMeta (levels : List (ℕ × List TableMeta)) (level : ℕ)
    (smallest largest : Bytes) : List TableMeta :=
  match levels.find? fun l => l.1 = level with
  | none => []
  | some l => l.2.filter fun t => ¬ (t.largest < smallest ∨ largest < t.smallest)

/-- `maxTableLevel`. -/
def maxTableLevel (levels : List (ℕ × List TableMeta)) : ℕ := (levels.getLast?.map Prod.fst).getD 0

/-- `compactionPlan`. -/
structure CompactionPlan where
  sourceLevel : ℕ
  targetLevel : ℕ
  sourceTables : List TableMeta
  targetTables : List TableMeta
  targetOutputBytes : Int64
  dropTombstones : Bool
deriving DecidableEq

/-- `compactionOutputBytes`. -/
def compactionOutputBytes (opts : Options) : Int64 :=
  if defaultMemtableMaxBytes < opts.memtableMaxBytes then opts.memtableMaxBytes
  else defaultMemtableMaxBytes

/-- `leveledCompactionPlanner.Plan` on the tables of the manifest. The source is taken from the first
level in use, whatever its number. -/
def plan (tables : List TableMeta) (opts : Options) : Option CompactionPlan :=
  let levels := groupTableMetaByLevel tables
  match levels with
  | [] => none
  | first :: _ =>
    if first.2.isEmpty then none
    else
      let sourceTables := selectL0CompactionSource first.2
      let bounds := tableMetaBounds sourceTables
      some
        { sourceLevel := 0
          targetLevel := 1
          sourceTables := sourceTables
          targetTables := overlappingTableMeta levels 1 bounds.1 bounds.2
          targetOutputBytes := compactionOutputBytes opts
          dropTombstones := maxTableLevel levels ≤ 1 }

/-- `planInputTables`. -/
def CompactionPlan.inputs (p : CompactionPlan) : List TableMeta := p.sourceTables ++ p.targetTables

/-! ## The closure under overlap -/

section Selection

variable {l0 : List TableMeta}

/-- The selected tables lie inside the range. -/
def Selection.Covers (l0 : List TableMeta) (s : Selection) : Prop :=
  ∀ t ∈ l0, t.filename ∈ s.names → s.smallest ≤ t.smallest ∧ t.largest ≤ s.largest

/-- No other table meets the range. -/
def Selection.Closed (l0 : List TableMeta) (s : Selection) : Prop :=
  ∀ t ∈ l0, t.filename ∉ s.names → t.largest < s.smallest ∨ s.largest < t.smallest

/-- What a visit can do: nothing, because the table is selected or off the range, or select it and
widen the range to cover it. -/
theorem Selection.visit_cases (s : Selection) (t : TableMeta) :
    (s.visit t = s ∧ (t.filename ∉ s.names → t.largest < s.smallest ∨ s.largest < t.smallest)) ∨
    (t.filename ∉ s.names ∧
      s.visit t = ⟨t.filename :: s.names, min t.smallest s.smallest, max s.largest t.largest⟩) := by
  by_cases hmem : t.filename ∈ s.names
  · exact Or.inl ⟨by rw [visit, if_pos hmem], fun hne => absurd hmem hne⟩
  · by_cases hout : t.largest < s.smallest ∨ s.largest < t.smallest
    · exact Or.inl ⟨by rw [visit, if_neg hmem, if_pos hout], fun _ => hout⟩
    · refine Or.inr ⟨hmem, ?_⟩
      rw [visit, if_neg hmem, if_neg hout]
      -- the two `if` of the source are a minimum and a maximum
      congr 1
      · split_ifs with hlt
        · exact (min_eq_left hlt.le).symm
        · exact (min_eq_right (not_lt.mp hlt)).symm
      · split_ifs with hlt
        · exact (max_eq_right hlt.le).symm
        · exact (max_eq_left (not_lt.mp hlt)).symm

/-- With distinct names a visit keeps the selected tables inside the range. -/
theorem Selection.Covers.visit {s : Selection} (h : s.Covers l0)
    (hdistinct : ∀ a ∈ l0, ∀ b ∈ l0, a.filename = b.filename → a = b) {t : TableMeta}
    (ht : t ∈ l0) : (s.visit t).Covers l0 := by
  intro u hu hmem
  rcases s.visit_cases t with ⟨hsame, -⟩ | ⟨-, hsel⟩
  · rw [hsame] at hmem ⊢
    exact h u hu hmem
  · rw [hsel] at hmem ⊢
    rcases List.mem_cons.mp hmem with heq | hmem
    · obtain rfl := hdistinct u hu t ht heq
      exact ⟨min_le_left _ _, le_max_right _ _⟩
    · obtain ⟨hlo, hhi⟩ := h u hu hmem
      exact ⟨(min_le_right _ _).trans hlo, hhi.trans (le_max_left _ _)⟩

/-- What every visit of a table of the level keeps, the passes and the loop keep. -/
theorem Selection.close_induction {P : Selection → Prop}
    (hvisit : ∀ s, ∀ t ∈ l0, P s → P (s.visit t)) {s : Selection} (fuel : ℕ) (hs : P s) :
    P (s.close l0 fuel) := by
  -- a pass is the fold of the visits, and the loop a sequence of passes
  have hpass : ∀ (l : List TableMeta) (s : Selection), (∀ t ∈ l, t ∈ l0) → P s →
      P (l.foldl Selection.visit s) := by
    intro l
    induction l with
    | nil => exact fun s _ hs => hs
    | cons t l ih =>
      intro s hl hs
      exact ih _ (fun u hu => hl u (List.mem_cons_of_mem _ hu))
        (hvisit s t (hl t List.mem_cons_self) hs)
  induction fuel generalizing s with
  | zero => exact hs
  | succ fuel ih =>
    have hnext : P (s.pass l0) := hpass l0 s (fun t ht => ht) hs
    simp only [close]
    split_ifs
    · exact hnext
    · exact ih hnext

theorem Selection.length_visit (s : Selection) (t : TableMeta) :
    s.names.length ≤ (s.visit t).names.length := by
  rcases s.visit_cases t with ⟨h, -⟩ | ⟨-, h⟩ <;> simp [h]

/-- A pass that selects nothing leaves the range as it was and meets no other table. -/
theorem Selection.pass_stable {s : Selection} (l : List TableMeta)
    (h : (l.foldl Selection.visit s).names.length = s.names.length) :
    l.foldl Selection.visit s = s ∧ s.Closed l := by
  induction l generalizing s with
  | nil => exact ⟨rfl, fun t ht => by simp at ht⟩
  | cons t l ih =>
    have hmono : ∀ (l : List TableMeta) (s : Selection),
        s.names.length ≤ (l.foldl Selection.visit s).names.length := by
      intro l
      induction l with
      | nil => exact fun s => le_rfl
      | cons u l ih => exact fun s => (s.length_visit u).trans (ih _)
    rw [List.foldl_cons] at h
    have hstep := s.length_visit t
    have hrest := hmono l (s.visit t)
    have hsame : s.visit t = s ∧ (t.filename ∉ s.names → t.largest < s.smallest ∨
        s.largest < t.smallest) := by
      rcases s.visit_cases t with hsame | ⟨-, hsel⟩
      · exact hsame
      · simp only [hsel, List.length_cons] at h hrest
        omega
    rw [hsame.1] at h
    obtain ⟨hfold, hclosed⟩ := ih h
    refine ⟨by rw [List.foldl_cons, hsame.1, hfold], fun u hu => ?_⟩
    rcases List.mem_cons.mp hu with rfl | hu
    · exact hsame.2
    · exact hclosed u hu

/-- Names that are distinct and name tables of the level; each selected table counts once. -/
def Selection.Names (l0 : List TableMeta) (s : Selection) : Prop :=
  s.names.Nodup ∧ s.names ⊆ l0.map TableMeta.filename

theorem Selection.Names.length_le {s : Selection} (h : s.Names l0) :
    s.names.length ≤ l0.length := by
  have hle := (List.Nodup.subperm h.1 h.2).length_le
  rwa [List.length_map] at hle

theorem Selection.Names.visit {s : Selection} (h : s.Names l0) {t : TableMeta} (ht : t ∈ l0) :
    (s.visit t).Names l0 := by
  rcases s.visit_cases t with ⟨hsame, -⟩ | ⟨hnew, hsel⟩
  · rw [hsame]
    exact h
  · rw [Selection.Names, hsel]
    exact ⟨List.nodup_cons.mpr ⟨hnew, h.1⟩, List.cons_subset.mpr ⟨List.mem_map_of_mem ht, h.2⟩⟩

/-- A pass that does not stop the loop selects at least one more table. -/
theorem Selection.Names.pass {s : Selection} (h : s.Names l0) :
    (s.pass l0).Names l0 ∧ s.names.length ≤ (s.pass l0).names.length := by
  -- along one pass, with the level's tables visited so far selected or not
  have hfold : ∀ (l : List TableMeta) (s : Selection), (∀ t ∈ l, t ∈ l0) → s.Names l0 →
      (l.foldl Selection.visit s).Names l0 ∧
        s.names.length ≤ (l.foldl Selection.visit s).names.length := by
    intro l
    induction l with
    | nil => exact fun s _ hs => ⟨hs, le_rfl⟩
    | cons t l ih =>
      intro s hl hs
      obtain ⟨hnames, hle⟩ := ih (s.visit t) (fun u hu => hl u (List.mem_cons_of_mem _ hu))
        (hs.visit (hl t List.mem_cons_self))
      exact ⟨hnames, (s.length_visit t).trans hle⟩
  exact hfold l0 s (fun t ht => ht) h

/-- The runs of the loop `for changed`, which passes again as long as a pass selects a table. -/
inductive Selection.Loops (l0 : List TableMeta) : Selection → Selection → Prop
  | stop {s : Selection} (hsame : (s.pass l0).names.length = s.names.length) :
      Loops l0 s (s.pass l0)
  | again {s r : Selection} (hchanged : (s.pass l0).names.length ≠ s.names.length)
      (hrest : Loops l0 (s.pass l0) r) : Loops l0 s r

/-- **The loop terminates**: passes for the tables not yet selected and one more are enough. -/
theorem Selection.close_loops {s : Selection} (fuel : ℕ) (hs : s.Names l0)
    (hfuel : l0.length < fuel + s.names.length) : Selection.Loops l0 s (s.close l0 fuel) := by
  induction fuel generalizing s with
  | zero =>
    have := hs.length_le
    omega
  | succ fuel ih =>
    simp only [close]
    split_ifs with hstop
    · exact .stop hstop
    · obtain ⟨hnames, hle⟩ := hs.pass
      exact .again hstop (ih hnames (by omega))

/-- **The loop ends closed**: no unselected table meets the range. -/
theorem Selection.Loops.closed {s r : Selection} (h : Selection.Loops l0 s r) : r.Closed l0 := by
  induction h with
  | @stop s hsame =>
    obtain ⟨heq, hclosed⟩ := Selection.pass_stable l0 hsame
    rw [Selection.pass, heq]
    exact hclosed
  | again _ _ ih => exact ih

/-- The loop of `selectL0CompactionSource` from its start. -/
theorem selectionFrom_loops {oldest : TableMeta} (holdest : oldest ∈ l0) :
    Selection.Loops l0 ⟨[oldest.filename], oldest.smallest, oldest.largest⟩
      (selectionFrom l0 oldest) := by
  refine Selection.close_loops _ ⟨by simp, ?_⟩ (by simp)
  simpa using ⟨oldest, holdest, rfl⟩

end Selection

/-! ## The bounds of the sources -/

/-- The bounds cover every table they were taken over. -/
theorem tableMetaBounds_covers {ts : List TableMeta} {t : TableMeta} (ht : t ∈ ts) :
    (tableMetaBounds ts).1 ≤ t.smallest ∧ t.largest ≤ (tableMetaBounds ts).2 := by
  -- the fold only widens, from bounds `b` that are given
  have hfold : ∀ (ts : List TableMeta) (b : Bytes × Bytes),
      let r := ts.foldl (fun b t => (if t.smallest < b.1 then t.smallest else b.1,
        if b.2 < t.largest then t.largest else b.2)) b
      (r.1 ≤ b.1 ∧ b.2 ≤ r.2) ∧ ∀ t ∈ ts, r.1 ≤ t.smallest ∧ t.largest ≤ r.2 := by
    intro ts
    induction ts with
    | nil => exact fun b => ⟨⟨le_rfl, le_rfl⟩, by simp⟩
    | cons u ts ih =>
      intro b
      obtain ⟨⟨hlo, hhi⟩, hall⟩ := ih (if u.smallest < b.1 then u.smallest else b.1,
        if b.2 < u.largest then u.largest else b.2)
      have h1 : (if u.smallest < b.1 then u.smallest else b.1) ≤ b.1 ∧
          (if u.smallest < b.1 then u.smallest else b.1) ≤ u.smallest := by
        split_ifs with h
        · exact ⟨h.le, le_rfl⟩
        · exact ⟨le_rfl, not_lt.mp h⟩
      have h2 : b.2 ≤ (if b.2 < u.largest then u.largest else b.2) ∧
          u.largest ≤ (if b.2 < u.largest then u.largest else b.2) := by
        split_ifs with h
        · exact ⟨h.le, le_rfl⟩
        · exact ⟨le_rfl, not_lt.mp h⟩
      refine ⟨⟨hlo.trans h1.1, h2.1.trans hhi⟩, fun t ht => ?_⟩
      rcases List.mem_cons.mp ht with rfl | ht
      · exact ⟨hlo.trans h1.2, h2.2.trans hhi⟩
      · exact hall t ht
  cases ts with
  | nil => simp at ht
  | cons u ts =>
    obtain ⟨⟨hlo, hhi⟩, hall⟩ := hfold ts (u.smallest, u.largest)
    rcases List.mem_cons.mp ht with rfl | ht
    · exact ⟨hlo, hhi⟩
    · exact hall t ht

/-- Each bound is the bound of one of the tables. -/
theorem tableMetaBounds_mem {ts : List TableMeta} (hne : ts ≠ []) :
    (∃ t ∈ ts, (tableMetaBounds ts).1 = t.smallest) ∧
      ∃ t ∈ ts, (tableMetaBounds ts).2 = t.largest := by
  -- each bound stays, or becomes one of the table that is visited
  have hfold : ∀ (ts us : List TableMeta) (b : Bytes × Bytes),
      (∃ t ∈ us, b.1 = t.smallest) → (∃ t ∈ us, b.2 = t.largest) →
      let r := ts.foldl (fun b t => (if t.smallest < b.1 then t.smallest else b.1,
        if b.2 < t.largest then t.largest else b.2)) b
      (∃ t ∈ us ++ ts, r.1 = t.smallest) ∧ ∃ t ∈ us ++ ts, r.2 = t.largest := by
    intro ts
    induction ts with
    | nil => exact fun us b h1 h2 => by simpa using ⟨h1, h2⟩
    | cons u ts ih =>
      intro us b h1 h2
      have hstep := ih (us ++ [u]) (if u.smallest < b.1 then u.smallest else b.1,
        if b.2 < u.largest then u.largest else b.2) ?_ ?_
      · simpa [List.append_assoc] using hstep
      · dsimp only
        split_ifs
        · exact ⟨u, by simp, rfl⟩
        · obtain ⟨t, ht, heq⟩ := h1
          exact ⟨t, List.mem_append_left _ ht, heq⟩
      · dsimp only
        split_ifs
        · exact ⟨u, by simp, rfl⟩
        · obtain ⟨t, ht, heq⟩ := h2
          exact ⟨t, List.mem_append_left _ ht, heq⟩
  cases ts with
  | nil => exact absurd rfl hne
  | cons u ts =>
    -- the first table gives the bounds that the fold starts from
    exact hfold ts [u] (u.smallest, u.largest) ⟨u, by simp, rfl⟩ ⟨u, by simp, rfl⟩

/-- What the planner relies on: the sources are part of the level, at least one table, inside their
bounds, and no other table of the level meets the bounds. -/
structure ClosedSource (level source : List TableMeta) : Prop where
  sublist : source.Sublist level
  ne_nil : source ≠ []
  covers : ∀ t ∈ source, (tableMetaBounds source).1 ≤ t.smallest ∧
    t.largest ≤ (tableMetaBounds source).2
  closed : ∀ t ∈ level, t ∉ source →
    t.largest < (tableMetaBounds source).1 ∨ (tableMetaBounds source).2 < t.smallest

/-- **The selected sources are closed under overlap**, for every level of distinctly named tables. -/
theorem selectL0CompactionSource_closed {l0 : List TableMeta} (hne : l0 ≠ [])
    (hdistinct : ∀ a ∈ l0, ∀ b ∈ l0, a.filename = b.filename → a = b) :
    ClosedSource l0 (selectL0CompactionSource l0) := by
  obtain ⟨oldest, hlast⟩ : ∃ t, l0.getLast? = some t := by
    cases h : l0.getLast? with
    | none => exact absurd (List.getLast?_eq_none_iff.mp h) hne
    | some t => exact ⟨t, rfl⟩
  have holdest : oldest ∈ l0 := List.mem_of_getLast? hlast
  set sel := selectionFrom l0 oldest with hsel
  have hsource : selectL0CompactionSource l0 = l0.filter fun t => t.filename ∈ sel.names := by
    simp only [selectL0CompactionSource, hlast, hsel]
  have hstart : oldest.filename ∈ sel.names := by
    refine Selection.close_induction (P := fun s => oldest.filename ∈ s.names) (fun s t _ hs => ?_)
      _ (by simp)
    rcases s.visit_cases t with ⟨h, -⟩ | ⟨-, h⟩ <;> rw [h]
    · exact hs
    · exact List.mem_cons_of_mem _ hs
  have hcovers : sel.Covers l0 := by
    refine Selection.close_induction (P := fun s => s.Covers l0)
      (fun s t ht hs => hs.visit hdistinct ht) _ fun t ht hmem => ?_
    obtain rfl := hdistinct t ht oldest holdest (by simpa using hmem)
    exact ⟨le_rfl, le_rfl⟩
  have hclosed : sel.Closed l0 := (selectionFrom_loops holdest).closed
  have hmem : ∀ t, t ∈ selectL0CompactionSource l0 ↔ t ∈ l0 ∧ t.filename ∈ sel.names := by
    intro t
    rw [hsource, List.mem_filter, decide_eq_true_eq]
  have hnil : selectL0CompactionSource l0 ≠ [] :=
    List.ne_nil_of_mem ((hmem oldest).mpr ⟨holdest, hstart⟩)
  refine ⟨hsource ▸ List.filter_sublist, hnil, fun t ht => tableMetaBounds_covers ht,
    fun t ht hout => ?_⟩
  -- the bounds of the selected tables lie inside the range the loop ended with
  obtain ⟨⟨a, ha, hlo⟩, b, hb, hhi⟩ := tableMetaBounds_mem hnil
  have ha' := hcovers a ((hmem a).mp ha).1 ((hmem a).mp ha).2
  have hb' := hcovers b ((hmem b).mp hb).1 ((hmem b).mp hb).2
  rw [hlo, hhi]
  exact (hclosed t ht fun hname => hout ((hmem t).mpr ⟨ht, hname⟩)).imp
    (fun h => h.trans_le ha'.1) fun h => hb'.2.trans_lt h

end Seol
