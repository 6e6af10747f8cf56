import Seol.Common.Hull
import Seol.Compaction.Plan
import Seol.Manifest

/-!
# The level-0 selection is a least closure

Reference: `selectL0CompactionSource` and `tableMetaBounds` in `compaction.go`. The loop scans the
level again and again while the range of what it has selected grows. Whatever the order of the scan,
it ends with the least set of tables that contains the oldest one and every table of the level that
meets the set's bounding range.
-/

namespace Seol

open Common

variable {l0 : List TableMeta}

/-- The tables of the level that are selected. -/
def Selection.selected (l0 : List TableMeta) (s : Selection) : Set TableMeta :=
  { t | t ∈ l0 ∧ t.filename ∈ s.names }

/-- What holds after every visit: the selected tables were added one at a time, each meeting the
range of those before it, and both ends of the range are ends of selected tables. -/
structure Selection.Grown (l0 : List TableMeta) (oldest : TableMeta) (s : Selection) : Prop where
  grown : GrownFrom TableMeta.smallest TableMeta.largest { t | t ∈ l0 } oldest (s.selected l0)
  smallest_mem : ∃ a ∈ s.selected l0, a.smallest = s.smallest
  largest_mem : ∃ b ∈ s.selected l0, b.largest = s.largest

/-- With distinct names a selecting visit adds the one table. -/
theorem Selection.selected_cons (h : DistinctNames l0) {t : TableMeta} (ht : t ∈ l0)
    (s : Selection) (lo hi : Bytes) :
    Selection.selected l0 ⟨t.filename :: s.names, lo, hi⟩ = insert t (s.selected l0) := by
  ext u
  simp only [Selection.selected, Set.mem_insert_iff, Set.mem_ofPred_eq, List.mem_cons]
  constructor
  · rintro ⟨hu, heq | hmem⟩
    · exact Or.inl (h.eq hu ht heq)
    · exact Or.inr ⟨hu, hmem⟩
  · rintro (rfl | ⟨hu, hmem⟩)
    · exact ⟨ht, Or.inl rfl⟩
    · exact ⟨hu, Or.inr hmem⟩

theorem Selection.Grown.visit (h : DistinctNames l0) {oldest t : TableMeta} {s : Selection}
    (hs : s.Grown l0 oldest) (ht : t ∈ l0) : (s.visit t).Grown l0 oldest := by
  rcases s.visit_cases t with ⟨hsame, -⟩ | ⟨hnew, hsel⟩
  · rw [hsame]
    exact hs
  · obtain ⟨a, ha, hlo⟩ := hs.smallest_mem
    obtain ⟨b, hb, hhi⟩ := hs.largest_mem
    -- the table was selected because it meets the range
    have hmeets : MeetsHull TableMeta.smallest TableMeta.largest (s.selected l0) t := by
      have hin : ¬(t.largest < s.smallest ∨ s.largest < t.smallest) := by
        intro hout
        rw [Selection.visit, if_neg hnew, if_pos hout] at hsel
        exact absurd (congrArg (fun s => s.names.length) hsel) (by simp)
      rw [not_or, not_lt, not_lt] at hin
      exact ⟨⟨a, ha, hlo.trans_le hin.1⟩, b, hb, hin.2.trans_eq hhi.symm⟩
    rw [hsel]
    have hcons := Selection.selected_cons h ht s (min t.smallest s.smallest)
      (max s.largest t.largest)
    refine ⟨hcons ▸ hs.grown.add ht hmeets, ?_, ?_⟩
    · rw [hcons]
      rcases min_choice t.smallest s.smallest with hmin | hmin
      · exact ⟨t, Set.mem_insert _ _, hmin.symm⟩
      · exact ⟨a, Set.mem_insert_of_mem _ ha, hlo.trans hmin.symm⟩
    · rw [hcons]
      rcases max_choice s.largest t.largest with hmax | hmax
      · exact ⟨b, Set.mem_insert_of_mem _ hb, hhi.trans hmax.symm⟩
      · exact ⟨t, Set.mem_insert _ _, hmax.symm⟩

theorem selectionFrom_grown (h : DistinctNames l0) {oldest : TableMeta} (holdest : oldest ∈ l0) :
    (selectionFrom l0 oldest).Grown l0 oldest := by
  refine Selection.close_induction (fun s t ht hs => hs.visit h ht) _ ?_
  -- the loop starts with the oldest table alone, names being distinct
  have hstart : Selection.selected l0 ⟨[oldest.filename], oldest.smallest, oldest.largest⟩ =
      {oldest} := by
    ext u
    simp only [Selection.selected, Set.mem_ofPred_eq, List.mem_singleton, Set.mem_singleton_iff]
    constructor
    · exact fun hu => h.eq hu.1 holdest hu.2
    · rintro rfl
      exact ⟨holdest, rfl⟩
  refine ⟨hstart ▸ .single, ?_, ?_⟩
  · exact ⟨oldest, by simp [hstart], rfl⟩
  · exact ⟨oldest, by simp [hstart], rfl⟩

/-- `tableMetaBounds` computes the ends of the hull. -/
theorem tableMetaBounds_hull {ts : List TableMeta} (hne : ts ≠ []) :
    IsLeast (TableMeta.smallest '' { t | t ∈ ts }) (tableMetaBounds ts).1 ∧
      IsGreatest (TableMeta.largest '' { t | t ∈ ts }) (tableMetaBounds ts).2 := by
  obtain ⟨⟨a, ha, hlo⟩, b, hb, hhi⟩ := tableMetaBounds_mem hne
  refine ⟨⟨⟨a, ha, hlo.symm⟩, ?_⟩, ⟨b, hb, hhi.symm⟩, ?_⟩
  · rintro _ ⟨t, ht, rfl⟩
    exact (tableMetaBounds_covers ht).1
  · rintro _ ⟨t, ht, rfl⟩
    exact (tableMetaBounds_covers ht).2

/-- The selected tables are the least closed set. -/
theorem selectL0CompactionSource_isLeast (h : DistinctNames l0) {oldest : TableMeta}
    (hlast : l0.getLast? = some oldest) :
    IsLeast { S : Set TableMeta | oldest ∈ S ∧
        HullClosed TableMeta.smallest TableMeta.largest { t | t ∈ l0 } S }
      { t | t ∈ selectL0CompactionSource l0 } := by
  have holdest : oldest ∈ l0 := List.mem_of_getLast? hlast
  have hsource := selectL0CompactionSource_closed (List.ne_nil_of_mem holdest)
    fun a ha b hb => h.eq ha hb
  -- what the loop marks by name is the set it has selected
  have hset : { t | t ∈ selectL0CompactionSource l0 } = (selectionFrom l0 oldest).selected l0 := by
    ext t
    simp [selectL0CompactionSource, hlast, Selection.selected]
  obtain ⟨hlo, hhi⟩ := tableMetaBounds_hull hsource.ne_nil
  rw [hset]
  refine (selectionFrom_grown h holdest).grown.isLeast fun t ht hmeets => ?_
  rw [← hset] at hmeets ⊢
  -- a table outside that meets the hull would have been taken by one more pass
  by_contra hout
  rw [meetsHull_iff hlo hhi] at hmeets
  rcases hsource.closed t ht hout with hlt | hlt
  · exact absurd hmeets.1 (not_le.mpr hlt)
  · exact absurd hmeets.2 (not_le.mpr hlt)

/-- **Level-0 selection is the least overlap closure.** On a level of distinctly named tables the
loop terminates, and what is returned is, in the order of the level, the least set that contains the
last table and every table of the level that meets the set's bounding range. So no other table
overlaps the bounds of the selected ones, and the order of the other tables does not matter. -/
theorem selectL0CompactionSource_leastClosure (l0 : List TableMeta) (oldest : TableMeta)
    (hnames : DistinctNames l0) (hlast : l0.getLast? = some oldest) :
    Selection.Loops l0 ⟨[oldest.filename], oldest.smallest, oldest.largest⟩
        (selectionFrom l0 oldest) ∧
      (selectL0CompactionSource l0).Sublist l0 ∧
      IsLeast { S : Set TableMeta | oldest ∈ S ∧
          HullClosed TableMeta.smallest TableMeta.largest { t | t ∈ l0 } S }
        { t | t ∈ selectL0CompactionSource l0 } ∧
      (∀ t ∈ l0, t ∉ selectL0CompactionSource l0 →
        t.largest < (tableMetaBounds (selectL0CompactionSource l0)).1 ∨
          (tableMetaBounds (selectL0CompactionSource l0)).2 < t.smallest) ∧
      ∀ l0' : List TableMeta, l0'.Perm l0 → l0'.getLast? = some oldest →
        ∀ t, t ∈ selectL0CompactionSource l0' ↔ t ∈ selectL0CompactionSource l0 := by
  have holdest : oldest ∈ l0 := List.mem_of_getLast? hlast
  have hsource := selectL0CompactionSource_closed (List.ne_nil_of_mem holdest)
    fun a ha b hb => hnames.eq ha hb
  refine ⟨selectionFrom_loops holdest, hsource.sublist,
    selectL0CompactionSource_isLeast hnames hlast, hsource.closed, fun l0' hperm hlast' t => ?_⟩
  -- both selections are the least element of one family
  have hleast' := selectL0CompactionSource_isLeast (hnames.perm hperm) hlast'
  have hmem : { t | t ∈ l0' } = { t | t ∈ l0 } := by
    ext u
    exact hperm.mem_iff
  rw [hmem] at hleast'
  have heq := hleast'.unique (selectL0CompactionSource_isLeast hnames hlast)
  exact Set.ext_iff.mp heq t

/-- A chain of overlaps: the first table meets only the second, which meets the oldest, so the first
pass leaves it out and the second picks it up. -/
def overlapChain : List TableMeta :=
  [⟨[3], 0, [1], [2], 3⟩, ⟨[2], 0, [2], [4], 2⟩, ⟨[1], 0, [4], [5], 1⟩]

theorem selectL0CompactionSource_leastClosure_chain :
    selectL0CompactionSource overlapChain = overlapChain ∧
      IsLeast { S : Set TableMeta | ⟨[1], 0, [4], [5], 1⟩ ∈ S ∧
          HullClosed TableMeta.smallest TableMeta.largest { t | t ∈ overlapChain } S }
        { t | t ∈ selectL0CompactionSource overlapChain } :=
  ⟨by decide, (selectL0CompactionSource_leastClosure overlapChain ⟨[1], 0, [4], [5], 1⟩ (by decide)
    (by decide)).2.2.1⟩

end Seol
