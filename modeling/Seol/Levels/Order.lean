import Seol.Common.Sorting
import Seol.Manifest

/-!
# The order of tables is canonical

Reference: `groupTableMetaByLevel`, `orderTableMetaForManifest`, `buildLevelState` and
`sortTableMetaForLevel` in `compaction.go`. The functions are given here as the source has them,
grouping loop by loop and with `sort.Slice` as any function that sorts. On distinct file names they
compute what `Levels` says they compute, so the order of the manifest does not matter.
-/

namespace Seol

open Common

/-- `copy(dst, src)`. -/
def copySlice {α : Type} (dst src : List α) : List α := src.take dst.length ++ dst.drop src.length

namespace SortedBy

variable (sortSlice : (TableMeta → TableMeta → Bool) → List TableMeta → List TableMeta)

/-- `sortTableMetaForLevel`. -/
def sortTableMetaForLevel (level : ℕ) (tables : List TableMeta) : List TableMeta :=
  sortSlice (tableLess level) tables

/-- `groupTableMetaByLevel`. -/
def groupTableMetaByLevel (tables : List TableMeta) : List (ℕ × List TableMeta) :=
  if tables = [] then []
  else
    let g := groupBy TableMeta.level tables
    (g.keys.insertionSort (· ≤ ·)).map fun level =>
      (level, sortTableMetaForLevel sortSlice level (g.groups level))

/-- `orderTableMetaForManifest`, as the contents of the slice afterwards. -/
def orderTableMetaForManifest (tables : List TableMeta) : List TableMeta :=
  if tables = [] then tables
  else copySlice tables ((groupTableMetaByLevel sortSlice tables).flatMap Prod.snd)

/-- The lookup of one manifest entry; the error names the missing file. -/
def findTable (tables : List Table) (m : TableMeta) : Except Bytes Table :=
  match tableByName tables m.filename with
  | none => .error m.filename
  | some t => .ok t

/-- `buildLevelState`: the levels, the flat metadata and the flat tables. -/
def buildLevelState (metas : List TableMeta) (tables : List Table) :
    Except Bytes (List LevelState × List TableMeta × List Table) :=
  if metas = [] then .ok ([], [], [])
  else
    let g := groupBy TableMeta.level metas
    (g.keys.insertionSort (· ≤ ·)).foldlM (fun acc level => do
      let orderedMeta := sortTableMetaForLevel sortSlice level (g.groups level)
      let levelTables ← orderedMeta.mapM (findTable tables)
      return (acc.1 ++ [⟨level, orderedMeta, levelTables⟩], acc.2.1 ++ orderedMeta,
        acc.2.2 ++ levelTables)) ([], [], [])

end SortedBy

/-! ## The canonical order -/

theorem weakOrder_tableLess (level : ℕ) : WeakOrder (tableLess level) where
  total a b := Std.Total.total (r := tableLE level) a b
  trans a b c hab hbc := IsTrans.trans (r := tableLE level) a b c hab hbc

section

variable {sortSlice : (TableMeta → TableMeta → Bool) → List TableMeta → List TableMeta}
  {ms : List TableMeta}

/-- The level numbers the grouping loop collects, sorted. -/
theorem sorted_keys_eq (ms : List TableMeta) :
    (groupBy TableMeta.level ms).keys.insertionSort (· ≤ ·) = levelNumbers ms := by
  obtain ⟨hnodup, hmem⟩ := groupBy_keys TableMeta.level ms
  have hperm : (groupBy TableMeta.level ms).keys.Perm (ms.map TableMeta.level).dedup :=
    (List.perm_ext_iff_of_nodup hnodup (List.nodup_dedup _)).mpr fun level => by simp [hmem]
  refine List.Perm.eq_of_pairwise (fun a b _ _ => le_antisymm)
    (List.pairwise_insertionSort (· ≤ ·) _) (List.pairwise_insertionSort (· ≤ ·) _) ?_
  exact (List.perm_insertionSort _ _).trans (hperm.trans (List.perm_insertionSort _ _).symm)

/-- On distinct names every sort leaves a level in its read order. -/
theorem sorted_group_eq (hsort : SortsSlices sortSlice) (h : DistinctNames ms) (level : ℕ) :
    SortedBy.sortTableMetaForLevel sortSlice level ((groupBy TableMeta.level ms).groups level) =
      levelMeta ms level := by
  rw [SortedBy.sortTableMetaForLevel, groupBy_groups]
  exact (levelMeta_eq h (hsort.sorted _ _ (weakOrder_tableLess level)) (hsort.perm _ _)).symm

theorem SortedBy.groupTableMetaByLevel_eq (hsort : SortsSlices sortSlice) (h : DistinctNames ms) :
    SortedBy.groupTableMetaByLevel sortSlice ms = Seol.groupTableMetaByLevel ms := by
  rw [SortedBy.groupTableMetaByLevel]
  by_cases hnil : ms = []
  · subst hnil
    rfl
  · rw [if_neg hnil]
    simp only [sorted_keys_eq, sorted_group_eq hsort h]
    rfl

theorem SortedBy.orderTableMetaForManifest_eq (hsort : SortsSlices sortSlice)
    (h : DistinctNames ms) :
    SortedBy.orderTableMetaForManifest sortSlice ms = Seol.orderTableMetaForManifest ms := by
  rw [SortedBy.orderTableMetaForManifest]
  by_cases hnil : ms = []
  · subst hnil
    rfl
  · rw [if_neg hnil, SortedBy.groupTableMetaByLevel_eq hsort h]
    -- the copy covers the slice, because the flat list is a permutation of it
    have hlen : (Seol.orderTableMetaForManifest ms).length = ms.length :=
      (orderTableMetaForManifest_perm h).length_eq
    rw [← Seol.orderTableMetaForManifest, copySlice, ← hlen, List.take_length, hlen,
      List.drop_length, List.append_nil]

theorem mapM_toOption {α β ε : Type} (f : α → Except ε β) (l : List α) :
    (l.mapM f).toOption = l.mapM fun a => (f a).toOption := by
  induction l with
  | nil => rfl
  | cons a l ih =>
    rw [List.mapM_cons, List.mapM_cons, ← ih]
    cases f a with
    | error e => rfl
    | ok b =>
      cases l.mapM f with
      | error e => rfl
      | ok bs => rfl

/-- One level with its tables; `none` if one is missing. -/
def findLevel (ms : List TableMeta) (tables : List Table) (level : ℕ) : Option LevelState :=
  ((levelMeta ms level).mapM fun m => tableByName tables m.filename).map fun ts =>
    ⟨level, levelMeta ms level, ts⟩

/-- The loop of `buildLevelState` over the levels, from any of its intermediate states. -/
theorem buildLoop_toOption (ms : List TableMeta) (tables : List Table) (levels : List ℕ)
    (acc : List LevelState × List TableMeta × List Table) :
    (levels.foldlM (fun acc level => do
      let levelTables ← (levelMeta ms level).mapM (SortedBy.findTable tables)
      return (acc.1 ++ [(⟨level, levelMeta ms level, levelTables⟩ : LevelState)],
        acc.2.1 ++ levelMeta ms level, acc.2.2 ++ levelTables)) acc).toOption =
    (levels.mapM (findLevel ms tables)).map fun ls =>
      (acc.1 ++ ls, acc.2.1 ++ ls.flatMap LevelState.metas, acc.2.2 ++ ls.flatMap LevelState.tables)
    := by
  -- `SortedBy.findTable` differs from `tableByName` in its error alone
  have hfind : ∀ level, ((levelMeta ms level).mapM fun m => tableByName tables m.filename) =
      ((levelMeta ms level).mapM (SortedBy.findTable tables)).toOption := by
    intro level
    rw [mapM_toOption]
    congr 1
    funext m
    rw [SortedBy.findTable]
    cases tableByName tables m.filename <;> rfl
  -- the loop collects the levels, their metadata and their tables side by side
  induction levels generalizing acc with
  | nil =>
    simp [Except.toOption]
    rfl
  | cons level levels ih =>
    rw [List.foldlM_cons, List.mapM_cons, findLevel, hfind]
    cases (levelMeta ms level).mapM (SortedBy.findTable tables) with
    | error e => rfl
    | ok ts =>
      refine (ih _).trans ?_
      cases hls : levels.mapM (findLevel ms tables) with
      | none => rfl
      | some ls => simp [Except.toOption]

/-- **The source's loop computes the levels of `Levels`**, and its flat results are theirs. -/
theorem SortedBy.buildLevelState_toOption (hsort : SortsSlices sortSlice) (h : DistinctNames ms)
    (tables : List Table) :
    (SortedBy.buildLevelState sortSlice ms tables).toOption =
      (Seol.buildLevelState ms tables).map fun ls =>
        (ls, ls.flatMap LevelState.metas, ls.flatMap LevelState.tables) := by
  rw [SortedBy.buildLevelState]
  by_cases hnil : ms = []
  · subst hnil
    rfl
  · rw [if_neg hnil]
    simp only [sorted_keys_eq, sorted_group_eq hsort h]
    rw [buildLoop_toOption, Seol.buildLevelState, Seol.groupTableMetaByLevel, List.mapM_map]
    rfl

/-- Every entry has its table, and the tables have distinct names. -/
structure Matching (ms : List TableMeta) (tables : List Table) : Prop where
  paths : (tables.map Table.path).Nodup
  all : ∀ m ∈ ms, ∃ t ∈ tables, t.path = m.filename

/-- The same tables are found in every order of the list of tables. -/
theorem Matching.found {tables : List Table} (h : Matching ms tables) :
    ∃ g : TableMeta → Table, ∀ tables', tables'.Perm tables → ∀ m ∈ ms,
      tableByName tables' m.filename = some (g m) := by
  -- the paths are distinct, so the order of the list cannot matter
  have hfound : ∀ tables', tables'.Perm tables → ∀ t ∈ tables,
      tableByName tables' t.path = some t := by
    intro tables' hp t ht
    refine tableByName_eq_some (hp.mem_iff.mpr ht) fun t' ht' heq => ?_
    exact List.inj_on_of_nodup_map h.paths (hp.mem_iff.mp ht') ht heq
  refine ⟨fun m => (tableByName tables m.filename).getD ⟨m.filename, OrdMap.empty⟩,
    fun tables' hp m hm => ?_⟩
  obtain ⟨t, ht, hpath⟩ := h.all m hm
  dsimp only
  rw [← hpath, hfound tables' hp t ht, hfound tables (.refl _) t ht]
  rfl

/-- The order depends only on which tables there are. -/
theorem orderTableMetaForManifest_congr {ms' : List TableMeta} (h : DistinctNames ms)
    (hp : ms'.Perm ms) : orderTableMetaForManifest ms' = orderTableMetaForManifest ms := by
  rw [orderTableMetaForManifest_eq, orderTableMetaForManifest_eq,
    levelNumbers_perm hp]
  exact List.flatMap_congr fun level _ => levelMeta_perm h hp level

theorem orderTableMetaForManifest_levels (ms : List TableMeta) :
    (orderTableMetaForManifest ms).Pairwise fun a b => a.level ≤ b.level := by
  rw [orderTableMetaForManifest_eq, List.pairwise_flatMap]
  refine ⟨fun level _ => ?_, (levelNumbers_sorted ms).imp fun {n n'} hlt a ha b hb => ?_⟩
  · refine List.pairwise_of_forall_mem_list fun a ha b hb => ?_
    rw [(mem_levelMeta.mp ha).2, (mem_levelMeta.mp hb).2]
  · rw [(mem_levelMeta.mp ha).2, (mem_levelMeta.mp hb).2]
    exact hlt.le

/-- The tables of one level stand in the order in which that level is read. -/
theorem orderTableMetaForManifest_filter (ms : List TableMeta) (level : ℕ) :
    (orderTableMetaForManifest ms).filter (fun m => m.level = level) = levelMeta ms level := by
  have hpart : ∀ n, (levelMeta ms n).filter (fun m => m.level = level) =
      if n = level then levelMeta ms level else [] := by
    intro n
    split_ifs with hn
    · subst hn
      exact List.filter_eq_self.mpr fun m hm => by simpa using (mem_levelMeta.mp hm).2
    · exact List.filter_eq_nil_iff.mpr fun m hm => by simpa [(mem_levelMeta.mp hm).2] using hn
  have hnodup : (levelNumbers ms).Nodup := (levelNumbers_sorted ms).imp fun h => h.ne
  rw [orderTableMetaForManifest_eq, List.filter_flatMap]
  simp only [hpart]
  -- of the parts the manifest is made of, the filter keeps the one of this level
  by_cases hmem : level ∈ levelNumbers ms
  · obtain ⟨l₁, l₂, hsplit⟩ := List.append_of_mem hmem
    rw [hsplit] at hnodup ⊢
    have h₁ : ∀ n ∈ l₁, n ≠ level := by
      rintro n hn rfl
      exact (List.nodup_append.mp hnodup).2.2 n hn n List.mem_cons_self rfl
    have h₂ : ∀ n ∈ l₂, n ≠ level := by
      rintro n hn rfl
      exact (List.nodup_cons.mp (List.nodup_append.mp hnodup).2.1).1 hn
    have hnil : ∀ l : List ℕ, (∀ n ∈ l, n ≠ level) →
        (l.flatMap fun n => if n = level then levelMeta ms level else []) = [] := by
      intro l hl
      exact List.flatMap_eq_nil_iff.mpr fun n hn => if_neg (hl n hn)
    rw [List.flatMap_append, List.flatMap_cons, hnil l₁ h₁, hnil l₂ h₂, if_pos rfl,
      List.nil_append, List.append_nil]
  · have hempty : levelMeta ms level = [] := List.eq_nil_iff_forall_not_mem.mpr fun m hm =>
      hmem (mem_levelNumbers.mpr ⟨m, mem_levelMeta.mp hm⟩)
    simp [hempty]

/-- On distinct names the read order of a level is strict. -/
theorem levelMeta_strict (h : DistinctNames ms) (level : ℕ) :
    (levelMeta ms level).Pairwise fun a b => tableLess level a b = true := by
  have hsorted : (levelMeta ms level).Pairwise (tableLE level) :=
    List.pairwise_insertionSort (tableLE level) _
  have hnodup : (levelMeta ms level).Nodup :=
    (List.perm_insertionSort _ _).nodup_iff.mpr (h.nodup.filter _)
  refine (hsorted.and hnodup).imp_of_mem fun {a b} ha hb hab => ?_
  by_contra hless
  have hba : tableLE level b a := by simpa [tableLE] using hless
  exact hab.2 (h.eq (mem_levelMeta.mp ha).1 (mem_levelMeta.mp hb).1
    (tableLE_antisymm hab.1 hba))

/-- What `buildLevelState` returns on matching tables. -/
theorem SortedBy.buildLevelState_eq (hsort : SortsSlices sortSlice) (h : DistinctNames ms)
    {tables : List Table} {g : TableMeta → Table}
    (hg : ∀ m ∈ ms, tableByName tables m.filename = some (g m)) :
    SortedBy.buildLevelState sortSlice ms tables =
      .ok ((levelNumbers ms).map fun level =>
          ⟨level, levelMeta ms level, (levelMeta ms level).map g⟩,
        Seol.orderTableMetaForManifest ms, (Seol.orderTableMetaForManifest ms).map g) := by
  -- the two models return the same levels, and the flat lists are those of the levels
  have hopt := SortedBy.buildLevelState_toOption hsort h tables
  rw [buildLevelState_of_found hg, Option.map_some] at hopt
  cases hb : SortedBy.buildLevelState sortSlice ms tables with
  | error e => simp [hb, Except.toOption] at hopt
  | ok r =>
    rw [hb] at hopt
    rw [Option.some.inj hopt, Seol.orderTableMetaForManifest_eq, List.map_flatMap,
      List.flatMap_map, List.flatMap_map]

/-- **Table ordering is canonical.** With any sort for `sort.Slice`, on distinct names and matching
tables, `orderTableMetaForManifest` permutes the list, puts the levels in ascending order and each
level in its read order, changes nothing when repeated, and gives the flat metadata that
`buildLevelState` returns; both results are the same for every permutation of the list. -/
theorem orderTableMetaForManifest_canonical
    (sortSlice : (TableMeta → TableMeta → Bool) → List TableMeta → List TableMeta)
    (hsort : SortsSlices sortSlice) (ms : List TableMeta) (tables : List Table)
    (hnames : DistinctNames ms) (hmatch : Matching ms tables) :
    (SortedBy.orderTableMetaForManifest sortSlice ms).Perm ms ∧
      ((SortedBy.orderTableMetaForManifest sortSlice ms).Pairwise fun a b => a.level ≤ b.level) ∧
      (∀ level, ((SortedBy.orderTableMetaForManifest sortSlice ms).filter
        fun m => m.level = level).Pairwise fun a b => tableLess level a b = true) ∧
      SortedBy.orderTableMetaForManifest sortSlice
          (SortedBy.orderTableMetaForManifest sortSlice ms) =
        SortedBy.orderTableMetaForManifest sortSlice ms ∧
      (∃ levels flatTables, SortedBy.buildLevelState sortSlice ms tables =
        .ok (levels, SortedBy.orderTableMetaForManifest sortSlice ms, flatTables)) ∧
      ∀ ms' tables', ms'.Perm ms → tables'.Perm tables →
        SortedBy.orderTableMetaForManifest sortSlice ms' =
            SortedBy.orderTableMetaForManifest sortSlice ms ∧
          SortedBy.buildLevelState sortSlice ms' tables' =
            SortedBy.buildLevelState sortSlice ms tables := by
  have horder := SortedBy.orderTableMetaForManifest_eq hsort hnames
  have hperm := orderTableMetaForManifest_perm hnames
  obtain ⟨g, hfound⟩ := hmatch.found
  have hbuild := SortedBy.buildLevelState_eq hsort hnames (hfound tables (.refl _))
  refine ⟨horder ▸ hperm, horder ▸ orderTableMetaForManifest_levels ms, fun level => ?_, ?_,
    ⟨_, _, horder ▸ hbuild⟩, fun ms' tables' hms htables => ⟨?_, ?_⟩⟩
  -- the order itself, that it is stable, and that it does not depend on the input's order
  · rw [horder, orderTableMetaForManifest_filter]
    exact levelMeta_strict hnames level
  · rw [horder, SortedBy.orderTableMetaForManifest_eq hsort (hnames.perm hperm)]
    exact orderTableMetaForManifest_congr hnames hperm
  · rw [horder, SortedBy.orderTableMetaForManifest_eq hsort (hnames.perm hms)]
    exact orderTableMetaForManifest_congr hnames hms
  · rw [hbuild, SortedBy.buildLevelState_eq hsort (hnames.perm hms)
      fun m hm => hfound tables' htables m (hms.mem_iff.mp hm),
      orderTableMetaForManifest_congr hnames hms, levelNumbers_perm hms]
    simp only [levelMeta_perm hnames hms]

end

/-- Three tables with one creation time, two of them with one smallest key, listed out of order. -/
def tiedTables : List TableMeta :=
  [⟨[3], 1, [1], [1], 7⟩, ⟨[1], 0, [1], [2], 7⟩, ⟨[2], 1, [1], [2], 7⟩]

theorem orderTableMetaForManifest_canonical_tied :
    DistinctNames tiedTables ∧
      SortedBy.orderTableMetaForManifest
          (fun less l => l.insertionSort fun a b => less b a = false) tiedTables.reverse =
        SortedBy.orderTableMetaForManifest
          (fun less l => l.insertionSort fun a b => less b a = false) tiedTables :=
  ⟨by decide, ((orderTableMetaForManifest_canonical _ sortsSlices_insertionSort tiedTables
    (tiedTables.map fun m => ⟨m.filename, OrdMap.empty⟩) (by decide)
    ⟨by decide, fun m hm => ⟨_, List.mem_map_of_mem hm, rfl⟩⟩).2.2.2.2.2 _ _
      (List.reverse_perm _) (.refl _)).1⟩

end Seol
