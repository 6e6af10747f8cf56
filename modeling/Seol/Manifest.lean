import Seol.Common.PartialMap
import Seol.Levels

/-!
# The view of a manifest

Reference: `manifest.go`, `openSSTablesFromMeta` in `db.go` and `buildLevelState` in `compaction.go`.
The tables a manifest names are opened and arranged in levels. On a well-formed manifest this
succeeds, and what `lookupLevels` selects for a key is the answer of the first level that has one.
-/

namespace Seol

open Common

/-! ## The read order of a level -/

/-- The comparison of level 0 as a linear order: newest first, then by name downwards. -/
def newestFirst (m : TableMeta) : ℤᵒᵈ ×ₗ Bytesᵒᵈ :=
  toLex (OrderDual.toDual m.createdAt, OrderDual.toDual m.filename)

/-- The comparison of deeper levels as a linear order: by smallest key, age and name. -/
def byRange (m : TableMeta) : Bytes ×ₗ (ℤ ×ₗ Bytes) :=
  toLex (m.smallest, toLex (m.createdAt, m.filename))

theorem tableLE_zero {a b : TableMeta} : tableLE 0 a b ↔ newestFirst a ≤ newestFirst b := by
  simp only [tableLE, tableLess, if_true, newestFirst, Prod.Lex.toLex_le_toLex,
    OrderDual.toDual_lt_toDual, OrderDual.toDual_le_toDual, OrderDual.toDual_inj]
  by_cases h : b.createdAt = a.createdAt
  · simp [h]
  · have hne : a.createdAt ≠ b.createdAt := Ne.symm h
    simp only [h, if_false, hne, false_and, or_false, decide_eq_false_iff_not, not_lt]
    exact ⟨fun hle => lt_of_le_of_ne hle h, le_of_lt⟩

theorem tableLE_pos {level : ℕ} (hl : level ≠ 0) {a b : TableMeta} :
    tableLE level a b ↔ byRange a ≤ byRange b := by
  simp only [tableLE, tableLess, if_neg hl, byRange, Prod.Lex.toLex_le_toLex]
  by_cases hs : b.smallest = a.smallest
  · by_cases hc : b.createdAt = a.createdAt
    · simp [hs, hc]
    · have hne : a.createdAt ≠ b.createdAt := Ne.symm hc
      simp only [hs, if_true, hc, if_false, hne, false_and, or_false, decide_eq_false_iff_not,
        not_lt, lt_irrefl, true_and, false_or]
      exact ⟨fun hle => lt_of_le_of_ne hle hne, le_of_lt⟩
  · have hne : a.smallest ≠ b.smallest := Ne.symm hs
    simp only [hs, if_false, hne, false_and, or_false, decide_eq_false_iff_not, not_lt]
    exact ⟨fun hle => lt_of_le_of_ne hle hne, le_of_lt⟩

instance (level : ℕ) : Std.Total (tableLE level) where
  total a b := by
    rcases Nat.eq_zero_or_pos level with rfl | hl
    · simp only [tableLE_zero]
      exact le_total _ _
    · simp only [tableLE_pos hl.ne']
      exact le_total _ _

instance (level : ℕ) : IsTrans TableMeta (tableLE level) where
  trans a b c := by
    rcases Nat.eq_zero_or_pos level with rfl | hl
    · simp only [tableLE_zero]
      exact le_trans
    · simp only [tableLE_pos hl.ne']
      exact le_trans

/-- Tables that may stand either way round have the same name. -/
theorem tableLE_antisymm {level : ℕ} {a b : TableMeta} (hab : tableLE level a b)
    (hba : tableLE level b a) : a.filename = b.filename := by
  rcases Nat.eq_zero_or_pos level with rfl | hl
  · rw [tableLE_zero] at hab hba
    have heq := le_antisymm hab hba
    simp only [newestFirst, EmbeddingLike.apply_eq_iff_eq, Prod.mk.injEq] at heq
    exact heq.2
  · rw [tableLE_pos hl.ne'] at hab hba
    have heq := le_antisymm hab hba
    simp only [byRange, EmbeddingLike.apply_eq_iff_eq, Prod.mk.injEq] at heq
    exact heq.2.2

/-- Distinct names make the tables distinct. -/
def DistinctNames (ms : List TableMeta) : Prop := (ms.map TableMeta.filename).Nodup

instance (ms : List TableMeta) : Decidable (DistinctNames ms) :=
  inferInstanceAs (Decidable (ms.map TableMeta.filename).Nodup)

theorem DistinctNames.eq {ms : List TableMeta} (h : DistinctNames ms) {a b : TableMeta}
    (ha : a ∈ ms) (hb : b ∈ ms) (hab : a.filename = b.filename) : a = b :=
  List.inj_on_of_nodup_map h ha hb hab

theorem DistinctNames.nodup {ms : List TableMeta} (h : DistinctNames ms) : ms.Nodup :=
  List.Nodup.of_map _ h

theorem DistinctNames.sublist {ms ms' : List TableMeta} (h : DistinctNames ms)
    (hs : ms'.Sublist ms) : DistinctNames ms' := List.Nodup.sublist (hs.map _) h

theorem DistinctNames.perm {ms ms' : List TableMeta} (h : DistinctNames ms)
    (hp : ms'.Perm ms) : DistinctNames ms' := ((hp.map _).nodup_iff).mpr h

theorem mem_levelMeta {ms : List TableMeta} {level : ℕ} {m : TableMeta} :
    m ∈ levelMeta ms level ↔ m ∈ ms ∧ m.level = level := by
  simp [levelMeta, sortTableMetaForLevel]

/-- **A level's read order is canonical**: any sorted list with the same tables is it. -/
theorem levelMeta_eq {ms : List TableMeta} (h : DistinctNames ms) {level : ℕ}
    {sorted : List TableMeta} (hs : sorted.Pairwise (tableLE level))
    (hp : sorted.Perm (ms.filter fun m => m.level = level)) : levelMeta ms level = sorted := by
  have hp' : (levelMeta ms level).Perm sorted :=
    (List.perm_insertionSort _ _).trans hp.symm
  refine List.Perm.eq_of_pairwise (fun a b ha hb hab hba => ?_)
    (List.pairwise_insertionSort (tableLE level) _) hs hp'
  exact h.eq (mem_levelMeta.mp ha).1 (List.mem_of_mem_filter (hp.subset hb))
    (tableLE_antisymm hab hba)

/-- The read order depends only on which tables there are. -/
theorem levelMeta_perm {ms ms' : List TableMeta} (h : DistinctNames ms) (hp : ms'.Perm ms)
    (level : ℕ) : levelMeta ms' level = levelMeta ms level :=
  (levelMeta_eq h (List.pairwise_insertionSort (tableLE level) _)
    ((List.perm_insertionSort _ _).trans (hp.filter _))).symm

/-- Removing tables keeps the order of the others. -/
theorem levelMeta_filter {ms : List TableMeta} (h : DistinctNames ms) (p : TableMeta → Bool)
    (level : ℕ) : levelMeta (ms.filter p) level = (levelMeta ms level).filter p := by
  refine levelMeta_eq (h.sublist List.filter_sublist)
    ((List.pairwise_insertionSort (tableLE level) _).filter p) ?_
  refine ((List.perm_insertionSort _ _).filter p).trans ?_
  rw [List.filter_comm]

theorem mem_levelNumbers {ms : List TableMeta} {level : ℕ} :
    level ∈ levelNumbers ms ↔ ∃ m ∈ ms, m.level = level := by
  simp [levelNumbers]

theorem levelNumbers_sorted (ms : List TableMeta) : (levelNumbers ms).Pairwise (· < ·) := by
  have hle := List.pairwise_insertionSort (fun a b : ℕ => a ≤ b) (ms.map TableMeta.level).dedup
  have hnodup : (levelNumbers ms).Nodup :=
    (List.perm_insertionSort _ _).nodup_iff.mpr (List.nodup_dedup _)
  exact (hle.and hnodup).imp fun h => lt_of_le_of_ne h.1 h.2

/-- `orderTableMetaForManifest` reorders the tables. -/
theorem orderTableMetaForManifest_perm {ms : List TableMeta} (h : DistinctNames ms) :
    (orderTableMetaForManifest ms).Perm ms := by
  -- a table is on one level only, so the parts share nothing
  have hnodup : ((levelNumbers ms).flatMap (levelMeta ms)).Nodup := by
    refine List.nodup_flatMap.mpr ⟨fun level _ => ?_, ?_⟩
    · exact (List.perm_insertionSort _ _).nodup_iff.mpr (h.nodup.filter _)
    · refine (levelNumbers_sorted ms).imp fun hlt => ?_
      intro m hm hm'
      rw [mem_levelMeta] at hm hm'
      omega
  rw [orderTableMetaForManifest_eq]
  refine (List.perm_ext_iff_of_nodup hnodup h.nodup).mpr fun m => ?_
  simp only [List.mem_flatMap, mem_levelNumbers, mem_levelMeta]
  constructor
  · rintro ⟨-, -, hm, -⟩
    exact hm
  · intro hm
    exact ⟨m.level, ⟨m, hm, rfl⟩, hm, rfl⟩

/-! ## Opening the tables of a manifest -/

/-- The table files of a directory, by name, each read as the map of its entries. -/
abbrev TableFiles := OrdMap Bytes (OrdMap Bytes Bytes)

/-- `openSSTablesFromMeta`; `none` is the error for a file that is not there. -/
def openSSTablesFromMeta (files : TableFiles) (ms : List TableMeta) : Option (List Table) :=
  ms.mapM fun m => (files.get m.filename).map fun entries => ⟨m.filename, entries⟩

/-- The part of `openDB` that turns the manifest into levels. -/
def loadLevels (files : TableFiles) (ms : List TableMeta) : Option (List LevelState) :=
  (openSSTablesFromMeta files ms).bind (buildLevelState ms)

/-- The table a manifest entry names. -/
def tableOf (files : TableFiles) (m : TableMeta) : Table :=
  ⟨m.filename, (files.get m.filename).getD OrdMap.empty⟩

/-- The levels of a manifest, each with its tables in read order. -/
def levelsOf (files : TableFiles) (ms : List TableMeta) : List LevelState :=
  (levelNumbers ms).map fun level =>
    ⟨level, levelMeta ms level, (levelMeta ms level).map (tableOf files)⟩

/-- The key ranges of two tables do not meet. -/
def Apart (a b : TableMeta) : Prop := a.largest < b.smallest ∨ b.largest < a.smallest

instance : Std.Symm Apart where
  symm _ _ h := Or.symm h

/-- A manifest and table files that belong together: distinct names, every table there with its true
bounds, and every level below the first free of overlap. -/
structure WellFormed (files : TableFiles) (ms : List TableMeta) : Prop where
  distinct : DistinctNames ms
  present : ∀ m ∈ ms, (files.get m.filename).isSome
  describes : ∀ m ∈ ms, Describes m (tableOf files m)
  disjoint : ∀ level, level ≠ 0 → (ms.filter fun m => m.level = level).Pairwise Apart

theorem mapM_eq_some {α β : Type*} {f : α → Option β} {g : α → β} {l : List α}
    (h : ∀ a ∈ l, f a = some (g a)) : l.mapM f = some (l.map g) := by
  induction l with
  | nil => rfl
  | cons a l ih =>
    rw [List.mapM_cons, h a List.mem_cons_self, ih fun b hb => h b (List.mem_cons_of_mem _ hb)]
    rfl

theorem mapM_eq_none {α β : Type*} {f : α → Option β} {l : List α} {a : α} (ha : a ∈ l)
    (hf : f a = none) : l.mapM f = none := by
  induction l with
  | nil => simp at ha
  | cons b l ih =>
    rw [List.mapM_cons]
    rcases List.mem_cons.mp ha with rfl | ha
    · rw [hf]
      rfl
    · rw [ih ha]
      cases f b <;> rfl

/-- A name that only one table of a list has is found. -/
theorem tableByName_eq_some {tables : List Table} {t : Table} (ht : t ∈ tables)
    (hunique : ∀ t' ∈ tables, t'.path = t.path → t' = t) : tableByName tables t.path = some t := by
  rw [tableByName]
  cases hf : tables.reverse.find? fun t' => t'.path = t.path with
  | none =>
    rw [List.find?_eq_none] at hf
    exact absurd (decide_eq_true rfl) (hf t (List.mem_reverse.mpr ht))
  | some t' =>
    have hpath : t'.path = t.path := by simpa using List.find?_some hf
    rw [hunique t' (List.mem_reverse.mp (List.mem_of_find?_eq_some hf)) hpath]

/-- `buildLevelState` arranges the tables it finds under the names of the manifest. -/
theorem buildLevelState_of_found {ms : List TableMeta} {tables : List Table}
    {g : TableMeta → Table} (h : ∀ m ∈ ms, tableByName tables m.filename = some (g m)) :
    buildLevelState ms tables = some ((levelNumbers ms).map fun level =>
      ⟨level, levelMeta ms level, (levelMeta ms level).map g⟩) := by
  rw [buildLevelState, groupTableMetaByLevel,
    mapM_eq_some (g := fun l : ℕ × List TableMeta => ⟨l.1, l.2, l.2.map g⟩)]
  · rw [List.map_map]
    rfl
  · intro l hl
    obtain ⟨level, -, rfl⟩ := List.mem_map.mp hl
    rw [mapM_eq_some fun m hm => h m (mem_levelMeta.mp hm).1]
    rfl

theorem buildLevelState_eq {files : TableFiles} {ms : List TableMeta} {tables : List Table}
    (h : ∀ m ∈ ms, tableByName tables m.filename = some (tableOf files m)) :
    buildLevelState ms tables = some (levelsOf files ms) :=
  buildLevelState_of_found h

theorem levelNumbers_perm {ms ms' : List TableMeta} (hp : ms'.Perm ms) :
    levelNumbers ms' = levelNumbers ms := by
  refine List.Perm.eq_of_pairwise (fun a b _ _ hab hba => absurd hab hba.asymm)
    (levelNumbers_sorted ms') (levelNumbers_sorted ms) ?_
  refine (List.perm_ext_iff_of_nodup ((levelNumbers_sorted ms').imp fun h => h.ne)
    ((levelNumbers_sorted ms).imp fun h => h.ne)).mpr fun level => ?_
  simp only [mem_levelNumbers, hp.mem_iff]

/-- The levels depend only on which tables there are. -/
theorem levelsOf_perm {files : TableFiles} {ms ms' : List TableMeta} (h : DistinctNames ms)
    (hp : ms'.Perm ms) : levelsOf files ms' = levelsOf files ms := by
  unfold levelsOf
  rw [levelNumbers_perm hp]
  exact List.map_congr_left fun level _ => by rw [levelMeta_perm h hp]

/-- They depend only on the files the manifest names. -/
theorem levelsOf_congr {files files' : TableFiles} {ms : List TableMeta}
    (h : ∀ m ∈ ms, files'.get m.filename = files.get m.filename) :
    levelsOf files' ms = levelsOf files ms := by
  unfold levelsOf
  refine List.map_congr_left fun level _ => ?_
  have hmap : (levelMeta ms level).map (tableOf files') = (levelMeta ms level).map (tableOf files) :=
    List.map_congr_left fun m hm => by simp only [tableOf, h m (mem_levelMeta.mp hm).1]
  rw [hmap]

/-- The tables of the levels are those of the manifest. -/
theorem mem_levelsOf_tables {files : TableFiles} {ms : List TableMeta} {t : Table} :
    t ∈ (levelsOf files ms).flatMap LevelState.tables ↔ ∃ m ∈ ms, tableOf files m = t := by
  simp only [levelsOf, List.flatMap_map, List.mem_flatMap, List.mem_map, mem_levelNumbers,
    mem_levelMeta]
  constructor
  · rintro ⟨level, -, m, ⟨hm, -⟩, rfl⟩
    exact ⟨m, hm, rfl⟩
  · rintro ⟨m, hm, rfl⟩
    exact ⟨m.level, ⟨m, hm, rfl⟩, m, ⟨hm, rfl⟩, rfl⟩

/-- The answer of one level for a key. -/
def levelView (read : Table → Bytes → Option Bytes) (files : TableFiles) (ms : List TableMeta)
    (level : ℕ) (k : Bytes) : Option Bytes :=
  firstHit read ((levelMeta ms level).map (tableOf files)) k

theorem levelView_eq_none {read : Table → Bytes → Option Bytes} {files : TableFiles}
    {ms : List TableMeta} {level : ℕ} (h : ∀ m ∈ ms, m.level ≠ level) (k : Bytes) :
    levelView read files ms level k = none := by
  have hnil : levelMeta ms level = [] :=
    List.eq_nil_iff_forall_not_mem.mpr fun m hm => h m (mem_levelMeta.mp hm).1 (mem_levelMeta.mp hm).2
  rw [levelView, hnil]
  rfl

section Load

variable {files : TableFiles} {ms : List TableMeta}

theorem openSSTablesFromMeta_of_present (h : ∀ m ∈ ms, (files.get m.filename).isSome) :
    openSSTablesFromMeta files ms = some (ms.map (tableOf files)) := by
  refine mapM_eq_some fun m hm => ?_
  obtain ⟨entries, hget⟩ := Option.isSome_iff_exists.mp (h m hm)
  rw [tableOf, hget]
  rfl

/-- A manifest whose files are all there is loaded; entries of one name share a table. -/
theorem loadLevels_of_present (h : ∀ m ∈ ms, (files.get m.filename).isSome) :
    loadLevels files ms = some (levelsOf files ms) := by
  rw [loadLevels, openSSTablesFromMeta_of_present h, Option.bind_some]
  refine buildLevelState_eq fun m hm => ?_
  refine tableByName_eq_some (t := tableOf files m) (List.mem_map_of_mem hm) ?_
  intro t' ht' hpath
  obtain ⟨m', -, rfl⟩ := List.mem_map.mp ht'
  have hname : m'.filename = m.filename := hpath
  rw [tableOf, tableOf, hname]

/-- With a new table in front every name is found among it and the tables there were. -/
theorem buildLevelState_install {m : TableMeta} {t : Table} (hname : m.filename = t.path)
    (hd : DistinctNames (m :: ms)) :
    buildLevelState (m :: ms) (t :: ms.map (tableOf files)) =
      some (levelsOf (files.insert t.path t.entries) (m :: ms)) := by
  have hnew : tableOf (files.insert t.path t.entries) m = t := by
    rw [tableOf, hname, OrdMap.get_insert, if_pos rfl]
    rfl
  -- no other table has the new name
  have hold : ∀ m' ∈ ms, tableOf files m' = tableOf (files.insert t.path t.entries) m' := by
    intro m' hm'
    have hne : t.path ≠ m'.filename := by
      rw [← hname]
      exact fun heq => (List.nodup_cons.mp hd).1 (heq ▸ List.mem_map_of_mem hm')
    rw [tableOf, tableOf, OrdMap.get_insert, if_neg hne]
  have htables : t :: ms.map (tableOf files) =
      (m :: ms).map (tableOf (files.insert t.path t.entries)) := by
    rw [List.map_cons, hnew, List.map_congr_left hold]
  rw [htables]
  refine buildLevelState_eq fun m' hm' => ?_
  refine tableByName_eq_some (t := tableOf _ m') (List.mem_map_of_mem hm') ?_
  -- two tables of this name would be two entries of the manifest
  intro t' ht' hpath
  obtain ⟨m'', hm'', rfl⟩ := List.mem_map.mp ht'
  rw [hd.eq hm'' hm' hpath]

end Load

namespace WellFormed

variable {files : TableFiles} {ms : List TableMeta} (h : WellFormed files ms)

include h

theorem get_eq {m : TableMeta} (hm : m ∈ ms) :
    files.get m.filename = some (tableOf files m).entries := by
  obtain ⟨c, hc⟩ := Option.isSome_iff_exists.mp (h.present m hm)
  simp [tableOf, hc]

/-- **A well-formed manifest loads**, each level with its tables in read order. -/
theorem loadLevels_eq : loadLevels files ms = some (levelsOf files ms) :=
  loadLevels_of_present h.present

/-- Sorting a level without overlap by smallest key puts its ranges one after the other. -/
theorem rangeLevel {level : ℕ} (hl : level ≠ 0) :
    RangeLevel (levelMeta ms level) ((levelMeta ms level).map (tableOf files)) := by
  refine ⟨?_, ?_⟩
  · rw [List.forall₂_map_right_iff, List.forall₂_same]
    exact fun m hm => h.describes m (mem_levelMeta.mp hm).1
  · have hdisjoint : (levelMeta ms level).Pairwise Apart :=
      ((List.perm_insertionSort _ _).pairwise_iff Or.symm).mpr (h.disjoint level hl)
    have hsorted := List.pairwise_insertionSort (tableLE level)
      (ms.filter fun m => m.level = level)
    refine (hsorted.and hdisjoint).imp_of_mem fun {a b} ha hb hab => ?_
    rcases hab.2 with hlt | hlt
    · exact hlt
    · -- the other way round the later table would start below the earlier one
      have hle : a.smallest ≤ b.smallest := by
        have hrange := (tableLE_pos hl).mp hab.1
        rcases Prod.Lex.toLex_le_toLex.mp hrange with hlt' | heq
        · exact hlt'.le
        · exact heq.1.le
      have hb' := (h.describes b (mem_levelMeta.mp hb).1).smallest_le_largest
      exact absurd (hb'.trans_lt hlt) hle.not_gt

/-- **What `lookupLevels` selects** is the answer of the first level that has one. -/
theorem firstAnswer {read : Table → Bytes → Option Bytes} (hread : Sound read)
    {levels : List LevelState} (hload : loadLevels files ms = some levels) (k : Bytes) :
    FirstAnswer (fun n => levelView read files ms n k) (lookupLevels read levels k) := by
  rw [h.loadLevels_eq] at hload
  obtain rfl := Option.some.inj hload
  -- below level 0 the search finds what asking all tables of the level finds
  have hlookup : ∀ level, lookupLevel read ⟨level, levelMeta ms level,
      (levelMeta ms level).map (tableOf files)⟩ k = levelView read files ms level k := by
    intro level
    rw [lookupLevel]
    split_ifs with hl
    · rfl
    · exact (h.rangeLevel hl).lookup_eq hread k
  rw [lookupLevels, levelsOf, List.findSome?_map]
  have hfun : (fun l => lookupLevel read l k) ∘ (fun level => (⟨level, levelMeta ms level,
      (levelMeta ms level).map (tableOf files)⟩ : LevelState)) =
      fun n => levelView read files ms n k := funext hlookup
  rw [hfun]
  refine firstAnswer_findSome? (levelNumbers_sorted ms) fun n hn => ?_
  exact levelView_eq_none (fun m hm hlevel => hn (mem_levelNumbers.mpr ⟨m, hm, hlevel⟩)) k

/-- Below level 0 at most one table of a level holds a key. -/
theorem unique {level : ℕ} (hl : level ≠ 0) {a b : TableMeta} (ha : a ∈ ms) (hb : b ∈ ms)
    (hal : a.level = level) (hbl : b.level = level) {k v w : Bytes}
    (hav : (tableOf files a).find k = some v) (hbw : (tableOf files b).find k = some w) :
    a = b := by
  by_contra hne
  obtain ⟨halo, hahi⟩ := (h.describes a ha).bounds hav
  obtain ⟨hblo, hbhi⟩ := (h.describes b hb).bounds hbw
  have hapart := (h.disjoint level hl).forall (List.mem_filter.mpr ⟨ha, by simpa using hal⟩)
    (List.mem_filter.mpr ⟨hb, by simpa using hbl⟩) hne
  rcases hapart with hlt | hlt
  · exact absurd (hahi.trans_lt hlt) hblo.not_gt
  · exact absurd (hbhi.trans_lt hlt) halo.not_gt

theorem perm {ms' : List TableMeta} (hp : ms'.Perm ms) : WellFormed files ms' where
  distinct := h.distinct.perm hp
  present := fun m hm => h.present m (hp.mem_iff.mp hm)
  describes := fun m hm => h.describes m (hp.mem_iff.mp hm)
  disjoint := fun level hl =>
    (List.Perm.pairwise_iff (fun {_ _} hab => Std.Symm.symm _ _ hab) (hp.filter _)).mpr
      (h.disjoint level hl)

/-- Only the files that the manifest names matter. -/
theorem congr {files' : TableFiles}
    (hget : ∀ m ∈ ms, files'.get m.filename = files.get m.filename) : WellFormed files' ms := by
  refine ⟨h.distinct, fun m hm => ?_, fun m hm => ?_, h.disjoint⟩
  · rw [hget m hm]
    exact h.present m hm
  · rw [tableOf, hget m hm]
    exact h.describes m hm

theorem insert {name : Bytes} (hname : ∀ m ∈ ms, m.filename ≠ name)
    (entries : OrdMap Bytes Bytes) : WellFormed (files.insert name entries) ms :=
  h.congr fun m hm => by rw [OrdMap.get_insert, if_neg (hname m hm).symm]

end WellFormed

end Seol
