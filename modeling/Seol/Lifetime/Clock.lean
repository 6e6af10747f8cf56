import Seol.Common.Transition
import Seol.Db.Invariant
import Seol.Lifetime.Levels

/-!
# Recency and the clock

Reference: `sstableID` and `Flush` in `sstable/sstable.go`, `sortTableMetaForLevel` in `compaction.go`,
`walID` in `wal.go`, `scanDataFiles` and `installFlushedTable` in `db.go`. Tables and WAL files are
named by readings of the clock, and their age is read off the names. The readings here are arbitrary:
repeated, decreasing, before 1970.
-/

namespace Seol

open Common

/-! ## The model -/

/-- `sstableID` at any reading, in microseconds. -/
def sstableIDAt (now : Int64) : Bytes := decimalInt now.toInt ++ sstSuffix

/-- `walID` at any reading, in nanoseconds. -/
def walIDAt (now : Int64) : Bytes := decimalInt now.toInt ++ walSuffix

/-- An open store as far as its files go, with the readings that named its tables in the order of their
installation and those that named its WAL files in the order of their creation. -/
structure Clocked where
  dir : Dir
  index : LevelIndex
  installed : List Int64
  created : List Int64

/-- An empty directory, opened for the first time. -/
def Clocked.start : Clocked := ⟨{ Dir.empty with manifest := some [] }, LevelIndex.of [], [], []⟩

/-- What happens to the files: a flush that is installed, a flush that a stop cuts off before it is
installed, a new WAL at a rotation or an opening, the removal of a WAL, a reopening. -/
inductive ClockEvent where
  | flush (now : Int64) (fallback : ℤ) (entries : OrdMap Bytes Bytes)
  | flushOnly (now : Int64) (entries : OrdMap Bytes Bytes)
  | createWAL (now : Int64)
  | removeWAL (path : Bytes)
  | reopen (fallback : ℤ)

/-- The store after an event. `os.Create` overwrites a table of the same name, `createWAL` with
`os.O_EXCL` fails. -/
def Clocked.step (s : Clocked) : ClockEvent → Clocked
  | .flush now fallback entries =>
    let sst : Table := ⟨sstableIDAt now, entries⟩
    let updatedMeta := tableMetaFromSST sst 0 fallback :: s.index.tableMeta
    let dir := { s.dir with
      tables := s.dir.tables.insert (sstableIDAt now) entries
      manifest := some updatedMeta }
    match buildLevelState updatedMeta (sst :: s.index.sstables) with
    | none => { s with dir := dir }
    | some levels =>
      { s with dir := dir, index := LevelIndex.of levels, installed := s.installed ++ [now] }
  | .flushOnly now entries =>
    { s with dir := { s.dir with tables := s.dir.tables.insert (sstableIDAt now) entries } }
  | .createWAL now =>
    if (s.dir.wals.get (walIDAt now)).isSome then s
    else { s with
      dir := { s.dir with wals := s.dir.wals.insert (walIDAt now) [] }
      created := s.created ++ [now] }
  | .removeWAL path =>
    { s with
      dir := { s.dir with wals := s.dir.wals.erase path }
      created := s.created.filter fun t => walIDAt t ≠ path }
  | .reopen fallback =>
    match loadLevels s.dir.tables (openManifest s.dir fallback) with
    | none => s
    | some levels =>
      { s with
        dir := { s.dir with manifest := some (openManifest s.dir fallback) }
        index := LevelIndex.of levels }

/-! ## Recency -/

/-- The names of the tables of level 0, in the order in which a lookup asks them. -/
def readOrder (levels : List LevelState) : List Bytes :=
  ((levels.filter fun l => l.level = 0).flatMap LevelState.metas).map TableMeta.filename

/-- A flush creates a file that the manifest does not name. -/
def Clocked.NewName (s : Clocked) : ClockEvent → Prop
  | .flush now _ _ | .flushOnly now _ =>
    ∀ m ∈ s.dir.manifest.getD [], m.filename ≠ sstableIDAt now
  | _ => True

/-- Recency survives an event: its table has a name of its own, level 0 is read from the last installed
table to the first, and the WAL files are replayed in the order of their creation. -/
structure Clocked.KeepsRecency (s : Clocked) (e : ClockEvent) : Prop where
  new_name : s.NewName e
  read_order : readOrder (s.step e).index.levels = (s.step e).installed.reverse.map sstableIDAt
  replay_order : (s.step e).dir.walNames = (s.step e).created.map walIDAt

/-- The clock moves on: an installed table has a later reading than those installed before it, any other
flush a different one, and a new WAL file has a name that is greater as a string than those that are
still there. -/
def Clocked.MovesOn (s : Clocked) : ClockEvent → Prop
  | .flush now _ _ => ∀ t ∈ s.installed, t < now
  | .flushOnly now _ => now ∉ s.installed
  | .createWAL now => now ∈ s.created ∨ ∀ t ∈ s.created, walIDAt t < walIDAt now
  | _ => True

/-! ## Names and readings -/

theorem sstableIDAt_injective : Function.Injective sstableIDAt := fun _ _ h =>
  Int64.toInt_inj.mp (decimalInt_injective (List.append_cancel_right h))

theorem walIDAt_injective : Function.Injective walIDAt := fun _ _ h =>
  Int64.toInt_inj.mp (decimalInt_injective (List.append_cancel_right h))

theorem parseInt_decimalInt {t : ℤ} (hlo : -2 ^ 63 ≤ t) (hhi : t < 2 ^ 63) :
    parseInt (decimalInt t) = some t := by
  unfold decimalInt
  split_ifs with hneg
  · show ((parseDecimal (decimal t.natAbs)).bind _) = _
    rw [parseDecimal_decimal, Option.bind_some, if_pos (by omega)]
    exact congrArg some (by omega)
  · rw [parseInt_decimal (by omega)]
    exact congrArg some (by omega)

/-- The name of a table gives the reading back. -/
theorem tableCreatedAt_sstableIDAt (now : Int64) (fallback : ℤ) :
    tableCreatedAt (sstableIDAt now) fallback = now.toInt := by
  rw [tableCreatedAt, sstableIDAt, trimExt_append,
    parseInt_decimalInt now.le_toInt now.toInt_lt, Option.getD_some]

/-- The level-0 tables of a manifest in read order. -/
theorem readOrder_levelsOf (files : TableFiles) (ms : List TableMeta) :
    readOrder (levelsOf files ms) = (levelMeta ms 0).map TableMeta.filename := by
  have hnodup : (levelNumbers ms).Nodup := (levelNumbers_sorted ms).imp fun h => h.ne
  have hzero : ((levelsOf files ms).filter fun l => l.level = 0).flatMap LevelState.metas =
      ((levelNumbers ms).filter fun level => level = 0).flatMap (levelMeta ms) := by
    rw [levelsOf, List.filter_map, List.flatMap_map]
    rfl
  rw [readOrder, hzero, List.filter_eq]
  by_cases hmem : 0 ∈ levelNumbers ms
  · rw [List.count_eq_one_of_mem hnodup hmem]
    simp
  · -- no table is at level 0
    have hnil : levelMeta ms 0 = [] := List.eq_nil_iff_forall_not_mem.mpr fun m hm =>
      hmem (mem_levelNumbers.mpr ⟨m, mem_levelMeta.mp hm⟩)
    rw [List.count_eq_zero_of_not_mem hmem, hnil]
    rfl

/-! ## The invariant -/

/-- The manifest, the index and the WAL files agree with the readings so far. -/
structure ClockInv (s : Clocked) (ms : List TableMeta) : Prop where
  manifest_eq : s.dir.manifest = some ms
  distinct : DistinctNames ms
  present : ∀ m ∈ ms, (s.dir.tables.get m.filename).isSome
  stamped : ∀ m ∈ ms, m.level = 0 ∧ ∃ t : Int64, m.filename = sstableIDAt t ∧ m.createdAt = t.toInt
  index_eq : s.index = indexOf s.dir.tables ms
  order_eq : (levelMeta ms 0).map TableMeta.filename = s.installed.reverse.map sstableIDAt
  wals_eq : s.dir.walNames = s.created.map walIDAt

section Events

variable {s : Clocked} {ms : List TableMeta} (hs : ClockInv s ms)

include hs

/-- The manifest names the tables of the readings that were installed. -/
theorem ClockInv.mem_installed {t : Int64} :
    t ∈ s.installed ↔ ∃ m ∈ ms, m.filename = sstableIDAt t := by
  have hname : t ∈ s.installed ↔
      sstableIDAt t ∈ s.installed.reverse.map sstableIDAt := by
    rw [List.mem_map_of_injective sstableIDAt_injective, List.mem_reverse]
  rw [hname, ← hs.order_eq, List.mem_map]
  refine exists_congr fun m => and_congr_left fun _ => ?_
  exact ⟨fun hm => (mem_levelMeta.mp hm).1, fun hm => mem_levelMeta.mpr ⟨hm, (hs.stamped m hm).1⟩⟩

theorem ClockInv.newName_iff {now : Int64} :
    (∀ m ∈ s.dir.manifest.getD [], m.filename ≠ sstableIDAt now) ↔ now ∉ s.installed := by
  rw [hs.mem_installed, hs.manifest_eq, Option.getD_some]
  push Not
  rfl

theorem ClockInv.read_order : readOrder s.index.levels = s.installed.reverse.map sstableIDAt := by
  rw [hs.index_eq, ← hs.order_eq]
  exact readOrder_levelsOf _ _

/-- A new table file beside those of the manifest changes none of them. -/
theorem ClockInv.insert {now : Int64} (hnew : now ∉ s.installed) (entries : OrdMap Bytes Bytes)
    {m : TableMeta} (hm : m ∈ ms) :
    (s.dir.tables.insert (sstableIDAt now) entries).get m.filename =
      s.dir.tables.get m.filename := by
  have hne : sstableIDAt now ≠ m.filename := fun heq => hnew (hs.mem_installed.mpr ⟨m, hm, heq.symm⟩)
  rw [OrdMap.get_insert, if_neg hne]

/-- **A flush with a reading of its own** is installed, and its table joins level 0. -/
theorem ClockInv.flush {now : Int64} (hnew : now ∉ s.installed) (fallback : ℤ)
    (entries : OrdMap Bytes Bytes) :
    let m := tableMetaFromSST ⟨sstableIDAt now, entries⟩ 0 fallback
    let ms' := m :: orderTableMetaForManifest ms
    DistinctNames ms' ∧ s.step (.flush now fallback entries) =
      { s with
        dir := { s.dir with
          tables := s.dir.tables.insert (sstableIDAt now) entries
          manifest := some ms' }
        index := indexOf (s.dir.tables.insert (sstableIDAt now) entries) ms'
        installed := s.installed ++ [now] } := by
  intro m ms'
  have hperm := orderTableMetaForManifest_perm hs.distinct
  -- a reading that was not used names a table that the manifest does not have
  have hdistinct : DistinctNames ms' := by
    refine List.nodup_cons.mpr ⟨fun hmem => ?_, hs.distinct.perm hperm⟩
    obtain ⟨m', hm', heq⟩ := List.mem_map.mp hmem
    exact hnew (hs.mem_installed.mpr ⟨m', hperm.subset hm', heq⟩)
  have hbuild : buildLevelState ms' (⟨sstableIDAt now, entries⟩ ::
      (orderTableMetaForManifest ms).map (tableOf s.dir.tables)) =
      some (levelsOf (s.dir.tables.insert (sstableIDAt now) entries) ms') :=
    buildLevelState_install rfl hdistinct
  -- the index the process has in memory is that of the manifest
  have hmeta : s.index.tableMeta = orderTableMetaForManifest ms := by rw [hs.index_eq]; rfl
  have htables : s.index.sstables = (orderTableMetaForManifest ms).map (tableOf s.dir.tables) := by
    rw [hs.index_eq]; rfl
  refine ⟨hdistinct, ?_⟩
  simp only [Clocked.step, hmeta, htables]
  rw [hbuild, ← indexOf_eq]

/-- **The read order after a flush**: the new table comes first exactly if its reading is the latest. -/
theorem ClockInv.read_order_iff {now : Int64} (hnew : now ∉ s.installed) (fallback : ℤ)
    (entries : OrdMap Bytes Bytes) :
    (levelMeta (tableMetaFromSST ⟨sstableIDAt now, entries⟩ 0 fallback ::
      orderTableMetaForManifest ms) 0).map TableMeta.filename =
        sstableIDAt now :: s.installed.reverse.map sstableIDAt ↔ ∀ t ∈ s.installed, t < now := by
  have hperm := orderTableMetaForManifest_perm hs.distinct
  have hdistinct := (hs.flush hnew fallback entries).1
  have hcreated : (tableMetaFromSST ⟨sstableIDAt now, entries⟩ 0 fallback).createdAt = now.toInt :=
    tableCreatedAt_sstableIDAt now fallback
  set m := tableMetaFromSST ⟨sstableIDAt now, entries⟩ 0 fallback with hm
  constructor
  · intro horder t ht
    obtain ⟨m', hm', hname'⟩ := hs.mem_installed.mp ht
    obtain ⟨hlevel, t', hname, hcreated'⟩ := hs.stamped m' hm'
    obtain rfl : t' = t := sstableIDAt_injective (hname.symm.trans hname')
    -- the head of the sorted level is the new table
    obtain ⟨a, rest, hsplit, hfirst, -⟩ := List.map_eq_cons_iff.mp horder
    have hmem : ∀ x ∈ levelMeta (m :: orderTableMetaForManifest ms) 0,
        x ∈ m :: orderTableMetaForManifest ms := fun x hx => (mem_levelMeta.mp hx).1
    have hhead : a = m := hdistinct.eq (hmem a (hsplit ▸ List.mem_cons_self)) List.mem_cons_self
      hfirst
    rw [hhead] at hsplit
    have hin : m' ∈ m :: rest := by
      rw [← hsplit]
      exact mem_levelMeta.mpr ⟨List.mem_cons_of_mem _ (hperm.symm.subset hm'), hlevel⟩
    have hrest : m' ∈ rest := by
      rcases List.mem_cons.mp hin with heq | hrest
      · have hsame : sstableIDAt now = sstableIDAt t' := hname ▸ heq ▸ rfl
        exact absurd (sstableIDAt_injective hsame ▸ ht) hnew
      · exact hrest
    have hsorted : (m :: rest).Pairwise (tableLE 0) := by
      rw [← hsplit]
      exact List.pairwise_insertionSort _ _
    have hle := tableLE_zero.mp ((List.pairwise_cons.mp hsorted).1 m' hrest)
    have hge : t'.toInt ≤ now.toInt := by
      rw [← hcreated, ← hcreated']
      rcases Prod.Lex.toLex_le_toLex.mp hle with hlt | ⟨heq, -⟩
      · exact le_of_lt hlt
      · exact (show m.createdAt = m'.createdAt from heq).ge
    refine Int64.lt_iff_toInt_lt.mpr (lt_of_le_of_ne hge fun heq => hnew ?_)
    exact Int64.toInt_inj.mp heq ▸ ht
  · intro hlater
    have hnewest : Newest (orderTableMetaForManifest ms) m := by
      refine ⟨rfl, fun m' hm' _ => ?_, fun m' hm' heq => ?_⟩
      · obtain ⟨-, t, hname, hcreated'⟩ := hs.stamped m' (hperm.subset hm')
        rw [hcreated, hcreated']
        exact Int64.lt_iff_toInt_lt.mp
          (hlater t (hs.mem_installed.mpr ⟨m', hperm.subset hm', hname⟩))
      · exact hnew (hs.mem_installed.mpr ⟨m', hperm.subset hm', heq⟩)
    rw [hnewest.levelMeta_zero (hs.distinct.perm hperm), levelMeta_perm hs.distinct hperm,
      List.map_cons, hs.order_eq]
    rfl

/-- **Recency survives a flush** exactly if its reading is the latest. -/
theorem ClockInv.keeps_flush_iff {now : Int64} {fallback : ℤ} {entries : OrdMap Bytes Bytes} :
    s.KeepsRecency (.flush now fallback entries) ↔ ∀ t ∈ s.installed, t < now := by
  constructor
  -- a lost name would show in the manifest, a lost order in how level 0 is read
  · intro h
    have hnew := hs.newName_iff.mp h.new_name
    have horder := h.read_order
    rw [(hs.flush hnew fallback entries).2] at horder
    refine (hs.read_order_iff hnew fallback entries).mp ?_
    simpa using (readOrder_levelsOf _ _).symm.trans horder
  · intro hlater
    have hnew : now ∉ s.installed := fun hmem => Int64.lt_irrefl (hlater now hmem)
    have heq := (hs.flush hnew fallback entries).2
    refine ⟨hs.newName_iff.mpr hnew, ?_, ?_⟩
    · rw [heq]
      refine (readOrder_levelsOf _ _).trans ?_
      simpa using (hs.read_order_iff hnew fallback entries).mpr hlater
    · rw [heq]
      exact hs.wals_eq

/-- **Recency survives a new WAL file** exactly if its name is greater than all others. -/
theorem ClockInv.keeps_createWAL_iff {now : Int64} : s.KeepsRecency (.createWAL now) ↔
    now ∈ s.created ∨ ∀ t ∈ s.created, walIDAt t < walIDAt now := by
  have hexists : (s.dir.wals.get (walIDAt now)).isSome ↔ now ∈ s.created := by
    have hmem : walIDAt now ∈ s.dir.walNames ↔ now ∈ s.created := by
      rw [hs.wals_eq, List.mem_map_of_injective walIDAt_injective]
    rw [← hmem, Option.isSome_iff_exists]
    exact mem_names_iff.symm
  by_cases hold : now ∈ s.created
  · -- the file is there already, so nothing happens
    have hstep : s.step (.createWAL now) = s := if_pos (hexists.mpr hold)
    refine ⟨fun _ => .inl hold, fun _ => ⟨trivial, ?_, ?_⟩⟩
    · rw [hstep]
      exact hs.read_order
    · rw [hstep]
      exact hs.wals_eq
  · have hstep : s.step (.createWAL now) = { s with
        dir := { s.dir with wals := s.dir.wals.insert (walIDAt now) [] }
        created := s.created ++ [now] } := if_neg fun hsome => hold (hexists.mp hsome)
    constructor
    · intro h
      have horder := h.replay_order
      rw [hstep, List.map_append] at horder
      -- the names of a directory are ascending
      have hsorted : (names (s.dir.wals.insert (walIDAt now) [])).Pairwise (· < ·) :=
        List.pairwise_map.mpr (s.dir.wals.insert (walIDAt now) []).sorted
      rw [show names _ = _ from horder] at hsorted
      refine .inr fun t ht => ?_
      exact (List.pairwise_append.mp hsorted).2.2 _ (List.mem_map_of_mem ht) _ (by simp)
    · rintro (hmem | hlater)
      · exact absurd hmem hold
      · refine ⟨trivial, ?_, ?_⟩
        · rw [hstep]
          exact hs.read_order
        · rw [hstep, List.map_append, ← hs.wals_eq]
          refine names_insert_of_lt (fun path hpath => ?_) []
          have hpath' : path ∈ s.created.map walIDAt := hs.wals_eq ▸ hpath
          obtain ⟨t, ht, rfl⟩ := List.mem_map.mp hpath'
          exact hlater t ht

/-- A reopening finds the index again. -/
theorem ClockInv.reopen (fallback : ℤ) : s.step (.reopen fallback) = s := by
  have hms : openManifest s.dir fallback = ms := by
    rw [openManifest, hs.manifest_eq, Option.getD_some]
  obtain ⟨dir, index, installed, created⟩ := s
  have hindex := hs.index_eq
  have hmanifest := hs.manifest_eq
  simp only [Clocked.step, hms, loadLevels_of_present hs.present, indexOf_eq]
  dsimp only at hindex hmanifest
  rw [hindex, ← hmanifest]

/-- **Recency survives an event exactly if the clock moves on.** -/
theorem ClockInv.keeps_iff (e : ClockEvent) : s.KeepsRecency e ↔ s.MovesOn e := by
  cases e with
  | flush now fallback entries => exact hs.keeps_flush_iff
  | flushOnly now entries =>
    exact ⟨fun h => hs.newName_iff.mp h.new_name,
      fun hnew => ⟨hs.newName_iff.mpr hnew, hs.read_order, hs.wals_eq⟩⟩
  | createWAL now => exact hs.keeps_createWAL_iff
  | removeWAL path =>
    refine ⟨fun _ => trivial, fun _ => ⟨trivial, hs.read_order, ?_⟩⟩
    -- the readings of the files that stay are in the order of their names
    have hfilter : (s.created.filter fun t => walIDAt t ≠ path).map walIDAt =
        (s.created.map walIDAt).filter (· ≠ path) := by
      rw [List.filter_map]
      rfl
    show names (s.dir.wals.erase path) = _
    rw [names_erase]
    exact hfilter ▸ congrArg _ hs.wals_eq
  | reopen fallback =>
    refine ⟨fun _ => trivial, fun _ => ⟨trivial, ?_, ?_⟩⟩
    · rw [hs.reopen]
      exact hs.read_order
    · rw [hs.reopen]
      exact hs.wals_eq

/-- **The invariant survives an event that keeps recency.** -/
theorem ClockInv.step {e : ClockEvent} (h : s.KeepsRecency e) : ∃ ms', ClockInv (s.step e) ms' := by
  cases e with
  | flush now fallback entries =>
    have hnew := hs.newName_iff.mp h.new_name
    obtain ⟨hdistinct, heq⟩ := hs.flush hnew fallback entries
    have hperm := orderTableMetaForManifest_perm hs.distinct
    have horder := h.read_order
    have hreplay := h.replay_order
    rw [heq] at horder hreplay ⊢
    refine ⟨_, rfl, hdistinct, ?_, ?_, rfl, (readOrder_levelsOf _ _).symm.trans horder, hreplay⟩
    · refine List.forall_mem_cons.mpr ⟨?_, fun m hm => ?_⟩
      · show (OrdMap.get _ (sstableIDAt now)).isSome
        rw [OrdMap.get_insert, if_pos rfl]
        rfl
      · rw [hs.insert hnew entries (hperm.subset hm)]
        exact hs.present m (hperm.subset hm)
    · refine List.forall_mem_cons.mpr ⟨⟨rfl, now, rfl, ?_⟩, fun m hm => ?_⟩
      · exact tableCreatedAt_sstableIDAt now fallback
      · exact hs.stamped m (hperm.subset hm)
  | flushOnly now entries =>
    have hnew := hs.newName_iff.mp h.new_name
    refine ⟨ms, hs.manifest_eq, hs.distinct, fun m hm => ?_, hs.stamped, ?_, hs.order_eq, hs.wals_eq⟩
    · rw [show (s.step (.flushOnly now entries)).dir.tables.get m.filename = _ from
        hs.insert hnew entries hm]
      exact hs.present m hm
    · -- the files of the manifest are as before
      have hlevels : levelsOf (s.dir.tables.insert (sstableIDAt now) entries) ms =
          levelsOf s.dir.tables ms := levelsOf_congr fun m hm => hs.insert hnew entries hm
      show s.index = indexOf (s.dir.tables.insert (sstableIDAt now) entries) ms
      rw [← indexOf_eq, hlevels, indexOf_eq]
      exact hs.index_eq
  | createWAL now =>
    have hreplay := h.replay_order
    simp only [Clocked.step] at hreplay ⊢
    split_ifs at hreplay ⊢
    · exact ⟨ms, hs⟩
    · exact ⟨ms, hs.manifest_eq, hs.distinct, hs.present, hs.stamped, hs.index_eq, hs.order_eq, hreplay⟩
  | removeWAL path =>
    exact ⟨ms, hs.manifest_eq, hs.distinct, hs.present, hs.stamped, hs.index_eq, hs.order_eq,
      h.replay_order⟩
  | reopen fallback => exact ⟨ms, (hs.reopen fallback).symm ▸ hs⟩

end Events

/-! ## Whole runs -/

theorem clockInv_start : ClockInv Clocked.start [] :=
  ⟨rfl, List.nodup_nil, by simp, by simp, rfl, rfl, rfl⟩

/-- **Recency depends on the clock.** Over any run of flushes, WAL creations and removals and
reopenings, and for any readings: every flush creates a file of its own, level 0 is always read from
the last installed table to the first, and the WAL files are always replayed in the order of their
creation, exactly if every reading that names an installed table is later than those before it, no
other flush repeats one of them, and every new WAL file has a greater name than those that are there. -/
theorem recency_iff_clock_moves_on (es : List ClockEvent) :
    AtEvery Clocked.step Clocked.KeepsRecency Clocked.start es ↔
      AtEvery Clocked.step Clocked.MovesOn Clocked.start es := by
  refine atEvery_congr (fun s => ∃ ms, ClockInv s ms) ?_ ?_ ⟨[], clockInv_start⟩ es
  · rintro s e ⟨ms, hs⟩
    exact hs.keeps_iff e
  · rintro s e ⟨ms, hs⟩ hmoves
    exact hs.step ((hs.keeps_iff e).mpr hmoves)

/-- A table with one key. -/
def oneKey (k v : UInt8) : OrdMap Bytes Bytes := ⟨[([k], [v])], List.pairwise_singleton _ _⟩

/-- **Three readings that lose recency.** A repeated reading overwrites a table that the manifest names;
after a decreasing one level 0 answers with the older value; and of two WAL files the later one is
replayed first when its reading has more digits. -/
theorem recency_lost :
    ¬ (Clocked.start.step (.flush 1 0 (oneKey 97 1))).NewName (.flush 1 0 (oneKey 98 2)) ∧
      lookupLevels Table.get ([.flush 2 0 (oneKey 97 1), .flush 1 0 (oneKey 97 2)].foldl
        Clocked.step Clocked.start).index.levels [97] = some [1] ∧
      ([.createWAL 9, .createWAL 10].foldl Clocked.step Clocked.start).dir.walNames =
        [walIDAt 10, walIDAt 9] ∧
      ¬ AtEvery Clocked.step Clocked.KeepsRecency Clocked.start
        [.flush 1 0 (oneKey 97 1), .flush 1 0 (oneKey 98 2)] ∧
      ¬ AtEvery Clocked.step Clocked.KeepsRecency Clocked.start
        [.flush 2 0 (oneKey 97 1), .flush 1 0 (oneKey 97 2)] ∧
      ¬ AtEvery Clocked.step Clocked.KeepsRecency Clocked.start [.createWAL 9, .createWAL 10] := by
  have hname : ¬ (Clocked.start.step (.flush 1 0 (oneKey 97 1))).NewName
      (.flush 1 0 (oneKey 98 2)) := by
    -- the table of the first reading is in the manifest, with the name the second one makes
    intro h
    exact h ⟨sstableIDAt 1, 0, [97], [97], 1⟩ (by decide +kernel) rfl
  refine ⟨hname, by decide +kernel, by decide +kernel, fun h => ?_, fun h => ?_, fun h => ?_⟩
  · exact hname (h [.flush 1 0 (oneKey 97 1)] _ [] rfl).new_name
  -- the order in which the tables are read contradicts that of the readings
  · have horder := (h [.flush 2 0 (oneKey 97 1)] _ [] rfl).read_order
    exact absurd horder (by decide +kernel)
  · have horder := (h [.createWAL 9] _ [] rfl).replay_order
    exact absurd horder (by decide +kernel)

end Seol
