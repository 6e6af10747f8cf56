import Seol.Db.State

/-!
# Installing a flushed table

Reference: `installFlushedTable` in `db.go`. A table newer than every table of level 0 goes to the
front of that level, so every lookup afterwards is the table read over the lookup before.
-/

namespace Seol

open Common

/-- A manifest entry for level 0 that is newer than the ones there and has a name of its own. -/
structure Newest (ms : List TableMeta) (m : TableMeta) : Prop where
  level_zero : m.level = 0
  newer : ∀ m' ∈ ms, m'.level = 0 → m'.createdAt < m.createdAt
  fresh : ∀ m' ∈ ms, m'.filename ≠ m.filename

section Install

variable {files : TableFiles} {ms : List TableMeta} {m : TableMeta}

theorem Newest.distinct (hn : Newest ms m) (hd : DistinctNames ms) : DistinctNames (m :: ms) := by
  unfold DistinctNames
  rw [List.map_cons]
  refine List.nodup_cons.mpr ⟨fun hmem => ?_, hd⟩
  obtain ⟨m', hm', heq⟩ := List.mem_map.mp hmem
  exact hn.fresh m' hm' heq

/-- The new table is the first of level 0. -/
theorem Newest.levelMeta_zero (hn : Newest ms m) (hd : DistinctNames ms) :
    levelMeta (m :: ms) 0 = m :: levelMeta ms 0 := by
  refine levelMeta_eq (hn.distinct hd) ?_ ?_
  · refine List.pairwise_cons.mpr ⟨fun m' hm' => ?_, List.pairwise_insertionSort _ _⟩
    obtain ⟨hmem, hl⟩ := mem_levelMeta.mp hm'
    rw [tableLE_zero]
    exact (Prod.Lex.toLex_lt_toLex.mpr (Or.inl (hn.newer m' hmem hl))).le
  · rw [List.filter_cons, if_pos (by simpa using hn.level_zero)]
    exact (List.perm_insertionSort _ _).cons m

theorem Newest.levelMeta_of_ne (hn : Newest ms m) {level : ℕ} (hl : level ≠ 0) :
    levelMeta (m :: ms) level = levelMeta ms level := by
  unfold levelMeta
  rw [List.filter_cons, if_neg (by simpa [hn.level_zero] using hl.symm)]

variable {entries : OrdMap Bytes Bytes}

theorem WellFormed.install (h : WellFormed files ms) (hn : Newest ms m)
    (hget : files.get m.filename = some entries) (hdesc : Describes m ⟨m.filename, entries⟩) :
    WellFormed files (m :: ms) where
  distinct := hn.distinct h.distinct
  present := by
    refine List.forall_mem_cons.mpr ⟨?_, h.present⟩
    rw [hget]
    rfl
  describes := by
    refine List.forall_mem_cons.mpr ⟨?_, h.describes⟩
    rwa [tableOf, hget]
  -- the new table is on level 0, so the levels below keep their tables
  disjoint := by
    intro level hl
    rw [List.filter_cons, if_neg (by simpa [hn.level_zero] using hl.symm)]
    exact h.disjoint level hl

/-- **Installing reads the new table over the levels.** -/
theorem WellFormed.lookup_install (h : WellFormed files ms) (hn : Newest ms m)
    (hget : files.get m.filename = some entries) (hdesc : Describes m ⟨m.filename, entries⟩)
    {read : Table → Bytes → Option Bytes} (hread : Sound read) (k : Bytes) :
    lookupLevels read (levelsOf files (m :: ms)) k =
      (read ⟨m.filename, entries⟩ k).or (lookupLevels read (levelsOf files ms) k) := by
  have hwf := h.install hn hget hdesc
  have hbefore := h.firstAnswer hread h.loadLevels_eq k
  have hafter := hwf.firstAnswer hread hwf.loadLevels_eq k
  have hzero : levelView read files (m :: ms) 0 k =
      (read ⟨m.filename, entries⟩ k).or (levelView read files ms 0 k) := by
    have htable : tableOf files m = ⟨m.filename, entries⟩ := by rw [tableOf, hget]; rfl
    rw [levelView, hn.levelMeta_zero h.distinct, List.map_cons, firstHit, List.findSome?_cons,
      htable]
    cases read ⟨m.filename, entries⟩ k <;> rfl
  cases ht : read ⟨m.filename, entries⟩ k with
  | some v =>
    rw [ht, Option.some_or] at hzero
    exact hafter.eq_some hzero (by simp)
  | none =>
    -- every level answers as before
    have hsame : (fun n => levelView read files (m :: ms) n k) =
        fun n => levelView read files ms n k := by
      funext n
      by_cases hn0 : n = 0
      · rw [hn0, hzero, ht, Option.none_or]
      · rw [levelView, hn.levelMeta_of_ne hn0, levelView]
    rw [hsame] at hafter
    rw [Option.none_or]
    exact hafter.unique hbefore

end Install

/-! ## The metadata of a flushed table -/

theorem parseInt_decimal {n : ℕ} (hn : n < 2 ^ 63) : parseInt (decimal n) = some (n : ℤ) := by
  have hparse : (parseDecimal (decimal n)).bind
      (fun n => if n < 2 ^ 63 then some (n : ℤ) else none) = some (n : ℤ) := by
    rw [parseDecimal_decimal, Option.bind_some, if_pos hn]
  have hdigit : ∀ c ∈ decimal n, 48 ≤ c ∧ c ≤ 57 := fun c => digit_of_mem_decimal
  unfold parseInt
  split
  · next digits heq => exact absurd (hdigit 0x2d (heq ▸ List.mem_cons_self)) (by decide)
  · next digits heq => exact absurd (hdigit 0x2b (heq ▸ List.mem_cons_self)) (by decide)
  · exact hparse

theorem trimExt_append (stem : Bytes) : trimExt (stem ++ sstSuffix) = stem := by
  unfold trimExt sstSuffix
  rw [if_pos (by simp), List.reverse_append]
  simp

theorem trimExt_sstableID (t : ℕ) : trimExt (sstableID t) = decimal t := trimExt_append _

/-- The name of a flushed table gives the time of the flush. -/
theorem tableCreatedAt_sstableID {t : ℕ} (ht : t < 2 ^ 63) (now : ℤ) :
    tableCreatedAt (sstableID t) now = t := by
  unfold tableCreatedAt
  rw [trimExt_sstableID, parseInt_decimal ht, Option.getD_some]

theorem sstableID_injective : Function.Injective sstableID := by
  intro a b h
  exact decimal_injective (List.append_cancel_right h)

/-- The metadata of a table flushed at time `t`. -/
theorem tableMetaFromSST_sstableID {t : ℕ} (ht : t < 2 ^ 63) (entries : OrdMap Bytes Bytes)
    (now : ℤ) : tableMetaFromSST ⟨sstableID t, entries⟩ 0 now =
      ⟨sstableID t, 0, Table.smallest ⟨sstableID t, entries⟩,
        Table.largest ⟨sstableID t, entries⟩, t⟩ := by
  unfold tableMetaFromSST
  rw [tableCreatedAt_sstableID ht]

namespace DB

/-- **What `installFlushedTable` does** on a store whose levels are those of its manifest: it succeeds,
and the levels are those of the manifest with the new table in front. -/
theorem installFlushedTable_eq {db : DB} {files : TableFiles} {t : Table} {now : ℤ}
    (hlevels : db.levels = levelsOf files db.tableMeta)
    (hwf : WellFormed files (db.updatedMeta t now)) (ht : files.get t.path = some t.entries)
    (imm : Immutable) :
    db.installFlushedTable imm t now = (DB.publishReadState { db with
      immutable := db.immutable.eraseP fun i => i.table = imm.table
      levels := levelsOf files (db.updatedMeta t now)
      tableMeta := orderTableMetaForManifest (db.updatedMeta t now) }, true) := by
  have hbuild : buildLevelState (db.updatedMeta t now) (t :: db.sstables) =
      some (levelsOf files (db.updatedMeta t now)) := by
    have htable : tableOf files (tableMetaFromSST t 0 now) = t := by
      unfold tableOf tableMetaFromSST
      rw [ht]
      rfl
    -- every table of the list is the one of a manifest entry
    have hmem : ∀ t', t' ∈ t :: db.sstables ↔ ∃ m ∈ db.updatedMeta t now, tableOf files m = t' := by
      intro t'
      rw [DB.sstables, hlevels, List.mem_cons, mem_levelsOf_tables]
      simp only [DB.updatedMeta, List.mem_cons, exists_eq_or_imp, htable, eq_comm]
    refine buildLevelState_eq fun m hm => ?_
    refine tableByName_eq_some (t := tableOf files m) ((hmem _).mpr ⟨m, hm, rfl⟩) ?_
    intro t' ht' hpath
    obtain ⟨m', hm', rfl⟩ := (hmem t').mp ht'
    rw [hwf.distinct.eq hm' hm hpath]
  simp only [DB.installFlushedTable, hbuild]

/-! ### Failed installs -/

/-- Why `installFlushedTable` fails. -/
inductive InstallError where
  | nilManifest
  | manifestWrite
  | levelState
deriving DecidableEq

/-- `installFlushedTable` with the table list of the manifest in memory, when writing the manifest
file may fail. The memtable leaves the immutable ones and `ReplaceTables` stores the new list before
the steps that can fail; a nil manifest refuses the list. -/
def installWithManifest (db : DB) (manifest : Option (List TableMeta)) (imm : Immutable) (t : Table)
    (now : ℤ) (written : Bool) : Except InstallError Unit × DB × Option (List TableMeta) :=
  let db' := { db with immutable := db.immutable.eraseP fun i => i.table = imm.table }
  match manifest with
  | none => (.error .nilManifest, db', none)
  | some _ =>
    let manifest' := some (db.updatedMeta t now)
    if written = false then (.error .manifestWrite, db', manifest')
    else match buildLevelState (db.updatedMeta t now) (t :: db.sstables) with
      | none => (.error .levelState, db', manifest')
      | some levels => (.ok (), DB.publishReadState { db' with
          levels := levels
          tableMeta := orderTableMetaForManifest (db.updatedMeta t now) }, manifest')

/-- With the manifest written it is `installFlushedTable`. -/
theorem installWithManifest_written (db : DB) (tables : List TableMeta) (imm : Immutable)
    (t : Table) (now : ℤ) :
    (db.installWithManifest (some tables) imm t now true).2.1 =
        (db.installFlushedTable imm t now).1 ∧
      ((db.installWithManifest (some tables) imm t now true).1 = .ok () ↔
        (db.installFlushedTable imm t now).2 = true) := by
  unfold installWithManifest installFlushedTable
  dsimp only
  rw [if_neg (by simp)]
  cases buildLevelState (db.updatedMeta t now) (t :: db.sstables) <;> simp

/-- The parts of the state that an install is to change as a whole or not at all. -/
structure SameState (db db' : DB) (manifest manifest' : Option (List TableMeta)) : Prop where
  immutable_eq : db'.immutable = db.immutable
  sstables_eq : db'.sstables = db.sstables
  levels_eq : db'.levels = db.levels
  tableMeta_eq : db'.tableMeta = db.tableMeta
  manifest_eq : manifest' = manifest
  reads_eq : ∀ k, db'.publishReadState.get k = db.publishReadState.get k

/-- What a failed install leaves behind, whichever step failed. -/
theorem installWithManifest_error {db db' : DB} {manifest manifest' : Option (List TableMeta)}
    {imm : Immutable} {t : Table} {now : ℤ} {written : Bool} {e : InstallError}
    (h : db.installWithManifest manifest imm t now written = (.error e, db', manifest')) :
    db' = { db with immutable := db.immutable.eraseP fun i => i.table = imm.table } ∧
      manifest' = manifest.map fun _ => db.updatedMeta t now := by
  -- three places can fail: no manifest, its write, and the building of the levels after it
  unfold installWithManifest at h
  cases manifest with
  | none =>
    simp only [Prod.mk.injEq] at h
    exact ⟨h.2.1.symm, h.2.2.symm⟩
  | some tables =>
    dsimp only at h
    split_ifs at h with hwritten
    · simp only [Prod.mk.injEq] at h
      exact ⟨h.2.1.symm, h.2.2.symm⟩
    · cases hbuild : buildLevelState (db.updatedMeta t now) (t :: db.sstables) with
      | none =>
        simp only [hbuild, Prod.mk.injEq] at h
        exact ⟨h.2.1.symm, h.2.2.symm⟩
      | some levels => simp [hbuild] at h

/-- **A failed install leaves the state as it was exactly if it had nothing to remove and nothing to
record**: the memtable is not among the immutable ones, and the manifest is nil or already lists the
new table in front of the others. -/
theorem failed_install_atomic_iff {db db' : DB} {manifest manifest' : Option (List TableMeta)}
    {imm : Immutable} {t : Table} {now : ℤ} {written : Bool} {e : InstallError}
    (h : db.installWithManifest manifest imm t now written = (.error e, db', manifest')) :
    SameState db db' manifest manifest' ↔
      (∀ i ∈ db.immutable, i.table ≠ imm.table) ∧
        ∀ tables, manifest = some tables → tables = tableMetaFromSST t 0 now :: db.tableMeta := by
  obtain ⟨rfl, rfl⟩ := installWithManifest_error h
  -- removing the memtable changes the list exactly if the memtable is on it
  have herase : (db.immutable.eraseP fun i => i.table = imm.table) = db.immutable ↔
      ∀ i ∈ db.immutable, i.table ≠ imm.table := by
    rw [List.eraseP_eq_self_iff]
    simp
  refine ⟨fun hs => ⟨herase.mp hs.immutable_eq, ?_⟩, ?_⟩
  · rintro tables rfl
    exact (Option.some.inj hs.manifest_eq).symm
  · rintro ⟨hnone, hmanifest⟩
    rw [herase.mpr hnone]
    refine ⟨rfl, rfl, rfl, rfl, ?_, fun _ => rfl⟩
    cases manifest with
    | none => rfl
    | some tables => exact congrArg some (hmanifest tables rfl).symm

/-- A store with an empty active memtable and one immutable memtable that holds one entry. -/
def waitingDB : DB :=
  DB.publishReadState
    { memtableMaxBytes := 1
      valueThreshold := 1
      heap := fun a => if a = 0 then [([107], [1])] else []
      next := 2
      memtable := some 1
      memtableBytes := 0
      activeWal := some (walID 2)
      currentWalPaths := [walID 2]
      immutable := [⟨0, [walID 1]⟩]
      levels := []
      tableMeta := []
      valueLog := Vlog.Log.openEmpty 1 1
      flushErr := none
      closed := false
      readState := ⟨false, none, [], []⟩ }

/-- The table of its immutable memtable. -/
def waitingTable : Table := ⟨sstableID 1, OrdMap.empty.insert [107] [1]⟩

/-- A failed install of a memtable that is not there, under a manifest that is ahead. -/
theorem failed_install_atomic_iff_absent : ∃ db' manifest',
    waitingDB.installWithManifest (some [tableMetaFromSST waitingTable 0 0]) ⟨5, []⟩ waitingTable 0
        false = (.error .manifestWrite, db', manifest') ∧
      SameState waitingDB db' (some [tableMetaFromSST waitingTable 0 0]) manifest' := by
  have h : waitingDB.installWithManifest (some [tableMetaFromSST waitingTable 0 0]) ⟨5, []⟩
      waitingTable 0 false = (.error .manifestWrite, _, _) := rfl
  refine ⟨_, _, h, (failed_install_atomic_iff h).mpr ⟨?_, ?_⟩⟩
  · simp [waitingDB, publishReadState]
  · rintro tables ⟨rfl⟩
    rfl

/-- **A failed manifest write hides acknowledged writes.** The memtable has left the immutable list
and its table is in no level, so the next publication makes its key read as absent. -/
theorem failed_install_hides_write : ∃ db' manifest',
    waitingDB.installWithManifest (some []) ⟨0, [walID 1]⟩ waitingTable 0 false =
        (.error .manifestWrite, db', manifest') ∧
      waitingDB.get [107] = .ok (some [1]) ∧ db'.get [107] = .ok (some [1]) ∧
      db'.publishReadState.get [107] = .ok none ∧ manifest' ≠ some [] :=
  ⟨_, _, rfl, rfl, rfl, rfl, by simp [updatedMeta]⟩

end DB

end Seol
