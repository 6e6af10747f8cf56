import Seol.Db.State

/-!
# Opening a store

Reference: `openDB`, `replayWALs` and `scanDataFiles` in `db.go`, `openManifest` in `manifest.go`. The
manifest is turned into levels, the value log is opened, every WAL is replayed into one memtable in the
order of the names, and a new WAL is created.
-/

namespace Seol

open Common Vlog

/-- The files of a store's directory. -/
structure Dir where
  tables : TableFiles
  wals : OrdMap Bytes Bytes
  segments : OrdMap UInt64 Bytes
  manifest : Option (List TableMeta)

/-- An empty directory. -/
def Dir.empty : Dir := ⟨OrdMap.empty, OrdMap.empty, OrdMap.empty, none⟩

/-- The clock readings of one `openDB`: for a first value-log segment, for the appends of the replay,
for the new WAL, and for tables whose name is no timestamp. -/
structure OpenClock where
  segment : UInt64
  appends : List UInt64
  wal : ℕ
  table : ℤ

/-- Why `openDB` fails when no file operation does. -/
inductive OpenError where
  | missingTable
  | valueLog (e : LogError)
  | replay (e : WalError StoreError)
  | walExists

/-- `rebuildManifestStateFromDisk`: every table at level 0, the greatest name first. -/
def rebuildManifestStateFromDisk (tables : TableFiles) (now : ℤ) : List TableMeta :=
  tables.entries.reverse.map fun e => tableMetaFromSST ⟨e.1, e.2⟩ 0 now

/-- The tables `openManifest` finds. -/
def openManifest (dir : Dir) (now : ℤ) : List TableMeta :=
  dir.manifest.getD (rebuildManifestStateFromDisk dir.tables now)

/-- The state of `replayWALs`: the value log, the memtable, its bytes and the readings to come. -/
structure Replay where
  log : Log
  memtable : Memtable
  bytes : ℕ
  clock : List UInt64

/-- The callback of `replayWALs`. -/
def replayRecord (valueThreshold : ℕ) (s : Replay) (r : Bytes × Bytes) : Except StoreError Replay :=
  match storeValueForLSM s.log valueThreshold r.1 r.2 (s.clock.headD 0) none with
  | (.error e, _) => .error e
  | (.ok stored, log) => .ok ⟨log, s.memtable ++ [(r.1, stored)],
      s.bytes + memtableEntrySize r.1 r.2, s.clock.tail⟩

/-- `replayWALs`, on the contents of the files. -/
def replayWALs (valueThreshold : ℕ) (files : List Bytes) (s : Replay) :
    Except (WalError StoreError) Replay :=
  files.foldlM (fun s file => replayWAL (replayRecord valueThreshold) file s) s

/-- The names of the WAL files, ascending. -/
def Dir.walNames (dir : Dir) : List Bytes := dir.wals.entries.map Prod.fst

/-- The store that `openDB` builds from its parts. -/
def openedDB (opts : Options) (walPaths : List Bytes) (wal : Bytes) (levels : List LevelState)
    (tableMeta : List TableMeta) (r : Replay) : DB :=
  DB.publishReadState
    { memtableMaxBytes := size opts.memtableMaxBytes
      valueThreshold := size opts.valueThreshold
      heap := Function.update (fun _ => []) 0 r.memtable
      next := 1
      memtable := some 0
      memtableBytes := r.bytes
      activeWal := some wal
      currentWalPaths := walPaths ++ [wal]
      immutable := []
      levels := levels
      tableMeta := orderTableMetaForManifest tableMeta
      valueLog := r.log
      flushErr := none
      closed := false
      readState := ⟨false, none, [], []⟩ }

/-- `openDB`: the store and the directory it leaves. -/
def openDB (dir : Dir) (opts : Options) (clock : OpenClock) : Except OpenError (DB × Dir) :=
  let opts := normalizeOptions opts
  let tableMeta := openManifest dir clock.table
  let wal := walID clock.wal
  match loadLevels dir.tables tableMeta with
  | none => .error .missingTable
  | some levels =>
    match Log.open opts.valueLogSegmentMaxBytes.toInt dir.segments clock.segment with
    | .error e => .error (.valueLog e)
    | .ok log =>
      match replayWALs (size opts.valueThreshold) (dir.wals.entries.map Prod.snd)
          ⟨log, [], 0, clock.appends⟩ with
      | .error e => .error (.replay e)
      | .ok r =>
        if (dir.wals.get wal).isSome then .error .walExists
        else .ok (openedDB opts dir.walNames wal levels tableMeta r,
          { dir with
            manifest := some tableMeta
            wals := dir.wals.insert wal []
            segments := r.log.files })

/-- `openDB` succeeds when each of its parts does. -/
theorem openDB_eq_ok {dir d : Dir} {opts : Options} {clock : OpenClock} {db : DB} :
    openDB dir opts clock = .ok (db, d) ↔ ∃ levels log r,
      loadLevels dir.tables (openManifest dir clock.table) = some levels ∧
      Log.open (normalizeOptions opts).valueLogSegmentMaxBytes.toInt dir.segments clock.segment =
        .ok log ∧
      replayWALs (size (normalizeOptions opts).valueThreshold) (dir.wals.entries.map Prod.snd)
        ⟨log, [], 0, clock.appends⟩ = .ok r ∧
      dir.wals.get (walID clock.wal) = none ∧
      db = openedDB (normalizeOptions opts) dir.walNames (walID clock.wal) levels
        (openManifest dir clock.table) r ∧
      d = { dir with
        manifest := some (openManifest dir clock.table)
        wals := dir.wals.insert (walID clock.wal) []
        segments := r.log.files } := by
  constructor
  -- the parts in the order `Open` runs them; the first one that fails ends it
  · intro h
    simp only [openDB] at h
    cases hl : loadLevels dir.tables (openManifest dir clock.table) with
    | none => simp [hl] at h
    | some levels =>
      simp only [hl] at h
      cases hlog : Log.open (normalizeOptions opts).valueLogSegmentMaxBytes.toInt dir.segments
          clock.segment with
      | error e => simp [hlog] at h
      | ok log =>
        simp only [hlog] at h
        cases hr : replayWALs (size (normalizeOptions opts).valueThreshold)
            (dir.wals.entries.map Prod.snd) ⟨log, [], 0, clock.appends⟩ with
        | error e => simp [hr] at h
        | ok r =>
          simp only [hr] at h
          split_ifs at h with hw
          simp only [Except.ok.injEq, Prod.mk.injEq] at h
          exact ⟨levels, log, r, rfl, rfl, hr, by simpa using hw, h.1.symm, h.2.symm⟩
  · rintro ⟨levels, log, r, hl, hlog, hr, hw, rfl, rfl⟩
    simp [openDB, hl, hlog, hr, hw]

/-- A directory whose manifest names a missing table cannot be opened. -/
theorem openDB_ne_ok_of_missing {dir : Dir} {ms : List TableMeta} (hmanifest : dir.manifest = some ms)
    {m : TableMeta} (hm : m ∈ ms) (hgone : dir.tables.get m.filename = none) (opts : Options)
    (clock : OpenClock) (db : DB) (d : Dir) : openDB dir opts clock ≠ .ok (db, d) := by
  intro hopen
  obtain ⟨levels, -, -, hlevels, -⟩ := openDB_eq_ok.mp hopen
  rw [openManifest, hmanifest, Option.getD_some, loadLevels, openSSTablesFromMeta,
    mapM_eq_none hm (by rw [hgone]; rfl)] at hlevels
  simp at hlevels

/-- What a store has selected right after it was opened: the replayed memtable over the levels. -/
theorem openedDB_view (opts : Options) (walPaths : List Bytes) (wal : Bytes)
    (levels : List LevelState) (tableMeta : List TableMeta) (r : Replay) (k : Bytes) :
    (openedDB opts walPaths wal levels tableMeta r).view k =
      readStoredValue r.log ((r.memtable.get k).or (lookupLevels Table.find levels k)) := by
  simp only [DB.view, DB.lookup, ReadState.select_eq]
  simp only [openedDB, DB.publishReadState, DB.snapshotReadState, Bool.false_eq_true, if_false,
    Option.bind_some, Function.update_self, List.reverse_nil, List.findSome?_nil, Option.or_none]

end Seol
