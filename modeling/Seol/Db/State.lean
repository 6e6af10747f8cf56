import Seol.Manifest
import Seol.Options
import Seol.Vlog.Open
import Seol.Wal

/-!
# The state of an open store

Reference: `db.go`. A memtable is the sequence of the puts it received, and takes any put: the room in
its arena and the width of its key sizes are the subject of the skiplist's modules and of `Db.Capacity`.
Memtables are reached through addresses, since a published read state keeps pointing at a memtable that
still takes writes. The fields of `DB` are those its methods read and write under `db.mu`; the functions
here are the critical sections of the writer, the flush loop, `Close` and `Get`.
-/

namespace Seol

open Common Vlog

/-- A memtable as its puts, in order. -/
abbrev Memtable := List (Bytes × Bytes)

namespace Memtable

/-- `Skiplist.Get`: the value of the last put to a key. -/
def get (m : Memtable) (k : Bytes) : Option Bytes := lastOf m k

/-- The entries `sstable.Flush` finds in a memtable, by key. -/
def entries (m : Memtable) : OrdMap Bytes Bytes := OrdMap.empty.insertAll m

end Memtable

/-- `immutableMemtable`: the address of a memtable and the WAL files that hold its writes. -/
structure Immutable where
  table : ℕ
  walPaths : List Bytes
deriving DecidableEq

/-- `dbReadState`. The value log is the one of the store, which only grows. -/
structure ReadState where
  closed : Bool
  memtable : Option ℕ
  immutable : List Immutable
  levels : List LevelState

/-- What may be kept in `flushErr` when no file operation fails other than a flush. -/
inductive FlushError where
  | store (e : StoreError)
  | flushMemtable
  | levelState
deriving DecidableEq

/-- `DB`. -/
structure DB where
  memtableMaxBytes : ℕ
  valueThreshold : ℕ
  heap : ℕ → Memtable
  next : ℕ
  memtable : Option ℕ
  memtableBytes : ℕ
  activeWal : Option Bytes
  currentWalPaths : List Bytes
  immutable : List Immutable
  levels : List LevelState
  tableMeta : List TableMeta
  valueLog : Log
  flushErr : Option FlushError
  closed : Bool
  readState : ReadState

/-- Why `Get` fails. -/
inductive GetError where
  | closed
  | store (e : StoreError)
deriving DecidableEq

/-- `readStoredValue` on the entry a lookup selected; no entry is a nil value, like a deleted one. -/
def readStoredValue (log : Log) : Option Bytes → Except GetError (Option Bytes)
  | none => .ok none
  | some stored => (resolveStoredValue log stored).mapError GetError.store

namespace ReadState

/-- The flat table list that `buildLevelState` returns with the levels. -/
def sstables (s : ReadState) : List Table := s.levels.flatMap LevelState.tables

/-- The stored entry `Get` selects from a read state: the memtable, then the immutable memtables from
the newest to the oldest, then the levels, else the flat list. -/
def select (read : Table → Bytes → Option Bytes) (heap : ℕ → Memtable) (s : ReadState) (k : Bytes) :
    Option Bytes :=
  ((s.memtable.bind fun a => (heap a).get k).or
    (s.immutable.reverse.findSome? fun imm => (heap imm.table).get k)).or
    (if s.levels.isEmpty then firstHit read s.sstables k else lookupLevels read s.levels k)

/-- The flat list is only searched when it is empty, so the levels decide. -/
theorem select_eq (read : Table → Bytes → Option Bytes) (heap : ℕ → Memtable) (s : ReadState)
    (k : Bytes) : s.select read heap k = ((s.memtable.bind fun a => (heap a).get k).or
      (s.immutable.reverse.findSome? fun imm => (heap imm.table).get k)).or
      (lookupLevels read s.levels k) := by
  rw [select]
  cases hl : s.levels with
  | nil => simp [sstables, hl, firstHit, lookupLevels]
  | cons l ls => rfl

/-- **Leveled lookup equals the plain search.** If the metadata of every deeper level is sorted by
its lower bounds, with disjoint ranges whose bounds are true of the tables, `lookupLevels` returns
for every key what the loop over the flat table list returns. -/
theorem lookup_levels_eq_flat (s : ReadState) (log : Log)
    (h : ∀ l ∈ s.levels, l.level ≠ 0 → SearchableLevel l) (k : Bytes) :
    readStoredValue log (lookupLevels Table.get s.levels k) =
      readStoredValue log (firstHit Table.get s.sstables k) := by
  rw [lookupLevels_eq_firstHit h sound_get, sstables]

/-- A level 1 of two tables. -/
def twoTables : ReadState where
  closed := false
  memtable := none
  immutable := []
  levels := [⟨1, [⟨[1], 1, [1], [3], 0⟩, ⟨[2], 1, [5], [5], 0⟩],
    [⟨[1], OrdMap.empty.insert [1] [7] |>.insert [3] [8]⟩, ⟨[2], OrdMap.empty.insert [5] [9]⟩]⟩]

theorem twoTables_searchable : ∀ l ∈ twoTables.levels, l.level ≠ 0 → SearchableLevel l := by
  intro l hl _
  obtain rfl := List.mem_singleton.mp hl
  have hfirst : Describes ⟨[1], 1, [1], [3], 0⟩
      ⟨[1], OrdMap.empty.insert [1] [7] |>.insert [3] [8]⟩ := ⟨rfl, by decide, rfl, rfl⟩
  have hsecond : Describes ⟨[2], 1, [5], [5], 0⟩ ⟨[2], OrdMap.empty.insert [5] [9]⟩ :=
    ⟨rfl, by decide, rfl, rfl⟩
  exact ⟨.cons hfirst.trueBounds (.cons hsecond.trueBounds .nil), by decide, by decide⟩

/-- The key of the second table of a level, and a key in the gap between the two. -/
theorem lookup_levels_eq_flat_two :
    readStoredValue (Log.openEmpty 1 1) (lookupLevels Table.get twoTables.levels [5]) =
        readStoredValue (Log.openEmpty 1 1) (firstHit Table.get twoTables.sstables [5]) ∧
      readStoredValue (Log.openEmpty 1 1) (lookupLevels Table.get twoTables.levels [4]) =
        readStoredValue (Log.openEmpty 1 1) (firstHit Table.get twoTables.sstables [4]) :=
  ⟨lookup_levels_eq_flat twoTables _ twoTables_searchable [5],
    lookup_levels_eq_flat twoTables _ twoTables_searchable [4]⟩

end ReadState

namespace DB

/-- `snapshotReadStateLocked`. -/
def snapshotReadState (db : DB) : ReadState := ⟨db.closed, db.memtable, db.immutable, db.levels⟩

/-- `publishReadStateLocked`. -/
def publishReadState (db : DB) : DB := { db with readState := db.snapshotReadState }

/-- `Get`, with the tables answering by `read`. -/
def lookup (read : Table → Bytes → Option Bytes) (db : DB) (k : Bytes) :
    Except GetError (Option Bytes) :=
  if db.readState.closed then .error .closed
  else readStoredValue db.valueLog (db.readState.select read db.heap k)

/-- `Get`. -/
def get (db : DB) (k : Bytes) : Except GetError (Option Bytes) := db.lookup Table.get k

/-- The resolved view of the store, each table read as the finite map of its entries. -/
def view (db : DB) (k : Bytes) : Except GetError (Option Bytes) := db.lookup Table.find k

/-- `memtable.Put` through the address `a`. -/
def putMemtable (db : DB) (a : ℕ) (k stored : Bytes) : DB :=
  { db with heap := Function.update db.heap a (db.heap a ++ [(k, stored)]) }

@[simp] theorem putMemtable_heap_self (db : DB) (a : ℕ) (k stored : Bytes) :
    (db.putMemtable a k stored).heap a = db.heap a ++ [(k, stored)] := Function.update_self ..

theorem putMemtable_heap_of_ne (db : DB) {a b : ℕ} (h : b ≠ a) (k stored : Bytes) :
    (db.putMemtable a k stored).heap b = db.heap b := Function.update_of_ne h _ _

/-- `setFlushErrIfNil`: the store with an error kept, and the error that is kept. -/
def setFlushErrIfNil (db : DB) (e : FlushError) : DB × FlushError :=
  ({ db with flushErr := some (db.flushErr.getD e) }, db.flushErr.getD e)

/-- The generation `rotateMemtable` and `Close` hand to the flush loop. -/
def toFlush (db : DB) (a : ℕ) : Immutable := ⟨a, db.currentWalPaths⟩

/-- `rotateMemtable` once the next WAL is created: the memtable at `a` becomes immutable, a fresh one
active. -/
def rotateMemtable (db : DB) (a : ℕ) (nextWal : Bytes) : DB :=
  { DB.publishReadState { db with
      immutable := db.immutable ++ [db.toFlush a]
      memtable := some db.next
      activeWal := some nextWal
      currentWalPaths := [nextWal]
      heap := Function.update db.heap db.next []
      next := db.next + 1 } with
    memtableBytes := 0 }

@[simp] theorem rotateMemtable_heap_next (db : DB) (a : ℕ) (wal : Bytes) :
    (db.rotateMemtable a wal).heap db.next = [] := Function.update_self ..

theorem rotateMemtable_heap_of_lt (db : DB) {b : ℕ} (h : b < db.next) (a : ℕ) (wal : Bytes) :
    (db.rotateMemtable a wal).heap b = db.heap b := Function.update_of_ne h.ne _ _

/-- The flat table list that `buildLevelState` returns with the levels. -/
def sstables (db : DB) : List Table := db.levels.flatMap LevelState.tables

/-- The metadata `installFlushedTable` writes to the manifest. -/
def updatedMeta (db : DB) (t : Table) (now : ℤ) : List TableMeta :=
  tableMetaFromSST t 0 now :: db.tableMeta

/-- `installFlushedTable` when the manifest is written: drop the memtable from the immutable ones and
publish the new levels. The flag is false when `buildLevelState` fails. -/
def installFlushedTable (db : DB) (imm : Immutable) (t : Table) (now : ℤ) : DB × Bool :=
  let db' := { db with immutable := db.immutable.eraseP fun i => i.table = imm.table }
  match buildLevelState (db.updatedMeta t now) (t :: db.sstables) with
  | none => (db', false)
  | some levels => (DB.publishReadState { db' with
      levels := levels
      tableMeta := orderTableMetaForManifest (db.updatedMeta t now) }, true)

/-- `markClosed`. -/
def markClosed (db : DB) : DB := DB.publishReadState { db with closed := true }

end DB

end Seol
