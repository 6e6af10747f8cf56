import Seol.Common.Checked
import Seol.Common.Generations
import Seol.Db.Install
import Seol.Db.Step

/-!
# The invariant of the running store

Every write that counts is either in the tables or in the WAL files of exactly one memtable generation.
The generations are those of `Common.Generations`: memtables whose flush failed, WAL files of an
installed memtable that are still to be removed, memtables on their way to the flush loop, and the
active memtable. `Live` ties them to the state of a running process, `Recoverable` to a directory
without one.
-/

namespace Seol

open Common Vlog

/-! ## Records of WAL files -/

/-- The records of a WAL file. -/
def walRecords (file : Bytes) : List (Bytes × Bytes) := (scanRecords file).1

/-- What every record of a replay keeps, a replay of files keeps for all their records. -/
theorem replayWALs_induction {valueThreshold : ℕ} {P : List (Bytes × Bytes) → Replay → Prop}
    (hstep : ∀ rs r s s', P rs s → replayRecord valueThreshold s r = .ok s' → P (rs ++ [r]) s')
    {files : List Bytes} {s s' : Replay} (hs : P [] s)
    (h : replayWALs valueThreshold files s = .ok s') : P (files.flatMap walRecords) s' := by
  -- a file is replayed record by record; that it is replayed to its end is checked after them
  have hfile : ∀ files file s s', P (files.flatMap walRecords) s →
      replayWAL (replayRecord valueThreshold) file s = .ok s' →
        P ((files ++ [file]).flatMap walRecords) s' := by
    intro files file s s' hs hreplay
    unfold replayWAL at hreplay
    split at hreplay
    · cases hreplay
    · next s₁ hfold =>
      split_ifs at hreplay
      cases hreplay
      rw [List.flatMap_append, List.flatMap_singleton]
      exact foldlM_induction hstep hs hfold
  exact foldlM_induction (P := fun files s => P (files.flatMap walRecords) s) (l := []) hfile hs h

/-- The records of WAL files one after the other. -/
def recordsOf (wals : OrdMap Bytes Bytes) (paths : List Bytes) : List (Bytes × Bytes) :=
  paths.flatMap fun path => walRecords ((wals.get path).getD [])

section Records

variable {wals : OrdMap Bytes Bytes} {paths paths' : List Bytes} {path file : Bytes}

theorem WalHolds.walRecords_eq {rs : List (Bytes × Bytes)} (h : WalHolds file rs) :
    walRecords file = rs := by
  obtain ⟨tail, hscan, -⟩ := h.scan
  rw [walRecords, hscan]

@[simp] theorem recordsOf_nil (wals : OrdMap Bytes Bytes) : recordsOf wals [] = [] := rfl

theorem recordsOf_append : recordsOf wals (paths ++ paths') =
    recordsOf wals paths ++ recordsOf wals paths' := List.flatMap_append

theorem recordsOf_cons : recordsOf wals (path :: paths) =
    recordsOf wals [path] ++ recordsOf wals paths := by
  rw [← List.singleton_append, recordsOf_append]

theorem recordsOf_singleton (h : wals.get path = some file) :
    recordsOf wals [path] = walRecords file := by
  simp [recordsOf, h]

/-- The records depend only on the files named. -/
theorem recordsOf_congr {wals' : OrdMap Bytes Bytes}
    (h : ∀ path ∈ paths, wals'.get path = wals.get path) :
    recordsOf wals' paths = recordsOf wals paths := by
  unfold recordsOf
  rw [List.flatMap_def, List.flatMap_def]
  congr 1
  exact List.map_congr_left fun path hp => by rw [h path hp]

theorem recordsOf_insert (hp : path ∉ paths) (file : Bytes) :
    recordsOf (wals.insert path file) paths = recordsOf wals paths :=
  recordsOf_congr fun p hp' => by rw [OrdMap.get_insert, if_neg (by rintro rfl; exact hp hp')]

theorem recordsOf_erase (hp : path ∉ paths) :
    recordsOf (wals.erase path) paths = recordsOf wals paths :=
  recordsOf_congr fun p hp' => by rw [OrdMap.get_erase, if_neg (by rintro rfl; exact hp hp')]

theorem mem_recordsOf {r : Bytes × Bytes} (h : r ∈ recordsOf wals paths) :
    ∃ e ∈ wals.entries, r ∈ walRecords e.2 := by
  obtain ⟨path, -, hr⟩ := List.mem_flatMap.mp h
  cases hg : wals.get path with
  | none =>
    rw [hg] at hr
    exact absurd hr (by simp [walRecords, scanRecords, scanFuel])
  | some file =>
    rw [hg] at hr
    exact ⟨(path, file), OrdMap.get_eq_some_iff.mp hg, hr⟩

end Records

/-- The names of the files of a map. -/
def names (wals : OrdMap Bytes Bytes) : List Bytes := wals.entries.map Prod.fst

section Names

variable {wals : OrdMap Bytes Bytes} {path file : Bytes}

theorem names_nodup (wals : OrdMap Bytes Bytes) : (names wals).Nodup :=
  List.pairwise_map.mpr (wals.sorted.imp fun h => h.ne)

theorem mem_names_iff : path ∈ names wals ↔ ∃ file, wals.get path = some file := by
  constructor
  · intro h
    obtain ⟨e, he, rfl⟩ := List.mem_map.mp h
    exact ⟨e.2, OrdMap.get_eq_some_iff.mpr he⟩
  · rintro ⟨file, h⟩
    exact List.mem_map_of_mem (OrdMap.get_eq_some_iff.mp h)

/-- Overwriting a file keeps the names. -/
theorem names_insert_of_mem (h : path ∈ names wals) (file : Bytes) :
    names (wals.insert path file) = names wals := by
  obtain ⟨e, he, rfl⟩ := List.mem_map.mp h
  unfold names
  change (insertList _ _ _).map Prod.fst = _
  rw [insertList_eq_map wals.sorted ⟨e, he, rfl⟩, List.map_map]
  refine List.map_congr_left fun e' _ => ?_
  dsimp only [Function.comp_apply]
  split_ifs with heq
  · exact heq.symm
  · rfl

/-- A file with a greater name than all others comes last. -/
theorem names_insert_of_lt (h : ∀ p ∈ names wals, p < path) (file : Bytes) :
    names (wals.insert path file) = names wals ++ [path] := by
  unfold names
  change (insertList _ _ _).map Prod.fst = _
  rw [insertList_of_forall_lt fun e he => h e.1 (List.mem_map_of_mem he), List.map_append]
  rfl

theorem names_erase (wals : OrdMap Bytes Bytes) (path : Bytes) :
    names (wals.erase path) = (names wals).filter (· ≠ path) := by
  unfold names OrdMap.erase
  rw [List.filter_map]
  refine congrArg (List.map Prod.fst) (List.filter_congr fun e _ => ?_)
  simp

/-- Erasing a name from a list of distinct names. -/
theorem names_erase_middle {as bs : List Bytes} (h : names wals = as ++ path :: bs) :
    names (wals.erase path) = as ++ bs := by
  have hn := names_nodup wals
  rw [h] at hn
  obtain ⟨-, hbs, hdisj⟩ := List.nodup_append.mp hn
  rw [names_erase, h, List.filter_append, List.filter_cons, if_neg (by simp)]
  -- the name occurs once, so the filter keeps everything before and behind it
  rw [List.filter_eq_self.mpr, List.filter_eq_self.mpr]
  · intro b hb
    have : b ≠ path := by
      rintro rfl
      exact (List.nodup_cons.mp hbs).1 hb
    simpa using this
  · intro a ha
    simpa using hdisj a ha path List.mem_cons_self

end Names

/-! ## The parts of the invariant -/

/-- The records a run may submit: sendable ones, with a value that is not empty where `gets`, that is
where `Get` may be called. -/
structure Good (gets : Prop) (r : Bytes × Bytes) : Prop where
  sendable : Sendable r
  ne_nil : gets → r.2 ≠ []

/-- Every WAL file replays, under a name of nineteen digits. -/
structure WalsOK (gets : Prop) (wals : OrdMap Bytes Bytes) : Prop where
  holds : ∀ e ∈ wals.entries, WalHolds e.2 (walRecords e.2)
  named : ∀ e ∈ wals.entries, ∃ t, NineteenDigits t ∧ e.1 = walID t
  good : ∀ e ∈ wals.entries, ∀ r ∈ walRecords e.2, Good gets r

/-- An entry of a table: its lengths fit the format, and where `gets` its value is not empty. -/
structure EntryOK (gets : Prop) (e : Bytes × Bytes) : Prop where
  fits : LengthsFit e
  ne_nil : gets → e.2 ≠ []

/-- The tables of the manifest are in the directory, and their levels answer like the map `T` of good
records. -/
structure TablesOK (gets : Prop) (tables : TableFiles) (manifest : Option (List TableMeta))
    (log : Log) (metas : List TableMeta) (levels : List LevelState) (T : Bytes → Option Bytes) : Prop
    where
  wellFormed : WellFormed tables metas
  levels_eq : levels = levelsOf tables metas
  manifest_eq : ∃ ms, manifest = some ms ∧ ms.Perm metas
  reads : Reads log (lookupLevels Table.find levels) T
  records : ∀ k v, T k = some v → Good gets (k, v)
  entries : ∀ m ∈ metas, ∀ e ∈ (tableOf tables m).entries.entries, EntryOK gets e

/-- The tables of a manifest are named by the timestamps that order them. -/
def Stamped (metas : List TableMeta) : Prop :=
  ∀ m ∈ metas, ∃ t : ℕ, m.filename = sstableID t ∧ m.createdAt = t

/-- Memtables have addresses of their own. -/
structure HeapOK (next : ℕ) (immutable : List Immutable) (memtable : Option ℕ) : Prop where
  nodup : (immutable.map Immutable.table ++ memtable.toList).Nodup
  allocated : ∀ a ∈ immutable.map Immutable.table ++ memtable.toList, a < next

/-- An immutable memtable is not the active one. -/
theorem HeapOK.table_ne {next a : ℕ} {immutable : List Immutable} (h : HeapOK next immutable (some a))
    {imm : Immutable} (himm : imm ∈ immutable) : imm.table ≠ a :=
  (List.nodup_append.mp h.nodup).2.2 _ (List.mem_map_of_mem himm) a (by simp)

theorem HeapOK.table_lt {next : ℕ} {immutable : List Immutable} {memtable : Option ℕ}
    (h : HeapOK next immutable memtable) {imm : Immutable} (himm : imm ∈ immutable) :
    imm.table < next :=
  h.allocated _ (List.mem_append_left _ (List.mem_map_of_mem himm))

/-- A rotation retires the active memtable and takes the next address. -/
theorem HeapOK.rotate {next a : ℕ} {immutable : List Immutable} (h : HeapOK next immutable (some a))
    (paths : List Bytes) : HeapOK (next + 1) (immutable ++ [⟨a, paths⟩]) (some next) := by
  -- the fresh address `next` is none of those in use
  have hmap : (immutable ++ [Immutable.mk a paths]).map Immutable.table =
      immutable.map Immutable.table ++ [a] := by rw [List.map_append, List.map_singleton]
  refine ⟨?_, fun b hb => ?_⟩
  · rw [hmap]
    refine List.nodup_append.mpr ⟨h.nodup, List.nodup_singleton _, fun b hb c hc => ?_⟩
    rw [List.mem_singleton.mp hc]
    exact (h.allocated b hb).ne
  · rw [hmap] at hb
    rcases List.mem_append.mp hb with hb | hb
    · exact (h.allocated b hb).trans (Nat.lt_succ_self _)
    · rw [List.mem_singleton.mp hb]
      exact Nat.lt_succ_self _

/-- Memtables leave the immutable ones. -/
theorem HeapOK.sublist {next : ℕ} {immutable immutable' : List Immutable} {memtable : Option ℕ}
    (h : HeapOK next immutable memtable) (hsub : immutable'.Sublist immutable) :
    HeapOK next immutable' memtable := by
  have hsub' := (hsub.map Immutable.table).append (List.Sublist.refl memtable.toList)
  exact ⟨h.nodup.sublist hsub', fun a ha => h.allocated a (hsub'.subset ha)⟩

/-- A directory whose contents are those of `history`. -/
structure Recoverable (gets : Prop) (dir : Dir) (history : List Write) (log : Log)
    (T : Bytes → Option Bytes) : Prop where
  wals : WalsOK gets dir.wals
  log_ok : LogOK log
  segments_eq : dir.segments = log.files
  tables : ∃ metas, TablesOK gets dir.tables dir.manifest log metas (levelsOf dir.tables metas) T
  good : ∀ w ∈ history, w.Plain ∧ Good gets w.record
  view_eq : overlay (lastOf (recordsOf dir.wals (names dir.wals))) T =
    lastOf (history.map Write.record)

/-! ## What the goroutines hold -/

/-- The writes the writer has taken and not yet answered. -/
def Writer.unacked : Writer → List Write
  | .idle => []
  | .loop batch => batch
  | .preparing done rest _ => done.map Prod.fst ++ rest
  | .prepared done rest _ => done.map Prod.fst ++ rest
  | .applying todo rest _ => todo.map Prod.fst ++ rest
  | .rotating last rest => last :: rest
  | .sending _ last rest => last :: rest

/-- The requests whose values are stored. -/
def Writer.stores : Writer → List (Write × Bytes)
  | .preparing done _ _ => done
  | .prepared done _ _ => done
  | .applying todo _ _ => todo
  | _ => []

/-- The writes that are in the WAL but not yet in the memtable. -/
def Writer.logged : Writer → List Write
  | .applying todo _ _ => todo.map Prod.fst
  | _ => []

/-- The write that is in the memtable but not yet answered. -/
def Writer.applied : Writer → List Write
  | .rotating last _ => [last]
  | .sending _ last _ => [last]
  | _ => []

/-- The memtable the writer is handing to the flush loop. -/
def Writer.handing : Writer → List Immutable
  | .sending imm _ _ => [imm]
  | _ => []

/-- The memtable `Close` is handing to the flush loop. -/
def Closing.handing : Closing → List Immutable
  | .sending imm => [imm]
  | _ => []

/-- The memtable the flush loop is working on. -/
def Flusher.current : Flusher → List Immutable
  | .syncing imm => [imm]
  | .writing imm => [imm]
  | .installing imm _ => [imm]
  | _ => []

/-- The WAL files the flush loop has still to remove. -/
def Flusher.leftover : Flusher → List Bytes
  | .removing paths => paths
  | _ => []

/-- The memtables on their way through the flush loop, oldest first. -/
def Proc.pending (p : Proc) : List Immutable :=
  p.flusher.current ++ (p.flushCh ++ (p.writer.handing ++ p.closing.handing))

/-- The WAL files of a list of memtables. -/
def pathsOf (imms : List Immutable) : List Bytes := imms.flatMap Immutable.walPaths

@[simp] theorem pathsOf_nil : pathsOf [] = [] := rfl

theorem pathsOf_append (as bs : List Immutable) : pathsOf (as ++ bs) = pathsOf as ++ pathsOf bs :=
  List.flatMap_append

theorem pathsOf_cons (i : Immutable) (is : List Immutable) :
    pathsOf (i :: is) = i.walPaths ++ pathsOf is := rfl

/-- What the invariant keeps besides the state: the memtables whose flush failed, the WAL files of the
active memtable and the records in it, and the map of the tables. -/
structure Ghost where
  stuck : List Immutable
  cur : List Bytes
  applied : List (Bytes × Bytes)
  table : Bytes → Option Bytes

/-- The generations of a running store. -/
def Ghost.generations (g : Ghost) (wals : OrdMap Bytes Bytes) (leftover : List Bytes)
    (pending : List Immutable) : Generations Bytes Bytes where
  stuck := recordsOf wals (pathsOf g.stuck)
  leftover := recordsOf wals leftover
  waiting := pending.map fun imm => recordsOf wals imm.walPaths
  current := g.applied
  table := g.table

/-- The active memtable holds the records of its WAL files, less the ones still to be put; the last of
the files is the one being written and has no torn record. -/
structure ActiveAt (wals : OrdMap Bytes Bytes) (log : Log) (memtable : Memtable) (cur : List Bytes)
    (applied : List (Bytes × Bytes)) (logged : List Write) (wal : Bytes) : Prop where
  cur_last : ∃ pre, cur = pre ++ [wal]
  file : ∃ rs, wals.get wal = some (encodeRecords rs) ∧ ∀ r ∈ rs, LengthsFit r
  holds : Holds log memtable applied
  records : recordsOf wals cur = applied ++ logged.map Write.record

/-- The active memtable, or none after `Close` took it. -/
def ActiveOK (wals : OrdMap Bytes Bytes) (log : Log) (heap : ℕ → Memtable) (cur : List Bytes)
    (applied : List (Bytes × Bytes)) (logged : List Write) (memtable : Option ℕ)
    (activeWal : Option Bytes) (currentWalPaths : List Bytes) : Prop :=
  (∃ a wal, memtable = some a ∧ activeWal = some wal ∧ currentWalPaths = cur ∧
    ActiveAt wals log (heap a) cur applied logged wal) ∨
  (memtable = none ∧ activeWal = none ∧ currentWalPaths = [] ∧ applied = [] ∧ logged = [] ∧
    recordsOf wals cur = [])

/-- The table the flush loop is about to install. -/
structure InstallOK (tables : TableFiles) (metas : List TableMeta) (heap : ℕ → Memtable)
    (imm : Immutable) (t : Table) : Prop where
  written : ∃ now : ℕ, now < 2 ^ 63 ∧ t.path = sstableID now ∧ ∀ m ∈ metas, m.createdAt < now
  fresh : ∀ m ∈ metas, m.filename ≠ t.path
  entries_eq : t.entries = (heap imm.table).entries
  file : tables.get t.path = some t.entries

/-- A put or a rotation leaves the memtable of the table alone. -/
theorem InstallOK.congr {tables : TableFiles} {metas : List TableMeta} {heap heap' : ℕ → Memtable}
    {imm : Immutable} {t : Table} (h : InstallOK tables metas heap imm t)
    (hheap : heap' imm.table = heap imm.table) : InstallOK tables metas heap' imm t :=
  ⟨h.written, h.fresh, by rw [hheap]; exact h.entries_eq, h.file⟩

/-- How far `Close` has come. -/
structure ClosingOK (p : Proc) : Prop where
  published : p.db.readState.closed = false → p.db.readState = p.db.snapshotReadState
  closed : p.closing ≠ .no → p.db.closed = true ∧ p.db.readState.closed = true
  detached : (p.closing = .draining ∨ ∃ imm, p.closing = .sending imm) →
    p.writer = .idle ∧ p.queue = []
  attached : p.closing = .no ∨ p.closing = .marked → p.db.memtable ≠ none

/-- **The invariant of a running process** against the abstract store `s`. -/
structure Live (gets : Prop) (dir : Dir) (p : Proc) (s : Spec) (g : Ghost) : Prop where
  unacked_eq : s.unacked = p.writer.unacked ++ p.queue
  good : ∀ w ∈ s.history ++ s.unacked, w.Plain ∧ Good gets w.record
  stores : ∀ e ∈ p.writer.stores, Carries p.db.valueLog e.1.key e.2 e.1.raw
  immutable_eq : p.db.immutable = g.stuck ++ p.pending
  heap : HeapOK p.db.next p.db.immutable p.db.memtable
  names_eq : names dir.wals =
    pathsOf g.stuck ++ (p.flusher.leftover ++ (pathsOf p.pending ++ g.cur))
  wals : WalsOK gets dir.wals
  memtables : ∀ imm ∈ p.db.immutable, p.db.heap imm.table ≠ [] ∧
    Holds p.db.valueLog (p.db.heap imm.table) (recordsOf dir.wals imm.walPaths)
  active : ActiveOK dir.wals p.db.valueLog p.db.heap g.cur g.applied p.writer.logged p.db.memtable
    p.db.activeWal p.db.currentWalPaths
  rotating : ∀ last rest, p.writer = .rotating last rest → g.applied ≠ []
  tables : TablesOK gets dir.tables dir.manifest p.db.valueLog p.db.tableMeta p.db.levels g.table
  installing : ∀ imm t, p.flusher = .installing imm t →
    InstallOK dir.tables p.db.tableMeta p.db.heap imm t
  log : LogReady p.db.valueLog
  segments_eq : dir.segments = p.db.valueLog.files
  view_eq : (g.generations dir.wals p.flusher.leftover p.pending).view =
    lastOf ((s.history ++ p.writer.applied).map Write.record)
  safe : (g.generations dir.wals p.flusher.leftover p.pending).Safe
  stuck_nil : p.db.flushErr = none → g.stuck = []
  closing : ClosingOK p

/-! ## The conditions on a step -/

/-- No memtable that was rotated before `imm` and is still unflushed has one of its keys. -/
def OlderApart (db : DB) (imm : Immutable) : Prop :=
  ∀ older ∈ db.immutable.takeWhile (fun i => i.table ≠ imm.table), ∀ k,
    (db.heap older.table).get k = none ∨ (db.heap imm.table).get k = none

/-- The conditions on a step of a running process: submitted writes are good, clock readings move on,
a table is installed only when no older memtable has one of its keys, and `Get` is called only where
`gets`. -/
def Admissible (gets : Prop) (dir : Dir) (p : Proc) : Label → Prop
  | .submit w => w.Plain ∧ Good gets w.record
  | .store now => p.db.valueLog.active.id < now
  | .rotate now => NineteenDigits now ∧ ∀ t, walID t ∈ names dir.wals → t < now
  | .flush now => now < 2 ^ 63 ∧ ∀ m ∈ p.db.tableMeta, m.createdAt < now
  | .install => ∀ imm t, p.flusher = .installing imm t → OlderApart p.db imm
  | .get _ => gets
  | _ => True

/-- A flush takes a name that is not in the manifest. -/
def FreshFlush (p : Proc) : Label → Prop
  | .flush now => ∀ m ∈ p.db.tableMeta, m.filename ≠ sstableID now
  | _ => True

/-- A table named by its timestamp keeps its name from every later flush. -/
theorem Stamped.freshFlush {gets : Prop} {dir : Dir} {p : Proc} {l : Label}
    (h : Stamped p.db.tableMeta) (hadm : Admissible gets dir p l) : FreshFlush p l := by
  cases l with
  | flush now =>
    intro m hm heq
    obtain ⟨t, hname, hcreated⟩ := h m hm
    have ht : t = now := sstableID_injective (hname.symm.trans heq)
    have hlt := hadm.2 m hm
    omega
  | _ => trivial

end Seol
