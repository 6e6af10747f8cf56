import Seol.Db.Open
import Seol.Db.Spec

/-!
# The running store

Reference: `submitWrite`, `writeLoop`, `processWriteBatch`, `rotateMemtable`, `flushLoop`,
`installFlushedTable`, `removeWALFiles` and `Close` in `db.go`, with `waitForSync` true. The writer, the
flush loop and the closing goroutine are interleaved step by step; between any two steps the process
may stop, and a stop inside a WAL append leaves any prefix of its bytes. No file operation fails except
a flush, which may fail at any time.
-/

namespace Seol

open Common Vlog

/-- Why the preparing loop of `processWriteBatch` ended. -/
inductive PrepareEnd where
  | exhausted
  | crossing
  | failed (e : FlushError)

/-- Where the writer goroutine stands: between batches, at the head of the loop of
`processWriteBatch`, storing values, about to append to the WAL, putting into the memtable, about to
rotate, about to hand the rotated memtable to the flush loop. -/
inductive Writer where
  | idle
  | loop (batch : List Write)
  | preparing (done : List (Write × Bytes)) (rest : List Write) (projectedBytes : ℕ)
  | prepared (done : List (Write × Bytes)) (rest : List Write) (why : PrepareEnd)
  | applying (todo : List (Write × Bytes)) (rest : List Write) (why : PrepareEnd)
  | rotating (last : Write) (rest : List Write)
  | sending (imm : Immutable) (last : Write) (rest : List Write)

/-- Where the flush loop stands. -/
inductive Flusher where
  | waiting
  | syncing (imm : Immutable)
  | writing (imm : Immutable)
  | installing (imm : Immutable) (table : Table)
  | removing (paths : List Bytes)

/-- Where `Close` stands: not called, the store marked closed, the last memtable to be sent, the
flush loop to be waited for. -/
inductive Closing where
  | no
  | marked
  | sending (imm : Immutable)
  | draining

/-- A running process. `queue` is `writeCh`. -/
structure Proc where
  db : DB
  queue : List Write
  writer : Writer
  flushCh : List Immutable
  flusher : Flusher
  closing : Closing

/-- The directory with or without a process; `refused` is a directory that `openDB` failed on. -/
inductive World where
  | down (dir : Dir)
  | up (dir : Dir) (p : Proc)
  | refused (dir : Dir)

/-- What a step depends on besides the state: the client's request or a reading of the clock. -/
inductive Label where
  | submit (w : Write)
  | store (now : UInt64)
  | rotate (now : ℕ)
  | flush (now : ℕ)
  | failFlush
  | install
  | get (k : Bytes)
  | reopen (clock : OpenClock)
  | other

/-- `cap(db.writeCh)` and the capacity of a batch. -/
def batchCap : ℕ := 256

/-- `cap(db.flushCh)`. -/
def flushCap : ℕ := 1

/-- The loop of `processWriteBatch` goes on while requests are left. -/
def Writer.next (rest : List Write) : Writer := if rest.isEmpty then .idle else .loop rest

/-- The preparing loop after one more value was stored. -/
def Writer.stored (maxBytes : ℕ) (done : List (Write × Bytes)) (rest : List Write)
    (projectedBytes : ℕ) : Writer :=
  if maxBytes ≤ projectedBytes then .prepared done rest .crossing
  else if rest.isEmpty then .prepared done rest .exhausted
  else .preparing done rest projectedBytes

/-- The process right after `openDB`. -/
def Proc.start (db : DB) : Proc := ⟨db, [], .idle, [], .waiting, .no⟩

/-- `memtable.Put` of one request and its accounting. -/
def DB.applyWrite (db : DB) (a : ℕ) (w : Write) (stored : Bytes) : DB :=
  { db.putMemtable a w.key stored with
    memtableBytes := db.memtableBytes + memtableEntrySize w.key w.raw }

/-- The fields `Close` clears once the writer has stopped. -/
def DB.detach (db : DB) (immutable : List Immutable) : DB :=
  { db with immutable := immutable, memtable := none, activeWal := none, currentWalPaths := [] }

/-- The steps of the clients and of the writer goroutine. -/
inductive WriterStep : Dir × Proc → Label → Event → Dir × Proc → Prop
  | submit {dir p} (w : Write) (hopen : p.db.readState.closed = false) (herr : p.db.flushErr = none)
      (hroom : p.queue.length < batchCap) :
    WriterStep (dir, p) (.submit w) (.submitted w) (dir, { p with queue := p.queue ++ [w] })
  | reject {dir p} (w : Write)
      (hrefuse : p.db.readState.closed = true ∨ p.db.flushErr ≠ none) :
    WriterStep (dir, p) .other (.rejected w) (dir, p)
  | collect {dir p} (batch rest : List Write) (hw : p.writer = .idle) (hq : p.queue = batch ++ rest)
      (hne : batch ≠ []) (hcap : batch.length ≤ batchCap) :
    WriterStep (dir, p) .other .internal (dir, { p with queue := rest, writer := .loop batch })
  | prepare {dir p} (batch : List Write) (hw : p.writer = .loop batch) (herr : p.db.flushErr = none)
      (hwal : p.db.activeWal ≠ none) (hmem : p.db.memtable ≠ none) :
    WriterStep (dir, p) .other .internal
      (dir, { p with writer := .preparing [] batch p.db.memtableBytes })
  | refuseBatch {dir p} (batch : List Write) (hw : p.writer = .loop batch)
      (hrefuse : p.db.flushErr ≠ none ∨ p.db.activeWal = none ∨ p.db.memtable = none) :
    WriterStep (dir, p) .other (.failed batch) (dir, { p with writer := .idle })
  | store {dir p} (now : UInt64) (done : List (Write × Bytes)) (w : Write) (rest : List Write)
      (projected : ℕ) (stored : Bytes) (log : Log)
      (hw : p.writer = .preparing done (w :: rest) projected)
      (hstore : storeValueForLSM p.db.valueLog p.db.valueThreshold w.key w.raw now none =
        (.ok stored, log)) :
    WriterStep (dir, p) (.store now) .internal ({ dir with segments := log.files },
      { p with
        db := { p.db with valueLog := log }
        writer := Writer.stored p.db.memtableMaxBytes (done ++ [(w, stored)]) rest
          (projected + memtableEntrySize w.key w.raw) })
  | storeFailFirst {dir p} (now : UInt64) (w : Write) (rest : List Write) (projected : ℕ)
      (e : StoreError) (log : Log) (hw : p.writer = .preparing [] (w :: rest) projected)
      (hstore : storeValueForLSM p.db.valueLog p.db.valueThreshold w.key w.raw now none =
        (.error e, log)) :
    WriterStep (dir, p) (.store now) (.failed (w :: rest)) ({ dir with segments := log.files },
      { p with
        db := ({ p.db with valueLog := log }.setFlushErrIfNil (.store e)).1
        writer := .idle })
  | storeFail {dir p} (now : UInt64) (done : List (Write × Bytes)) (w : Write) (rest : List Write)
      (projected : ℕ) (e : StoreError) (log : Log) (hdone : done ≠ [])
      (hw : p.writer = .preparing done (w :: rest) projected)
      (hstore : storeValueForLSM p.db.valueLog p.db.valueThreshold w.key w.raw now none =
        (.error e, log)) :
    WriterStep (dir, p) (.store now) .internal ({ dir with segments := log.files },
      { p with
        db := ({ p.db with valueLog := log }.setFlushErrIfNil (.store e)).1
        writer := .prepared done (w :: rest)
          (.failed ({ p.db with valueLog := log }.setFlushErrIfNil (.store e)).2) })
  | append {dir p} (done : List (Write × Bytes)) (rest : List Write) (why : PrepareEnd)
      (wal file : Bytes) (hw : p.writer = .prepared done rest why) (hwal : p.db.activeWal = some wal)
      (hfile : dir.wals.get wal = some file) :
    WriterStep (dir, p) .other .internal
      ({ dir with wals := dir.wals.insert wal (appendBatch file (done.map fun e => e.1.record)) },
        { p with writer := .applying done rest why })
  | apply {dir p} (w : Write) (stored : Bytes) (todo : List (Write × Bytes)) (rest : List Write)
      (why : PrepareEnd) (a : ℕ) (hw : p.writer = .applying ((w, stored) :: todo) rest why)
      (hmem : p.db.memtable = some a) (hack : why = .crossing → todo ≠ []) :
    WriterStep (dir, p) .other (.acked w)
      (dir, { p with db := p.db.applyWrite a w stored, writer := .applying todo rest why })
  | applyCrossing {dir p} (w : Write) (stored : Bytes) (rest : List Write) (a : ℕ)
      (hw : p.writer = .applying [(w, stored)] rest .crossing) (hmem : p.db.memtable = some a) :
    WriterStep (dir, p) .other .internal
      (dir, { p with db := p.db.applyWrite a w stored, writer := .rotating w rest })
  | batchDone {dir p} (rest : List Write) (hw : p.writer = .applying [] rest .exhausted) :
    WriterStep (dir, p) .other .internal (dir, { p with writer := Writer.next rest })
  | batchFail {dir p} (rest : List Write) (e : FlushError)
      (hw : p.writer = .applying [] rest (.failed e)) :
    WriterStep (dir, p) .other (.failed rest) (dir, { p with writer := .idle })
  | rotate {dir p} (now : ℕ) (last : Write) (rest : List Write) (a : ℕ)
      (hw : p.writer = .rotating last rest) (hmem : p.db.memtable = some a)
      (hcreate : dir.wals.get (walID now) = none) :
    WriterStep (dir, p) (.rotate now) .internal
      ({ dir with wals := dir.wals.insert (walID now) [] },
        { p with
          db := p.db.rotateMemtable a (walID now)
          writer := .sending (p.db.toFlush a) last rest })
  | send {dir p} (imm : Immutable) (last : Write) (rest : List Write)
      (hw : p.writer = .sending imm last rest) (hroom : p.flushCh.length < flushCap) :
    WriterStep (dir, p) .other (.acked last)
      (dir, { p with flushCh := p.flushCh ++ [imm], writer := Writer.next rest })

/-- The steps of the flush loop. -/
inductive FlusherStep : Dir × Proc → Label → Dir × Proc → Prop
  | receive {dir p} (imm : Immutable) (ch : List Immutable) (hf : p.flusher = .waiting)
      (hch : p.flushCh = imm :: ch) :
    FlusherStep (dir, p) .other (dir, { p with flushCh := ch, flusher := .syncing imm })
  | syncValueLog {dir p} (imm : Immutable) (hf : p.flusher = .syncing imm) :
    FlusherStep (dir, p) .other (dir, { p with flusher := .writing imm })
  | flush {dir p} (now : ℕ) (imm : Immutable) (hf : p.flusher = .writing imm) :
    FlusherStep (dir, p) (.flush now)
      ({ dir with tables := dir.tables.insert (sstableID now) (p.db.heap imm.table).entries },
        { p with flusher := .installing imm ⟨sstableID now, (p.db.heap imm.table).entries⟩ })
  | failFlush {dir p} (imm : Immutable) (hf : p.flusher = .writing imm) :
    FlusherStep (dir, p) .failFlush
      (dir, { p with db := (p.db.setFlushErrIfNil .flushMemtable).1, flusher := .waiting })
  | install {dir p} (imm : Immutable) (t : Table) (now : ℤ) (db : DB)
      (hf : p.flusher = .installing imm t) (hi : p.db.installFlushedTable imm t now = (db, true)) :
    FlusherStep (dir, p) .install
      ({ dir with manifest := some (p.db.updatedMeta t now) },
        { p with db := db, flusher := .removing imm.walPaths })
  | failInstall {dir p} (imm : Immutable) (t : Table) (now : ℤ) (db : DB)
      (hf : p.flusher = .installing imm t) (hi : p.db.installFlushedTable imm t now = (db, false)) :
    FlusherStep (dir, p) .install
      ({ dir with manifest := some (p.db.updatedMeta t now) },
        { p with db := (db.setFlushErrIfNil .levelState).1, flusher := .waiting })
  | removeWAL {dir p} (path : Bytes) (paths : List Bytes) (hf : p.flusher = .removing (path :: paths)) :
    FlusherStep (dir, p) .other
      ({ dir with wals := dir.wals.erase path }, { p with flusher := .removing paths })
  | removed {dir p} (hf : p.flusher = .removing []) :
    FlusherStep (dir, p) .other (dir, { p with flusher := .waiting })

/-- The steps of `Close` before it lets go of the store. -/
inductive CloseStep : Dir × Proc → Dir × Proc → Prop
  | markClosed {dir p} (hc : p.closing = .no) :
    CloseStep (dir, p) (dir, { p with db := p.db.markClosed, closing := .marked })
  | detach {dir p} (a : ℕ) (hc : p.closing = .marked) (hq : p.queue = []) (hw : p.writer = .idle)
      (hmem : p.db.memtable = some a) (hne : p.db.heap a ≠ []) :
    CloseStep (dir, p) (dir, { p with
      db := p.db.detach (p.db.immutable ++ [p.db.toFlush a])
      closing := .sending (p.db.toFlush a) })
  | detachEmpty {dir p} (a : ℕ) (wal : Bytes) (hc : p.closing = .marked) (hq : p.queue = [])
      (hw : p.writer = .idle) (hmem : p.db.memtable = some a) (hempty : p.db.heap a = [])
      (hwal : p.db.activeWal = some wal) :
    CloseStep (dir, p) ({ dir with wals := dir.wals.erase wal },
      { p with db := p.db.detach p.db.immutable, closing := .draining })
  | sendLast {dir p} (imm : Immutable) (hc : p.closing = .sending imm)
      (hroom : p.flushCh.length < flushCap) :
    CloseStep (dir, p) (dir, { p with flushCh := p.flushCh ++ [imm], closing := .draining })

/-- The steps of the whole system under options `opts`. -/
inductive Step (opts : Options) : World → Label → Event → World → Prop
  | writer {dir dir' p p' l e} (h : WriterStep (dir, p) l e (dir', p')) :
    Step opts (.up dir p) l e (.up dir' p')
  | flusher {dir dir' p p' l} (h : FlusherStep (dir, p) l (dir', p')) :
    Step opts (.up dir p) l .internal (.up dir' p')
  | closer {dir dir' p p'} (h : CloseStep (dir, p) (dir', p')) :
    Step opts (.up dir p) .other .internal (.up dir' p')
  | closeStorage {dir p} (hc : p.closing = .draining) (hf : p.flusher = .waiting)
      (hch : p.flushCh = []) :
    Step opts (.up dir p) .other .closed (.down dir)
  | get {dir p} (k : Bytes) (hopen : p.db.readState.closed = false) :
    Step opts (.up dir p) (.get k) (.got k (p.db.get k)) (.up dir p)
  | stop {dir p} : Step opts (.up dir p) .other .stopped (.down dir)
  | stopInAppend {dir p} (done : List (Write × Bytes)) (rest : List Write) (why : PrepareEnd)
      (wal file : Bytes) (n : ℕ) (hw : p.writer = .prepared done rest why)
      (hwal : p.db.activeWal = some wal) (hfile : dir.wals.get wal = some file) :
    Step opts (.up dir p) .other .stopped (.down { dir with
      wals := dir.wals.insert wal
        (file ++ (encodeRecords (done.map fun e => e.1.record)).take n) })
  | reopen {dir dir' db} (clock : OpenClock) (h : openDB dir opts clock = .ok (db, dir')) :
    Step opts (.down dir) (.reopen clock) (.reopened db.view) (.up dir' (Proc.start db))
  | reopenFail {dir e} (clock : OpenClock) (h : openDB dir opts clock = .error e) :
    Step opts (.down dir) (.reopen clock) .openFailed (.refused dir)

end Seol
