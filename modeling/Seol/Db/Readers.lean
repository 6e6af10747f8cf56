import Seol.Db.Refinement

/-!
# Readers beside the writer and the flush loop

`Get` loads the published read state once and then looks through it without a lock: the memtable, which
may still take writes or have been rotated since, the immutable memtables from the newest to the
oldest, and the levels. Here each of these lookups is a step of its own, interleaved with the puts and
rotations of the writer, with the flush loop and with any number of other readers. No file operation
fails, a flush takes a timestamp above those of the tables and a name that none of them has, and a
table is read as the finite map of its entries.

The entry that a `Get` selects is the one left by the last write to its key at some instant between
the load of the read state and the return. If the memtable of the snapshot has the key, the instant is
the lookup or, when the memtable was rotated before, the rotation; otherwise it is the load.

Reference: `Get`, `currentReadState`, `processWriteBatch`, `rotateMemtable`, `flushLoop` and
`installFlushedTable` in `db.go`.
-/

namespace Seol

open Common

/-! ## The system -/

/-- What a step shows: an entry put into the memtable, the load of the read state by a reader, and its
return with the entry it selected. -/
inductive ReadEvent where
  | applied (key stored : Bytes)
  | loaded (reader : ℕ) (key : Bytes)
  | returned (reader : ℕ) (key : Bytes) (entry : Option Bytes)
  | internal

/-- The store with the table files, the memtables on their way to the flush loop, and the table that is
written for the first of them and not yet installed. -/
structure Store where
  db : DB
  files : TableFiles
  queue : List Immutable
  written : Option Table

/-- The steps of the writer and of the flush loop. `bookkeeping` stands for what they do to fields that
no reader looks at. -/
inductive StoreStep : Store → ReadEvent → Store → Prop
  | apply {s : Store} (a : ℕ) (key stored : Bytes) (hmem : s.db.memtable = some a) :
    StoreStep s (.applied key stored) { s with db := s.db.putMemtable a key stored }
  | rotate {s : Store} (a : ℕ) (wal : Bytes) (hmem : s.db.memtable = some a) (hne : s.db.heap a ≠ []) :
    StoreStep s .internal
      { s with db := s.db.rotateMemtable a wal, queue := s.queue ++ [s.db.toFlush a] }
  | flush {s : Store} (now : ℕ) (imm : Immutable) (rest : List Immutable) (hq : s.queue = imm :: rest)
      (hw : s.written = none) (hnow : now < 2 ^ 63) (hlater : ∀ m ∈ s.db.tableMeta, m.createdAt < now)
      (hfresh : ∀ m ∈ s.db.tableMeta, m.filename ≠ sstableID now) :
    StoreStep s .internal
      { s with
        files := s.files.insert (sstableID now) (s.db.heap imm.table).entries
        written := some ⟨sstableID now, (s.db.heap imm.table).entries⟩ }
  | install {s : Store} (now : ℤ) (imm : Immutable) (rest : List Immutable) (t : Table) (db : DB)
      (hq : s.queue = imm :: rest) (hw : s.written = some t)
      (hi : s.db.installFlushedTable imm t now = (db, true)) :
    StoreStep s .internal { s with db := db, queue := rest, written := none }
  | bookkeeping {s : Store} (bytes : ℕ) (log : Vlog.Log) (err : Option FlushError) :
    StoreStep s .internal
      { s with db := { s.db with memtableBytes := bytes, valueLog := log, flushErr := err } }

/-- Where a `Get` stands: at the memtable of its snapshot, at the immutable memtables still to be
searched, or with the entry it selected. -/
inductive Reader where
  | idle
  | atMemtable (key : Bytes) (snap : ReadState)
  | atImmutables (key : Bytes) (snap : ReadState) (todo : List Immutable)
  | found (key : Bytes) (entry : Option Bytes)

/-- One lookup of `Get`. -/
def Reader.probe (heap : ℕ → Memtable) : Reader → Reader
  | .atMemtable key snap =>
    match snap.memtable.bind fun a => (heap a).get key with
    | some stored => .found key (some stored)
    | none => .atImmutables key snap snap.immutable.reverse
  | .atImmutables key snap (imm :: todo) =>
    match (heap imm.table).get key with
    | some stored => .found key (some stored)
    | none => .atImmutables key snap todo
  | .atImmutables key snap [] =>
    .found key (if snap.levels.isEmpty then firstHit Table.find snap.sstables key
      else lookupLevels Table.find snap.levels key)
  | r => r

/-- The store and its readers. -/
structure Shared where
  store : Store
  readers : ℕ → Reader

/-- The steps of the whole system. -/
inductive SharedStep : Shared → ReadEvent → Shared → Prop
  | store {s : Shared} {e : ReadEvent} {store : Store} (h : StoreStep s.store e store) :
    SharedStep s e { s with store := store }
  | load {s : Shared} (i : ℕ) (key : Bytes) (hidle : s.readers i = .idle)
      (hopen : s.store.db.readState.closed = false) :
    SharedStep s (.loaded i key)
      { s with readers := Function.update s.readers i (.atMemtable key s.store.db.readState) }
  | probe {s : Shared} (i : ℕ) :
    SharedStep s .internal
      { s with readers := Function.update s.readers i ((s.readers i).probe s.store.db.heap) }
  | ret {s : Shared} (i : ℕ) (key : Bytes) (entry : Option Bytes)
      (hfound : s.readers i = .found key entry) :
    SharedStep s (.returned i key entry) { s with readers := Function.update s.readers i .idle }

/-- The flat list is only searched when it is empty. -/
theorem ReadState.tables_eq (snap : ReadState) (key : Bytes) :
    (if snap.levels.isEmpty then firstHit Table.find snap.sstables key
      else lookupLevels Table.find snap.levels key) = lookupLevels Table.find snap.levels key := by
  cases hl : snap.levels with
  | nil => simp [ReadState.sstables, hl, firstHit, lookupLevels]
  | cons l ls => rfl

theorem Reader.probe_immutables (heap : ℕ → Memtable) (key : Bytes) (snap : ReadState)
    (todo : List Immutable) :
    (Reader.probe heap)^[todo.length + 1] (.atImmutables key snap todo) =
      .found key ((todo.findSome? fun imm => (heap imm.table).get key).or
        (if snap.levels.isEmpty then firstHit Table.find snap.sstables key
          else lookupLevels Table.find snap.levels key)) := by
  -- a reader that found the entry does not look further
  have hstay : ∀ n r, (Reader.probe heap)^[n] (.found key r) = .found key r := by
    intro n r
    induction n with
    | zero => rfl
    | succ n ih => rw [Function.iterate_succ_apply]; exact ih
  induction todo with
  | nil => rfl
  | cons imm todo ih =>
    rw [List.length_cons, Function.iterate_succ_apply, List.findSome?_cons, Reader.probe]
    cases (heap imm.table).get key with
    | some stored => exact hstay _ _
    | none => exact ih

/-- The lookups of a reader that nothing disturbs end with the entry that `Get` selects. -/
theorem Reader.probe_select (heap : ℕ → Memtable) (key : Bytes) (snap : ReadState) :
    ∃ n, (Reader.probe heap)^[n] (.atMemtable key snap) =
      .found key (snap.select Table.find heap key) := by
  cases hmem : snap.memtable.bind fun a => (heap a).get key with
  | some stored =>
    refine ⟨1, ?_⟩
    simp only [Function.iterate_one, Reader.probe, hmem, ReadState.select, Option.some_or]
  | none =>
    refine ⟨snap.immutable.reverse.length + 2, ?_⟩
    rw [Function.iterate_succ_apply, Reader.probe]
    simp only [hmem, Reader.probe_immutables, ReadState.select, Option.none_or]

/-! ## What a step of the store does to memtables -/

/-- The entries that a run has put. -/
def applied (es : List ReadEvent) : List (Bytes × Bytes) :=
  es.filterMap fun e => match e with
    | .applied key stored => some (key, stored)
    | _ => none

@[simp] theorem applied_append (es es' : List ReadEvent) :
    applied (es ++ es') = applied es ++ applied es' := List.filterMap_append

/-- What a step can do to memtables: one that is not active stays as it is and out of use, and the active
one takes the entry of the step or is retired as it is. -/
structure Moves (db : DB) (e : ReadEvent) (db' : DB) : Prop where
  next_le : db.next ≤ db'.next
  retired : ∀ x, x < db.next → db.memtable ≠ some x →
    db'.memtable ≠ some x ∧ db'.heap x = db.heap x
  active : ∀ x, x < db.next → db.memtable = some x →
    (db'.memtable = some x ∧ db'.heap x = db.heap x ++ applied [e]) ∨
      (db'.memtable ≠ some x ∧ db'.heap x = db.heap x ∧ applied [e] = [])

/-- A step that leaves the memtables alone. -/
theorem Moves.quiet {db db' : DB} {e : ReadEvent} (he : applied [e] = []) (hnext : db'.next = db.next)
    (hmem : db'.memtable = db.memtable) (hheap : db'.heap = db.heap) : Moves db e db' := by
  refine ⟨hnext.ge, fun x _ hx => ⟨hmem ▸ hx, by rw [hheap]⟩, fun x _ hx => Or.inl ⟨hmem ▸ hx, ?_⟩⟩
  rw [he, List.append_nil, hheap]

/-- **Every step of the store** moves memtables that way. -/
theorem StoreStep.moves {s s' : Store} {e : ReadEvent} (h : StoreStep s e s') :
    Moves s.db e s'.db := by
  cases h with
  -- a put changes the memtable that is active and no other
  | apply a key stored hmem =>
    refine ⟨le_rfl, fun x _ hx => ⟨hx, ?_⟩, fun x _ hx => Or.inl ⟨hx, ?_⟩⟩
    · have hne : x ≠ a := fun heq => hx (heq ▸ hmem)
      exact s.db.putMemtable_heap_of_ne hne key stored
    · obtain rfl : a = x := Option.some.inj (hmem.symm.trans hx)
      exact s.db.putMemtable_heap_self a key stored
  -- the new memtable gets an address that no older one has
  | rotate a wal hmem hne =>
    refine ⟨Nat.le_succ _, fun x hlt _ => ⟨?_, ?_⟩, fun x hlt _ => Or.inr ⟨?_, ?_, rfl⟩⟩
    · exact fun heq => hlt.ne' (Option.some.inj heq)
    · exact s.db.rotateMemtable_heap_of_lt hlt a wal
    · exact fun heq => hlt.ne' (Option.some.inj heq)
    · exact s.db.rotateMemtable_heap_of_lt hlt a wal
  | flush now imm rest hq hw hnow hlater hfresh => exact .quiet rfl rfl rfl rfl
  | install now imm rest t db hq hw hi =>
    unfold DB.installFlushedTable at hi
    dsimp only at hi
    split at hi
    · cases hi
    · cases hi
      exact .quiet rfl rfl rfl rfl
  | bookkeeping bytes log err => exact .quiet rfl rfl rfl rfl

/-! ## The store -/

/-- What the immutable memtables answer, the newest first. -/
def retired (heap : ℕ → Memtable) (imms : List Immutable) (k : Bytes) : Option Bytes :=
  imms.reverse.findSome? fun imm => (heap imm.table).get k

theorem retired_concat (heap : ℕ → Memtable) (imms : List Immutable) (imm : Immutable) :
    retired heap (imms ++ [imm]) = overlay (lastOf (heap imm.table)) (retired heap imms) := by
  funext k
  rw [retired, List.reverse_append, List.reverse_singleton, List.findSome?_append,
    List.findSome?_singleton]
  rfl

theorem retired_cons (heap : ℕ → Memtable) (imm : Immutable) (imms : List Immutable) :
    retired heap (imm :: imms) = overlay (retired heap imms) (lastOf (heap imm.table)) := by
  funext k
  rw [retired, List.reverse_cons, List.findSome?_append, List.findSome?_singleton]
  rfl

theorem retired_congr {heap heap' : ℕ → Memtable} {imms : List Immutable}
    (h : ∀ imm ∈ imms, heap' imm.table = heap imm.table) : retired heap' imms = retired heap imms := by
  funext k
  exact findSome?_congr fun imm himm => by rw [h imm (List.mem_reverse.mp himm)]

/-- **The invariant of the store.** `history` lists the entries put so far, `base` is what the tables
held at the start. The history ends with the entries of the active memtable `a`; the immutable
memtables over the levels read like the rest of the history over the base. -/
structure Covers (base : Bytes → Option Bytes) (history : List (Bytes × Bytes)) (s : Store) (a : ℕ)
    (older : List (Bytes × Bytes)) : Prop where
  memtable_eq : s.db.memtable = some a
  history_eq : history = older ++ s.db.heap a
  below_eq : overlay (retired s.db.heap s.db.immutable) (lookupLevels Table.find s.db.levels) =
    overlay (lastOf older) base
  heap : HeapOK s.db.next s.db.immutable s.db.memtable
  nonempty : ∀ imm ∈ s.db.immutable, s.db.heap imm.table ≠ []
  published : s.db.readState = s.db.snapshotReadState
  queue_eq : s.queue = s.db.immutable
  tables : Tabled s.files s.db.tableMeta s.db.levels
  written : ∀ t, s.written = some t → ∃ imm rest, s.queue = imm :: rest ∧
    InstallOK s.files s.db.tableMeta s.db.heap imm t

namespace Covers

variable {base : Bytes → Option Bytes} {history older : List (Bytes × Bytes)} {s s' : Store} {a : ℕ}

/-- The memtables below the active one have other addresses. -/
theorem table_ne (h : Covers base history s a older) {imm : Immutable} (himm : imm ∈ s.db.immutable) :
    imm.table ≠ a := by
  have hheap := h.heap
  rw [h.memtable_eq] at hheap
  exact hheap.table_ne himm

theorem table_lt (h : Covers base history s a older) {imm : Immutable} (himm : imm ∈ s.db.immutable) :
    imm.table < s.db.next := h.heap.table_lt himm

theorem active_lt (h : Covers base history s a older) : a < s.db.next :=
  h.heap.allocated _ (List.mem_append_right _ (by simp [h.memtable_eq]))

theorem mem_of_queue (h : Covers base history s a older) {imm : Immutable} {rest : List Immutable}
    (hq : s.queue = imm :: rest) : imm ∈ s.db.immutable := by
  rw [← h.queue_eq, hq]
  exact List.mem_cons_self

/-- A put goes to the end of the history. -/
theorem apply (h : Covers base history s a older) (key stored : Bytes) :
    Covers base (history ++ [(key, stored)]) { s with db := s.db.putMemtable a key stored } a
      older := by
  -- the put is to the active memtable, whose address no retired one shares
  have hsame : ∀ imm ∈ s.db.immutable, (s.db.putMemtable a key stored).heap imm.table =
      s.db.heap imm.table := fun imm himm => s.db.putMemtable_heap_of_ne (h.table_ne himm) key stored
  refine { h with history_eq := ?_, below_eq := ?_, nonempty := ?_, written := ?_ }
  · rw [DB.putMemtable_heap_self, h.history_eq, List.append_assoc]
  · rw [← h.below_eq]
    exact congrArg (overlay · _) (retired_congr hsame)
  · intro imm himm
    rw [hsame imm himm]
    exact h.nonempty imm himm
  · intro t ht
    obtain ⟨imm, rest, hq, hinstall⟩ := h.written t ht
    exact ⟨imm, rest, hq, hinstall.congr (hsame imm (h.mem_of_queue hq))⟩

/-- A rotation retires the active memtable with its entries. -/
theorem rotate (h : Covers base history s a older) (wal : Bytes) (hne : s.db.heap a ≠ []) :
    Covers base history
      { s with db := s.db.rotateMemtable a wal, queue := s.queue ++ [s.db.toFlush a] } s.db.next
      history := by
  have hkeep : ∀ x < s.db.next, (s.db.rotateMemtable a wal).heap x = s.db.heap x :=
    fun x hx => s.db.rotateMemtable_heap_of_lt hx a wal
  have hsame : ∀ imm ∈ s.db.immutable ++ [s.db.toFlush a],
      (s.db.rotateMemtable a wal).heap imm.table = s.db.heap imm.table := by
    intro imm himm
    rcases List.mem_append.mp himm with himm | himm
    · exact hkeep _ (h.table_lt himm)
    · rw [List.mem_singleton.mp himm]
      exact hkeep a h.active_lt
  have hheap := h.heap
  rw [h.memtable_eq] at hheap
  refine ⟨rfl, ?_, ?_, hheap.rotate _, fun imm himm => ?_, rfl,
    congrArg (· ++ [s.db.toFlush a]) h.queue_eq, h.tables, fun t ht => ?_⟩
  · rw [DB.rotateMemtable_heap_next, List.append_nil]
  · -- the retired memtable is read over the older ones
    change overlay (retired (s.db.rotateMemtable a wal).heap (s.db.immutable ++ [s.db.toFlush a]))
      (lookupLevels Table.find s.db.levels) = _
    rw [retired_congr hsame, retired_concat, overlay_assoc, h.below_eq, ← overlay_assoc,
      ← lastOf_append, h.history_eq]
    rfl
  · rw [hsame imm himm]
    rcases List.mem_append.mp himm with himm | himm
    · exact h.nonempty imm himm
    · rw [List.mem_singleton.mp himm]
      exact hne
  · obtain ⟨imm, rest, hq, hinstall⟩ := h.written t ht
    have himm := hsame imm (List.mem_append_left _ (h.mem_of_queue hq))
    exact ⟨imm, rest ++ [s.db.toFlush a], congrArg (· ++ [s.db.toFlush a]) hq, hinstall.congr himm⟩

/-- The first memtable of the queue is written to a table file. -/
theorem flush (h : Covers base history s a older) {now : ℕ} {imm : Immutable} {rest : List Immutable}
    (hq : s.queue = imm :: rest) (hnow : now < 2 ^ 63)
    (hlater : ∀ m ∈ s.db.tableMeta, m.createdAt < now)
    (hfresh : ∀ m ∈ s.db.tableMeta, m.filename ≠ sstableID now) :
    Covers base history
      { s with
        files := s.files.insert (sstableID now) (s.db.heap imm.table).entries
        written := some ⟨sstableID now, (s.db.heap imm.table).entries⟩ } a older := by
  refine
    { h with
      tables := h.tables.insert hfresh _
      written := fun t ht => ?_ }
  obtain rfl := Option.some.inj ht
  exact ⟨imm, rest, hq, ⟨now, hnow, rfl, hlater⟩, hfresh, rfl,
    by rw [OrdMap.get_insert, if_pos rfl]⟩

/-- The table goes under the memtables that are left. -/
theorem install (h : Covers base history s a older) {now : ℤ} {imm : Immutable}
    {rest : List Immutable} {t : Table} {db : DB} (hq : s.queue = imm :: rest)
    (hw : s.written = some t) (hi : s.db.installFlushedTable imm t now = (db, true)) :
    Covers base history { s with db := db, queue := rest, written := none } a older := by
  have himm := h.mem_of_queue hq
  have himms : s.db.immutable = imm :: rest := h.queue_eq.symm.trans hq
  -- the file that was written is that of the first memtable in the queue
  obtain ⟨imm', rest', hq', hready⟩ := h.written t hw
  obtain ⟨rfl, rfl⟩ := List.cons.inj (hq.symm.trans hq')
  obtain ⟨hwf, htables, hlookup⟩ := h.tables.install hready (h.nonempty imm himm) now
  have herase : (s.db.immutable.eraseP fun i => i.table = imm.table) = rest := by
    rw [himms, List.eraseP_cons_of_pos (by simp)]
  rw [DB.installFlushedTable_eq h.tables.levels_eq hwf hready.file imm, herase] at hi
  cases hi
  have hsub : rest.Sublist s.db.immutable := himms ▸ List.sublist_cons_self _ _
  refine
    { memtable_eq := h.memtable_eq
      history_eq := h.history_eq
      below_eq := ?_
      heap := h.heap.sublist hsub
      nonempty := fun i hi => h.nonempty i (hsub.subset hi)
      published := rfl
      queue_eq := rfl
      tables := htables
      written := by simp }
  -- the entries move from the oldest retired memtable to the tables below it
  have hbelow := h.below_eq
  rw [himms, retired_cons, overlay_assoc] at hbelow
  rw [← hbelow]
  exact congrArg (overlay (retired s.db.heap rest)) (funext hlookup)

/-- **Every step of the store** keeps the invariant, with its entry at the end of the history. -/
theorem step (h : Covers base history s a older) {e : ReadEvent} (hstep : StoreStep s e s') :
    ∃ a' older', Covers base (history ++ applied [e]) s' a' older' := by
  cases hstep with
  | apply b key stored hmem =>
    obtain rfl : a = b := Option.some.inj (h.memtable_eq.symm.trans hmem)
    exact ⟨a, older, h.apply key stored⟩
  | rotate b wal hmem hne =>
    obtain rfl : a = b := Option.some.inj (h.memtable_eq.symm.trans hmem)
    exact ⟨_, _, (List.append_nil history).symm ▸ h.rotate wal hne⟩
  | flush now imm rest hq hw hnow hlater hfresh =>
    exact ⟨a, older, (List.append_nil history).symm ▸ h.flush hq hnow hlater hfresh⟩
  | install now imm rest t db hq hw hi =>
    exact ⟨a, older, (List.append_nil history).symm ▸ h.install hq hw hi⟩
  | bookkeeping bytes log err =>
    refine ⟨a, older, (List.append_nil history).symm ▸ ?_⟩
    exact ⟨h.memtable_eq, h.history_eq, h.below_eq, h.heap, h.nonempty, h.published, h.queue_eq,
      h.tables, h.written⟩

end Covers

/-! ## The readers -/

/-- The reader whose call an event begins or ends. -/
def ReadEvent.reader : ReadEvent → Option ℕ
  | .loaded i _ => some i
  | .returned i _ _ => some i
  | _ => none

/-- The events of a run since the last load of a reader. -/
structure Since (i : ℕ) (key : Bytes) (es before after : List ReadEvent) : Prop where
  events_eq : es = before ++ .loaded i key :: after
  quiet : ∀ e ∈ after, e.reader ≠ some i

theorem Since.tail {i : ℕ} {key : Bytes} {es before after : List ReadEvent} {e : ReadEvent}
    (h : Since i key es before after) (he : e.reader ≠ some i) :
    Since i key (es ++ [e]) before (after ++ [e]) := by
  refine ⟨?_, fun e' he' => ?_⟩
  · rw [h.events_eq, List.append_assoc, List.cons_append]
  · rcases List.mem_append.mp he' with he' | he'
    · exact h.quiet e' he'
    · rw [List.mem_singleton.mp he']
      exact he

/-- The entries that the tables of the start and the puts of a run leave; `first` lists the puts of
the memtable that was active at the start. -/
def entriesAfter (base : Bytes → Option Bytes) (first : List (Bytes × Bytes)) (es : List ReadEvent) :
    Bytes → Option Bytes := overlay (lastOf (first ++ applied es)) base

/-- A memtable that takes no more entries. -/
structure Retired (db : DB) (a : ℕ) : Prop where
  lt : a < db.next
  ne : db.memtable ≠ some a

/-- **The invariant of a reader.** Before the lookup in the memtable of its snapshot, that memtable has
the entries it had at the load and those put in the first part of the time since then, which is all of
it while the memtable is active. After a miss there, what is left to search answers like the store at
the load. In the end the entry is the one of some instant since the load. -/
inductive Tracks (base : Bytes → Option Bytes) (first : List (Bytes × Bytes)) (db : DB) (i : ℕ)
    (es : List ReadEvent) : Reader → Prop
  | idle : Tracks base first db i es .idle
  | atMemtable {key : Bytes} {snap : ReadState} {before mid late : List ReadEvent} {a : ℕ}
      {older mem : List (Bytes × Bytes)} (since : Since i key es before (mid ++ late))
      (hsnap : snap.memtable = some a) (ha : a < db.next)
      (hold : ∀ imm ∈ snap.immutable, Retired db imm.table)
      (hbelow : overlay (retired db.heap snap.immutable) (lookupLevels Table.find snap.levels) =
        overlay (lastOf older) base)
      (hbefore : first ++ applied before = older ++ mem) (hmid : db.heap a = mem ++ applied mid)
      (hlate : db.memtable = some a → applied late = []) :
    Tracks base first db i es (.atMemtable key snap)
  | atImmutables {key : Bytes} {snap : ReadState} {todo : List Immutable}
      {before after : List ReadEvent} (since : Since i key es before after)
      (hold : ∀ imm ∈ todo, Retired db imm.table)
      (hentry : entriesAfter base first before key =
        (todo.findSome? fun imm => (db.heap imm.table).get key).or
          (lookupLevels Table.find snap.levels key)) :
    Tracks base first db i es (.atImmutables key snap todo)
  | found {key : Bytes} {entry : Option Bytes} {before mid late : List ReadEvent}
      (since : Since i key es before (mid ++ late))
      (hentry : entry = entriesAfter base first (before ++ .loaded i key :: mid) key) :
    Tracks base first db i es (.found key entry)

theorem Retired.moves {db db' : DB} {e : ReadEvent} {a : ℕ} (h : Retired db a)
    (hmoves : Moves db e db') : Retired db' a ∧ db'.heap a = db.heap a := by
  obtain ⟨hne, hheap⟩ := hmoves.retired a h.lt h.ne
  exact ⟨⟨h.lt.trans_le hmoves.next_le, hne⟩, hheap⟩

namespace Tracks

variable {base : Bytes → Option Bytes} {first : List (Bytes × Bytes)} {db db' : DB} {i : ℕ}
  {es : List ReadEvent} {e : ReadEvent} {r : Reader}

/-- **A step of anyone else** keeps the invariant of a reader. -/
theorem step (h : Tracks base first db i es r) (hmoves : Moves db e db') (he : e.reader ≠ some i) :
    Tracks base first db' i (es ++ [e]) r := by
  cases h with
  | idle => exact .idle
  | @atMemtable key snap before mid late a older mem since hsnap ha hold hbelow hbefore hmid hlate =>
    have hold' : ∀ imm ∈ snap.immutable, Retired db' imm.table :=
      fun imm himm => ((hold imm himm).moves hmoves).1
    have hbelow' : overlay (retired db'.heap snap.immutable) (lookupLevels Table.find snap.levels) =
        overlay (lastOf older) base := by
      rw [retired_congr fun imm himm => ((hold imm himm).moves hmoves).2]
      exact hbelow
    have ha' := ha.trans_le hmoves.next_le
    have htail := since.tail he
    by_cases hactive : db.memtable = some a
    · rcases hmoves.active a ha hactive with ⟨hmem', hheap⟩ | ⟨hmem', hheap, -⟩
      · -- the memtable is still active: its entries reach up to now
        have hall : Since i key (es ++ [e]) before ((mid ++ late ++ [e]) ++ []) := by
          rwa [List.append_nil]
        refine .atMemtable hall hsnap ha' hold' hbelow' hbefore ?_ fun _ => rfl
        rw [hheap, hmid, applied_append, applied_append, hlate hactive, List.append_nil,
          List.append_assoc]
      · rw [List.append_assoc] at htail
        exact .atMemtable htail hsnap ha' hold' hbelow' hbefore (hheap.trans hmid)
          fun heq => absurd heq hmem'
    · obtain ⟨hmem', hheap⟩ := hmoves.retired a ha hactive
      rw [List.append_assoc] at htail
      exact .atMemtable htail hsnap ha' hold' hbelow' hbefore (hheap.trans hmid)
        fun heq => absurd heq hmem'
  | atImmutables since hold hentry =>
    refine .atImmutables (since.tail he) (fun imm himm => ((hold imm himm).moves hmoves).1) ?_
    rw [hentry]
    refine congrArg (Option.or · _) (findSome?_congr fun imm himm => ?_)
    rw [((hold imm himm).moves hmoves).2]
  | @found key entry before mid late since hentry =>
    have htail := since.tail he
    rw [List.append_assoc] at htail
    exact .found htail hentry

/-- **A lookup** keeps the invariant of its reader. -/
theorem probe (h : Tracks base first db i es r) : Tracks base first db i es (r.probe db.heap) := by
  cases h with
  | idle => exact .idle
  | @atMemtable key snap before mid late a older mem since hsnap ha hold hbelow hbefore hmid hlate =>
    have hlookup : (snap.memtable.bind fun a => (db.heap a).get key) =
        lastOf (mem ++ applied mid) key := by
      rw [hsnap, Option.bind_some, hmid]
      rfl
    rw [Reader.probe, hlookup]
    cases hfind : lastOf (mem ++ applied mid) key with
    | some stored =>
      -- the entry is the last one at the end of the first part
      refine .found since ?_
      have happlied : first ++ applied (before ++ .loaded i key :: mid) =
          older ++ (mem ++ applied mid) := by
        rw [applied_append, ← List.append_assoc, hbefore, List.append_assoc]
        rfl
      rw [entriesAfter, happlied, lastOf_append, overlay, overlay, hfind]
      rfl
    | none =>
      have hmiss : lastOf mem key = none := by
        rw [lastOf_append, overlay, Option.or_eq_none_iff] at hfind
        exact hfind.2
      refine .atImmutables since (fun imm himm => hold imm (List.mem_reverse.mp himm)) ?_
      rw [entriesAfter, hbefore, lastOf_append, overlay, overlay, hmiss, Option.none_or]
      exact congrFun hbelow.symm key
  | @atImmutables key snap todo before after since hold hentry =>
    have hload : entriesAfter base first (before ++ .loaded i key :: []) key =
        entriesAfter base first before key := by
      rw [entriesAfter, applied_append]
      change overlay (lastOf (first ++ (applied before ++ []))) base key = _
      rw [List.append_nil, entriesAfter]
    have hsince : Since i key es before ([] ++ after) := since
    cases todo with
    | nil =>
      refine .found hsince ?_
      rw [hload, hentry, ReadState.tables_eq]
      rfl
    | cons imm todo =>
      rw [List.findSome?_cons] at hentry
      rw [Reader.probe]
      cases hfind : (db.heap imm.table).get key with
      | some stored =>
        rw [hfind] at hentry
        exact .found hsince (hload.trans hentry).symm
      | none =>
        rw [hfind] at hentry
        exact .atImmutables since (fun imm' himm' => hold imm' (List.mem_cons_of_mem _ himm')) hentry
  | found since hentry => exact .found since hentry

/-- **A load** starts the invariant of its reader. -/
theorem load {s : Store} {a : ℕ} {older : List (Bytes × Bytes)} (key : Bytes)
    (h : Covers base (first ++ applied es) s a older) :
    Tracks base first s.db i (es ++ [.loaded i key]) (.atMemtable key s.db.readState) := by
  have hsince : Since i key (es ++ [.loaded i key]) es ([] ++ []) := ⟨rfl, by simp⟩
  rw [h.published]
  refine .atMemtable hsince h.memtable_eq h.active_lt (fun imm himm => ?_) h.below_eq h.history_eq
    (List.append_nil _).symm fun _ => rfl
  refine ⟨h.table_lt himm, fun heq => h.table_ne himm ?_⟩
  exact Option.some.inj (heq.symm.trans h.memtable_eq)

end Tracks

/-! ## Whole runs -/

/-- The state in which a store starts to serve: no memtable waits for the flush loop, no call is on its
way, and the tables are in the files of the manifest, whatever their names. -/
structure Shared.Started (s : Shared) : Prop where
  memtable : ∃ a, s.store.db.memtable = some a ∧ a < s.store.db.next
  immutable_eq : s.store.db.immutable = []
  published : s.store.db.readState = s.store.db.snapshotReadState
  queue_eq : s.store.queue = []
  written_eq : s.store.written = none
  tables : Tabled s.store.files s.store.db.tableMeta s.store.db.levels
  readers : ∀ i, s.readers i = .idle

/-- The entries of a store after the events of a run: the last one put under each key, else the one
that was there at the start. -/
def Shared.entriesAt (s : Shared) (es : List ReadEvent) : Bytes → Option Bytes :=
  overlay (lastOf (applied es)) (s.store.db.readState.select Table.find s.store.db.heap)

/-- The invariant of the whole system. -/
def Shared.Inv (base : Bytes → Option Bytes) (first : List (Bytes × Bytes)) (es : List ReadEvent)
    (s : Shared) : Prop :=
  (∃ a older, Covers base (first ++ applied es) s.store a older) ∧
    ∀ i, Tracks base first s.store.db i es (s.readers i)

/-- **Every step of the system** keeps it. -/
theorem Shared.Inv.step {base : Bytes → Option Bytes} {first : List (Bytes × Bytes)}
    {es : List ReadEvent} {s s' : Shared} {e : ReadEvent} (h : s.Inv base first es)
    (hstep : SharedStep s e s') : s'.Inv base first (es ++ [e]) := by
  obtain ⟨⟨a, older, hcovers⟩, htracks⟩ := h
  -- a step of one reader leaves the store and the other readers alone
  have hreader : ∀ (i : ℕ) (r : Reader), applied [e] = [] → (∀ j, j ≠ i → e.reader ≠ some j) →
      Tracks base first s.store.db i (es ++ [e]) r →
      Shared.Inv base first (es ++ [e]) { s with readers := Function.update s.readers i r } := by
    intro i r he hother hr
    refine ⟨⟨a, older, ?_⟩, fun j => ?_⟩
    · rwa [applied_append, he, List.append_nil]
    · change Tracks base first s.store.db j (es ++ [e]) (Function.update s.readers i r j)
      by_cases hj : j = i
      · subst hj
        rwa [Function.update_self]
      · rw [Function.update_of_ne hj]
        exact (htracks j).step (.quiet he rfl rfl rfl) (hother j hj)
  cases hstep with
  | store hstore =>
    have hnobody : ∀ i, e.reader ≠ some i := by
      intro i
      cases hstore <;> simp [ReadEvent.reader]
    obtain ⟨a', older', hcovers'⟩ := hcovers.step hstore
    refine ⟨⟨a', older', ?_⟩, fun i => (htracks i).step hstore.moves (hnobody i)⟩
    rwa [applied_append, ← List.append_assoc]
  | load i key hidle hopen =>
    refine hreader i _ rfl (fun j hj heq => hj (Option.some.inj heq).symm) ?_
    exact .load key hcovers
  | probe i =>
    refine hreader i _ rfl (fun j _ => Option.some_ne_none j |>.symm) ?_
    exact (htracks i).probe.step (.quiet rfl rfl rfl rfl) (Option.some_ne_none i).symm
  | ret i key entry hfound =>
    exact hreader i _ rfl (fun j hj heq => hj (Option.some.inj heq).symm) .idle

/-- **A whole run** keeps it. -/
theorem Shared.Inv.run {base : Bytes → Option Bytes} {first : List (Bytes × Bytes)}
    {es : List ReadEvent} {s₀ s : Shared} (h : s₀.Inv base first []) (hrun : Run SharedStep s₀ es s) :
    s.Inv base first es := by
  induction hrun with
  | refl => exact h
  | tail _ hstep ih => exact ih.step hstep

/-- A store that starts to serve satisfies the invariant. -/
theorem Shared.Started.inv {s : Shared} (h : s.Started) : ∃ base first, s.Inv base first [] ∧
    ∀ es, entriesAfter base first es = s.entriesAt es := by
  obtain ⟨a, hmem, ha⟩ := h.memtable
  -- with no retired memtable the entries are the active memtable over the levels
  refine ⟨lookupLevels Table.find s.store.db.levels, s.store.db.heap a, ⟨⟨a, [], ?_⟩, fun i => ?_⟩,
    fun es => ?_⟩
  · refine ⟨hmem, List.append_nil _, ?_, ?_, ?_, h.published, ?_, h.tables, ?_⟩
    · rw [h.immutable_eq]
      rfl
    · rw [h.immutable_eq, hmem]
      exact ⟨List.nodup_singleton _, fun b hb => (List.mem_singleton.mp hb).symm ▸ ha⟩
    · simp [h.immutable_eq]
    · rw [h.queue_eq, h.immutable_eq]
    · simp [h.written_eq]
  · rw [h.readers i]
    exact .idle
  · funext k
    rw [Shared.entriesAt, entriesAfter, lastOf_append, overlay_assoc]
    refine congrArg (Option.or _) ?_
    rw [ReadState.select_eq, h.published]
    simp only [DB.snapshotReadState, hmem, h.immutable_eq, Option.bind_some, List.reverse_nil,
      List.findSome?_nil, Option.or_none]
    rfl

/-- **Reads are linearizable.** Take any run of the writer, the flush loop and any number of readers. A
`Get` that returns has loaded the read state before, and the entry it returns is the one left by the
last write to its key at some instant between the two. -/
theorem get_linearizable {s₀ s : Shared} (hstart : s₀.Started) {es : List ReadEvent} {i : ℕ}
    {key : Bytes} {entry : Option Bytes}
    (hrun : Run SharedStep s₀ (es ++ [ReadEvent.returned i key entry]) s) :
    ∃ before mid late, es = before ++ ReadEvent.loaded i key :: (mid ++ late) ∧
      (∀ e ∈ mid ++ late, e.reader ≠ some i) ∧
      entry = s₀.entriesAt (before ++ ReadEvent.loaded i key :: mid) key := by
  obtain ⟨base, first, hinv₀, hentries⟩ := hstart.inv
  obtain ⟨t, hrun, hlast⟩ := hrun.of_concat
  have hinv := hinv₀.run hrun
  cases hlast with
  | store hstore => cases hstore
  | ret _ _ _ hfound =>
    have htracks := hinv.2 i
    rw [hfound] at htracks
    -- the reader's invariant names the instant: `mid` is what happened between the load and it
    cases htracks with
    | found since hentry =>
      exact ⟨_, _, _, since.events_eq, since.quiet, hentry.trans (congrFun (hentries _) key)⟩

/-- The store of `tinyDB` and its readers before the first step. -/
def tinyShared : Shared := ⟨⟨tinyDB, OrdMap.empty, [], none⟩, fun _ => .idle⟩

theorem tinyShared_started : tinyShared.Started where
  memtable := ⟨0, rfl, Nat.zero_lt_one⟩
  immutable_eq := rfl
  published := rfl
  queue_eq := rfl
  written_eq := rfl
  tables := by
    have hnone : Tabled OrdMap.empty [] (levelsOf OrdMap.empty []) :=
      ⟨⟨List.nodup_nil, List.forall_mem_nil _, List.forall_mem_nil _, fun _ _ => List.Pairwise.nil⟩,
        rfl⟩
    exact hnone
  readers := fun _ => rfl

/-- A key is overwritten after the load, and the memtable is rotated before it is looked at. -/
def tinyTrace : List ReadEvent :=
  [.applied [107] [1], .loaded 0 [107], .applied [107] [2], .internal, .internal]

theorem get_linearizable_rotated : ∃ s before mid late,
    Run SharedStep tinyShared (tinyTrace ++ [ReadEvent.returned 0 [107] (some [2])]) s ∧
    tinyTrace = before ++ ReadEvent.loaded 0 [107] :: (mid ++ late) ∧
    (∀ e ∈ mid ++ late, e.reader ≠ some 0) ∧
    some [2] = tinyShared.entriesAt (before ++ ReadEvent.loaded 0 [107] :: mid) [107] := by
  have hrun : Run SharedStep tinyShared (tinyTrace ++ [ReadEvent.returned 0 [107] (some [2])]) _ :=
    .head (.store (.apply 0 [107] [1] rfl)) (.head (.load 0 [107] rfl rfl)
      (.head (.store (.apply 0 [107] [2] rfl)) (.head (.store (.rotate 0 (walID 5) rfl (by decide)))
        (.head (.probe 0) (.single (.ret 0 [107] (some [2]) rfl))))))
  obtain ⟨before, mid, late, heq, hquiet, hentry⟩ := get_linearizable tinyShared_started hrun
  exact ⟨_, before, mid, late, hrun, heq, hquiet, hentry⟩

/-! ## The running store -/

/-- The running store as its readers see it. -/
def Proc.store (dir : Dir) (p : Proc) : Store where
  db := p.db
  files := dir.tables
  queue := p.pending
  written := match p.flusher with
    | .installing _ t => some t
    | _ => none

/-- A step that changes nothing a reader looks at. -/
theorem Proc.store_bookkeeping {dir dir' : Dir} {p p' : Proc} {bytes : ℕ} {log : Vlog.Log}
    {err : Option FlushError}
    (hdb : p'.db = { p.db with memtableBytes := bytes, valueLog := log, flushErr := err })
    (htables : dir'.tables = dir.tables) (hpending : p'.pending = p.pending)
    (hwritten : (p'.store dir').written = (p.store dir).written) :
    StoreStep (p.store dir) .internal (p'.store dir') := by
  have heq : p'.store dir' = { p.store dir with
      db := { p.db with memtableBytes := bytes, valueLog := log, flushErr := err } } := by
    rw [← hdb]
    exact Store.mk.injEq .. ▸ ⟨rfl, htables, hpending, hwritten⟩
  rw [heq]
  exact .bookkeeping bytes log err

theorem Writer.handing_next (rest : List Write) : (Writer.next rest).handing = [] := by
  unfold Writer.next
  split_ifs <;> rfl

theorem Writer.handing_stored (maxBytes : ℕ) (done : List (Write × Bytes)) (rest : List Write)
    (projected : ℕ) : (Writer.stored maxBytes done rest projected).handing = [] := by
  unfold Writer.stored
  split_ifs <;> rfl

/-- A step of the writer that puts nothing and hands nothing over. -/
theorem Proc.store_setWriter {dir dir' : Dir} {p : Proc} {writer : Writer} (bytes : ℕ)
    (log : Vlog.Log) (err : Option FlushError) (queue : List Write)
    (htables : dir'.tables = dir.tables) (hbefore : p.writer.handing = [])
    (hafter : writer.handing = []) :
    StoreStep (p.store dir) .internal (Proc.store dir' { p with
      db := { p.db with memtableBytes := bytes, valueLog := log, flushErr := err }
      queue := queue
      writer := writer }) :=
  Proc.store_bookkeeping rfl htables (by simp only [Proc.pending, hbefore, hafter]) rfl

namespace Live

variable {gets : Prop} {dir dir' : Dir} {p p' : Proc} {s : Spec} {g : Ghost} {l : Label}

/-- **The steps of the writer** are steps of the store beside its readers. -/
theorem writerStep_store (h : Live gets dir p s g) {e : Event}
    (hstep : WriterStep (dir, p) l e (dir', p')) :
    ∃ es, Run StoreStep (p.store dir) es (p'.store dir') := by
  have hput : ∀ (a : ℕ) (w : Write) (stored : Bytes) (writer : Writer), p.db.memtable = some a →
      p.writer.handing = [] → writer.handing = [] → ∃ es, Run StoreStep (p.store dir) es
        (Proc.store dir { p with db := p.db.applyWrite a w stored, writer := writer }) := by
    intro a w stored writer hmem hbefore hafter
    have hcount : StoreStep (Proc.store dir { p with db := p.db.putMemtable a w.key stored }) .internal
        (Proc.store dir { p with db := p.db.applyWrite a w stored, writer := writer }) :=
      Proc.store_setWriter _ _ _ _ rfl hbefore hafter
    exact ⟨_, .head (.apply a w.key stored hmem) (.single hcount)⟩
  cases hstep with
  | submit w hopen herr hroom => exact ⟨_, .single (Proc.store_bookkeeping rfl rfl rfl rfl)⟩
  | reject w hrefuse => exact ⟨_, .refl _⟩
  | collect batch rest hw hq hne hcap =>
    exact ⟨_, .single (Proc.store_setWriter _ _ _ _ rfl (by rw [hw]; rfl) rfl)⟩
  | prepare batch hw herr hwal hmem =>
    exact ⟨_, .single (Proc.store_setWriter _ _ _ _ rfl (by rw [hw]; rfl) rfl)⟩
  | refuseBatch batch hw hrefuse =>
    exact ⟨_, .single (Proc.store_setWriter _ _ _ _ rfl (by rw [hw]; rfl) rfl)⟩
  | store now done w rest projected stored log hw hstore =>
    exact ⟨_, .single (Proc.store_setWriter _ _ _ _ rfl (by rw [hw]; rfl)
      (Writer.handing_stored _ _ _ _))⟩
  | storeFailFirst now w rest projected err log hw hstore =>
    exact ⟨_, .single (Proc.store_setWriter _ _ _ _ rfl (by rw [hw]; rfl) rfl)⟩
  | storeFail now done w rest projected err log hdone hw hstore =>
    exact ⟨_, .single (Proc.store_setWriter _ _ _ _ rfl (by rw [hw]; rfl) rfl)⟩
  | append done rest why wal file hw hwal hfile =>
    exact ⟨_, .single (Proc.store_setWriter _ _ _ _ rfl (by rw [hw]; rfl) rfl)⟩
  | apply w stored todo rest why a hw hmem hack =>
    exact hput a w stored _ hmem (by rw [hw]; rfl) rfl
  | applyCrossing w stored rest a hw hmem => exact hput a w stored _ hmem (by rw [hw]; rfl) rfl
  | batchDone rest hw =>
    exact ⟨_, .single (Proc.store_setWriter _ _ _ _ rfl (by rw [hw]; rfl) (Writer.handing_next rest))⟩
  | batchFail rest err hw =>
    exact ⟨_, .single (Proc.store_setWriter _ _ _ _ rfl (by rw [hw]; rfl) rfl)⟩
  | rotate now last rest a hw hmem hcreate =>
    obtain ⟨-, -, hholds⟩ := h.records_of_nil_logged hmem (by rw [hw]; rfl)
    have hne : p.db.heap a ≠ [] := hholds.ne_nil (h.rotating last rest hw)
    have hqueue : Proc.pending { p with
        db := p.db.rotateMemtable a (walID now)
        writer := .sending (p.db.toFlush a) last rest } = p.pending ++ [p.db.toFlush a] := by
      simp [Proc.pending, Writer.handing, hw, h.handing_of_busy (by simp [hw])]
    have hrotate : StoreStep (p.store dir) .internal _ := .rotate a (walID now) hmem hne
    change StoreStep _ _ { p.store dir with
      db := p.db.rotateMemtable a (walID now), queue := p.pending ++ [p.db.toFlush a] } at hrotate
    rw [← hqueue] at hrotate
    exact ⟨_, .single hrotate⟩
  | send imm last rest hw hroom =>
    refine ⟨_, .single (Proc.store_bookkeeping rfl rfl ?_ rfl)⟩
    have hhanding : (Writer.sending imm last rest).handing = [imm] := rfl
    simp [Proc.pending, Writer.handing_next, hw, hhanding]

/-- **The steps of the flush loop** are, unless a flush fails. -/
theorem flusherStep_store (h : Live gets dir p s g) (hstep : FlusherStep (dir, p) l (dir', p'))
    (hadm : Admissible gets dir p l) (hfresh : FreshFlush p l) (hl : l ≠ .failFlush) :
    ∃ es, Run StoreStep (p.store dir) es (p'.store dir') := by
  cases hstep with
  | receive imm ch hf hch =>
    refine ⟨_, .single (Proc.store_bookkeeping rfl rfl ?_ ?_)⟩
    · simp [Proc.pending, hf, hch, Flusher.current]
    · simp [Proc.store, hf]
  | syncValueLog imm hf =>
    refine ⟨_, .single (Proc.store_bookkeeping rfl rfl ?_ ?_)⟩
    · simp [Proc.pending, hf, Flusher.current]
    · simp [Proc.store, hf]
  | flush now imm hf =>
    have hq := pending_eq_cons (p := p) (show p.flusher.current = [imm] by rw [hf]; rfl)
    have hflush := StoreStep.flush (s := p.store dir) now imm (behind p) hq (by simp [Proc.store, hf])
      hadm.1 hadm.2 hfresh
    refine ⟨[.internal], .single ?_⟩
    convert hflush using 1
    simp [Proc.store, Proc.pending, hf, Flusher.current]
  | failFlush imm hf => exact absurd rfl hl
  | install imm t now db hf hi =>
    have hq := pending_eq_cons (p := p) (show p.flusher.current = [imm] by rw [hf]; rfl)
    have hinstall := StoreStep.install (s := p.store dir) now imm (behind p) t db hq
      (by simp [Proc.store, hf]) hi
    exact ⟨_, .single hinstall⟩
  -- an install fails only if its table is missing, which an admissible one is not
  | failInstall imm t now db hf hi =>
    obtain ⟨db', hi', -⟩ := h.install hf (hadm imm t hf) now
    simp [hi] at hi'
  | removeWAL path paths hf =>
    refine ⟨_, .single (Proc.store_bookkeeping rfl rfl ?_ ?_)⟩
    · simp [Proc.pending, hf, Flusher.current]
    · simp [Proc.store, hf]
  | removed hf =>
    refine ⟨_, .single (Proc.store_bookkeeping rfl rfl ?_ ?_)⟩
    · simp [Proc.pending, hf, Flusher.current]
    · simp [Proc.store, hf]

/-- **A store that has just been opened** is a start of the readers' system. -/
theorem started {db : DB} (h : Live gets dir (Proc.start db) s g) (herr : db.flushErr = none)
    (hopen : db.readState.closed = false) :
    Shared.Started ⟨(Proc.start db).store dir, fun _ => .idle⟩ where
  memtable := by
    obtain ⟨a, hmem⟩ := Option.ne_none_iff_exists'.mp (h.closing.attached (Or.inl rfl))
    have hallocated := h.heap.allocated a
    rw [hmem] at hallocated
    exact ⟨a, hmem, hallocated (by simp)⟩
  immutable_eq := by
    -- without a kept error no memtable is stuck, so at the opening there is none to flush
    have himm := h.immutable_eq
    rw [h.stuck_nil herr] at himm
    exact himm
  published := h.closing.published hopen
  queue_eq := rfl
  written_eq := rfl
  tables := h.tables.tabled
  readers := fun _ => rfl

end Live

/-- A step of the writer or of the flush loop in which no flush fails or takes the name of a table. -/
def ServedStep (gets : Prop) (w : Dir × Proc) (l : Label) (w' : Dir × Proc) : Prop :=
  Admissible gets w.1 w.2 l ∧ FreshFlush w.2 l ∧ l ≠ .failFlush ∧
    ((∃ e, WriterStep w l e w') ∨ FlusherStep w l w')

/-- **Every run of the writer and the flush loop** is a run of the store beside its readers. -/
theorem Live.run_store {gets : Prop} {w w' : Dir × Proc} {s : Spec} {g : Ghost} {ls : List Label}
    (h : Live gets w.1 w.2 s g) (hrun : Run (ServedStep gets) w ls w') :
    ∃ es s' g', Run StoreStep (w.2.store w.1) es (w'.2.store w'.1) ∧ Live gets w'.1 w'.2 s' g' := by
  induction hrun with
  | refl => exact ⟨_, s, g, .refl _, h⟩
  -- a step of either party is one or no step of the store, and keeps the invariant for the next
  | tail _ hstep ih =>
    obtain ⟨es, s', g', hes, h'⟩ := ih
    obtain ⟨hadm, hfresh, hl, ⟨e, hwriter⟩ | hflusher⟩ := hstep
    · obtain ⟨es', hes'⟩ := h'.writerStep_store hwriter
      obtain ⟨s'', g'', -, h''⟩ := h'.writerStep hwriter hadm
      exact ⟨_, s'', g'', hes.trans hes', h''⟩
    · obtain ⟨es', hes'⟩ := h'.flusherStep_store hflusher hadm hfresh hl
      obtain ⟨g'', h''⟩ := h'.flusherStep hflusher hadm hfresh
      exact ⟨_, s', g'', hes.trans hes', h''⟩

end Seol
