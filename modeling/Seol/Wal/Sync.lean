import Seol.Common.BufWriter
import Seol.Common.Transition
import Seol.Record

/-!
# Acknowledged WAL records are durable

Reference: `appendBatch`, `close`, `syncLoop` and `flushAndSyncLocked` in `wal.go`. A WAL with a
sync interval of zero writes and syncs every batch itself; otherwise batches go to a buffered writer
and a background loop flushes and syncs them. The steps are the critical sections under `w.mu`, in
any order, with any write, flush or sync failing. The counters are taken as natural numbers: a
`uint64` is not exhausted by counting records.
-/

namespace Seol

open Common

/-- `walBufferedWriterSize`. -/
def walBufferedWriterSize : ℕ := 64 * 2 ^ 10

/-- The errors of `appendBatch`. -/
inductive AppendError where
  | closed
  | io
  | closedBeforeDurable
deriving DecidableEq

/-- A call of `appendBatch`. Calls are numbered in the order in which they take the lock. -/
structure BatchCall where
  id : ℕ
  entries : List (Bytes × Bytes)
  waitForSync : Bool
deriving DecidableEq

/-- A call in `cond.Wait`, and the record count it waits for. -/
structure Waiter where
  call : BatchCall
  target : ℕ
deriving DecidableEq

/-- A WAL in memory. `synced` is the length of the file at its last successful sync, `opened` says
that `w.f` is not nil, `calls` counts the calls of `appendBatch`, and the channels and the timer of
the loop are empty or hold one signal. -/
structure Wal where
  syncInterval : ℤ
  out : BufWriter
  synced : ℕ
  pending : ℕ
  durable : ℕ
  syncErr : Option AppendError
  closed : Bool
  opened : Bool
  wakeCh : Bool
  closeCh : Bool
  timer : Bool
  looping : Bool
  waiting : List Waiter
  calls : ℕ

namespace Wal

/-- `newWAL` on a file with the given contents. -/
def new (file : Bytes) (syncInterval : ℤ) : Wal where
  syncInterval := syncInterval
  out := ⟨walBufferedWriterSize, file, [], false⟩
  synced := 0
  pending := 0
  durable := 0
  syncErr := none
  closed := false
  opened := true
  wakeCh := false
  closeCh := false
  timer := false
  looping := decide (0 < syncInterval)
  waiting := []
  calls := 0

/-- `f.Sync`, which succeeds when `syncs` says so. -/
def syncFile (w : Wal) (syncs : Bool) : Option AppendError × Wal :=
  if syncs then (none, { w with synced := w.out.file.length }) else (some .io, w)

/-- `flushAndSyncLocked`. A writer with an empty buffer is not flushed, failed or not. -/
def flushAndSyncLocked (w : Wal) (fault : Option ℕ) (syncs : Bool) : Option AppendError × Wal :=
  if w.out.buf = [] then w.syncFile syncs
  else
    let w' : Wal := { w with out := w.out.flush fault }
    if w'.out.failed then (some .io, w') else w'.syncFile syncs

/-- `writeAndSyncRecordLocked`: the records go to the file past the buffered writer. -/
def writeAndSyncRecordLocked (w : Wal) (records : Bytes) (fault : Option ℕ) (syncs : Bool) :
    Option AppendError × Wal :=
  let w' : Wal := { w with
    out := { w.out with file := w.out.file ++ records.take (fault.getD records.length) } }
  if fault.isSome then (some .io, w') else w'.syncFile syncs

/-- The wait loop of `appendBatch` on waking up: `none` waits on. -/
def poll (w : Wal) (target : ℕ) : Option (Except AppendError Unit) :=
  if w.durable < target ∧ w.syncErr = none ∧ w.closed = false then none
  else match w.syncErr with
    | some e => some (.error e)
    | none => if w.durable < target then some (.error .closedBeforeDurable) else some (.ok ())

/-- `appendBatch` up to its return, or up to its first wait (`none`). `faults` are the outcomes of
the writes of the file, `syncs` that of the sync. -/
def appendBatch (w : Wal) (c : BatchCall) (faults : List (Option ℕ)) (syncs : Bool) :
    Option (Except AppendError Unit) × Wal :=
  if c.entries = [] then (some (.ok ()), w)
  else if w.closed then (some (.error .closed), w)
  else match w.syncErr with
    | some e => (some (.error e), w)
    | none =>
      let records := encodeRecords c.entries
      let w : Wal := { w with pending := w.pending + c.entries.length }
      if w.syncInterval ≤ 0 then
        match w.writeAndSyncRecordLocked records (faults.head?.getD none) syncs with
        | (some e, w') => (some (.error e), { w' with syncErr := some e })
        | (none, w') => (some (.ok ()), { w' with durable := w'.pending })
      else
        let w : Wal := { w with out := w.out.write records faults }
        -- a failed write is returned, but not remembered in `syncErr`
        if w.out.failed then (some (.error .io), w)
        else
          let w : Wal := { w with wakeCh := true }
          if c.waitForSync = false then (some (.ok ()), w)
          else match w.poll w.pending with
            | some r => (some r, w)
            | none => (none, { w with waiting := w.waiting ++ [⟨c, w.pending⟩] })

/-- The critical section of both syncing cases of `syncLoop`. -/
def syncPending (w : Wal) (fault : Option ℕ) (syncs : Bool) : Wal :=
  if w.durable < w.pending ∧ w.syncErr = none then
    match w.flushAndSyncLocked fault syncs with
    | (some e, w') => { w' with syncErr := some e }
    | (none, w') => { w' with durable := w'.pending }
  else w

/-- The critical section of `close` without a sync loop. Here `durable` follows `pending` even when
the flush fails. -/
def closeDirect (w : Wal) (fault : Option ℕ) (syncs : Bool) : Wal :=
  let w : Wal :=
    if w.durable < w.pending ∧ w.syncErr = none then
      match w.flushAndSyncLocked fault syncs with
      | (some e, w') => { w' with syncErr := some e, durable := w'.pending }
      | (none, w') => { w' with durable := w'.pending }
    else w
  { w with closed := true, opened := false }

end Wal

/-- What the goroutines of a WAL do: a call runs up to its return or its first wait, a waiting call
wakes up for good and returns, or the loop or a `close` takes a step. That a waiting call sleeps until
a `cond.Broadcast` is left to `Wal.Broadcast`: none of them misses one. -/
inductive WalEvent where
  | append (c : BatchCall) (r : Option (Except AppendError Unit))
  | wake (c : BatchCall) (r : Except AppendError Unit)
  | sync
  | close

/-- One step of the goroutines of a WAL. -/
inductive WalStep : Wal → WalEvent → Wal → Prop
  | append (w : Wal) (entries : List (Bytes × Bytes)) (waitForSync : Bool)
      (faults : List (Option ℕ)) (syncs : Bool) :
      WalStep w (.append ⟨w.calls, entries, waitForSync⟩
          (w.appendBatch ⟨w.calls, entries, waitForSync⟩ faults syncs).1)
        { (w.appendBatch ⟨w.calls, entries, waitForSync⟩ faults syncs).2 with calls := w.calls + 1 }
  | wake {w : Wal} {x : Waiter} {r : Except AppendError Unit} (hx : x ∈ w.waiting)
      (h : w.poll x.target = some r) :
      WalStep w (.wake x.call r) { w with waiting := w.waiting.erase x }
  | startTimer {w : Wal} (hloop : w.looping = true) (h : w.wakeCh = true) :
      WalStep w .sync { w with wakeCh := false, timer := true }
  | timer {w : Wal} (hloop : w.looping = true) (h : w.timer = true) (fault : Option ℕ)
      (syncs : Bool) :
      WalStep w .sync { w.syncPending fault syncs with timer := false, looping := !w.closed }
  | closeLoop {w : Wal} (hloop : w.looping = true) (h : w.closeCh = true) (fault : Option ℕ)
      (syncs : Bool) :
      WalStep w .sync
        { w.syncPending fault syncs with timer := false, closeCh := false, looping := false }
  | closeDirect {w : Wal} (hinterval : w.syncInterval ≤ 0) (h : w.opened = true) (fault : Option ℕ)
      (syncs : Bool) : WalStep w .close (w.closeDirect fault syncs)
  | closeBegin {w : Wal} (hinterval : 0 < w.syncInterval) (h : w.opened = true) :
      WalStep w .close { w with closed := true, closeCh := true }
  | closeEnd {w : Wal} (hinterval : 0 < w.syncInterval) (h : w.closed = true)
      (hloop : w.looping = false) : WalStep w .close { w with opened := false }

/-- The calls whose records were all handed on to the file or to the buffered writer. -/
def wroteOf (es : List WalEvent) : List BatchCall :=
  es.flatMap fun
    | .append c none => [c]
    | .append c (some (.ok ())) => if c.entries = [] then [] else [c]
    | _ => []

/-- A call that returned nil. -/
def Returned (es : List WalEvent) (c : BatchCall) : Prop :=
  .append c (some (.ok ())) ∈ es ∨ .wake c (.ok ()) ∈ es

@[simp] theorem wroteOf_append (es es' : List WalEvent) :
    wroteOf (es ++ es') = wroteOf es ++ wroteOf es' := by
  simp [wroteOf]

theorem returned_append {es es' : List WalEvent} {c : BatchCall} :
    Returned (es ++ es') c ↔ Returned es c ∨ Returned es' c := by
  simp only [Returned, List.mem_append, or_or_or_comm]

/-- The records of a sequence of calls. -/
def recordsOfCalls (cs : List BatchCall) : Bytes := encodeRecords (cs.flatMap (·.entries))

theorem recordsOfCalls_append (cs cs' : List BatchCall) :
    recordsOfCalls (cs ++ cs') = recordsOfCalls cs ++ recordsOfCalls cs' := by
  simp [recordsOfCalls, encodeRecords_append]

/-- `c` is one of the calls `wrote`, and its records stand in the file, behind `init` and the
records of the calls before it, within the contents that a successful sync covered. -/
def Covered (init : Bytes) (wrote : List BatchCall) (w : Wal) (c : BatchCall) : Prop :=
  ∃ before after, wrote = before ++ c :: after ∧
    init ++ recordsOfCalls (before ++ [c]) <+: w.out.file.take w.synced

/-! ## What is durable stays durable -/

/-- The file only grows, and so does its synced part. -/
structure Wal.Grows (w w' : Wal) : Prop where
  file : w.out.file <+: w'.out.file
  synced : w.synced ≤ w'.synced

theorem Wal.Grows.refl (w : Wal) : w.Grows w := ⟨List.prefix_refl _, le_rfl⟩

theorem Covered.mono {init : Bytes} {wrote more : List BatchCall} {w w' : Wal} {c : BatchCall}
    (h : Covered init wrote w c) (hg : w.Grows w') : Covered init (wrote ++ more) w' c := by
  obtain ⟨before, after, rfl, hpre⟩ := h
  refine ⟨before, after ++ more, by simp, hpre.trans ?_⟩
  obtain ⟨t, ht⟩ := hg.file
  rw [← ht]
  exact (List.take_prefix_take_left hg.synced).trans (by
    rw [List.take_append]
    exact List.prefix_append _ _)

theorem Covered.grows {init : Bytes} {wrote : List BatchCall} {w w' : Wal} {c : BatchCall}
    (h : Covered init wrote w c) (hg : w.Grows w') : Covered init wrote w' c :=
  List.append_nil wrote ▸ h.mono hg

/-! ## The invariant -/

/-- What holds of a WAL that was opened on the contents `init` and to which the calls `wrote` were
written. -/
structure WalInv (init : Bytes) (wrote : List BatchCall) (w : Wal) : Prop where
  written : init ++ recordsOfCalls wrote <+: w.out.contents
  exact : w.out.failed = false → w.syncErr = none → w.out.contents = init ++ recordsOfCalls wrote
  synced_le : w.synced ≤ w.out.file.length
  durable_le : w.durable ≤ w.pending
  direct : w.syncInterval ≤ 0 → w.out.buf = [] ∧ w.out.failed = false ∧
    (w.syncErr = none → w.durable = w.pending)
  waiters : ∀ x ∈ w.waiting, x.target ≤ w.pending ∧ x.call ∈ wrote ∧
    (x.target ≤ w.durable → Covered init wrote w x.call)
  numbered : ∀ c ∈ wrote, c.id < w.calls
  ordered : (wrote.map (·.id)).Pairwise (· < ·)

variable {init : Bytes} {wrote : List BatchCall} {w : Wal}

theorem walInv_new (init : Bytes) (syncInterval : ℤ) :
    WalInv init [] (Wal.new init syncInterval) where
  written := by simp [Wal.new, BufWriter.contents, recordsOfCalls]
  exact _ _ := by simp [Wal.new, BufWriter.contents, recordsOfCalls]
  synced_le := Nat.zero_le _
  durable_le := le_rfl
  direct _ := ⟨rfl, rfl, fun _ => rfl⟩
  waiters := by simp [Wal.new]
  numbered := by simp
  ordered := List.Pairwise.nil

/-- When nothing is buffered and the whole file is synced, every written call is covered. -/
theorem covered_of_synced {out : BufWriter} {c : BatchCall}
    (hwritten : init ++ recordsOfCalls wrote <+: out.contents) (hbuf : out.buf = [])
    (hout : w.out = out) (hsynced : w.synced = out.file.length) (hc : c ∈ wrote) :
    Covered init wrote w c := by
  obtain ⟨before, after, rfl⟩ := List.append_of_mem hc
  refine ⟨before, after, rfl, ?_⟩
  rw [hout, hsynced, List.take_length]
  rw [BufWriter.contents, hbuf, List.append_nil] at hwritten
  refine List.IsPrefix.trans ?_ hwritten
  rw [List.prefix_append_right_inj, List.append_cons before c after, recordsOfCalls_append _ after]
  exact List.prefix_append _ _

/-! ## The sync loop -/

/-- What flushing and syncing can do: bytes move from the buffer to the file, and after a success
nothing is buffered and the whole file is synced. -/
theorem Wal.flushAndSyncLocked_cases (w : Wal) (fault : Option ℕ) (syncs : Bool)
    (hsynced : w.synced ≤ w.out.file.length) :
    ∃ out synced, (w.flushAndSyncLocked fault syncs).2 = { w with out := out, synced := synced } ∧
      out.contents = w.out.contents ∧ (out.failed = false → w.out.failed = false) ∧
      (w.out.buf = [] → out = w.out) ∧ w.out.file <+: out.file ∧ w.synced ≤ synced ∧
      synced ≤ out.file.length ∧
      ((w.flushAndSyncLocked fault syncs).1 = none → out.buf = [] ∧ synced = out.file.length) := by
  simp only [flushAndSyncLocked]
  split_ifs with hbuf hfailed
  · cases syncs with
    | false =>
      exact ⟨w.out, w.synced, rfl, rfl, id, fun _ => rfl, List.prefix_refl _, le_rfl, hsynced,
        fun h => by simp [syncFile] at h⟩
    | true =>
      exact ⟨w.out, w.out.file.length, rfl, rfl, id, fun _ => rfl, List.prefix_refl _, hsynced,
        le_rfl, fun _ => ⟨hbuf, rfl⟩⟩
  -- the flush fails: part of the buffer is in the file, and nothing is synced
  · have hle := hsynced.trans (w.out.flush_file_prefix fault).length_le
    refine ⟨w.out.flush fault, w.synced, rfl, w.out.flush_contents fault, fun h => ?_,
      fun h => absurd h hbuf, w.out.flush_file_prefix fault, le_rfl, hle, fun h => by simp at h⟩
    rw [h] at hfailed
    exact absurd hfailed Bool.false_ne_true
  · have hle := hsynced.trans (w.out.flush_file_prefix fault).length_le
    have hflush : (w.out.flush fault).failed = false := by simpa using hfailed
    have hok : (w.out.flush fault).failed = false → w.out.failed = false := by
      intro _
      by_contra hw
      rw [BufWriter.failed_flush fault (by simpa using hw)] at hflush
      exact absurd hflush.symm Bool.false_ne_true
    cases syncs with
    | false =>
      exact ⟨w.out.flush fault, w.synced, rfl, w.out.flush_contents fault, hok,
        fun h => absurd h hbuf, w.out.flush_file_prefix fault, le_rfl, hle,
        fun h => by simp [syncFile] at h⟩
    | true =>
      exact ⟨w.out.flush fault, (w.out.flush fault).file.length, rfl, w.out.flush_contents fault,
        hok, fun h => absurd h hbuf, w.out.flush_file_prefix fault, hle, le_rfl,
        fun _ => ⟨BufWriter.flush_buf hflush, rfl⟩⟩

/-- A state with other bookkeeping but the same log. -/
theorem WalInv.congr {w' : Wal} (h : WalInv init wrote w) (hout : w'.out = w.out)
    (hsynced : w'.synced = w.synced) (hpending : w'.pending = w.pending)
    (hdurable : w'.durable = w.durable) (herr : w'.syncErr = w.syncErr)
    (hinterval : w'.syncInterval = w.syncInterval) (hwaiting : ∀ x ∈ w'.waiting, x ∈ w.waiting)
    (hcalls : w.calls ≤ w'.calls) : WalInv init wrote w' where
  written := hout ▸ h.written
  exact := hout ▸ herr ▸ h.exact
  synced_le := hout ▸ hsynced ▸ h.synced_le
  durable_le := hdurable ▸ hpending ▸ h.durable_le
  direct := by
    rw [hinterval, hout, herr, hdurable, hpending]
    exact h.direct
  waiters x hx := by
    rw [hpending, hdurable]
    obtain ⟨hle, hmem, hcov⟩ := h.waiters x (hwaiting x hx)
    refine ⟨hle, hmem, fun ht => ?_⟩
    unfold Covered
    rw [hout, hsynced]
    exact hcov ht
  numbered c hc := (h.numbered c hc).trans_le hcalls
  ordered := h.ordered

/-- **The sync loop keeps the invariant**: it moves `durable` up only when everything written so far
is in the synced file. -/
theorem WalInv.syncPending (h : WalInv init wrote w) (fault : Option ℕ) (syncs : Bool) :
    WalInv init wrote (w.syncPending fault syncs) ∧ w.Grows (w.syncPending fault syncs) := by
  unfold Wal.syncPending
  split_ifs with hdue
  · obtain ⟨out, synced, hw', hcontents, hfailed, hsame, hfile, hgrow, hle, hok⟩ :=
      w.flushAndSyncLocked_cases fault syncs h.synced_le
    have hwritten : init ++ recordsOfCalls wrote <+: out.contents := hcontents ▸ h.written
    have hexact : out.failed = false → w.syncErr = none →
        out.contents = init ++ recordsOfCalls wrote :=
      fun hf he => hcontents ▸ h.exact (hfailed hf) he
    have hgrows : ∀ {w' : Wal}, w'.out = out → w'.synced = synced → w.Grows w' :=
      fun ho hs => ⟨ho ▸ hfile, hs ▸ hgrow⟩
    -- only a round without an error moves `durable`
    cases hres : w.flushAndSyncLocked fault syncs with
    | mk e w' =>
      rw [hres] at hw' hok
      obtain rfl : w' = { w with out := out, synced := synced } := hw'
      cases e with
      | some e =>
        refine ⟨⟨hwritten, fun _ he => by simp at he, hle, h.durable_le, fun hi => ?_,
          fun x hx => ?_, h.numbered, h.ordered⟩, hgrows rfl rfl⟩
        -- in direct mode nothing is buffered, so the round changes nothing
        · obtain ⟨hbuf, hf, -⟩ := h.direct hi
          obtain rfl := hsame hbuf
          exact ⟨hbuf, hf, fun he => by simp at he⟩
        · obtain ⟨ht, hmem, hcov⟩ := h.waiters x hx
          refine ⟨ht, hmem, fun hd => ?_⟩
          exact (hcov hd).grows (hgrows rfl rfl)
      | none =>
        obtain ⟨hbuf', hsynced'⟩ := hok rfl
        refine ⟨⟨hwritten, hexact, hle, le_rfl, fun hi => ?_, fun x hx => ?_, h.numbered,
          h.ordered⟩, hgrows rfl rfl⟩
        · obtain ⟨hbuf, hf, -⟩ := h.direct hi
          obtain rfl := hsame hbuf
          exact ⟨hbuf, hf, fun _ => rfl⟩
        -- all that was written is in the file now, and all of the file is synced
        · obtain ⟨ht, hmem, -⟩ := h.waiters x hx
          exact ⟨ht, hmem, fun _ => covered_of_synced hwritten hbuf' rfl hsynced' hmem⟩
  · exact ⟨h, .refl w⟩

/-! ## Appends -/

theorem recordsOfCalls_concat (cs : List BatchCall) (c : BatchCall) :
    recordsOfCalls (cs ++ [c]) = recordsOfCalls cs ++ encodeRecords c.entries := by
  simp [recordsOfCalls, encodeRecords_append]

/-- A batch whose write or sync failed: part of it is left behind the written records, and nothing
is written any more. -/
theorem WalInv.failed {out : BufWriter} {err : Option AppendError} {t : Bytes}
    (h : WalInv init wrote w) (n : ℕ) (hcontents : out.contents = w.out.contents ++ t)
    (hfile : w.out.file <+: out.file) (hstuck : out.failed = true ∨ err.isSome = true)
    (hdirect : w.syncInterval ≤ 0 → out.buf = [] ∧ out.failed = false) :
    WalInv init wrote
        { w with pending := w.pending + n, out := out, syncErr := err, calls := w.calls + 1 } ∧
      w.Grows
        { w with pending := w.pending + n, out := out, syncErr := err, calls := w.calls + 1 } := by
  have hgrows : w.Grows
      { w with pending := w.pending + n, out := out, syncErr := err, calls := w.calls + 1 } :=
    ⟨hfile, le_rfl⟩
  refine ⟨⟨?_, fun hf he => ?_, h.synced_le.trans hfile.length_le, ?_, fun hi => ?_, fun x hx => ?_,
    fun c hc => Nat.lt_succ_of_lt (h.numbered c hc), h.ordered⟩, hgrows⟩
  · rw [hcontents]
    exact h.written.trans (List.prefix_append _ _)
  · dsimp only at hf he
    rw [hf, he] at hstuck
    simp at hstuck
  · exact h.durable_le.trans (Nat.le_add_right _ _)
  · obtain ⟨hbuf, hf⟩ := hdirect hi
    refine ⟨hbuf, hf, fun he => ?_⟩
    dsimp only at he
    rw [hf, he] at hstuck
    simp at hstuck
  · obtain ⟨ht, hmem, hcov⟩ := h.waiters x hx
    refine ⟨ht.trans (Nat.le_add_right _ _), hmem, fun hd => ?_⟩
    exact (hcov hd).grows hgrows

/-- A batch that was written as a whole, with what `appendBatch` does afterwards: raise `durable`
once the file is synced, or queue the call. -/
theorem WalInv.extend {w' : Wal} {c : BatchCall} (h : WalInv init wrote w)
    (hid : c.id = w.calls) (herr : w.syncErr = none) (hfailed : w.out.failed = false)
    (hcontents : w'.out.contents = w.out.contents ++ encodeRecords c.entries)
    (hgrows : w.Grows w') (hsynced : w'.synced ≤ w'.out.file.length)
    (hpending : w.pending ≤ w'.pending) (hdurable : w'.durable ≤ w'.pending)
    (hcovered : w'.durable = w.durable ∨ w'.out.buf = [] ∧ w'.synced = w'.out.file.length)
    (hdirect : w'.syncInterval ≤ 0 → w'.out.buf = [] ∧ w'.out.failed = false ∧
      (w'.syncErr = none → w'.durable = w'.pending))
    (hwaiting : ∀ x ∈ w'.waiting, x ∈ w.waiting ∨
      x.call = c ∧ x.target ≤ w'.pending ∧ w.durable < x.target)
    (hcalls : w'.calls = w.calls + 1) : WalInv init (wrote ++ [c]) w' := by
  have hwritten : w'.out.contents = init ++ recordsOfCalls (wrote ++ [c]) := by
    rw [hcontents, h.exact hfailed herr, recordsOfCalls_concat, List.append_assoc]
  refine ⟨hwritten ▸ List.prefix_refl _, fun _ _ => hwritten, hsynced, hdurable, hdirect,
    fun x hx => ?_, fun d hd => ?_, ?_⟩
  · have hmem : x.target ≤ w'.pending ∧ x.call ∈ wrote ++ [c] := by
      rcases hwaiting x hx with hx | ⟨rfl, ht, -⟩
      · exact ⟨(h.waiters x hx).1.trans hpending, List.mem_append_left _ (h.waiters x hx).2.1⟩
      · exact ⟨ht, by simp⟩
    refine ⟨hmem.1, hmem.2, fun hd => ?_⟩
    rcases hcovered with hsame | ⟨hbuf, hlen⟩
    · rw [hsame] at hd
      rcases hwaiting x hx with hx | ⟨-, -, hlt⟩
      · exact ((h.waiters x hx).2.2 hd).mono hgrows
      · omega
    · exact covered_of_synced (hwritten ▸ List.prefix_refl _) hbuf rfl hlen hmem.2
  · rw [hcalls]
    rcases List.mem_append.mp hd with hd | hd
    · exact Nat.lt_succ_of_lt (h.numbered d hd)
    · rw [List.mem_singleton.mp hd, hid]
      exact Nat.lt_succ_self _
  · rw [List.map_append, List.pairwise_append]
    refine ⟨h.ordered, List.pairwise_singleton _ _, fun a ha b hb => ?_⟩
    obtain ⟨d, hd, rfl⟩ := List.mem_map.mp ha
    rw [List.map_singleton, List.mem_singleton] at hb
    rw [hb, hid]
    exact h.numbered d hd

/-- What a step must show of the call it is about. -/
structure AppendOK (init : Bytes) (wrote : List BatchCall) (w : Wal) (c : BatchCall)
    (r : Option (Except AppendError Unit)) (w' : Wal) : Prop where
  inv : WalInv init (wrote ++ wroteOf [.append c r]) w'
  grows : w.Grows w'
  acked : r = some (.ok ()) → c.waitForSync = true → c.entries ≠ [] →
    Covered init (wrote ++ wroteOf [.append c r]) w' c

/-- **A call is turned away, or it writes.** An empty batch, a closed WAL and a kept error end it before
anything changes. -/
theorem Wal.appendBatch_cases (w : Wal) (c : BatchCall) (faults : List (Option ℕ)) (syncs : Bool) :
    (∃ r, w.appendBatch c faults syncs = (some r, w) ∧ (r = .ok () → c.entries = [])) ∨
      c.entries ≠ [] ∧ w.closed = false ∧ w.syncErr = none := by
  by_cases hne : c.entries = []
  · exact .inl ⟨.ok (), by rw [appendBatch, if_pos hne], fun _ => hne⟩
  cases hclosed : w.closed with
  | true => exact .inl ⟨.error .closed, by rw [appendBatch, if_neg hne, if_pos hclosed], by simp⟩
  | false =>
    cases herr : w.syncErr with
    | some e => exact .inl ⟨.error e, by simp [appendBatch, hne, hclosed, herr], by simp⟩
    | none => exact .inr ⟨hne, rfl, rfl⟩

theorem wroteOf_turnedAway {c : BatchCall} {r : Except AppendError Unit}
    (hr : r = .ok () → c.entries = []) : wroteOf [.append c (some r)] = [] := by
  cases r with
  | error e => rfl
  | ok u => simp [wroteOf, hr rfl]

/-- A call that is turned away keeps the invariant. -/
theorem WalInv.turnedAway (h : WalInv init wrote w) {c : BatchCall} {r : Except AppendError Unit}
    (hr : r = .ok () → c.entries = []) :
    AppendOK init wrote w c (some r) { w with calls := w.calls + 1 } := by
  refine ⟨?_, ⟨List.prefix_refl _, le_rfl⟩,
    fun hok _ hne => absurd (hr (Option.some.inj hok)) hne⟩
  rw [wroteOf_turnedAway hr, List.append_nil]
  exact h.congr rfl rfl rfl rfl rfl rfl (fun _ hx => hx) (Nat.le_succ _)

section Cases

variable {c : BatchCall} {faults : List (Option ℕ)} {syncs : Bool}
  (hne : c.entries ≠ []) (hclosed : w.closed = false) (herr : w.syncErr = none)

include hne hclosed herr

/-- A direct write is synced as a whole, or leaves a part of the batch and a kept error. -/
theorem Wal.appendBatch_direct_cases (hdirect : w.syncInterval ≤ 0) (faults : List (Option ℕ))
    (syncs : Bool) :
    w.appendBatch c faults syncs = (some (.ok ()), { w with
        out := { w.out with file := w.out.file ++ encodeRecords c.entries }
        synced := (w.out.file ++ encodeRecords c.entries).length
        pending := w.pending + c.entries.length
        durable := w.pending + c.entries.length }) ∨
      ∃ t, t <+: encodeRecords c.entries ∧
        w.appendBatch c faults syncs = (some (.error .io), { w with
          out := { w.out with file := w.out.file ++ t }
          pending := w.pending + c.entries.length
          syncErr := some .io }) := by
  cases hfault : faults.head?.getD none with
  | some n =>
    refine .inr ⟨(encodeRecords c.entries).take n, List.take_prefix _ _, ?_⟩
    simp [appendBatch, writeAndSyncRecordLocked, hne, hclosed, herr, hdirect, hfault]
  | none =>
    -- all is written, and the sync decides
    cases syncs with
    | true =>
      left
      simp [appendBatch, writeAndSyncRecordLocked, syncFile, hne, hclosed, herr, hdirect, hfault]
    | false =>
      refine .inr ⟨encodeRecords c.entries, List.prefix_refl _, ?_⟩
      simp [appendBatch, writeAndSyncRecordLocked, syncFile, hne, hclosed, herr, hdirect, hfault]

theorem Wal.appendBatch_buffered_failed (hbuffered : ¬ w.syncInterval ≤ 0)
    (hfailed : (w.out.write (encodeRecords c.entries) faults).failed = true) :
    w.appendBatch c faults syncs = (some (.error .io), { w with
      out := w.out.write (encodeRecords c.entries) faults
      pending := w.pending + c.entries.length }) := by
  simp [appendBatch, hne, hclosed, herr, hbuffered, hfailed]

theorem Wal.appendBatch_buffered (hbuffered : ¬ w.syncInterval ≤ 0)
    (hok : (w.out.write (encodeRecords c.entries) faults).failed = false)
    (hdurable : w.durable ≤ w.pending) :
    w.appendBatch c faults syncs =
      (if c.waitForSync = true then none else some (.ok ()), { w with
        out := w.out.write (encodeRecords c.entries) faults
        pending := w.pending + c.entries.length
        wakeCh := true
        waiting := if c.waitForSync = true then w.waiting ++ [⟨c, w.pending + c.entries.length⟩]
          else w.waiting }) := by
  have hpos : 0 < c.entries.length := List.length_pos_iff.mpr hne
  have hlt : w.durable < w.pending + c.entries.length := by omega
  by_cases hwait : c.waitForSync = true
  · simp [appendBatch, poll, hne, hclosed, herr, hbuffered, hok, hwait, hlt]
  · simp [appendBatch, hne, hclosed, herr, hbuffered, hok, hwait]

end Cases

/-- **A batch in direct mode** is acknowledged when it is written and synced. -/
theorem WalInv.appendDirect (h : WalInv init wrote w) {c : BatchCall} (hid : c.id = w.calls)
    (hne : c.entries ≠ []) (hclosed : w.closed = false) (herr : w.syncErr = none)
    (hdirect : w.syncInterval ≤ 0) (faults : List (Option ℕ)) (syncs : Bool) :
    AppendOK init wrote w c (w.appendBatch c faults syncs).1
      { (w.appendBatch c faults syncs).2 with calls := w.calls + 1 } := by
  obtain ⟨hbuf, hfailed, -⟩ := h.direct hdirect
  rcases Wal.appendBatch_direct_cases hne hclosed herr hdirect faults syncs with
    happ | ⟨t, -, happ⟩
  · rw [happ]
    have hwrote : wroteOf [.append c (some (.ok ()))] = [c] := by simp [wroteOf, hne]
    have hgrows : w.Grows { w with
        out := { w.out with file := w.out.file ++ encodeRecords c.entries }
        synced := (w.out.file ++ encodeRecords c.entries).length
        pending := w.pending + c.entries.length
        durable := w.pending + c.entries.length
        calls := w.calls + 1 } := by
      refine ⟨List.prefix_append _ _, ?_⟩
      dsimp only
      rw [List.length_append]
      exact h.synced_le.trans (Nat.le_add_right _ _)
    have hinv := h.extend hid herr hfailed (by simp [BufWriter.contents, hbuf]) hgrows le_rfl
      (Nat.le_add_right _ _) le_rfl (.inr ⟨hbuf, rfl⟩) (fun _ => ⟨hbuf, hfailed, fun _ => rfl⟩)
      (fun x hx => .inl hx) rfl
    refine ⟨hwrote ▸ hinv, hgrows, fun _ _ _ => ?_⟩
    rw [hwrote]
    exact covered_of_synced hinv.written hbuf rfl rfl (by simp)
  · rw [happ]
    have hcontents : ({ w.out with file := w.out.file ++ t } : BufWriter).contents =
        w.out.contents ++ t := by simp [BufWriter.contents, hbuf]
    obtain ⟨hinv, hgrows⟩ := h.failed c.entries.length hcontents (List.prefix_append _ _)
      (.inr (rfl : (some AppendError.io).isSome = true)) (fun _ => ⟨hbuf, hfailed⟩)
    exact ⟨by simpa [wroteOf] using hinv, hgrows, fun hr => by simp at hr⟩

/-- **A batch in buffered mode** is queued behind the records written before it. -/
theorem WalInv.appendBuffered (h : WalInv init wrote w) {c : BatchCall} (hid : c.id = w.calls)
    (hne : c.entries ≠ []) (hclosed : w.closed = false) (herr : w.syncErr = none)
    (hbuffered : ¬ w.syncInterval ≤ 0) (faults : List (Option ℕ)) (syncs : Bool) :
    AppendOK init wrote w c (w.appendBatch c faults syncs).1
      { (w.appendBatch c faults syncs).2 with calls := w.calls + 1 } := by
  obtain ⟨t, -, hcontents, hall⟩ := w.out.write_contents (encodeRecords c.entries) faults
  have hfile := w.out.write_file_prefix (encodeRecords c.entries) faults
  cases hres : (w.out.write (encodeRecords c.entries) faults).failed with
  | true =>
    rw [Wal.appendBatch_buffered_failed hne hclosed herr hbuffered hres]
    obtain ⟨hinv, hgrows⟩ := h.failed c.entries.length hcontents hfile
      (.inl (b := w.syncErr.isSome = true) hres) (fun hi => absurd hi hbuffered)
    exact ⟨by simpa [wroteOf] using hinv, hgrows, fun hr => by simp at hr⟩
  | false =>
    rw [Wal.appendBatch_buffered hne hclosed herr hbuffered hres h.durable_le]
    have hwrote : wroteOf [.append c (if c.waitForSync = true then none else some (.ok ()))] =
        [c] := by
      split_ifs <;> simp [wroteOf, hne]
    have hfailed : w.out.failed = false := by
      by_contra hf
      rw [BufWriter.failed_write _ _ (by simpa using hf)] at hres
      exact absurd hres.symm Bool.false_ne_true
    have hpos : 0 < c.entries.length := List.length_pos_iff.mpr hne
    have hdurable := h.durable_le
    rw [hall hres] at hcontents
    refine ⟨?_, ⟨hfile, le_rfl⟩, fun hr hwait => ?_⟩
    · rw [hwrote]
      refine h.extend hid herr hfailed hcontents ⟨hfile, le_rfl⟩
        (h.synced_le.trans hfile.length_le) (Nat.le_add_right _ _)
        (hdurable.trans (Nat.le_add_right _ _)) (.inl rfl) (fun hi => absurd hi hbuffered)
        (fun x hx => ?_) rfl
      dsimp only at hx
      split_ifs at hx
      · rcases List.mem_append.mp hx with hx | hx
        · exact .inl hx
        · rw [List.mem_singleton.mp hx]
          exact .inr ⟨rfl, le_rfl, by dsimp only; omega⟩
      · exact .inl hx
    · -- a call that asks for a sync is not answered yet
      simp [hwait] at hr

/-- **An append keeps the invariant**, and is acknowledged at once only when it is covered. -/
theorem WalInv.append (h : WalInv init wrote w) {c : BatchCall} (hid : c.id = w.calls)
    (faults : List (Option ℕ)) (syncs : Bool) :
    AppendOK init wrote w c (w.appendBatch c faults syncs).1
      { (w.appendBatch c faults syncs).2 with calls := w.calls + 1 } := by
  rcases w.appendBatch_cases c faults syncs with ⟨r, happ, hr⟩ | ⟨hne, hclosed, herr⟩
  · rw [happ]
    exact h.turnedAway hr
  · by_cases hmode : w.syncInterval ≤ 0
    · exact h.appendDirect hid hne hclosed herr hmode faults syncs
    · exact h.appendBuffered hid hne hclosed herr hmode faults syncs

/-! ## Runs -/

theorem Wal.poll_ok {target : ℕ} (h : w.poll target = some (.ok ())) : target ≤ w.durable := by
  by_contra hlt
  rw [not_le] at hlt
  simp only [poll, hlt, true_and, if_true] at h
  split_ifs at h
  cases herr : w.syncErr <;> simp [herr] at h

/-- `close` without a sync loop finds nothing to flush: a batch was synced, or its error was
kept. -/
theorem WalInv.closeDirect (h : WalInv init wrote w) (hdirect : w.syncInterval ≤ 0)
    (fault : Option ℕ) (syncs : Bool) :
    w.closeDirect fault syncs = { w with closed := true, opened := false } := by
  unfold Wal.closeDirect
  rw [if_neg]
  rintro ⟨hlt, herr⟩
  have heq := (h.direct hdirect).2.2 herr
  omega

/-- **Every step keeps the invariant**, and a step that returns nil from a call that asked for a
sync finds its records covered. -/
theorem WalInv.step {w' : Wal} {e : WalEvent} (h : WalInv init wrote w) (hs : WalStep w e w') :
    WalInv init (wrote ++ wroteOf [e]) w' ∧ w.Grows w' ∧
      ∀ c, Returned [e] c → c.waitForSync = true → c.entries ≠ [] →
        Covered init (wrote ++ wroteOf [e]) w' c := by
  -- the steps other than appends write nothing new
  have hquiet : ∀ {v : Wal} {e : WalEvent}, WalInv init wrote v → w.Grows v → wroteOf [e] = [] →
      (∀ c, Returned [e] c → Covered init wrote v c) →
      WalInv init (wrote ++ wroteOf [e]) v ∧ w.Grows v ∧
        ∀ c, Returned [e] c → c.waitForSync = true → c.entries ≠ [] →
          Covered init (wrote ++ wroteOf [e]) v c := by
    intro v e hv hg hw hc
    rw [hw, List.append_nil]
    exact ⟨hv, hg, fun c hr _ _ => hc c hr⟩
  have hnone : ∀ {e : WalEvent}, e = .sync ∨ e = .close → ∀ c, ¬ Returned [e] c := by
    rintro e (rfl | rfl) c <;> simp [Returned]
  cases hs with
  | append entries waitForSync faults syncs =>
    have happ := h.append (c := ⟨w.calls, entries, waitForSync⟩) rfl faults syncs
    refine ⟨happ.inv, happ.grows, ?_⟩
    rintro c (hr | hr) hwait hne
    · simp only [List.mem_singleton, WalEvent.append.injEq] at hr
      obtain ⟨rfl, hr⟩ := hr
      exact happ.acked hr.symm hwait hne
    · simp at hr
  | wake hx hpoll =>
    refine hquiet (h.congr rfl rfl rfl rfl rfl rfl (fun y hy => List.mem_of_mem_erase hy) le_rfl)
      ⟨List.prefix_refl _, le_rfl⟩ rfl ?_
    rintro c (hr | hr)
    · simp at hr
    · simp only [List.mem_singleton, WalEvent.wake.injEq] at hr
      obtain ⟨rfl, rfl⟩ := hr
      exact (h.waiters _ hx).2.2 (Wal.poll_ok hpoll)
  | startTimer hloop hwake =>
    exact hquiet (h.congr rfl rfl rfl rfl rfl rfl (fun _ hx => hx) le_rfl)
      ⟨List.prefix_refl _, le_rfl⟩ rfl (fun c hr => absurd hr (hnone (.inl rfl) c))
  | timer hloop htimer fault syncs =>
    obtain ⟨hv, hg⟩ := h.syncPending fault syncs
    exact hquiet (hv.congr rfl rfl rfl rfl rfl rfl (fun _ hx => hx) le_rfl) ⟨hg.file, hg.synced⟩ rfl
      (fun c hr => absurd hr (hnone (.inl rfl) c))
  | closeLoop hloop hclose fault syncs =>
    obtain ⟨hv, hg⟩ := h.syncPending fault syncs
    exact hquiet (hv.congr rfl rfl rfl rfl rfl rfl (fun _ hx => hx) le_rfl) ⟨hg.file, hg.synced⟩ rfl
      (fun c hr => absurd hr (hnone (.inl rfl) c))
  | closeDirect hinterval hopened fault syncs =>
    rw [h.closeDirect hinterval]
    exact hquiet (h.congr rfl rfl rfl rfl rfl rfl (fun _ hx => hx) le_rfl)
      ⟨List.prefix_refl _, le_rfl⟩ rfl (fun c hr => absurd hr (hnone (.inr rfl) c))
  | closeBegin hinterval hopened =>
    exact hquiet (h.congr rfl rfl rfl rfl rfl rfl (fun _ hx => hx) le_rfl)
      ⟨List.prefix_refl _, le_rfl⟩ rfl (fun c hr => absurd hr (hnone (.inr rfl) c))
  | closeEnd hinterval hclosed hloop =>
    exact hquiet (h.congr rfl rfl rfl rfl rfl rfl (fun _ hx => hx) le_rfl)
      ⟨List.prefix_refl _, le_rfl⟩ rfl (fun c hr => absurd hr (hnone (.inr rfl) c))

/-- **A synchronous acknowledgement means durable.** In every run of a WAL that was opened on the
contents `init`, whatever fails and however its goroutines interleave: `durable` does not pass
`pending`; the written calls stand in the order in which they took the lock; and a call that asked
for a sync and returned nil has its records in the file, behind `init` and the records of the calls
written before it, within the contents that a successful sync covered. -/
theorem acknowledged_durable {init : Bytes} {syncInterval : ℤ} {es : List WalEvent} {w : Wal}
    (h : Run WalStep (Wal.new init syncInterval) es w) :
    w.durable ≤ w.pending ∧ ((wroteOf es).map (·.id)).Pairwise (· < ·) ∧
      ∀ c, Returned es c → c.waitForSync = true → c.entries ≠ [] →
        Covered init (wroteOf es) w c := by
  suffices hinv : WalInv init (wroteOf es) w ∧ ∀ c, Returned es c → c.waitForSync = true →
      c.entries ≠ [] → Covered init (wroteOf es) w c from
    ⟨hinv.1.durable_le, hinv.1.ordered, hinv.2⟩
  induction h with
  | refl => exact ⟨walInv_new init syncInterval, fun c hr => by simp [Returned] at hr⟩
  | tail _ hstep ih =>
    obtain ⟨hinv, hgrows, hacked⟩ := ih.1.step hstep
    rw [wroteOf_append]
    refine ⟨hinv, fun c hr hwait hne => ?_⟩
    rcases returned_append.mp hr with hr | hr
    · exact (ih.2 c hr hwait hne).mono hgrows
    · exact hacked c hr hwait hne

/-- A buffered WAL: a call waits, the timer fires, the call returns. -/
theorem acknowledged_durable_buffered :
    ∃ w, Run WalStep (Wal.new [] 1)
        [.append ⟨0, [([1], [2])], true⟩ none, .sync, .sync, .wake ⟨0, [([1], [2])], true⟩ (.ok ())]
        w ∧ Covered [] [⟨0, [([1], [2])], true⟩] w ⟨0, [([1], [2])], true⟩ := by
  have hwait := Run.single (WalStep.append (Wal.new [] 1) [([1], [2])] true [] true)
  have harmed := hwait.tail (.startTimer rfl rfl)
  have hsynced := harmed.tail (.timer rfl rfl none true)
  have hdone := hsynced.tail
    (.wake (x := ⟨⟨0, [([1], [2])], true⟩, 1⟩) (List.mem_singleton.mpr rfl) rfl)
  exact ⟨_, hdone, (acknowledged_durable hdone).2.2 ⟨0, [([1], [2])], true⟩ (.inr (by simp)) rfl
    (by simp)⟩

end Seol
