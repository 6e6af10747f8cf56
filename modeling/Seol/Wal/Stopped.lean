import Seol.Wal.Replay
import Seol.Wal.Sync

/-!
# What a stopped WAL leaves to replay

Reference: `appendBatch`, `syncLoop`, `close` and `replayWAL` in `wal.go`. The writing side
(`Wal.Sync`) may stop at any point, with or without a sync loop, after any failures; a power loss may
take away the part of the file behind its last sync. What is left is a prefix of one stream of
records: those of the calls that were written as a whole, followed by those of at most one call that
failed. Once a write has failed nothing is written any more, so no record ever stands behind a torn
one, and the replay ends within that stream without an error. It reaches at least to the last call
that was acknowledged as durable.
-/

namespace Seol

open Common

variable {init : Bytes} {wrote : List BatchCall} {w w' : Wal} {e : WalEvent}

/-! ## What one step writes -/

/-- No more records are written: the buffered writer has failed, or an error is kept. -/
def Wal.Broken (w : Wal) : Prop := w.out.failed = true ∨ w.syncErr ≠ none

theorem Wal.not_broken : ¬ w.Broken ↔ w.out.failed = false ∧ w.syncErr = none := by
  simp [Broken]

/-- A step that hands no record on. -/
structure Wal.Quiet (w : Wal) (e : WalEvent) (w' : Wal) : Prop where
  contents_eq : w'.out.contents = w.out.contents
  wrote_nil : wroteOf [e] = []
  broken : w.Broken → w'.Broken

/-- A step that appends the bytes `t` of the call `c`: all of its records, or some of the bytes and an
error. -/
structure Wal.Appends (w : Wal) (e : WalEvent) (w' : Wal) (c : BatchCall) (t : Bytes) : Prop where
  sound : ¬ w.Broken
  contents_eq : w'.out.contents = w.out.contents ++ t
  outcome : wroteOf [e] = [c] ∧ t = encodeRecords c.entries ∨
    e = .append c (some (.error .io)) ∧ t <+: encodeRecords c.entries ∧ w'.Broken

/-- Flushing and syncing writes no new record, and forgets no error. -/
theorem WalInv.syncPending_quiet (h : WalInv init wrote w) (fault : Option ℕ) (syncs : Bool) :
    (w.syncPending fault syncs).out.contents = w.out.contents ∧
      (w.Broken → (w.syncPending fault syncs).Broken) := by
  unfold Wal.syncPending
  split_ifs with hdue
  · obtain ⟨out, synced, hw', hcontents, hfailed, -⟩ :=
      w.flushAndSyncLocked_cases fault syncs h.synced_le
    have hsticky : w.out.failed = true → out.failed = true := by
      intro hf
      by_contra hok
      rw [hfailed (by simpa using hok)] at hf
      exact absurd hf Bool.false_ne_true
    cases hres : w.flushAndSyncLocked fault syncs with
    | mk err v =>
      rw [hres] at hw'
      obtain rfl : v = { w with out := out, synced := synced } := hw'
      cases err with
      | some err => exact ⟨hcontents, fun _ => .inr (by simp)⟩
      | none => exact ⟨hcontents, fun hb => hb.imp hsticky id⟩
  · exact ⟨rfl, id⟩

/-- A batch in direct mode. -/
theorem WalInv.append_direct_writes (h : WalInv init wrote w) {c : BatchCall}
    (hne : c.entries ≠ []) (hclosed : w.closed = false) (herr : w.syncErr = none)
    (hdirect : w.syncInterval ≤ 0) (faults : List (Option ℕ)) (syncs : Bool) :
    ∃ t, w.Appends (.append c (w.appendBatch c faults syncs).1)
      { (w.appendBatch c faults syncs).2 with calls := w.calls + 1 } c t := by
  obtain ⟨hbuf, hfailed, -⟩ := h.direct hdirect
  have hsound : ¬ w.Broken := Wal.not_broken.mpr ⟨hfailed, herr⟩
  have hcontents : ∀ t, ({ w.out with file := w.out.file ++ t } : BufWriter).contents =
      w.out.contents ++ t := by simp [BufWriter.contents, hbuf]
  rcases Wal.appendBatch_direct_cases hne hclosed herr hdirect faults syncs with
    happ | ⟨t, ht, happ⟩
  · rw [happ]
    exact ⟨_, hsound, hcontents _, .inl ⟨by simp [wroteOf, hne], rfl⟩⟩
  -- part of the records may have reached the file
  · rw [happ]
    exact ⟨t, hsound, hcontents t, .inr ⟨rfl, ht, .inr (by simp)⟩⟩

/-- A batch in buffered mode. -/
theorem WalInv.append_buffered_writes (h : WalInv init wrote w) {c : BatchCall}
    (hne : c.entries ≠ []) (hclosed : w.closed = false) (hsound : ¬ w.Broken)
    (hbuffered : ¬ w.syncInterval ≤ 0) (faults : List (Option ℕ)) (syncs : Bool) :
    ∃ t, w.Appends (.append c (w.appendBatch c faults syncs).1)
      { (w.appendBatch c faults syncs).2 with calls := w.calls + 1 } c t := by
  obtain ⟨t, ht, hcontents, hall⟩ := w.out.write_contents (encodeRecords c.entries) faults
  have herr := (Wal.not_broken.mp hsound).2
  cases hres : (w.out.write (encodeRecords c.entries) faults).failed with
  | true =>
    rw [Wal.appendBatch_buffered_failed hne hclosed herr hbuffered hres]
    exact ⟨t, hsound, hcontents, .inr ⟨rfl, ht, .inl hres⟩⟩
  | false =>
    rw [Wal.appendBatch_buffered hne hclosed herr hbuffered hres h.durable_le]
    refine ⟨t, hsound, hcontents, .inl ⟨?_, hall hres⟩⟩
    split_ifs <;> simp [wroteOf, hne]

/-- A failed buffered writer takes nothing. -/
theorem Wal.append_failed_quiet {c : BatchCall} (hne : c.entries ≠ []) (hclosed : w.closed = false)
    (herr : w.syncErr = none) (hfailed : w.out.failed = true) (hbuffered : ¬ w.syncInterval ≤ 0)
    (faults : List (Option ℕ)) (syncs : Bool) :
    w.Quiet (.append c (w.appendBatch c faults syncs).1)
      { (w.appendBatch c faults syncs).2 with calls := w.calls + 1 } := by
  have hwrite := BufWriter.write_of_failed (encodeRecords c.entries) faults hfailed
  rw [Wal.appendBatch_buffered_failed hne hclosed herr hbuffered (by rw [hwrite]; exact hfailed),
    hwrite]
  exact ⟨rfl, rfl, fun _ => .inl hfailed⟩

/-- **What an append writes**: nothing, or the records of the call up to a failure. -/
theorem WalInv.append_writes (h : WalInv init wrote w) (c : BatchCall) (faults : List (Option ℕ))
    (syncs : Bool) :
    w.Quiet (.append c (w.appendBatch c faults syncs).1)
        { (w.appendBatch c faults syncs).2 with calls := w.calls + 1 } ∨
      ∃ t, w.Appends (.append c (w.appendBatch c faults syncs).1)
        { (w.appendBatch c faults syncs).2 with calls := w.calls + 1 } c t := by
  rcases w.appendBatch_cases c faults syncs with ⟨r, happ, hr⟩ | ⟨hne, hclosed, herr⟩
  · rw [happ]
    exact .inl ⟨rfl, wroteOf_turnedAway hr, id⟩
  by_cases hmode : w.syncInterval ≤ 0
  · exact .inr (h.append_direct_writes hne hclosed herr hmode faults syncs)
  -- the buffered writer keeps the error of an earlier flush
  cases hfailed : w.out.failed with
  | true => exact .inl (Wal.append_failed_quiet hne hclosed herr hfailed hmode faults syncs)
  | false =>
    exact .inr (h.append_buffered_writes hne hclosed (Wal.not_broken.mpr ⟨hfailed, herr⟩) hmode
      faults syncs)

/-- **What a step writes.** -/
theorem WalInv.step_writes (h : WalInv init wrote w) (hs : WalStep w e w') :
    w.Quiet e w' ∨ ∃ c t, w.Appends e w' c t := by
  cases hs with
  | append entries waitForSync faults syncs =>
    exact (h.append_writes ⟨w.calls, entries, waitForSync⟩ faults syncs).imp_right
      fun ⟨t, ht⟩ => ⟨_, t, ht⟩
  | wake hx hpoll => exact .inl ⟨rfl, rfl, id⟩
  | startTimer hloop hwake => exact .inl ⟨rfl, rfl, id⟩
  | timer hloop htimer fault syncs =>
    obtain ⟨hcontents, hbroken⟩ := h.syncPending_quiet fault syncs
    exact .inl ⟨hcontents, rfl, hbroken⟩
  | closeLoop hloop hclose fault syncs =>
    obtain ⟨hcontents, hbroken⟩ := h.syncPending_quiet fault syncs
    exact .inl ⟨hcontents, rfl, hbroken⟩
  | closeDirect hinterval hopened fault syncs =>
    rw [h.closeDirect hinterval]
    exact .inl ⟨rfl, rfl, id⟩
  | closeBegin hinterval hopened => exact .inl ⟨rfl, rfl, id⟩
  | closeEnd hinterval hclosed hloop => exact .inl ⟨rfl, rfl, id⟩

/-! ## Whole runs -/

/-- The records in the file and the buffer are a prefix of one stream: the records of the written
calls, then those of at most one call that returned an error, after which nothing is written. -/
def Wal.Streams (init : Bytes) (es : List WalEvent) (w : Wal) (torn : List (Bytes × Bytes)) : Prop :=
  w.out.contents <+: init ++ recordsOfCalls (wroteOf es) ++ encodeRecords torn ∧
    (torn = [] ∨ w.Broken ∧ ∃ c, .append c (some (.error .io)) ∈ es ∧ torn = c.entries)

theorem Wal.Streams.step {es : List WalEvent} {torn : List (Bytes × Bytes)}
    (hstreams : w.Streams init es torn) (h : WalInv init (wroteOf es) w) (hs : WalStep w e w') :
    ∃ torn', w'.Streams init (es ++ [e]) torn' := by
  obtain ⟨hpre, hcause⟩ := hstreams
  rcases h.step_writes hs with hquiet | ⟨c, t, happ⟩
  · refine ⟨torn, ?_, hcause.imp_right ?_⟩
    · rw [hquiet.contents_eq, wroteOf_append, hquiet.wrote_nil, List.append_nil]
      exact hpre
    · rintro ⟨hbroken, c, hc, rfl⟩
      exact ⟨hquiet.broken hbroken, c, List.mem_append_left _ hc, rfl⟩
  · -- a WAL that still writes holds exactly the records of the written calls
    obtain ⟨hfailed, herr⟩ := Wal.not_broken.mp happ.sound
    have hexact := h.exact hfailed herr
    have hcontents := happ.contents_eq
    rw [hexact] at hcontents
    rcases happ.outcome with ⟨hwrote, rfl⟩ | ⟨rfl, ht, hbroken⟩
    · refine ⟨[], ?_, .inl rfl⟩
      rw [hcontents, wroteOf_append, hwrote, recordsOfCalls_concat, encodeRecords_nil,
        List.append_nil, List.append_assoc]
    · refine ⟨c.entries, ?_, .inr ⟨hbroken, c, by simp, rfl⟩⟩
      rw [hcontents, wroteOf_append, show wroteOf [.append c (some (.error .io))] = [] from rfl,
        List.append_nil]
      exact (List.prefix_append_right_inj _).mpr ht

/-- **Every run** keeps the invariant and the one stream of records, and what was acknowledged as
durable stays covered. -/
theorem Wal.run_streams {syncInterval : ℤ} {es : List WalEvent}
    (hrun : Run WalStep (Wal.new init syncInterval) es w) :
    WalInv init (wroteOf es) w ∧ (∃ torn, w.Streams init es torn) ∧
      ∀ c, Returned es c → c.waitForSync = true → c.entries ≠ [] →
        Covered init (wroteOf es) w c := by
  induction hrun with
  | refl =>
    exact ⟨walInv_new init syncInterval,
      ⟨[], by simp [Wal.new, BufWriter.contents, recordsOfCalls, wroteOf], .inl rfl⟩,
      fun c hr => by simp [Returned] at hr⟩
  | tail _ hstep ih =>
    obtain ⟨hinv, ⟨torn, hstreams⟩, hacked⟩ := ih
    obtain ⟨hinv', hgrows, hnew⟩ := hinv.step hstep
    rw [← wroteOf_append] at hinv' hnew
    refine ⟨hinv', hstreams.step hinv hstep, fun c hr hwait hne => ?_⟩
    rcases returned_append.mp hr with hr | hr
    · rw [wroteOf_append]
      exact (hacked c hr hwait hne).mono hgrows
    · exact hnew c hr hwait hne

/-! ## Replaying what is left -/

/-- Whole records at the front of a file are replayed. -/
theorem WalHolds.prefix_of_records {file : Bytes} {rs xs : List (Bytes × Bytes)}
    (h : WalHolds file rs) (hfit : ∀ x ∈ xs, LengthsFit x) (hpre : encodeRecords xs <+: file) :
    xs <+: rs := by
  obtain ⟨tail, hscan, -⟩ := h.scan
  obtain ⟨rest, rfl⟩ := hpre
  rw [scanRecords_append hfit] at hscan
  exact ⟨_, (Prod.mk.inj hscan).1⟩

/-- A prefix of a stream of records is replayed as some of them, from the front. -/
theorem walHolds_of_prefix {file : Bytes} {rs : List (Bytes × Bytes)}
    (hfit : ∀ r ∈ rs, LengthsFit r) (hpre : file <+: encodeRecords rs) :
    ∃ kept, WalHolds file kept ∧ kept <+: rs := by
  have hall : ∀ r ∈ [] ++ rs, LengthsFit r := hfit
  obtain ⟨j, hholds⟩ := walHolds_take hall file.length
  rw [encodeRecords_nil, List.nil_append, List.nil_append, ← List.prefix_iff_eq_take.mp hpre]
    at hholds
  exact ⟨_, hholds, List.take_prefix _ _⟩

/-- The entries of a sequence of calls. -/
def entriesOfCalls (cs : List BatchCall) : List (Bytes × Bytes) := cs.flatMap (·.entries)

theorem recordsOfCalls_eq (cs : List BatchCall) :
    recordsOfCalls cs = encodeRecords (entriesOfCalls cs) := rfl

/-- A written call was appended. -/
theorem mem_wroteOf {es : List WalEvent} {c : BatchCall} (h : c ∈ wroteOf es) :
    ∃ r, .append c r ∈ es := by
  obtain ⟨e, he, hc⟩ := List.mem_flatMap.mp h
  cases e with
  | append d r =>
    suffices hd : c = d from ⟨r, hd ▸ he⟩
    rcases r with _ | _ | u
    · simpa using hc
    · simp at hc
    · by_cases hd : d.entries = []
      · simp [hd] at hc
      · simpa [hd] using hc
  | _ => simp at hc

variable {σ ε : Type}

/-- **A stopped WAL replays a prefix of what was appended, up to the durable calls at least.** Take any
run of a WAL opened on the records of `prior`, with or without a sync loop, whatever fails, and keep
any number of bytes of its file, but at least those of the last sync. The replay of what is kept
returns no error of its own and calls its function on `kept`, which is a prefix of `prior`, then the
entries of the written calls in the order in which they took the lock, then the entries of at most one
call that returned an error. Every call that asked for a sync and returned nil is in `kept` as a whole,
behind all calls written before it. -/
theorem stopped_wal_replays_prefix {prior : List (Bytes × Bytes)} {syncInterval : ℤ}
    {es : List WalEvent} (hrun : Run WalStep (Wal.new (encodeRecords prior) syncInterval) es w)
    (hprior : ∀ x ∈ prior, LengthsFit x)
    (hfit : ∀ c r, .append c r ∈ es → ∀ x ∈ c.entries, LengthsFit x) {n : ℕ}
    (hsynced : w.synced ≤ n) (hn : n ≤ w.out.file.length) :
    ∃ kept torn,
      (∀ (fn : σ → Bytes × Bytes → Except ε σ) (s : σ),
        replayLoop fn (n + 1) (w.out.file.take n) s =
          some ((kept.foldlM fn s).mapError WalError.callback)) ∧
      kept <+: prior ++ entriesOfCalls (wroteOf es) ++ torn ∧
      (torn = [] ∨ ∃ c, .append c (some (.error .io)) ∈ es ∧ torn = c.entries) ∧
      ∀ c, Returned es c → c.waitForSync = true → c.entries ≠ [] →
        ∃ before after, wroteOf es = before ++ c :: after ∧
          prior ++ entriesOfCalls (before ++ [c]) <+: kept := by
  obtain ⟨-, ⟨torn, hpre, hcause⟩, hacked⟩ := Wal.run_streams hrun
  have hwrote : ∀ x ∈ entriesOfCalls (wroteOf es), LengthsFit x := by
    intro x hx
    obtain ⟨c, hc, hx⟩ := List.mem_flatMap.mp hx
    obtain ⟨r, hr⟩ := mem_wroteOf hc
    exact hfit c r hr x hx
  have hall : ∀ x ∈ prior ++ entriesOfCalls (wroteOf es) ++ torn, LengthsFit x := by
    intro x hx
    rcases List.mem_append.mp hx with hx | hx
    · exact (List.mem_append.mp hx).elim (hprior x) (hwrote x)
    · rcases hcause with rfl | ⟨-, c, hc, rfl⟩
      · exact absurd hx List.not_mem_nil
      · exact hfit c _ hc x hx
  have hstream : w.out.file.take n <+:
      encodeRecords (prior ++ entriesOfCalls (wroteOf es) ++ torn) := by
    rw [encodeRecords_append, encodeRecords_append]
    exact ((List.take_prefix _ _).trans (List.prefix_append _ _)).trans hpre
  -- any prefix of the stream replays to a prefix of its entries
  obtain ⟨kept, hholds, hkept⟩ := walHolds_of_prefix hall hstream
  have hlen : (w.out.file.take n).length < n + 1 := by
    rw [List.length_take]
    omega
  refine ⟨kept, torn, fun fn s => ?_, hkept, hcause.imp_right And.right, ?_⟩
  · rw [replayLoop_eq fn hlen, hholds.replayWAL]
  -- an acknowledged call lies below the last sync, and so in what is kept
  · intro c hc hwait hne
    obtain ⟨before, after, heq, hcovered⟩ := hacked c hc hwait hne
    refine ⟨before, after, heq, hholds.prefix_of_records (fun x hx => ?_) ?_⟩
    · refine (List.mem_append.mp hx).elim (hprior x) fun hx => hwrote x ?_
      rw [heq, List.append_cons, entriesOfCalls, List.flatMap_append]
      exact List.mem_append_left _ hx
    · rw [encodeRecords_append, ← recordsOfCalls_eq]
      exact hcovered.trans (List.take_prefix_take_left hsynced)

/-- A durable call, and a later one that a stop finds in the buffer. -/
theorem stopped_wal_replays_prefix_buffered :
    ∃ (w : Wal) (kept : List (Bytes × Bytes)), Run WalStep (Wal.new (encodeRecords []) 1)
        [.append ⟨0, [([1], [2])], true⟩ none, .sync, .sync, .wake ⟨0, [([1], [2])], true⟩ (.ok ()),
          .append ⟨1, [([3], [4])], false⟩ (some (.ok ()))] w ∧
      w.synced = 14 ∧ ([1], [2]) ∈ kept ∧
      ∀ (fn : Unit → Bytes × Bytes → Except Unit Unit) (s : Unit),
        replayLoop fn 15 (w.out.file.take 14) s =
          some ((kept.foldlM fn s).mapError WalError.callback) := by
  have hwait := Run.single (WalStep.append (Wal.new (encodeRecords []) 1) [([1], [2])] true [] true)
  have harmed := hwait.tail (.startTimer rfl rfl)
  have hsynced := harmed.tail (.timer rfl rfl none true)
  have hdone := hsynced.tail
    (.wake (x := ⟨⟨0, [([1], [2])], true⟩, 1⟩) (List.mem_singleton.mpr rfl) rfl)
  have hlast := hdone.tail (.append _ [([3], [4])] false [] true)
  have hfit : ∀ c r, WalEvent.append c r ∈
      [.append ⟨0, [([1], [2])], true⟩ none, .sync, .sync, .wake ⟨0, [([1], [2])], true⟩ (.ok ()),
        .append ⟨1, [([3], [4])], false⟩ (some (.ok ()))] → ∀ x ∈ c.entries, LengthsFit x := by
    intro c r hc x hx
    simp only [List.mem_cons, WalEvent.append.injEq, reduceCtorEq, List.not_mem_nil, false_or,
      or_false] at hc
    rcases hc with ⟨rfl, -⟩ | ⟨rfl, -⟩ <;>
      · rw [List.mem_singleton.mp hx]
        simp [LengthsFit]
  obtain ⟨kept, torn, hreplay, -, -, hkept⟩ := stopped_wal_replays_prefix (n := 14) hlast (by simp)
    hfit (by decide +kernel) (by decide +kernel)
  refine ⟨_, kept, hlast, by decide +kernel, ?_, hreplay⟩
  obtain ⟨before, after, -, hpre⟩ := hkept ⟨0, [([1], [2])], true⟩ (.inr (by simp)) rfl (by simp)
  exact hpre.subset (by simp [entriesOfCalls])

end Seol
