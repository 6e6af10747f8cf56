import Seol.Wal.Sync

/-!
# No appender is left waiting

Reference: `appendBatch`, `syncLoop`, `close` and `signalSyncLoop` in `wal.go`. A call of `appendBatch`
that waits for a sync sleeps until the sync loop wakes it (`Wal.Broadcast` has the `cond.Broadcast`s,
which `WalStep.wake` leaves out), and the loop itself sleeps until a signal on `wakeCh` or `closeCh` or
its timer. A signal on a full channel is dropped. Nothing is lost by that: whenever a call sleeps, a
signal is still queued or the timer is running (`Wal.Served`). So if no new calls arrive, the goroutines
come to rest after a bounded number of steps, and then every call has returned and the loop of a closed
WAL has ended.
-/

namespace Seol

open Common

variable {init : Bytes} {wrote : List BatchCall} {w w' : Wal} {e : WalEvent}

/-- The steps that need no new call: the loop moves on, or a waiting call returns. -/
def WalEvent.Settles : WalEvent → Prop
  | .wake _ _ => True
  | .sync => True
  | _ => False

/-- A step of the goroutines that are already at work. -/
def SettleStep (w : Wal) (e : WalEvent) (w' : Wal) : Prop := WalStep w e w' ∧ e.Settles

/-- How many such steps there can be: a return for each waiting call, two steps for a queued signal,
one for a running timer and one for the end of the loop. -/
def Wal.rank (w : Wal) : ℕ :=
  w.waiting.length + 2 * w.wakeCh.toNat + w.timer.toNat + w.looping.toNat

/-- What the sync loop owes: a sleeping call has a signal queued or the timer running; so have records
that are not durable, unless an error stopped the writing; the loop runs until the WAL is closed, and
is told of that. Where nothing is owed, every written call is durable. -/
structure Wal.Served (init : Bytes) (wrote : List BatchCall) (w : Wal) : Prop where
  direct : w.syncInterval ≤ 0 → w.waiting = [] ∧ w.looping = false
  looping : 0 < w.syncInterval → w.closed = false → w.looping = true
  closing : w.closed = true → w.looping = true → w.closeCh = true
  told : w.closeCh = true → w.closed = true
  waiting : ∀ x ∈ w.waiting, w.durable < x.target → w.syncErr = none →
    w.wakeCh = true ∨ w.timer = true ∨ w.closed = true
  due : w.out.failed = false → w.syncErr = none → w.durable < w.pending →
    w.looping = true ∧ (w.wakeCh = true ∨ w.timer = true ∨ w.closed = true)
  covered : w.durable = w.pending → ∀ c ∈ wrote, Covered init wrote w c

theorem Wal.served_new (init : Bytes) (syncInterval : ℤ) :
    (Wal.new init syncInterval).Served init [] where
  direct hle := ⟨rfl, by simpa [Wal.new] using hle⟩
  looping hpos _ := by simpa [Wal.new] using hpos
  closing hclosed := by simp [Wal.new] at hclosed
  told hclose := by simp [Wal.new] at hclose
  waiting := by simp [Wal.new]
  due _ _ hlt := by simp [Wal.new] at hlt
  covered _ := by simp

/-- Only a buffered WAL has a loop. -/
theorem Wal.Served.interval_pos (h : w.Served init wrote) (hloop : w.looping = true) :
    0 < w.syncInterval := by
  by_contra hle
  have hoff := (h.direct (not_lt.mp hle)).2
  rw [hloop] at hoff
  exact absurd hoff.symm Bool.false_ne_true

/-! ## The sync loop -/

/-- **A round of the sync loop** leaves nothing to sync, or an error. -/
theorem WalInv.syncPending_eq (h : WalInv init wrote w) (fault : Option ℕ) (syncs : Bool) :
    ∃ out synced durable err, w.syncPending fault syncs =
        { w with out := out, synced := synced, durable := durable, syncErr := err } ∧
      (durable = w.pending ∨ err ≠ none) ∧
      (durable = w.pending → w.durable = w.pending ∧ w.Grows (w.syncPending fault syncs) ∨
        out.buf = [] ∧ synced = out.file.length) := by
  have hgrows := (h.syncPending fault syncs).2
  unfold Wal.syncPending at hgrows ⊢
  split_ifs at hgrows ⊢ with hdue
  · obtain ⟨out, synced, hw', -, -, -, -, -, -, hok⟩ :=
      w.flushAndSyncLocked_cases fault syncs h.synced_le
    cases hres : w.flushAndSyncLocked fault syncs with
    | mk err v =>
      rw [hres] at hw' hok
      obtain rfl : v = { w with out := out, synced := synced } := hw'
      cases err with
      | some err =>
        exact ⟨out, synced, w.durable, some err, rfl, .inr (by simp),
          fun heq => absurd heq hdue.1.ne⟩
      | none => exact ⟨out, synced, w.pending, w.syncErr, rfl, .inl rfl, fun _ => .inr (hok rfl)⟩
  · refine ⟨w.out, w.synced, w.durable, w.syncErr, rfl, ?_, fun heq => .inl ⟨heq, hgrows⟩⟩
    by_contra hcon
    rw [not_or, not_not] at hcon
    exact hdue ⟨lt_of_le_of_ne h.durable_le hcon.1, hcon.2⟩

/-- The loop after a round owes nothing. -/
theorem Wal.Served.syncPending (hserved : w.Served init wrote) (h : WalInv init wrote w)
    (fault : Option ℕ) (syncs : Bool) {looping closeCh : Bool}
    (hmode : 0 < w.syncInterval) (hloop : w.closed = false → looping = true)
    (hclosing : w.closed = true → looping = false) (htold : closeCh = true → w.closed = true) :
    Wal.Served init wrote
      { w.syncPending fault syncs with
        timer := false, closeCh := closeCh, looping := looping } := by
  obtain ⟨hinv, -⟩ := h.syncPending fault syncs
  obtain ⟨out, synced, durable, err, heq, hdone, hcovered⟩ := h.syncPending_eq fault syncs
  rw [heq] at hinv hcovered ⊢
  -- no number up to `pending` is left undone without an error
  have hnot : ∀ {n}, n ≤ w.pending → durable < n → err = none → False := by
    intro n hn hlt herr
    rcases hdone with rfl | hne
    · omega
    · exact hne herr
  refine ⟨fun hi => absurd hi (not_le.mpr hmode), fun _ => hloop, fun hc hl => ?_,
    htold, fun x hx hlt herr => ?_, fun _ herr hlt => ?_, fun hall c hc => ?_⟩
  · rw [hclosing hc] at hl
    exact absurd hl Bool.false_ne_true
  · exact (hnot (h.waiters x hx).1 hlt herr).elim
  · exact (hnot le_rfl hlt herr).elim
  · rcases hcovered hall with ⟨hsame, hgrows⟩ | ⟨hbuf, hsynced⟩
    · exact (hserved.covered hsame c hc).grows ⟨hgrows.file, hgrows.synced⟩
    · exact covered_of_synced hinv.written hbuf rfl hsynced hc

/-! ## Appends -/

/-- A state with other bookkeeping but the same log and the same signals. -/
theorem Wal.Served.congr {w' : Wal} (h : w.Served init wrote) (hout : w'.out = w.out)
    (hsynced : w'.synced = w.synced) (hpending : w'.pending = w.pending)
    (hdurable : w'.durable = w.durable) (herr : w'.syncErr = w.syncErr)
    (hinterval : w'.syncInterval = w.syncInterval) (hwaiting : ∀ x ∈ w'.waiting, x ∈ w.waiting)
    (hclosed : w'.closed = w.closed) (hloop : w'.looping = w.looping)
    (hclose : w'.closeCh = w.closeCh)
    (hsignal : w.wakeCh = true ∨ w.timer = true → w'.wakeCh = true ∨ w'.timer = true) :
    w'.Served init wrote := by
  -- a signal for the loop is never lost
  have hkeep : w.wakeCh = true ∨ w.timer = true ∨ w.closed = true →
      w'.wakeCh = true ∨ w'.timer = true ∨ w'.closed = true := by
    rw [hclosed, ← or_assoc, ← or_assoc]
    exact Or.imp_left hsignal
  refine ⟨fun hi => ?_, ?_, ?_, ?_, fun x hx => ?_, ?_, ?_⟩
  · rw [hinterval] at hi
    obtain ⟨hnil, hoff⟩ := h.direct hi
    refine ⟨List.eq_nil_iff_forall_not_mem.mpr fun x hx => ?_, hloop.trans hoff⟩
    have hmem := hwaiting x hx
    rw [hnil] at hmem
    exact absurd hmem List.not_mem_nil
  · rw [hinterval, hclosed, hloop]
    exact h.looping
  · rw [hclosed, hloop, hclose]
    exact h.closing
  · rw [hclose, hclosed]
    exact h.told
  · rw [hdurable, herr]
    exact fun hlt he => hkeep (h.waiting x (hwaiting x hx) hlt he)
  · rw [hout, herr, hdurable, hpending, hloop]
    exact fun hf he hlt => (h.due hf he hlt).imp_right hkeep
  · rw [hdurable, hpending]
    unfold Covered
    rw [hout, hsynced]
    exact h.covered

/-- A batch that could not be written, or not be synced, stops the writing. -/
theorem Wal.Served.broken {w' : Wal} (h : w.Served init wrote) (hinv : WalInv init wrote w)
    (hpending : w.pending < w'.pending) (hdurable : w'.durable = w.durable)
    (hbroken : w'.out.failed = true ∨ w'.syncErr ≠ none)
    (herr : w'.syncErr = none → w.syncErr = none)
    (hinterval : w'.syncInterval = w.syncInterval) (hwaiting : w'.waiting = w.waiting)
    (hclosed : w'.closed = w.closed) (hloop : w'.looping = w.looping)
    (hclose : w'.closeCh = w.closeCh) (hwake : w'.wakeCh = w.wakeCh) (htimer : w'.timer = w.timer) :
    w'.Served init wrote := by
  refine ⟨?_, ?_, ?_, ?_, fun x hx => ?_, fun hf he => ?_, fun heq => ?_⟩
  · rw [hinterval, hwaiting, hloop]
    exact h.direct
  · rw [hinterval, hclosed, hloop]
    exact h.looping
  · rw [hclosed, hloop, hclose]
    exact h.closing
  · rw [hclose, hclosed]
    exact h.told
  · rw [hwaiting] at hx
    rw [hdurable, hwake, htimer, hclosed]
    exact fun hlt he => h.waiting x hx hlt (herr he)
  -- nothing is due any more in a WAL with an error
  · rcases hbroken with hb | hb
    · rw [hf] at hb
      exact absurd hb Bool.false_ne_true
    · exact absurd he hb
  · have hle := hinv.durable_le
    omega

/-- A batch in direct mode. -/
theorem Wal.Served.appendDirect (h : w.Served init wrote) (hinv : WalInv init wrote w)
    {c : BatchCall} (hid : c.id = w.calls) (hne : c.entries ≠ []) (hclosed : w.closed = false)
    (herr : w.syncErr = none) (hdirect : w.syncInterval ≤ 0) (faults : List (Option ℕ))
    (syncs : Bool) :
    Wal.Served init (wrote ++ wroteOf [.append c (w.appendBatch c faults syncs).1])
      { (w.appendBatch c faults syncs).2 with calls := w.calls + 1 } := by
  obtain ⟨hbuf, -⟩ := hinv.direct hdirect
  have hpos : 0 < c.entries.length := List.length_pos_iff.mpr hne
  have hnew := (hinv.appendDirect hid hne hclosed herr hdirect faults syncs).inv
  rcases Wal.appendBatch_direct_cases hne hclosed herr hdirect faults syncs with
    happ | ⟨t, -, happ⟩
  · rw [happ] at hnew ⊢
    refine ⟨h.direct, h.looping, h.closing, h.told, fun x hx => ?_, fun _ _ hlt => ?_, fun _ d hd => ?_⟩
    · rw [show w.waiting = [] from (h.direct hdirect).1] at hx
      exact absurd hx List.not_mem_nil
    · exact absurd hlt (lt_irrefl _)
    · exact covered_of_synced hnew.written hbuf rfl rfl hd
  · rw [happ, show wroteOf [.append c (some (.error .io))] = [] from rfl, List.append_nil]
    exact h.broken hinv (Nat.lt_add_of_pos_right hpos) rfl (.inr (by simp)) (fun _ => herr) rfl rfl
      rfl rfl rfl rfl rfl

/-- A batch in buffered mode leaves a signal behind. -/
theorem Wal.Served.appendBuffered (h : w.Served init wrote) (hinv : WalInv init wrote w)
    {c : BatchCall} (hne : c.entries ≠ []) (hclosed : w.closed = false)
    (herr : w.syncErr = none) (hbuffered : ¬ w.syncInterval ≤ 0) (faults : List (Option ℕ))
    (syncs : Bool) :
    Wal.Served init (wrote ++ wroteOf [.append c (w.appendBatch c faults syncs).1])
      { (w.appendBatch c faults syncs).2 with calls := w.calls + 1 } := by
  have hpos : 0 < c.entries.length := List.length_pos_iff.mpr hne
  cases hres : (w.out.write (encodeRecords c.entries) faults).failed with
  | true =>
    rw [Wal.appendBatch_buffered_failed hne hclosed herr hbuffered hres,
      show wroteOf [.append c (some (.error .io))] = [] from rfl, List.append_nil]
    exact h.broken hinv (Nat.lt_add_of_pos_right hpos) rfl (.inl hres) id rfl rfl rfl rfl rfl rfl rfl
  | false =>
    rw [Wal.appendBatch_buffered hne hclosed herr hbuffered hres hinv.durable_le]
    have hdurable := hinv.durable_le
    refine ⟨fun hi => absurd hi hbuffered, h.looping, h.closing, h.told,
      -- both debts are owed to the signal the append sends
      fun _ _ _ _ => .inl rfl, fun _ _ _ => ⟨h.looping (not_le.mp hbuffered) hclosed, .inl rfl⟩,
      fun heq => ?_⟩
    dsimp only at heq
    omega

/-- **An append keeps the debt of the loop.** -/
theorem Wal.Served.append (h : w.Served init wrote) (hinv : WalInv init wrote w) {c : BatchCall}
    (hid : c.id = w.calls) (faults : List (Option ℕ)) (syncs : Bool) :
    Wal.Served init (wrote ++ wroteOf [.append c (w.appendBatch c faults syncs).1])
      { (w.appendBatch c faults syncs).2 with calls := w.calls + 1 } := by
  rcases w.appendBatch_cases c faults syncs with ⟨r, happ, hr⟩ | ⟨hne, hclosed, herr⟩
  · rw [happ, wroteOf_turnedAway hr, List.append_nil]
    exact h.congr rfl rfl rfl rfl rfl rfl (fun _ hx => hx) rfl rfl rfl id
  · by_cases hmode : w.syncInterval ≤ 0
    · exact h.appendDirect hinv hid hne hclosed herr hmode faults syncs
    · exact h.appendBuffered hinv hne hclosed herr hmode faults syncs

/-! ## Runs -/

/-- **Every step keeps the debt of the loop.** -/
theorem Wal.Served.step (h : w.Served init wrote) (hinv : WalInv init wrote w)
    (hs : WalStep w e w') : w'.Served init (wrote ++ wroteOf [e]) := by
  cases hs with
  | append entries waitForSync faults syncs =>
    exact h.append hinv (c := ⟨w.calls, entries, waitForSync⟩) rfl faults syncs
  | wake hx hpoll =>
    rw [show wroteOf [.wake _ _] = [] from rfl, List.append_nil]
    exact h.congr rfl rfl rfl rfl rfl rfl (fun _ hy => List.mem_of_mem_erase hy) rfl rfl rfl id
  | startTimer hloop hwake =>
    rw [show wroteOf [.sync] = [] from rfl, List.append_nil]
    exact h.congr rfl rfl rfl rfl rfl rfl (fun _ hy => hy) rfl rfl rfl (fun _ => .inr rfl)
  -- the timer ends the loop if the WAL was closed meanwhile
  | timer hloop htimer fault syncs =>
    rw [show wroteOf [.sync] = [] from rfl, List.append_nil]
    obtain ⟨out, synced, durable, err, heq, -⟩ := hinv.syncPending_eq fault syncs
    have hclose : (w.syncPending fault syncs).closeCh = w.closeCh := by rw [heq]
    have hserved : Wal.Served init wrote { w.syncPending fault syncs with
        timer := false, closeCh := w.closeCh, looping := !w.closed } :=
      h.syncPending hinv fault syncs (h.interval_pos hloop) (fun hc => by simp [hc])
        (fun hc => by simp [hc]) h.told
    rwa [← hclose] at hserved
  | closeLoop hloop hclose fault syncs =>
    rw [show wroteOf [.sync] = [] from rfl, List.append_nil]
    exact h.syncPending hinv fault syncs (h.interval_pos hloop)
      (fun hc => absurd (hc.symm.trans (h.told hclose)) Bool.false_ne_true) (fun _ => rfl)
      (fun hc => absurd hc Bool.false_ne_true)
  | closeDirect hinterval hopened fault syncs =>
    rw [show wroteOf [.close] = [] from rfl, List.append_nil, hinv.closeDirect hinterval]
    obtain ⟨hnil, hoff⟩ := h.direct hinterval
    exact ⟨h.direct, fun hpos => absurd hinterval (not_le.mpr hpos),
      fun _ hl => absurd (hoff.symm.trans hl) Bool.false_ne_true, fun _ => rfl,
      fun _ _ _ _ => .inr (.inr rfl), fun hf he hlt => ⟨(h.due hf he hlt).1, .inr (.inr rfl)⟩, h.covered⟩
  | closeBegin hinterval hopened =>
    rw [show wroteOf [.close] = [] from rfl, List.append_nil]
    -- closing signals the loop, so a debt of any call is still paid
    exact ⟨h.direct, fun _ hc => by simp at hc, fun _ _ => rfl, fun _ => rfl,
      fun _ _ _ _ => .inr (.inr rfl),
      fun hf he hlt => ⟨(h.due hf he hlt).1, .inr (.inr rfl)⟩, h.covered⟩
  | closeEnd hinterval hclosed hloop =>
    rw [show wroteOf [.close] = [] from rfl, List.append_nil]
    exact h.congr rfl rfl rfl rfl rfl rfl (fun _ hy => hy) rfl rfl rfl id

/-- A step of the goroutines at work lowers the rank. -/
theorem SettleStep.rank_lt (hinv : WalInv init wrote w) (hs : SettleStep w e w') :
    w'.rank < w.rank := by
  obtain ⟨hs, hsettles⟩ := hs
  cases hs with
  | append => exact hsettles.elim
  | wake hx hpoll =>
    have hlen := List.length_erase_of_mem hx
    have hpos := List.length_pos_of_mem hx
    simp only [Wal.rank, hlen]
    omega
  | startTimer hloop hwake =>
    have htimer := Bool.toNat_le w.timer
    simp only [Wal.rank, hwake, Bool.toNat_true, Bool.toNat_false]
    omega
  | timer hloop htimer fault syncs =>
    obtain ⟨out, synced, durable, err, heq, -⟩ := hinv.syncPending_eq fault syncs
    have hexit := Bool.toNat_le (!w.closed)
    simp only [Wal.rank, heq, htimer, hloop, Bool.toNat_true, Bool.toNat_false]
    omega
  | closeLoop hloop hclose fault syncs =>
    obtain ⟨out, synced, durable, err, heq, -⟩ := hinv.syncPending_eq fault syncs
    simp only [Wal.rank, heq, hloop, Bool.toNat_true, Bool.toNat_false]
    omega
  | closeDirect => exact hsettles.elim
  | closeBegin => exact hsettles.elim
  | closeEnd => exact hsettles.elim

/-- A call sleeps on while its records are not durable, nothing failed and the WAL is open. -/
theorem Wal.poll_eq_none {target : ℕ} (h : w.poll target = none) :
    w.durable < target ∧ w.syncErr = none ∧ w.closed = false := by
  by_contra hcon
  rw [Wal.poll, if_neg hcon] at h
  cases herr : w.syncErr with
  | some err => simp [herr] at h
  | none =>
    simp only [herr] at h
    split_ifs at h

/-- The goroutines are at rest: no loop step is possible and no waiting call can return. -/
def Wal.AtRest (w : Wal) : Prop := ∀ e w', ¬ SettleStep w e w'

/-- **Nobody sleeps in a WAL at rest**, and the loop of a closed one has ended. -/
theorem Wal.Served.atRest (h : w.Served init wrote) (hrest : w.AtRest) :
    w.waiting = [] ∧ (w.closed = true → w.looping = false) ∧
      (w.out.failed = false → w.syncErr = none → w.pending ≤ w.durable) := by
  -- each kind of signal has its step
  have hwake : w.looping = true → w.wakeCh = false := fun hl => by
    by_contra hw
    exact hrest _ _ ⟨.startTimer hl (by simpa using hw), trivial⟩
  have htimer : w.looping = true → w.timer = false := fun hl => by
    by_contra ht
    exact hrest _ _ ⟨.timer hl (by simpa using ht) none true, trivial⟩
  have hclose : w.closed = true → w.looping = false := fun hc => by
    by_contra hl
    have hl' : w.looping = true := by simpa using hl
    exact hrest _ _ ⟨.closeLoop hl' (h.closing hc hl') none true, trivial⟩
  refine ⟨List.eq_nil_iff_forall_not_mem.mpr fun x hx => ?_, hclose, fun hf he => ?_⟩
  · cases hpoll : w.poll x.target with
    | some r => exact hrest _ _ ⟨.wake hx hpoll, trivial⟩
    | none =>
      obtain ⟨hlt, he, hc⟩ := Wal.poll_eq_none hpoll
      have hpos : 0 < w.syncInterval := by
        by_contra hle
        rw [(h.direct (not_lt.mp hle)).1] at hx
        exact absurd hx List.not_mem_nil
      have hl := h.looping hpos hc
      rcases h.waiting x hx hlt he with hs | hs | hs
      · exact absurd ((hwake hl).symm.trans hs) Bool.false_ne_true
      · exact absurd ((htimer hl).symm.trans hs) Bool.false_ne_true
      · exact absurd (hc.symm.trans hs) Bool.false_ne_true
  · by_contra hlt
    obtain ⟨hl, hsignal⟩ := h.due hf he (not_le.mp hlt)
    rcases hsignal with hs | hs | hs
    · exact absurd ((hwake hl).symm.trans hs) Bool.false_ne_true
    · exact absurd ((htimer hl).symm.trans hs) Bool.false_ne_true
    · exact absurd ((hclose hs).symm.trans hl) Bool.false_ne_true

/-- Such a step is no append. -/
theorem wroteOf_settles (h : e.Settles) : wroteOf [e] = [] := by
  cases e with
  | append => exact h.elim
  | _ => rfl

/-- What the goroutines at work keep. -/
theorem Wal.Served.settle (hs : SettleStep w e w')
    (h : WalInv init wrote w ∧ w.Served init wrote) :
    WalInv init wrote w' ∧ w'.Served init wrote := by
  have hinv := (h.1.step hs.1).1
  have hserved := h.2.step h.1 hs.1
  rw [wroteOf_settles hs.2, List.append_nil] at hinv hserved
  exact ⟨hinv, hserved⟩

theorem Wal.run_served {syncInterval : ℤ} {es : List WalEvent}
    (hrun : Run WalStep (Wal.new init syncInterval) es w) :
    WalInv init (wroteOf es) w ∧ w.Served init (wroteOf es) := by
  induction hrun with
  | refl => exact ⟨walInv_new init syncInterval, Wal.served_new init syncInterval⟩
  | tail _ hstep ih =>
    rw [wroteOf_append]
    exact ⟨(ih.1.step hstep).1, ih.2.step ih.1 hstep⟩

theorem Wal.flushAndSyncLocked_waiting (w : Wal) (fault : Option ℕ) (syncs : Bool) :
    (w.flushAndSyncLocked fault syncs).2.waiting = w.waiting := by
  simp only [Wal.flushAndSyncLocked, Wal.syncFile]
  split_ifs <;> rfl

/-- The sync loop answers no call itself. -/
theorem Wal.syncPending_waiting (w : Wal) (fault : Option ℕ) (syncs : Bool) :
    (w.syncPending fault syncs).waiting = w.waiting := by
  have hflush := w.flushAndSyncLocked_waiting fault syncs
  unfold Wal.syncPending
  split_ifs with hdue
  · cases hres : w.flushAndSyncLocked fault syncs with
    | mk err v =>
      rw [hres] at hflush
      cases err <;> exact hflush
  · rfl

/-- A step leaves the sleeping calls alone, or one of them returns. -/
theorem SettleStep.waiting_cases (hs : SettleStep w e w') :
    w'.waiting = w.waiting ∨
      ∃ (x : Waiter) (r : Except AppendError Unit), e = .wake x.call r ∧
        w'.waiting = w.waiting.erase x := by
  obtain ⟨hs, hsettles⟩ := hs
  cases hs with
  | append => exact hsettles.elim
  | wake hx hpoll => exact .inr ⟨_, _, rfl, rfl⟩
  | timer hloop htimer fault syncs => exact .inl (w.syncPending_waiting fault syncs)
  | closeLoop hloop hclose fault syncs => exact .inl (w.syncPending_waiting fault syncs)
  | closeDirect => exact hsettles.elim
  | _ => exact .inl rfl

/-- A call that sleeps at the start of a run has returned at its end, or sleeps on. -/
theorem waiting_or_woken {es : List WalEvent} (hrun : Run SettleStep w es w') {x : Waiter}
    (hx : x ∈ w.waiting) : x ∈ w'.waiting ∨ ∃ r, .wake x.call r ∈ es := by
  induction hrun with
  | refl => exact .inl hx
  | tail _ hstep ih =>
    rcases ih with hmem | ⟨r, hr⟩
    · rcases hstep.waiting_cases with hsame | ⟨y, r, rfl, herase⟩
      · exact .inl (hsame ▸ hmem)
      · by_cases hxy : x = y
        · exact .inr ⟨r, by simp [hxy]⟩
        · rw [herase]
          exact .inl ((List.mem_erase_of_ne hxy).mpr hmem)
    · exact .inr ⟨r, List.mem_append_left _ hr⟩

/-- What the goroutines at work have done when they come to rest. -/
theorem Wal.Served.settled {es : List WalEvent} (hinv : WalInv init wrote w)
    (h : w.Served init wrote) (hrun : Run SettleStep w es w') (hrest : w'.AtRest) :
    (∀ x ∈ w.waiting, ∃ r, .wake x.call r ∈ es) ∧ w'.waiting = [] ∧
      (w'.closed = true → w'.looping = false) ∧
      (w'.out.failed = false → w'.syncErr = none → ∀ c ∈ wrote, Covered init wrote w' c) := by
  obtain ⟨hinv', h'⟩ := hrun.invariant (fun _ _ _ hv hs => Wal.Served.settle hs hv) ⟨hinv, h⟩
  obtain ⟨hnil, hended, hdurable⟩ := h'.atRest hrest
  refine ⟨fun x hx => ?_, hnil, hended, fun hf he c hc => ?_⟩
  · have hor := waiting_or_woken hrun hx
    rw [hnil] at hor
    exact hor.resolve_left List.not_mem_nil
  · exact h'.covered (le_antisymm hinv'.durable_le (hdurable hf he)) c hc

/-- **Every appender is answered.** In every reachable state of a WAL, with or without a sync loop and
whatever failed before: if no new calls arrive, the goroutines take at most `rank` further steps, so
they come to rest; and when they have, every call that was waiting has returned, nobody sleeps, the
loop of a closed WAL has ended, so that `close` returns, and unless an error stopped the writing every
written call is durable. -/
theorem wal_settles {syncInterval : ℤ} {es : List WalEvent}
    (hrun : Run WalStep (Wal.new init syncInterval) es w) :
    (∃ es' w', Run SettleStep w es' w' ∧ w'.AtRest) ∧
      ∀ es' w', Run SettleStep w es' w' → es'.length ≤ w.rank ∧
        (w'.AtRest → (∀ x ∈ w.waiting, ∃ r, .wake x.call r ∈ es') ∧ w'.waiting = [] ∧
          (w'.closed = true → w'.looping = false) ∧
          (w'.out.failed = false → w'.syncErr = none →
            ∀ c ∈ wroteOf es, Covered init (wroteOf es) w' c)) := by
  have hstart := Wal.run_served hrun
  -- the invariant rides along with the rank
  let Ranked : Wal → ℕ → Prop := fun v n =>
    (WalInv init (wroteOf es) v ∧ v.Served init (wroteOf es)) ∧ v.rank = n
  have hlower : ∀ v e v' n, Ranked v n → SettleStep v e v' → ∃ n' < n, Ranked v' n' := by
    rintro v e v' n ⟨hv, rfl⟩ hs
    exact ⟨v'.rank, hs.rank_lt hv.1, Wal.Served.settle hs hv, rfl⟩
  refine ⟨Run.exists_final hlower ⟨hstart, rfl⟩, fun es' w' hsettle => ?_⟩
  obtain ⟨n, -, hle⟩ := hsettle.length_le_rank hlower ⟨hstart, rfl⟩
  exact ⟨by omega, hstart.2.settled hstart.1 hsettle⟩

/-- A call waits in a buffered WAL that is then closed. -/
theorem wal_settles_closed :
    ∃ w, Run WalStep (Wal.new [] 1) [.append ⟨0, [([1], [2])], true⟩ none, .close] w ∧
      w.rank = 4 ∧ ∃ es' w', Run SettleStep w es' w' ∧ w'.AtRest ∧ es'.length ≤ 4 ∧
        w'.waiting = [] := by
  have hwait := Run.single (WalStep.append (Wal.new [] 1) [([1], [2])] true [] true)
  have hclosed := hwait.tail (.closeBegin (by decide) rfl)
  obtain ⟨⟨es', w', hsettle, hrest⟩, hall⟩ := wal_settles hclosed
  obtain ⟨hlen, hdone⟩ := hall es' w' hsettle
  exact ⟨_, hclosed, by decide +kernel, es', w', hsettle, hrest, hlen, (hdone hrest).2.1⟩

end Seol
