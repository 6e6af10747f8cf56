import Seol.Common.Transition
import Seol.Db.Step

/-!
# Submitting and shutting down

Reference: `submitWrite`, `markClosed`, `stopWrites`, `writeLoop`, `collectWriteBatch`,
`drainQueuedWrites`, `processWriteBatch`, `beginSubmit` and `waitForSubmitters` in `db.go`. Any number
of submitting calls, any number of `Close` calls and the write loop interleave over the submitter
count, the published closed flag and the write channel. What the write loop does with a batch is
kept to who is answered and in which order; `flushErr` may be set at any time.
-/

namespace Seol.Shutdown

open Common

variable {ε : Type}

/-- The errors of `submitWrite`. -/
inductive SubmitError (ε : Type) where
  | closed
  | flush (e : ε)

/-! ## Answering a batch -/

/-- How a round of `processWriteBatch` ends after the WAL took the prepared requests: all were
applied, the memtable was rotated, preparing the next one had failed, or the rotation fails. -/
inductive RoundEnd (ε : Type) where
  | applied
  | rotated
  | prepareFailed (e : ε)
  | rotateFailed (e : ε)

/-- What a round of `processWriteBatch` meets. `refused` is an error before anything is applied: of
the store, of the first request, or of the WAL. Otherwise `more + 1` requests are prepared. -/
inductive Round (ε : Type) where
  | refused (e : ε)
  | prepared (more : ℕ) (why : RoundEnd ε)

/-- One round: the answers it gives, and the requests left for the next one. -/
def Round.run (batch : List ℕ) : Round ε → List (ℕ × Option ε) × List ℕ
  | .refused e => (batch.map fun r => (r, some e), [])
  | .prepared more .applied => ((batch.take (more + 1)).map fun r => (r, none), batch.drop (more + 1))
  | .prepared more .rotated => ((batch.take (more + 1)).map fun r => (r, none), batch.drop (more + 1))
  | .prepared more (.prepareFailed e) =>
    (((batch.take (more + 1)).map fun r => (r, none)) ++
      (batch.drop (more + 1)).map fun r => (r, some e), [])
  | .prepared more (.rotateFailed e) =>
    -- the last prepared request waits for the rotation and shares its error
    (((batch.take more).map fun r => (r, none)) ++ (batch.drop more).map fun r => (r, some e), [])

/-- `processWriteBatch`: the answers in the order in which they are given. Every round takes a
request off the batch, so the length of the batch is fuel enough. -/
def processRounds (rounds : ℕ → Round ε) : ℕ → List ℕ → List (ℕ × Option ε)
  | 0, _ => []
  | fuel + 1, batch =>
    if batch = [] then []
    else ((rounds fuel).run batch).1 ++ processRounds rounds fuel ((rounds fuel).run batch).2

/-- `processWriteBatch`. -/
def processWriteBatch (rounds : ℕ → Round ε) (batch : List ℕ) : List (ℕ × Option ε) :=
  processRounds rounds batch.length batch

/-- A round answers a prefix of the batch, in order. -/
theorem Round.run_fst (r : Round ε) (batch : List ℕ) :
    (r.run batch).1.map Prod.fst ++ (r.run batch).2 = batch := by
  have hmap : ∀ (l : List ℕ) (a : Option ε), (l.map fun r => (r, a)).map Prod.fst = l := by
    intro l a
    simp [Function.comp_def]
  cases r with
  | refused e => simp [run, Function.comp_def]
  | prepared more why =>
    cases why <;> simp only [run, List.map_append, hmap, List.append_nil, List.take_append_drop]

theorem Round.length_run_lt (r : Round ε) {batch : List ℕ} (hne : batch ≠ []) :
    (r.run batch).2.length < batch.length := by
  have hpos : 0 < batch.length := List.length_pos_iff.mpr hne
  cases r with
  | refused e => exact hpos
  | prepared more why =>
    cases why
    case applied => simp only [run, List.length_drop]; omega
    case rotated => simp only [run, List.length_drop]; omega
    case prepareFailed => exact hpos
    case rotateFailed => exact hpos

theorem processRounds_nil (rounds : ℕ → Round ε) (fuel : ℕ) : processRounds rounds fuel [] = [] := by
  cases fuel with
  | zero => rfl
  | succ fuel => rw [processRounds, if_pos rfl]

/-- **Every request of a batch is answered exactly once, in order.** -/
theorem processWriteBatch_fst (rounds : ℕ → Round ε) (batch : List ℕ) :
    (processWriteBatch rounds batch).map Prod.fst = batch := by
  -- every round answers at least one request, so the batch's length is fuel enough
  suffices h : ∀ fuel batch, batch.length ≤ fuel →
      (processRounds rounds fuel batch).map Prod.fst = batch from h _ _ le_rfl
  intro fuel
  induction fuel with
  | zero =>
    intro batch hle
    rw [List.length_eq_zero_iff.mp (Nat.le_zero.mp hle)]
    rfl
  | succ fuel ih =>
    intro batch hle
    unfold processRounds
    split_ifs with hnil
    · rw [hnil]
      rfl
    · have hlt := (rounds fuel).length_run_lt hnil
      rw [List.map_append, ih _ (by omega), Round.run_fst]

/-! ## The protocol -/

/-- Where a call of `submitWrite` stands: counted by `beginSubmit` but yet to look at the closed flag,
turned away by it, let in, turned away by `flushErr`, about to send, sent, waiting for its answer,
returned without or with one from the write loop. -/
inductive CallPhase (ε : Type) where
  | begun
  | refusing
  | admitted
  | failing (e : ε)
  | sending
  | sent
  | waiting
  | rejected (e : SubmitError ε)
  | answered (r : Option ε)

/-- Where a call of `Close` stands: the store was closed already, this call marked it closed, it saw
no submitters, it sent the sentinel, it saw the write loop stop. -/
inductive ClosePhase where
  | late
  | marked
  | quiet
  | signalled
  | stopped
deriving DecidableEq

/-- Where the write loop stands: at the head of the loop, draining the channel for the first or the
second time, deciding whether to wait for more (before and after it looked at the channel), with a
batch to process, answering, or stopped. -/
inductive LoopPhase (ε : Type) where
  | head
  | draining (batch : List ℕ) (again : Bool)
  | grouping (batch : List ℕ) (sawEmpty : Bool)
  | collected (batch : List ℕ) (closing : Bool)
  | answering (todo : List (ℕ × Option ε)) (closing : Bool)
  | stopped

/-- The shared state and the goroutines. A request is named by the call that made it; `none` on the
channel is the sentinel; `answers` are the requests the write loop finished. -/
structure State (ε : Type) where
  submitters : ℕ
  closed : Bool
  flushErr : Option ε
  writeCh : List (Option ℕ)
  answers : List (ℕ × Option ε)
  calls : List (CallPhase ε)
  closes : List ClosePhase
  loop : LoopPhase ε

/-- A store that was just opened. -/
def State.start : State ε := ⟨0, false, none, [], [], [], [], .head⟩

/-- What is observed of a step. -/
inductive Event (ε : Type) where
  | sawClosed (i : ℕ)
  | enqueue (i : ℕ)
  | sentinel
  | answer (i : ℕ) (r : Option ε)
  | internal

/-- Move call `i` to another phase. -/
def State.setCall (s : State ε) (i : ℕ) (c : CallPhase ε) : State ε :=
  { s with calls := s.calls.set i c }

/-- Move close `j` to another phase. -/
def State.setClose (s : State ε) (j : ℕ) (c : ClosePhase) : State ε :=
  { s with closes := s.closes.set j c }

/-- `finishSubmit` by call `i`. -/
def State.finishSubmit (s : State ε) (i : ℕ) (c : CallPhase ε) : State ε :=
  { s.setCall i c with submitters := s.submitters - 1 }

/-- Steps of the submitting calls. -/
inductive CallStep : State ε → Event ε → State ε → Prop
  | begin {s} : CallStep s .internal
      { s with submitters := s.submitters + 1, calls := s.calls ++ [.begun] }
  | seeClosed {s} (i : ℕ) (h : s.calls[i]? = some .begun) (hc : s.closed = true) :
      CallStep s (.sawClosed i) (s.setCall i .refusing)
  | seeOpen {s} (i : ℕ) (h : s.calls[i]? = some .begun) (hc : s.closed = false) :
      CallStep s .internal (s.setCall i .admitted)
  | refuse {s} (i : ℕ) (h : s.calls[i]? = some .refusing) :
      CallStep s .internal (s.finishSubmit i (.rejected .closed))
  | seeFlushErr {s} (i : ℕ) (e : ε) (h : s.calls[i]? = some .admitted) (he : s.flushErr = some e) :
      CallStep s .internal (s.setCall i (.failing e))
  | seeNoFlushErr {s} (i : ℕ) (h : s.calls[i]? = some .admitted) (he : s.flushErr = none) :
      CallStep s .internal (s.setCall i .sending)
  | fail {s} (i : ℕ) (e : ε) (h : s.calls[i]? = some (.failing e)) :
      CallStep s .internal (s.finishSubmit i (.rejected (.flush e)))
  | send {s} (i : ℕ) (h : s.calls[i]? = some .sending) (hroom : s.writeCh.length < batchCap) :
      CallStep s (.enqueue i) { s.setCall i .sent with writeCh := s.writeCh ++ [some i] }
  | finish {s} (i : ℕ) (h : s.calls[i]? = some .sent) :
      CallStep s .internal (s.finishSubmit i .waiting)
  | wake {s} (i : ℕ) (r : Option ε) (h : s.calls[i]? = some .waiting) (hr : (i, r) ∈ s.answers) :
      CallStep s .internal (s.setCall i (.answered r))

/-- Steps of the `Close` calls, up to the stop of the write loop. -/
inductive CloseStep : State ε → Event ε → State ε → Prop
  | mark {s} (h : s.closed = false) :
      CloseStep s .internal { s with closed := true, closes := s.closes ++ [.marked] }
  | late {s} (h : s.closed = true) :
      CloseStep s .internal { s with closes := s.closes ++ [.late] }
  | seeQuiet {s} (j : ℕ) (h : s.closes[j]? = some .marked) (hs : s.submitters = 0) :
      CloseStep s .internal (s.setClose j .quiet)
  | signal {s} (j : ℕ) (h : s.closes[j]? = some .quiet) (hroom : s.writeCh.length < batchCap) :
      CloseStep s .sentinel { s.setClose j .signalled with writeCh := s.writeCh ++ [none] }
  | seeStopped {s} (j : ℕ) (h : s.closes[j]? = some .signalled) (hl : s.loop = .stopped) :
      CloseStep s .internal (s.setClose j .stopped)

/-- Steps of the write loop. `window` says that it may wait for a group commit. -/
inductive LoopStep (window : Bool) : State ε → Event ε → State ε → Prop
  | receive {s} (i : ℕ) (q : List (Option ℕ)) (h : s.loop = .head) (hq : s.writeCh = some i :: q) :
      LoopStep window s .internal { s with writeCh := q, loop := .draining [i] false }
  | receiveNil {s} (q : List (Option ℕ)) (h : s.loop = .head) (hq : s.writeCh = none :: q) :
      LoopStep window s .internal { s with writeCh := q, loop := .stopped }
  | drain {s} (batch : List ℕ) (again : Bool) (i : ℕ) (q : List (Option ℕ))
      (h : s.loop = .draining batch again) (hcap : batch.length < batchCap)
      (hq : s.writeCh = some i :: q) :
      LoopStep window s .internal { s with writeCh := q, loop := .draining (batch ++ [i]) again }
  | drainNil {s} (batch : List ℕ) (again : Bool) (q : List (Option ℕ))
      (h : s.loop = .draining batch again) (hcap : batch.length < batchCap)
      (hq : s.writeCh = none :: q) :
      LoopStep window s .internal { s with writeCh := q, loop := .collected batch true }
  | drainFull {s} (batch : List ℕ) (again : Bool) (h : s.loop = .draining batch again)
      (hcap : batchCap ≤ batch.length) :
      LoopStep window s .internal { s with loop := .collected batch false }
  | drainEmpty {s} (batch : List ℕ) (h : s.loop = .draining batch false)
      (hcap : batch.length < batchCap) (hq : s.writeCh = []) :
      LoopStep window s .internal { s with loop := .grouping batch false }
  | drainEmptyAgain {s} (batch : List ℕ) (h : s.loop = .draining batch true)
      (hcap : batch.length < batchCap) (hq : s.writeCh = []) :
      LoopStep window s .internal { s with loop := .collected batch false }
  | noWindow {s} (batch : List ℕ) (h : s.loop = .grouping batch false) (hw : window = false) :
      LoopStep window s .internal { s with loop := .collected batch false }
  | seeQueued {s} (batch : List ℕ) (h : s.loop = .grouping batch false) (hw : window = true)
      (hq : s.writeCh ≠ []) : LoopStep window s .internal { s with loop := .draining batch true }
  | seeEmpty {s} (batch : List ℕ) (h : s.loop = .grouping batch false) (hw : window = true)
      (hq : s.writeCh = []) : LoopStep window s .internal { s with loop := .grouping batch true }
  | seeSubmitters {s} (batch : List ℕ) (h : s.loop = .grouping batch true)
      (hs : 0 < s.submitters) : LoopStep window s .internal { s with loop := .draining batch true }
  | seeNoSubmitters {s} (batch : List ℕ) (h : s.loop = .grouping batch true)
      (hs : s.submitters = 0) : LoopStep window s .internal { s with loop := .collected batch false }
  | process {s} (batch : List ℕ) (closing : Bool) (rounds : ℕ → Round ε)
      (h : s.loop = .collected batch closing) :
      LoopStep window s .internal
        { s with loop := .answering (processWriteBatch rounds batch) closing }
  | answer {s} (i : ℕ) (r : Option ε) (todo : List (ℕ × Option ε)) (closing : Bool)
      (h : s.loop = .answering ((i, r) :: todo) closing) :
      LoopStep window s (.answer i r)
        { s with answers := s.answers ++ [(i, r)], loop := .answering todo closing }
  | next {s} (closing : Bool) (h : s.loop = .answering [] closing) :
      LoopStep window s .internal { s with loop := if closing then .stopped else .head }

/-- A step of the whole protocol. -/
inductive Step (window : Bool) : State ε → Event ε → State ε → Prop
  | call {s e s'} (h : CallStep s e s') : Step window s e s'
  | close {s e s'} (h : CloseStep s e s') : Step window s e s'
  | loop {s e s'} (h : LoopStep window s e s') : Step window s e s'
  | setFlushErr {s} (e : ε) (h : s.flushErr = none) :
      Step window s .internal { s with flushErr := some e }

/-! ## What a trace shows -/

/-- Everything sent on the write channel, in order. -/
def sentOf (es : List (Event ε)) : List (Option ℕ) :=
  es.filterMap fun
    | .enqueue i => some (some i)
    | .sentinel => some none
    | _ => none

/-- The requests the write loop answered, in order. -/
def answeredOf (es : List (Event ε)) : List ℕ :=
  es.filterMap fun
    | .answer i _ => some i
    | _ => none

@[simp] theorem sentOf_append (es es' : List (Event ε)) :
    sentOf (es ++ es') = sentOf es ++ sentOf es' := by
  simp [sentOf]

@[simp] theorem answeredOf_append (es es' : List (Event ε)) :
    answeredOf (es ++ es') = answeredOf es ++ answeredOf es' := by
  simp [answeredOf]

@[simp] theorem sentOf_internal : sentOf [(.internal : Event ε)] = [] := rfl

@[simp] theorem answeredOf_internal : answeredOf [(.internal : Event ε)] = [] := rfl

/-- Calls that `submitters` counts. -/
def CallPhase.counted : CallPhase ε → Bool
  | .begun | .refusing | .admitted | .failing _ | .sending | .sent => true
  | _ => false

/-- Calls that were let in and have not left yet. -/
def CallPhase.inside : CallPhase ε → Bool
  | .admitted | .failing _ | .sending | .sent => true
  | _ => false

/-- Calls whose request went to the channel. -/
def CallPhase.enqueued : CallPhase ε → Bool
  | .sent | .waiting | .answered _ => true
  | _ => false

/-- Calls that saw the store closed. -/
def CallPhase.refused : CallPhase ε → Bool
  | .refusing | .rejected _ => true
  | _ => false

/-- The close that marked the store. -/
def ClosePhase.won : ClosePhase → Bool
  | .late => false
  | _ => true

/-- A close that saw no submitters. -/
def ClosePhase.past : ClosePhase → Bool
  | .quiet | .signalled | .stopped => true
  | _ => false

/-- A close that sent the sentinel. -/
def ClosePhase.signal : ClosePhase → Bool
  | .signalled | .stopped => true
  | _ => false

/-- The requests in the hands of the write loop. -/
def LoopPhase.held : LoopPhase ε → List ℕ
  | .head | .stopped => []
  | .draining batch _ | .grouping batch _ | .collected batch _ => batch
  | .answering todo _ => todo.map Prod.fst

/-- Whether the write loop received the sentinel. -/
def LoopPhase.sawNil : LoopPhase ε → Bool
  | .collected _ closing | .answering _ closing => closing
  | .stopped => true
  | _ => false

/-- The sentinel, if there is one. -/
def sentinels (b : Bool) : List (Option ℕ) := if b then [none] else []

/-! ## The invariant -/

/-- What holds after the trace `es`; `ids` are the requests that were enqueued. -/
structure Inv (es : List (Event ε)) (ids : List ℕ) (s : State ε) : Prop where
  count : s.submitters = s.calls.countP CallPhase.counted
  winner : s.closes.countP ClosePhase.won = if s.closed then 1 else 0
  quiet : s.closes.any ClosePhase.past = true → ∀ c ∈ s.calls, c.inside = false
  sent : sentOf es = ids.map some ++ sentinels (s.closes.any ClosePhase.signal)
  fifo : sentOf es =
    (answeredOf es ++ s.loop.held).map some ++ sentinels s.loop.sawNil ++ s.writeCh
  nodup : ids.Nodup
  enqueued : ∀ i ∈ ids, ∃ c, s.calls[i]? = some c ∧ c.enqueued = true
  refused : ∀ i, .sawClosed i ∈ es → ∃ c, s.calls[i]? = some c ∧ c.refused = true

theorem inv_start : Inv [] [] (State.start : State ε) where
  count := rfl
  winner := rfl
  quiet := by simp [State.start]
  sent := rfl
  fifo := rfl
  nodup := List.nodup_nil
  enqueued := by simp
  refused := by simp

/-! ## Calls -/

/-- Moving one call changes the count by that call. -/
theorem countP_set {α : Type} {p : α → Bool} {l : List α} {i : ℕ} {a b : α}
    (h : l[i]? = some a) : (l.set i b).countP p + (if p a then 1 else 0) =
      l.countP p + (if p b then 1 else 0) := by
  obtain ⟨hi, rfl⟩ := List.getElem?_eq_some_iff.mp h
  have hpos : (if p l[i] = true then 1 else 0) ≤ l.countP p := by
    split_ifs with hp
    · exact List.countP_pos_iff.mpr ⟨_, List.getElem_mem hi, hp⟩
    · exact Nat.zero_le _
  rw [List.countP_set hi]
  omega

variable {es : List (Event ε)} {ids : List ℕ} {s : State ε}

/-- Once a close saw no submitters, no call is inside. -/
theorem Inv.not_past {i : ℕ} {c : CallPhase ε} (h : Inv es ids s) (hc : s.calls[i]? = some c)
    (hin : c.inside = true) : s.closes.any ClosePhase.past = false := by
  by_contra hpast
  have := h.quiet (by simpa using hpast) c (List.mem_of_getElem? hc)
  rw [hin] at this
  exact absurd this.symm Bool.false_ne_true

/-- A close that got past its wait had marked the store. -/
theorem Inv.closed_of_past (h : Inv es ids s) (hpast : s.closes.any ClosePhase.past = true) :
    s.closed = true := by
  obtain ⟨c, hc, hp⟩ := List.any_eq_true.mp hpast
  have hwon : 0 < s.closes.countP ClosePhase.won :=
    List.countP_pos_iff.mpr ⟨c, hc, by cases c <;> first | rfl | simp [ClosePhase.past] at hp⟩
  by_contra hcl
  rw [h.winner, if_neg hcl] at hwon
  exact absurd hwon (lt_irrefl 0)

/-- A sentinel is sent only past the wait. -/
theorem signal_le_past {l : List ClosePhase} (h : l.any ClosePhase.past = false) :
    l.any ClosePhase.signal = false := by
  rw [List.any_eq_false] at h ⊢
  intro c hc hs
  exact h c hc (by cases c <;> first | rfl | simp [ClosePhase.signal] at hs)

theorem getElem?_set_self {α : Type} {l : List α} {i : ℕ} {a b : α} (h : l[i]? = some a) :
    (l.set i b)[i]? = some b := by
  obtain ⟨hi, -⟩ := List.getElem?_eq_some_iff.mp h
  rw [List.getElem?_set_self hi]

/-- A property of a call survives a move of a call that keeps it. -/
theorem exists_phase_set {l : List (CallPhase ε)} {p : CallPhase ε → Bool} {i j : ℕ}
    {a b : CallPhase ε} (ha : l[i]? = some a) (hab : p a = true → p b = true)
    (h : ∃ c, l[j]? = some c ∧ p c = true) : ∃ c, (l.set i b)[j]? = some c ∧ p c = true := by
  obtain ⟨c, hc, hp⟩ := h
  by_cases hij : i = j
  · subst hij
    obtain rfl := Option.some.inj (ha.symm.trans hc)
    exact ⟨b, getElem?_set_self ha, hab hp⟩
  · exact ⟨c, by rw [List.getElem?_set_ne hij, hc], hp⟩

/-- **A call moves** without touching the channel. -/
theorem Inv.move {i n : ℕ} {a b : CallPhase ε} {e : Event ε} (h : Inv es ids s)
    (ha : s.calls[i]? = some a)
    (hn : n + (if a.counted then 1 else 0) = s.submitters + (if b.counted then 1 else 0))
    (hin : b.inside = true → s.closes.any ClosePhase.past = false)
    (henq : a.enqueued = true → b.enqueued = true) (href : a.refused = true → b.refused = true)
    (hsent : sentOf [e] = []) (hanswered : answeredOf [e] = [])
    (hsaw : ∀ j, e = .sawClosed j → j = i ∧ b.refused = true) :
    Inv (es ++ [e]) ids { s.setCall i b with submitters := n } := by
  refine ⟨?_, h.winner, fun hpast c hc => ?_, ?_, ?_, h.nodup, fun j hj => ?_, fun j hj => ?_⟩
  -- the counter is the number of calls between its two updates, before and after the move
  · have hcount := countP_set (p := CallPhase.counted) (b := b) ha
    have := h.count
    show n = (s.calls.set i b).countP CallPhase.counted
    omega
  -- past the check of the counter no call is inside, so none may move to such a phase
  · rcases List.mem_or_eq_of_mem_set hc with hc | rfl
    · exact h.quiet hpast c hc
    · by_contra hb
      have hpast' : s.closes.any ClosePhase.past = true := hpast
      rw [hin (by simpa using hb)] at hpast'
      exact absurd hpast' Bool.false_ne_true
  · rw [sentOf_append, hsent, List.append_nil]
    exact h.sent
  · rw [sentOf_append, answeredOf_append, hsent, hanswered, List.append_nil, List.append_nil]
    exact h.fifo
  · exact exists_phase_set ha henq (h.enqueued j hj)
  · rcases List.mem_append.mp hj with hj | hj
    · exact exists_phase_set ha href (h.refused j hj)
    · obtain ⟨rfl, hb⟩ := hsaw j (List.mem_singleton.mp hj).symm
      exact ⟨b, getElem?_set_self ha, hb⟩

/-- A step that leaves calls, closes and channel alone. -/
theorem Inv.internal {s' : State ε} (h : Inv es ids s) (hsub : s'.submitters = s.submitters)
    (hcalls : s'.calls = s.calls) (hcloses : s'.closes = s.closes) (hclosed : s'.closed = s.closed)
    (hfifo : (s'.loop.held.map some ++ sentinels s'.loop.sawNil ++ s'.writeCh) =
      s.loop.held.map some ++ sentinels s.loop.sawNil ++ s.writeCh) :
    Inv (es ++ [.internal]) ids s' where
  count := by rw [hsub, hcalls, h.count]
  winner := by rw [hcloses, hclosed, h.winner]
  quiet := by
    rw [hcloses, hcalls]
    exact h.quiet
  sent := by
    rw [hcloses, sentOf_append, h.sent]
    exact List.append_nil _
  fifo := by
    rw [sentOf_append, answeredOf_append, sentOf_internal, answeredOf_internal, List.append_nil,
      List.append_nil, h.fifo]
    simp only [List.map_append, List.append_assoc] at hfifo ⊢
    rw [hfifo]
  nodup := h.nodup
  enqueued := by
    rw [hcalls]
    exact h.enqueued
  refused i hi := by
    rw [hcalls]
    exact h.refused i (by simpa using hi)

/-- A counted call is counted, so the decrement of `finishSubmit` is one. -/
theorem Inv.leave {i : ℕ} {a : CallPhase ε} (h : Inv es ids s) (ha : s.calls[i]? = some a)
    (hcounted : a.counted = true) :
    s.submitters - 1 + (if a.counted then 1 else 0) = s.submitters + 0 := by
  have hpos : 0 < s.calls.countP CallPhase.counted :=
    List.countP_pos_iff.mpr ⟨a, List.mem_of_getElem? ha, hcounted⟩
  rw [← h.count] at hpos
  rw [if_pos hcounted]
  omega

/-- **A request is enqueued** by a call that is inside, so the sentinel was not sent yet. -/
theorem Inv.send {i : ℕ} (h : Inv es ids s) (hc : s.calls[i]? = some .sending) :
    Inv (es ++ [.enqueue i]) (ids ++ [i])
      { s.setCall i .sent with writeCh := s.writeCh ++ [some i] } := by
  have hpast := h.not_past hc rfl
  have hsignal := signal_le_past hpast
  -- a call sends once
  have hnew : i ∉ ids := by
    intro hi
    obtain ⟨c, hc', henq⟩ := h.enqueued i hi
    obtain rfl := Option.some.inj (hc.symm.trans hc')
    simp [CallPhase.enqueued] at henq
  refine ⟨?_, h.winner, fun hp c hin => ?_, ?_, ?_, ?_, fun j hj => ?_, fun j hj => ?_⟩
  · have hcount := countP_set (p := CallPhase.counted) (b := .sent) hc
    have := h.count
    show s.submitters = (s.calls.set i .sent).countP CallPhase.counted
    simp only [CallPhase.counted, if_true] at hcount
    omega
  -- the sender is inside, so no close can have seen the counter at zero
  · have hp' : s.closes.any ClosePhase.past = true := hp
    rw [hpast] at hp'
    exact absurd hp' Bool.false_ne_true
  · rw [sentOf_append, h.sent]
    show _ = (ids ++ [i]).map some ++ sentinels (s.closes.any ClosePhase.signal)
    rw [hsignal]
    simp [sentinels, sentOf]
  · rw [sentOf_append, answeredOf_append, h.fifo]
    simp [sentOf, answeredOf, State.setCall]
  · rw [List.nodup_append]
    refine ⟨h.nodup, List.nodup_singleton i, fun a ha b hb => ?_⟩
    rintro rfl
    exact hnew (List.mem_singleton.mp hb ▸ ha)
  · rcases List.mem_append.mp hj with hj | hj
    · exact exists_phase_set hc (fun _ => rfl) (h.enqueued j hj)
    · rw [List.mem_singleton.mp hj]
      exact ⟨.sent, getElem?_set_self hc, rfl⟩
  · exact exists_phase_set hc (by simp [CallPhase.refused]) (h.refused j (by simpa using hj))

/-- **Every step of a submitting call keeps the invariant.** -/
theorem Inv.callStep {e : Event ε} {s' : State ε} (h : Inv es ids s) (hs : CallStep s e s') :
    ∃ ids', Inv (es ++ [e]) ids' s' := by
  cases hs with
  | begin =>
    refine ⟨ids, ?_, h.winner, fun hpast c hc => ?_, ?_, ?_, h.nodup, fun i hi => ?_,
      fun i hi => ?_⟩
    · rw [List.countP_append, ← h.count]
      rfl
    · rcases List.mem_append.mp hc with hc | hc
      · exact h.quiet hpast c hc
      · rw [List.mem_singleton.mp hc]
        rfl
    · rw [sentOf_append, h.sent]
      exact List.append_nil _
    · have hfifo := h.fifo
      rw [sentOf_append, answeredOf_append]
      simpa using hfifo
    · obtain ⟨c, hc, hp⟩ := h.enqueued i hi
      exact ⟨c, by rw [List.getElem?_append_left (List.getElem?_eq_some_iff.mp hc).1, hc], hp⟩
    · obtain ⟨c, hc, hp⟩ := h.refused i (by simpa using hi)
      exact ⟨c, by rw [List.getElem?_append_left (List.getElem?_eq_some_iff.mp hc).1, hc], hp⟩
  | seeClosed i hc hclosed =>
    exact ⟨ids, h.move hc rfl (by simp [CallPhase.inside]) (by simp [CallPhase.enqueued])
      (by simp [CallPhase.refused]) rfl rfl (fun j hj => by simpa [eq_comm, CallPhase.refused] using hj)⟩
  | seeOpen i hc hclosed =>
    -- the store is open, so no close is past its wait
    have hpast : s.closes.any ClosePhase.past = false := by
      by_contra hp
      rw [h.closed_of_past (by simpa using hp)] at hclosed
      exact absurd hclosed.symm Bool.false_ne_true
    exact ⟨ids, h.move hc rfl (fun _ => hpast) (by simp [CallPhase.enqueued])
      (by simp [CallPhase.refused]) rfl rfl (by simp)⟩
  | refuse i hc =>
    exact ⟨ids, h.move hc (h.leave hc rfl) (by simp [CallPhase.inside])
      (by simp [CallPhase.enqueued]) (by simp [CallPhase.refused]) rfl rfl (by simp)⟩
  | seeFlushErr i e hc he =>
    exact ⟨ids, h.move hc rfl (fun _ => h.not_past hc rfl) (by simp [CallPhase.enqueued])
      (by simp [CallPhase.refused]) rfl rfl (by simp)⟩
  | seeNoFlushErr i hc he =>
    exact ⟨ids, h.move hc rfl (fun _ => h.not_past hc rfl) (by simp [CallPhase.enqueued])
      (by simp [CallPhase.refused]) rfl rfl (by simp)⟩
  | fail i e hc =>
    exact ⟨ids, h.move hc (h.leave hc rfl) (by simp [CallPhase.inside])
      (by simp [CallPhase.enqueued]) (by simp [CallPhase.refused]) rfl rfl (by simp)⟩
  | send i hc hroom => exact ⟨ids ++ [i], h.send hc⟩
  | finish i hc =>
    exact ⟨ids, h.move hc (h.leave hc rfl) (by simp [CallPhase.inside])
      (by simp [CallPhase.enqueued]) (by simp [CallPhase.refused]) rfl rfl (by simp)⟩
  | wake i r hc hr =>
    exact ⟨ids, h.move hc rfl (by simp [CallPhase.inside]) (by simp [CallPhase.enqueued])
      (by simp [CallPhase.refused]) rfl rfl (by simp)⟩

/-! ## Closes -/

theorem any_set {α : Type} {p : α → Bool} {l : List α} {i : ℕ} {a b : α} (ha : l[i]? = some a)
    (hab : p b = p a) : (l.set i b).any p = l.any p := by
  induction l generalizing i with
  | nil => simp at ha
  | cons x l ih =>
    cases i with
    | zero =>
      obtain rfl : x = a := by simpa using ha
      simp [hab]
    | succ i => simp [ih (by simpa using ha)]

theorem any_set_self {α : Type} {p : α → Bool} {l : List α} {i : ℕ} {a b : α}
    (ha : l[i]? = some a) (hb : p b = true) : (l.set i b).any p = true :=
  List.any_eq_true.mpr ⟨b, List.mem_of_getElem? (getElem?_set_self ha), hb⟩

/-- Only one close gets through `markClosed`, so a close that is yet to signal is the first. -/
theorem Inv.not_signal {j : ℕ} (h : Inv es ids s) (hj : s.closes[j]? = some .quiet) :
    s.closes.any ClosePhase.signal = false := by
  -- two closes past `markClosed` would be two winners
  rw [List.any_eq_false]
  intro c hc hsignal
  obtain ⟨k, hk⟩ := List.mem_iff_getElem?.mp hc
  have hne : j ≠ k := by
    rintro rfl
    obtain rfl := Option.some.inj (hj.symm.trans hk)
    simp [ClosePhase.signal] at hsignal
  have hcount := countP_set (p := ClosePhase.won) (b := .late) hj
  have hpos : 0 < (s.closes.set j .late).countP ClosePhase.won :=
    List.countP_pos_iff.mpr ⟨c, List.mem_of_getElem? (by rw [List.getElem?_set_ne hne, hk]),
      by cases c <;> first | rfl | simp [ClosePhase.signal] at hsignal⟩
  have hwinner := h.winner
  have hle : (if s.closed = true then 1 else 0) ≤ 1 := by split_ifs <;> simp
  simp only [ClosePhase.won, Bool.false_eq_true, if_true, if_false] at hcount
  omega

/-- The winner stays the winner. -/
theorem Inv.winner_set {j : ℕ} {a b : ClosePhase} (h : Inv es ids s)
    (hj : s.closes[j]? = some a) (hab : b.won = a.won) :
    (s.closes.set j b).countP ClosePhase.won = if s.closed then 1 else 0 := by
  have hcount := countP_set (p := ClosePhase.won) (b := b) hj
  rw [hab] at hcount
  exact (Nat.add_right_cancel hcount).trans h.winner

/-- A close that joins, or one that moves without sending. -/
theorem Inv.closes {s' : State ε} {closes : List ClosePhase} {closed : Bool} (h : Inv es ids s)
    (hs' : s' = { s with closes := closes, closed := closed })
    (hwinner : closes.countP ClosePhase.won = if closed then 1 else 0)
    (hquiet : closes.any ClosePhase.past = true → ∀ c ∈ s.calls, c.inside = false)
    (hsignal : closes.any ClosePhase.signal = s.closes.any ClosePhase.signal) :
    Inv (es ++ [.internal]) ids s' := by
  subst hs'
  refine ⟨h.count, hwinner, hquiet, ?_, ?_, h.nodup, h.enqueued, fun i hi => ?_⟩
  -- the sentinel is sent only by a close that signals
  · rw [sentOf_append, sentOf_internal, List.append_nil, h.sent]
    show _ = _ ++ sentinels (closes.any ClosePhase.signal)
    rw [hsignal]
  · rw [sentOf_append, answeredOf_append, sentOf_internal, answeredOf_internal, List.append_nil,
      List.append_nil]
    exact h.fifo
  · exact h.refused i (by simpa using hi)

/-- **Every step of a close keeps the invariant.** -/
theorem Inv.closeStep {e : Event ε} {s' : State ε} (h : Inv es ids s) (hs : CloseStep s e s') :
    Inv (es ++ [e]) ids s' := by
  have hwinner := h.winner
  cases hs with
  | mark hclosed =>
    rw [hclosed, if_neg Bool.false_ne_true] at hwinner
    refine h.closes rfl ?_ (fun hp => h.quiet ?_) ?_
    · rw [List.countP_append, hwinner]
      rfl
    · simpa [ClosePhase.past] using hp
    · simp [ClosePhase.signal]
  | late hclosed =>
    refine h.closes (show ({ s with closes := s.closes ++ [.late] } : State ε) = _ from rfl) ?_
      (fun hp => h.quiet ?_) ?_
    · rw [List.countP_append, hwinner]
      rfl
    · simpa [ClosePhase.past] using hp
    · simp [ClosePhase.signal]
  | seeQuiet j hj hzero =>
    refine h.closes (show s.setClose j .quiet = _ from rfl) (h.winner_set hj rfl)
      (fun _ c hc => ?_) (any_set hj rfl)
    -- a call inside would be counted
    rw [h.count, List.countP_eq_zero] at hzero
    have hc' := hzero c hc
    cases c <;> first | rfl | simp [CallPhase.counted] at hc'
  | signal j hj hroom =>
    have hnot := h.not_signal hj
    refine ⟨h.count, h.winner_set hj rfl, fun _ => ?_, ?_, ?_, h.nodup, h.enqueued, fun i hi => ?_⟩
    · exact h.quiet (List.any_eq_true.mpr ⟨_, List.mem_of_getElem? hj, rfl⟩)
    · rw [sentOf_append, h.sent, hnot]
      show _ = _ ++ sentinels ((s.closes.set j .signalled).any ClosePhase.signal)
      rw [any_set_self hj rfl]
      simp [sentinels, sentOf]
    · rw [sentOf_append, answeredOf_append, h.fifo]
      simp [sentOf, answeredOf, State.setClose]
    · exact h.refused i (by simpa using hi)
  | seeStopped j hj hl =>
    refine h.closes (show s.setClose j .stopped = _ from rfl) (h.winner_set hj rfl)
      (fun hp => h.quiet ?_) (any_set hj rfl)
    exact (any_set (b := .stopped) hj rfl).symm.trans hp

/-! ## The write loop -/

/-- **Every step of the write loop keeps the invariant.** -/
theorem Inv.loopStep {window : Bool} {e : Event ε} {s' : State ε} (h : Inv es ids s)
    (hs : LoopStep window s e s') : Inv (es ++ [e]) ids s' := by
  cases hs with
  | answer i r todo closing hl =>
    refine ⟨h.count, h.winner, h.quiet, ?_, ?_, h.nodup, h.enqueued, fun i hi => ?_⟩
    · rw [sentOf_append, h.sent]
      exact List.append_nil _
    -- the answered request leaves the front of what the loop holds
    · have hfifo := h.fifo
      rw [sentOf_append, answeredOf_append]
      simpa [hl, LoopPhase.held, LoopPhase.sawNil, sentOf, answeredOf] using hfifo
    · exact h.refused i (by simpa using hi)
  | receive i q hl hq =>
    exact h.internal rfl rfl rfl rfl (by simp [hl, hq, LoopPhase.held, LoopPhase.sawNil, sentinels])
  | receiveNil q hl hq =>
    exact h.internal rfl rfl rfl rfl (by simp [hl, hq, LoopPhase.held, LoopPhase.sawNil, sentinels])
  | drain batch again i q hl hcap hq =>
    exact h.internal rfl rfl rfl rfl (by simp [hl, hq, LoopPhase.held, LoopPhase.sawNil, sentinels])
  | drainNil batch again q hl hcap hq =>
    exact h.internal rfl rfl rfl rfl (by simp [hl, hq, LoopPhase.held, LoopPhase.sawNil, sentinels])
  -- `processWriteBatch` answers the requests of the batch, in order and all of them
  | process batch closing rounds hl =>
    refine h.internal rfl rfl rfl rfl ?_
    simp [hl, LoopPhase.held, LoopPhase.sawNil, processWriteBatch_fst]
  | next closing hl =>
    refine h.internal rfl rfl rfl rfl ?_
    cases closing <;> simp [hl, LoopPhase.held, LoopPhase.sawNil]
  | drainFull batch again hl hcap =>
    exact h.internal rfl rfl rfl rfl (by simp [hl, LoopPhase.held, LoopPhase.sawNil])
  | drainEmpty batch hl hcap hq =>
    exact h.internal rfl rfl rfl rfl (by simp [hl, LoopPhase.held, LoopPhase.sawNil])
  | drainEmptyAgain batch hl hcap hq =>
    exact h.internal rfl rfl rfl rfl (by simp [hl, LoopPhase.held, LoopPhase.sawNil])
  | noWindow batch hl hw =>
    exact h.internal rfl rfl rfl rfl (by simp [hl, LoopPhase.held, LoopPhase.sawNil])
  | seeQueued batch hl hw hq =>
    exact h.internal rfl rfl rfl rfl (by simp [hl, LoopPhase.held, LoopPhase.sawNil])
  | seeEmpty batch hl hw hq =>
    exact h.internal rfl rfl rfl rfl (by simp [hl, LoopPhase.held, LoopPhase.sawNil])
  | seeSubmitters batch hl hsub =>
    exact h.internal rfl rfl rfl rfl (by simp [hl, LoopPhase.held, LoopPhase.sawNil])
  | seeNoSubmitters batch hl hsub =>
    exact h.internal rfl rfl rfl rfl (by simp [hl, LoopPhase.held, LoopPhase.sawNil])

theorem inv_run {window : Bool} (h : Run (Step window) State.start es s) : ∃ ids, Inv es ids s := by
  induction h with
  | refl => exact ⟨[], inv_start⟩
  | tail _ hstep ih =>
    obtain ⟨ids, hinv⟩ := ih
    cases hstep with
    | call hs => exact hinv.callStep hs
    | close hs => exact ⟨ids, hinv.closeStep hs⟩
    | loop hs => exact ⟨ids, hinv.loopStep hs⟩
    | setFlushErr e he => exact ⟨ids, hinv.internal rfl rfl rfl rfl rfl⟩

/-- **No write is lost or stranded at shutdown.** In every run, with `ids` the enqueued requests:
no request is enqueued twice; at most one sentinel is sent, and nothing after it; the write loop
answers requests in the order of the channel, each at most once; when it stops, the sentinel was sent
and exactly the enqueued requests are answered; and a call that saw the store closed enqueues
nothing. -/
theorem no_write_lost {window : Bool} (h : Run (Step window) State.start es s) :
    ∃ ids : List ℕ, ids.Nodup ∧
      (sentOf es = ids.map some ∨ sentOf es = ids.map some ++ [none]) ∧
      answeredOf es <+: ids ∧
      (s.loop = .stopped → sentOf es = ids.map some ++ [none] ∧ answeredOf es = ids) ∧
      ∀ i, .sawClosed i ∈ es → i ∉ ids := by
  obtain ⟨ids, hinv⟩ := inv_run h
  have hsent := hinv.sent
  have hfifo := hinv.fifo
  have hshape : sentOf es = ids.map some ∨ sentOf es = ids.map some ++ [none] := by
    cases hsignal : s.closes.any ClosePhase.signal with
    | false => exact .inl (by simpa [hsignal, sentinels] using hsent)
    | true => exact .inr (by simpa [hsignal, sentinels] using hsent)
  -- the requests on the channel are the enqueued ones, the sentinel left out
  have hids : ids = answeredOf es ++ s.loop.held ++ s.writeCh.filterMap id := by
    have hleft : (sentOf es).filterMap id = ids := by
      rcases hshape with hs | hs <;> simp [hs]
    have hnil : (sentinels s.loop.sawNil).filterMap id = [] := by
      cases s.loop.sawNil <;> rfl
    rw [← hleft, hfifo, List.filterMap_append, List.filterMap_append, hnil]
    simp
  refine ⟨ids, hinv.nodup, hshape, ?_, fun hstop => ?_, fun i hi hmem => ?_⟩
  · rw [hids, List.append_assoc]
    exact List.prefix_append _ _
  · rw [hstop] at hfifo hids
    simp only [LoopPhase.held, LoopPhase.sawNil, sentinels, List.append_nil, if_true] at hfifo hids
    have hall : sentOf es = ids.map some ++ [none] := by
      refine hshape.resolve_left fun hs => ?_
      have hmem : none ∈ ids.map some := by
        rw [← hs, hfifo]
        simp
      simp at hmem
    refine ⟨hall, ?_⟩
    -- nothing can stand between the last answer and the sentinel
    have hrest : (s.writeCh.filterMap id).map some ++ [none] = none :: s.writeCh := by
      rw [hfifo, hids, List.map_append, List.append_assoc, List.append_assoc] at hall
      exact (List.append_cancel_left hall).symm
    cases hq : s.writeCh.filterMap id with
    | nil => rw [hids, hq, List.append_nil]
    | cons i q =>
      rw [hq] at hrest
      simp at hrest
  · obtain ⟨c, hc, href⟩ := hinv.refused i hi
    obtain ⟨c', hc', henq⟩ := hinv.enqueued i hmem
    obtain rfl := Option.some.inj (hc.symm.trans hc')
    cases c <;> simp [CallPhase.refused, CallPhase.enqueued] at href henq

/-- One request, then a close: the sentinel is received while the batch is drained. -/
theorem no_write_lost_one :
    ∃ (es : List (Event Unit)) (s : State Unit), Run (Step false) State.start es s ∧
      s.loop = .stopped ∧ answeredOf es = [0] ∧
      sentOf es = (answeredOf es).map some ++ [none] := by
  have hstart : Run (Step false) (State.start : State Unit) [] State.start := .refl _
  -- the call runs to its end before the close starts
  have hsubmit := (((hstart.tail (.call .begin)).tail
    (.call (.seeOpen 0 rfl rfl))).tail (.call (.seeNoFlushErr 0 rfl rfl))).tail
    (.call (.send 0 rfl (by decide)))
  have hclose := (((hsubmit.tail (.call (.finish 0 rfl))).tail (.close (.mark rfl))).tail
    (.close (.seeQuiet 0 rfl rfl))).tail (.close (.signal 0 rfl (by decide)))
  have hloop := ((hclose.tail (.loop (.receive 0 [none] rfl rfl))).tail
    (.loop (.drainNil [0] false [] rfl (by decide) rfl))).tail
    (.loop (.process [0] true (fun _ => .prepared 0 .applied) rfl))
  have hdone := (hloop.tail (.loop (.answer 0 none [] true rfl))).tail (.loop (.next true rfl))
  obtain ⟨ids, -, -, -, hstop, -⟩ := no_write_lost hdone
  obtain ⟨hsent, hanswered⟩ := hstop rfl
  exact ⟨_, _, hdone, rfl, rfl, by rw [hsent, hanswered]⟩

end Seol.Shutdown
