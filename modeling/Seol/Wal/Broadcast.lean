import Seol.Common.Monitor
import Seol.Wal.Progress

/-!
# Why a waiting append may wake up by itself

`WalStep.wake` lets a call return as soon as its wait loop would end. In the source the call sleeps in
`cond.Wait` until a `cond.Broadcast`, which `appendBatch` calls behind a direct write, `close` behind
setting `closed`, and the sync loop behind each sync. Here the steps carry these broadcasts and the
calls that sleep are kept apart. The wait loop reads `durable`, `syncErr` and `closed`, and every
critical section that changes one of them broadcasts; so no call sleeps through its condition, and
the calls that sleep come to an end like those that do not.

Reference: `appendBatch`, `close` and `syncLoop` in `wal.go`.
-/

namespace Seol

open Common

/-! ## The monitor of a WAL -/

/-- `appendBatch` gets to its `cond.Broadcast`: behind a direct write, whether or not it succeeds. -/
def Wal.appendBroadcasts (w : Wal) (c : BatchCall) : Bool :=
  decide (c.entries ≠ [] ∧ w.closed = false ∧ w.syncErr = none ∧ w.syncInterval ≤ 0)

/-- The critical sections of a WAL, and whether they call `cond.Broadcast`. -/
inductive WalMove : Wal → WalEvent → Bool → Wal → Prop
  | append (w : Wal) (entries : List (Bytes × Bytes)) (waitForSync : Bool)
      (faults : List (Option ℕ)) (syncs : Bool) :
      WalMove w (.append ⟨w.calls, entries, waitForSync⟩
          (w.appendBatch ⟨w.calls, entries, waitForSync⟩ faults syncs).1)
        (w.appendBroadcasts ⟨w.calls, entries, waitForSync⟩)
        { (w.appendBatch ⟨w.calls, entries, waitForSync⟩ faults syncs).2 with calls := w.calls + 1 }
  | startTimer {w : Wal} (hloop : w.looping = true) (h : w.wakeCh = true) :
      WalMove w .sync false { w with wakeCh := false, timer := true }
  | timer {w : Wal} (hloop : w.looping = true) (h : w.timer = true) (fault : Option ℕ)
      (syncs : Bool) :
      WalMove w .sync true { w.syncPending fault syncs with timer := false, looping := !w.closed }
  | closeLoop {w : Wal} (hloop : w.looping = true) (h : w.closeCh = true) (fault : Option ℕ)
      (syncs : Bool) :
      WalMove w .sync true
        { w.syncPending fault syncs with timer := false, closeCh := false, looping := false }
  | closeDirect {w : Wal} (hinterval : w.syncInterval ≤ 0) (h : w.opened = true) (fault : Option ℕ)
      (syncs : Bool) : WalMove w .close true (w.closeDirect fault syncs)
  | closeBegin {w : Wal} (hinterval : 0 < w.syncInterval) (h : w.opened = true) :
      WalMove w .close true { w with closed := true, closeCh := true }
  | closeEnd {w : Wal} (hinterval : 0 < w.syncInterval) (h : w.closed = true)
      (hloop : w.looping = false) : WalMove w .close false { w with opened := false }

/-- The lock of a WAL with its condition variable. -/
def walMonitor : Monitor Wal WalEvent Waiter where
  move := WalMove
  waits w x := x ∈ w.waiting
  ready w x := w.poll x.target ≠ none
  leave w x e w' := ∃ r, w.poll x.target = some r ∧ e = .wake x.call r ∧
    w' = { w with waiting := w.waiting.erase x }

variable {init : Bytes} {w w' : Wal} {e : WalEvent}

/-- **Its eager steps** are those of the WAL. -/
theorem eager_walMonitor_iff : walMonitor.Eager w e w' ↔ WalStep w e w' := by
  constructor
  · intro h
    cases h with
    | move hmove =>
      cases hmove with
      | append => exact .append ..
      | startTimer hloop hwake => exact .startTimer hloop hwake
      | timer hloop htimer => exact .timer hloop htimer ..
      | closeLoop hloop hclose => exact .closeLoop hloop hclose ..
      | closeDirect hinterval hopened => exact .closeDirect hinterval hopened ..
      | closeBegin hinterval hopened => exact .closeBegin hinterval hopened
      | closeEnd hinterval hclosed hloop => exact .closeEnd hinterval hclosed hloop
    -- to leave the wait is to find the call answered
    | leave hx hready hleave =>
      obtain ⟨r, hpoll, rfl, rfl⟩ := hleave
      exact .wake hx hpoll
  · intro h
    cases h with
    | append => exact .move (.append ..)
    | wake hx hpoll => exact .leave hx (by simp [walMonitor, hpoll]) ⟨_, hpoll, rfl, rfl⟩
    | startTimer hloop hwake => exact .move (.startTimer hloop hwake)
    | timer hloop htimer => exact .move (.timer hloop htimer ..)
    | closeLoop hloop hclose => exact .move (.closeLoop hloop hclose ..)
    | closeDirect hinterval hopened => exact .move (.closeDirect hinterval hopened ..)
    | closeBegin hinterval hopened => exact .move (.closeBegin hinterval hopened)
    | closeEnd hinterval hclosed hloop => exact .move (.closeEnd hinterval hclosed hloop)

/-! ## Every change of the wait condition is broadcast -/

/-- The wait loop reads three fields. -/
theorem Wal.poll_congr (hdurable : w'.durable = w.durable) (herr : w'.syncErr = w.syncErr)
    (hclosed : w'.closed = w.closed) (target : ℕ) : w'.poll target = w.poll target := by
  simp only [Wal.poll, hdurable, herr, hclosed]

/-- What a critical section owes to the calls that wait: it broadcasts or leaves their conditions as they
are, and a call that starts to wait has found its condition false. -/
structure Wal.Tells (w : Wal) (b : Bool) (w' : Wal) : Prop where
  quiet : b = false → ∀ target, w'.poll target = w.poll target
  arrive : ∀ x ∈ w'.waiting, x ∉ w.waiting → w'.poll x.target = none

theorem Wal.Tells.same {b : Bool} (hpoll : b = false → ∀ target, w'.poll target = w.poll target)
    (hwaiting : w'.waiting = w.waiting) : w.Tells b w' :=
  ⟨hpoll, fun _ hx hnew => absurd (hwaiting ▸ hx) hnew⟩

theorem Wal.Tells.loud (hwaiting : w'.waiting = w.waiting) : w.Tells true w' :=
  .same (fun h => absurd h.symm Bool.false_ne_true) hwaiting

theorem Wal.closeDirect_waiting (w : Wal) (fault : Option ℕ) (syncs : Bool) :
    (w.closeDirect fault syncs).waiting = w.waiting := by
  have hflush := w.flushAndSyncLocked_waiting fault syncs
  unfold Wal.closeDirect
  split_ifs with hdue
  · cases hres : w.flushAndSyncLocked fault syncs with
    | mk err v =>
      rw [hres] at hflush
      cases err <;> exact hflush
  · rfl

/-- A direct write broadcasts, and nobody starts to wait. -/
theorem Wal.tells_appendDirect {c : BatchCall} (hne : c.entries ≠ []) (hclosed : w.closed = false)
    (herr : w.syncErr = none) (hdirect : w.syncInterval ≤ 0) (faults : List (Option ℕ))
    (syncs : Bool) : w.Tells true (w.appendBatch c faults syncs).2 := by
  rcases Wal.appendBatch_direct_cases hne hclosed herr hdirect faults syncs with
    happ | ⟨t, -, happ⟩
  · exact .loud (by rw [happ])
  · exact .loud (by rw [happ])

/-- A buffered one touches none of the three fields. -/
theorem Wal.tells_appendBuffered {c : BatchCall} (hne : c.entries ≠ []) (hclosed : w.closed = false)
    (herr : w.syncErr = none) (hbuffered : ¬ w.syncInterval ≤ 0) (b : Bool)
    (faults : List (Option ℕ)) (syncs : Bool) : w.Tells b (w.appendBatch c faults syncs).2 := by
  cases hres : (w.out.write (encodeRecords c.entries) faults).failed with
  | true =>
    rw [Wal.appendBatch_buffered_failed hne hclosed herr hbuffered hres]
    exact .same (fun _ => poll_congr rfl rfl rfl) rfl
  | false =>
    simp only [Wal.appendBatch, if_neg hne, hclosed, Bool.false_eq_true, if_false, herr, if_neg hbuffered,
      hres]
    split_ifs with hwait
    · exact .same (fun _ => poll_congr rfl herr.symm hclosed.symm) rfl
    · split
      · exact .same (fun _ => poll_congr rfl herr.symm hclosed.symm) rfl
      -- the call starts to wait because `poll` had no answer for it
      · next hpoll =>
        refine ⟨fun _ => poll_congr rfl herr.symm hclosed.symm, fun x hx hnew => ?_⟩
        obtain rfl := List.mem_singleton.mp ((List.mem_append.mp hx).resolve_left hnew)
        exact hpoll

/-- **An append** tells the waiting calls. -/
theorem Wal.tells_append (w : Wal) (c : BatchCall) (faults : List (Option ℕ)) (syncs : Bool) :
    w.Tells (w.appendBroadcasts c) (w.appendBatch c faults syncs).2 := by
  rcases w.appendBatch_cases c faults syncs with ⟨r, happ, -⟩ | ⟨hne, hclosed, herr⟩
  · rw [happ]
    exact .same (fun _ _ => rfl) rfl
  by_cases hmode : w.syncInterval ≤ 0
  · have hloud : w.appendBroadcasts c = true := by
      simp [Wal.appendBroadcasts, hne, hclosed, herr, hmode]
    rw [hloud]
    exact tells_appendDirect hne hclosed herr hmode faults syncs
  · exact tells_appendBuffered hne hclosed herr hmode _ faults syncs

/-- **Every critical section** does. -/
theorem WalMove.tells {b : Bool} (h : WalMove w e b w') : w.Tells b w' := by
  cases h with
  | append entries waitForSync faults syncs =>
    have htells := w.tells_append ⟨w.calls, entries, waitForSync⟩ faults syncs
    exact ⟨htells.quiet, htells.arrive⟩
  | startTimer => exact .same (fun _ => Wal.poll_congr rfl rfl rfl) rfl
  | timer hloop htimer fault syncs => exact .loud (w.syncPending_waiting fault syncs)
  | closeLoop hloop hclose fault syncs => exact .loud (w.syncPending_waiting fault syncs)
  | closeDirect hinterval hopened fault syncs => exact .loud (w.closeDirect_waiting fault syncs)
  | closeBegin => exact .loud rfl
  | closeEnd => exact .same (fun _ => Wal.poll_congr rfl rfl rfl) rfl

theorem walMonitor_announces : walMonitor.Announces where
  quiet hmove x hready hpoll := hready ((hmove.tells.quiet rfl x.target).trans hpoll)
  arrive hmove x hx hnew hready := hready (hmove.tells.arrive x hx hnew)
  leave := by
    rintro w y e w' ⟨r, hpoll, rfl, rfl⟩ x hready
    exact hready

/-! ## Sleeping calls come to an end -/

/-- A step of the goroutines that are already at work: the loop moves on, or a call that is awake
returns or goes back to sleep. -/
def SettleSleeping (s : Wal × Set Waiter) (l : Option WalEvent) (s' : Wal × Set Waiter) : Prop :=
  walMonitor.Step s l s' ∧ ∀ e ∈ l, e.Settles

theorem SettleSleeping.settle {s s' : Wal × Set Waiter} {l : Option WalEvent}
    (h : SettleSleeping s l s') :
    (∃ e, l = some e ∧ SettleStep s.1 e s'.1) ∨ (l = none ∧ s'.1 = s.1) := by
  rcases h.1.eager with ⟨e, rfl, heager⟩ | hsilent
  · exact .inl ⟨e, rfl, eager_walMonitor_iff.mp heager, h.2 e rfl⟩
  · exact .inr hsilent

/-- Where nothing moves beside the sleeping calls, nothing would move without the sleeping. -/
theorem atRest_of_sleeping {asleep : Set Waiter} (h : walMonitor.NoneMissed (w, asleep))
    (hrest : ∀ l s, ¬ SettleSleeping (w, asleep) l s) : w.AtRest := by
  intro e w' hs
  obtain ⟨asleep', hstep⟩ := h.exists_step (eager_walMonitor_iff.mpr hs.1)
  refine hrest _ _ ⟨hstep, fun e' he' => ?_⟩
  obtain rfl := Option.some.inj he'
  exact hs.2

/-- How many waiting calls are awake. -/
noncomputable def awake (s : Wal × Set Waiter) : ℕ := {x | x ∈ s.1.waiting ∧ x ∉ s.2}.ncard

theorem awake_finite (s : Wal × Set Waiter) : {x | x ∈ s.1.waiting ∧ x ∉ s.2}.Finite :=
  s.1.waiting.finite_toSet.subset fun _ hx => hx.1

theorem awake_le (s : Wal × Set Waiter) : awake s ≤ s.1.waiting.length := by
  have hsub : {x | x ∈ s.1.waiting ∧ x ∉ s.2} ⊆ (s.1.waiting.toFinset : Set Waiter) :=
    fun x hx => List.mem_toFinset.mpr hx.1
  calc awake s ≤ (s.1.waiting.toFinset : Set Waiter).ncard :=
        Set.ncard_le_ncard hsub (Finset.finite_toSet _)
    _ = s.1.waiting.toFinset.card := Set.ncard_coe_finset _
    _ ≤ s.1.waiting.length := s.1.waiting.toFinset_card_le

/-- To go back to sleep leaves one less awake. -/
theorem awake_insert_lt {asleep : Set Waiter} {x : Waiter} (hx : x ∈ w.waiting) (hawake : x ∉ asleep) :
    awake (w, insert x asleep) < awake (w, asleep) := by
  refine Set.ncard_lt_ncard ⟨fun y hy => ⟨hy.1, fun hmem => hy.2 (Set.mem_insert_of_mem x hmem)⟩, ?_⟩
    (awake_finite _)
  exact fun hsub => (hsub ⟨hx, hawake⟩).2 (Set.mem_insert x asleep)

/-- The calls that wait do not become more. -/
theorem SettleStep.waiting_length_le (hs : SettleStep w e w') :
    w'.waiting.length ≤ w.waiting.length := by
  rcases hs.waiting_cases with hsame | ⟨x, r, -, herase⟩
  · rw [hsame]
  · rw [herase]
    exact List.length_erase_le

/-- **A sleeping appender is answered too.** In every reachable state of a WAL whose waiting calls sleep
until a broadcast: if no new calls arrive, there are boundedly many further steps, and when none is left
every call that was waiting has returned, nobody sleeps, the loop of a closed WAL has ended, and unless
an error stopped the writing every written call is durable. -/
theorem sleeping_wal_settles {syncInterval : ℤ} {ls : List (Option WalEvent)} {asleep : Set Waiter}
    (hrun : Run walMonitor.Step (Wal.new init syncInterval, ∅) ls (w, asleep))
    {ls' : List (Option WalEvent)} {asleep' : Set Waiter}
    (hsettle : Run SettleSleeping (w, asleep) ls' (w', asleep')) :
    ls'.length ≤ w.rank * (w.waiting.length + 1) + w.waiting.length ∧
      ((∀ l s, ¬ SettleSleeping (w', asleep') l s) →
        (∀ x ∈ w.waiting, ∃ r, some (.wake x.call r) ∈ ls') ∧ w'.waiting = [] ∧
          (w'.closed = true → w'.looping = false) ∧
          (w'.out.failed = false → w'.syncErr = none →
            ∀ c ∈ wroteOf ls.reduceOption, Covered init (wroteOf ls.reduceOption) w' c)) := by
  have hmissed : walMonitor.NoneMissed (w, asleep) :=
    Monitor.NoneMissed.run walMonitor_announces (fun _ hx => absurd hx (Set.notMem_empty _)) hrun
  have hstart : WalInv init (wroteOf ls.reduceOption) w ∧ w.Served init (wroteOf ls.reduceOption) :=
    Wal.run_served ((Monitor.run_eager hrun).mono fun _ _ _ => eager_walMonitor_iff.mp)
  constructor
  · -- a step of the WAL weighs more than all the calls that it may wake
    let Ranked : Wal × Set Waiter → ℕ → Prop := fun v n =>
      (WalInv init (wroteOf ls.reduceOption) v.1 ∧ v.1.Served init (wroteOf ls.reduceOption)) ∧
        v.1.waiting.length ≤ w.waiting.length ∧ v.1.rank * (w.waiting.length + 1) + awake v = n
    have hlower : ∀ v l v' n, Ranked v n → SettleSleeping v l v' → ∃ n' < n, Ranked v' n' := by
      rintro v l v' n ⟨hv, hle, rfl⟩ hs
      rcases hs.settle with ⟨e, rfl, hsettle⟩ | ⟨rfl, hsame⟩
      · have hle' := hsettle.waiting_length_le.trans hle
        refine ⟨_, ?_, Wal.Served.settle hsettle hv, hle', rfl⟩
        have hawake := (awake_le v').trans hle'
        have hrank := Nat.mul_le_mul_right (w.waiting.length + 1) (hsettle.rank_lt hv.1)
        rw [Nat.succ_mul] at hrank
        omega
      · cases hs.1 with
        | sleepAgain hx hawake hready =>
          exact ⟨_, Nat.add_lt_add_left (awake_insert_lt hx hawake) _, hv, hle, rfl⟩
    obtain ⟨n, -, hlen⟩ := hsettle.length_le_rank hlower ⟨hstart, le_rfl, rfl⟩
    have hawake := awake_le (w, asleep)
    dsimp only at hawake hlen
    omega
  · intro hrest
    have hsteps := hsettle.reduceOption (f := Prod.fst) fun _ _ _ => SettleSleeping.settle
    have hmissed' : walMonitor.NoneMissed (w', asleep') :=
      hmissed.run walMonitor_announces (hsettle.mono fun _ _ _ h => h.1)
    obtain ⟨hwoken, hdone⟩ :=
      hstart.2.settled hstart.1 hsteps (atRest_of_sleeping hmissed' hrest)
    refine ⟨fun x hx => ?_, hdone⟩
    obtain ⟨r, hr⟩ := hwoken x hx
    exact ⟨r, List.reduceOption_mem_iff.mp hr⟩

end Seol
