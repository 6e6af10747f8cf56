import Seol.Lifetime.Refinement
import Seol.Vlog.Torn

/-!
# Stops inside an opening and inside a value-log append

Reference: `openDB` and `replayWALs` in `db.go`, `openManifest` in `manifest.go`, `Append` and `Open` in
`vlog/vlog.go`. Opening a store changes its files: a missing manifest is written, a torn record is cut
off the value log, the replayed values are appended to it again, and a WAL is created. The process may
stop after any of these changes, and inside an append to the value log, be it of the replay or of the
writer. The files it leaves need not be those of a sound store any more, but every opening treats them
like those of one (`Reopens`). Lifetimes with such stops, any number of them in a row, show the traces
of the abstract store.
-/

namespace Seol

open Common Vlog

/-! ## The model -/

/-- What `openDB` may leave when it stops: nothing was touched, the manifest was written, the value log
was opened, the records up to some point of some WAL were replayed, the append of the next one was
interrupted after `n` bytes, or the new WAL was created. -/
inductive OpenStops (opts : Options) (clock : OpenClock) (dir : Dir) : Dir → Prop
  | untouched : OpenStops opts clock dir dir
  | manifest :
    OpenStops opts clock dir { dir with manifest := some (openManifest dir clock.table) }
  | valueLog {log : Log} (hlog : Log.open (normalizeOptions opts).valueLogSegmentMaxBytes.toInt
      dir.segments clock.segment = .ok log) :
    OpenStops opts clock dir
      { dir with manifest := some (openManifest dir clock.table), segments := log.files }
  | replay {log : Log} {before after : List Bytes} {file : Bytes} {done rest : List (Bytes × Bytes)}
      {s s' : Replay} (hlog : Log.open (normalizeOptions opts).valueLogSegmentMaxBytes.toInt
        dir.segments clock.segment = .ok log)
      (hfiles : dir.wals.entries.map Prod.snd = before ++ file :: after)
      (hbefore : replayWALs (size (normalizeOptions opts).valueThreshold) before
        ⟨log, [], 0, clock.appends⟩ = .ok s)
      (hrecords : walRecords file = done ++ rest)
      (hdone : done.foldlM (replayRecord (size (normalizeOptions opts).valueThreshold)) s = .ok s') :
    OpenStops opts clock dir
      { dir with manifest := some (openManifest dir clock.table), segments := s'.log.files }
  | append {log : Log} {before after : List Bytes} {file : Bytes} {done rest : List (Bytes × Bytes)}
      {r : Bytes × Bytes} {s s' : Replay} (n : ℕ)
      (hlog : Log.open (normalizeOptions opts).valueLogSegmentMaxBytes.toInt
        dir.segments clock.segment = .ok log)
      (hfiles : dir.wals.entries.map Prod.snd = before ++ file :: after)
      (hbefore : replayWALs (size (normalizeOptions opts).valueThreshold) before
        ⟨log, [], 0, clock.appends⟩ = .ok s)
      (hrecords : walRecords file = done ++ r :: rest)
      (hdone : done.foldlM (replayRecord (size (normalizeOptions opts).valueThreshold)) s = .ok s') :
    OpenStops opts clock dir
      { dir with
        manifest := some (openManifest dir clock.table)
        segments := (storeValueForLSM s'.log (size (normalizeOptions opts).valueThreshold) r.1 r.2
          (s'.clock.headD 0) (some n)).2.files }
  | wal {db : DB} {dir' : Dir} (hopen : openDB dir opts clock = .ok (db, dir')) :
    OpenStops opts clock dir dir'

/-- A lifetime with stops inside an opening and inside an append of the writer to the value log. -/
inductive CrashStep (gets : Prop) (opts : Options) : World → Event → World → Prop
  | life {w w' : World} {e : Event} (h : LifeStep gets opts w e w') : CrashStep gets opts w e w'
  | stopInOpen {dir dir' : Dir} {clock : OpenClock} (hclock : ClockOK dir clock)
      (h : OpenStops opts clock dir dir') : CrashStep gets opts (.down dir) .stopped (.down dir')
  | stopInStore {dir : Dir} {p : Proc} {done : List (Write × Bytes)} {w : Write} {rest : List Write}
      {projected : ℕ} (now : UInt64) (n : ℕ)
      (hw : p.writer = .preparing done (w :: rest) projected)
      (hnow : p.db.valueLog.active.id < now) :
    CrashStep gets opts (.up dir p) .stopped (.down { dir with
      segments := (storeValueForLSM p.db.valueLog p.db.valueThreshold w.key w.raw now
        (some n)).2.files })

/-! ## Directories that are opened alike -/

/-- Every opening treats `dir` like `dir₀`. -/
structure Reopens (dir dir₀ : Dir) : Prop where
  tables_eq : dir.tables = dir₀.tables
  wals_eq : dir.wals = dir₀.wals
  manifest_eq : ∀ now, openManifest dir now = openManifest dir₀ now
  segments : OpensAs dir.segments dir₀.segments

theorem Reopens.refl (dir : Dir) : Reopens dir dir := ⟨rfl, rfl, fun _ => rfl, .refl _⟩

theorem Reopens.trans {dir dir₁ dir₂ : Dir} (h : Reopens dir dir₁) (h' : Reopens dir₁ dir₂) :
    Reopens dir dir₂ :=
  ⟨h.tables_eq.trans h'.tables_eq, h.wals_eq.trans h'.wals_eq,
    fun now => (h.manifest_eq now).trans (h'.manifest_eq now), h.segments.trans h'.segments⟩

theorem Reopens.openDB_eq {dir dir₀ : Dir} (h : Reopens dir dir₀) (opts : Options)
    (clock : OpenClock) : openDB dir opts clock = openDB dir₀ opts clock := by
  simp only [openDB, Dir.walNames, h.tables_eq, h.wals_eq, h.manifest_eq, h.segments.open_eq]

theorem Reopens.clockOK {dir dir₀ : Dir} (h : Reopens dir dir₀) {clock : OpenClock}
    (hclock : ClockOK dir clock) : ClockOK dir₀ clock where
  segment_pos := hclock.segment_pos
  wal_digits := hclock.wal_digits
  wal_later := h.wals_eq ▸ hclock.wal_later
  appends_later := by
    intro t ht
    obtain ⟨hsegment, hlater⟩ := hclock.appends_later t ht
    refine ⟨hsegment, fun e he => ?_⟩
    -- the cut does not change which segments there are
    have hid : e.1 ∈ dir.segments.entries.map Prod.fst := by
      rw [h.segments.ids_eq]
      exact List.mem_map_of_mem he
    obtain ⟨e', he', heq⟩ := List.mem_map.mp hid
    exact heq ▸ hlater e' he'
  appends_sorted := hclock.appends_sorted
  appends_enough := h.wals_eq ▸ hclock.appends_enough

/-! ## Recoverable directories with another value log -/

section Recoverable

variable {gets : Prop} {dir : Dir} {history : List Write} {log log' : Log} {T : Bytes → Option Bytes}

/-- More records in the value log. -/
theorem Recoverable.extend (h : Recoverable gets dir history log T) (hok : LogOK log')
    (hext : Extends log log') :
    Recoverable gets { dir with segments := log'.files } history log' T := by
  obtain ⟨metas, htables⟩ := h.tables
  exact ⟨h.wals, hok, rfl, ⟨metas, htables.mono hext⟩, h.good, h.view_eq⟩

/-- Storing a value appends it to the log or leaves the log alone. -/
theorem storeValueForLSM_log (log : Log) (valueThreshold : ℕ) (key value : Bytes) (now : UInt64)
    (fault : Option ℕ) :
    (storeValueForLSM log valueThreshold key value now fault).2 = log ∨
      (storeValueForLSM log valueThreshold key value now fault).2 =
        (log.append key value now fault).2 := by
  unfold storeValueForLSM
  split_ifs
  · exact .inl rfl
  · exact .inl rfl
  · refine .inr ?_
    cases log.append key value now fault with
    | mk res l => cases res <;> rfl

/-- **An interrupted append to the value log** leaves a directory that is opened like a recoverable
one. -/
theorem Recoverable.interrupt (h : Recoverable gets dir history log T) (hlog : LogReady log')
    (hext : Extends log log') {r : Bytes × Bytes} (hr : Sendable r) {now : UInt64}
    (hnow : log'.active.id < now) (valueThreshold n : ℕ) :
    ∃ dir₀ log₀, Reopens { dir with segments :=
        (storeValueForLSM log' valueThreshold r.1 r.2 now (some n)).2.files } dir₀ ∧
      Recoverable gets dir₀ history log₀ T := by
  -- a tombstone or an inline value leaves the log alone, so nothing was torn
  rcases storeValueForLSM_log log' valueThreshold r.1 r.2 now (some n) with hsame | happ
  · rw [hsame]
    exact ⟨_, log', .refl _, h.extend hlog.ok hext⟩
  -- a torn append is opened as if it had failed cleanly at another byte
  · obtain ⟨fault, hready, hopens⟩ := hlog.append_interrupted hr.fits hnow n
    rw [happ]
    exact ⟨{ dir with segments := (log'.append r.1 r.2 now fault).2.files }, _,
      ⟨rfl, rfl, fun _ => rfl, hopens⟩,
      h.extend hready.ok (hext.trans (extends_append log' r.1 r.2 now fault))⟩

end Recoverable

/-! ## Stops inside an opening -/

/-- The reading of the clock for unnamed tables plays no part where the manifest is there or the
directory is empty. -/
theorem StoreInv.openManifest_eq {gets : Prop} {dir : Dir} {s : Spec}
    (h : StoreInv gets (.down dir) s) (t t' : ℤ) : openManifest dir t = openManifest dir t' := by
  obtain ⟨-, ⟨rfl, -⟩ | ⟨log, T, hrec⟩⟩ := h
  · rfl
  · obtain ⟨metas, htables⟩ := hrec.tables
    obtain ⟨ms, hms, -⟩ := htables.manifest_eq
    simp [openManifest, hms]

/-- **The files once the value log is open** are recoverable. -/
theorem StoreInv.opensLog {gets : Prop} {dir : Dir} {s : Spec} (h : StoreInv gets (.down dir) s)
    (opts : Options) {clock : OpenClock} (hclock : ClockOK dir clock) :
    ∃ log T, Log.open (normalizeOptions opts).valueLogSegmentMaxBytes.toInt dir.segments
        clock.segment = .ok log ∧ LogReady log ∧ (∀ t ∈ clock.appends, log.active.id < t) ∧
      Recoverable gets
        { dir with manifest := some (openManifest dir clock.table), segments := log.files }
        s.history log T := by
  obtain ⟨-, ⟨rfl, hnil⟩ | ⟨log, T, hrec⟩⟩ := h
  -- the first opening of all: nothing is stored and the log is new
  · have hready := logReady_openEmpty
      (segmentLimit_lt (normalizeOptions opts).valueLogSegmentMaxBytes) clock.segment
    refine ⟨_, fun _ => none, rfl, hready, openEmpty_later hclock _, walsOK_empty gets, hready.ok, rfl,
      ⟨[], tablesOK_empty gets _⟩, by simp [hnil], ?_⟩
    rw [hnil]
    rfl
  · obtain ⟨log', hopen, hready, hext, -, hlater⟩ := hrec.opensLog opts hclock
    obtain ⟨metas, htables⟩ := hrec.tables
    obtain ⟨ms, hms, hperm⟩ := htables.manifest_eq
    refine ⟨log', T, hopen, hready, hlater, hrec.wals, hready.ok, rfl, ⟨metas, ?_⟩, hrec.good,
      hrec.view_eq⟩
    -- the manifest was written before, so the opening leaves it as it was
    have hmanifest : some (openManifest dir clock.table) = dir.manifest := by
      rw [openManifest, hms, Option.getD_some]
    rw [hmanifest]
    exact htables.mono hext

/-- The replay up to some record leaves a longer value log. -/
theorem Recoverable.replays {gets : Prop} {dir : Dir} {history : List Write} {log : Log}
    {T : Bytes → Option Bytes} (h : Recoverable gets dir history log T) (hlog : LogReady log)
    {clock : List UInt64} (hlater : ∀ t ∈ clock, log.active.id < t)
    (hsorted : clock.Pairwise (· < ·))
    (henough : (recordsOf dir.wals (names dir.wals)).length ≤ clock.length)
    {before after : List Bytes} {file : Bytes} {done rest : List (Bytes × Bytes)} {s s' : Replay}
    {valueThreshold : ℕ} (hfiles : dir.wals.entries.map Prod.snd = before ++ file :: after)
    (hbefore : replayWALs valueThreshold before ⟨log, [], 0, clock⟩ = .ok s)
    (hrecords : walRecords file = done ++ rest)
    (hdone : done.foldlM (replayRecord valueThreshold) s = .ok s') :
    LogReady s'.log ∧ Extends log s'.log ∧ ClockReady s'.log s'.clock rest.length ∧
      ∀ r ∈ rest, Sendable r := by
  have hrecs : recordsOf dir.wals (names dir.wals) =
      before.flatMap walRecords ++ (done ++ (rest ++ after.flatMap walRecords)) := by
    rw [← flatMap_walRecords, hfiles, List.flatMap_append, List.flatMap_cons, hrecords,
      List.append_assoc]
  have hsend : ∀ r ∈ recordsOf dir.wals (names dir.wals), Sendable r :=
    fun r hr => (h.wals.good_of_mem hr).sendable
  rw [hrecs] at hsend henough
  simp only [List.mem_append, List.length_append] at hsend henough
  have hbeforeFiles : ∀ f ∈ before, WalHolds f (walRecords f) := by
    intro f hf
    obtain ⟨e, he, rfl⟩ := List.mem_map.mp
      (show f ∈ dir.wals.entries.map Prod.snd by rw [hfiles]; exact List.mem_append_left _ hf)
    exact h.wals.holds e he
  obtain ⟨s₁, hfold₁, hready₁, hclock₁, hext₁, hholds₁⟩ := replayRecords_ok
    (s := ⟨log, [], 0, clock⟩) (n := rest.length + done.length) hlog
    ⟨hlater, hsorted, by dsimp only; omega⟩ (fun r hr => hsend r (.inl hr)) (.nil : Holds log [] [])
    valueThreshold
  obtain rfl : s = s₁ :=
    Except.ok.inj (hbefore.symm.trans (replayWALs_eq hbeforeFiles hfold₁))
  obtain ⟨s₂, hfold₂, hready₂, hclock₂, hext₂, -⟩ := replayRecords_ok hready₁ hclock₁
    (fun r hr => hsend r (.inr (.inl hr))) hholds₁ valueThreshold
  obtain rfl : s' = s₂ := Except.ok.inj (hdone.symm.trans hfold₂)
  exact ⟨hready₂, hext₁.trans hext₂, hclock₂, fun r hr => hsend r (.inr (.inr (.inl hr)))⟩

/-- **A stop inside an opening** leaves a directory that is opened like a sound one. -/
theorem StoreInv.stopInOpen {gets : Prop} {dir dir' : Dir} {s : Spec} {opts : Options}
    {clock : OpenClock} (h : StoreInv gets (.down dir) s) (hclock : ClockOK dir clock)
    (hstop : OpenStops opts clock dir dir') :
    ∃ dir₀, Reopens dir' dir₀ ∧ StoreInv gets (.down dir₀) s := by
  obtain ⟨log, T, hopen, hready, hlater, hrec⟩ := h.opensLog opts hclock
  have hsame : ∀ {log'}, Log.open (normalizeOptions opts).valueLogSegmentMaxBytes.toInt dir.segments
      clock.segment = .ok log' → log' = log := fun hlog' => Except.ok.inj (hlog'.symm.trans hopen)
  cases hstop with
  | untouched => exact ⟨dir, .refl dir, h⟩
  | manifest =>
    exact ⟨dir, ⟨rfl, rfl, fun now => h.openManifest_eq clock.table now, .refl _⟩, h⟩
  | valueLog hlog =>
    obtain rfl := hsame hlog
    exact ⟨_, .refl _, h.1, .inr ⟨_, _, hrec⟩⟩
  | replay hlog hfiles hbefore hrecords hdone =>
    obtain rfl := hsame hlog
    obtain ⟨hready', hext, -⟩ := hrec.replays hready hlater hclock.appends_sorted
      hclock.appends_enough hfiles hbefore hrecords hdone
    exact ⟨_, .refl _, h.1, .inr ⟨_, _, hrec.extend hready'.ok hext⟩⟩
  | append n hlog hfiles hbefore hrecords hdone =>
    obtain rfl := hsame hlog
    obtain ⟨hready', hext, hclock', hsend⟩ := hrec.replays hready hlater hclock.appends_sorted
      hclock.appends_enough hfiles hbefore hrecords hdone
    obtain ⟨now, clock', hcons⟩ := List.exists_cons_of_length_pos
      (Nat.lt_of_lt_of_le (Nat.succ_pos _) hclock'.enough)
    have hnow := hclock'.later now (by rw [hcons]; exact List.mem_cons_self)
    rw [hcons, List.headD_cons]
    obtain ⟨dir₀, log₀, hreopens, hrec₀⟩ := hrec.interrupt hready' hext
      (hsend _ List.mem_cons_self) hnow _ n
    exact ⟨dir₀, hreopens, h.1, .inr ⟨_, _, hrec₀⟩⟩
  | wal hopen' =>
    obtain ⟨db, d, g, hopens, -, hlive⟩ := h.opens opts hclock
    obtain ⟨-, rfl⟩ : _ = db ∧ _ = d := by simpa [hopen'] using hopens
    obtain ⟨n, hrec'⟩ := hlive.stop
    rw [h.1, List.take_nil, List.append_nil] at hrec'
    exact ⟨_, .refl _, h.1, .inr ⟨_, _, hrec'⟩⟩

/-- Directories that are opened alike stop alike. -/
theorem Reopens.stopInOpen {dir dir₀ dir' : Dir} (h : Reopens dir dir₀) {opts : Options}
    {clock : OpenClock} (hstop : OpenStops opts clock dir dir') :
    Reopens dir' dir₀ ∨ ∃ dir₀', OpenStops opts clock dir₀ dir₀' ∧ Reopens dir' dir₀' := by
  have hopen := h.segments.open_eq (normalizeOptions opts).valueLogSegmentMaxBytes.toInt clock.segment
  have hfiles := congrArg (fun w => w.entries.map Prod.snd) h.wals_eq
  -- a stop that has written the manifest and the segments leaves the same files
  have hsame : ∀ segments, Reopens
      { dir with manifest := some (openManifest dir clock.table), segments := segments }
      { dir₀ with manifest := some (openManifest dir₀ clock.table), segments := segments } :=
    fun segments => ⟨h.tables_eq, h.wals_eq, fun now => h.manifest_eq clock.table, .refl _⟩
  cases hstop with
  | untouched => exact .inl h
  | manifest =>
    exact .inr ⟨_, .manifest, h.tables_eq, h.wals_eq, fun now => h.manifest_eq clock.table, h.segments⟩
  | valueLog hlog => exact .inr ⟨_, .valueLog (hopen ▸ hlog), hsame _⟩
  | replay hlog hf hbefore hrecords hdone =>
    exact .inr ⟨_, .replay (hopen ▸ hlog) (hfiles ▸ hf) hbefore hrecords hdone, hsame _⟩
  | append n hlog hf hbefore hrecords hdone =>
    exact .inr ⟨_, .append n (hopen ▸ hlog) (hfiles ▸ hf) hbefore hrecords hdone, hsame _⟩
  | wal hopened => exact .inr ⟨_, .wal (h.openDB_eq opts clock ▸ hopened), .refl _⟩

/-! ## Lifetimes -/

/-- A world whose files are opened like those of another. -/
inductive World.Like : World → World → Prop
  | same (w : World) : Like w w
  | down {dir dir₀ : Dir} (h : Reopens dir dir₀) : Like (.down dir) (.down dir₀)

/-- The invariant of a lifetime with such stops: the files are opened like those of a lifetime
without. -/
def CrashInv (gets : Prop) (w : World) (s : Spec) : Prop := ∃ w₀, w.Like w₀ ∧ LifeInv gets w₀ s

/-- A stop that keeps what is on disk. -/
theorem LifeInv.stopped {gets : Prop} {dir : Dir} {s : Spec} (h : LifeInv gets (.down dir) s) :
    SpecStep s .stopped s := by
  obtain ⟨history, -, hunacked, -⟩ := h
  obtain ⟨h₀, unacked⟩ := s
  obtain rfl : unacked = [] := hunacked
  exact specStep_of_maintenance (.inr rfl)

/-- **A stop inside an opening is a stop of the abstract store.** -/
theorem CrashInv.stopInOpen {gets : Prop} {opts : Options} {dir dir' : Dir} {s : Spec}
    {clock : OpenClock} (h : CrashInv gets (.down dir) s) (hclock : ClockOK dir clock)
    (hstop : OpenStops opts clock dir dir') :
    ∃ s', SpecStep s .stopped s' ∧ CrashInv gets (.down dir') s' := by
  obtain ⟨w₀, hlike, hinv⟩ := h
  obtain ⟨dir₀, rfl, hreopens⟩ : ∃ dir₀, w₀ = .down dir₀ ∧ Reopens dir dir₀ := by
    cases hlike with
    | same => exact ⟨dir, rfl, .refl dir⟩
    | down hr => exact ⟨_, rfl, hr⟩
  refine ⟨s, hinv.stopped, ?_⟩
  -- the stop comes before the log is opened, or after it, when the torn record is cut off
  rcases hreopens.stopInOpen hstop with hsame | ⟨dir₀', hstop₀, hreopens'⟩
  · exact ⟨_, .down hsame, hinv⟩
  · obtain ⟨history, hcontents, hstore⟩ := hinv
    obtain ⟨dir₁, hreopens₁, hstore₁⟩ := hstore.stopInOpen (hreopens.clockOK hclock) hstop₀
    exact ⟨_, .down (hreopens'.trans hreopens₁), history, hcontents, hstore₁⟩

/-- **A stop inside an append of the writer to the value log.** -/
theorem CrashInv.stopInStore {gets : Prop} {dir : Dir} {p : Proc} {s : Spec}
    {done : List (Write × Bytes)} {w : Write} {rest : List Write} {projected : ℕ} {now : UInt64}
    (h : CrashInv gets (.up dir p) s) (hw : p.writer = .preparing done (w :: rest) projected)
    (hnow : p.db.valueLog.active.id < now) (n : ℕ) :
    ∃ s', SpecStep s .stopped s' ∧ CrashInv gets (.down { dir with
      segments := (storeValueForLSM p.db.valueLog p.db.valueThreshold w.key w.raw now
        (some n)).2.files }) s' := by
  obtain ⟨w₀, hlike, hinv⟩ := h
  cases hlike
  obtain ⟨history, hcontents, g, hlive⟩ := hinv
  obtain ⟨m, hrec⟩ := hlive.stop
  -- the write is still unanswered, so the abstract store may drop it
  have hmem : w ∈ s.unacked := by
    have hun := hlive.unacked_eq
    rw [hw] at hun
    rw [hun]
    simp [Writer.unacked]
  obtain ⟨dir₀, log₀, hreopens, hrec₀⟩ := hrec.interrupt hlive.log (Extends.refl _)
    (hlive.good_unacked w hmem).2.sendable hnow p.db.valueThreshold n
  exact ⟨_, .stopped m, _, .down hreopens, history ++ s.unacked.take m,
    contents_append_congr hcontents _, rfl, .inr ⟨_, _, hrec₀⟩⟩

/-- **Every event of such a lifetime is a step of the abstract store.** -/
theorem CrashInv.step {gets : Prop} {opts : Options} (w : World) (s : Spec) (e : Event) (w' : World)
    (h : CrashInv gets w s) (hstep : CrashStep gets opts w e w') :
    ∃ s', SpecStep s e s' ∧ CrashInv gets w' s' := by
  cases hstep with
  | life hlife =>
    obtain ⟨w₀, hlike, hinv⟩ := h
    cases hlike with
    | same =>
      obtain ⟨s', hspec, hinv'⟩ := hinv.step _ _ _ _ hlife
      exact ⟨s', hspec, _, .same _, hinv'⟩
    | @down dir dir₀ hreopens =>
      -- a store that is down can only be opened, like the other one
      cases hlife with
      | store hcond =>
        obtain ⟨l, ⟨hadm, -⟩, hstep⟩ := hcond
        cases hstep with
        | reopen clock hopen =>
          rw [hreopens.openDB_eq] at hopen
          obtain ⟨s', hspec, hinv'⟩ := hinv.step _ _ _ _ (.store ⟨.reopen clock,
            ⟨hreopens.clockOK hadm, trivial⟩, .reopen clock hopen⟩)
          exact ⟨s', hspec, _, .same _, hinv'⟩
        | reopenFail clock hopen =>
          rw [hreopens.openDB_eq] at hopen
          obtain ⟨s', -, history, -, hfalse⟩ := hinv.step _ _ _ _ (.store ⟨.reopen clock,
            ⟨hreopens.clockOK hadm, trivial⟩, .reopenFail clock hopen⟩)
          exact hfalse.elim
  | stopInOpen hclock hstop => exact h.stopInOpen hclock hstop
  | stopInStore now n hw hnow => exact h.stopInStore hw hnow n

/-- **Lifetimes with stops at any point of an opening or of a value-log append refine the abstract
store.** From an empty directory, through any sequence of the events of a lifetime, under the conditions
of `LifeStep`, and of stops inside an opening, after any of its changes to the files, or inside an
append to the value log, after any number of bytes, also several in a row: every opening that is not
stopped succeeds, and every reopened view and every `Get` shows the acknowledged writes in writer order,
followed at each stop of a running store by some prefix of the unacknowledged ones. -/
theorem interrupted_lifetime_refines {gets : Prop} {opts : Options} {es : List Event} {w : World}
    (h : Run (CrashStep gets opts) (.down Dir.empty) es w) : ∃ s, Run SpecStep ⟨[], []⟩ es s := by
  have hstart : CrashInv gets (.down Dir.empty) ⟨[], []⟩ :=
    ⟨_, .same _, [], rfl, storeInv_empty gets⟩
  obtain ⟨s, hrun, -⟩ := h.simulate CrashInv.step hstart
  exact ⟨s, hrun⟩

/-! ## A lifetime with two such stops -/

/-- Options under which a value of two bytes goes to the value log. -/
def loggedOptions : Options := ⟨1, 0, 1⟩

/-- What the lifetime shows. -/
def tornTrace (view view' : Bytes → Except GetError (Option Bytes)) : List Event :=
  [.stopped, .reopened view, .submitted (.put [107] [1, 2]), .internal, .internal, .stopped, .stopped,
    .reopened view', .got [107] (.ok none)]

/-- The first opening stops behind the write of the manifest; the next one goes through, and the store
stops inside its first append to the value log; an opening that stops once the log is open has cut off
the torn record. -/
theorem interrupted_lifetime_refines_torn : ∃ view view' w,
    Run (CrashStep True loggedOptions) (.down Dir.empty) (tornTrace view view') w ∧
      ∃ s, Run SpecStep ⟨[], []⟩ (tornTrace view view') s := by
  -- stopped behind the manifest, so the second opening finds an empty one
  have r₁ : Run (CrashStep True loggedOptions) (.down Dir.empty) [.stopped]
      (.down { Dir.empty with manifest := some [] }) := .single (.stopInOpen firstClock_ok .manifest)
  have hclock : ClockOK { Dir.empty with manifest := some [] } firstClock :=
    ⟨firstClock_ok.segment_pos, firstClock_ok.wal_digits, firstClock_ok.wal_later,
      firstClock_ok.appends_later, firstClock_ok.appends_sorted, firstClock_ok.appends_enough⟩
  have hgood : (Write.put [107] [1, 2]).Plain ∧ Good True (Write.put [107] [1, 2]).record :=
    ⟨⟨by decide, by decide⟩, ⟨⟨by decide, by decide⟩, Or.inr (by decide)⟩, fun _ => by decide⟩
  have r₂ := r₁.trans
    (.head (.life (.store ⟨.reopen firstClock, ⟨hclock, trivial⟩, .reopen firstClock rfl⟩))
      (.head (.life (.store ⟨.submit _, ⟨hgood, trivial⟩, .writer (.submit _ rfl rfl (by decide))⟩))
        (.head (.life (.store ⟨.other, ⟨trivial, trivial⟩,
            .writer (.collect [_] [] rfl rfl (by decide) (by decide))⟩))
          (.single (.life (.store ⟨.other, ⟨trivial, trivial⟩,
            .writer (.prepare [_] rfl rfl (by decide) (by decide))⟩))))))
  have r₃ := r₂.tail (.stopInStore 2 5 rfl (by decide))
  have r₄ := r₃.tail (.stopInOpen (secondClock_ok (Nat.zero_le _)) (.valueLog rfl))
  have r₅ := r₄.trans
    (.head (.life (.store ⟨.reopen secondClock, ⟨secondClock_ok (Nat.zero_le _), trivial⟩,
        .reopen secondClock rfl⟩))
      (.single (.life (.store ⟨.get [107], ⟨trivial, trivial⟩, .get [107] rfl⟩))))
  exact ⟨_, _, _, r₅, interrupted_lifetime_refines r₅⟩

end Seol
