import Seol.Db.FlusherInv

/-!
# Stopping and opening

Reference: `openDB` and `replayWALs` in `db.go`. A stop leaves the files of a process behind, and what
is rebuilt from them is the history with some of the unanswered writes (`Live.recoverable`). Opening
such a directory succeeds and shows exactly that (`Recoverable.opens`).
-/

namespace Seol

open Common Vlog

/-! ## Replaying -/

/-- The readings of the clock that are still to come: later than the active segment, increasing, and
enough for the records. -/
structure ClockReady (log : Log) (clock : List UInt64) (n : ℕ) : Prop where
  later : ∀ t ∈ clock, log.active.id < t
  sorted : clock.Pairwise (· < ·)
  enough : n ≤ clock.length

/-- One record is replayed. -/
theorem replayRecord_ok {s : Replay} {done : List (Bytes × Bytes)} {r : Bytes × Bytes} {n : ℕ}
    (hlog : LogReady s.log) (hclock : ClockReady s.log s.clock (n + 1)) (hr : Sendable r)
    (hholds : Holds s.log s.memtable done) (valueThreshold : ℕ) :
    ∃ s', replayRecord valueThreshold s r = .ok s' ∧ LogReady s'.log ∧
      ClockReady s'.log s'.clock n ∧ Extends s.log s'.log ∧
      Holds s'.log s'.memtable (done ++ [r]) := by
  obtain ⟨log, memtable, bytes, clock⟩ := s
  -- the clock has a reading left for this record, beyond the id of the active segment
  obtain ⟨now, clock, rfl⟩ : ∃ now rest, clock = now :: rest :=
    List.exists_cons_of_length_pos (Nat.lt_of_lt_of_le (Nat.succ_pos n) hclock.enough)
  obtain ⟨hnow, hrest⟩ := List.pairwise_cons.mp hclock.sorted
  obtain ⟨stored, log', hstore, hcarries, hready, hext, hid⟩ :=
    hlog.store hr (hclock.later now List.mem_cons_self) valueThreshold
  unfold replayRecord
  simp only [List.headD_cons]
  rw [hstore]
  refine ⟨_, rfl, hready, ⟨?_, hrest, ?_⟩, hext, ?_⟩
  · exact fun t ht => lt_of_le_of_lt hid (hnow t ht)
  · exact Nat.le_of_succ_le_succ hclock.enough
  · exact (hholds.mono hext).append (.cons ⟨rfl, hcarries⟩ .nil)

/-- **Replaying sendable records succeeds**, puts a stored entry for each of them, and leaves the
readings of the clock for `n` more. -/
theorem replayRecords_ok {s : Replay} {done rs : List (Bytes × Bytes)} {n : ℕ} (hlog : LogReady s.log)
    (hclock : ClockReady s.log s.clock (n + rs.length)) (hrs : ∀ r ∈ rs, Sendable r)
    (hholds : Holds s.log s.memtable done) (valueThreshold : ℕ) :
    ∃ s', rs.foldlM (replayRecord valueThreshold) s = .ok s' ∧ LogReady s'.log ∧
      ClockReady s'.log s'.clock n ∧ Extends s.log s'.log ∧
      Holds s'.log s'.memtable (done ++ rs) := by
  -- record after record; the readings used up are those of the records before
  induction rs generalizing s done with
  | nil => exact ⟨s, rfl, hlog, hclock, Extends.refl _, by simpa using hholds⟩
  | cons r rs ih =>
    obtain ⟨hr, hrs⟩ := List.forall_mem_cons.mp hrs
    obtain ⟨s₁, hstep, hlog₁, hclock₁, hext₁, hholds₁⟩ :=
      replayRecord_ok hlog hclock hr hholds valueThreshold
    obtain ⟨s₂, hfold, hlog₂, hclock₂, hext₂, hholds₂⟩ := ih hlog₁ hclock₁ hrs hholds₁
    refine ⟨s₂, ?_, hlog₂, hclock₂, hext₁.trans hext₂, by simpa using hholds₂⟩
    rw [List.foldlM_cons, hstep]
    exact hfold

/-- Replaying files is replaying their records. -/
theorem replayWALs_eq {files : List Bytes} (hfiles : ∀ file ∈ files, WalHolds file (walRecords file))
    {valueThreshold : ℕ} {s s' : Replay}
    (hfold : (files.flatMap walRecords).foldlM (replayRecord valueThreshold) s = .ok s') :
    replayWALs valueThreshold files s = .ok s' := by
  induction files generalizing s with
  | nil => exact congrArg Except.ok (Except.ok.inj hfold)
  | cons file files ih =>
    obtain ⟨hfile, hfiles⟩ := List.forall_mem_cons.mp hfiles
    rw [List.flatMap_cons, List.foldlM_append] at hfold
    -- a file that is read to its end is its records
    cases hone : (walRecords file).foldlM (replayRecord valueThreshold) s with
    | error e => simp [hone, bind, Except.bind] at hfold
    | ok s₁ =>
      rw [hone] at hfold
      unfold replayWALs
      rw [List.foldlM_cons, hfile.replayWAL, hone]
      exact ih hfiles hfold

/-- The files of a map hold the records of its names. -/
theorem flatMap_walRecords (wals : OrdMap Bytes Bytes) :
    (wals.entries.map Prod.snd).flatMap walRecords = recordsOf wals (names wals) := by
  unfold recordsOf names
  rw [List.flatMap_map, List.flatMap_map]
  rw [List.flatMap_def, List.flatMap_def]
  refine congrArg List.flatten (List.map_congr_left fun e he => ?_)
  rw [OrdMap.get_eq_some_iff.mpr he]
  rfl

/-! ## Opening -/

/-- The clock readings of an `openDB` move on: the new WAL is named after all others, and the appends
of the replay are later than every segment. -/
structure ClockOK (dir : Dir) (clock : OpenClock) : Prop where
  segment_pos : 0 < clock.segment
  wal_digits : NineteenDigits clock.wal
  wal_later : ∀ t, walID t ∈ names dir.wals → t < clock.wal
  appends_later : ∀ t ∈ clock.appends, clock.segment < t ∧ ∀ e ∈ dir.segments.entries, e.1 < t
  appends_sorted : clock.appends.Pairwise (· < ·)
  appends_enough : (recordsOf dir.wals (names dir.wals)).length ≤ clock.appends.length

section Opening

variable {gets : Prop} {dir : Dir} {clock : OpenClock} {log : Log}

/-- The name of the new WAL is free. -/
theorem WalsOK.free (hwals : WalsOK gets dir.wals) (hclock : ClockOK dir clock) :
    dir.wals.get (walID clock.wal) = none := by
  have hlt := hwals.lt_walID hclock.wal_digits hclock.wal_later
  by_contra hsome
  obtain ⟨file, hfile⟩ := Option.ne_none_iff_exists'.mp hsome
  exact lt_irrefl _ (hlt _ (mem_names_iff.mpr ⟨file, hfile⟩))

/-- The WAL files of a directory are replayed into one memtable that holds their records. -/
theorem WalsOK.replay (hwals : WalsOK gets dir.wals) (hclock : ClockOK dir clock)
    (hlog : LogReady log) (hid : ∀ t ∈ clock.appends, log.active.id < t) (valueThreshold : ℕ) :
    ∃ r, replayWALs valueThreshold (dir.wals.entries.map Prod.snd) ⟨log, [], 0, clock.appends⟩ =
        .ok r ∧ LogReady r.log ∧ Extends log r.log ∧
      Holds r.log r.memtable (recordsOf dir.wals (names dir.wals)) := by
  have hempty : Holds log [] [] := .nil
  obtain ⟨r, hfold, hready, -, hext, hholds⟩ := replayRecords_ok (s := ⟨log, [], 0, clock.appends⟩)
    (n := 0) hlog ⟨hid, hclock.appends_sorted, by simpa using hclock.appends_enough⟩
    (fun r hr => (hwals.good_of_mem hr).sendable) hempty valueThreshold
  refine ⟨r, replayWALs_eq (fun file hfile => ?_) (by rw [flatMap_walRecords]; exact hfold), hready,
    hext, hholds⟩
  obtain ⟨e, he, rfl⟩ := List.mem_map.mp hfile
  exact hwals.holds e he

/-- **Opening a sound directory** shows the replayed records over the tables. -/
theorem WalsOK.openDB_shows (hwals : WalsOK gets dir.wals) (hclock : ClockOK dir clock)
    {opts : Options} {ms : List TableMeta} (hms : openManifest dir clock.table = ms)
    (hwf : WellFormed dir.tables ms)
    (hopen : Log.open (normalizeOptions opts).valueLogSegmentMaxBytes.toInt dir.segments
      clock.segment = .ok log)
    (hlog : LogReady log) (hid : ∀ t ∈ clock.appends, log.active.id < t) {T : Bytes → Option Bytes}
    (hreads : Reads log (lookupLevels Table.find (levelsOf dir.tables ms)) T) :
    ∃ db d, openDB dir opts clock = .ok (db, d) ∧ ∀ k, db.view k =
      .ok ((overlay (lastOf (recordsOf dir.wals (names dir.wals))) T k).bind meaning) := by
  subst hms
  -- the replay appends to the value log only, so what the tables refer to is still there
  obtain ⟨r, hreplay, hready, hext, hholds⟩ := hwals.replay hclock hlog hid
    (size (normalizeOptions opts).valueThreshold)
  refine ⟨_, _, openDB_eq_ok.mpr ⟨_, log, r, hwf.loadLevels_eq, hopen, hreplay,
    hwals.free hclock, rfl, rfl⟩, fun k => ?_⟩
  rw [openedDB_view]
  exact (hholds.reads.overlay (hreads.mono hext)).readStoredValue hready.opened k

end Opening

theorem TablesOK.perm {gets : Prop} {tables : TableFiles} {manifest : Option (List TableMeta)}
    {log : Log} {metas ms : List TableMeta} {levels : List LevelState} {T : Bytes → Option Bytes}
    (h : TablesOK gets tables manifest log metas levels T) (hp : ms.Perm metas)
    {written : List TableMeta} (hw : written.Perm ms) :
    TablesOK gets tables (some written) log ms levels T where
  wellFormed := h.wellFormed.perm hp
  levels_eq := by rw [levelsOf_perm h.wellFormed.distinct hp]; exact h.levels_eq
  manifest_eq := ⟨written, rfl, hw⟩
  reads := h.reads
  records := h.records
  entries := fun m hm => h.entries m (hp.mem_iff.mp hm)

/-- **Opening** a directory whose manifest and value log are sound: it succeeds, the invariant holds,
and the view is that of the history. -/
theorem opens {gets : Prop} {dir : Dir} {opts : Options} {clock : OpenClock} {log : Log}
    {history : List Write} {T : Bytes → Option Bytes} {metas : List TableMeta}
    (hmanifest : openManifest dir clock.table = metas)
    (htables : TablesOK gets dir.tables (some metas) log metas (levelsOf dir.tables metas) T)
    (hopen : Log.open (normalizeOptions opts).valueLogSegmentMaxBytes.toInt dir.segments
      clock.segment = .ok log)
    (hlog : LogReady log) (hid : ∀ t ∈ clock.appends, log.active.id < t)
    (hwals : WalsOK gets dir.wals) (hclock : ClockOK dir clock)
    (hgood : ∀ w ∈ history, w.Plain ∧ Good gets w.record)
    (hview : overlay (lastOf (recordsOf dir.wals (names dir.wals))) T =
      lastOf (history.map Write.record)) :
    ∃ db dir' g, openDB dir opts clock = .ok (db, dir') ∧
      (∀ k, db.view k = .ok (contents history k)) ∧
      Live gets dir' (Proc.start db) ⟨history, []⟩ g := by
  have hlt := hwals.lt_walID hclock.wal_digits hclock.wal_later
  have hfree := hwals.free hclock
  obtain ⟨r, hreplay, hready, hext, hholds⟩ := hwals.replay hclock hlog hid
    (size (normalizeOptions opts).valueThreshold)
  have hlevels := htables.wellFormed.loadLevels_eq
  rw [← hmanifest] at hlevels
  -- everything replayed belongs to the one memtable, whose files are all the WALs of the directory
  refine ⟨_, _, ⟨[], names dir.wals ++ [walID clock.wal], recordsOf dir.wals (names dir.wals), T⟩,
    openDB_eq_ok.mpr ⟨_, log, r, hlevels, hopen, hreplay, hfree, rfl, rfl⟩, ?_, ?_⟩
  · intro k
    rw [openedDB_view, hmanifest]
    have hreads := hholds.reads.overlay (htables.reads.mono hext)
    rw [hview] at hreads
    rw [contents_eq fun w hw => (hgood w hw).1]
    exact hreads.readStoredValue hready.opened k
  -- the memtable's own WAL is new and empty
  · have hnew : (dir.wals.insert (walID clock.wal) []).get (walID clock.wal) = some [] := by
      rw [OrdMap.get_insert, if_pos rfl]
    have hfresh : walID clock.wal ∉ names dir.wals := fun hmem => lt_irrefl _ (hlt _ hmem)
    have hperm := orderTableMetaForManifest_perm htables.wellFormed.distinct
    rw [hmanifest]
    exact
      { unacked_eq := rfl
        good := by simpa using hgood
        stores := by simp [Proc.start, Writer.stores]
        immutable_eq := rfl
        heap := ⟨by simp [Proc.start, openedDB, DB.publishReadState],
          by simp [Proc.start, openedDB, DB.publishReadState]⟩
        names_eq := names_insert_of_lt hlt []
        wals := hwals.insert walHolds_nil ⟨clock.wal, hclock.wal_digits, rfl⟩ (by simp)
        memtables := by simp [Proc.start, openedDB, DB.publishReadState]
        active := by
          refine Or.inl ⟨0, walID clock.wal, rfl, rfl, rfl, ⟨_, rfl⟩, ⟨[], hnew, by simp⟩, ?_, ?_⟩
          · simpa [Proc.start, openedDB, DB.publishReadState] using hholds
          · rw [recordsOf_append, recordsOf_insert hfresh, recordsOf_singleton hnew,
              walHolds_nil.walRecords_eq]
            rfl
        rotating := by simp [Proc.start]
        tables := (htables.perm hperm hperm.symm).mono hext
        installing := by simp [Proc.start]
        log := hready
        segments_eq := rfl
        view_eq := by simpa [Generations.view, Ghost.generations, Proc.start, Proc.pending,
          Flusher.current, Writer.handing, Closing.handing, Writer.applied] using hview
        safe := ⟨absorbs_none _, fun k => Or.inl rfl⟩
        stuck_nil := fun _ => rfl
        closing := ⟨fun _ => rfl, by simp [Proc.start], by simp [Proc.start],
          by simp [Proc.start, openedDB, DB.publishReadState]⟩ }

theorem segmentLimit_lt (n : Int64) : segmentLimit n.toInt < 2 ^ 63 := by
  have hlt := n.toInt_lt
  unfold segmentLimit defaultSegmentMaxBytes
  split_ifs <;> omega

/-- The value log of a recoverable directory is opened as it was left, and the replay may append to
it. -/
theorem Recoverable.opensLog {gets : Prop} {dir : Dir} {history : List Write} {log : Log}
    {T : Bytes → Option Bytes} (h : Recoverable gets dir history log T) (opts : Options)
    {clock : OpenClock} (hclock : ClockOK dir clock) :
    ∃ log', Log.open (normalizeOptions opts).valueLogSegmentMaxBytes.toInt dir.segments
        clock.segment = .ok log' ∧ LogReady log' ∧ Extends log log' ∧ log'.files = dir.segments ∧
      ∀ t ∈ clock.appends, log'.active.id < t := by
  -- opening takes the segments as they are, with the greatest id as the active one
  obtain ⟨log', hopen, hfiles, hactive, hok, hopened, hlimit⟩ := h.log_ok.open_eq
    (normalizeOptions opts).valueLogSegmentMaxBytes.toInt clock.segment
  rw [← h.segments_eq] at hopen hfiles
  refine ⟨log', hopen, ⟨hok, hopened, hlimit ▸ segmentLimit_lt _⟩,
    extends_of_files (hfiles.trans h.segments_eq) hactive, hfiles, fun t ht => ?_⟩
  refine (hclock.appends_later t ht).2 (log'.active.id, log'.activeFile) ?_
  rw [← hfiles]
  exact OrdMap.get_eq_some_iff.mp log'.get_activeFile

/-- **A recoverable directory opens** and shows its history. -/
theorem Recoverable.opens {gets : Prop} {dir : Dir} {history : List Write} {log : Log}
    {T : Bytes → Option Bytes} (h : Recoverable gets dir history log T) (opts : Options)
    {clock : OpenClock} (hclock : ClockOK dir clock) :
    ∃ db dir' g, openDB dir opts clock = .ok (db, dir') ∧
      (∀ k, db.view k = .ok (contents history k)) ∧
      Live gets dir' (Proc.start db) ⟨history, []⟩ g := by
  obtain ⟨metas, htables⟩ := h.tables
  obtain ⟨ms, hms, hperm⟩ := htables.manifest_eq
  obtain ⟨log', hopen, hready, hext, -, hlater⟩ := h.opensLog opts hclock
  have hmanifest : openManifest dir clock.table = ms := by simp [openManifest, hms]
  have htables' := (htables.perm hperm (List.Perm.refl ms)).mono hext
  rw [← levelsOf_perm htables.wellFormed.distinct hperm] at htables'
  exact Seol.opens hmanifest htables' hopen hready hlater h.wals hclock h.good h.view_eq

/-- The manifest of a directory without tables. -/
theorem tablesOK_empty (gets : Prop) (log : Log) :
    TablesOK gets Dir.empty.tables (some []) log [] (levelsOf Dir.empty.tables []) (fun _ => none) where
  wellFormed := ⟨by simp [DistinctNames], by simp, by simp, by simp⟩
  levels_eq := rfl
  manifest_eq := ⟨[], rfl, List.Perm.refl _⟩
  reads := reads_none _
  records := by simp
  entries := by simp

/-- The value log of an empty directory gets its first segment, older than the readings to come. -/
theorem openEmpty_later {clock : OpenClock} (hclock : ClockOK Dir.empty clock) (limit : ℕ) :
    ∀ t ∈ clock.appends, (Log.openEmpty limit clock.segment).active.id < t := by
  intro t ht
  have hid : nextSegmentID 0 clock.segment = clock.segment :=
    if_neg (not_le.mpr hclock.segment_pos)
  show nextSegmentID 0 clock.segment < t
  rw [hid]
  exact (hclock.appends_later t ht).1

/-- No WAL files replay. -/
theorem walsOK_empty (gets : Prop) : WalsOK gets Dir.empty.wals := by
  refine ⟨?_, ?_, ?_⟩ <;> simp [Dir.empty, OrdMap.empty]

/-- **An empty directory opens** and shows nothing. -/
theorem opens_empty (gets : Prop) (opts : Options) {clock : OpenClock}
    (hclock : ClockOK Dir.empty clock) :
    ∃ db dir' g, openDB Dir.empty opts clock = .ok (db, dir') ∧
      (∀ k, db.view k = .ok (contents [] k)) ∧
      Live gets dir' (Proc.start db) ⟨[], []⟩ g := by
  have hready := logReady_openEmpty
    (segmentLimit_lt (normalizeOptions opts).valueLogSegmentMaxBytes) clock.segment
  exact Seol.opens (T := fun _ => none) rfl (tablesOK_empty gets _) rfl hready
    (openEmpty_later hclock _) (walsOK_empty gets) hclock (by simp) rfl

/-! ## Stopping -/

/-- The records of the WAL files of memtables, memtable by memtable. -/
theorem flatten_recordsOf (wals : OrdMap Bytes Bytes) (imms : List Immutable) :
    recordsOf wals (pathsOf imms) = (imms.map fun imm => recordsOf wals imm.walPaths).flatten := by
  induction imms with
  | nil => rfl
  | cons imm imms ih =>
    rw [pathsOf_cons, recordsOf_append, ih]
    rfl

/-- The write that is applied is the first of the unanswered ones. -/
theorem Writer.applied_eq_take (w : Writer) (queue : List Write) :
    ∃ n, w.applied = (w.unacked ++ queue).take n := by
  cases w with
  | rotating last rest => exact ⟨1, by simp [Writer.applied, Writer.unacked]⟩
  | sending imm last rest => exact ⟨1, by simp [Writer.applied, Writer.unacked]⟩
  | _ => exact ⟨0, by simp [Writer.applied]⟩

/-- Some of the unanswered writes, from the front, are in the WAL files. -/
theorem Writer.logged_eq_take (w : Writer) (queue : List Write) :
    ∃ n, w.applied ++ w.logged = (w.unacked ++ queue).take n := by
  cases w with
  | applying todo rest why =>
    refine ⟨todo.length, ?_⟩
    simp [Writer.applied, Writer.logged, Writer.unacked]
  | rotating last rest => exact ⟨1, by simp [Writer.applied, Writer.logged, Writer.unacked]⟩
  | sending imm last rest => exact ⟨1, by simp [Writer.applied, Writer.logged, Writer.unacked]⟩
  | _ => exact ⟨0, by simp [Writer.applied, Writer.logged]⟩

namespace Live

variable {gets : Prop} {dir : Dir} {p : Proc} {s : Spec} {g : Ghost}

/-- **What a stopped process leaves**: the records its WAL files hold for the active memtable, over the
layers below. -/
theorem recoverable_of_below (h : Live gets dir p s g) {wals : OrdMap Bytes Bytes}
    (hwals : WalsOK gets wals) (hnames : names wals = names dir.wals)
    (hsame : ∀ path ∈ pathsOf g.stuck ++ (p.flusher.leftover ++ pathsOf p.pending),
      wals.get path = dir.wals.get path) {history : List Write}
    (hgood : ∀ w ∈ history, w.Plain ∧ Good gets w.record)
    (hview : overlay (lastOf (recordsOf wals g.cur))
      (g.generations dir.wals p.flusher.leftover p.pending).below =
        lastOf (history.map Write.record)) :
    Recoverable gets { dir with wals := wals } history p.db.valueLog g.table where
  wals := hwals
  log_ok := h.log.ok
  segments_eq := h.segments_eq
  tables := ⟨p.db.tableMeta, h.tables.levels_eq ▸ h.tables⟩
  good := hgood
  view_eq := by
    -- the generations with the records that are left of the active one
    let G : Generations Bytes Bytes :=
      { g.generations dir.wals p.flusher.leftover p.pending with current := recordsOf wals g.cur }
    have hall : recordsOf wals (names wals) =
        G.stuck ++ (G.leftover ++ (G.waiting.flatten ++ G.current)) := by
      have hstuck := fun path hp => hsame path (List.mem_append_left _ hp)
      have hleft := fun path hp => hsame path (List.mem_append_right _ (List.mem_append_left _ hp))
      have hwait := fun path hp => hsame path (List.mem_append_right _ (List.mem_append_right _ hp))
      rw [hnames, h.names_eq, recordsOf_append, recordsOf_append, recordsOf_append,
        recordsOf_congr hstuck, recordsOf_congr hleft, recordsOf_congr hwait,
        flatten_recordsOf dir.wals p.pending]
      rfl
    have hsafe : G.Safe := ⟨h.safe.absorbed, h.safe.apart⟩
    rw [← hview, hall]
    exact hsafe.recovered_eq.trans G.view_eq_overlay_below

/-- A stop leaves the history with the writes that were in the WAL of the active memtable. -/
theorem recoverable (h : Live gets dir p s g) {wals : OrdMap Bytes Bytes} (hwals : WalsOK gets wals)
    (hnames : names wals = names dir.wals)
    (hsame : ∀ path ∈ pathsOf g.stuck ++ (p.flusher.leftover ++ pathsOf p.pending),
      wals.get path = dir.wals.get path)
    {ws : List Write} (hcur : recordsOf wals g.cur = g.applied ++ ws.map Write.record)
    (hgood : ∀ w ∈ s.history ++ p.writer.applied ++ ws, w.Plain ∧ Good gets w.record) :
    Recoverable gets { dir with wals := wals } (s.history ++ p.writer.applied ++ ws) p.db.valueLog
      g.table := by
  refine h.recoverable_of_below hwals hnames hsame hgood ?_
  rw [hcur, lastOf_append, overlay_assoc, List.map_append, lastOf_append, ← h.view_eq,
    Generations.view_eq_overlay_below]
  rfl

/-- A stop between two steps. -/
theorem stop (h : Live gets dir p s g) :
    ∃ n, Recoverable gets dir (s.history ++ s.unacked.take n) p.db.valueLog g.table := by
  obtain ⟨n, hn⟩ := p.writer.logged_eq_take p.queue
  rw [← h.unacked_eq] at hn
  refine ⟨n, ?_⟩
  -- the WALs may be ahead of the acknowledgements by a part of the unanswered writes
  have hcur : recordsOf dir.wals g.cur = g.applied ++ p.writer.logged.map Write.record := by
    rcases h.active with ⟨a, wal, -, -, -, hactive⟩ | ⟨-, -, -, happ, hlog, hrec⟩
    · exact hactive.records
    · rw [hrec, happ, hlog]
      rfl
  rw [← hn, ← List.append_assoc]
  refine h.recoverable h.wals rfl (fun _ _ => rfl) hcur ?_
  rw [List.append_assoc, hn]
  intro w hw
  rcases List.mem_append.mp hw with hw | hw
  · exact h.good w (List.mem_append_left _ hw)
  · exact h.good w (List.mem_append_right _ (List.mem_of_mem_take hw))

/-- **A stop inside a WAL append** leaves some of the batch. -/
theorem stopInAppend (h : Live gets dir p s g) {done : List (Write × Bytes)} {rest : List Write}
    {why : PrepareEnd} {wal file : Bytes} (hw : p.writer = .prepared done rest why)
    (hwal : p.db.activeWal = some wal) (hfile : dir.wals.get wal = some file) (m : ℕ) :
    ∃ n, Recoverable gets
      { dir with
        wals := dir.wals.insert wal
          (file ++ (encodeRecords (done.map fun e => e.1.record)).take m) }
      (s.history ++ s.unacked.take n) p.db.valueLog g.table := by
  obtain ⟨rs, rfl, hfit, hwrite⟩ := h.write_active hwal hfile
  have hgood := h.good_prepared hw
  have hall : ∀ r ∈ rs ++ done.map fun e => e.1.record, LengthsFit r :=
    List.forall_mem_append.mpr ⟨hfit, fun r hr => (hgood r hr).sendable.fits⟩
  -- the cut leaves the first `j` records of the batch, and bytes that no record starts with
  obtain ⟨j, hnew⟩ := walHolds_take hall m
  obtain ⟨hwals, hnames, hsame, hrecords⟩ := hwrite hnew
    fun r hr => hgood r (List.mem_of_mem_take hr)
  have hun : s.unacked = done.map Prod.fst ++ rest ++ p.queue := by
    rw [h.unacked_eq, hw]
    rfl
  have htake : (done.map Prod.fst).take j = s.unacked.take (min j done.length) := by
    rw [hun, List.append_assoc, List.take_append_of_le_length (by simp), List.take_eq_take_min,
      List.length_map]
  have happlied : p.writer.applied = [] := by rw [hw]; rfl
  have hcur : recordsOf (dir.wals.insert wal
      (encodeRecords rs ++ (encodeRecords (done.map fun e => e.1.record)).take m)) g.cur =
      g.applied ++ ((done.map Prod.fst).take j).map Write.record := by
    rw [hrecords, hw]
    simp [Writer.logged, List.map_take, Function.comp_def]
  have hgood' : ∀ w ∈ s.history ++ p.writer.applied ++ (done.map Prod.fst).take j,
      w.Plain ∧ Good gets w.record := by
    rw [happlied, List.append_nil, htake]
    intro w hmem
    rcases List.mem_append.mp hmem with hmem | hmem
    · exact h.good w (List.mem_append_left _ hmem)
    · exact h.good w (List.mem_append_right _ (List.mem_of_mem_take hmem))
  have hrec := h.recoverable hwals hnames hsame hcur hgood'
  rw [happlied, List.append_nil, htake] at hrec
  exact ⟨min j done.length, hrec⟩

/-- **A clean close** leaves the history. -/
theorem closeStorage (h : Live gets dir p s g) (hc : p.closing = .draining) :
    s.unacked = [] ∧ Recoverable gets dir s.history p.db.valueLog g.table := by
  obtain ⟨hw, hq⟩ := h.closing.detached (Or.inl hc)
  have hun : s.unacked = [] := by
    rw [h.unacked_eq, hw, hq]
    rfl
  obtain ⟨n, hrec⟩ := h.stop
  rw [hun, List.take_nil, List.append_nil] at hrec
  exact ⟨hun, hrec⟩

end Live

end Seol
