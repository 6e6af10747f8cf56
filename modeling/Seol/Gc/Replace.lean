import Seol.Db.Recovery
import Seol.Gc.View

/-!
# Replacing the files of a store by the rewritten ones

Reference: `rewriteValueLogFiles` and `replaceRewrittenFiles` in `gc.go`, `manifestStore.write` in
`manifest.go`. The live entries are rewritten in a temporary directory. Then the new tables and
segments are renamed into place, the old tables and segments are removed, and the manifest is
replaced by a rename. A stop leaves the directory after some prefix of these steps.
-/

namespace Seol

open Common Vlog

/-! ## The model -/

/-- Why `rewriteValueLogFiles` fails before it replaces anything. -/
inductive RewriteError where
  | missingTable
  | valueLog (e : LogError)
  | rebuild (e : GcError)

/-- What `replaceRewrittenFiles` starts from: the old log and tables, and the rewritten state. -/
structure RewriteState where
  oldVlog : Log
  oldTables : List TableMeta
  rebuilt : Rebuild

/-- `rewriteValueLogFiles` up to `replaceRewrittenFiles`; `oldNow` and `newNow` are the clock readings
at which the two value logs are opened. -/
def rewriteLive (dir : Dir) (opts : Options) (c : GcChoices) (oldNow newNow : UInt64) :
    Except RewriteError RewriteState :=
  let opts := normalizeOptions opts
  let tableMeta := openManifest dir c.now
  match loadLevels dir.tables tableMeta with
  | none => .error .missingTable
  | some levels =>
    match Log.open opts.valueLogSegmentMaxBytes.toInt dir.segments oldNow with
    | .error e => .error (.valueLog e)
    | .ok oldVlog =>
      match Log.open opts.valueLogSegmentMaxBytes.toInt OrdMap.empty newNow with
      | .error e => .error (.valueLog e)
      | .ok newVlog =>
        match rebuildLiveState c (size opts.valueThreshold) (size opts.memtableMaxBytes) oldVlog
            levels newVlog with
        | .error e => .error (.rebuild e)
        | .ok s => .ok ⟨oldVlog, tableMeta, s⟩

/-- The directory at that point: opening the old log may have created a first segment. -/
def RewriteState.start (r : RewriteState) (dir : Dir) : Dir :=
  { dir with segments := r.oldVlog.files, manifest := some r.oldTables }

/-- The files of the temporary directory. -/
inductive TempFile where
  | table (name : Bytes) (entries : OrdMap Bytes Bytes)
  | segment (id : UInt64) (data : Bytes)

/-- The new tables and segments. -/
def RewriteState.tempFiles (r : RewriteState) : List TempFile :=
  (r.rebuilt.flushed.map fun o => .table o.info.filename o.entries) ++
    r.rebuilt.log.files.entries.map fun e => .segment e.1 e.2

/-- The filesystem steps of `replaceRewrittenFiles`. A rename carries the file that it moves, and the
rename of the manifest the tables of the temporary manifest. -/
inductive GcStep where
  | rename (f : TempFile)
  | removeTable (name : Bytes)
  | removeSegment (id : UInt64)
  | writeManifestTmp (tables : List TableMeta)
  | renameManifest (tables : List TableMeta)
  | removeTemp

/-- One step. The temporary directory and the temporary manifest are not read by `openDB`, so only the
other files are followed; an error return, which removes the temporary directory, leaves the same
files as a crash. -/
def GcStep.run (d : Dir) : GcStep → Dir
  | .rename (.table name entries) => { d with tables := d.tables.insert name entries }
  | .rename (.segment id data) => { d with segments := d.segments.insert id data }
  | .removeTable name => { d with tables := d.tables.erase name }
  | .removeSegment id => { d with segments := d.segments.erase id }
  | .renameManifest tables => { d with manifest := some tables }
  | .writeManifestTmp _ | .removeTemp => d

/-- The directory after a list of steps. -/
def runGcSteps (d : Dir) (steps : List GcStep) : Dir := steps.foldl GcStep.run d

/-- The names of the tables in a listing of the temporary directory. -/
def tableNames (listing : List TempFile) : List Bytes :=
  listing.filterMap fun
    | .table name _ => some name
    | .segment _ _ => none

/-- The ids of the segments in a listing. -/
def segmentIDs (listing : List TempFile) : List UInt64 :=
  listing.filterMap fun
    | .table _ _ => none
    | .segment id _ => some id

/-- The removals of `replaceRewrittenFiles`: what the listing does not replace. -/
def removals (r : RewriteState) (listing : List TempFile) : List GcStep :=
  (((r.oldTables.map TableMeta.filename).filter (· ∉ tableNames listing)).map .removeTable) ++
    ((r.oldVlog.files.entries.map Prod.fst).filter (· ∉ segmentIDs listing)).map .removeSegment

/-- `replaceRewrittenFiles`, on a listing of the temporary directory. -/
def replaceRewrittenFiles (r : RewriteState) (listing : List TempFile) : List GcStep :=
  listing.map .rename ++ (removals r listing ++
    [.writeManifestTmp (orderTableMetaForManifest (outputMetas r.rebuilt.flushed)),
      .renameManifest (orderTableMetaForManifest (outputMetas r.rebuilt.flushed)), .removeTemp])

/-! ## The files after a prefix of the steps -/

/-- What a step does to the tables. -/
def GcStep.tableOp : GcStep → Option (Bytes × Option (OrdMap Bytes Bytes))
  | .rename (.table name entries) => some (name, some entries)
  | .removeTable name => some (name, none)
  | _ => none

/-- What a step does to the segments. -/
def GcStep.segmentOp : GcStep → Option (UInt64 × Option Bytes)
  | .rename (.segment id data) => some (id, some data)
  | .removeSegment id => some (id, none)
  | _ => none

theorem runGcSteps_tables (d : Dir) (steps : List GcStep) :
    (runGcSteps d steps).tables = d.tables.updateAll (steps.filterMap GcStep.tableOp) := by
  induction steps generalizing d with
  | nil => rfl
  | cons s steps ih =>
    refine (ih (s.run d)).trans ?_
    cases s with
    | rename f => cases f <;> rfl
    | _ => rfl

theorem runGcSteps_segments (d : Dir) (steps : List GcStep) :
    (runGcSteps d steps).segments = d.segments.updateAll (steps.filterMap GcStep.segmentOp) := by
  induction steps generalizing d with
  | nil => rfl
  | cons s steps ih =>
    refine (ih (s.run d)).trans ?_
    cases s with
    | rename f => cases f <;> rfl
    | _ => rfl

theorem runGcSteps_wals (d : Dir) (steps : List GcStep) : (runGcSteps d steps).wals = d.wals := by
  induction steps generalizing d with
  | nil => rfl
  | cons s steps ih =>
    refine (ih (s.run d)).trans ?_
    cases s with
    | rename f => cases f <;> rfl
    | _ => rfl

/-- Only the rename of the manifest changes it. -/
theorem runGcSteps_manifest {d : Dir} {steps : List GcStep}
    (h : ∀ tables, .renameManifest tables ∉ steps) :
    (runGcSteps d steps).manifest = d.manifest := by
  induction steps generalizing d with
  | nil => rfl
  | cons s steps ih =>
    refine (ih fun tables hmem => h tables (List.mem_cons_of_mem _ hmem)).trans ?_
    cases s with
    | rename f => cases f <;> rfl
    | renameManifest tables => exact absurd List.mem_cons_self (h tables)
    | _ => rfl

theorem runGcSteps_manifest_eq {d : Dir} {steps : List GcStep} {tables : List TableMeta}
    (hall : ∀ tables', .renameManifest tables' ∈ steps → tables' = tables)
    (h : d.manifest = some tables ∨ ∃ tables', .renameManifest tables' ∈ steps) :
    (runGcSteps d steps).manifest = some tables := by
  induction steps generalizing d with
  | nil => simpa [runGcSteps] using h
  | cons s steps ih =>
    refine ih (fun tables' hmem => hall tables' (List.mem_cons_of_mem _ hmem)) ?_
    cases s with
    | renameManifest tables' => exact .inl (congrArg some (hall tables' List.mem_cons_self))
    | rename f => cases f <;> simpa [GcStep.run] using h
    | _ => simpa [GcStep.run] using h

/-- A prefix that reaches a step has done everything before it. -/
theorem exists_of_mem_prefix {α : Type*} {pre post done rest : List α} {s : α}
    (h : pre ++ s :: post = done ++ rest) (hs : s ∈ done) (hnot : s ∉ pre) :
    ∃ post', done = pre ++ s :: post' := by
  rcases List.append_eq_append_iff.mp h with ⟨as, rfl, htail⟩ | ⟨as, rfl, -⟩
  · cases as with
    | nil => exact absurd (by simpa using hs) hnot
    | cons a as =>
      obtain ⟨rfl, -⟩ := List.cons.inj htail
      exact ⟨as, rfl⟩
  · exact absurd (List.mem_append_left _ hs) hnot

/-! ## Sound directories -/

/-- A directory of a store: its manifest and tables belong together, its segments are whole records,
its WAL files replay, and the entry that a lookup selects stands for a record of the map `T`. -/
structure StoreDir (dir : Dir) (ms : List TableMeta) (T : Bytes → Option Bytes) : Prop where
  manifest_eq : dir.manifest = some ms
  wellFormed : WellFormed dir.tables ms
  fits : ∀ m ∈ ms, ∀ e ∈ (tableOf dir.tables m).entries.entries, LengthsFit e
  segments : WholeRecords dir.segments
  reads : ∀ {limit now log}, Log.open limit dir.segments now = .ok log →
    Reads log (lookupLevels Table.find (levelsOf dir.tables ms)) T
  plain : ∀ k v, T k = some v → v = tombstoneValue ∨ decodeValueRef v = none
  wals : WalsOK False dir.wals

theorem Vlog.Opened.get {limit : ℤ} {segments : OrdMap UInt64 Bytes} {now : UInt64} {l : Log}
    (h : Opened limit segments now l) {id : UInt64} {f : Bytes} (hf : segments.get id = some f) :
    l.files.get id = some f := by
  rw [h.files_eq (List.ne_nil_of_mem (OrdMap.get_eq_some_iff.mp hf)), hf]

/-- What is stored in a log is stored in a sound log that has all its segments. -/
theorem extends_of_get {log l : Log} (hl : LogOK l)
    (h : ∀ id f, log.files.get id = some f → l.files.get id = some f) : Extends log l := by
  intro ref key value hstored
  obtain ⟨⟨f, hf, hfile⟩, hoff, hlen, hsum⟩ := hstored.filed
  exact Filed.stored ⟨⟨f, h _ f hf, hfile⟩, hoff, hlen, hsum⟩ hl.size_eq

/-- **Opening a directory of whole records** whose entries stand for the records of `T`. -/
theorem openDB_of_whole {dir : Dir} {ms : List TableMeta} {T : Bytes → Option Bytes}
    (hms : dir.manifest = some ms) (hwf : WellFormed dir.tables ms)
    (hsegs : WholeRecords dir.segments) (hwals : WalsOK False dir.wals) (opts : Options)
    {clock : OpenClock} (hclock : ClockOK dir clock)
    (hreads : ∀ {log}, Log.open (normalizeOptions opts).valueLogSegmentMaxBytes.toInt dir.segments
        clock.segment = .ok log → LogOK log →
      (∀ id f, dir.segments.get id = some f → log.files.get id = some f) →
      Reads log (lookupLevels Table.find (levelsOf dir.tables ms)) T) :
    ∃ db d, openDB dir opts clock = .ok (db, d) ∧ ∀ k, db.view k =
      .ok ((overlay (lastOf (recordsOf dir.wals (names dir.wals))) T k).bind meaning) := by
  obtain ⟨log, hopen, hlog⟩ := hsegs.open
    (normalizeOptions opts).valueLogSegmentMaxBytes.toInt clock.segment
  have hid : ∀ t ∈ clock.appends, log.active.id < t := by
    intro t ht
    -- an empty log is opened with a new segment, any other with the last one as active
    by_cases hnil : dir.segments.entries = []
    · have hactive : log.active.id = clock.segment := by
        rw [hlog.fresh hnil]
        exact if_neg (not_le.mpr hclock.segment_pos)
      rw [hactive]
      exact (hclock.appends_later t ht).1
    · refine (hclock.appends_later t ht).2 (log.active.id, log.activeFile) ?_
      rw [← hlog.files_eq hnil]
      exact OrdMap.get_eq_some_iff.mp log.get_activeFile
  have hready : LogReady log := ⟨hlog.ok, hlog.opened, hlog.limit_eq ▸ segmentLimit_lt _⟩
  exact hwals.openDB_shows hclock (by rw [openManifest, hms, Option.getD_some]) hwf hopen hready hid
    (hreads hopen hlog.ok fun _ _ hf => hlog.get hf)

/-! ## The rewritten state -/

/-- What `replaceRewrittenFiles` starts from, for a sound directory. -/
structure RewriteOK (dir : Dir) (ms : List TableMeta) (T : Bytes → Option Bytes) (c : GcChoices)
    (r : RewriteState) : Prop where
  oldTables_eq : r.oldTables = ms
  whole : WholeRecords r.oldVlog.files
  reads : Reads r.oldVlog (lookupLevels Table.find (levelsOf dir.tables ms)) T
  newWhole : WholeRecords r.rebuilt.log.files
  wellFormed : WellFormed (outputFiles r.rebuilt.flushed) (outputMetas r.rebuilt.flushed)
  newReads : Reads r.rebuilt.log (lookupLevels Table.find (levelsOf (outputFiles r.rebuilt.flushed)
    (outputMetas r.rebuilt.flushed))) fun k => (T k).filter (· ≠ tombstoneValue)

theorem bind_meaning_eq_some {o : Option Bytes} {v : Bytes} :
    o.bind meaning = some v ↔ o = some v ∧ v ≠ tombstoneValue := by
  cases o with
  | none => simp
  | some w =>
    by_cases ht : w = tombstoneValue
    · subst ht
      simp only [Option.bind_some, meaning, isTombstoneValue, decide_true, if_true, reduceCtorEq,
        Option.some.injEq, false_iff, not_and, not_not]
      exact Eq.symm
    · simp only [Option.bind_some, meaning, isTombstoneValue, ht, decide_false, Bool.false_eq_true,
        if_false, Option.some.injEq]
      exact ⟨fun h => ⟨h, h ▸ ht⟩, fun h => h.1⟩

theorem filter_bind_meaning (o : Option Bytes) :
    (o.filter (· ≠ tombstoneValue)).bind meaning = o.bind meaning := by
  cases o with
  | none => rfl
  | some w =>
    by_cases ht : w = tombstoneValue
    · simp [Option.filter, ht, meaning, isTombstoneValue]
    · simp [Option.filter, ht]

/-- An empty directory gives a clean log. -/
theorem clean_open_empty {segmentMaxBytes : ℤ} {now : UInt64} {l : Log}
    (h : Log.open segmentMaxBytes OrdMap.empty now = .ok l) :
    Clean (segmentLimit segmentMaxBytes) l := by
  have hempty : SegmentsInv (segmentLimit segmentMaxBytes) OrdMap.empty [] :=
    ⟨by simp [OrdMap.empty], by simp, by simp [OrdMap.empty]⟩
  obtain ⟨l', hopen, hsegs, hrun, -⟩ := hempty.open now
  obtain rfl := Except.ok.inj (h.symm.trans hopen)
  exact ⟨⟨[], hsegs⟩, hrun⟩

section Rewrite

variable {dir : Dir} {ms : List TableMeta} {T : Bytes → Option Bytes} {opts : Options}
  {c : GcChoices} {oldNow newNow : UInt64} {r : RewriteState}

/-- `rewriteLive` succeeds when each of its parts does. -/
theorem rewriteLive_eq_ok (hr : rewriteLive dir opts c oldNow newNow = .ok r) :
    ∃ levels newVlog, loadLevels dir.tables (openManifest dir c.now) = some levels ∧
      Log.open (normalizeOptions opts).valueLogSegmentMaxBytes.toInt dir.segments oldNow =
        .ok r.oldVlog ∧
      Log.open (normalizeOptions opts).valueLogSegmentMaxBytes.toInt OrdMap.empty newNow =
        .ok newVlog ∧
      rebuildLiveState c (size (normalizeOptions opts).valueThreshold)
        (size (normalizeOptions opts).memtableMaxBytes) r.oldVlog levels newVlog = .ok r.rebuilt ∧
      r.oldTables = openManifest dir c.now := by
  simp only [rewriteLive] at hr
  cases hl : loadLevels dir.tables (openManifest dir c.now) with
  | none => simp [hl] at hr
  | some levels =>
    simp only [hl] at hr
    cases hold : Log.open (normalizeOptions opts).valueLogSegmentMaxBytes.toInt dir.segments
        oldNow with
    | error e => simp [hold] at hr
    | ok oldVlog =>
      simp only [hold] at hr
      cases hnew : Log.open (normalizeOptions opts).valueLogSegmentMaxBytes.toInt OrdMap.empty
          newNow with
      | error e => simp [hnew] at hr
      | ok newVlog =>
        simp only [hnew] at hr
        cases hs : rebuildLiveState c (size (normalizeOptions opts).valueThreshold)
            (size (normalizeOptions opts).memtableMaxBytes) oldVlog levels newVlog with
        | error e => simp [hs] at hr
        | ok s =>
          simp only [hs, Except.ok.injEq] at hr
          subst hr
          exact ⟨levels, newVlog, rfl, rfl, rfl, hs, rfl⟩

/-- **The rewritten state of a sound directory.** -/
theorem StoreDir.rewriteOK (h : StoreDir dir ms T)
    (hnames : ∀ i j name, c.flush i = some name → c.flush j = some name → i = j)
    (hr : rewriteLive dir opts c oldNow newNow = .ok r) : RewriteOK dir ms T c r := by
  obtain ⟨levels, newVlog, hlevels, hold, hnew, hrun, hms⟩ := rewriteLive_eq_ok hr
  rw [openManifest, h.manifest_eq, Option.getD_some] at hlevels hms
  obtain rfl : levelsOf dir.tables ms = levels :=
    Option.some.inj (h.wellFormed.loadLevels_eq ▸ hlevels)
  have hreads := h.reads hold
  obtain ⟨oldVlog, hopen, hopened⟩ := h.segments.open
    (normalizeOptions opts).valueLogSegmentMaxBytes.toInt oldNow
  obtain rfl : r.oldVlog = oldVlog := Except.ok.inj (hold.symm.trans hopen)
  have hview := hreads.readStoredValue hopened.opened
  -- a value that is read is the live value of a plain record
  have hplain : ∀ k v, readStoredValue r.oldVlog
      (lookupLevels Table.find (levelsOf dir.tables ms) k) = .ok (some v) →
      v ≠ tombstoneValue ∧ decodeValueRef v = none := by
    intro k v hv
    rw [hview, Except.ok.injEq] at hv
    obtain ⟨hT, ht⟩ := bind_meaning_eq_some.mp hv
    exact ⟨ht, (h.plain k v hT).resolve_left ht⟩
  rw [rebuildLiveState_eq, flatMap_levelsOf] at hrun
  have hdone := foldlM_rebuildTable hrun
  have hrew : ∀ l ∈ liveOf r.oldVlog [] (scanEntries (scanSources dir.tables ms)), Rewritable l :=
    fun l hl => h.wellFormed.rewritable h.fits hplain hl
  have hwf := hdone.wellFormed h.wellFormed (hdone.distinctNames hnames)
  -- every live value can be stored again, so the new log is built of whole records
  obtain ⟨⟨as, hsegs⟩, -⟩ := hdone.clean hrew _ (clean_open_empty hnew)
  refine ⟨hms, hopened.ok.records, hreads, hsegs.whole, hwf, fun k => ?_⟩
  cases hsel : lookupLevels Table.find (levelsOf (outputFiles r.rebuilt.flushed)
      (outputMetas r.rebuilt.flushed)) k with
  | some stored =>
    obtain ⟨v, hv, hc⟩ := hdone.carries h.wellFormed hrew
      ((lookupLevels_outputs hwf hdone.keys_nodup).mp hsel)
    rw [hview, Except.ok.injEq] at hv
    obtain ⟨hT, ht⟩ := bind_meaning_eq_some.mp hv
    dsimp only at hT ⊢
    rw [hT, Option.filter_some_pos (by simpa using ht)]
    exact .some hc
  | none =>
    -- a live key has an output, so a key without one has a tombstone or no record
    have hnone : (T k).filter (· ≠ tombstoneValue) = none := by
      by_contra hne
      obtain ⟨v, hv⟩ := Option.ne_none_iff_exists'.mp hne
      obtain ⟨hT, ht⟩ := Option.filter_eq_some_iff.mp hv
      have hlive := hview k
      rw [bind_meaning_eq_some.mpr ⟨hT, by simpa using ht⟩] at hlive
      obtain ⟨stored, hmem⟩ := hdone.exists_output h.wellFormed hlive
      rw [(lookupLevels_outputs hwf hdone.keys_nodup).mpr hmem] at hsel
      exact Option.some_ne_none _ hsel
    dsimp only
    rw [hnone]
    exact .none

/-! ## Stopping in the middle -/

/-- The names of the new files are new to the directory. -/
structure FreshFiles (dir : Dir) (r : RewriteState) : Prop where
  tables : ∀ o ∈ r.rebuilt.flushed, dir.tables.get o.info.filename = none
  segments : ∀ e ∈ r.rebuilt.log.files.entries, r.oldVlog.files.get e.1 = none

variable {listing : List TempFile} {done rest : List GcStep}

theorem mem_tempFiles_table {name : Bytes} {entries : OrdMap Bytes Bytes} :
    .table name entries ∈ r.tempFiles ↔
      ∃ o ∈ r.rebuilt.flushed, o.info.filename = name ∧ o.entries = entries := by
  simp [RewriteState.tempFiles]

theorem mem_tempFiles_segment {id : UInt64} {data : Bytes} :
    .segment id data ∈ r.tempFiles ↔ (id, data) ∈ r.rebuilt.log.files.entries := by
  simp [RewriteState.tempFiles]

/-- A table that a step puts in place is an output, and one that it removes is an old table. -/
theorem tableOp_cases (hlist : listing.Perm r.tempFiles)
    (hsteps : replaceRewrittenFiles r listing = done ++ rest) {name : Bytes}
    {o : Option (OrdMap Bytes Bytes)} (ho : (name, o) ∈ done.filterMap GcStep.tableOp) :
    (∃ out ∈ r.rebuilt.flushed, out.info.filename = name ∧ o = some out.entries) ∨
      o = none ∧ .removeTable name ∈ done ∧ ∃ m ∈ r.oldTables, m.filename = name := by
  obtain ⟨s, hs, hop⟩ := List.mem_filterMap.mp ho
  have hmem : s ∈ replaceRewrittenFiles r listing := hsteps ▸ List.mem_append_left _ hs
  -- only renames put tables in place; only removals of old tables take them away
  cases s with
  | rename f =>
    cases f with
    | segment id data => simp [GcStep.tableOp] at hop
    | table name' entries =>
      simp only [GcStep.tableOp, Option.some.injEq, Prod.mk.injEq] at hop
      obtain ⟨rfl, rfl⟩ := hop
      have hin : .table name' entries ∈ listing := by
        simpa [replaceRewrittenFiles, removals] using hmem
      obtain ⟨out, hout, hname, rfl⟩ := mem_tempFiles_table.mp (hlist.mem_iff.mp hin)
      exact .inl ⟨out, hout, hname, rfl⟩
  | removeTable name' =>
    simp only [GcStep.tableOp, Option.some.injEq, Prod.mk.injEq] at hop
    obtain ⟨rfl, rfl⟩ := hop
    refine .inr ⟨rfl, hs, ?_⟩
    have hold : (∃ m ∈ r.oldTables, m.filename = name') ∧ name' ∉ tableNames listing := by
      simpa [replaceRewrittenFiles, removals] using hmem
    exact hold.1
  | _ => simp [GcStep.tableOp] at hop

/-- A segment that a step puts in place is one of the new log. -/
theorem segmentOp_cases (hlist : listing.Perm r.tempFiles)
    (hsteps : replaceRewrittenFiles r listing = done ++ rest) {id : UInt64} {o : Option Bytes}
    (ho : (id, o) ∈ done.filterMap GcStep.segmentOp) :
    (∃ data, (id, data) ∈ r.rebuilt.log.files.entries ∧ o = some data) ∨
      o = none ∧ .removeSegment id ∈ done ∧ ∃ f, r.oldVlog.files.get id = some f := by
  obtain ⟨s, hs, hop⟩ := List.mem_filterMap.mp ho
  have hmem : s ∈ replaceRewrittenFiles r listing := hsteps ▸ List.mem_append_left _ hs
  cases s with
  | rename f =>
    cases f with
    | table name entries => simp [GcStep.segmentOp] at hop
    | segment id' data =>
      simp only [GcStep.segmentOp, Option.some.injEq, Prod.mk.injEq] at hop
      obtain ⟨rfl, rfl⟩ := hop
      have hin : .segment id' data ∈ listing := by
        simpa [replaceRewrittenFiles, removals] using hmem
      exact .inl ⟨data, mem_tempFiles_segment.mp (hlist.mem_iff.mp hin), rfl⟩
  | removeSegment id' =>
    simp only [GcStep.segmentOp, Option.some.injEq, Prod.mk.injEq] at hop
    obtain ⟨rfl, rfl⟩ := hop
    refine .inr ⟨rfl, hs, ?_⟩
    have hold : (∃ f, (id', f) ∈ r.oldVlog.files.entries) ∧ id' ∉ segmentIDs listing := by
      simpa [replaceRewrittenFiles, removals] using hmem
    obtain ⟨f, hf⟩ := hold.1
    exact ⟨f, OrdMap.get_eq_some_iff.mpr hf⟩
  | _ => simp [GcStep.segmentOp] at hop

/-- Whatever was done, all segments are whole records. -/
theorem RewriteOK.stopped_whole (hok : RewriteOK dir ms T c r) (hlist : listing.Perm r.tempFiles)
    (hsteps : replaceRewrittenFiles r listing = done ++ rest) :
    WholeRecords (runGcSteps (r.start dir) done).segments := by
  intro e he
  have hget := OrdMap.get_eq_some_iff.mpr he
  rw [runGcSteps_segments, OrdMap.get_updateAll] at hget
  -- a segment no step touched is an old one, any other comes from the new log
  cases hlast : lastOf (done.filterMap GcStep.segmentOp) e.1 with
  | none =>
    rw [hlast, Option.getD_none] at hget
    exact hok.whole e (OrdMap.get_eq_some_iff.mp hget)
  | some o =>
    rw [hlast, Option.getD_some] at hget
    subst hget
    rcases segmentOp_cases hlist hsteps (mem_of_lastOf hlast) with ⟨data, hdata, hsome⟩ | ⟨hnone, -⟩
    · obtain rfl := Option.some.inj hsome
      exact hok.newWhole (e.1, e.2) hdata
    · simp at hnone

/-- An old table is not replaced by an output of its name. -/
theorem not_mem_tableNames
    (hfresh : ∀ o ∈ r.rebuilt.flushed, dir.tables.get o.info.filename = none)
    (hlist : listing.Perm r.tempFiles) {name : Bytes} (hold : (dir.tables.get name).isSome) :
    name ∉ tableNames listing := by
  intro hmem
  obtain ⟨f, hf, hsome⟩ := List.mem_filterMap.mp hmem
  cases f with
  | segment id data => simp at hsome
  | table name' entries =>
    obtain rfl := Option.some.inj hsome
    obtain ⟨o, ho, rfl, -⟩ := mem_tempFiles_table.mp (hlist.mem_iff.mp hf)
    rw [hfresh o ho] at hold
    simp at hold

/-- With fresh names every old file is removed. -/
theorem FreshFiles.removals_eq (hfresh : FreshFiles dir r) (hlist : listing.Perm r.tempFiles)
    (hpresent : ∀ m ∈ r.oldTables, (dir.tables.get m.filename).isSome) :
    removals r listing = (r.oldTables.map fun m => .removeTable m.filename) ++
      r.oldVlog.files.entries.map fun e => .removeSegment e.1 := by
  -- no new file has the name of an old one, so none is left out of the removals
  have htables : (r.oldTables.map TableMeta.filename).filter (· ∉ tableNames listing) =
      r.oldTables.map TableMeta.filename := by
    refine List.filter_eq_self.mpr fun name hname => ?_
    obtain ⟨m, hm, rfl⟩ := List.mem_map.mp hname
    exact decide_eq_true (not_mem_tableNames hfresh.tables hlist (hpresent m hm))
  have hsegs : (r.oldVlog.files.entries.map Prod.fst).filter (· ∉ segmentIDs listing) =
      r.oldVlog.files.entries.map Prod.fst := by
    refine List.filter_eq_self.mpr fun id hid => ?_
    obtain ⟨e, he, rfl⟩ := List.mem_map.mp hid
    simp only [decide_eq_true_eq]
    intro hmem
    obtain ⟨f, hf, hsome⟩ := List.mem_filterMap.mp hmem
    cases f with
    | table name entries => simp at hsome
    | segment id' data =>
      obtain rfl := Option.some.inj hsome
      have hnew := mem_tempFiles_segment.mp (hlist.mem_iff.mp hf)
      have := hfresh.segments _ hnew
      rw [OrdMap.get_eq_some_iff.mpr he] at this
      simp at this
  rw [removals, htables, hsegs, List.map_map, List.map_map]
  rfl

section Stopped

section Tables

variable (hfresh : ∀ o ∈ r.rebuilt.flushed, dir.tables.get o.info.filename = none)
  (hlist : listing.Perm r.tempFiles) (hsteps : replaceRewrittenFiles r listing = done ++ rest)

include hfresh hlist hsteps

/-- An old table stays as long as no table is removed. -/
theorem table_kept (hno : ∀ name, .removeTable name ∉ done) {name : Bytes}
    (hold : (dir.tables.get name).isSome) :
    (runGcSteps (r.start dir) done).tables.get name = dir.tables.get name := by
  rw [runGcSteps_tables, OrdMap.get_updateAll_of_not_mem fun o ho => ?_]
  · rfl
  · rcases tableOp_cases hlist hsteps ho with ⟨out, hout, rfl, -⟩ | ⟨-, hrem, -⟩
    · rw [hfresh out hout] at hold
      simp at hold
    · exact hno name hrem

/-- A removed table is gone. -/
theorem table_gone {name : Bytes} (hold : (dir.tables.get name).isSome)
    (hrem : .removeTable name ∈ done) :
    (runGcSteps (r.start dir) done).tables.get name = none := by
  rw [runGcSteps_tables]
  refine OrdMap.get_updateAll_of_mem (List.mem_filterMap.mpr ⟨_, hrem, rfl⟩) fun o ho => ?_
  rcases tableOp_cases hlist hsteps ho with ⟨out, hout, rfl, -⟩ | ⟨hnone, -⟩
  · rw [hfresh out hout] at hold
    simp at hold
  · exact hnone

/-- A renamed table is in place. -/
theorem table_new (hdistinct : DistinctNames (outputMetas r.rebuilt.flushed))
    (hpresent : ∀ m ∈ r.oldTables, (dir.tables.get m.filename).isSome) {out : GcOutput}
    (hout : out ∈ r.rebuilt.flushed)
    (hdone : .rename (.table out.info.filename out.entries) ∈ done) :
    (runGcSteps (r.start dir) done).tables.get out.info.filename = some out.entries := by
  rw [runGcSteps_tables]
  refine OrdMap.get_updateAll_of_mem (List.mem_filterMap.mpr ⟨_, hdone, rfl⟩) fun o ho => ?_
  -- two outputs of this name are one, and no old table has the name
  rcases tableOp_cases hlist hsteps ho with ⟨out', hout', hname, rfl⟩ | ⟨-, -, m, hm, hname⟩
  · have hget := get_outputFiles hdistinct hout'
    rw [hname, get_outputFiles hdistinct hout] at hget
    exact hget.symm
  · have := hpresent m hm
    rw [hname, hfresh out hout] at this
    simp at this

end Tables

variable (hfresh : FreshFiles dir r) (hlist : listing.Perm r.tempFiles)
  (hsteps : replaceRewrittenFiles r listing = done ++ rest)

include hfresh hlist hsteps

/-- An old segment stays as long as no segment is removed. -/
theorem FreshFiles.segment_kept (hno : ∀ id, .removeSegment id ∉ done) {id : UInt64} {f : Bytes}
    (hold : r.oldVlog.files.get id = some f) :
    (runGcSteps (r.start dir) done).segments.get id = some f := by
  rw [runGcSteps_segments, OrdMap.get_updateAll_of_not_mem fun o ho => ?_]
  · exact hold
  · rcases segmentOp_cases hlist hsteps ho with ⟨data, hdata, -⟩ | ⟨-, hrem, -⟩
    · rw [hfresh.segments _ hdata] at hold
      simp at hold
    · exact hno id hrem

/-- A renamed segment is in place. -/
theorem FreshFiles.segment_new {id : UInt64} {data : Bytes}
    (hnew : r.rebuilt.log.files.get id = some data)
    (hdone : .rename (.segment id data) ∈ done) :
    (runGcSteps (r.start dir) done).segments.get id = some data := by
  rw [runGcSteps_segments]
  refine OrdMap.get_updateAll_of_mem (List.mem_filterMap.mpr ⟨_, hdone, rfl⟩) fun o ho => ?_
  have hmem := OrdMap.get_eq_some_iff.mp hnew
  rcases segmentOp_cases hlist hsteps ho with ⟨data', hdata', rfl⟩ | ⟨-, -, f, hf⟩
  · rw [OrdMap.get_eq_some_iff.mpr hdata'] at hnew
    exact hnew
  · have := hfresh.segments _ hmem
    rw [hf] at this
    simp at this

/-- The old segments go after all old tables. -/
theorem FreshFiles.removeSegment_after
    (hpresent : ∀ m ∈ r.oldTables, (dir.tables.get m.filename).isSome) {id : UInt64}
    (hrem : .removeSegment id ∈ done) {m : TableMeta} (hm : m ∈ r.oldTables) :
    .removeTable m.filename ∈ done := by
  have hmem : .removeSegment id ∈ replaceRewrittenFiles r listing :=
    hsteps ▸ List.mem_append_left _ hrem
  rw [replaceRewrittenFiles, hfresh.removals_eq hlist hpresent] at hmem hsteps
  have hseg : (.removeSegment id : GcStep) ∈
      r.oldVlog.files.entries.map fun e => .removeSegment e.1 := by simpa using hmem
  obtain ⟨as, bs, hsplit, hnot⟩ := List.eq_append_cons_of_mem hseg
  -- the removals of segments come behind those of all tables
  have hcut : (listing.map GcStep.rename ++
      ((r.oldTables.map fun m => GcStep.removeTable m.filename) ++ as)) ++ GcStep.removeSegment id ::
      (bs ++ [GcStep.writeManifestTmp (orderTableMetaForManifest (outputMetas r.rebuilt.flushed)),
        GcStep.renameManifest (orderTableMetaForManifest (outputMetas r.rebuilt.flushed)),
        GcStep.removeTemp]) = done ++ rest := by
    rw [← hsteps, hsplit]
    simp
  obtain ⟨post, hdone⟩ := exists_of_mem_prefix hcut hrem (by simpa using hnot)
  rw [hdone]
  refine List.mem_append_left _ (List.mem_append_right _ (List.mem_append_left _ ?_))
  exact List.mem_map.mpr ⟨m, hm, rfl⟩

omit hfresh hlist in
/-- The manifest is renamed after all new files. -/
theorem renamed_of_commit {tables : List TableMeta} (hcommit : .renameManifest tables ∈ done)
    {f : TempFile} (hf : f ∈ listing) : .rename f ∈ done := by
  have hmem : .renameManifest tables ∈ replaceRewrittenFiles r listing :=
    hsteps ▸ List.mem_append_left _ hcommit
  obtain rfl : tables = orderTableMetaForManifest (outputMetas r.rebuilt.flushed) := by
    simpa [replaceRewrittenFiles, removals] using hmem
  -- the rename of the manifest is the last step but one, behind all renames of files
  have hcut : (listing.map GcStep.rename ++ (removals r listing ++
      [GcStep.writeManifestTmp (orderTableMetaForManifest (outputMetas r.rebuilt.flushed))])) ++
      GcStep.renameManifest (orderTableMetaForManifest (outputMetas r.rebuilt.flushed)) ::
      [GcStep.removeTemp] = done ++ rest := by
    rw [← hsteps]
    simp [replaceRewrittenFiles]
  obtain ⟨post, hdone⟩ := exists_of_mem_prefix hcut hcommit (by simp [removals])
  rw [hdone]
  exact List.mem_append_left _ (List.mem_append_left _ (List.mem_map_of_mem hf))

omit hfresh hlist in
theorem manifest_of_commit {tables : List TableMeta} (hcommit : .renameManifest tables ∈ done) :
    (runGcSteps (r.start dir) done).manifest =
      some (orderTableMetaForManifest (outputMetas r.rebuilt.flushed)) := by
  refine runGcSteps_manifest_eq (fun tables' h' => ?_) (.inr ⟨_, hcommit⟩)
  have hmem' : .renameManifest tables' ∈ replaceRewrittenFiles r listing :=
    hsteps ▸ List.mem_append_left _ h'
  simpa [replaceRewrittenFiles, removals] using hmem'

omit hfresh in
/-- After the rename of the manifest the outputs are in place. -/
theorem tables_of_commit
    (hfresh : ∀ o ∈ r.rebuilt.flushed, dir.tables.get o.info.filename = none)
    (hdistinct : DistinctNames (outputMetas r.rebuilt.flushed))
    (hpresent : ∀ m ∈ r.oldTables, (dir.tables.get m.filename).isSome) {tables : List TableMeta}
    (hcommit : .renameManifest tables ∈ done) {m : TableMeta}
    (hm : m ∈ outputMetas r.rebuilt.flushed) :
    (runGcSteps (r.start dir) done).tables.get m.filename =
      (outputFiles r.rebuilt.flushed).get m.filename := by
  obtain ⟨o, ho, rfl⟩ := List.mem_map.mp hm
  have hin : .table o.info.filename o.entries ∈ listing :=
    hlist.mem_iff.mpr (mem_tempFiles_table.mpr ⟨o, ho, rfl, rfl⟩)
  rw [get_outputFiles hdistinct ho]
  exact table_new hfresh hlist hsteps hdistinct hpresent ho
    (renamed_of_commit hsteps hcommit hin)

/-- A stop before any removal of a table leaves the old store. -/
theorem StoreDir.reads_kept (h : StoreDir dir ms T) (hok : RewriteOK dir ms T c r)
    (hno : ∀ name, .removeTable name ∉ done) {log : Log} (hlog : LogOK log)
    (hget : ∀ id f, (runGcSteps (r.start dir) done).segments.get id = some f →
      log.files.get id = some f) :
    Reads log (lookupLevels Table.find (levelsOf dir.tables ms)) T := by
  have hpresent : ∀ m ∈ r.oldTables, (dir.tables.get m.filename).isSome :=
    hok.oldTables_eq ▸ h.wellFormed.present
  by_cases hms : ms = []
  · -- without tables there is nothing to read
    subst hms
    intro k
    have hk := hok.reads k
    have hnone : lookupLevels Table.find (levelsOf dir.tables []) k = none := rfl
    rw [hnone] at hk ⊢
    cases hT : T k with
    | none => exact .none
    | some v =>
      rw [hT] at hk
      cases hk
  · obtain ⟨m, hm⟩ := List.exists_mem_of_ne_nil _ hms
    rw [← hok.oldTables_eq] at hm
    have hkept : ∀ id, .removeSegment id ∉ done := fun id hrem =>
      hno _ (hfresh.removeSegment_after hlist hsteps hpresent hrem hm)
    refine hok.reads.mono (extends_of_get hlog fun id f hf => ?_)
    exact hget id f (hfresh.segment_kept hlist hsteps hkept hf)

/-- A stop after the rename of the manifest leaves the new store. -/
theorem StoreDir.reads_new (h : StoreDir dir ms T) (hok : RewriteOK dir ms T c r)
    {tables : List TableMeta} (hcommit : .renameManifest tables ∈ done) :
    WellFormed (runGcSteps (r.start dir) done).tables
        (orderTableMetaForManifest (outputMetas r.rebuilt.flushed)) ∧
      ∀ {log : Log}, LogOK log → (∀ id f, (runGcSteps (r.start dir) done).segments.get id = some f →
        log.files.get id = some f) →
      Reads log (lookupLevels Table.find (levelsOf (runGcSteps (r.start dir) done).tables
        (orderTableMetaForManifest (outputMetas r.rebuilt.flushed))))
        fun k => (T k).filter (· ≠ tombstoneValue) := by
  have hpresent : ∀ m ∈ r.oldTables, (dir.tables.get m.filename).isSome :=
    hok.oldTables_eq ▸ h.wellFormed.present
  have hdistinct := hok.wellFormed.distinct
  have hperm := orderTableMetaForManifest_perm hdistinct
  -- the outputs are all in place by then
  have htables : ∀ m ∈ outputMetas r.rebuilt.flushed,
      (runGcSteps (r.start dir) done).tables.get m.filename =
        (outputFiles r.rebuilt.flushed).get m.filename := fun m hm =>
    tables_of_commit hlist hsteps hfresh.tables hdistinct hpresent hcommit hm
  refine ⟨(hok.wellFormed.congr htables).perm hperm, fun {log} hlog hget => ?_⟩
  rw [levelsOf_perm hdistinct hperm, levelsOf_congr htables]
  refine hok.newReads.mono (extends_of_get hlog fun id f hf => hget id f ?_)
  -- and so are the segments their references are into
  have hin : .segment id f ∈ listing :=
    hlist.mem_iff.mpr (mem_tempFiles_segment.mpr (OrdMap.get_eq_some_iff.mp hf))
  exact hfresh.segment_new hlist hsteps hf (renamed_of_commit hsteps hcommit hin)

/-- **A stopped value-log GC can be opened with the same contents exactly if no old table was removed
yet or the manifest was already renamed.** -/
theorem stopped_gc_recovers_iff (h : StoreDir dir ms T)
    (hnames : ∀ i j name, c.flush i = some name → c.flush j = some name → i = j)
    (hr : rewriteLive dir opts c oldNow newNow = .ok r) {opts₀ : Options} {clock₀ : OpenClock}
    (hclock₀ : ClockOK dir clock₀) {db₀ : DB} {d₀ : Dir}
    (hbefore : openDB dir opts₀ clock₀ = .ok (db₀, d₀)) {opts' : Options} {clock : OpenClock}
    (hclock : ClockOK (runGcSteps (r.start dir) done) clock) :
    (∃ db d, openDB (runGcSteps (r.start dir) done) opts' clock = .ok (db, d) ∧
        ∀ k, db.view k = db₀.view k) ↔
      (∀ name, .removeTable name ∉ done) ∨ ∃ tables, .renameManifest tables ∈ done := by
  have hok := h.rewriteOK hnames hr
  have hpresent : ∀ m ∈ r.oldTables, (dir.tables.get m.filename).isSome :=
    hok.oldTables_eq ▸ h.wellFormed.present
  have hwals : (runGcSteps (r.start dir) done).wals = dir.wals := runGcSteps_wals _ _
  have hwhole : WholeRecords (runGcSteps (r.start dir) done).segments :=
    hok.stopped_whole hlist hsteps
  obtain ⟨db, d, hopen, hview₀⟩ := openDB_of_whole h.manifest_eq h.wellFormed h.segments h.wals
    opts₀ hclock₀ fun hopen _ _ => h.reads hopen
  obtain ⟨rfl, rfl⟩ := Prod.mk.inj (Except.ok.inj (hopen.symm.trans hbefore))
  by_cases hcommit : ∃ tables, .renameManifest tables ∈ done
  · obtain ⟨tables, hcommit'⟩ := hcommit
    obtain ⟨hwf, hreads⟩ := h.reads_new hfresh hlist hsteps hok hcommit'
    refine ⟨fun _ => .inr ⟨tables, hcommit'⟩, fun _ => ?_⟩
    obtain ⟨db', d', hopen', hview⟩ := openDB_of_whole (manifest_of_commit hsteps hcommit') hwf hwhole
      (hwals ▸ h.wals) opts' hclock fun _ hlog hget => hreads hlog hget
    refine ⟨db', d', hopen', fun k => ?_⟩
    rw [hview, hview₀, hwals]
    simp only [overlay]
    cases lastOf (recordsOf dir.wals (names dir.wals)) k with
    | some v => rfl
    | none => exact congrArg Except.ok (filter_bind_meaning (T k))
  have hmanifest : (runGcSteps (r.start dir) done).manifest = some ms := by
    rw [runGcSteps_manifest fun tables hmem => hcommit ⟨tables, hmem⟩, RewriteState.start,
      hok.oldTables_eq]
  by_cases hno : ∀ name, .removeTable name ∉ done
  · have htables : ∀ m ∈ ms, (runGcSteps (r.start dir) done).tables.get m.filename =
        dir.tables.get m.filename := fun m hm =>
      table_kept hfresh.tables hlist hsteps hno (h.wellFormed.present m hm)
    refine ⟨fun _ => .inl hno, fun _ => ?_⟩
    obtain ⟨db', d', hopen', hview⟩ := openDB_of_whole hmanifest (h.wellFormed.congr htables) hwhole
      (hwals ▸ h.wals) opts' (T := T) hclock fun _ hlog hget => by
        rw [levelsOf_congr htables]
        exact h.reads_kept hfresh hlist hsteps hok hno hlog hget
    exact ⟨db', d', hopen', fun k => by rw [hview, hview₀, hwals]⟩
  · -- the manifest still names the removed table
    refine ⟨?_, fun hcond => absurd hcond (not_or.mpr ⟨hno, hcommit⟩)⟩
    rintro ⟨db', d', hopen', -⟩
    push Not at hno
    obtain ⟨name, hrem⟩ := hno
    obtain ⟨m, hm, rfl⟩ : ∃ m ∈ r.oldTables, m.filename = name := by
      rcases tableOp_cases hlist hsteps (List.mem_filterMap.mpr ⟨_, hrem, rfl⟩) with
        ⟨_, _, _, hsome⟩ | ⟨-, -, hm⟩
      · simp at hsome
      · exact hm
    have hgone := table_gone hfresh.tables hlist hsteps (hpresent m hm) hrem
    exact absurd hopen'
      (openDB_ne_ok_of_missing hmanifest (hok.oldTables_eq ▸ hm) hgone opts' clock db' d')

end Stopped

end Rewrite

/-- The sample store as a directory. -/
def sampleDir : Dir := ⟨sampleFiles, OrdMap.empty, OrdMap.empty, some sampleMetas⟩

/-- Readings for opening it. -/
def sampleClock : OpenClock := ⟨9, [], 10 ^ 18, 0⟩

theorem sampleDir_storeDir :
    StoreDir sampleDir sampleMetas (lookupLevels Table.find (levelsOf sampleFiles sampleMetas)) where
  manifest_eq := rfl
  wellFormed := sampleFiles_wellFormed
  fits := by
    unfold LengthsFit
    decide
  segments := by simp [WholeRecords, sampleDir, OrdMap.empty]
  reads := by
    intro limit now log _ k
    show Option.Rel _ (lookupLevels Table.find (levelsOf sampleFiles sampleMetas) k) _
    -- the values of the sample are inline, so nothing depends on the log
    cases hsel : lookupLevels Table.find (levelsOf sampleFiles sampleMetas) k with
    | none => exact .none
    | some stored =>
      rcases sample_select hsel with rfl | ⟨hd, ht⟩
      · exact .some .tombstone
      · exact .some (.inline ht hd)
  plain := by
    intro k v hv
    exact (sample_select hv).imp_right And.left
  wals := ⟨by simp [sampleDir, OrdMap.empty], by simp [sampleDir, OrdMap.empty],
    by simp [sampleDir, OrdMap.empty]⟩

theorem sampleClock_ok {dir : Dir} (h : dir.wals = OrdMap.empty) : ClockOK dir sampleClock where
  segment_pos := by decide
  wal_digits := by norm_num [NineteenDigits, sampleClock]
  wal_later := by simp [h, names, OrdMap.empty]
  appends_later := by simp [sampleClock]
  appends_sorted := List.Pairwise.nil
  appends_enough := by simp [h, names, recordsOf, OrdMap.empty]

/-- The rewriting of the sample moves one value to the log; its files are new. -/
theorem sample_rewriteLive : ∃ r, rewriteLive sampleDir ⟨0, 0, 2⟩ sampleChoices 1 5 = .ok r ∧
    FreshFiles sampleDir r ∧ openDB (runGcSteps (r.start sampleDir)
      ((replaceRewrittenFiles r r.tempFiles).take 4)) ⟨0, 0, 2⟩ sampleClock =
        .error .missingTable := by
  refine ⟨_, rfl, ⟨?_, ?_⟩, ?_⟩
  · decide +kernel
  · decide +kernel
  · rfl

theorem stopped_gc_recovers_iff_sample : ∃ r db₀ d₀,
    rewriteLive sampleDir ⟨0, 0, 2⟩ sampleChoices 1 5 = .ok r ∧
      openDB sampleDir ⟨0, 0, 2⟩ sampleClock = .ok (db₀, d₀) ∧
      ∀ n, (∃ db d, openDB (runGcSteps (r.start sampleDir)
          ((replaceRewrittenFiles r r.tempFiles).take n)) ⟨0, 0, 2⟩ sampleClock = .ok (db, d) ∧
          ∀ k, db.view k = db₀.view k) ↔
        (∀ name, .removeTable name ∉ (replaceRewrittenFiles r r.tempFiles).take n) ∨
          ∃ tables, .renameManifest tables ∈ (replaceRewrittenFiles r r.tempFiles).take n := by
  obtain ⟨r, hr, hfresh, -⟩ := sample_rewriteLive
  refine ⟨r, _, _, hr, rfl, fun n => ?_⟩
  refine stopped_gc_recovers_iff hfresh (List.Perm.refl _) (List.take_append_drop n _).symm
    sampleDir_storeDir (fun i j name hi hj => ?_) hr (sampleClock_ok rfl) rfl
    (sampleClock_ok (runGcSteps_wals _ _))
  have hij := sstableID_injective ((Option.some.inj hi).trans (Option.some.inj hj).symm)
  omega

/-- **A stop between the first removal and the manifest rename makes the directory unopenable**: the
manifest still names the removed table. -/
theorem stopped_gc_unopenable : ∃ r, rewriteLive sampleDir ⟨0, 0, 2⟩ sampleChoices 1 5 = .ok r ∧
    (∃ db d, openDB sampleDir ⟨0, 0, 2⟩ sampleClock = .ok (db, d)) ∧
    (∃ rest, replaceRewrittenFiles r r.tempFiles =
      (replaceRewrittenFiles r r.tempFiles).take 4 ++ rest) ∧
    openDB (runGcSteps (r.start sampleDir) ((replaceRewrittenFiles r r.tempFiles).take 4))
      ⟨0, 0, 2⟩ sampleClock = .error .missingTable := by
  obtain ⟨r, hr, -, hfail⟩ := sample_rewriteLive
  exact ⟨r, hr, ⟨_, _, rfl⟩, ⟨_, (List.take_append_drop 4 _).symm⟩, hfail⟩

end Seol
