import Seol.Common.Transition
import Seol.Db.Recovery

/-!
# The running store refines the abstract store

Every run of the step relation whose steps meet their conditions shows a trace of the abstract store:
no reopening fails, every reopened view and every `Get` is that of the history, and a stop keeps all
acknowledged writes and some prefix of the others. The conditions are those of `Admissible`; what is
lost without them is shown by the runs at the end.
-/

namespace Seol

open Common Vlog

/-! ## Live reads -/

theorem findSome?_congr {α β : Type*} {f f' : α → Option β} {l : List α}
    (h : ∀ a ∈ l, f a = f' a) : l.findSome? f = l.findSome? f' := by
  induction l with
  | nil => rfl
  | cons a l ih =>
    obtain ⟨ha, hl⟩ := List.forall_mem_cons.mp h
    rw [List.findSome?_cons, List.findSome?_cons, ha, ih hl]

/-- Two readings that agree on the tables of the levels select the same entry. -/
theorem lookupLevels_congr {read read' : Table → Bytes → Option Bytes} {levels : List LevelState}
    {k : Bytes} (h : ∀ t ∈ levels.flatMap LevelState.tables, read t k = read' t k) :
    lookupLevels read levels k = lookupLevels read' levels k := by
  have hone : ∀ l ∈ levels, lookupLevel read l k = lookupLevel read' l k := by
    intro l hl
    have hin : ∀ t ∈ l.tables, read t k = read' t k :=
      fun t ht => h t (List.mem_flatMap.mpr ⟨l, hl, ht⟩)
    unfold lookupLevel
    -- level 0 asks all its tables, a level below the one whose range has the key
    split_ifs
    · exact findSome?_congr hin
    · refine congrArg _ (funext fun idx => ?_)
      cases ht : l.tables[idx]? with
      | none => rfl
      | some t => exact hin t (List.mem_of_getElem? ht)
  exact findSome?_congr hone

/-- `Table.Get` answers like the finite map on a table without empty values. -/
theorem Table.get_eq_find {t : Table} (h : ∀ e ∈ t.entries.entries, e.2 ≠ []) (k : Bytes) :
    t.get k = t.find k := by
  unfold Table.get
  cases hf : t.find k with
  | none => rfl
  | some v =>
    have hv : v ≠ [] := h (k, v) (OrdMap.get_eq_some_iff.mp hf)
    simp [Option.filter, hv]

/-- The immutable memtables, newest first, answer like the records of all of them. -/
theorem reads_immutables {log : Log} {heap : ℕ → Memtable} {imms : List Immutable}
    {records : Immutable → List (Bytes × Bytes)}
    (h : ∀ imm ∈ imms, Holds log (heap imm.table) (records imm)) :
    Reads log (fun k => imms.reverse.findSome? fun imm => (heap imm.table).get k)
      (lastOf (imms.map records).flatten) := by
  -- the newest memtable is the last of the list and is asked first
  induction imms using List.reverseRecOn with
  | nil => exact reads_none log
  | append_singleton imms imm ih =>
    have hrest := ih fun i hi => h i (List.mem_append_left _ hi)
    have hlast := (h imm (by simp)).reads
    intro k
    have hsplit : (imms ++ [imm]).reverse.findSome? (fun imm => (heap imm.table).get k) =
        ((heap imm.table).get k).or (imms.reverse.findSome? fun imm => (heap imm.table).get k) := by
      rw [List.reverse_append, List.reverse_singleton, List.singleton_append, List.findSome?_cons]
      cases (heap imm.table).get k <;> rfl
    rw [List.map_append, List.flatten_append, lastOf_append]
    simp only [hsplit, List.map_cons, List.map_nil, List.flatten_cons, List.flatten_nil,
      List.append_nil]
    exact optionRel_or (hlast k) (hrest k)

namespace Live

variable {gets : Prop} {dir : Dir} {p : Proc} {s : Spec} {g : Ghost}

/-- The active memtable answers like its records. -/
theorem reads_active (h : Live gets dir p s g) :
    Reads p.db.valueLog (fun k => p.db.memtable.bind fun a => (p.db.heap a).get k)
      (lastOf g.applied) := by
  rcases h.active with ⟨a, wal, hm, -, -, hactive⟩ | ⟨hm, -, -, happ, -⟩
  · rw [hm]
    exact hactive.holds.reads
  · rw [hm, happ]
    exact reads_none _

/-- **A live `Get`** answers by the history and the write that is applied but not yet answered. -/
theorem get_eq (h : Live gets dir p s g) (hgets : gets) (hopen : p.db.readState.closed = false)
    (k : Bytes) : p.db.get k = .ok (contents (s.history ++ p.writer.applied) k) := by
  -- the shortcut of `Get` for an empty value does not show: no stored entry is empty
  have hlevels : lookupLevels Table.get p.db.levels k = lookupLevels Table.find p.db.levels k := by
    refine lookupLevels_congr fun t ht => Table.get_eq_find ?_ k
    rw [h.tables.levels_eq] at ht
    obtain ⟨m, hm, rfl⟩ := mem_levelsOf_tables.mp ht
    exact fun e he => (h.tables.entries m hm e he).ne_nil hgets
  have himms := reads_immutables fun imm himm => (h.memtables imm himm).2
  have hreads := h.reads_active.overlay (himms.overlay h.tables.reads)
  -- active, immutable and tables are the generations of the view, in the order they are asked
  have hview : overlay (lastOf g.applied) (overlay
      (lastOf (p.db.immutable.map fun imm => recordsOf dir.wals imm.walPaths).flatten) g.table) =
      lastOf ((s.history ++ p.writer.applied).map Write.record) := by
    rw [← h.view_eq, h.immutable_eq, Generations.view, List.map_append, List.flatten_append,
      ← flatten_recordsOf, ← overlay_assoc, ← lastOf_append, List.append_assoc]
    rfl
  rw [hview] at hreads
  -- what is applied is a part of what was submitted
  have hplain : ∀ w ∈ s.history ++ p.writer.applied, w.Plain := by
    obtain ⟨n, hn⟩ := p.writer.applied_eq_take p.queue
    rw [← h.unacked_eq] at hn
    intro w hw
    rcases List.mem_append.mp hw with hw | hw
    · exact (h.good w (List.mem_append_left _ hw)).1
    · rw [hn] at hw
      exact (h.good w (List.mem_append_right _ (List.mem_of_mem_take hw))).1
  rw [contents_eq hplain, ← hreads.readStoredValue h.log.opened k]
  unfold DB.get DB.lookup
  rw [hopen, ReadState.select_eq, h.closing.published hopen, Option.or_assoc]
  simp only [DB.snapshotReadState, Bool.false_eq_true, if_false, hlevels]
  rfl

end Live

/-! ## Runs -/

/-- The steps of the system that meet a condition, as a relation over events. -/
def CondStep (opts : Options) (cond : World → Label → Prop) (w : World) (e : Event) (w' : World) :
    Prop := ∃ l, cond w l ∧ Step opts w l e w'

/-- The conditions on the steps of the whole system. -/
def World.Admissible (gets : Prop) : World → Label → Prop
  | .up dir p, l => Seol.Admissible gets dir p l
  | .down dir, .reopen clock => ClockOK dir clock
  | _, _ => True

/-- The invariant of the whole system against the abstract store. -/
def StoreInv (gets : Prop) : World → Spec → Prop
  | .up dir p, s => ∃ g, Live gets dir p s g
  | .down dir, s => s.unacked = [] ∧
      (dir = Dir.empty ∧ s.history = [] ∨ ∃ log T, Recoverable gets dir s.history log T)
  | .refused _, _ => False

theorem StoreInv.opens {gets : Prop} {dir : Dir} {s : Spec} (h : StoreInv gets (.down dir) s)
    (opts : Options) {clock : OpenClock} (hclock : ClockOK dir clock) :
    ∃ db dir' g, openDB dir opts clock = .ok (db, dir') ∧
      (∀ k, db.view k = .ok (contents s.history k)) ∧ Live gets dir' (Proc.start db) s g := by
  obtain ⟨history, unacked⟩ := s
  obtain ⟨rfl, ⟨rfl, rfl⟩ | ⟨log, T, hrec⟩⟩ := h
  · exact opens_empty gets opts hclock
  · exact hrec.opens opts hclock

/-- A flush takes a name that is not in the manifest. -/
def World.FreshFlush : World → Label → Prop
  | .up _ p, l => Seol.FreshFlush p l
  | _, _ => True

/-- **Every step that meets its condition is a step of the abstract store.** -/
theorem StoreInv.step {gets : Prop} {opts : Options} {w w' : World} {s : Spec} {l : Label} {e : Event}
    (h : StoreInv gets w s) (hadm : w.Admissible gets l) (hfresh : w.FreshFlush l)
    (hstep : Step opts w l e w') : ∃ s', SpecStep s e s' ∧ StoreInv gets w' s' := by
  cases hstep with
  | writer hstep =>
    obtain ⟨g, h⟩ := h
    obtain ⟨s', g', hs, hl⟩ := h.writerStep hstep hadm
    exact ⟨s', hs, g', hl⟩
  | flusher hstep =>
    obtain ⟨g, h⟩ := h
    obtain ⟨g', hl⟩ := h.flusherStep hstep hadm hfresh
    exact ⟨s, .internal, g', hl⟩
  | closer hstep =>
    obtain ⟨g, h⟩ := h
    obtain ⟨g', hl⟩ := h.closeStep hstep
    exact ⟨s, .internal, g', hl⟩
  | closeStorage hc hf hch =>
    obtain ⟨g, h⟩ := h
    obtain ⟨history, unacked⟩ := s
    obtain ⟨rfl, hrec⟩ := h.closeStorage hc
    exact ⟨_, .closed, rfl, Or.inr ⟨_, _, hrec⟩⟩
  | get k hopen =>
    -- the answer may include writes that are applied but not acknowledged
    obtain ⟨g, h⟩ := h
    obtain ⟨n, hn⟩ := Writer.applied_eq_take _ _
    rw [← h.unacked_eq] at hn
    exact ⟨s, .got n (by rw [h.get_eq hadm hopen, hn]), g, h⟩
  | stop =>
    obtain ⟨g, h⟩ := h
    obtain ⟨n, hrec⟩ := h.stop
    exact ⟨_, .stopped n, rfl, Or.inr ⟨_, _, hrec⟩⟩
  | stopInAppend done rest why wal file m hw hwal hfile =>
    obtain ⟨g, h⟩ := h
    obtain ⟨n, hrec⟩ := h.stopInAppend hw hwal hfile m
    exact ⟨_, .stopped n, rfl, Or.inr ⟨_, _, hrec⟩⟩
  | reopen clock hopen =>
    obtain ⟨db, dir', g, hopen', hview, hl⟩ := h.opens opts hadm
    obtain ⟨rfl, rfl⟩ : _ = db ∧ _ = dir' := by simpa [hopen] using hopen'
    obtain ⟨history, unacked⟩ := s
    obtain rfl : unacked = [] := h.1
    exact ⟨_, .reopened hview, g, hl⟩
  | reopenFail clock hopen =>
    -- what is recoverable opens, so the failure does not occur
    obtain ⟨db, dir', g, hopen', -, -⟩ := h.opens opts hadm
    simp [hopen] at hopen'

theorem storeInv_empty (gets : Prop) : StoreInv gets (.down Dir.empty) ⟨[], []⟩ :=
  ⟨rfl, Or.inl ⟨rfl, rfl⟩⟩

/-! ## Tables named by their timestamps

As long as tables come from flushes only, a later reading of the clock names a new file.
-/

/-- All tables of the manifest are named by their timestamps. -/
def World.Stamped : World → Prop
  | .up _ p => Seol.Stamped p.db.tableMeta
  | .down dir => ∀ ms, dir.manifest = some ms → Seol.Stamped ms
  | .refused _ => True

/-- The tables of the manifest on disk are those in memory. -/
theorem Live.stamped_manifest {gets : Prop} {dir : Dir} {p : Proc} {s : Spec} {g : Ghost}
    (h : Live gets dir p s g) (hs : Stamped p.db.tableMeta) {ms : List TableMeta}
    (hms : dir.manifest = some ms) : Stamped ms := by
  obtain ⟨ms', hms', hperm⟩ := h.tables.manifest_eq
  obtain rfl := Option.some.inj (hms.symm.trans hms')
  exact fun m hm => hs m (hperm.mem_iff.mp hm)

theorem Live.stamped_flusherStep {gets : Prop} {dir dir' : Dir} {p p' : Proc} {s : Spec} {g : Ghost}
    {l : Label} (h : Live gets dir p s g) (hs : Stamped p.db.tableMeta)
    (hstep : FlusherStep (dir, p) l (dir', p')) (hadm : Admissible gets dir p l) :
    Stamped p'.db.tableMeta := by
  cases hstep with
  | install imm t now db hf hi =>
    have hinstall := h.installing imm t hf
    obtain ⟨hne, -⟩ := h.memtables imm (h.mem_immutable_of_installing hf)
    -- the entry put in front carries the reading its file is named by
    obtain ⟨hwf, -⟩ := hinstall.install h.tables.wellFormed hne now
    rw [DB.installFlushedTable_eq h.tables.levels_eq hwf hinstall.file imm] at hi
    obtain rfl := (Prod.mk.inj hi).1
    intro m hm
    exact hinstall.stamped now hs m ((orderTableMetaForManifest_perm hwf.distinct).subset hm)
  | failInstall imm t now db hf hi =>
    obtain ⟨db', hi', -⟩ := h.install hf (hadm imm t hf) now
    simp [hi] at hi'
  | _ => exact hs

theorem World.Stamped.step {gets : Prop} {opts : Options} {w w' : World} {s : Spec} {l : Label}
    {e : Event} (hs : w.Stamped) (h : StoreInv gets w s) (hadm : w.Admissible gets l)
    (hstep : Step opts w l e w') : w'.Stamped := by
  cases hstep with
  | writer hstep => cases hstep <;> exact hs
  | flusher hstep =>
    obtain ⟨g, h⟩ := h
    exact h.stamped_flusherStep hs hstep hadm
  | closer hstep => cases hstep <;> exact hs
  | get k hopen => exact hs
  | closeStorage | stop | stopInAppend =>
    obtain ⟨g, h⟩ := h
    exact fun ms hms => h.stamped_manifest hs hms
  | @reopen dir dir' db clock hopen =>
    obtain ⟨levels, log, r, -, -, -, -, rfl, -⟩ := openDB_eq_ok.mp hopen
    -- the directory was new, or its manifest is the one the last session left
    obtain ⟨-, ⟨rfl, -⟩ | ⟨log', T, hrec⟩⟩ := h
    · intro m hm
      cases hm
    · obtain ⟨metas, htables⟩ := hrec.tables
      obtain ⟨ms, hms, hperm⟩ := htables.manifest_eq
      have hmanifest : openManifest dir clock.table = ms := by rw [openManifest, hms, Option.getD_some]
      rw [hmanifest]
      intro m hm
      have hdistinct := htables.wellFormed.distinct.perm hperm
      exact hs ms hms m ((orderTableMetaForManifest_perm hdistinct).subset hm)
  | reopenFail => trivial

/-- The invariant of a system that has only flushed. -/
def WorldInv (gets : Prop) (w : World) (s : Spec) : Prop := StoreInv gets w s ∧ w.Stamped

theorem WorldInv.opens {gets : Prop} {dir : Dir} {s : Spec} (h : WorldInv gets (.down dir) s)
    (opts : Options) {clock : OpenClock} (hclock : ClockOK dir clock) :
    ∃ db dir' g, openDB dir opts clock = .ok (db, dir') ∧
      (∀ k, db.view k = .ok (contents s.history k)) ∧ Live gets dir' (Proc.start db) s g :=
  h.1.opens opts hclock

theorem WorldInv.freshFlush {gets : Prop} {w : World} {s : Spec} {l : Label} (h : WorldInv gets w s)
    (hadm : w.Admissible gets l) : w.FreshFlush l := by
  cases w with
  | up dir p => exact h.2.freshFlush hadm
  | down dir => trivial
  | refused dir => trivial

theorem WorldInv.step {gets : Prop} {opts : Options} {w w' : World} {s : Spec} {l : Label} {e : Event}
    (h : WorldInv gets w s) (hadm : w.Admissible gets l) (hstep : Step opts w l e w') :
    ∃ s', SpecStep s e s' ∧ WorldInv gets w' s' := by
  obtain ⟨s', hs, hinv⟩ := h.1.step hadm (h.freshFlush hadm) hstep
  exact ⟨s', hs, hinv, h.2.step h.1 hadm hstep⟩

theorem worldInv_empty (gets : Prop) : WorldInv gets (.down Dir.empty) ⟨[], []⟩ :=
  ⟨storeInv_empty gets, fun ms hms => by simp [Dir.empty] at hms⟩

/-! ## Runs without a failing flush -/

namespace Live

variable {gets : Prop} {dir dir' : Dir} {p p' : Proc} {s : Spec} {g : Ghost} {l : Label}

/-- The writer keeps no error when the clock moves on. -/
theorem flushErr_writerStep (h : Live gets dir p s g) {e : Event}
    (hstep : WriterStep (dir, p) l e (dir', p')) (hadm : Admissible gets dir p l) :
    p'.db.flushErr = p.db.flushErr := by
  cases hstep with
  | storeFailFirst now w rest projected e log hw hstore =>
    obtain ⟨stored', log', hstore', -⟩ := h.store hw hadm 0 0
    simp [hstore] at hstore'
  | storeFail now done w rest projected e log hdone hw hstore =>
    obtain ⟨stored', log', hstore', -⟩ := h.store hw hadm 0 0
    simp [hstore] at hstore'
  | _ => rfl

/-- The flush loop keeps no error unless a flush fails. -/
theorem flushErr_flusherStep (h : Live gets dir p s g) (hstep : FlusherStep (dir, p) l (dir', p'))
    (hadm : Admissible gets dir p l) (hl : l ≠ .failFlush) : p'.db.flushErr = p.db.flushErr := by
  cases hstep with
  | failFlush imm hf => exact absurd rfl hl
  | install imm t now db hf hi =>
    have hi' := congrArg (fun r => r.1.flushErr) hi
    revert hi'
    unfold DB.installFlushedTable
    cases buildLevelState (p.db.updatedMeta t now) (t :: p.db.sstables) <;> exact Eq.symm
  | failInstall imm t now db hf hi =>
    obtain ⟨db', hi', -⟩ := h.install hf (hadm imm t hf) now
    simp [hi] at hi'
  | _ => rfl

/-- Without a kept error every table may be installed. -/
theorem olderApart (h : Live gets dir p s g) (herr : p.db.flushErr = none) {imm : Immutable} {t : Table}
    (hf : p.flusher = .installing imm t) : OlderApart p.db imm := by
  have hcurrent : p.flusher.current = [imm] := by rw [hf]; rfl
  obtain ⟨-, -, htake, -⟩ := h.split_immutable hcurrent
  rw [OlderApart, htake, h.stuck_nil herr]
  simp

end Live

/-- A running process that keeps no error. -/
def World.Unfailed : World → Prop
  | .up _ p => p.db.flushErr = none
  | _ => True

/-- The assumptions of crash recovery: the clock moves on, no flush fails, no submitted value has a
reserved shape, and every submitted write is `ok`. -/
def Assumed (ok : Write → Prop) : World → Label → Prop
  | .up _ _, .submit x => x.Plain ∧ ok x
  | .up _ _, .failFlush => False
  | .up _ _, .get _ => False
  | .up _ _, .install => True
  | w, l => w.Admissible False l

/-- A write whose lengths the WAL header can hold. -/
def Write.Fits (x : Write) : Prop := LengthsFit x.record

/-- A step under the assumptions meets the conditions of the refinement. -/
theorem Assumed.admissible {w : World} {s : Spec} {l : Label} (h : WorldInv False w s)
    (hunfailed : w.Unfailed) (ha : Assumed Write.Fits w l) : w.Admissible False l := by
  cases w with
  | down dir => cases l <;> exact ha
  | refused dir => cases l <;> exact ha
  | up dir p =>
    cases l with
    | submit x => exact ⟨ha.1, ha.1.sendable ha.2, False.elim⟩
    | failFlush => exact ha.elim
    | get k => exact ha.elim
    | install =>
      obtain ⟨⟨g, h⟩, -⟩ := h
      -- without a failed flush nothing is stuck, so nothing older shares a key
      exact fun imm t hf => h.olderApart hunfailed hf
    | _ => exact ha

theorem Assumed.unfailed {opts : Options} {w w' : World} {s : Spec} {l : Label} {e : Event}
    (h : WorldInv False w s) (hunfailed : w.Unfailed) (ha : Assumed Write.Fits w l)
    (hstep : Step opts w l e w') : w'.Unfailed := by
  have hadm := Assumed.admissible h hunfailed ha
  cases hstep with
  | writer hstep =>
    obtain ⟨⟨g, h⟩, -⟩ := h
    exact (h.flushErr_writerStep hstep hadm).trans hunfailed
  | flusher hstep =>
    obtain ⟨⟨g, h⟩, -⟩ := h
    -- `failFlush` is the one step that keeps an error, and the assumptions exclude it
    refine (h.flushErr_flusherStep hstep hadm ?_).trans hunfailed
    rintro rfl
    exact ha
  | closer hstep => cases hstep <;> exact hunfailed
  | get k hopen => exact hunfailed
  | closeStorage => trivial
  | stop => trivial
  | stopInAppend => trivial
  | reopen clock hopen =>
    obtain ⟨levels, log, r, -, -, -, -, rfl, -⟩ := openDB_eq_ok.mp hopen
    rfl
  | reopenFail => trivial

/-! ## A write on its way -/

/-- A store that is open, has kept no error and is doing nothing. -/
structure Idle (p : Proc) (a : ℕ) (wal : Bytes) : Prop where
  opened : p.db.readState.closed = false
  unfailed : p.db.flushErr = none
  queue_eq : p.queue = []
  writer_eq : p.writer = .idle
  memtable_eq : p.db.memtable = some a
  activeWal_eq : p.db.activeWal = some wal

section Write

variable {opts : Options} {cond : World → Label → Prop} {dir : Dir} {p : Proc} {a : ℕ}
  {wal file : Bytes} {x : Write} {stored : Bytes} {log : Log} {now : UInt64}

/-- The run of one write up to the moment it is in the WAL; `why` is the end of its batch. -/
theorem Idle.logged (h : Idle p a wal) (hfile : dir.wals.get wal = some file)
    (hother : ∀ dir p, cond (.up dir p) .other) (hsubmit : cond (.up dir p) (.submit x))
    (hstored : ∀ dir p', p'.db = p.db → cond (.up dir p') (.store now))
    (hstore : storeValueForLSM p.db.valueLog p.db.valueThreshold x.key x.raw now none =
      (.ok stored, log))
    {why : PrepareEnd} (hwhy : Writer.stored p.db.memtableMaxBytes [(x, stored)] []
      (p.db.memtableBytes + memtableEntrySize x.key x.raw) = .prepared [(x, stored)] [] why) :
    Run (CondStep opts cond) (.up dir p) [.submitted x, .internal, .internal, .internal, .internal]
      (.up { dir with
          segments := log.files
          wals := dir.wals.insert wal (appendBatch file [x.record]) }
        { p with
          db := { p.db with valueLog := log }
          queue := []
          writer := .applying [(x, stored)] [] why }) := by
  -- submitted, collected, prepared, stored and logged: one step each
  have h₁ : CondStep opts cond (.up dir p) (.submitted x) (.up dir { p with queue := [x] }) := by
    refine ⟨.submit x, hsubmit, ?_⟩
    have hstep : Step opts (.up dir p) (.submit x) (.submitted x)
        (.up dir { p with queue := p.queue ++ [x] }) :=
      .writer (.submit x h.opened h.unfailed (by simp [h.queue_eq, batchCap]))
    rwa [h.queue_eq] at hstep
  have h₂ : CondStep opts cond (.up dir { p with queue := [x] }) .internal
      (.up dir { p with queue := [], writer := .loop [x] }) :=
    ⟨.other, hother _ _, .writer (.collect [x] [] h.writer_eq rfl (by simp) (by simp [batchCap]))⟩
  have h₃ : CondStep opts cond (.up dir { p with queue := [], writer := .loop [x] }) .internal
      (.up dir { p with queue := [], writer := .preparing [] [x] p.db.memtableBytes }) :=
    ⟨.other, hother _ _, .writer (.prepare [x] rfl h.unfailed (by simp [h.activeWal_eq])
      (by simp [h.memtable_eq]))⟩
  have h₄ : CondStep opts cond
      (.up dir { p with queue := [], writer := .preparing [] [x] p.db.memtableBytes }) .internal
      (.up { dir with segments := log.files } { p with
        db := { p.db with valueLog := log }
        queue := []
        writer := .prepared [(x, stored)] [] why }) := by
    refine ⟨.store now, hstored _ _ rfl, ?_⟩
    rw [← hwhy]
    exact .writer (.store now [] x [] p.db.memtableBytes stored log rfl hstore)
  have h₅ : CondStep opts cond
      (.up { dir with segments := log.files } { p with
        db := { p.db with valueLog := log }
        queue := []
        writer := .prepared [(x, stored)] [] why }) .internal
      (.up { dir with
          segments := log.files
          wals := dir.wals.insert wal (appendBatch file [x.record]) }
        { p with
          db := { p.db with valueLog := log }
          queue := []
          writer := .applying [(x, stored)] [] why }) :=
    ⟨.other, hother _ _, .writer (.append [(x, stored)] [] why wal file rfl h.activeWal_eq hfile)⟩
  exact .head h₁ (.head h₂ (.head h₃ (.head h₄ (.single h₅))))

/-- **A write that leaves the memtable below its limit is acknowledged** and the store idle again. -/
theorem Idle.write (opts : Options) (cond : World → Label → Prop) (dir : Dir) (h : Idle p a wal)
    (hfile : dir.wals.get wal = some file)
    (hother : ∀ dir p, cond (.up dir p) .other) (hsubmit : cond (.up dir p) (.submit x))
    (hstored : ∀ dir p', p'.db = p.db → cond (.up dir p') (.store now))
    (hstore : storeValueForLSM p.db.valueLog p.db.valueThreshold x.key x.raw now none =
      (.ok stored, log))
    (hbelow : p.db.memtableBytes + memtableEntrySize x.key x.raw < p.db.memtableMaxBytes) :
    Run (CondStep opts cond) (.up dir p)
      [.submitted x, .internal, .internal, .internal, .internal, .acked x, .internal]
      (.up { dir with
          segments := log.files
          wals := dir.wals.insert wal (appendBatch file [x.record]) }
        { p with
          db := DB.applyWrite { p.db with valueLog := log } a x stored
          queue := []
          writer := .idle }) := by
  have hwhy : Writer.stored p.db.memtableMaxBytes [(x, stored)] []
      (p.db.memtableBytes + memtableEntrySize x.key x.raw) = .prepared [(x, stored)] [] .exhausted := by
    -- below the limit, so the batch ends because it is exhausted
    unfold Writer.stored
    rw [if_neg (not_le.mpr hbelow)]
    rfl
  refine (h.logged hfile hother hsubmit hstored hstore hwhy).trans (.head ⟨.other, hother _ _, .writer
    (.apply x stored [] [] .exhausted a rfl h.memtable_eq (by simp))⟩ (.single ?_))
  exact ⟨.other, hother _ _, .writer (.batchDone [] rfl)⟩

/-- **A write that fills the memtable** rotates it and is acknowledged once the flush loop's channel has
taken the full one. -/
theorem Idle.writeCrossing (opts : Options) (cond : World → Label → Prop) (dir : Dir) (now : UInt64)
    (walTime : ℕ) (h : Idle p a wal) (hfile : dir.wals.get wal = some file)
    (hother : ∀ dir p, cond (.up dir p) .other) (hsubmit : cond (.up dir p) (.submit x))
    (hstored : ∀ dir p', p'.db = p.db → cond (.up dir p') (.store now))
    (hstore : storeValueForLSM p.db.valueLog p.db.valueThreshold x.key x.raw now none =
      (.ok stored, log))
    (hfull : p.db.memtableMaxBytes ≤ p.db.memtableBytes + memtableEntrySize x.key x.raw)
    (hrotate : ∀ p', cond (.up { dir with
      segments := log.files
      wals := dir.wals.insert wal (appendBatch file [x.record]) } p') (.rotate walTime))
    (hnew : walID walTime ≠ wal) (hcreate : dir.wals.get (walID walTime) = none)
    (hch : p.flushCh.length < flushCap) :
    Run (CondStep opts cond) (.up dir p)
      [.submitted x, .internal, .internal, .internal, .internal, .internal, .internal, .acked x]
      (.up { dir with
          segments := log.files
          wals := (dir.wals.insert wal (appendBatch file [x.record])).insert (walID walTime) [] }
        { p with
          db := DB.rotateMemtable (DB.applyWrite { p.db with valueLog := log } a x stored) a
            (walID walTime)
          queue := []
          flushCh := p.flushCh ++ [p.db.toFlush a]
          writer := .idle }) := by
  have hwhy : Writer.stored p.db.memtableMaxBytes [(x, stored)] []
      (p.db.memtableBytes + memtableEntrySize x.key x.raw) = .prepared [(x, stored)] [] .crossing := by
    unfold Writer.stored
    rw [if_pos hfull]
  -- the append did not create the file the rotation is about to create
  have hfree : (dir.wals.insert wal (appendBatch file [x.record])).get (walID walTime) = none := by
    rw [OrdMap.get_insert, if_neg hnew.symm, hcreate]
  refine (h.logged hfile hother hsubmit hstored hstore hwhy).trans (.head ⟨.other, hother _ _, .writer
    (.applyCrossing x stored [] a rfl h.memtable_eq)⟩ (.head ⟨.rotate walTime, hrotate _, .writer
    (.rotate walTime x [] a rfl h.memtable_eq hfree)⟩ (.single ⟨.other, hother _ _, ?_⟩)))
  exact .writer (.send (p.db.toFlush a) x [] rfl hch)

end Write

/-- The first append to an empty log leaves one segment. -/
theorem storeValueForLSM_openEmpty (segmentMaxBytes : ℕ) (now now' : UInt64) (valueThreshold : ℕ)
    {k v : Bytes} (hsize : recordHeaderSize + (k.length + v.length) < 2 ^ 63) :
    ∃ stored log f, storeValueForLSM (Log.openEmpty segmentMaxBytes now) valueThreshold k v now' none =
        (.ok stored, log) ∧ log.files = OrdMap.empty.insert (nextSegmentID 0 now) f := by
  unfold storeValueForLSM
  by_cases ht : isTombstoneValue v = true
  · rw [if_pos ht]
    exact ⟨_, _, _, rfl, rfl⟩
  · rw [if_neg ht]
    by_cases hle : v.length ≤ valueThreshold
    · rw [if_pos hle]
      exact ⟨_, _, _, rfl, rfl⟩
    -- nothing is written to the segment yet, so the append does not rotate it
    · have happend : (Log.openEmpty segmentMaxBytes now).append k v now' none =
          (Log.openEmpty segmentMaxBytes now).writeRecord k v none := by
        rw [Log.append, if_neg (by omega), if_neg (by simp [Log.openEmpty]),
          if_neg (by simp [Log.openEmpty])]
      have htwice : ∀ f, ((Log.openEmpty segmentMaxBytes now).files.insert
          (Log.openEmpty segmentMaxBytes now).active.id f) =
          OrdMap.empty.insert (nextSegmentID 0 now) f := by
        intro f
        exact OrdMap.insert_insert _ _ _ _
      have hfit : ¬ 2 ^ 63 ≤ (Log.openEmpty segmentMaxBytes now).active.size +
          (encodeRecord k v).length := by
        rw [length_encodeRecord]
        simp only [Log.openEmpty]
        omega
      rw [if_neg hle, happend]
      simp only [Log.writeRecord, if_neg hfit]
      exact ⟨_, _, _, rfl, htwice _⟩

/-- The clock readings of a first opening. -/
def firstClock : OpenClock := ⟨1, [], 10 ^ 18, 0⟩

theorem firstClock_ok : ClockOK Dir.empty firstClock :=
  ⟨by decide, by show NineteenDigits (10 ^ 18); unfold NineteenDigits; omega,
    by simp [names, Dir.empty, OrdMap.empty], by simp [firstClock], by simp [firstClock],
    by simp [names, Dir.empty, OrdMap.empty]⟩

/-- The clock readings of a second opening, with one for a record to replay. -/
def secondClock : OpenClock := ⟨3, [4], 10 ^ 18 + 1, 0⟩

theorem secondClock_ok {file f : Bytes} (hrecords : (walRecords file).length ≤ 1) :
    ClockOK ⟨OrdMap.empty, OrdMap.empty.insert (walID (10 ^ 18)) file, OrdMap.empty.insert 1 f, some []⟩
      secondClock := by
  have hnames : names (OrdMap.empty.insert (walID (10 ^ 18)) file) = [walID (10 ^ 18)] := rfl
  have hget : (OrdMap.empty.insert (walID (10 ^ 18)) file).get (walID (10 ^ 18)) = some file := by
    rw [OrdMap.get_insert, if_pos rfl]
  refine ⟨by decide, by show NineteenDigits (10 ^ 18 + 1); unfold NineteenDigits; omega, ?_, ?_,
    by simp [secondClock], ?_⟩
  · intro t ht
    rw [hnames, List.mem_singleton] at ht
    rw [walID_injective ht]
    exact Nat.lt_succ_self _
  · intro t ht
    obtain rfl := List.mem_singleton.mp ht
    refine ⟨by decide, fun e he => ?_⟩
    rcases mem_insertList he with rfl | he
    · show (1 : UInt64) < 4
      decide
    · simp [OrdMap.empty] at he
  · rw [hnames, recordsOf_singleton hget]
    exact hrecords

/-- What a run shows that opens a store and writes `x`. -/
def firstTrace (view : Bytes → Except GetError (Option Bytes)) (x : Write) : List Event :=
  [.reopened view, .submitted x, .internal, .internal, .internal, .internal, .acked x, .internal]

/-- What a write shows that fills its memtable. -/
def crossingTrace (x : Write) : List Event :=
  [.submitted x, .internal, .internal, .internal, .internal, .internal, .internal, .acked x]

theorem later_insert {wals : OrdMap Bytes Bytes} {now t : ℕ} {file : Bytes}
    (h : ∀ t, walID t ∈ names wals → t < now) (ht : t < now) :
    ∀ t', walID t' ∈ names (wals.insert (walID t) file) → t' < now := by
  intro t' hmem
  obtain ⟨e, he, heq⟩ := List.mem_map.mp hmem
  rcases mem_insertList he with rfl | he
  · rw [← walID_injective heq]
    exact ht
  · exact h t' (heq ▸ List.mem_map_of_mem he)

/-- The segment limit of the value log that `openDB` opens. -/
def Options.segmentLimit (opts : Options) : ℕ :=
  Vlog.segmentLimit (normalizeOptions opts).valueLogSegmentMaxBytes.toInt

/-- The store right after it was opened in an empty directory. -/
def freshDB (opts : Options) : DB := openedDB (normalizeOptions opts) [] (walID (10 ^ 18)) [] []
  ⟨Log.openEmpty opts.segmentLimit 1, [], 0, []⟩

/-- The directory of such a store. -/
def freshDir (opts : Options) : Dir := ⟨OrdMap.empty, OrdMap.empty.insert (walID (10 ^ 18)) [],
  (Log.openEmpty opts.segmentLimit 1).files, some []⟩

theorem openDB_empty (opts : Options) :
    openDB Dir.empty opts firstClock = .ok (freshDB opts, freshDir opts) :=
  openDB_eq_ok.mpr ⟨[], Log.openEmpty opts.segmentLimit 1,
    ⟨Log.openEmpty opts.segmentLimit 1, [], 0, []⟩, rfl, rfl, rfl, rfl, rfl, rfl⟩

theorem idle_fresh (opts : Options) : Idle (Proc.start (freshDB opts)) 0 (walID (10 ^ 18)) :=
  ⟨rfl, rfl, rfl, rfl, rfl, rfl⟩

/-- The reading 2 lies beyond the first segment of a fresh store. -/
theorem assumed_store_fresh {opts : Options} (ok : Write → Prop) (dir : Dir) (p : Proc)
    (hdb : p.db = (Proc.start (freshDB opts)).db) : Assumed ok (.up dir p) (.store 2) := by
  show p.db.valueLog.active.id < 2
  rw [hdb]
  show nextSegmentID 0 1 < 2
  decide

/-- **A first write is acknowledged** by an empty store with room for it, whatever its length. -/
theorem first_write (opts : Options) (ok : Write → Prop) {x : Write} (hx : x.Plain ∧ ok x)
    (hroom : memtableEntrySize x.key x.raw < size (normalizeOptions opts).memtableMaxBytes)
    (hsize : recordHeaderSize + (x.key.length + x.raw.length) < 2 ^ 63) :
    ∃ view dir p f, Run (CondStep opts (Assumed ok)) (.down Dir.empty) (firstTrace view x)
      (.up dir p) ∧
      dir = ⟨OrdMap.empty, OrdMap.empty.insert (walID (10 ^ 18)) (encodeRecords [x.record]),
        OrdMap.empty.insert 1 f, some []⟩ := by
  -- whatever is stored, the value log has one segment afterwards
  obtain ⟨stored, log, f, hstore, hfiles⟩ := storeValueForLSM_openEmpty opts.segmentLimit 1 2
    (size (normalizeOptions opts).valueThreshold) hsize
  have hget : (freshDir opts).wals.get (walID (10 ^ 18)) = some [] := by
    rw [freshDir, OrdMap.get_insert, if_pos rfl]
  have hrun := Idle.write opts (Assumed ok) (freshDir opts) (idle_fresh opts) hget
    (fun _ _ => trivial) hx (assumed_store_fresh ok) hstore
    (by simpa [Proc.start, freshDB, openedDB, DB.publishReadState] using hroom)
  refine ⟨_, _, _, f,
    .head ⟨.reopen firstClock, firstClock_ok, .reopen firstClock (openDB_empty opts)⟩ hrun, ?_⟩
  have hid : nextSegmentID 0 1 = 1 := by decide
  rw [hid] at hfiles
  simp only [freshDir, OrdMap.insert_insert, hfiles]
  rfl

/-- **A first write that fills the memtable** is acknowledged too, with the full memtable left to the
flush loop. -/
theorem first_write_crossing (opts : Options) (ok : Write → Prop) {x : Write} (hx : x.Plain ∧ ok x)
    (hfull : size (normalizeOptions opts).memtableMaxBytes ≤ memtableEntrySize x.key x.raw)
    (hsize : recordHeaderSize + (x.key.length + x.raw.length) < 2 ^ 63) :
    ∃ view dir p f, Run (CondStep opts (Assumed ok)) (.down Dir.empty)
        (.reopened view :: crossingTrace x) (.up dir p) ∧
      dir = ⟨OrdMap.empty, (OrdMap.empty.insert (walID (10 ^ 18)) (encodeRecords [x.record])).insert
        (walID (10 ^ 18 + 1)) [], OrdMap.empty.insert 1 f, some []⟩ := by
  obtain ⟨stored, log, f, hstore, hfiles⟩ := storeValueForLSM_openEmpty opts.segmentLimit 1 2
    (size (normalizeOptions opts).valueThreshold) hsize
  have hget : (freshDir opts).wals.get (walID (10 ^ 18)) = some [] := by
    rw [freshDir, OrdMap.get_insert, if_pos rfl]
  have hlater : ∀ t, walID t ∈ names (freshDir opts).wals → t < 10 ^ 18 + 1 :=
    later_insert (by simp [names, OrdMap.empty]) (by omega)
  -- the rotation takes a later reading, so its WAL has another name
  have hfree : walID (10 ^ 18 + 1) ≠ walID (10 ^ 18) :=
    fun heq => absurd (walID_injective heq) (by omega)
  have hrun := Idle.writeCrossing opts (Assumed ok) (freshDir opts) 2 (10 ^ 18 + 1) (idle_fresh opts)
    hget (fun _ _ => trivial) hx (assumed_store_fresh ok) hstore
    (by simpa [Proc.start, freshDB, openedDB, DB.publishReadState] using hfull)
    (fun p' => ⟨by unfold NineteenDigits; omega, later_insert hlater (by omega)⟩) hfree
    (by rw [freshDir, OrdMap.get_insert, if_neg hfree.symm, OrdMap.get_empty])
    (show 0 < flushCap by decide)
  refine ⟨_, _, _, f,
    .head ⟨.reopen firstClock, firstClock_ok, .reopen firstClock (openDB_empty opts)⟩ hrun, ?_⟩
  have hid : nextSegmentID 0 1 = 1 := by decide
  rw [hid] at hfiles
  simp only [freshDir, OrdMap.insert_insert, hfiles]
  rfl

/-! ## The two refinements -/

/-- A step under the assumptions, against the abstract store. -/
theorem Assumed.step {opts : Options} (w : World) (s : Spec) (e : Event) (w' : World)
    (h : WorldInv False w s ∧ w.Unfailed) (hstep : CondStep opts (Assumed Write.Fits) w e w') :
    ∃ s', SpecStep s e s' ∧ WorldInv False w' s' ∧ w'.Unfailed := by
  obtain ⟨l, ha, hstep⟩ := hstep
  obtain ⟨s', hs, hinv⟩ := h.1.step (Assumed.admissible h.1 h.2 ha) hstep
  exact ⟨s', hs, hinv, Assumed.unfailed h.1 h.2 ha hstep⟩

/-- **Crash recovery is exact.** Every run from an empty directory made of batches, rotations, flushes,
closes and stops at any point, each followed by `openDB`, is a run of the abstract store: every
reopening succeeds, and the reopened view is, for every key, that of the acknowledged writes in writer
order followed at each stop by some prefix of the unacknowledged ones. -/
theorem crash_recovery_exact {opts : Options} {es : List Event} {w : World}
    (h : Run (CondStep opts (Assumed Write.Fits)) (.down Dir.empty) es w) :
    ∃ s, Run SpecStep ⟨[], []⟩ es s := by
  obtain ⟨s, hrun, -⟩ := h.simulate Assumed.step ⟨worldInv_empty False, trivial⟩
  exact ⟨s, hrun⟩

/-- A write is acknowledged, the process stops, the store is opened again. -/
theorem crash_recovery_exact_put :
    ∃ (view view' : Bytes → Except GetError (Option Bytes)) (w : World),
      Run (CondStep ⟨0, 0, 0⟩ (Assumed Write.Fits)) (.down Dir.empty)
        (firstTrace view (.put [107] [118]) ++ [Event.stopped, Event.reopened view']) w ∧
      ∃ s, Run SpecStep ⟨[], []⟩
        (firstTrace view (.put [107] [118]) ++ [Event.stopped, Event.reopened view']) s := by
  obtain ⟨view, dir, p, f, hrun, rfl⟩ := first_write ⟨0, 0, 0⟩ Write.Fits (x := .put [107] [118])
    ⟨by simp [Write.Plain]; decide, by decide, by decide⟩ (by decide) (by decide)
  obtain ⟨s, -, hinv⟩ := hrun.simulate Assumed.step ⟨worldInv_empty False, trivial⟩
  -- the stop keeps the invariant, from which the second opening succeeds
  obtain ⟨s', -, hdown⟩ := hinv.1.step (l := .other) trivial (.stop : Step ⟨0, 0, 0⟩ _ _ _ _)
  have hholds : WalHolds (encodeRecords [Write.record (.put [107] [118])])
      [Write.record (.put [107] [118])] :=
    ⟨by simp [LengthsFit, Write.record, Write.key, Write.raw], [], by simp, rfl⟩
  have hclock := secondClock_ok (f := f) (by rw [hholds.walRecords_eq]; simp)
  obtain ⟨db, dir', g, hopen, -, -⟩ := hdown.opens ⟨0, 0, 0⟩ hclock
  have hfull := hrun.trans (.head ⟨.other, trivial, .stop⟩
    (.single ⟨.reopen secondClock, hclock, .reopen _ hopen⟩))
  exact ⟨view, db.view, _, hfull, crash_recovery_exact hfull⟩

/-- Twelve zero bytes are a record header with a wrong checksum. -/
theorem nextRecord_zeros (rest : Bytes) :
    nextRecord (List.replicate 12 0 ++ rest) = .badChecksum := by
  have hkey : headerKeyLen (List.replicate 12 0 ++ rest) = 0 := rfl
  have hvalue : headerValueLen (List.replicate 12 0 ++ rest) = 0 := rfl
  have hsum : headerChecksum (List.replicate 12 0 ++ rest) = 0 := rfl
  have hlengths : slice (List.replicate 12 0 ++ rest) 4 8 = List.replicate 8 0 := rfl
  unfold nextRecord
  rw [hkey, hvalue, hsum, hlengths, if_neg (by simp [recordHeaderSize]),
    if_neg (by simp [recordHeaderSize])]
  simp only [slice, Nat.add_zero, List.take_zero, List.append_nil]
  rw [if_pos (by decide +kernel)]

/-- The record of a value of `2 ^ 32` bytes is read as one with an empty value; the checksum of that one
is wrong, or else the value's bytes are taken for the next record. -/
theorem scanRecords_truncated {k rest : Bytes} (hk : k.length < 2 ^ 32)
    (hv : (List.replicate 12 0 ++ rest).length = 2 ^ 32) :
    nextRecord (scanRecords (encodeRecord k (List.replicate 12 0 ++ rest))).2 = .badChecksum ∧
      (scanRecords (encodeRecord k (List.replicate 12 0 ++ rest))).1.length ≤ 1 := by
  generalize hval : List.replicate 12 0 ++ rest = v at hv
  -- the length field has 32 bits: of `2 ^ 32` it keeps zero
  have hkey : headerKeyLen (encodeRecord k v) = k.length := by
    rw [encodeRecord, headerKeyLen_recordHeader, Nat.mod_eq_of_lt hk]
  have hvalue : headerValueLen (encodeRecord k v) = 0 := by
    rw [encodeRecord, headerValueLen_recordHeader, hv, Nat.mod_self]
  have hlen := length_encodeRecord k v
  -- behind a record read so, the value's own bytes come next
  have hdrop : (encodeRecord k v).drop (recordHeaderSize + (k.length + 0)) = v := by
    rw [encodeRecord, ← List.append_assoc]
    exact List.drop_left' (by simp)
  obtain ⟨fuel, hfuel⟩ : ∃ n, (encodeRecord k v).length = n + 1 + 1 := by
    refine ⟨(encodeRecord k v).length - 2, ?_⟩
    rw [hlen, recordHeaderSize]
    omega
  unfold scanRecords
  rw [hfuel]
  -- the checksum was taken with the value, the reader takes one without it
  by_cases hbad : nextRecord (encodeRecord k v) = .badChecksum
  · rw [scanFuel, hbad]
    exact ⟨hbad, by simp⟩
  · have hrecord : ∃ key value, nextRecord (encodeRecord k v) = .record key value v := by
      unfold nextRecord at hbad ⊢
      rw [hkey, hvalue] at hbad ⊢
      rw [if_neg (by rw [hlen]; omega), if_neg (by rw [hlen]; omega)] at hbad ⊢
      simp only [ite_eq_left_iff] at hbad
      rw [if_neg (by tauto), hdrop]
      exact ⟨_, _, rfl⟩
    obtain ⟨key, value, hrecord⟩ := hrecord
    -- zeros are no record: the checksum of two zero lengths is not zero
    have hzero : nextRecord v = .badChecksum := hval ▸ nextRecord_zeros rest
    rw [scanFuel, hrecord]
    simp [scanFuel, hzero]

/-- A store whose first WAL holds such a record does not open. -/
theorem openDB_truncated (dir : Dir) {k rest : Bytes} {more : List Bytes} (hk : k.length < 2 ^ 32)
    (hv : (List.replicate 12 0 ++ rest).length = 2 ^ 32)
    (hwals : dir.wals.entries.map Prod.snd =
      encodeRecords [(k, List.replicate 12 0 ++ rest)] :: more) (opts : Options) (clock : OpenClock) :
    ∃ e, openDB dir opts clock = .error e := by
  cases hopen : openDB dir opts clock with
  | error e => exact ⟨e, rfl⟩
  | ok result =>
    obtain ⟨db, dir'⟩ := result
    obtain ⟨-, log, r, -, -, hreplay, -⟩ := openDB_eq_ok.mp hopen
    have hbad := (scanRecords_truncated hk hv).1
    rw [← encodeRecords_singleton] at hbad
    -- the first file fails the whole replay
    rw [hwals, replayWALs, List.foldlM_cons] at hreplay
    unfold replayWAL at hreplay
    rw [hbad] at hreplay
    revert hreplay
    cases List.foldlM (replayRecord (size (normalizeOptions opts).valueThreshold))
      ⟨log, [], 0, clock.appends⟩
      (scanRecords (encodeRecords [(k, List.replicate 12 0 ++ rest)])).1 <;>
      intro hreplay <;> cases hreplay

/-- The WALs of a store that rotated its memtable once, in the order of their names. -/
theorem entries_two_wals (file file' : Bytes) :
    ((OrdMap.empty.insert (walID (10 ^ 18)) file).insert (walID (10 ^ 18 + 1)) file').entries =
      [(walID (10 ^ 18), file), (walID (10 ^ 18 + 1), file')] := by
  refine insertList_of_forall_lt fun e he => ?_
  obtain rfl := List.mem_singleton.mp he
  show walID (10 ^ 18) < walID (10 ^ 18 + 1)
  decide

/-- The clock readings of an opening after a rotation. -/
def rotatedClock : OpenClock := ⟨3, [4], 10 ^ 18 + 2, 0⟩

theorem rotatedClock_ok {file f : Bytes} (hrecords : (walRecords file).length ≤ 1) :
    ClockOK ⟨OrdMap.empty, (OrdMap.empty.insert (walID (10 ^ 18)) file).insert (walID (10 ^ 18 + 1)) [],
      OrdMap.empty.insert 1 f, some []⟩ rotatedClock := by
  refine ⟨by decide, by show NineteenDigits (10 ^ 18 + 2); unfold NineteenDigits; omega, ?_, ?_,
    by simp [rotatedClock], ?_⟩
  · exact later_insert (later_insert (by simp [names, OrdMap.empty]) (by simp [rotatedClock]))
      (by simp [rotatedClock])
  · intro t ht
    obtain rfl := List.mem_singleton.mp ht
    refine ⟨by decide, fun e he => ?_⟩
    rcases mem_insertList he with rfl | he
    · show (1 : UInt64) < 4
      decide
    · simp [OrdMap.empty] at he
  · have hnames : names ((OrdMap.empty.insert (walID (10 ^ 18)) file).insert (walID (10 ^ 18 + 1)) []) =
        [walID (10 ^ 18), walID (10 ^ 18 + 1)] := by
      rw [names, entries_two_wals]
      rfl
    have hfirst : ((OrdMap.empty.insert (walID (10 ^ 18)) file).insert (walID (10 ^ 18 + 1)) []).get
        (walID (10 ^ 18)) = some file := by
      rw [OrdMap.get_eq_some_iff, entries_two_wals]
      exact List.mem_cons_self
    have hsecond : ((OrdMap.empty.insert (walID (10 ^ 18)) file).insert (walID (10 ^ 18 + 1)) []).get
        (walID (10 ^ 18 + 1)) = some [] := by rw [OrdMap.get_insert, if_pos rfl]
    rw [hnames, recordsOf_cons, recordsOf_singleton hfirst, recordsOf_singleton hsecond]
    simpa [rotatedClock, walRecords, scanRecords, scanFuel] using hrecords

/-- **A value of four gibibytes is acknowledged and then makes the directory unopenable.** The options
are the defaults: the tree holds a reference to the value, and the value fills the memtable, which is
rotated but not flushed when the process stops. -/
theorem long_value_unrecoverable :
    ∃ (v : Bytes) (view : Bytes → Except GetError (Option Bytes)) (w : World), v.length = 2 ^ 32 ∧
      Run (CondStep ⟨0, 0, 0⟩ (Assumed fun _ => True)) (.down Dir.empty)
        (.reopened view :: crossingTrace (.put [107] v) ++ [Event.stopped, Event.openFailed]) w ∧
      ¬ ∃ s, Run SpecStep ⟨[], []⟩
        (.reopened view :: crossingTrace (.put [107] v) ++ [Event.stopped, Event.openFailed]) s := by
  -- only the first bytes of the value matter, and its length
  obtain ⟨rest, hlen⟩ : ∃ rest : Bytes, (List.replicate 12 0 ++ rest).length = 2 ^ 32 :=
    ⟨List.replicate (2 ^ 32 - 12) 0, by
      rw [List.length_append, List.length_replicate, List.length_replicate]
      omega⟩
  have hplain : Write.Plain (.put [107] (List.replicate 12 0 ++ rest)) := by
    refine ⟨fun heq => ?_, ?_⟩
    · rw [heq] at hlen
      simp [tombstoneValue] at hlen
    · unfold decodeValueRef
      rw [if_pos]
      rw [hlen]
      decide
  have hsize : memtableEntrySize [107] (List.replicate 12 0 ++ rest) = 1 + 2 ^ 32 := by
    rw [memtableEntrySize, hlen]
    rfl
  obtain ⟨view, dir, p, f, hrun, rfl⟩ := first_write_crossing ⟨0, 0, 0⟩ (fun _ => True)
    ⟨hplain, trivial⟩ (by rw [Write.key, Write.raw, hsize]; decide)
    (by rw [Write.key, Write.raw, hlen]; decide)
  have hkey : ([107] : Bytes).length < 2 ^ 32 := by decide
  obtain ⟨e, hopen⟩ := openDB_truncated ⟨OrdMap.empty, _, OrdMap.empty.insert 1 f, some []⟩ hkey hlen
    (congrArg (List.map Prod.snd) (entries_two_wals _ [])) ⟨0, 0, 0⟩ rotatedClock
  have hrecords : (walRecords (encodeRecords [([107], List.replicate 12 0 ++ rest)])).length ≤ 1 := by
    have hle := (scanRecords_truncated hkey hlen).2
    rwa [← encodeRecords_singleton] at hle
  refine ⟨_, view, _, hlen, hrun.trans (.head ⟨.other, trivial, .stop⟩
    (.single ⟨.reopen rotatedClock, rotatedClock_ok hrecords, .reopenFail _ hopen⟩)), ?_⟩
  -- the abstract store has no step for an opening that fails
  rintro ⟨s, hspec⟩
  rw [List.append_cons] at hspec
  obtain ⟨t, -, hstep⟩ := hspec.of_concat
  cases hstep

/-- **Failed flushes are harmless while no older memtable shares a key.** In every run in which flushes
fail in any pattern, and in which a table is installed only when no memtable rotated earlier and still
unflushed has one of its keys, every live `Get` and every `Get` after reopening answers by the most
recent acknowledged write, or a later one that is already applied. -/
theorem failed_flushes_keep_writes {opts : Options} {es : List Event} {w : World}
    (h : Run (CondStep opts (World.Admissible True)) (.down Dir.empty) es w) :
    ∃ s, Run SpecStep ⟨[], []⟩ es s := by
  have hsim : ∀ w s e w', WorldInv True w s → CondStep opts (World.Admissible True) w e w' →
      ∃ s', SpecStep s e s' ∧ WorldInv True w' s' := by
    rintro w s e w' hinv ⟨l, hadm, hstep⟩
    exact hinv.step hadm hstep
  obtain ⟨s, hrun, -⟩ := h.simulate hsim (worldInv_empty True)
  exact ⟨s, hrun⟩

/-! ## What a failed flush can lose -/

/-- The writes a run acknowledges, in order. -/
def acked (es : List Event) : List Write :=
  es.filterMap fun e => match e with
    | .acked w => some w
    | _ => none

/-- Every write fills a memtable of one byte. -/
def tinyOptions : Options := ⟨1, 0, 0⟩

/-- The store right after it was opened in an empty directory. -/
def tinyDB : DB := openedDB (normalizeOptions tinyOptions) [] (walID (10 ^ 18)) [] []
  ⟨Log.openEmpty defaultSegmentMaxBytes 1, [], 0, []⟩

def tinyDir : Dir := ⟨OrdMap.empty, OrdMap.empty.insert (walID (10 ^ 18)) [],
  (Log.openEmpty defaultSegmentMaxBytes 1).files, some []⟩

/-- The directory after a first write. -/
def tinyDir₁ : Dir :=
  { tinyDir with
    wals := (tinyDir.wals.insert (walID (10 ^ 18)) (appendBatch [] [([107], [1])])).insert
      (walID (10 ^ 18 + 1)) [] }

/-- The process after a first write, its memtable on the way to the flush loop. -/
def tinyProc₁ : Proc :=
  { Proc.start tinyDB with
    db := DB.rotateMemtable (tinyDB.applyWrite 0 (.put [107] [1]) [1]) 0 (walID (10 ^ 18 + 1))
    flushCh := [⟨0, [walID (10 ^ 18)]⟩] }

theorem later_tinyDir : ∀ t, walID t ∈ names tinyDir.wals → t < 10 ^ 18 + 1 :=
  later_insert (by simp [names, OrdMap.empty]) (by omega)

theorem good_put {v : Bytes} (hv : v = [1] ∨ v = [2]) :
    (Write.put [107] v).Plain ∧ Good True (Write.put [107] v).record := by
  rcases hv with rfl | rfl
  · exact ⟨⟨by decide, by decide⟩, ⟨⟨by decide, by decide⟩, Or.inr (by decide)⟩, fun _ => by decide⟩
  · exact ⟨⟨by decide, by decide⟩, ⟨⟨by decide, by decide⟩, Or.inr (by decide)⟩, fun _ => by decide⟩

/-- An empty directory is opened and a first write acknowledged. -/
theorem tiny_first : Run (CondStep tinyOptions (World.Admissible True)) (.down Dir.empty)
    (.reopened tinyDB.view :: crossingTrace (.put [107] [1])) (.up tinyDir₁ tinyProc₁) := by
  have hopen : openDB Dir.empty tinyOptions firstClock = .ok (tinyDB, tinyDir) :=
    openDB_eq_ok.mpr ⟨[], Log.openEmpty defaultSegmentMaxBytes 1,
      ⟨Log.openEmpty defaultSegmentMaxBytes 1, [], 0, []⟩, rfl, rfl, rfl, rfl, rfl, rfl⟩
  have hidle : Idle (Proc.start tinyDB) 0 (walID (10 ^ 18)) := ⟨rfl, rfl, rfl, rfl, rfl, rfl⟩
  refine .head ⟨.reopen firstClock, firstClock_ok, .reopen firstClock hopen⟩ ?_
  exact Idle.writeCrossing tinyOptions (World.Admissible True) tinyDir 2 (10 ^ 18 + 1) hidle rfl
    (fun _ _ => trivial) (good_put (Or.inl rfl))
    (fun dir p' hdb => by show p'.db.valueLog.active.id < 2; rw [hdb]; decide) rfl (by decide)
    (fun p' => ⟨by unfold NineteenDigits; omega, later_insert later_tinyDir (by omega)⟩)
    (fun h => absurd (walID_injective h) (by omega)) (by decide) (by decide)

/-- A flush fails and the write is still found. -/
theorem failed_flushes_keep_writes_first : ∃ w : World,
    Run (CondStep tinyOptions (World.Admissible True)) (.down Dir.empty)
      (.reopened tinyDB.view :: crossingTrace (.put [107] [1]) ++
        [.internal, .internal, .internal, .got [107] (.ok (some [1]))]) w ∧
      ∃ s, Run SpecStep ⟨[], []⟩ (.reopened tinyDB.view :: crossingTrace (.put [107] [1]) ++
        [.internal, .internal, .internal, .got [107] (.ok (some [1]))]) s := by
  have hrun := tiny_first.trans (.head ⟨.other, trivial, .flusher (.receive _ [] rfl rfl)⟩
    (.head ⟨.other, trivial, .flusher (.syncValueLog _ rfl)⟩
      (.head ⟨.failFlush, trivial, .flusher (.failFlush _ rfl)⟩
        (.single ⟨.get [107], trivial, .get [107] rfl⟩))))
  exact ⟨_, hrun, failed_flushes_keep_writes hrun⟩

/-- Every condition of the refinement but the one on installing. -/
def AnyInstall (w : World) (l : Label) : Prop := l = .install ∨ w.Admissible True l

/-- **A failed flush shadows later writes.** The flush of a memtable with the first value of a key
fails after the second value is acknowledged; the memtable with the second value is flushed and
installed all the same, and a `Get` finds the first value in the memtable that was left behind. -/
theorem failed_flush_returns_older : ∃ (es : List Event) (w : World),
    Run (CondStep tinyOptions AnyInstall) (.down Dir.empty) (es ++ [.got [107] (.ok (some [1]))]) w ∧
      acked es = [.put [107] [1], .put [107] [2]] := by
  have r₁ : Run (CondStep tinyOptions AnyInstall) _ _ _ :=
    tiny_first.mono fun _ _ _ ⟨l, hl, hstep⟩ => ⟨l, Or.inr hl, hstep⟩
  have r₂ := r₁.trans (.head ⟨.other, Or.inr trivial, .flusher (.receive _ [] rfl rfl)⟩
    (.single ⟨.other, Or.inr trivial, .flusher (.syncValueLog _ rfl)⟩))
  have hlater : ∀ t, walID t ∈ names tinyDir.wals → t < 10 ^ 18 + 2 :=
    fun t ht => (later_tinyDir t ht).trans (by omega)
  -- the second write is acknowledged while the first memtable is still being flushed
  have r₃ := r₂.trans (Idle.writeCrossing (x := .put [107] [2]) tinyOptions AnyInstall _ 2
    (10 ^ 18 + 2) (⟨rfl, rfl, rfl, rfl, rfl, rfl⟩ : Idle _ 1 (walID (10 ^ 18 + 1)))
    (by decide : OrdMap.get _ _ = some []) (fun _ _ => Or.inr trivial)
    (Or.inr (good_put (Or.inr rfl)))
    (fun dir p' hdb => Or.inr (by show p'.db.valueLog.active.id < 2; rw [hdb]; decide)) rfl (by decide)
    (fun p' => Or.inr ⟨by unfold NineteenDigits; omega,
      later_insert (later_insert (later_insert hlater (by omega)) (by omega)) (by omega)⟩)
    (fun h => absurd (walID_injective h) (by omega)) (by decide) (by decide))
  -- the first flush fails, the second memtable is flushed and installed
  have r₄ := r₃.trans (.head ⟨.failFlush, Or.inr trivial, .flusher (.failFlush _ rfl)⟩
    (.head ⟨.other, Or.inr trivial, .flusher (.receive _ [] rfl rfl)⟩
      (.head ⟨.other, Or.inr trivial, .flusher (.syncValueLog _ rfl)⟩
        (.single ⟨.flush 5, Or.inr ⟨by decide, by decide⟩, .flusher (.flush 5 _ rfl)⟩))))
  have r₅ := r₄.trans (.single ⟨.install, Or.inl rfl, .flusher (.install _ _ 6 _ rfl rfl)⟩)
  exact ⟨_, _, r₅.tail ⟨.get [107], Or.inr trivial, .get [107] rfl⟩, rfl⟩

end Seol
