import Seol.Db.Refinement
import Seol.Vlog.History

/-!
# What a power loss leaves

Reference: `flushLoop`, `syncValueLogForFlush`, `installFlushedTable` and `removeWALFiles` in `db.go`,
`Flush` in `sstable/sstable.go`, `manifestStore.write` in `manifest.go`, `Sync`, `Close` and
`rotateSegmentLocked` in `vlog/vlog.go`. Beside the files as the process sees them runs their durable
content, which is the content as of the last `Sync`. The store syncs the WAL at every append and the
value log before every flush; no table and no manifest is ever synced.
-/

namespace Seol

open Common Vlog

/-! ## The model -/

/-- The durable content of the files, the value log as it was when the flush loop took the memtable it
is working on, and the last table that was installed. -/
structure Durable where
  synced : Dir
  taken : Option Log
  table : Option Table

/-- Nothing is durable yet. -/
def Durable.start : Durable := ⟨Dir.empty, none, none⟩

/-- `rotateSegmentLocked` syncs the segment it leaves: all but the active one are synced. -/
def syncSealed (log : Log) (segments : OrdMap UInt64 Bytes) : OrdMap UInt64 Bytes :=
  segments.insertAll (log.files.entries.filter fun e => e.1 ≠ log.active.id)

/-- `Log.Sync`. -/
def syncActive (log : Log) (segments : OrdMap UInt64 Bytes) : OrdMap UInt64 Bytes :=
  segments.insert log.active.id log.activeFile

/-- A step of the running process. `appendBatch` returns after a `Sync` of the WAL, and
`syncValueLogForFlush` syncs the active segment of the value log; `Flush` and the write of the manifest
sync nothing. -/
def Durable.running (d : Durable) (dir : Dir) (p p' : Proc) : Durable :=
  let segments := syncSealed p'.db.valueLog d.synced.segments
  let d' := { d with synced := { d.synced with wals := dir.wals, segments := segments } }
  match p.flusher, p'.flusher with
  | .waiting, .syncing _ => { d' with taken := some p.db.valueLog }
  | .syncing _, .writing _ =>
    { d' with synced := { d'.synced with segments := syncActive p'.db.valueLog segments } }
  | .installing _ t, .removing _ => { d' with table := some t }
  | _, _ => d'

theorem Durable.running_wals (d : Durable) (dir : Dir) (p p' : Proc) :
    (d.running dir p p').synced.wals = dir.wals := by
  unfold Durable.running
  split <;> rfl

/-- What is durable after a step. An opening may rotate the value log while it replays, and `Close`
syncs the active segment. -/
def Durable.after (d : Durable) : World → Event → World → Durable
  | .up _ p, _, .up dir p' => d.running dir p p'
  | .up _ p, .closed, .down _ =>
    { d with synced := { d.synced with segments := syncActive p.db.valueLog d.synced.segments } }
  | .down _, _, .up _ p =>
    { d with synced := { d.synced with segments := syncSealed p.db.valueLog d.synced.segments } }
  | _, _, _ => d

/-- The steps of the store with what they make durable. -/
def DurableStep (opts : Options) (s : World × Durable) (e : Event) (s' : World × Durable) : Prop :=
  ∃ l, Step opts s.1 l e s'.1 ∧ s'.2 = s.2.after s.1 e s'.1

/-! ## The value log -/

theorem get_syncSealed {log : Log} {segments : OrdMap UInt64 Bytes} {id : UInt64} {f : Bytes}
    (hid : id ≠ log.active.id) (hf : log.files.get id = some f) :
    (syncSealed log segments).get id = some f := by
  have hmem : (id, f) ∈ log.files.entries.filter fun e => e.1 ≠ log.active.id :=
    List.mem_filter.mpr ⟨OrdMap.get_eq_some_iff.mp hf, by simpa using hid⟩
  have hnodup : ((log.files.entries.filter fun e => e.1 ≠ log.active.id).map Prod.fst).Nodup :=
    List.pairwise_map.mpr ((log.files.sorted.imp fun h => h.ne).filter _)
  rw [syncSealed, OrdMap.get_insertAll, lastOf_of_mem hnodup hmem, Option.some_or]

theorem get_syncSealed_of_not {log : Log} {segments : OrdMap UInt64 Bytes} {id : UInt64}
    (hid : id = log.active.id ∨ log.files.get id = none) :
    (syncSealed log segments).get id = segments.get id := by
  have hnone : lastOf (log.files.entries.filter fun e => e.1 ≠ log.active.id) id = none := by
    refine lastOf_eq_none_iff.mpr fun e he heq => ?_
    obtain ⟨hmem, hne⟩ := List.mem_filter.mp he
    rcases hid with hid | hid
    · exact absurd (heq.trans hid) (by simpa using hne)
    · rw [← heq, OrdMap.get_eq_some_iff.mpr hmem] at hid
      simp at hid
  rw [syncSealed, OrdMap.get_insertAll, hnone, Option.none_or]

theorem Vlog.Filed.congr {segments segments' : OrdMap UInt64 Bytes} {ref : ValueRef} {key value : Bytes}
    (h : Filed segments ref key value)
    (hget : segments'.get ref.segmentID = segments.get ref.segmentID) :
    Filed segments' ref key value :=
  ⟨hget ▸ h.file, h.offset_lt, h.valueLen_eq, h.checksum_eq⟩

/-- A durable record stays durable when sealed segments are synced. -/
theorem Vlog.Filed.syncSealed {log : Log} {segments : OrdMap UInt64 Bytes} {ref : ValueRef}
    {key value : Bytes} (h : Filed segments ref key value) (hs : Stored log ref key value) :
    Filed (Seol.syncSealed log segments) ref key value := by
  obtain ⟨f, hf, -⟩ := hs.file
  by_cases hid : ref.segmentID = log.active.id
  · exact h.congr (get_syncSealed_of_not (.inl hid))
  · exact hs.filed.congr (by rw [get_syncSealed hid hf, hf])

/-- **After `Sync` every record of the log is durable**: those of the active segment by the call itself,
the others since their segment was synced when the log left it. -/
theorem Vlog.Stored.filed_sync {log : Log} {segments : OrdMap UInt64 Bytes} {ref : ValueRef}
    {key value : Bytes} (hs : Stored log ref key value) :
    Filed (syncActive log (syncSealed log segments)) ref key value := by
  refine hs.filed.congr ?_
  obtain ⟨f, hf, -⟩ := hs.file
  rw [syncActive, OrdMap.get_insert]
  split_ifs with hid
  · rw [← hid, log.get_activeFile]
  · rw [get_syncSealed (Ne.symm hid) hf, hf]

/-! ## The invariant -/

/-- How far the value log is durable for the memtable that is being flushed. -/
def Durable.Covers (d : Durable) (log : Log) : Flusher → Prop
  | .waiting => True
  | .syncing _ => ∃ taken, d.taken = some taken ∧ Extends taken log
  | .writing _ | .installing _ _ => ∃ taken, d.taken = some taken ∧ Extends taken log ∧
      ∀ ref k v, Stored taken ref k v → Filed d.synced.segments ref k v
  | .removing _ => (∃ t, d.table = some t) ∧ ∃ taken, d.taken = some taken ∧ Extends taken log ∧
      ∀ ref k v, Stored taken ref k v → Filed d.synced.segments ref k v

/-- No table and no manifest is durable, and the value log is as far as the flush loop needs it. -/
structure DurableInv (s : World × Durable) : Prop where
  tables : s.2.synced.tables = OrdMap.empty
  manifest : s.2.synced.manifest = none
  covers : ∀ dir p, s.1 = .up dir p → s.2.Covers p.db.valueLog p.flusher

/-- A step that leaves the flush loop where it is. -/
theorem Durable.Covers.running {d : Durable} {dir : Dir} {p p' : Proc}
    (h : d.Covers p.db.valueLog p.flusher) (hflusher : p'.flusher = p.flusher)
    (hlog : Extends p.db.valueLog p'.db.valueLog) :
    (d.running dir p p').Covers p'.db.valueLog p'.flusher := by
  -- a reference that is filed stays so: the sync of a sealed segment only adds to the durable files
  have hkept : ∀ {taken : Log}, Extends taken p.db.valueLog →
      (∀ ref k v, Stored taken ref k v → Filed d.synced.segments ref k v) →
      ∀ ref k v, Stored taken ref k v →
        Filed (Seol.syncSealed p'.db.valueLog d.synced.segments) ref k v :=
    fun hext hfiled ref k v hs => (hfiled ref k v hs).syncSealed (hlog _ _ _ (hext _ _ _ hs))
  unfold Durable.running
  rw [hflusher]
  cases hf : p.flusher with
  | waiting => trivial
  | syncing imm =>
    rw [hf] at h
    obtain ⟨taken, htaken, hext⟩ := h
    exact ⟨taken, htaken, hext.trans hlog⟩
  | writing imm =>
    rw [hf] at h
    obtain ⟨taken, htaken, hext, hfiled⟩ := h
    exact ⟨taken, htaken, hext.trans hlog, hkept hext hfiled⟩
  | installing imm t =>
    rw [hf] at h
    obtain ⟨taken, htaken, hext, hfiled⟩ := h
    exact ⟨taken, htaken, hext.trans hlog, hkept hext hfiled⟩
  | removing paths =>
    rw [hf] at h
    obtain ⟨htable, taken, htaken, hext, hfiled⟩ := h
    exact ⟨htable, taken, htaken, hext.trans hlog, hkept hext hfiled⟩

theorem WriterStep.flusher_eq {dir dir' : Dir} {p p' : Proc} {l : Label} {e : Event}
    (h : WriterStep (dir, p) l e (dir', p')) : p'.flusher = p.flusher := by
  cases h <;> rfl

/-- The writer only appends to the value log. -/
theorem WriterStep.extends {dir dir' : Dir} {p p' : Proc} {l : Label} {e : Event}
    (h : WriterStep (dir, p) l e (dir', p')) : Extends p.db.valueLog p'.db.valueLog := by
  cases h with
  | store now done w rest projected stored log hw hstore => exact extends_storeValueForLSM hstore
  | storeFailFirst now w rest projected e log hw hstore => exact extends_storeValueForLSM hstore
  | storeFail now done w rest projected e log hdone hw hstore => exact extends_storeValueForLSM hstore
  | _ => exact Extends.refl _

theorem DB.valueLog_installFlushedTable (db : DB) (imm : Immutable) (t : Table) (now : ℤ) :
    (db.installFlushedTable imm t now).1.valueLog = db.valueLog := by
  unfold DB.installFlushedTable
  cases buildLevelState (db.updatedMeta t now) (t :: db.sstables) <;> rfl

/-- **The flush loop** takes a memtable, syncs the value log, writes and installs the table. -/
theorem Durable.Covers.flusherStep {d : Durable} {dir dir' : Dir} {p p' : Proc} {l : Label}
    (h : d.Covers p.db.valueLog p.flusher) (hstep : FlusherStep (dir, p) l (dir', p')) :
    (d.running dir' p p').Covers p'.db.valueLog p'.flusher := by
  cases hstep with
  | receive imm ch hf hch =>
    unfold Durable.running
    rw [hf]
    exact ⟨_, rfl, Extends.refl _⟩
  | syncValueLog imm hf =>
    rw [hf] at h
    obtain ⟨taken, htaken, hext⟩ := h
    unfold Durable.running
    rw [hf]
    -- `Sync` covers the active segment, and the sealed ones are synced already
    exact ⟨taken, htaken, hext, fun ref k v hs => (hext _ _ _ hs).filed_sync⟩
  | flush now imm hf =>
    rw [hf] at h
    obtain ⟨taken, htaken, hext, hfiled⟩ := h
    unfold Durable.running
    rw [hf]
    exact ⟨taken, htaken, hext, fun ref k v hs =>
      (hfiled ref k v hs).syncSealed (hext _ _ _ hs)⟩
  | failFlush imm hf => trivial
  | install imm t now db hf hi =>
    rw [hf] at h
    obtain ⟨taken, htaken, hext, hfiled⟩ := h
    -- an install touches the levels, not the value log
    have hlog : db.valueLog = p.db.valueLog := by
      rw [← DB.valueLog_installFlushedTable p.db imm t now, hi]
    unfold Durable.running
    rw [hf]
    refine ⟨⟨t, rfl⟩, taken, htaken, ?_, fun ref k v hs => ?_⟩
    · show Extends taken db.valueLog
      rwa [hlog]
    · refine (hfiled ref k v hs).syncSealed ?_
      show Stored db.valueLog ref k v
      rw [hlog]
      exact hext _ _ _ hs
  | failInstall imm t now db hf hi => trivial
  | removeWAL path paths hf =>
    rw [hf] at h
    obtain ⟨htable, taken, htaken, hext, hfiled⟩ := h
    unfold Durable.running
    rw [hf]
    exact ⟨htable, taken, htaken, hext, fun ref k v hs =>
      (hfiled ref k v hs).syncSealed (hext _ _ _ hs)⟩
  | removed hf => trivial

/-- Neither tables nor the manifest become durable. -/
theorem Durable.after_synced (d : Durable) (w : World) (e : Event) (w' : World) :
    (d.after w e w').synced.tables = d.synced.tables ∧
      (d.after w e w').synced.manifest = d.synced.manifest := by
  unfold Durable.after Durable.running
  split
  · split <;> exact ⟨rfl, rfl⟩
  all_goals exact ⟨rfl, rfl⟩

/-- **Every step keeps the invariant.** -/
theorem DurableInv.step {opts : Options} {s s' : World × Durable} {e : Event} (h : DurableInv s)
    (hstep : DurableStep opts s e s') : DurableInv s' := by
  obtain ⟨w, d⟩ := s
  obtain ⟨w', d'⟩ := s'
  obtain ⟨l, hstep, heq⟩ := hstep
  dsimp only at hstep heq
  subst heq
  -- no step syncs a table file or the manifest
  obtain ⟨htables, hmanifest⟩ := d.after_synced w e w'
  refine ⟨htables.trans h.tables, hmanifest.trans h.manifest, fun dir' p' hw' => ?_⟩
  dsimp only at hw' ⊢
  cases hstep with
  | writer hstep =>
    obtain ⟨rfl, rfl⟩ := World.up.inj hw'
    exact (h.covers _ _ rfl).running hstep.flusher_eq hstep.extends
  | flusher hstep =>
    -- the flush loop is the one party that changes what is covered
    obtain ⟨rfl, rfl⟩ := World.up.inj hw'
    exact (h.covers _ _ rfl).flusherStep hstep
  | closer hstep =>
    obtain ⟨rfl, rfl⟩ := World.up.inj hw'
    refine (h.covers _ _ rfl).running ?_ ?_
    · cases hstep <;> rfl
    · cases hstep <;> exact Extends.refl _
  | get k hopen =>
    obtain ⟨rfl, rfl⟩ := World.up.inj hw'
    exact (h.covers _ _ rfl).running rfl (Extends.refl _)
  | reopen clock hopen =>
    obtain ⟨rfl, rfl⟩ := World.up.inj hw'
    trivial
  | closeStorage => cases hw'
  | stop => cases hw'
  | stopInAppend => cases hw'
  | reopenFail => cases hw'

theorem durable_invariant {opts : Options} {es : List Event} {s : World × Durable}
    (h : Run (DurableStep opts) (.down Dir.empty, Durable.start) es s) : DurableInv s := by
  refine h.invariant (fun _ _ _ hinv hstep => hinv.step hstep) ⟨rfl, rfl, fun dir p hw => ?_⟩
  cases hw

/-! ## Handing a WAL over -/

/-- Every value-log record that the entries of a table refer to is durable. By the time the flush loop
takes a memtable it receives no more writes, so the log as it is then has all of them. -/
def ReferencesSynced (segments : OrdMap UInt64 Bytes) (t : Table) (taken : Log) : Prop :=
  ∀ e ∈ t.entries.entries, ∀ ref, decodeValueRef e.2 = some ref →
    ∀ v, Stored taken ref e.1 v → Filed segments ref e.1 v

/-- A record of a WAL is recoverable from durable data alone: the table that replaced the WAL has its
key and is durable, and so are a manifest that names the table and every record of the value log it
refers to. -/
structure HandedOver (d : Durable) (t : Table) (taken : Log) (r : Bytes × Bytes) : Prop where
  key : (t.entries.get r.1).isSome
  table : d.synced.tables.get t.path = some t.entries
  manifest : ∃ ms, d.synced.manifest = some ms ∧ t.path ∈ ms.map TableMeta.filename
  references : ReferencesSynced d.synced.segments t taken

/-- **The durability of a hand-over.** At every point of every run at which the flush loop is about to
delete a WAL, the records of the value log that the new table refers to are durable; but the table and
its manifest are not, so the records of the WAL are all recoverable exactly if it has none. -/
theorem handover_durable_iff {opts : Options} {es : List Event} {dir : Dir} {p : Proc} {d : Durable}
    (h : Run (DurableStep opts) (.down Dir.empty, Durable.start) es (.up dir p, d))
    {path : Bytes} {paths : List Bytes} (hf : p.flusher = .removing (path :: paths)) :
    ∃ t taken, d.table = some t ∧ d.taken = some taken ∧
      ReferencesSynced d.synced.segments t taken ∧
      ((∀ r ∈ recordsOf dir.wals [path], HandedOver d t taken r) ↔
        recordsOf dir.wals [path] = []) := by
  have hinv := durable_invariant h
  have hcovers := hinv.covers dir p rfl
  rw [hf] at hcovers
  obtain ⟨⟨t, htable⟩, taken, htaken, -, hfiled⟩ := hcovers
  refine ⟨t, taken, htable, htaken, fun e _ ref _ v hs => hfiled ref e.1 v hs, ?_, ?_⟩
  -- a record that is recoverable needs a durable manifest, which there never is
  · intro hall
    by_contra hne
    obtain ⟨r, hr⟩ := List.exists_mem_of_ne_nil _ hne
    obtain ⟨ms, hms, -⟩ := (hall r hr).manifest
    rw [hinv.manifest] at hms
    simp at hms
  · intro hnil
    simp [hnil]

/-! ## A lost write -/

theorem Step.durable {opts : Options} {w w' : World} {l : Label} {e : Event}
    (h : Step opts w l e w') (d : Durable) : DurableStep opts (w, d) e (w', d.after w e w') :=
  ⟨l, h, rfl⟩

/-- Any run of the store makes something durable. -/
theorem durable_of_run {opts : Options} {cond : World → Label → Prop} {w w' : World}
    {es : List Event} (h : Run (CondStep opts cond) w es w') (d : Durable) :
    ∃ d', Run (DurableStep opts) (w, d) es (w', d') := by
  induction h with
  | refl => exact ⟨d, .refl _⟩
  | @tail t u es e _ hstep ih =>
    obtain ⟨d', hrun⟩ := ih
    obtain ⟨l, -, hstep⟩ := hstep
    exact ⟨d'.after t e u, hrun.tail (hstep.durable d')⟩

/-- The directory of the sample run once the table of its one write is installed. -/
def handedDir : Dir :=
  { tinyDir₁ with
    tables := OrdMap.empty.insert (sstableID 5) ⟨[([107], [1])], List.pairwise_singleton _ _⟩
    manifest := some [⟨sstableID 5, 0, [107], [107], 5⟩] }

/-- A write is acknowledged, and its memtable flushed and installed. -/
theorem tiny_installed : ∃ p es, Run (CondStep tinyOptions fun _ _ => True) (.down Dir.empty) es
    (.up handedDir p) ∧ p.flusher = .removing [walID (10 ^ 18)] ∧
      acked es = [.put [107] [1]] := by
  have r₁ : Run (CondStep tinyOptions fun _ _ => True) _ _ _ :=
    tiny_first.mono fun _ _ _ ⟨l, _, hstep⟩ => ⟨l, trivial, hstep⟩
  have r₂ := r₁.trans (.head ⟨.other, trivial, .flusher (.receive _ [] rfl rfl)⟩
    (.head ⟨.other, trivial, .flusher (.syncValueLog _ rfl)⟩
      (.single ⟨.flush 5, trivial, .flusher (.flush 5 _ rfl)⟩)))
  have r₃ := r₂.trans (.single ⟨.install, trivial, .flusher (.install _ _ 6 _ rfl rfl)⟩)
  exact ⟨_, _, r₃, rfl, rfl⟩

theorem handover_durable_iff_put : ∃ es p d,
    Run (DurableStep tinyOptions) (.down Dir.empty, Durable.start) es (.up handedDir p, d) ∧
      ∃ t taken, d.table = some t ∧ d.taken = some taken ∧
        ReferencesSynced d.synced.segments t taken ∧
        ((∀ r ∈ recordsOf handedDir.wals [walID (10 ^ 18)], HandedOver d t taken r) ↔
          recordsOf handedDir.wals [walID (10 ^ 18)] = []) := by
  obtain ⟨p, es, hrun, hf, -⟩ := tiny_installed
  obtain ⟨d, hdurable⟩ := durable_of_run hrun Durable.start
  exact ⟨es, p, d, hdurable, handover_durable_iff hdurable hf⟩

/-- A directory without tables, manifest and WAL records opens to an empty store, if it opens. -/
theorem openDB_nothing {dir dir' : Dir} {opts : Options} {clock : OpenClock} {db : DB}
    (htables : dir.tables = OrdMap.empty) (hmanifest : dir.manifest = none)
    (hwals : dir.wals.entries.map Prod.snd = [[]])
    (h : openDB dir opts clock = .ok (db, dir')) (k : Bytes) : db.view k = .ok none := by
  obtain ⟨levels, log, r, hlevels, -, hreplay, -, rfl, -⟩ := openDB_eq_ok.mp h
  -- without a manifest and tables the levels are empty, without records the memtable is
  have hms : openManifest dir clock.table = [] := by
    rw [openManifest, hmanifest, htables]
    rfl
  rw [hms, htables] at hlevels
  obtain rfl : [] = levels := Option.some.inj hlevels
  rw [hwals] at hreplay
  obtain rfl := Except.ok.inj hreplay
  rw [openedDB_view]
  rfl

/-- **An acknowledged write is lost by a power loss.** A write is acknowledged, its memtable flushed and
its WAL deleted. What is durable then has no table, no manifest and no WAL record, and no opening of it
shows the write. -/
theorem power_loss_loses_write : ∃ es w d,
    Run (DurableStep tinyOptions) (.down Dir.empty, Durable.start) es (w, d) ∧
      acked es = [.put [107] [1]] ∧
      d.synced.tables = OrdMap.empty ∧ d.synced.manifest = none ∧
      recordsOf d.synced.wals (names d.synced.wals) = [] ∧
      ∀ opts clock db dir, openDB d.synced opts clock = .ok (db, dir) → db.view [107] = .ok none := by
  obtain ⟨p, es, hrun, hf, hacked⟩ := tiny_installed
  obtain ⟨d, hdurable⟩ := durable_of_run hrun Durable.start
  have hstep : Step tinyOptions (.up handedDir p) .other .internal
      (.up { handedDir with wals := handedDir.wals.erase (walID (10 ^ 18)) }
        { p with flusher := .removing [] }) := .flusher (.removeWAL _ _ hf)
  have hremoved := hdurable.tail (hstep.durable d)
  have hinv := durable_invariant hremoved
  -- what is left of the WAL files is the empty one of the new memtable
  have hwals := d.running_wals { handedDir with wals := handedDir.wals.erase (walID (10 ^ 18)) } p
    { p with flusher := .removing [] }
  refine ⟨_, _, _, hremoved, ?_, hinv.tables, hinv.manifest, ?_, fun opts clock db dir hopen => ?_⟩
  · rw [acked, List.filterMap_append, ← acked, hacked]
    rfl
  · show recordsOf (d.running _ p _).synced.wals (names (d.running _ p _).synced.wals) = []
    rw [hwals]
    decide +kernel
  · refine openDB_nothing hinv.tables hinv.manifest ?_ hopen [107]
    show (OrdMap.entries (d.running _ p _).synced.wals).map Prod.snd = _
    rw [hwals]
    decide +kernel

end Seol
