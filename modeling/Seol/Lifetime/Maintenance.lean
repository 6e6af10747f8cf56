import Seol.Compaction.Execute
import Seol.Db.Recovery
import Seol.Gc.Replace

/-!
# Maintenance keeps a directory recoverable

Reference: `Compact` in `compaction.go`, `RunValueLogGC` in `gc.go`. Both run on the files of a closed
store: a compaction merges tables, a value-log GC rewrites every live entry. A run that is finished, or
that stops before its first removal or after the rename of the manifest, leaves a directory that opens
with the same contents. Its records are not the same ones, since tombstones are dropped. They are those
of the old history without the writes to the dropped keys.
-/

namespace Seol

open Common Vlog

/-! ## Dropping tombstones -/

/-- `T'` is `T` without some of its tombstones. -/
def Sheds (T T' : Bytes → Option Bytes) : Prop :=
  ∀ k, T' k = T k ∨ T' k = none ∧ (T k).bind meaning = none

theorem Sheds.records {gets : Prop} {T T' : Bytes → Option Bytes} (h : Sheds T T')
    (hT : ∀ k v, T k = some v → Good gets (k, v)) : ∀ k v, T' k = some v → Good gets (k, v) := by
  intro k v hv
  rcases h k with heq | ⟨hnone, -⟩
  · exact hT k v (heq ▸ hv)
  · rw [hnone] at hv
    simp at hv

theorem eq_tombstoneValue_of_not_isLive {stored : Bytes} (h : isLive stored = false) :
    stored = tombstoneValue := by simpa [isLive, isTombstoneValue] using h

/-- A lookup that selects the same live entries, and no key beyond the old ones, reads `T` without some
of its tombstones. -/
theorem Reads.sheds {log : Log} {old new T : Bytes → Option Bytes} (h : Reads log old T)
    (hview : ∀ k, (new k).filter isLive = (old k).filter isLive)
    (hsupport : ∀ k, new k ≠ none → old k ≠ none) : ∃ T', Reads log new T' ∧ Sheds T T' := by
  -- an entry that is selected now was selected before: live ones by the view, and a tombstone is
  -- one
  have hsame : ∀ k stored, new k = some stored → old k = some stored := by
    intro k stored hk
    obtain ⟨stored', hk'⟩ := Option.ne_none_iff_exists'.mp (hsupport k (by simp [hk]))
    have hfilter := hview k
    rw [hk, hk'] at hfilter
    cases hlive : isLive stored with
    | true =>
      rw [Option.filter_some_pos hlive] at hfilter
      rw [hk', (Option.filter_eq_some_iff.mp hfilter.symm).1]
    | false =>
      rw [Option.filter_some_neg hlive] at hfilter
      have hlive' := Option.filter_some_eq_none.mp hfilter.symm
      rw [hk', eq_tombstoneValue_of_not_isLive hlive,
        eq_tombstoneValue_of_not_isLive (Bool.eq_false_of_not_eq_true hlive')]
  refine ⟨fun k => if (new k).isSome then T k else none, fun k => ?_, fun k => ?_⟩
  · dsimp only
    cases hk : new k with
    | none => exact .none
    | some stored =>
      rw [Option.isSome_some, if_pos rfl, ← hsame k stored hk]
      exact h k
  · dsimp only
    split_ifs with hk
    · exact .inl rfl
    -- the key is gone, so what was selected was no live entry, and stood for a tombstone
    · refine .inr ⟨rfl, ?_⟩
      have hdead : (old k).filter isLive = none := by
        rw [← hview k, Option.not_isSome_iff_eq_none.mp hk]
        rfl
      have hrel := h k
      revert hrel hdead
      generalize old k = r, T k = t
      intro hdead hrel
      cases hrel with
      | none => rfl
      | @some stored v hc =>
        have hlive := Bool.eq_false_of_not_eq_true (Option.filter_some_eq_none.mp hdead)
        obtain rfl : v = tombstoneValue := by
          by_contra hv
          exact hc.ne_tombstoneValue hv (eq_tombstoneValue_of_not_isLive hlive)
        rfl

/-- The contents that are left by the writes to some of the keys. -/
theorem contents_filter (p : Bytes → Bool) (ws : List Write) (k : Bytes) :
    contents (ws.filter fun w => p w.key) k = if p k then contents ws k else none := by
  have hmap : (ws.filter fun w => p w.key).map (fun w => (w.key, w.value)) =
      (ws.map fun w => (w.key, w.value)).filter fun e => p e.1 := by
    rw [List.filter_map]
    rfl
  rw [contents, hmap, lastOf_filter]
  split_ifs <;> rfl

namespace Recoverable

variable {gets : Prop} {dir : Dir} {history : List Write} {log : Log} {T : Bytes → Option Bytes}

/-- The tables of the manifest as it is written. -/
theorem tablesOf (h : Recoverable gets dir history log T) :
    ∃ ms, dir.manifest = some ms ∧
      TablesOK gets dir.tables (some ms) log ms (levelsOf dir.tables ms) T := by
  obtain ⟨metas, htables⟩ := h.tables
  obtain ⟨ms, hms, hperm⟩ := htables.manifest_eq
  refine ⟨ms, hms, ?_⟩
  rw [levelsOf_perm htables.wellFormed.distinct hperm]
  exact htables.perm hperm (List.Perm.refl ms)

/-- Files that the manifest does not name change nothing. -/
theorem keep (h : Recoverable gets dir history log T) {dir' : Dir} {log' : Log} {ms : List TableMeta}
    (hms : dir.manifest = some ms) (hwals : dir'.wals = dir.wals) (hlog : LogOK log')
    (hsegs : dir'.segments = log'.files) (hmanifest : dir'.manifest = some ms)
    (hkept : ∀ m ∈ ms, dir'.tables.get m.filename = dir.tables.get m.filename)
    (hreads : Reads log' (lookupLevels Table.find (levelsOf dir.tables ms)) T) :
    Recoverable gets dir' history log' T := by
  obtain ⟨ms', hms', htables⟩ := h.tablesOf
  obtain rfl := Option.some.inj (hms.symm.trans hms')
  refine ⟨hwals ▸ h.wals, hlog, hsegs, ⟨ms, ?_⟩, h.good, by rw [hwals]; exact h.view_eq⟩
  rw [hmanifest, levelsOf_congr hkept]
  exact { htables.congr hkept with reads := hreads }

/-- **Tables that shed tombstones** leave the contents as they are: the history to compare with is the
old one without the writes to the keys that are gone. -/
theorem shed (h : Recoverable gets dir history log T) {dir' : Dir} {log' : Log}
    {T' : Bytes → Option Bytes} (hwals : dir'.wals = dir.wals) (hlog : LogOK log')
    (hsegs : dir'.segments = log'.files)
    (htables : ∃ metas, TablesOK gets dir'.tables dir'.manifest log' metas
      (levelsOf dir'.tables metas) T')
    (hT : Sheds T T') :
    ∃ history', Recoverable gets dir' history' log' T' ∧ contents history' = contents history := by
  set W := lastOf (recordsOf dir.wals (names dir.wals)) with hW
  let kept : Bytes → Bool := fun k => (overlay W T' k).isSome
  have hview : ∀ k, lastOf (history.map Write.record) k = overlay W T k :=
    fun k => (congrFun h.view_eq k).symm
  have hmap : (history.filter fun w => kept w.key).map Write.record =
      (history.map Write.record).filter fun e => kept e.1 := by
    rw [List.filter_map]
    rfl
  refine ⟨history.filter fun w => kept w.key, ⟨hwals ▸ h.wals, hlog, hsegs, htables,
    fun w hw => h.good w (List.mem_of_mem_filter hw), ?_⟩, ?_⟩
  · rw [hwals, ← hW, hmap]
    funext k
    rw [lastOf_filter, hview]
    show overlay W T' k = if (overlay W T' k).isSome then overlay W T k else none
    rw [overlay_apply, overlay_apply]
    rcases hT k with heq | ⟨hnone, -⟩
    · rw [heq]
      cases (W k).or (T k) <;> rfl
    · rw [hnone, Option.or_none]
      cases W k <;> rfl
  · funext k
    rw [contents_filter]
    split_ifs with hk
    · rfl
    · -- a key that is gone was deleted or never there
      rw [contents_eq (fun w hw => (h.good w hw).1), hview]
      have hnone : overlay W T' k = none := by simpa [kept] using hk
      obtain ⟨hWk, hTk⟩ := Option.or_eq_none_iff.mp hnone
      rw [overlay_apply, hWk, Option.none_or]
      rcases hT k with heq | ⟨-, hdead⟩
      · rw [← heq, hTk]
        rfl
      · exact hdead.symm

end Recoverable

/-! ## Compaction -/

/-- A lookup finds a key exactly if a table has it. -/
theorem WellFormed.lookupLevels_ne_none_iff {files : TableFiles} {ms : List TableMeta}
    (h : WellFormed files ms) {k : Bytes} :
    lookupLevels Table.find (levelsOf files ms) k ≠ none ↔
      ∃ m ∈ ms, (tableOf files m).find k ≠ none := by
  have hperm := orderTableMetaForManifest_perm h.distinct
  rw [h.lookupLevels_order sound_find, Ne, List.findSome?_eq_none_iff]
  push Not
  exact exists_congr fun m => and_congr_left fun _ => hperm.mem_iff

section Compaction

variable {files files' : TableFiles} {ms : List TableMeta} {p : CompactionPlan} {first : ℕ}
  {outputs : List (Bytes × OrdMap Bytes Bytes)}

/-- Every entry afterwards was an entry before. -/
theorem Replaced.entry_source (h : WellFormed files ms) (hp : Planned ms p first)
    (hr : Replaced files files' ms p outputs) {now : ℤ} {m : TableMeta}
    (hm : m ∈ updatedTables ms p outputs now) {e : Bytes × Bytes}
    (he : e ∈ (tableOf files' m).entries.entries) :
    ∃ m' ∈ ms, e ∈ (tableOf files m').entries.entries := by
  have hout := compactTables_outputs (p.inputs.map (tableOf files)) p
  rw [← hr.contents] at hout
  rcases List.mem_append.mp
    ((orderTableMetaForManifest_perm (hr.distinctNames h now)).subset hm) with hm | hm
  · rw [tableOf, hr.kept m hm] at he
    exact ⟨m, List.mem_of_mem_filter hm, he⟩
  · obtain ⟨o, ho, rfl⟩ := List.mem_map.mp hm
    -- the outputs hold what the merge selected, each from one of its inputs
    have hin : e ∈ o.2.entries := by
      simpa [tableOf, tableMetaFromSST, hr.written o ho] using he
    have hget := getList_of_mem hout.sorted
      (List.mem_flatMap.mpr ⟨o.2, List.mem_map_of_mem ho, hin⟩)
    rw [getList_flatMap, hout.get_eq] at hget
    obtain ⟨t, ht, hfind⟩ :=
      List.exists_of_findSome?_eq_some (Option.filter_eq_some_iff.mp hget).1
    obtain ⟨m', hm', rfl⟩ := List.mem_map.mp ht
    exact ⟨m', hp.inputs_subset hm', OrdMap.get_eq_some_iff.mp hfind⟩

/-- **Compacted tables** answer like the old ones, with some tombstones dropped. -/
theorem Replaced.sheds (h : WellFormed files ms) (hp : Planned ms p first)
    (hr : Replaced files files' ms p outputs) (now : ℤ) {log : Log} {T : Bytes → Option Bytes}
    (hreads : Reads log (lookupLevels Table.find (levelsOf files ms)) T) :
    ∃ T', Reads log (lookupLevels Table.find
      (levelsOf files' (updatedTables ms p outputs now))) T' ∧ Sheds T T' := by
  have hwf := hr.wellFormed h hp now
  refine hreads.sheds (fun k => ?_) fun k hk => ?_
  · exact hr.view_eq h hp now (h.firstAnswer sound_find h.loadLevels_eq k)
      (hwf.firstAnswer sound_find hwf.loadLevels_eq k)
  · -- a key that is found afterwards was found before
    obtain ⟨m, hm, hfind⟩ := hwf.lookupLevels_ne_none_iff.mp hk
    obtain ⟨v, hv⟩ := Option.ne_none_iff_exists'.mp hfind
    obtain ⟨m', hm', he⟩ := hr.entry_source h hp hm (OrdMap.get_eq_some_iff.mp hv)
    have hv' : (tableOf files m').find k = some v := OrdMap.get_eq_some_iff.mpr he
    exact h.lookupLevels_ne_none_iff.mpr ⟨m', hm', by simp [hv']⟩

/-- After the rename of the manifest nothing but the temporary directory changes. -/
theorem runSteps_of_commit {dir : Dir} {inputs : List Table} {c : Choices}
    {done rest : List FsStep} (hsteps : compactionSteps inputs ms p c = done ++ rest)
    (hcommit : .renameManifest ∈ done) :
    (runSteps ⟨dir, none, none⟩ done).dir =
      (runSteps ⟨dir, none, none⟩ (commitSteps inputs ms p c)).dir := by
  rcases committed_cases hsteps hcommit with rfl | rfl
  · rfl
  · exact runSteps_compactionSteps_dir _

end Compaction

section Maintenance

variable {gets : Prop} {dir : Dir} {history : List Write} {log : Log} {T : Bytes → Option Bytes}
  {ms : List TableMeta} {opts : Options}

/-- **A compaction that is finished, or stopped before its first removal or after the rename of the
manifest**, leaves the contents. -/
theorem Recoverable.compact {p : CompactionPlan} {inputs : List Table} {c : Choices}
    {done rest : List FsStep} (h : Recoverable gets dir history log T)
    (hms : dir.manifest = some ms) (hplan : plan ms opts = some p)
    (hin : openSSTablesFromMeta dir.tables p.inputs = some inputs)
    (hc : c.Valid dir.tables inputs p) (hsteps : compactionSteps inputs ms p c = done ++ rest)
    (hsafe : (∀ s ∈ done, ¬ s.Removes) ∨ .renameManifest ∈ done) :
    ∃ history' T', Recoverable gets (runSteps ⟨dir, none, none⟩ done).dir history' log T' ∧
      contents history' = contents history := by
  obtain ⟨ms', hms', htables⟩ := h.tablesOf
  obtain rfl := Option.some.inj (hms.symm.trans hms')
  have hwf := htables.wellFormed
  obtain ⟨first, hp⟩ := plan_planned hwf.distinct hplan
  obtain ⟨hwals, hsegs⟩ := runSteps_wals_segments ⟨dir, none, none⟩ done
  by_cases hcommit : .renameManifest ∈ done
  · obtain ⟨tables, temp, hrun, hr, -⟩ := runSteps_commitSteps hwf hp hin hc
    have hdir : (runSteps ⟨dir, none, none⟩ done).dir = _ := runSteps_of_commit hsteps hcommit
    rw [hrun] at hdir
    obtain ⟨T', hreads, hsheds⟩ := hr.sheds hwf hp c.now htables.reads
    have hnew : TablesOK gets tables
        (some (updatedTables ms p (compactionOutputs inputs p c) c.now)) log _ _ T' :=
      { wellFormed := hr.wellFormed hwf hp c.now
        levels_eq := rfl
        manifest_eq := ⟨_, rfl, List.Perm.refl _⟩
        reads := hreads
        records := hsheds.records htables.records
        entries := by
          intro m hm e he
          obtain ⟨m', hm', he'⟩ := hr.entry_source hwf hp hm he
          exact htables.entries m' hm' e he' }
    obtain ⟨history', hrec, hcontents⟩ := h.shed hwals h.log_ok (hsegs.trans h.segments_eq)
      ⟨_, by rw [hdir]; exact hnew⟩ hsheds
    exact ⟨history', T', hrec, hcontents⟩
  · -- so far files were only added, under names that the manifest does not have
    have hadds : ∀ s ∈ done, s.Adds c.names := by
      intro s hs
      rcases mem_compactionSteps (hsteps ▸ List.mem_append_left _ hs) with hadd | ⟨x, -, rfl⟩ | rfl
      · exact hadd
      · exact absurd trivial (hsafe.resolve_right hcommit _ hs)
      · exact absurd hs hcommit
    have hkept : ∀ m ∈ ms, (runSteps ⟨dir, none, none⟩ done).dir.tables.get m.filename =
        dir.tables.get m.filename := fun m hm =>
      runSteps_adds _ hadds (hc.not_mem_names (hwf.present m hm))
    exact ⟨history, T, h.keep hms hwals h.log_ok (hsegs.trans h.segments_eq)
      ((runSteps_manifest _ hcommit).trans hms) hkept htables.reads, rfl⟩

/-! ## Value-log GC -/

/-- A recoverable directory is one that the GC can rewrite. -/
theorem Recoverable.storeDir (h : Recoverable gets dir history log T)
    (hms : dir.manifest = some ms) : StoreDir dir ms T := by
  obtain ⟨ms', hms', htables⟩ := h.tablesOf
  obtain rfl := Option.some.inj (hms.symm.trans hms')
  refine ⟨hms, htables.wellFormed, fun m hm e he => (htables.entries m hm e he).fits,
    h.segments_eq ▸ h.log_ok.records, fun {limit now log'} hopen => ?_,
    fun k v hv => (htables.records k v hv).sendable.plain, h.wals.holds, h.wals.named,
    fun e he r hr => ⟨(h.wals.good e he r hr).sendable, False.elim⟩⟩
  obtain ⟨l, hopen', hfiles, hactive, -⟩ := h.log_ok.open_eq limit now
  rw [← h.segments_eq] at hopen'
  obtain rfl := Except.ok.inj (hopen.symm.trans hopen')
  exact htables.reads.mono (extends_of_files hfiles hactive)

variable {c : GcChoices} {oldNow newNow : UInt64} {r : RewriteState} {listing : List TempFile}
  {done rest : List GcStep}

/-- No key is in two outputs. -/
theorem StoreDir.keys_nodup (h : StoreDir dir ms T)
    (hr : rewriteLive dir opts c oldNow newNow = .ok r) :
    ((outputEntries r.rebuilt.flushed).map Prod.fst).Nodup := by
  obtain ⟨levels, newVlog, hlevels, -, -, hrun, -⟩ := rewriteLive_eq_ok hr
  rw [openManifest, h.manifest_eq, Option.getD_some] at hlevels
  obtain rfl : levelsOf dir.tables ms = levels :=
    Option.some.inj (h.wellFormed.loadLevels_eq ▸ hlevels)
  rw [rebuildLiveState_eq, flatMap_levelsOf] at hrun
  exact (foldlM_rebuildTable hrun).keys_nodup

/-- Every other step comes after all renames of new files. -/
theorem renamed_of_later (hsteps : replaceRewrittenFiles r listing = done ++ rest) {s : GcStep}
    (hs : s ∈ done) (hlater : ∀ f, s ≠ .rename f) {f : TempFile} (hf : f ∈ listing) :
    .rename f ∈ done := by
  rw [replaceRewrittenFiles] at hsteps
  rcases List.append_eq_append_iff.mp hsteps with ⟨as, rfl, -⟩ | ⟨as, hrenames, -⟩
  · exact List.mem_append_left _ (List.mem_map_of_mem hf)
  · have hmem : s ∈ listing.map GcStep.rename := hrenames ▸ List.mem_append_left _ hs
    obtain ⟨f', -, heq⟩ := List.mem_map.mp hmem
    exact absurd heq.symm (hlater f')

/-- There is a segment at every point: the old ones stay until the new ones are in place. -/
theorem FreshFiles.segments_ne_nil (hfresh : FreshFiles dir r) (hlist : listing.Perm r.tempFiles)
    (hsteps : replaceRewrittenFiles r listing = done ++ rest) :
    (runGcSteps (r.start dir) done).segments.entries ≠ [] := by
  have hne : ∀ {id : UInt64} {f : Bytes},
      (runGcSteps (r.start dir) done).segments.get id = some f →
      (runGcSteps (r.start dir) done).segments.entries ≠ [] :=
    fun hget => List.ne_nil_of_mem (OrdMap.get_eq_some_iff.mp hget)
  -- once a segment is removed all new ones are in place; before that all old ones are
  by_cases hrem : ∃ id, .removeSegment id ∈ done
  · obtain ⟨id, hrem⟩ := hrem
    have hget := r.rebuilt.log.get_activeFile
    have hin : .segment r.rebuilt.log.active.id r.rebuilt.log.activeFile ∈ listing :=
      hlist.mem_iff.mpr (mem_tempFiles_segment.mpr (OrdMap.get_eq_some_iff.mp hget))
    exact hne (hfresh.segment_new hlist hsteps hget (renamed_of_later hsteps hrem (by simp) hin))
  · push Not at hrem
    exact hne (hfresh.segment_kept hlist hsteps hrem r.oldVlog.get_activeFile)

/-- The entries of the outputs carry the live records. -/
theorem StoreDir.outputs_ok (h : StoreDir dir ms T) (hT : ∀ k v, T k = some v → Good gets (k, v))
    (hok : RewriteOK dir ms T c r) (hr : rewriteLive dir opts c oldNow newNow = .ok r)
    {e : Bytes × Bytes} (he : e ∈ outputEntries r.rebuilt.flushed) : EntryOK gets e := by
  have hsel := (lookupLevels_outputs hok.wellFormed (h.keys_nodup hr)).mpr he
  have hrel := hok.newReads e.1
  rw [hsel] at hrel
  dsimp only at hrel
  -- an entry of the outputs is selected for its key, so the record it carries is not a tombstone
  cases hv : (T e.1).filter (· ≠ tombstoneValue) with
  | none =>
    rw [hv] at hrel
    cases hrel
  | some v =>
    rw [hv] at hrel
    cases hrel with
    | some hc => exact hc.entryOK (hT e.1 v (Option.filter_eq_some_iff.mp hv).1)

/-- **A value-log GC that is finished, or stopped before it removes a table or after the rename of the
manifest**, leaves the contents. -/
theorem Recoverable.gc (h : Recoverable gets dir history log T)
    (hnames : ∀ i j name, c.flush i = some name → c.flush j = some name → i = j)
    (hr : rewriteLive dir opts c oldNow newNow = .ok r) (hfresh : FreshFiles dir r)
    (hlist : listing.Perm r.tempFiles) (hsteps : replaceRewrittenFiles r listing = done ++ rest)
    (hsafe : (∀ name, .removeTable name ∉ done) ∨ ∃ tables, .renameManifest tables ∈ done) :
    ∃ history' log' T', Recoverable gets (runGcSteps (r.start dir) done) history' log' T' ∧
      contents history' = contents history := by
  obtain ⟨ms, hms, htables⟩ := h.tablesOf
  have hstore := h.storeDir hms
  have hok := hstore.rewriteOK hnames hr
  have hwals : (runGcSteps (r.start dir) done).wals = dir.wals := runGcSteps_wals _ _
  have hpresent : ∀ m ∈ r.oldTables, (dir.tables.get m.filename).isSome :=
    hok.oldTables_eq ▸ htables.wellFormed.present
  -- the log that finds the segments as they are
  obtain ⟨log', -, hopened⟩ := WholeRecords.open (hok.stopped_whole hlist hsteps) 0 0
  have hfiles := hopened.files_eq (hfresh.segments_ne_nil hlist hsteps)
  have hget : ∀ id f, (runGcSteps (r.start dir) done).segments.get id = some f →
      log'.files.get id = some f := fun id f hf => hfiles ▸ hf
  by_cases hcommit : ∃ tables, .renameManifest tables ∈ done
  · obtain ⟨tables, hcommit⟩ := hcommit
    obtain ⟨hwf, hreads⟩ := hstore.reads_new hfresh hlist hsteps hok hcommit
    have hsheds : Sheds T fun k => (T k).filter (· ≠ tombstoneValue) := by
      intro k
      dsimp only
      cases hk : T k with
      | none => exact .inl rfl
      | some v =>
        by_cases hv : v = tombstoneValue
        · subst hv
          exact .inr ⟨rfl, rfl⟩
        · exact .inl (Option.filter_some_pos (by simpa using hv))
    have hnew : TablesOK gets _ (runGcSteps (r.start dir) done).manifest log' _ _ _ :=
      { wellFormed := hwf
        levels_eq := rfl
        manifest_eq := ⟨_, manifest_of_commit hsteps hcommit, List.Perm.refl _⟩
        reads := hreads hopened.ok hget
        records := hsheds.records htables.records
        entries := by
          intro m hm e he
          have hm' := (orderTableMetaForManifest_perm hok.wellFormed.distinct).subset hm
          obtain ⟨o, ho, rfl⟩ := List.mem_map.mp hm'
          rw [tableOf, tables_of_commit hlist hsteps hfresh.tables hok.wellFormed.distinct hpresent
            hcommit hm', get_outputFiles hok.wellFormed.distinct ho, Option.getD_some] at he
          exact hstore.outputs_ok htables.records hok hr (List.mem_flatMap.mpr ⟨o, ho, he⟩) }
    obtain ⟨history', hrec, hcontents⟩ := h.shed hwals hopened.ok hfiles.symm ⟨_, hnew⟩ hsheds
    exact ⟨history', log', _, hrec, hcontents⟩
  · have hno := hsafe.resolve_right hcommit
    have hkept : ∀ m ∈ ms, (runGcSteps (r.start dir) done).tables.get m.filename =
        dir.tables.get m.filename := fun m hm =>
      table_kept hfresh.tables hlist hsteps hno (htables.wellFormed.present m hm)
    have hmanifest : (runGcSteps (r.start dir) done).manifest = some ms := by
      rw [runGcSteps_manifest fun tables hmem => hcommit ⟨tables, hmem⟩, RewriteState.start,
        hok.oldTables_eq]
    exact ⟨history, log', T, h.keep hms hwals hopened.ok hfiles.symm hmanifest hkept
      (hstore.reads_kept hfresh hlist hsteps hok hno hopened.ok hget), rfl⟩

end Maintenance

end Seol
