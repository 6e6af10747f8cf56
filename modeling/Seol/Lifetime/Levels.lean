import Mathlib.Logic.Relation
import Seol.Compaction.Execute
import Seol.Gc.Replace

/-!
# The levels over the lifetime of a store

Reference: `installFlushedTable` and `openDB` in `db.go`, `Compact` in `compaction.go`,
`RunValueLogGC` in `gc.go`. The tables of a store change when a flushed table is installed, when a
compaction or a value-log GC replaces them, and are loaded again when the store is opened. Everything
else a store does touches only WAL files and value-log segments.
-/

namespace Seol

open Common Vlog

/-! ## The model -/

/-- What `buildLevelState` returns: the levels, and their metadata and tables in one list each. -/
structure LevelIndex where
  levels : List LevelState
  tableMeta : List TableMeta
  sstables : List Table

/-- The lists are collected level by level. -/
def LevelIndex.of (levels : List LevelState) : LevelIndex :=
  ⟨levels, levels.flatMap LevelState.metas, levels.flatMap LevelState.tables⟩

/-- A store as far as its tables go: the directory, `db.levels`, `db.tableMeta` and `db.sstables`, and
the latest timestamp that named a table. -/
structure Tree where
  dir : Dir
  index : LevelIndex
  last : ℕ

/-- `openDB`: load the tables of the manifest. -/
def openTree (dir : Dir) (now : ℤ) (last : ℕ) : Option Tree :=
  (loadLevels dir.tables (openManifest dir now)).map fun levels =>
    ⟨{ dir with manifest := some (openManifest dir now) }, LevelIndex.of levels, last⟩

/-- A flush at reading `t`, and `installFlushedTable`. -/
def Tree.install (s : Tree) (t : ℕ) (now : ℤ) (entries : OrdMap Bytes Bytes) : Option Tree :=
  let sst : Table := ⟨sstableID t, entries⟩
  let updatedMeta := tableMetaFromSST sst 0 now :: s.index.tableMeta
  (buildLevelState updatedMeta (sst :: s.index.sstables)).map fun levels =>
    ⟨{ s.dir with
        tables := s.dir.tables.insert (sstableID t) entries
        manifest := some updatedMeta },
      LevelIndex.of levels, t⟩

/-- One event in the life of a store, without I/O errors and with strictly increasing timestamps, in
which a directory is compacted only by plans that `allowed` admits. A `Compact` without a plan is a
reopening, as is a plain `Close` and `Open`. -/
inductive TreeStep (allowed : Dir → CompactionPlan → Prop) : Tree → Tree → Prop
  | install {s s' : Tree} (t : ℕ) (now : ℤ) (entries : OrdMap Bytes Bytes)
      (hne : entries.entries ≠ []) (ht : s.last < t) (h : s.install t now entries = some s') :
      TreeStep allowed s s'
  | reopen {s s' : Tree} (now : ℤ) (h : openTree s.dir now s.last = some s') :
      TreeStep allowed s s'
  | compact {s s' : Tree} {p : CompactionPlan} {inputs : List Table} (opts : Options) (c : Choices)
      (now : ℤ) (last : ℕ) (hplan : plan (openManifest s.dir now) opts = some p)
      (hallowed : allowed s.dir p)
      (hin : openSSTablesFromMeta s.dir.tables p.inputs = some inputs)
      (hcount : c.times.length = (compactTables inputs p).length)
      (hremoves : c.order.Perm (p.inputs.map TableMeta.filename).dedup)
      (hsorted : c.times.Pairwise (· < ·)) (hlater : ∀ t ∈ c.times, s.last < t ∧ t ≤ last)
      (hlast : s.last ≤ last)
      (h : openTree (runSteps ⟨s.dir, none, none⟩
        (compactionSteps inputs (openManifest s.dir now) p c)).dir now last = some s') :
      TreeStep allowed s s'
  | gc {s s' : Tree} {r : RewriteState} {listing : List TempFile} (opts : Options) (c : GcChoices)
      (times : ℕ → ℕ) (oldNow newNow : UInt64) (now : ℤ) (last : ℕ)
      (hflush : ∀ i, c.flush i = some (sstableID (times i))) (hsorted : StrictMono times)
      (hlater : ∀ i, s.last < times i) (hused : ∀ i < r.rebuilt.flushed.length, times i ≤ last)
      (hlast : s.last ≤ last) (hr : rewriteLive s.dir opts c oldNow newNow = .ok r)
      (hlist : listing.Perm r.tempFiles)
      (h : openTree (runGcSteps (r.start s.dir) (replaceRewrittenFiles r listing)) now last =
        some s') :
      TreeStep allowed s s'
  | data (s : Tree) (wals : OrdMap Bytes Bytes) (segments : OrdMap UInt64 Bytes) :
      TreeStep allowed s { s with dir := { s.dir with wals := wals, segments := segments } }

/-! ## The invariant -/

/-- The index of a manifest: its tables grouped by level, each level in read order. -/
def indexOf (files : TableFiles) (ms : List TableMeta) : LevelIndex :=
  ⟨levelsOf files ms, orderTableMetaForManifest ms,
    (orderTableMetaForManifest ms).map (tableOf files)⟩

theorem indexOf_eq (files : TableFiles) (ms : List TableMeta) :
    LevelIndex.of (levelsOf files ms) = indexOf files ms := by
  simp only [LevelIndex.of, indexOf, orderTableMetaForManifest_eq, levelsOf, List.flatMap_map,
    List.map_flatMap]

/-- The manifest belongs to the files and to the index in memory, and no table file is left over. -/
structure TreeInv (s : Tree) (ms : List TableMeta) : Prop where
  manifest_eq : s.dir.manifest = some ms
  wellFormed : WellFormed s.dir.tables ms
  complete : ∀ name, (s.dir.tables.get name).isSome → ∃ m ∈ ms, m.filename = name
  named : ∀ m ∈ ms, ∃ t ≤ s.last, m.filename = sstableID t
  index_eq : s.index = indexOf s.dir.tables ms

/-- What `openTree` keeps of the directory. -/
theorem openTree_eq {dir : Dir} {now : ℤ} {last : ℕ} {s : Tree}
    (h : openTree dir now last = some s) : s.dir.tables = dir.tables ∧ s.last = last := by
  obtain ⟨levels, -, rfl⟩ := Option.map_eq_some_iff.mp h
  exact ⟨rfl, rfl⟩

/-- **Opening** a directory whose manifest and files belong together. -/
theorem openTree_inv {dir : Dir} {now : ℤ} {last : ℕ} {s : Tree} {ms : List TableMeta}
    (hms : openManifest dir now = ms) (hwf : WellFormed dir.tables ms)
    (hcomplete : ∀ name, (dir.tables.get name).isSome → ∃ m ∈ ms, m.filename = name)
    (hnamed : ∀ m ∈ ms, ∃ t ≤ last, m.filename = sstableID t)
    (h : openTree dir now last = some s) : TreeInv s ms := by
  rw [openTree, hms, hwf.loadLevels_eq, Option.map_some, Option.some.injEq] at h
  subst h
  exact ⟨rfl, hwf, hcomplete, hnamed, indexOf_eq _ _⟩

section Steps

variable {s s' : Tree} {ms : List TableMeta} (hs : TreeInv s ms)

include hs

theorem TreeInv.openManifest_eq (now : ℤ) : openManifest s.dir now = ms := by
  rw [openManifest, hs.manifest_eq, Option.getD_some]

/-- A later timestamp names no table yet. -/
theorem TreeInv.fresh {t : ℕ} (ht : s.last < t) : s.dir.tables.get (sstableID t) = none := by
  by_contra hne
  obtain ⟨m, hm, hname⟩ := hs.complete _ (Option.isSome_iff_ne_none.mpr hne)
  obtain ⟨t', hle, hname'⟩ := hs.named m hm
  have := sstableID_injective (hname.symm.trans hname')
  omega

theorem TreeInv.reopen {now : ℤ} (h : openTree s.dir now s.last = some s') : TreeInv s' ms :=
  openTree_inv (hs.openManifest_eq now) hs.wellFormed hs.complete hs.named h

/-- **An installed table** joins level 0. -/
theorem TreeInv.install {t : ℕ} {now : ℤ} {entries : OrdMap Bytes Bytes}
    (hne : entries.entries ≠ []) (ht : s.last < t) (h : s.install t now entries = some s') :
    TreeInv s' (tableMetaFromSST ⟨sstableID t, entries⟩ 0 now :: orderTableMetaForManifest ms) ∧
      s'.dir.tables = s.dir.tables.insert (sstableID t) entries ∧ s'.last = t := by
  have hperm := orderTableMetaForManifest_perm hs.wellFormed.distinct
  have hfree := hs.fresh ht
  set m := tableMetaFromSST ⟨sstableID t, entries⟩ 0 now with hm
  set files := s.dir.tables.insert (sstableID t) entries with hfiles
  have hget : files.get m.filename = some entries := by
    rw [hfiles, OrdMap.get_insert]
    exact if_pos rfl
  -- the reading is later than all before, so no table has the name
  have hkept : ∀ m' ∈ orderTableMetaForManifest ms, m'.filename ≠ sstableID t := by
    intro m' hm' heq
    have := hs.wellFormed.present m' (hperm.subset hm')
    rw [heq, hfree] at this
    simp at this
  have hwf : WellFormed files (m :: orderTableMetaForManifest ms) := by
    have hold := (hs.wellFormed.perm hperm).insert hkept entries
    refine ⟨?_, List.forall_mem_cons.mpr ⟨by rw [hget]; rfl, hold.present⟩,
      List.forall_mem_cons.mpr ⟨?_, hold.describes⟩, fun level hl => ?_⟩
    · rw [DistinctNames, List.map_cons]
      refine List.nodup_cons.mpr ⟨fun hmem => ?_, hold.distinct⟩
      obtain ⟨m', hm', heq⟩ := List.mem_map.mp hmem
      exact hkept m' hm' heq
    · rw [tableOf, hget]
      exact ⟨rfl, hne, rfl, rfl⟩
    · rw [List.filter_cons, if_neg (by simpa [hm, tableMetaFromSST] using hl.symm)]
      exact hold.disjoint level hl
  -- the process builds the levels from its own list, with the new table in front
  have hbuild : buildLevelState (m :: orderTableMetaForManifest ms) (⟨sstableID t, entries⟩ ::
      (orderTableMetaForManifest ms).map (tableOf s.dir.tables)) =
      some (levelsOf (s.dir.tables.insert (sstableID t) entries)
        (m :: orderTableMetaForManifest ms)) := buildLevelState_install rfl hwf.distinct
  have hmeta : s.index.tableMeta = orderTableMetaForManifest ms := by rw [hs.index_eq]; rfl
  have htables : s.index.sstables = (orderTableMetaForManifest ms).map (tableOf s.dir.tables) := by
    rw [hs.index_eq]; rfl
  simp only [Tree.install, hmeta, htables, ← hm, hbuild, Option.map_some, Option.some.injEq] at h
  subst h
  refine ⟨⟨rfl, hwf, fun name hname => ?_, List.forall_mem_cons.mpr ⟨⟨t, le_rfl, rfl⟩, ?_⟩,
    indexOf_eq _ _⟩, rfl, rfl⟩
  -- every file is named: the new one, and the others as before
  · dsimp only at hname
    rw [OrdMap.get_insert] at hname
    split_ifs at hname with heq
    · exact ⟨m, List.mem_cons_self, heq⟩
    · obtain ⟨m', hm', hname'⟩ := hs.complete name hname
      exact ⟨m', List.mem_cons_of_mem _ (hperm.symm.subset hm'), hname'⟩
  · intro m' hm'
    obtain ⟨t', hle, hname⟩ := hs.named m' (hperm.subset hm')
    exact ⟨t', hle.trans ht.le, hname⟩

/-- **A compaction** replaces its inputs by its outputs. -/
theorem TreeInv.compact {opts : Options} {p : CompactionPlan} {c : Choices} {inputs : List Table}
    {now : ℤ} {last : ℕ} (hplan : plan ms opts = some p)
    (hin : openSSTablesFromMeta s.dir.tables p.inputs = some inputs)
    (hcount : c.times.length = (compactTables inputs p).length)
    (hremoves : c.order.Perm (p.inputs.map TableMeta.filename).dedup)
    (hsorted : c.times.Pairwise (· < ·)) (hlater : ∀ t ∈ c.times, s.last < t ∧ t ≤ last)
    (hlast : s.last ≤ last)
    (h : openTree (runSteps ⟨s.dir, none, none⟩ (compactionSteps inputs ms p c)).dir now last =
      some s') :
    TreeInv s' (updatedTables ms p (compactionOutputs inputs p c) c.now) ∧
      Replaced s.dir.tables s'.dir.tables ms p (compactionOutputs inputs p c) ∧
      s'.last = last := by
  obtain ⟨first, hp⟩ := plan_planned hs.wellFormed.distinct hplan
  have hnodup : c.names.Nodup :=
    List.Nodup.map sstableID_injective (hsorted.imp fun hlt => hlt.ne)
  -- the outputs are named by readings later than all before
  have hfresh : ∀ name ∈ c.names, s.dir.tables.get name = none := by
    intro name hname
    obtain ⟨t, ht, rfl⟩ := List.mem_map.mp hname
    exact hs.fresh (hlater t ht).1
  have hc : c.Valid s.dir.tables inputs p := ⟨hcount, hnodup, hfresh, hremoves⟩
  obtain ⟨tables, temp, hrun, hr, hleft⟩ := runSteps_commitSteps hs.wellFormed hp hin hc
  have hwf := hr.wellFormed hs.wellFormed hp c.now
  have hmem : ∀ m, m ∈ updatedTables ms p (compactionOutputs inputs p c) c.now ↔
      m ∈ keptTables ms p ∨ m ∈ outputMeta p (compactionOutputs inputs p c) c.now := fun m => by
    rw [updatedTables, (orderTableMetaForManifest_perm
      (hr.distinctNames hs.wellFormed c.now)).mem_iff, List.mem_append]
  rw [runSteps_compactionSteps_dir, hrun] at h
  obtain ⟨htables, hlast'⟩ := openTree_eq h
  refine ⟨openTree_inv rfl hwf (fun name hname => ?_) (fun m hm => ?_) h, htables ▸ hr, hlast'⟩
  -- a file that is left is an output, or was there and is no input
  · rcases hleft name hname with hout | ⟨hnot, hold⟩
    · rw [← hc.outputs_fst] at hout
      obtain ⟨o, ho, rfl⟩ := List.mem_map.mp hout
      exact ⟨_, (hmem _).mpr (.inr (List.mem_map_of_mem ho)), rfl⟩
    · obtain ⟨m, hm, rfl⟩ := hs.complete name hold
      refine ⟨m, (hmem m).mpr (.inl (List.mem_filter.mpr ⟨hm, ?_⟩)), rfl⟩
      simpa [hremoves.mem_iff] using hnot
  · rcases (hmem m).mp hm with hkept | hout
    · obtain ⟨t, hle, hname⟩ := hs.named m (List.mem_of_mem_filter hkept)
      exact ⟨t, hle.trans hlast, hname⟩
    · obtain ⟨o, ho, rfl⟩ := List.mem_map.mp hout
      have hname : o.1 ∈ c.names := hc.outputs_fst ▸ List.mem_map_of_mem ho
      obtain ⟨t, ht, heq⟩ := List.mem_map.mp hname
      exact ⟨t, (hlater t ht).2, heq.symm⟩

/-- A rewrite works on the tables of the manifest. -/
theorem TreeInv.rebuilt {opts : Options} {c : GcChoices} {r : RewriteState}
    {oldNow newNow : UInt64} (hr : rewriteLive s.dir opts c oldNow newNow = .ok r) :
    r.oldTables = ms ∧ ∃ newVlog, Rebuilt c r.oldVlog (scanSources s.dir.tables ms)
      ⟨[], newVlog, OrdMap.empty, 0, []⟩ r.rebuilt := by
  obtain ⟨levels, newVlog, hlevels, -, -, hrun, hold⟩ := rewriteLive_eq_ok hr
  rw [hs.openManifest_eq, hs.wellFormed.loadLevels_eq, Option.some.injEq] at hlevels
  rw [hs.openManifest_eq] at hold
  rw [← hlevels, rebuildLiveState_eq, flatMap_levelsOf] at hrun
  exact ⟨hold, newVlog, foldlM_rebuildTable hrun⟩

/-- After the replacement every table file is an output. A file that no step touches was there before,
so the manifest named it and it was removed. -/
theorem TreeInv.gc_complete {r : RewriteState} {listing : List TempFile} (hold : r.oldTables = ms)
    (hlist : listing.Perm r.tempFiles)
    (hfresh : ∀ o ∈ r.rebuilt.flushed, s.dir.tables.get o.info.filename = none) {name : Bytes}
    (hsome : ((runGcSteps (r.start s.dir) (replaceRewrittenFiles r listing)).tables.get name).isSome) :
    ∃ o ∈ r.rebuilt.flushed, o.info.filename = name := by
  have hsteps : replaceRewrittenFiles r listing = replaceRewrittenFiles r listing ++ [] :=
    (List.append_nil _).symm
  rw [runGcSteps_tables, OrdMap.get_updateAll] at hsome
  -- a file without a step would be an old table, and those have a removal each
  cases hop : lastOf ((replaceRewrittenFiles r listing).filterMap GcStep.tableOp) name with
  | none =>
    rw [hop, Option.getD_none] at hsome
    obtain ⟨m, hm, rfl⟩ := hs.complete name hsome
    have hrem : .removeTable m.filename ∈ replaceRewrittenFiles r listing := by
      have hnot := not_mem_tableNames hfresh hlist hsome
      simp only [replaceRewrittenFiles, removals, List.mem_append, List.mem_map, List.mem_filter]
      exact .inr (.inl (.inl ⟨_, ⟨⟨m, hold.symm ▸ hm, rfl⟩, decide_eq_true hnot⟩, rfl⟩))
    have hgone := lastOf_eq_none_iff.mp hop (m.filename, none)
      (List.mem_filterMap.mpr ⟨_, hrem, rfl⟩)
    exact absurd rfl hgone
  | some o =>
    rw [hop, Option.getD_some] at hsome
    rcases tableOp_cases hlist hsteps (mem_of_lastOf hop) with ⟨out, hout, rfl, -⟩ | ⟨rfl, -⟩
    · exact ⟨out, hout, rfl⟩
    · simp at hsome

/-- **A value-log GC** replaces all tables by the rewritten ones. -/
theorem TreeInv.gc {opts : Options} {c : GcChoices} {times : ℕ → ℕ} {r : RewriteState}
    {listing : List TempFile} {oldNow newNow : UInt64} {now : ℤ} {last : ℕ}
    (hflush : ∀ i, c.flush i = some (sstableID (times i))) (hsorted : StrictMono times)
    (hlater : ∀ i, s.last < times i) (hused : ∀ i < r.rebuilt.flushed.length, times i ≤ last)
    (hr : rewriteLive s.dir opts c oldNow newNow = .ok r) (hlist : listing.Perm r.tempFiles)
    (h : openTree (runGcSteps (r.start s.dir) (replaceRewrittenFiles r listing)) now last =
      some s') :
    TreeInv s' (orderTableMetaForManifest (outputMetas r.rebuilt.flushed)) ∧
      DistinctNames (outputMetas r.rebuilt.flushed) ∧
      (∀ m ∈ outputMetas r.rebuilt.flushed,
        s'.dir.tables.get m.filename = (outputFiles r.rebuilt.flushed).get m.filename) ∧
      s'.last = last := by
  obtain ⟨hold, newVlog, hdone⟩ := hs.rebuilt hr
  have hnames : ∀ i j name, c.flush i = some name → c.flush j = some name → i = j := by
    intro i j name hi hj
    rw [hflush, Option.some.injEq] at hi hj
    exact hsorted.injective (sstableID_injective (hi.trans hj.symm))
  have hwf := hdone.wellFormed hs.wellFormed (hdone.distinctNames hnames)
  have hperm := orderTableMetaForManifest_perm hwf.distinct
  have hnamedBy : NamedBy c r.rebuilt.flushed := hdone.named fun i o ho => by simp at ho
  -- the name of an output is one of the readings
  have hname : ∀ o ∈ r.rebuilt.flushed, ∃ i < r.rebuilt.flushed.length,
      o.info.filename = sstableID (times i) := by
    intro o ho
    obtain ⟨i, hi⟩ := List.mem_iff_getElem?.mp ho
    have hflush' := hnamedBy i o hi
    rw [hflush, Option.some.injEq] at hflush'
    exact ⟨i, (List.getElem?_eq_some_iff.mp hi).1, hflush'.symm⟩
  have hfresh : ∀ o ∈ r.rebuilt.flushed, s.dir.tables.get o.info.filename = none := by
    intro o ho
    obtain ⟨i, -, heq⟩ := hname o ho
    rw [heq]
    exact hs.fresh (hlater i)
  have hpresent : ∀ m ∈ r.oldTables, (s.dir.tables.get m.filename).isSome :=
    hold ▸ hs.wellFormed.present
  have hsteps : replaceRewrittenFiles r listing = replaceRewrittenFiles r listing ++ [] :=
    (List.append_nil _).symm
  have hcommit : .renameManifest (orderTableMetaForManifest (outputMetas r.rebuilt.flushed)) ∈
      replaceRewrittenFiles r listing := by simp [replaceRewrittenFiles]
  have htables : ∀ m ∈ outputMetas r.rebuilt.flushed,
      (runGcSteps (r.start s.dir) (replaceRewrittenFiles r listing)).tables.get m.filename =
        (outputFiles r.rebuilt.flushed).get m.filename := fun m hm =>
    tables_of_commit hlist hsteps hfresh hwf.distinct hpresent hcommit hm
  have hms : openManifest (runGcSteps (r.start s.dir) (replaceRewrittenFiles r listing)) now =
      orderTableMetaForManifest (outputMetas r.rebuilt.flushed) := by
    have hmanifest : (runGcSteps (r.start s.dir) (replaceRewrittenFiles r listing)).manifest = _ :=
      manifest_of_commit hsteps hcommit
    rw [openManifest, hmanifest, Option.getD_some]
  obtain ⟨htables', hlast'⟩ := openTree_eq h
  refine ⟨openTree_inv hms ((hwf.congr htables).perm hperm) (fun name hsome => ?_) (fun m hm => ?_) h,
    hwf.distinct, htables' ▸ htables, hlast'⟩
  · obtain ⟨o, ho, rfl⟩ := hs.gc_complete hold hlist hfresh hsome
    exact ⟨o.info, hperm.symm.subset (List.mem_map_of_mem ho), rfl⟩
  · obtain ⟨o, ho, rfl⟩ := List.mem_map.mp (hperm.subset hm)
    obtain ⟨i, hi, heq⟩ := hname o ho
    exact ⟨times i, hused i hi, heq⟩

theorem TreeInv.data (wals : OrdMap Bytes Bytes) (segments : OrdMap UInt64 Bytes) :
    TreeInv { s with dir := { s.dir with wals := wals, segments := segments } } ms :=
  ⟨hs.manifest_eq, hs.wellFormed, hs.complete, hs.named, hs.index_eq⟩

/-- **Every event keeps the invariant.** -/
theorem TreeInv.step {allowed : Dir → CompactionPlan → Prop} (h : TreeStep allowed s s') :
    ∃ ms', TreeInv s' ms' := by
  cases h with
  | install _ _ _ hne ht h => exact ⟨_, (hs.install hne ht h).1⟩
  | reopen _ h => exact ⟨ms, hs.reopen h⟩
  | compact _ _ now _ hplan _ hin hcount hremoves hsorted hlater hlast h =>
    rw [hs.openManifest_eq now] at hplan h
    exact ⟨_, (hs.compact hplan hin hcount hremoves hsorted hlater hlast h).1⟩
  | gc _ _ _ _ _ _ _ hflush hsorted hlater hused _ hr hlist h =>
    exact ⟨_, (hs.gc hflush hsorted hlater hused hr hlist h).1⟩
  | data wals segments => exact ⟨ms, hs.data _ _⟩

end Steps

/-- An empty directory, opened for the first time. -/
theorem openTree_empty {now : ℤ} {s : Tree} (h : openTree Dir.empty now 0 = some s) :
    TreeInv s [] :=
  openTree_inv rfl ⟨List.nodup_nil, by simp, by simp, by simp⟩
    (fun name hname => by simp [Dir.empty] at hname) (by simp) h

theorem tree_invariant {allowed : Dir → CompactionPlan → Prop} {now : ℤ} {s₀ s : Tree}
    (h₀ : openTree Dir.empty now 0 = some s₀)
    (hrun : Relation.ReflTransGen (TreeStep allowed) s₀ s) : ∃ ms, TreeInv s ms := by
  induction hrun with
  | refl => exact ⟨[], openTree_empty h₀⟩
  | tail _ hstep ih =>
    obtain ⟨ms, hinv⟩ := ih
    exact hinv.step hstep

/-- The keys of a table file. -/
def keysOf (entries : OrdMap Bytes Bytes) : Set Bytes := { k | (entries.get k).isSome }

/-! ## A lifetime -/

instance {K V : Type*} [LinearOrder K] [DecidableEq K] [DecidableEq V] : DecidableEq (OrdMap K V) :=
  fun _ _ => decidable_of_iff _ OrdMap.ext_iff.symm

deriving instance DecidableEq for Table, LevelState, LevelIndex, Dir, Tree

/-- A store with the given tables and nothing else. -/
def treeOf (tables : List (ℕ × OrdMap Bytes Bytes)) (metas : List TableMeta) (last : ℕ) : Tree :=
  ⟨⟨OrdMap.empty.insertAll (tables.map fun t => (sstableID t.1, t.2)), OrdMap.empty, OrdMap.empty,
      some metas⟩,
    LevelIndex.of (levelsOf (OrdMap.empty.insertAll (tables.map fun t => (sstableID t.1, t.2))) metas),
    last⟩

/-- The tables of the lifetime: both keys, then a newer value for each of them. -/
def bothKeys : OrdMap Bytes Bytes := ⟨[([97], [1]), ([122], [1])], by decide⟩
def newA : OrdMap Bytes Bytes := ⟨[([97], [2])], by decide⟩
def newZ : OrdMap Bytes Bytes := ⟨[([122], [2])], by decide⟩
def merged : OrdMap Bytes Bytes := ⟨[([97], [2]), ([122], [1])], by decide⟩

def metaAt (t level : ℕ) (lo hi : Bytes) : TableMeta := ⟨sstableID t, level, lo, hi, t⟩

/-- A table with two keys goes to level 1, and a newer one for the first key follows. -/
theorem lifetime_start {allowed : Dir → CompactionPlan → Prop}
    (hallowed : allowed (treeOf [(1, bothKeys)] [metaAt 1 0 [97] [122]] 1).dir
      ⟨0, 1, [metaAt 1 0 [97] [122]], [], defaultMemtableMaxBytes, true⟩) :
    Relation.ReflTransGen (TreeStep allowed) (treeOf [] [] 0)
      (treeOf [(2, bothKeys), (3, newA)] [metaAt 3 0 [97] [97], metaAt 2 1 [97] [122]] 3) := by
  have h1 : TreeStep allowed (treeOf [] [] 0) (treeOf [(1, bothKeys)] [metaAt 1 0 [97] [122]] 1) :=
    .install 1 0 bothKeys (by decide) (by decide) (by decide +kernel)
  have h2 : TreeStep allowed (treeOf [(1, bothKeys)] [metaAt 1 0 [97] [122]] 1)
      (treeOf [(2, bothKeys)] [metaAt 2 1 [97] [122]] 2) :=
    .compact ⟨0, 0, 0⟩ ⟨[2], [sstableID 1], 0⟩ 0 2
      (show _ = some ⟨0, 1, [metaAt 1 0 [97] [122]], [], defaultMemtableMaxBytes, true⟩ by
        decide +kernel) hallowed
      (show _ = some [⟨sstableID 1, bothKeys⟩] by decide +kernel) (by decide +kernel)
      (by decide +kernel) (by decide) (by decide) (by decide) (by decide +kernel)
  have h3 : TreeStep allowed (treeOf [(2, bothKeys)] [metaAt 2 1 [97] [122]] 2)
      (treeOf [(2, bothKeys), (3, newA)] [metaAt 3 0 [97] [97], metaAt 2 1 [97] [122]] 3) :=
    .install 3 0 newA (by decide) (by decide) (by decide +kernel)
  exact .tail (.tail (.single h1) h2) h3

/-- A table with two keys goes to level 1. A newer table for each key follows, and the older of the two
is compacted with the table at level 1, while the other stays behind. -/
theorem sample_lifetime : Relation.ReflTransGen (TreeStep fun _ _ => True) (treeOf [] [] 0)
    (treeOf [(4, newZ), (5, merged)] [metaAt 4 0 [122] [122], metaAt 5 1 [97] [122]] 5) := by
  -- the two tables with one key each do not overlap, so the second compaction takes one of them
  have h4 : TreeStep (fun _ _ => True)
      (treeOf [(2, bothKeys), (3, newA)] [metaAt 3 0 [97] [97], metaAt 2 1 [97] [122]] 3)
      (treeOf [(2, bothKeys), (3, newA), (4, newZ)]
        [metaAt 4 0 [122] [122], metaAt 3 0 [97] [97], metaAt 2 1 [97] [122]] 4) :=
    .install 4 0 newZ (by decide) (by decide) (by decide +kernel)
  have h5 : TreeStep (fun _ _ => True) (treeOf [(2, bothKeys), (3, newA), (4, newZ)]
        [metaAt 4 0 [122] [122], metaAt 3 0 [97] [97], metaAt 2 1 [97] [122]] 4)
      (treeOf [(4, newZ), (5, merged)] [metaAt 4 0 [122] [122], metaAt 5 1 [97] [122]] 5) :=
    .compact ⟨0, 0, 0⟩ ⟨[5], [sstableID 3, sstableID 2], 0⟩ 0 5
      (show _ = some ⟨0, 1, [metaAt 3 0 [97] [97]], [metaAt 2 1 [97] [122]],
        defaultMemtableMaxBytes, true⟩ by decide +kernel) trivial
      (show _ = some [⟨sstableID 3, newA⟩, ⟨sstableID 2, bothKeys⟩] by decide +kernel)
      (by decide +kernel) (by decide +kernel) (by decide) (by decide) (by decide)
      (by decide +kernel)
  exact .tail (.tail (lifetime_start trivial) h4) h5

/-! ## Every lifetime -/

/-- **The level invariant over whole lifetimes.** From an empty directory, after any sequence of
events: the manifest has distinct names of existing tables with their true bounds, every level below
the first is sorted and free of overlap, and the lists in memory are the manifest's tables grouped by
level. -/
theorem levels_sound {now : ℤ} {s₀ s : Tree} (h₀ : openTree Dir.empty now 0 = some s₀)
    (hrun : Relation.ReflTransGen (TreeStep fun _ _ => True) s₀ s) : ∃ ms, s.dir.manifest = some ms ∧
      DistinctNames ms ∧
      (∀ m ∈ ms, ∃ entries, s.dir.tables.get m.filename = some entries ∧
        IsLeast (keysOf entries) m.smallest ∧ IsGreatest (keysOf entries) m.largest) ∧
      (∀ l ∈ s.index.levels, l.level ≠ 0 → l.metas.Pairwise fun a b =>
        a.smallest < b.smallest ∧ a.largest < b.smallest) ∧
      s.index.levels = levelsOf s.dir.tables ms ∧
      s.index.tableMeta = orderTableMetaForManifest ms ∧
      s.index.sstables = (orderTableMetaForManifest ms).map (tableOf s.dir.tables) := by
  obtain ⟨ms, hinv⟩ := tree_invariant h₀ hrun
  have hwf := hinv.wellFormed
  have hlevels : s.index.levels = levelsOf s.dir.tables ms := by rw [hinv.index_eq]; rfl
  refine ⟨ms, hinv.manifest_eq, hwf.distinct, fun m hm => ?_, fun l hl hne => ?_, hlevels, ?_, ?_⟩
  · exact ⟨_, hwf.get_eq hm, (hwf.describes m hm).trueBounds.isLeast,
      (hwf.describes m hm).trueBounds.isGreatest⟩
  · rw [hlevels] at hl
    obtain ⟨level, -, rfl⟩ := List.mem_map.mp hl
    refine (hwf.rangeLevel hne).disjoint.imp_of_mem fun {a b} ha hb hlt => ⟨?_, hlt⟩
    exact (hwf.describes a (mem_levelMeta.mp ha).1).smallest_le_largest.trans_lt hlt
  · rw [hinv.index_eq]
    rfl
  · rw [hinv.index_eq]
    rfl

theorem levels_sound_sample :
    let s := treeOf [(4, newZ), (5, merged)] [metaAt 4 0 [122] [122], metaAt 5 1 [97] [122]] 5
    ∃ ms, s.dir.manifest = some ms ∧ DistinctNames ms ∧
      (∀ m ∈ ms, ∃ entries, s.dir.tables.get m.filename = some entries ∧
        IsLeast (keysOf entries) m.smallest ∧ IsGreatest (keysOf entries) m.largest) ∧
      (∀ l ∈ s.index.levels, l.level ≠ 0 → l.metas.Pairwise fun a b =>
        a.smallest < b.smallest ∧ a.largest < b.smallest) ∧
      s.index.levels = levelsOf s.dir.tables ms ∧
      s.index.tableMeta = orderTableMetaForManifest ms ∧
      s.index.sstables = (orderTableMetaForManifest ms).map (tableOf s.dir.tables) :=
  levels_sound (show openTree Dir.empty 0 0 = some (treeOf [] [] 0) by decide +kernel)
    sample_lifetime

end Seol
