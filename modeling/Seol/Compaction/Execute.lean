import Seol.Compaction.View
import Seol.Db.Open

/-!
# Executing a compaction

Reference: `executeCompactionPlan` and `replaceCompactedTables` in `compaction.go`, `manifestStore.write`
in `manifest.go`. The execution is a list of filesystem steps: outputs are written to a temporary
directory and renamed into place, the inputs are removed, and the manifest is replaced by a rename. A
stop leaves the state after some prefix of the list.
-/

namespace Seol

open Common Vlog

/-- A store's directory while a compaction runs in it: the temporary directory and the manifest that is
being written. Neither is read by `openDB`. -/
structure CompactionDir where
  dir : Dir
  temp : Option TableFiles
  manifestTmp : Option (List TableMeta)

/-- The filesystem steps of `executeCompactionPlan`. -/
inductive FsStep where
  | mkdirTemp
  | writeOutput (name : Bytes) (entries : OrdMap Bytes Bytes)
  | renameOutput (name : Bytes)
  | removeInput (name : Bytes)
  | writeManifestTmp (tables : List TableMeta)
  | renameManifest
  | removeTemp

/-- One step. A rename of something that is not there does nothing. -/
def FsStep.run (d : CompactionDir) : FsStep → CompactionDir
  | .mkdirTemp => { d with temp := some OrdMap.empty }
  | .writeOutput name entries => { d with temp := d.temp.map (·.insert name entries) }
  | .renameOutput name =>
    match d.temp.bind (·.get name) with
    | none => d
    | some entries =>
      { d with
        dir := { d.dir with tables := d.dir.tables.insert name entries }
        temp := d.temp.map (·.erase name) }
  | .removeInput name => { d with dir := { d.dir with tables := d.dir.tables.erase name } }
  | .writeManifestTmp tables => { d with manifestTmp := some tables }
  | .renameManifest =>
    match d.manifestTmp with
    | none => d
    | some tables =>
      { d with dir := { d.dir with manifest := some tables }, manifestTmp := none }
  | .removeTemp => { d with temp := none }

/-- The state after a list of steps. -/
def runSteps (d : CompactionDir) (steps : List FsStep) : CompactionDir := steps.foldl FsStep.run d

/-- What the plan leaves to the run: the clock readings of the flushes, which name the outputs, and the
order in which the map of input names is iterated. -/
structure Choices where
  times : List ℕ
  order : List Bytes
  now : ℤ

/-- The names of the outputs. -/
def Choices.names (c : Choices) : List Bytes := c.times.map sstableID

/-- The outputs of `compactTables` with their names. -/
def compactionOutputs (inputs : List Table) (p : CompactionPlan) (c : Choices) :
    List (Bytes × OrdMap Bytes Bytes) :=
  c.names.zip (compactTables inputs p)

/-- The steps of `executeCompactionPlan` on the manifest tables `ms`, once the inputs are open, up to
the rename of the manifest. The temporary directory is listed in the order of the names. -/
def commitSteps (inputs : List Table) (ms : List TableMeta) (p : CompactionPlan) (c : Choices) :
    List FsStep :=
  .mkdirTemp :: ((compactionOutputs inputs p c).map (fun o => .writeOutput o.1 o.2) ++
    ((c.names.insertionSort (· ≤ ·)).map .renameOutput ++
    ((c.order.filter (· ∉ c.names)).map .removeInput ++
    [.writeManifestTmp (updatedTables ms p (compactionOutputs inputs p c) c.now),
      .renameManifest])))

/-- All steps of `executeCompactionPlan`. -/
def compactionSteps (inputs : List Table) (ms : List TableMeta) (p : CompactionPlan) (c : Choices) :
    List FsStep := commitSteps inputs ms p c ++ [.removeTemp]

/-- A step that returns an error ends the function, and the deferred cleanup removes the temporary
directory; a crash leaves it. -/
def afterStop (failed : Bool) (d : CompactionDir) : CompactionDir :=
  if failed then { d with temp := none } else d

/-- The names of the outputs are fresh and distinct, one for each output, and every input is removed
once. -/
structure Choices.Valid (c : Choices) (files : TableFiles) (inputs : List Table)
    (p : CompactionPlan) : Prop where
  count : c.times.length = (compactTables inputs p).length
  distinct : c.names.Nodup
  fresh : ∀ name ∈ c.names, files.get name = none
  removes : c.order.Perm (p.inputs.map TableMeta.filename).dedup

/-! ## The state after a whole run -/

theorem runSteps_append (d : CompactionDir) (as bs : List FsStep) :
    runSteps d (as ++ bs) = runSteps (runSteps d as) bs := List.foldl_append

theorem runSteps_writes (dir : Dir) (files : TableFiles) (tmp : Option (List TableMeta))
    (outputs : List (Bytes × OrdMap Bytes Bytes)) :
    runSteps ⟨dir, some files, tmp⟩ (outputs.map fun o => .writeOutput o.1 o.2) =
      ⟨dir, some (files.insertAll outputs), tmp⟩ := by
  induction outputs generalizing files with
  | nil => rfl
  | cons o outputs ih => exact ih (files.insert o.1 o.2)

/-- Renaming moves the named files and nothing else. -/
theorem runSteps_renames {names : List Bytes} (hn : names.Nodup) (dir : Dir) (files : TableFiles)
    (tmp : Option (List TableMeta)) (hin : ∀ name ∈ names, (files.get name).isSome) :
    ∃ tables files', runSteps ⟨dir, some files, tmp⟩ (names.map .renameOutput) =
        ⟨{ dir with tables := tables }, some files', tmp⟩ ∧
      ∀ x, tables.get x = if x ∈ names then files.get x else dir.tables.get x := by
  -- one rename after the other: a name that was moved is not among those still to come
  induction names generalizing dir files with
  | nil => exact ⟨dir.tables, files, rfl, by simp⟩
  | cons name names ih =>
    obtain ⟨hname, hn⟩ := List.nodup_cons.mp hn
    obtain ⟨entries, he⟩ := Option.isSome_iff_exists.mp (hin name List.mem_cons_self)
    have hin' : ∀ x ∈ names, ((files.erase name).get x).isSome := by
      intro x hx
      rw [OrdMap.get_erase, if_neg (by rintro rfl; exact hname hx)]
      exact hin x (List.mem_cons_of_mem _ hx)
    obtain ⟨tables, files', hrun, hget⟩ :=
      ih hn { dir with tables := dir.tables.insert name entries } (files.erase name) hin'
    refine ⟨tables, files', ?_, fun x => ?_⟩
    · rw [List.map_cons, runSteps, List.foldl_cons]
      have hstep : FsStep.run ⟨dir, some files, tmp⟩ (.renameOutput name) =
          ⟨{ dir with tables := dir.tables.insert name entries }, some (files.erase name), tmp⟩ := by
        simp only [FsStep.run, Option.bind_some, he, Option.map_some]
      rw [hstep]
      exact hrun
    · rw [hget, OrdMap.get_erase, OrdMap.get_insert]
      -- `name` is in place now, every other file is where the remaining renames leave it
      by_cases hx : name = x
      · subst hx
        simp [hname, he]
      · by_cases hmem : x ∈ names <;> simp [hmem, hx, Ne.symm hx]

theorem runSteps_removes (dir : Dir) (temp : Option TableFiles) (tmp : Option (List TableMeta))
    (names : List Bytes) :
    ∃ tables, runSteps ⟨dir, temp, tmp⟩ (names.map .removeInput) =
        ⟨{ dir with tables := tables }, temp, tmp⟩ ∧
      ∀ x, tables.get x = if x ∈ names then none else dir.tables.get x := by
  induction names generalizing dir with
  | nil => exact ⟨dir.tables, rfl, by simp⟩
  | cons name names ih =>
    obtain ⟨tables, hrun, hget⟩ := ih { dir with tables := dir.tables.erase name }
    refine ⟨tables, hrun, fun x => ?_⟩
    rw [hget, OrdMap.get_erase]
    by_cases hx : name = x
    · simp [hx]
    · by_cases hmem : x ∈ names <;> simp [hmem, hx, Ne.symm hx]

section Execution

variable {dir : Dir} {ms : List TableMeta} {p : CompactionPlan} {first : ℕ} {inputs : List Table}
  {c : Choices}

theorem Planned.open_inputs (h : WellFormed dir.tables ms) (hp : Planned ms p first) :
    openSSTablesFromMeta dir.tables p.inputs = some (p.inputs.map (tableOf dir.tables)) := by
  refine mapM_eq_some fun m hm => ?_
  rw [h.get_eq (hp.inputs_subset hm)]
  rfl

/-- No output takes the name of a table that is there. -/
theorem Choices.Valid.not_mem_names {files : TableFiles} (hc : c.Valid files inputs p) {x : Bytes}
    (hx : (files.get x).isSome) : x ∉ c.names := by
  intro hname
  rw [hc.fresh x hname] at hx
  simp at hx

theorem Choices.Valid.outputs_fst {files : TableFiles} (hc : c.Valid files inputs p) :
    (compactionOutputs inputs p c).map Prod.fst = c.names := by
  rw [compactionOutputs, List.map_fst_zip]
  simp [Choices.names, hc.count]

theorem Choices.Valid.outputs_snd {files : TableFiles} (hc : c.Valid files inputs p) :
    (compactionOutputs inputs p c).map Prod.snd = compactTables inputs p := by
  rw [compactionOutputs, List.map_snd_zip]
  simp [Choices.names, hc.count]

/-- **The table files after the manifest rename**: the outputs are in place, the inputs are gone, and
nothing else has changed. -/
theorem runSteps_commitSteps_files (ms : List TableMeta) (hc : c.Valid dir.tables inputs p) :
    ∃ tables temp, runSteps ⟨dir, none, none⟩ (commitSteps inputs ms p c) =
        ⟨{ dir with
            tables := tables
            manifest := some (updatedTables ms p (compactionOutputs inputs p c) c.now) },
          temp, none⟩ ∧
      ∀ x, tables.get x =
        if x ∈ c.names then lastOf (compactionOutputs inputs p c) x
        else if x ∈ c.order then none else dir.tables.get x := by
  set outputs := compactionOutputs inputs p c with houtputs
  -- the renames go by sorted name, over the same names
  have hperm := List.perm_insertionSort (· ≤ ·) c.names
  have hstaged : ∀ x, ((OrdMap.empty : TableFiles).insertAll outputs).get x = lastOf outputs x := by
    intro x
    rw [OrdMap.get_insertAll, OrdMap.get_empty, Option.or_none]
  -- every name to be renamed was written to the temporary directory
  have hpresent : ∀ x ∈ c.names.insertionSort (· ≤ ·),
      (((OrdMap.empty : TableFiles).insertAll outputs).get x).isSome := by
    intro x hx
    rw [hperm.mem_iff, ← hc.outputs_fst] at hx
    obtain ⟨o, ho, rfl⟩ := List.mem_map.mp hx
    rw [hstaged, lastOf_of_mem (hc.outputs_fst ▸ hc.distinct) ho]
    rfl
  obtain ⟨tables₁, files, hrenames, hget₁⟩ := runSteps_renames (hperm.nodup_iff.mpr hc.distinct) dir
    ((OrdMap.empty : TableFiles).insertAll outputs) none hpresent
  -- an input that has the name of an output was overwritten by the rename and is not removed
  obtain ⟨tables₂, hremoves, hget₂⟩ := runSteps_removes { dir with tables := tables₁ } (some files)
    none (c.order.filter (· ∉ c.names))
  refine ⟨tables₂, some files, ?_, fun x => ?_⟩
  · rw [commitSteps, runSteps, List.foldl_cons]
    change runSteps ⟨dir, some OrdMap.empty, none⟩ _ = _
    rw [runSteps_append, ← houtputs, runSteps_writes, runSteps_append, hrenames, runSteps_append,
      hremoves]
    rfl
  · rw [hget₂, hget₁, hstaged]
    by_cases hname : x ∈ c.names
    · simp [hname]
    · simp [hname]

/-- **The run up to the manifest rename replaces the inputs by the outputs**, in the files and in the
manifest. -/
theorem runSteps_commitSteps (h : WellFormed dir.tables ms) (hp : Planned ms p first)
    (hin : openSSTablesFromMeta dir.tables p.inputs = some inputs)
    (hc : c.Valid dir.tables inputs p) :
    ∃ tables temp, runSteps ⟨dir, none, none⟩ (commitSteps inputs ms p c) =
        ⟨{ dir with
            tables := tables
            manifest := some (updatedTables ms p (compactionOutputs inputs p c) c.now) },
          temp, none⟩ ∧
      Replaced dir.tables tables ms p (compactionOutputs inputs p c) ∧
      ∀ x, (tables.get x).isSome → x ∈ c.names ∨ x ∉ c.order ∧ (dir.tables.get x).isSome := by
  obtain rfl : inputs = p.inputs.map (tableOf dir.tables) :=
    (Option.some.inj ((hp.open_inputs h).symm.trans hin)).symm
  obtain ⟨tables, temp, hrun, hget⟩ := runSteps_commitSteps_files ms hc
  have hname : ∀ o ∈ compactionOutputs (p.inputs.map (tableOf dir.tables)) p c, o.1 ∈ c.names :=
    fun o ho => hc.outputs_fst ▸ List.mem_map_of_mem ho
  have hdistinct := hc.outputs_fst ▸ hc.distinct
  refine ⟨tables, temp, hrun, ⟨hc.outputs_snd, hdistinct, fun o ho => hc.fresh _ (hname o ho),
    fun o ho => ?_, fun m hm => ?_⟩, fun x hx => ?_⟩
  · rw [hget, if_pos (hname o ho), lastOf_of_mem hdistinct ho]
  -- a table that stays is neither an output nor an input
  · obtain ⟨hmem, hnot⟩ := (mem_keptTables h.distinct hp).mp hm
    have horder : m.filename ∉ c.order := by
      rw [hc.removes.mem_iff, List.mem_dedup]
      exact of_decide_eq_true (List.mem_filter.mp hm).2
    rw [hget, if_neg (hc.not_mem_names (h.present m hmem)), if_neg horder]
  · rw [hget] at hx
    split_ifs at hx with hnamed horder
    · exact .inl hnamed
    · simp at hx
    · exact .inr ⟨horder, hx⟩

/-- The last step touches only the temporary directory. -/
theorem runSteps_compactionSteps_dir (d : CompactionDir) :
    (runSteps d (compactionSteps inputs ms p c)).dir =
      (runSteps d (commitSteps inputs ms p c)).dir := by
  rw [compactionSteps, runSteps_append]
  rfl

/-- **Compaction preserves meaning.** For every well-formed manifest, every plan of the planner with any
output size, and every choice of fresh output names, the levels opened after the run select for every
key the entry they selected before, tombstones read as absent. -/
theorem compaction_preserves_view (hm : dir.manifest = some ms) (h : WellFormed dir.tables ms)
    {opts : Options} {q : CompactionPlan} (hplan : plan ms opts = some q) (targetOutputBytes : Int64)
    (hin : openSSTablesFromMeta dir.tables q.inputs = some inputs)
    (hc : c.Valid dir.tables inputs { q with targetOutputBytes := targetOutputBytes }) (now : ℤ) :
    let after := (runSteps ⟨dir, none, none⟩
      (compactionSteps inputs ms { q with targetOutputBytes := targetOutputBytes } c)).dir
    ∃ levels levels', loadLevels dir.tables (openManifest dir now) = some levels ∧
      loadLevels after.tables (openManifest after now) = some levels' ∧
      ∀ k, (lookupLevels Table.find levels' k).filter isLive =
        (lookupLevels Table.find levels k).filter isLive := by
  obtain ⟨first, hq⟩ := plan_planned h.distinct hplan
  -- the output size is no part of what the plan says about tables
  have hp : Planned ms { q with targetOutputBytes := targetOutputBytes } first :=
    ⟨hq.lowest, hq.closed, hq.target_eq, hq.target_level, hq.drop⟩
  obtain ⟨tables, temp, hrun, hr, -⟩ := runSteps_commitSteps h hp hin hc
  have hbefore := h.loadLevels_eq
  have hafter := (hr.wellFormed h hp c.now).loadLevels_eq
  have hms : openManifest dir now = ms := by rw [openManifest, hm, Option.getD_some]
  rw [runSteps_compactionSteps_dir, hrun, hms]
  refine ⟨_, _, hbefore, hafter, fun k => ?_⟩
  exact hr.view_eq h hp c.now (h.firstAnswer sound_find hbefore k)
    ((hr.wellFormed h hp c.now).firstAnswer sound_find hafter k)

/-- The metadata of two overlapping tables at level 0, newest first. -/
def overlapMeta : List TableMeta :=
  [⟨sstableID 2, 0, [97], [98], 2⟩, ⟨sstableID 1, 0, [97], [97], 1⟩]

/-- A directory with these tables, the newer one overwriting the key of the older. -/
def overlapDir : Dir where
  tables := (OrdMap.empty.insert (sstableID 1) ⟨[([97], [120])], by decide⟩).insert (sstableID 2)
    ⟨[([97], [121]), ([98], [122])], by decide⟩
  wals := OrdMap.empty
  segments := OrdMap.empty
  manifest := some overlapMeta

/-- Its plan: both tables, which overlap, go to level 1. -/
def overlapPlan : CompactionPlan := ⟨0, 1, overlapMeta, [], defaultMemtableMaxBytes, true⟩

/-- One output, and the inputs removed from the older to the newer. -/
def overlapChoices : Choices := ⟨[3], [sstableID 1, sstableID 2], 0⟩

/-- The opened inputs. -/
def overlapInputs : List Table := overlapPlan.inputs.map (tableOf overlapDir.tables)

theorem overlapDir_wellFormed : WellFormed overlapDir.tables overlapMeta where
  distinct := by decide
  present := by decide
  describes := by
    simp only [overlapMeta, List.forall_mem_cons, List.not_mem_nil, false_imp_iff, implies_true,
      and_true]
    exact ⟨⟨rfl, by decide, by decide, by decide⟩, ⟨rfl, by decide, by decide, by decide⟩⟩
  disjoint := by
    intro level hl
    simp [overlapMeta, hl.symm]

theorem plan_overlapMeta : plan overlapMeta ⟨0, 0, 0⟩ = some overlapPlan := by decide +kernel

theorem overlapChoices_valid : overlapChoices.Valid overlapDir.tables overlapInputs overlapPlan :=
  ⟨by decide +kernel, by decide +kernel, by decide +kernel, by decide +kernel⟩

theorem compaction_preserves_view_overlap :
    let after := (runSteps ⟨overlapDir, none, none⟩
      (compactionSteps overlapInputs overlapMeta overlapPlan overlapChoices)).dir
    ∃ levels levels', loadLevels overlapDir.tables (openManifest overlapDir 0) = some levels ∧
      loadLevels after.tables (openManifest after 0) = some levels' ∧
      ∀ k, (lookupLevels Table.find levels' k).filter isLive =
        (lookupLevels Table.find levels k).filter isLive :=
  compaction_preserves_view rfl overlapDir_wellFormed plan_overlapMeta defaultMemtableMaxBytes rfl
    overlapChoices_valid 0

/-! ## Stopping in the middle -/

/-- Steps that only add files under the given names or write beside the store. -/
def FsStep.Adds (names : List Bytes) : FsStep → Prop
  | .renameOutput name => name ∈ names
  | .removeInput _ | .renameManifest => False
  | _ => True

/-- The step removes a table. -/
def FsStep.Removes : FsStep → Prop
  | .removeInput _ => True
  | _ => False

/-- No step touches the WAL files or the value log. -/
theorem FsStep.run_wals_segments (d : CompactionDir) (s : FsStep) :
    (s.run d).dir.wals = d.dir.wals ∧ (s.run d).dir.segments = d.dir.segments := by
  cases s with
  | renameOutput name =>
    simp only [FsStep.run]
    split <;> exact ⟨rfl, rfl⟩
  | renameManifest =>
    simp only [FsStep.run]
    split <;> exact ⟨rfl, rfl⟩
  | _ => exact ⟨rfl, rfl⟩

/-- Only the rename of the manifest changes it. -/
theorem FsStep.run_manifest (d : CompactionDir) {s : FsStep} (hs : s ≠ .renameManifest) :
    (s.run d).dir.manifest = d.dir.manifest := by
  cases s with
  | renameManifest => exact absurd rfl hs
  | renameOutput name =>
    simp only [FsStep.run]
    split <;> rfl
  | _ => rfl

theorem FsStep.run_adds (d : CompactionDir) {names : List Bytes} {s : FsStep} (hs : s.Adds names)
    {x : Bytes} (hx : x ∉ names) : (s.run d).dir.tables.get x = d.dir.tables.get x := by
  cases s with
  | renameOutput name =>
    simp only [FsStep.run]
    split
    · rfl
    · rw [OrdMap.get_insert, if_neg (by rintro rfl; exact hx hs)]
  | removeInput _ => exact hs.elim
  | renameManifest => exact hs.elim
  | _ => rfl

/-- A removed table stays away unless an output of its name is renamed into place. -/
theorem FsStep.run_gone (d : CompactionDir) {s : FsStep} {x : Bytes} (hs : s ≠ .renameOutput x)
    (hx : d.dir.tables.get x = none) : (s.run d).dir.tables.get x = none := by
  cases s with
  -- only a rename brings a table into the directory
  | renameOutput name =>
    simp only [FsStep.run]
    split
    · exact hx
    · rw [OrdMap.get_insert, if_neg (by rintro rfl; exact hs rfl), hx]
  | removeInput name =>
    simp only [FsStep.run, OrdMap.get_erase, hx, ite_self]
  | renameManifest =>
    simp only [FsStep.run]
    split <;> exact hx
  | _ => exact hx

/-- What every step of a list keeps, the list keeps. -/
theorem runSteps_induction {P : CompactionDir → Prop} {steps : List FsStep}
    (hstep : ∀ s ∈ steps, ∀ d, P d → P (s.run d)) {d : CompactionDir} (hd : P d) :
    P (runSteps d steps) := by
  induction steps generalizing d with
  | nil => exact hd
  | cons s steps ih =>
    exact ih (fun s' hs' => hstep s' (List.mem_cons_of_mem _ hs'))
      (hstep s List.mem_cons_self d hd)

theorem runSteps_wals_segments (d : CompactionDir) (steps : List FsStep) :
    (runSteps d steps).dir.wals = d.dir.wals ∧
      (runSteps d steps).dir.segments = d.dir.segments := by
  refine runSteps_induction
    (P := fun d' => d'.dir.wals = d.dir.wals ∧ d'.dir.segments = d.dir.segments) ?_ ⟨rfl, rfl⟩
  intro s _ d' hd
  exact ⟨(s.run_wals_segments d').1.trans hd.1, (s.run_wals_segments d').2.trans hd.2⟩

theorem runSteps_manifest (d : CompactionDir) {steps : List FsStep}
    (hsteps : FsStep.renameManifest ∉ steps) :
    (runSteps d steps).dir.manifest = d.dir.manifest := by
  refine runSteps_induction (P := fun d' => d'.dir.manifest = d.dir.manifest) ?_ rfl
  intro s hs d' hd
  exact (FsStep.run_manifest d' (by rintro rfl; exact hsteps hs)).trans hd

theorem runSteps_adds (d : CompactionDir) {names : List Bytes} {steps : List FsStep}
    (hsteps : ∀ s ∈ steps, s.Adds names) {x : Bytes} (hx : x ∉ names) :
    (runSteps d steps).dir.tables.get x = d.dir.tables.get x := by
  refine runSteps_induction (P := fun d' => d'.dir.tables.get x = d.dir.tables.get x) ?_ rfl
  intro s hs d' hd
  exact (FsStep.run_adds d' (hsteps s hs) hx).trans hd

theorem runSteps_gone (d : CompactionDir) {x : Bytes} {steps : List FsStep}
    (hremove : FsStep.removeInput x ∈ steps) (hsteps : FsStep.renameOutput x ∉ steps) :
    (runSteps d steps).dir.tables.get x = none := by
  obtain ⟨as, bs, rfl⟩ := List.append_of_mem hremove
  rw [runSteps_append, runSteps, List.foldl_cons]
  refine runSteps_induction (P := fun d' => d'.dir.tables.get x = none) ?_ ?_
  · intro s hs d' hd
    refine FsStep.run_gone d' ?_ hd
    rintro rfl
    exact hsteps (List.mem_append_right _ (List.mem_cons_of_mem _ hs))
  · simp only [FsStep.run, OrdMap.get_erase, if_true]

/-- Loading depends only on the files the manifest names. -/
theorem loadLevels_congr {files files' : TableFiles} {ms : List TableMeta}
    (h : ∀ m ∈ ms, files'.get m.filename = files.get m.filename) :
    loadLevels files' ms = loadLevels files ms := by
  have hmap : ∀ l : List TableMeta, (∀ m ∈ l, files'.get m.filename = files.get m.filename) →
      openSSTablesFromMeta files' l = openSSTablesFromMeta files l := by
    intro l hl
    induction l with
    | nil => rfl
    | cons m l ih =>
      have hrest := ih fun m' hm' => hl m' (List.mem_cons_of_mem _ hm')
      simp only [openSSTablesFromMeta, List.mapM_cons] at hrest ⊢
      rw [hl m List.mem_cons_self, hrest]
  rw [loadLevels, loadLevels, hmap ms h]

/-- A tombstone is read like no entry. -/
theorem readStoredValue_filter (log : Log) (s : Option Bytes) :
    readStoredValue log (s.filter isLive) = readStoredValue log s := by
  cases s with
  | none => rfl
  | some stored =>
    by_cases htomb : isTombstoneValue stored = true
    · rw [Option.filter_some_eq_none.mpr (by simp [isLive, htomb])]
      simp [readStoredValue, resolveStoredValue, htomb, Except.mapError]
    · rw [Option.filter_some_pos (by simp [isLive, htomb])]

/-- Two stores opened from the same WAL and value-log files have the same view if their levels select
the same live entries. -/
theorem openedDB_view_congr {opts : Options} {walPaths : List Bytes} {wal : Bytes}
    {levels levels' : List LevelState} {tableMeta tableMeta' : List TableMeta} {r : Replay} {k : Bytes}
    (h : (lookupLevels Table.find levels' k).filter isLive =
      (lookupLevels Table.find levels k).filter isLive) :
    (openedDB opts walPaths wal levels' tableMeta' r).view k =
      (openedDB opts walPaths wal levels tableMeta r).view k := by
  rw [openedDB_view, openedDB_view]
  cases r.memtable.get k with
  | some stored => rfl
  | none =>
    rw [Option.none_or, Option.none_or, ← readStoredValue_filter, h, readStoredValue_filter]

/-- A directory with the same WAL and value-log files is opened with the same view as soon as its
levels select the same live entries. -/
theorem openDB_same_view {dir dir' : Dir} {opts : Options} {clock : OpenClock} {db : DB} {d : Dir}
    (hopen : openDB dir opts clock = .ok (db, d)) (hwals : dir'.wals = dir.wals)
    (hsegs : dir'.segments = dir.segments) {levels levels' : List LevelState}
    (hlevels : loadLevels dir.tables (openManifest dir clock.table) = some levels)
    (hlevels' : loadLevels dir'.tables (openManifest dir' clock.table) = some levels')
    (hview : ∀ k, (lookupLevels Table.find levels' k).filter isLive =
      (lookupLevels Table.find levels k).filter isLive) :
    ∃ db' d', openDB dir' opts clock = .ok (db', d') ∧ ∀ k, db'.view k = db.view k := by
  -- levels aside, the opening reads the same files and takes the same branches
  obtain ⟨levels₀, log, r, hlevels₀, hlog, hreplay, hwal, rfl, -⟩ := openDB_eq_ok.mp hopen
  obtain rfl : levels₀ = levels := Option.some.inj (hlevels₀.symm.trans hlevels)
  refine ⟨_, _, openDB_eq_ok.mpr ⟨levels', log, r, hlevels', ?_, ?_, ?_, rfl, rfl⟩, fun k => ?_⟩
  · rw [hsegs, hlog]
  · rw [hwals, hreplay]
  · rw [hwals, hwal]
  · rw [Dir.walNames, hwals]
    exact openedDB_view_congr (hview k)

/-- The steps before the manifest rename are additions, removals of inputs and the temporary
manifest. -/
theorem mem_compactionSteps {s : FsStep} (hs : s ∈ compactionSteps inputs ms p c) :
    s.Adds c.names ∨ (∃ x ∈ c.order, s = .removeInput x) ∨ s = .renameManifest := by
  simp only [compactionSteps, commitSteps, List.mem_append, List.mem_cons, List.mem_map,
    List.not_mem_nil, or_false] at hs
  rcases hs with (rfl | ⟨o, -, rfl⟩ | ⟨x, hx, rfl⟩ | ⟨x, hx, rfl⟩ | rfl | rfl) | rfl
  · exact Or.inl trivial
  · exact Or.inl trivial
  · exact Or.inl ((List.perm_insertionSort (· ≤ ·) c.names).mem_iff.mp hx)
  · exact Or.inr (Or.inl ⟨x, List.mem_of_mem_filter hx, rfl⟩)
  · exact Or.inl trivial
  · exact Or.inr (Or.inr rfl)
  · exact Or.inl trivial

/-- A stop after the manifest rename is a stop before or after the last step. -/
theorem committed_cases {done rest : List FsStep}
    (hsteps : compactionSteps inputs ms p c = done ++ rest) (hdone : .renameManifest ∈ done) :
    done = commitSteps inputs ms p c ∨ done = compactionSteps inputs ms p c := by
  -- the rename is the last of the commit steps and occurs once
  obtain ⟨pre, hpre, hnot⟩ : ∃ pre, commitSteps inputs ms p c = pre ++ [FsStep.renameManifest] ∧
      FsStep.renameManifest ∉ pre := by
    refine ⟨FsStep.mkdirTemp ::
      ((compactionOutputs inputs p c).map (fun o => FsStep.writeOutput o.1 o.2) ++
      ((c.names.insertionSort (· ≤ ·)).map FsStep.renameOutput ++
      ((c.order.filter (· ∉ c.names)).map FsStep.removeInput ++
      [FsStep.writeManifestTmp (updatedTables ms p (compactionOutputs inputs p c) c.now)]))), ?_, ?_⟩
    · simp [commitSteps]
    · simp
  have heq := hsteps
  rw [compactionSteps, hpre, List.append_assoc] at heq
  -- `done` ends inside the commit steps, or reaches into the one step behind them
  rcases List.append_eq_append_iff.mp heq with ⟨a, rfl, htail⟩ | ⟨a, rfl, -⟩
  · cases a with
    | nil => exact absurd (by simpa using hdone) hnot
    | cons s a =>
      obtain ⟨rfl, -⟩ := List.cons.inj htail
      cases a with
      | nil => exact Or.inl hpre.symm
      | cons s' a =>
        have hlast := List.cons.inj (List.cons.inj htail).2
        obtain ⟨rfl, -⟩ := List.append_eq_nil_iff.mp hlast.2.symm
        obtain rfl := hlast.1
        refine Or.inr ?_
        rw [compactionSteps, hpre, List.append_assoc]
        rfl
  · exact absurd (List.mem_append_left _ hdone) hnot

/-- **A stopped compaction can be opened with the same contents exactly if no input was removed yet or
the manifest was already renamed.** -/
theorem stopped_compaction_recovers_iff (hm : dir.manifest = some ms) (h : WellFormed dir.tables ms)
    {opts : Options} {clock : OpenClock} {db : DB} {d : Dir}
    (hopen : openDB dir opts clock = .ok (db, d)) (hplan : plan ms opts = some p)
    (hin : openSSTablesFromMeta dir.tables p.inputs = some inputs)
    (hc : c.Valid dir.tables inputs p) {done rest : List FsStep}
    (hsteps : compactionSteps inputs ms p c = done ++ rest) (failed : Bool) :
    (∃ db' d', openDB (afterStop failed (runSteps ⟨dir, none, none⟩ done)).dir opts clock =
        .ok (db', d') ∧ ∀ k, db'.view k = db.view k) ↔
      (∀ s ∈ done, ¬ s.Removes) ∨ .renameManifest ∈ done := by
  have hstop : (afterStop failed (runSteps ⟨dir, none, none⟩ done)).dir =
      (runSteps ⟨dir, none, none⟩ done).dir := by cases failed <;> rfl
  rw [hstop]
  obtain ⟨first, hp⟩ := plan_planned h.distinct hplan
  have hmem : ∀ s ∈ done, s.Adds c.names ∨ (∃ x ∈ c.order, s = .removeInput x) ∨
      s = .renameManifest := fun s hs => mem_compactionSteps (hsteps ▸ List.mem_append_left _ hs)
  have hfresh : ∀ m ∈ ms, m.filename ∉ c.names := fun m hmm => hc.not_mem_names (h.present m hmm)
  obtain ⟨hwals, hsegs⟩ := runSteps_wals_segments ⟨dir, none, none⟩ done
  have hlevels := h.loadLevels_eq
  have hlevels₀ : loadLevels dir.tables (openManifest dir clock.table) =
      some (levelsOf dir.tables ms) := by
    rw [openManifest, hm, Option.getD_some, hlevels]
  have hmanifest : .renameManifest ∉ done →
      (runSteps ⟨dir, none, none⟩ done).dir.manifest = some ms :=
    fun hno => (runSteps_manifest _ hno).trans hm
  constructor
  · rintro ⟨db', d', hdb', -⟩
    by_contra hcond
    push Not at hcond
    obtain ⟨⟨s, hs, hremoves⟩, hno⟩ := hcond
    obtain ⟨x, hx, rfl⟩ : ∃ x ∈ c.order, s = .removeInput x := by
      rcases hmem s hs with hadd | hrem | rfl
      · cases s <;> simp_all [FsStep.Adds, FsStep.Removes]
      · exact hrem
      · exact absurd hs hno
    -- the removed input is still in the manifest, and its file is gone for good
    obtain ⟨m, hmi, rfl⟩ : ∃ m ∈ p.inputs, m.filename = x := by
      rw [hc.removes.mem_iff, List.mem_dedup] at hx
      exact List.mem_map.mp hx
    have hmm := hp.inputs_subset hmi
    have hgone : (runSteps ⟨dir, none, none⟩ done).dir.tables.get m.filename = none := by
      refine runSteps_gone _ hs fun hrename => ?_
      rcases hmem _ hrename with hadd | ⟨_, -, hr⟩ | hr
      · exact hfresh m hmm hadd
      · cases hr
      · cases hr
    exact openDB_ne_ok_of_missing (hmanifest hno) hmm hgone _ _ _ _ hdb'
  · intro hcond
    by_cases hcommit : .renameManifest ∈ done
    · -- the manifest names the outputs, and the view is the one of a whole run
      obtain ⟨tables, temp, hrun, hr, -⟩ := runSteps_commitSteps h hp hin hc
      have hdir : (runSteps ⟨dir, none, none⟩ done).dir = { dir with
          tables := tables
          manifest := some (updatedTables ms p (compactionOutputs inputs p c) c.now) } := by
        rcases committed_cases hsteps hcommit with rfl | rfl
        · rw [hrun]
        · rw [runSteps_compactionSteps_dir, hrun]
      have hafter := (hr.wellFormed h hp c.now).loadLevels_eq
      refine openDB_same_view hopen hwals hsegs hlevels₀ (by rw [hdir]; exact hafter) fun k => ?_
      exact hr.view_eq h hp c.now (h.firstAnswer sound_find hlevels k)
        ((hr.wellFormed h hp c.now).firstAnswer sound_find hafter k)
    · -- so far files were only added, and the manifest names none of them
      have hadds : ∀ s ∈ done, s.Adds c.names := by
        intro s hs
        rcases hmem s hs with hadd | ⟨x, -, rfl⟩ | rfl
        · exact hadd
        · exact absurd trivial (hcond.resolve_right hcommit _ hs)
        · exact absurd hs hcommit
      have hkept := loadLevels_congr fun m hmm =>
        runSteps_adds ⟨dir, none, none⟩ hadds (hfresh m hmm)
      refine openDB_same_view hopen hwals hsegs hlevels₀ ?_ fun k => rfl
      rw [openManifest, hmanifest hcommit, Option.getD_some, hkept, hlevels]

theorem stopped_compaction_recovers_iff_overlap : ∃ db d,
    openDB overlapDir ⟨0, 0, 0⟩ ⟨1, [], 1, 0⟩ = .ok (db, d) ∧
    ((∃ db' d', openDB (afterStop true (runSteps ⟨overlapDir, none, none⟩
        ((compactionSteps overlapInputs overlapMeta overlapPlan overlapChoices).take 3))).dir
        ⟨0, 0, 0⟩ ⟨1, [], 1, 0⟩ = .ok (db', d') ∧ ∀ k, db'.view k = db.view k) ↔
      (∀ s ∈ (compactionSteps overlapInputs overlapMeta overlapPlan overlapChoices).take 3,
        ¬ s.Removes) ∨
      .renameManifest ∈
        (compactionSteps overlapInputs overlapMeta overlapPlan overlapChoices).take 3) :=
  ⟨_, _, rfl, stopped_compaction_recovers_iff rfl overlapDir_wellFormed rfl plan_overlapMeta rfl
    overlapChoices_valid (List.take_append_drop 3 _).symm true⟩

/-- **A stop between the first removal and the manifest rename makes the directory unopenable**: the
manifest still names the removed table. -/
theorem stopped_compaction_unopenable :
    (∃ db d, openDB overlapDir ⟨0, 0, 0⟩ ⟨1, [], 1, 0⟩ = .ok (db, d)) ∧
      openDB (afterStop false (runSteps ⟨overlapDir, none, none⟩
        ((compactionSteps overlapInputs overlapMeta overlapPlan overlapChoices).take 4))).dir
        ⟨0, 0, 0⟩ ⟨1, [], 1, 0⟩ = .error .missingTable :=
  ⟨⟨_, _, rfl⟩, rfl⟩

end Execution

end Seol
