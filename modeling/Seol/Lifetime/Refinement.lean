import Seol.Db.Refinement
import Seol.Lifetime.Maintenance

/-!
# The store over its whole lifetime

Reference: `Compact` in `compaction.go`, `RunValueLogGC` in `gc.go`, and the steps of `db.go`. A lifetime
is any sequence of openings, writes, rotations, flushes, failed flushes, closes and stops, with
compactions and value-log GCs between a close and the next opening. The abstract store knows nothing of
compactions or GCs. Every lifetime shows one of its traces.
-/

namespace Seol

open Common Vlog

/-! ## The model -/

/-- `Close` is about to return no error. -/
structure Proc.Closes (p : Proc) : Prop where
  drained : p.closing = .draining
  waiting : p.flusher = .waiting
  sent : p.flushCh = []
  unfailed : p.db.flushErr = none

/-- One event in the life of a store: a step of the running system that meets its conditions, or a
maintenance run. `Compact` and `RunValueLogGC` close the store and work on its files. They end there,
with the result or an error, or the process stops; `done` is how far they came. The output names are
fresh, and the run does not end between its first removal and the rename of the manifest. -/
inductive LifeStep (gets : Prop) (opts : Options) : World → Event → World → Prop
  | store {w w' : World} {e : Event}
      (h : CondStep opts (fun w l => w.Admissible gets l ∧ w.FreshFlush l) w e w') :
    LifeStep gets opts w e w'
  | compact {dir : Dir} {p : Proc} {q : CompactionPlan} {inputs : List Table} {e : Event}
      (c : Choices) (done rest : List FsStep) (hclose : p.Closes) (he : e = .closed ∨ e = .stopped)
      (hplan : plan (openManifest dir c.now) (normalizeOptions opts) = some q)
      (hin : openSSTablesFromMeta dir.tables q.inputs = some inputs)
      (hc : c.Valid dir.tables inputs q)
      (hsteps : compactionSteps inputs (openManifest dir c.now) q c = done ++ rest)
      (hsafe : (∀ s ∈ done, ¬ s.Removes) ∨ .renameManifest ∈ done) :
    LifeStep gets opts (.up dir p) e (.down (runSteps ⟨dir, none, none⟩ done).dir)
  | gc {dir : Dir} {p : Proc} {r : RewriteState} {listing : List TempFile} {e : Event}
      (c : GcChoices) (oldNow newNow : UInt64) (done rest : List GcStep) (hclose : p.Closes)
      (he : e = .closed ∨ e = .stopped)
      (hnames : ∀ i j name, c.flush i = some name → c.flush j = some name → i = j)
      (hr : rewriteLive dir (normalizeOptions opts) c oldNow newNow = .ok r)
      (hfresh : FreshFiles dir r) (hlist : listing.Perm r.tempFiles)
      (hsteps : replaceRewrittenFiles r listing = done ++ rest)
      (hsafe : (∀ name, .removeTable name ∉ done) ∨ ∃ tables, .renameManifest tables ∈ done) :
    LifeStep gets opts (.up dir p) e (.down (runGcSteps (r.start dir) done))

/-! ## Histories with the same contents -/

/-- More writes keep the contents equal. -/
theorem contents_append_congr {h h' : List Write} (hc : contents h' = contents h) (ws : List Write) :
    contents (h' ++ ws) = contents (h ++ ws) := by
  funext k
  have hk := congrFun hc k
  simp only [contents, List.map_append, lastOf_append, overlay_apply] at hk ⊢
  cases lastOf (ws.map fun w => (w.key, w.value)) k with
  | none => exact hk
  | some v => rfl

/-- The abstract store shows nothing of its history but the contents. -/
theorem SpecStep.congr {h h' u : List Write} {e : Event} {t' : Spec} (hs : SpecStep ⟨h', u⟩ e t')
    (hc : contents h' = contents h) :
    ∃ t, SpecStep ⟨h, u⟩ e t ∧ contents t'.history = contents t.history ∧ t'.unacked = t.unacked := by
  -- steps look at the history only through its contents
  cases hs with
  | submitted w => exact ⟨_, .submitted w, hc, rfl⟩
  | rejected w => exact ⟨_, .rejected w, hc, rfl⟩
  | acked w => exact ⟨_, .acked w, contents_append_congr hc [w], rfl⟩
  | failed ws => exact ⟨_, .failed ws, hc, rfl⟩
  | internal => exact ⟨_, .internal, hc, rfl⟩
  | stopped n => exact ⟨_, .stopped n, contents_append_congr hc _, rfl⟩
  | closed => exact ⟨_, .closed, hc, rfl⟩
  | reopened hview => exact ⟨_, .reopened fun k => by rw [hview, hc], hc, rfl⟩
  | got n hresult =>
    exact ⟨_, .got n (by rw [hresult, contents_append_congr hc]), hc, rfl⟩

/-- The invariant of a lifetime: the records are those of some history with the contents of the abstract
store. -/
def LifeInv (gets : Prop) (w : World) (s : Spec) : Prop :=
  ∃ history, contents history = contents s.history ∧ StoreInv gets w ⟨history, s.unacked⟩

/-- Closing for maintenance answers all writes. -/
theorem specStep_of_maintenance {h : List Write} {e : Event} (he : e = .closed ∨ e = .stopped) :
    SpecStep ⟨h, []⟩ e ⟨h, []⟩ := by
  rcases he with rfl | rfl
  · exact .closed
  · have hstop : SpecStep ⟨h, []⟩ .stopped ⟨h ++ [].take 0, []⟩ := .stopped 0
    rwa [List.take_zero, List.append_nil] at hstop

/-- **Every event in the life of a store is a step of the abstract one.** -/
theorem LifeInv.step {gets : Prop} {opts : Options} (w : World) (s : Spec) (e : Event) (w' : World)
    (h : LifeInv gets w s) (hstep : LifeStep gets opts w e w') :
    ∃ s', SpecStep s e s' ∧ LifeInv gets w' s' := by
  obtain ⟨history, hcontents, hinv⟩ := h
  obtain ⟨h₀, unacked⟩ := s
  cases hstep with
  | store hcond =>
    obtain ⟨l, ⟨hadm, hfresh⟩, hstep⟩ := hcond
    obtain ⟨t', hspec, hinv'⟩ := hinv.step hadm hfresh hstep
    obtain ⟨t, hspec', hcontents', hunacked⟩ := hspec.congr hcontents
    exact ⟨t, hspec', t'.history, hcontents', hunacked ▸ hinv'⟩
  -- maintenance starts from a closed store, so nothing is unanswered
  | compact c done rest hclose he hplan hin hc hsteps hsafe =>
    obtain ⟨g, hlive⟩ := hinv
    obtain ⟨hunacked, hrec⟩ := hlive.closeStorage hclose.drained
    obtain rfl : unacked = [] := hunacked
    obtain ⟨ms, hms, -⟩ := hrec.tablesOf
    rw [openManifest, hms, Option.getD_some] at hplan hsteps
    -- tombstones may be dropped, so the history changes but not its contents
    obtain ⟨history', T', hrec', hcontents'⟩ := hrec.compact hms hplan hin hc hsteps hsafe
    exact ⟨_, specStep_of_maintenance he, history', hcontents'.trans hcontents, rfl,
      .inr ⟨_, _, hrec'⟩⟩
  | gc c oldNow newNow done rest hclose he hnames hr hfresh hlist hsteps hsafe =>
    obtain ⟨g, hlive⟩ := hinv
    obtain ⟨hunacked, hrec⟩ := hlive.closeStorage hclose.drained
    obtain rfl : unacked = [] := hunacked
    obtain ⟨history', log', T', hrec', hcontents'⟩ :=
      hrec.gc hnames hr hfresh hlist hsteps hsafe
    exact ⟨_, specStep_of_maintenance he, history', hcontents'.trans hcontents, rfl,
      .inr ⟨_, _, hrec'⟩⟩

/-- **Every lifetime refines the abstract store.** From an empty directory, through any sequence of
openings, writes, rotations, flushes, failed flushes, closes, stops, compactions and value-log GCs that
meet their conditions (plain values, a clock that moves on, fresh names, no table installed over an older
memtable with one of its keys): every reopening succeeds, and every reopened view and every `Get` shows
the acknowledged writes in writer order, followed at each stop by some prefix of the unacknowledged
ones. -/
theorem lifetime_refines {gets : Prop} {opts : Options} {es : List Event} {w : World}
    (h : Run (LifeStep gets opts) (.down Dir.empty) es w) : ∃ s, Run SpecStep ⟨[], []⟩ es s := by
  have hstart : LifeInv gets (.down Dir.empty) ⟨[], []⟩ := ⟨[], rfl, storeInv_empty gets⟩
  obtain ⟨s, hrun, -⟩ := h.simulate LifeInv.step hstart
  exact ⟨s, hrun⟩

/-! ## A lifetime with maintenance -/

/-- A run without maintenance is a lifetime: every flush takes a new name. -/
theorem lifetime_of_flushes {gets : Prop} {opts : Options} {es : List Event} {w : World}
    (h : Run (CondStep opts (World.Admissible gets)) (.down Dir.empty) es w) :
    Run (LifeStep gets opts) (.down Dir.empty) es w ∧ ∃ s, WorldInv gets w s := by
  induction h with
  | refl => exact ⟨.refl _, _, worldInv_empty gets⟩
  | tail _ hstep ih =>
    obtain ⟨hrun, s, hinv⟩ := ih
    obtain ⟨l, hadm, hstep⟩ := hstep
    obtain ⟨s', -, hinv'⟩ := hinv.step hadm hstep
    exact ⟨hrun.tail (.store ⟨l, ⟨hadm, hinv.freshFlush hadm⟩, hstep⟩), s', hinv'⟩

/-- A directory with one table and an empty segment. -/
def oneTable (info : TableMeta) (segment : UInt64) : Dir :=
  ⟨OrdMap.empty.insert info.filename ⟨[([107], [1])], by decide⟩, OrdMap.empty,
    (Log.openEmpty defaultSegmentMaxBytes segment).files, some [info]⟩

/-- The table as it is flushed, compacted and rewritten; the rewritten one keeps its age. -/
def flushedTable : TableMeta := ⟨sstableID 5, 0, [107], [107], 5⟩
def compactedTable : TableMeta := ⟨sstableID 7, 1, [107], [107], 7⟩
def rewrittenTable : TableMeta := ⟨sstableID 3, 1, [107], [107], 7⟩

/-- The only write of a store is flushed and the store closed. -/
theorem tiny_closed : ∃ p, Run (LifeStep True tinyOptions) (.down Dir.empty)
    ((.reopened tinyDB.view :: crossingTrace (.put [107] [1])) ++ List.replicate 8 .internal)
    (.up (oneTable flushedTable 1) p) ∧ p.Closes := by
  have r₁ := tiny_first.trans (.head ⟨.other, trivial, .flusher (.receive _ [] rfl rfl)⟩
    (.head ⟨.other, trivial, .flusher (.syncValueLog _ rfl)⟩
      (.single ⟨.flush 5, ⟨by decide, by decide⟩, .flusher (.flush 5 _ rfl)⟩)))
  have r₂ := r₁.tail ⟨.install, fun imm t hf older ho => (by cases hf; cases ho),
    .flusher (.install _ _ 6 _ rfl rfl)⟩
  have r₃ := r₂.trans (.head ⟨.other, trivial, .flusher (.removeWAL _ [] rfl)⟩
    (.head ⟨.other, trivial, .flusher (.removed rfl)⟩
      (.head ⟨.other, trivial, .closer (.markClosed rfl)⟩ (.single ⟨.other, trivial,
        .closer (.detachEmpty 1 (walID (10 ^ 18 + 1)) rfl rfl rfl rfl rfl rfl)⟩))))
  exact ⟨_, (lifetime_of_flushes r₃).1, rfl, rfl, rfl, rfl⟩

/-- The table is compacted to level 1. -/
theorem tiny_compacts {p : Proc} (hp : p.Closes) :
    LifeStep True tinyOptions (.up (oneTable flushedTable 1) p) .closed
      (.down (oneTable compactedTable 1)) := by
  have hplan : plan (openManifest (oneTable flushedTable 1) 0) (normalizeOptions tinyOptions) =
      some ⟨0, 1, [flushedTable], [], defaultMemtableMaxBytes, true⟩ := by decide +kernel
  have hin : openSSTablesFromMeta (oneTable flushedTable 1).tables [flushedTable] =
      some [⟨sstableID 5, ⟨[([107], [1])], by decide⟩⟩] := rfl
  exact .compact ⟨[7], [sstableID 5], 0⟩ _ [] hp (.inl rfl) hplan hin
    ⟨by decide +kernel, by decide +kernel, by decide +kernel, by decide +kernel⟩
    (List.append_nil _).symm (.inr (by simp [compactionSteps, commitSteps]))

/-- The store is opened again, read and closed. -/
theorem tiny_reopens : ∃ view p, Run (LifeStep True tinyOptions) (.down (oneTable compactedTable 1))
    [.reopened view, .got [107] (.ok (some [1])), .internal, .internal]
    (.up (oneTable compactedTable 1) p) ∧ p.Closes := by
  refine ⟨_, _, .head (.store ⟨.reopen sampleClock, ⟨sampleClock_ok rfl, trivial⟩, .reopen _ rfl⟩)
    (.head (.store ⟨.get [107], ⟨trivial, trivial⟩, .get [107] rfl⟩)
      (.head (.store ⟨.other, ⟨trivial, trivial⟩, .closer (.markClosed rfl)⟩)
        (.single (.store ⟨.other, ⟨trivial, trivial⟩,
          .closer (.detachEmpty 0 (walID (10 ^ 18)) rfl rfl rfl rfl rfl rfl)⟩)))),
    rfl, rfl, rfl, rfl⟩

/-- The table is rewritten under a new name. -/
theorem tiny_rewrites {p : Proc} (hp : p.Closes) :
    LifeStep True tinyOptions (.up (oneTable compactedTable 1) p) .closed
      (.down (oneTable rewrittenTable 5)) := by
  obtain ⟨r, hr, hfresh, hdir⟩ : ∃ r, rewriteLive (oneTable compactedTable 1)
      (normalizeOptions tinyOptions) sampleChoices 1 5 = .ok r ∧
      FreshFiles (oneTable compactedTable 1) r ∧
      runGcSteps (r.start (oneTable compactedTable 1)) (replaceRewrittenFiles r r.tempFiles) =
        oneTable rewrittenTable 5 := by
    refine ⟨_, rfl, ⟨?_, ?_⟩, rfl⟩ <;> decide +kernel
  rw [← hdir]
  -- the run goes to its end, so the manifest is renamed
  refine .gc sampleChoices 1 5 _ [] hp (.inl rfl) (fun i j name hi hj => ?_) hr hfresh
    (List.Perm.refl _) (List.append_nil _).symm
    (.inr ⟨orderTableMetaForManifest (outputMetas r.rebuilt.flushed), by simp [replaceRewrittenFiles]⟩)
  have hij := sstableID_injective ((Option.some.inj hi).trans (Option.some.inj hj).symm)
  omega

/-- What such a lifetime shows. -/
def maintainedTrace (view view' : Bytes → Except GetError (Option Bytes)) : List Event :=
  List.flatten [.reopened tinyDB.view :: crossingTrace (.put [107] [1]), List.replicate 8 .internal,
    [.closed, .reopened view, .got [107] (.ok (some [1])), .internal, .internal],
    [.closed, .reopened view', .got [107] (.ok (some [1]))]]

theorem lifetime_refines_maintained : ∃ view view' w,
    Run (LifeStep True tinyOptions) (.down Dir.empty) (maintainedTrace view view') w ∧
      ∃ s, Run SpecStep ⟨[], []⟩ (maintainedTrace view view') s := by
  obtain ⟨p, r₁, hp⟩ := tiny_closed
  obtain ⟨view, p', r₂, hp'⟩ := tiny_reopens
  have hrun := r₁.trans (.head (tiny_compacts hp) (r₂.trans (.head (tiny_rewrites hp')
    (.head (.store ⟨.reopen sampleClock, ⟨sampleClock_ok rfl, trivial⟩, .reopen _ rfl⟩)
      (.single (.store ⟨.get [107], ⟨trivial, trivial⟩, .get [107] rfl⟩))))))
  exact ⟨view, _, _, hrun, lifetime_refines hrun⟩

end Seol
