import Seol.Db.Batch

/-!
# A batch as steps of the writer

Reference: `processWriteBatch` and `rotateMemtable` in `db.go`. Two models embed them: the function of
a batch, with every failure of a file operation, and the steps of the writer goroutine, which other
goroutines may interleave and a process stop may cut. A round of the first in which no file operation
fails is a run of the second: the effects are what the steps do to the files and the memtables, the
answers are the events, and both leave the same store to the next round.
-/

namespace Seol.Batch

open Common Vlog

/-- The fields of the store that the writer reads and writes. -/
def WriterDB.of (db : DB) : WriterDB :=
  ⟨db.memtableMaxBytes, db.valueThreshold, db.valueLog, db.activeWal, db.memtable, db.memtableBytes,
    db.flushErr.map .flush, db.next⟩

/-- A round in which every file operation succeeds and the flush loop records no error; `now` is the
clock reading that names the next WAL. Storing a value may still fail, on a key or value that is too
long. -/
structure RoundEnv.Clean (env : RoundEnv) (now : ℕ) : Prop where
  flushErr : env.flushErr = none
  lateErr : env.lateErr = none
  store : ∀ i, (env.store i).2 = none
  appendFails : env.appendFails = false
  createFails : env.createFails = false
  closeFails : env.closeFails = false
  nextWal : env.nextWal = walID now

/-- `WriterStep` with label and event together. -/
def writerStep (s : Dir × Proc) (l : Label × Event) (s' : Dir × Proc) : Prop :=
  WriterStep s l.1 l.2 s'

/-- What an effect does to the files and the memtables. -/
def Effect.run (s : Dir × (ℕ → Memtable)) : Effect → Dir × (ℕ → Memtable)
  | .store _ _ log => ({ s.1 with segments := log.files }, s.2)
  | .append wal entries => ({ s.1 with
      wals := s.1.wals.insert wal (appendBatch ((s.1.wals.get wal).getD []) entries) }, s.2)
  | .put a req stored => (s.1, Function.update s.2 a (s.2 a ++ [(req.key, stored)]))
  | .rotate a wal => ({ s.1 with wals := s.1.wals.insert wal [] }, Function.update s.2 a [])
  | .rotateFailed _ => s
  | .finish _ _ => s

/-- The answers an event gives; `true` is nil. -/
def eventAnswers : Event → List (Write × Bool)
  | .acked w => [(w, true)]
  | .failed ws => ws.map fun w => (w, false)
  | _ => []

section

/- The write a request was submitted for: a put, or a delete with the tombstone. -/
variable (write : WriteRequest → Write)

/-- The answers an effect gives. -/
def effectAnswers : Effect → List (Write × Bool)
  | .finish req err => [(write req, err.isNone)]
  | _ => []

/-- The writer's steps from `s` to `s'` do what the effects say. -/
structure Does (s : Dir × Proc) (effects : List Effect) (s' : Dir × Proc) : Prop where
  run : ∃ ls, Run writerStep s ls s' ∧
    ls.flatMap (fun l => eventAnswers l.2) = effects.flatMap (effectAnswers write)
  files : (s'.1, s'.2.db.heap) = effects.foldl Effect.run (s.1, s.2.db.heap)

variable {write}

theorem Does.refl (s : Dir × Proc) : Does write s [] s := ⟨⟨[], .refl s, rfl⟩, rfl⟩

theorem Does.trans {s t u : Dir × Proc} {es es' : List Effect} (h : Does write s es t)
    (h' : Does write t es' u) : Does write s (es ++ es') u := by
  obtain ⟨ls, hrun, hls⟩ := h.run
  obtain ⟨ls', hrun', hls'⟩ := h'.run
  refine ⟨⟨ls ++ ls', hrun.trans hrun', ?_⟩, ?_⟩
  · rw [List.flatMap_append, List.flatMap_append, hls, hls']
  · rw [List.foldl_append, ← h.files, h'.files]

/-- One step. -/
theorem Does.step {s t : Dir × Proc} {l : Label} {e : Event} (h : WriterStep s l e t)
    {es : List Effect} (hes : eventAnswers e = es.flatMap (effectAnswers write))
    (hfiles : (t.1, t.2.db.heap) = es.foldl Effect.run (s.1, s.2.db.heap)) : Does write s es t :=
  ⟨⟨[(l, e)], .single h, by simpa using hes⟩, hfiles⟩

theorem answers_failWriteRequests (batch : List WriteRequest) (e : WriteError) :
    (failWriteRequests batch (some e)).flatMap (effectAnswers write) =
      (batch.map write).map fun w => (w, false) := by
  induction batch with
  | nil => rfl
  | cons req rest ih =>
    rw [failWriteRequests, List.map_cons, List.flatMap_cons]
    exact congrArg _ ih

theorem run_failWriteRequests (batch : List WriteRequest) (err : Option WriteError)
    (s : Dir × (ℕ → Memtable)) : (failWriteRequests batch err).foldl Effect.run s = s := by
  induction batch with
  | nil => rfl
  | cons req rest ih => exact ih

/-- A step that fails the requests of a batch. -/
theorem Does.fail {s t : Dir × Proc} {l : Label} {batch : List WriteRequest}
    (h : WriterStep s l (.failed (batch.map write)) t) (e : WriteError)
    (hfiles : (t.1, t.2.db.heap) = (s.1, s.2.db.heap)) :
    Does write s (failWriteRequests batch (some e)) t :=
  .step h (answers_failWriteRequests batch e).symm (by rw [run_failWriteRequests, hfiles])

/-! ## The loops of a round -/

/-- Prepared requests as the writer's steps keep them. -/
def submitted (write : WriteRequest → Write) (done : List (WriteRequest × Bytes)) :
    List (Write × Bytes) := done.map fun d => (write d.1, d.2)

/-- Why the preparing loop ended, in both models. -/
def EndsAs (p : Prepared) : PrepareEnd → Prop
  | .exhausted => p.crossing = false ∧ p.prepErr = none
  | .crossing => p.crossing = true
  | .failed e => p.crossing = false ∧ p.prepErr = some (.flush e)

variable (hwrite : ∀ req, (write req).record = req.entry)

include hwrite

omit hwrite in
/-- Keeping an error does the same in both models when the flush loop records none meanwhile. -/
theorem of_setFlushErrIfNil {env : RoundEnv} {now : ℕ} (hclean : env.Clean now) (db : DB)
    (e : FlushError) : (WriterDB.of db).setFlushErrIfNil env (.flush e) =
      (.of (db.setFlushErrIfNil e).1, .flush (db.setFlushErrIfNil e).2) := by
  unfold WriterDB.setFlushErrIfNil DB.setFlushErrIfNil WriterDB.of
  rw [hclean.lateErr]
  cases db.flushErr <;> rfl

/-- The preparing loop. It ends the batch if not even the first value could be stored. -/
theorem prepare_does {env : RoundEnv} {now : ℕ} (hclean : env.Clean now) (dir : Dir) {p : Proc}
    {done : List (WriteRequest × Bytes)} {batch : List WriteRequest} (hne : batch ≠ [])
    {projected : ℕ} (i : ℕ)
    (hw : p.writer = .preparing (submitted write done) (batch.map write) projected)
    {r : WriterDB × Prepared} (hr : prepare env (.of p.db) projected i batch = r) :
    ∃ s', WriterDB.of s'.2.db = r.1 ∧ s'.2.flushCh = p.flushCh ∧ s'.1.wals = dir.wals ∧
      ((done ++ r.2.done = [] ∧ s'.2.writer = .idle ∧ ∃ e, r.2.prepErr = some e ∧
          Does write (dir, p) (r.2.effects ++ failWriteRequests batch (some e)) s') ∨
        (done ++ r.2.done ≠ [] ∧ ∃ why, EndsAs r.2 why ∧
          s'.2.writer = .prepared (submitted write (done ++ r.2.done))
            ((batch.drop r.2.done.length).map write) why ∧
          Does write (dir, p) r.2.effects s')) := by
  induction batch generalizing dir p done projected i r with
  | nil => exact absurd rfl hne
  | cons req rest ih =>
    obtain ⟨hkey, hraw⟩ := Prod.mk.inj (hwrite req)
    cases hstore : storeValueForLSM p.db.valueLog p.db.valueThreshold req.key req.value
      (env.store i).1 (env.store i).2 with
    | mk result log =>
      have hstep : storeValueForLSM p.db.valueLog p.db.valueThreshold (write req).key
          (write req).raw (env.store i).1 none = (result, log) := by
        rw [hkey, hraw, ← hclean.store i]
        exact hstore
      have hmodel : storeValueForLSM (WriterDB.of p.db).valueLog (WriterDB.of p.db).valueThreshold
          req.key req.value (env.store i).1 (env.store i).2 = (result, log) := hstore
      rw [prepare, hmodel] at hr
      cases result with
      | error e =>
        -- a failed store sets the sticky error, unless there is one
        have hset := of_setFlushErrIfNil hclean { p.db with valueLog := log } (.store e)
        have hdb : { WriterDB.of p.db with valueLog := log } =
            WriterDB.of { p.db with valueLog := log } := rfl
        simp only [hdb, hset] at hr
        subst hr
        -- with nothing prepared the batch fails as a whole; otherwise the prepared part goes on
        by_cases hdone : done = []
        · subst hdone
          refine ⟨_, rfl, rfl, rfl, Or.inl ⟨rfl, rfl, _, rfl, .step
            (.storeFailFirst (env.store i).1 (write req) (rest.map write) projected e log hw hstep)
            ?_ ?_⟩⟩
          · exact (answers_failWriteRequests (req :: rest) _).symm
          · rw [List.foldl_append, run_failWriteRequests]
            rfl
        · refine ⟨_, rfl, rfl, rfl, Or.inr ⟨by simpa using hdone,
            .failed (DB.setFlushErrIfNil { p.db with valueLog := log } (.store e)).2, ⟨rfl, rfl⟩, ?_,
            .step
            (.storeFail (env.store i).1 (submitted write done) (write req) (rest.map write) projected
              e log (by simpa [submitted] using hdone) hw hstep) rfl rfl⟩⟩
          rw [List.append_nil]
          rfl
      | ok stored =>
        set projected' := projected + memtableEntrySize req.key req.value
        set p₁ : Proc := { p with
          db := { p.db with valueLog := log }
          writer := Writer.stored p.db.memtableMaxBytes (submitted write done ++ [(write req, stored)])
            (rest.map write) (projected + memtableEntrySize (write req).key (write req).raw) }
        have hrun : Does write (dir, p) [.store req (.ok stored) log]
            ({ dir with segments := log.files }, p₁) :=
          .step (.store (env.store i).1 _ (write req) _ _ stored log hw hstep) rfl rfl
        have hsub : submitted write done ++ [(write req, stored)] =
            submitted write (done ++ [(req, stored)]) := by simp [submitted]
        have hwriter : p₁.writer = Writer.stored p.db.memtableMaxBytes
            (submitted write (done ++ [(req, stored)])) (rest.map write) projected' := by
          simp only [p₁, hsub, hkey, hraw, projected']
        have hmax : (WriterDB.of p.db).memtableMaxBytes = p.db.memtableMaxBytes := rfl
        simp only [hmax] at hr
        -- the loop ends at the request that fills the memtable, at the last one, or goes on
        split_ifs at hr with hcross
        · subst hr
          refine ⟨_, rfl, rfl, rfl, Or.inr ⟨by simp, .crossing, rfl, ?_, hrun⟩⟩
          rw [hwriter, Writer.stored, if_pos hcross]
          rfl
        · by_cases hrest : rest = []
          · subst hrest
            subst hr
            refine ⟨_, rfl, rfl, rfl, Or.inr ⟨by simp, .exhausted, ⟨rfl, rfl⟩, ?_, hrun⟩⟩
            rw [hwriter, Writer.stored, if_neg hcross]
            rfl
          · have hw₁ : p₁.writer = .preparing (submitted write (done ++ [(req, stored)]))
                (rest.map write) projected' := by
              rw [hwriter, Writer.stored, if_neg hcross, if_neg (by simpa using hrest)]
            obtain ⟨s', hdb, hch, hwals, hout⟩ := ih { dir with segments := log.files } hrest
              (i + 1) hw₁ rfl
            subst hr
            refine ⟨s', hdb, hch, hwals, ?_⟩
            rcases hout with ⟨hnil, -⟩ | ⟨-, why, hwhy, hw', hdoes⟩
            · simp at hnil
            · refine Or.inr ⟨by simp, why, hwhy, ?_, hrun.trans hdoes⟩
              rw [hw', List.append_assoc]
              rfl

/-- The applying loop, up to the rotation if the batch crosses the limit. -/
theorem applyPrepared_does {a : ℕ} {crossing : Bool} {why : PrepareEnd}
    (hwhy : crossing = true ↔ why = .crossing) {todo : List (WriteRequest × Bytes)}
    (dir : Dir) {p : Proc} {rest : List WriteRequest} (ha : p.db.memtable = some a)
    (hw : p.writer = .applying (submitted write todo) (rest.map write) why)
    {last : WriteRequest × Bytes} (hlast : crossing = true → todo.getLast? = some last)
    {r : WriterDB × List Effect} (hr : applyPrepared a crossing (.of p.db) todo = r) :
    ∃ p', Does write (dir, p) r.2 (dir, p') ∧ WriterDB.of p'.db = r.1 ∧
      p'.db.memtable = some a ∧ p'.flushCh = p.flushCh ∧
      p'.writer = if crossing then .rotating (write last.1) (rest.map write)
        else .applying [] (rest.map write) why := by
  induction todo generalizing p r with
  | nil =>
    have hcross : crossing = false := by
      by_contra hcross
      simpa using hlast (by simpa using hcross)
    subst hr
    exact ⟨p, .refl _, rfl, ha, rfl, by rw [hw, hcross]; rfl⟩
  | cons d todo ih =>
    obtain ⟨req, stored⟩ := d
    obtain ⟨hkey, hraw⟩ := Prod.mk.inj (hwrite req)
    -- the put and its accounting are the same in both models
    have hdb : WriterDB.of (p.db.applyWrite a (write req) stored) = { WriterDB.of p.db with
        memtableBytes := p.db.memtableBytes + memtableEntrySize req.key req.value } := by
      rw [← hkey, ← hraw]
      rfl
    have hheap : (p.db.applyWrite a (write req) stored).heap =
        Function.update p.db.heap a (p.db.heap a ++ [(req.key, stored)]) := by
      rw [← hkey]
      rfl
    by_cases hwait : (crossing && todo.isEmpty) = true
    · obtain ⟨hcross, hnil⟩ := Bool.and_eq_true_iff.mp hwait
      obtain rfl := List.isEmpty_iff.mp hnil
      obtain rfl := hwhy.mp hcross
      obtain rfl : (req, stored) = last := Option.some.inj (hlast hcross)
      simp only [applyPrepared, hwait, if_true, List.append_nil] at hr
      subst hr
      refine ⟨_, .step (.applyCrossing (write req) stored (rest.map write) a hw ha) rfl ?_, hdb, ha, rfl,
        ?_⟩
      · exact congrArg (Prod.mk dir) hheap
      · rw [if_pos hcross]
    · have hack : why = .crossing → submitted write todo ≠ [] := by
        intro heq hnil
        simp [hwhy.mpr heq, List.map_eq_nil_iff.mp hnil] at hwait
      have hstep : Does write (dir, p) [.put a req stored, .finish req none] (dir, { p with
          db := p.db.applyWrite a (write req) stored
          writer := .applying (submitted write todo) (rest.map write) why }) :=
        .step (.apply (write req) stored _ _ why a hw ha hack) rfl (congrArg (Prod.mk dir) hheap)
      simp only [applyPrepared, hwait, Bool.false_eq_true, if_false, List.singleton_append] at hr
      have hlast' : crossing = true → todo.getLast? = some last := by
        intro hcross
        have hne : todo ≠ [] := by
          rintro rfl
          simp [hcross] at hwait
        rw [← hlast hcross, List.getLast?_cons_of_ne_nil hne]
      obtain ⟨p', hdoes, hdb', hmem', hch, hw'⟩ := ih (p := { p with
          db := p.db.applyWrite a (write req) stored
          writer := .applying (submitted write todo) (rest.map write) why }) ha rfl hlast' rfl
      subst hr
      rw [hdb] at hdoes hdb'
      exact ⟨p', hstep.trans hdoes, hdb', hmem', hch, hw'⟩

/-! ## One round -/

omit hwrite in
/-- `rotateMemtable` as the writer's step, with the handing over to the flush loop. -/
theorem finishCrossing_does {env : RoundEnv} {now : ℕ} (hclean : env.Clean now) {dir : Dir} {p : Proc}
    {a : ℕ} (ha : p.db.memtable = some a) {last : WriteRequest} {rest : List WriteRequest}
    (hw : p.writer = .rotating (write last) (rest.map write)) (hroom : p.flushCh.length < flushCap)
    (hfresh : dir.wals.get (walID now) = none)
    {r : WriterDB × List Effect × List WriteRequest}
    (hr : finishCrossing env (.of p.db) last rest = r) :
    ∃ s', Does write (dir, p) r.2.1 s' ∧ WriterDB.of s'.2.db = r.1 ∧
      s'.2.writer = Writer.next (r.2.2.map write) := by
  -- with a clean environment neither the new WAL nor the closing of the old one fails
  have hrotate : (WriterDB.of p.db).rotateMemtable env =
      .ok (.of (p.db.rotateMemtable a (walID now))) := by
    simp only [WriterDB.rotateMemtable, hclean.createFails, hclean.closeFails, hclean.nextWal]
    rfl
  simp only [finishCrossing, hrotate, hclean.nextWal] at hr
  subst hr
  set p₁ : Proc := { p with
    db := p.db.rotateMemtable a (walID now)
    writer := .sending (p.db.toFlush a) (write last) (rest.map write) }
  have hrotated : Does write (dir, p) [.rotate p.db.next (walID now)]
      ({ dir with wals := dir.wals.insert (walID now) [] }, p₁) :=
    .step (.rotate now _ _ a hw ha hfresh) rfl rfl
  -- the channel has room, so the handing over does not block
  have hsent : Does write ({ dir with wals := dir.wals.insert (walID now) [] }, p₁)
      [.finish last none] ({ dir with wals := dir.wals.insert (walID now) [] }, { p₁ with
        flushCh := p.flushCh ++ [p.db.toFlush a]
        writer := Writer.next (rest.map write) }) :=
    .step (.send _ _ _ rfl (show p₁.flushCh.length < flushCap from hroom)) rfl rfl
  exact ⟨_, hrotated.trans hsent, rfl, rfl⟩

/-- A round from the append to the WAL on. -/
theorem commit_does {env : RoundEnv} {now : ℕ} (hclean : env.Clean now) {dir : Dir} {p : Proc} {a : ℕ}
    {wal file : Bytes} (ha : p.db.memtable = some a) (hwal : p.db.activeWal = some wal)
    (hfile : dir.wals.get wal = some file) (hroom : p.flushCh.length < flushCap)
    (hfresh : dir.wals.get (walID now) = none) {pr : Prepared} {batch : List WriteRequest}
    {why : PrepareEnd} (hwhy : EndsAs pr why) {last : WriteRequest × Bytes}
    (hlast : pr.done.getLast? = some last)
    (hw : p.writer = .prepared (submitted write pr.done) ((batch.drop pr.done.length).map write) why)
    {r : WriterDB × List Effect × List WriteRequest}
    (hr : commit env (.of p.db) wal a pr last.1 batch = r) :
    ∃ s', Does write (dir, p) r.2.1 s' ∧ WriterDB.of s'.2.db = r.1 ∧
      s'.2.writer = Writer.next (r.2.2.map write) := by
  have hrecords : (submitted write pr.done).map (fun e => e.1.record) =
      pr.done.map fun d => d.1.entry := by
    simp [submitted, hwrite, Function.comp_def]
  set dir₁ : Dir := { dir with
    wals := dir.wals.insert wal (appendBatch file (pr.done.map fun d => d.1.entry)) }
  set p₁ : Proc := { p with
    writer := .applying (submitted write pr.done) ((batch.drop pr.done.length).map write) why }
  have happend : Does write (dir, p) [.append wal (pr.done.map fun d => d.1.entry)] (dir₁, p₁) := by
    have hstep := WriterStep.append _ _ why wal file hw hwal hfile
    rw [hrecords] at hstep
    refine .step hstep rfl ?_
    simp only [List.foldl_cons, List.foldl_nil, Effect.run, hfile, Option.getD_some]
  have hcrossing : pr.crossing = true ↔ why = .crossing := by
    cases why <;> simp_all [EndsAs]
  obtain ⟨p₂, hdoes, hdb, hmem, hch, hw₂⟩ := applyPrepared_does hwrite hcrossing dir₁
    (p := p₁) ha rfl (fun _ => hlast) rfl
  have hdone := happend.trans hdoes
  simp only [commit, show WriterDB.of p.db = WriterDB.of p₁.db from rfl, ← hdb] at hr
  cases why with
  | crossing =>
    have hcross : pr.crossing = true := hwhy
    -- the name of the next WAL is still free: the append only changed the active one
    have hfresh₁ : dir₁.wals.get (walID now) = none := by
      rw [OrdMap.get_insert, if_neg, hfresh]
      rintro rfl
      simp [hfresh] at hfile
    rw [if_pos hcross] at hw₂ hr
    obtain ⟨s', hfinish, hdb', hw'⟩ := finishCrossing_does hclean hmem hw₂ (hch ▸ hroom) hfresh₁ rfl
    subst hr
    exact ⟨s', hdone.trans hfinish, hdb', hw'⟩
  | exhausted =>
    obtain ⟨hcross, hprep⟩ : pr.crossing = false ∧ pr.prepErr = none := hwhy
    simp only [hcross, Bool.false_eq_true, if_false, hprep] at hw₂ hr
    subst hr
    have hend : Does write (dir₁, p₂) [] (dir₁, { p₂ with
        writer := Writer.next ((batch.drop pr.done.length).map write) }) :=
      .step (.batchDone _ hw₂) rfl rfl
    have hround := hdone.trans hend
    rw [List.append_nil, hcross] at hround
    exact ⟨_, hround, rfl, rfl⟩
  | failed e =>
    obtain ⟨hcross, hprep⟩ : pr.crossing = false ∧ pr.prepErr = some (.flush e) := hwhy
    simp only [hcross, Bool.false_eq_true, if_false, hprep] at hw₂ hr
    subst hr
    have hend : Does write (dir₁, p₂) (failWriteRequests (batch.drop pr.done.length) (some (.flush e)))
        (dir₁, { p₂ with writer := .idle }) := .fail (.batchFail _ e hw₂) _ rfl
    have hround := hdone.trans hend
    rw [hcross] at hround
    exact ⟨_, hround, rfl, rfl⟩

/-- **A round is a run of the writer's steps.** From the head of the loop, with room in the flush
channel, the steps of the writer do what the round does: they change the files and the memtables as its
effects say, give its answers in order, leave the same store, and stand at the head of the loop again
if requests are left. -/
theorem round_does {env : RoundEnv} {now : ℕ} (hclean : env.Clean now) {dir : Dir} {p : Proc}
    {batch : List WriteRequest} (hne : batch ≠ []) (hw : p.writer = .loop (batch.map write))
    (hroom : p.flushCh.length < flushCap)
    (hfile : ∀ wal, p.db.activeWal = some wal → ∃ file, dir.wals.get wal = some file)
    (hfresh : dir.wals.get (walID now) = none) {r : WriterDB × List Effect × List WriteRequest}
    (hr : round env (.of p.db) batch = r) :
    ∃ s', Does write (dir, p) r.2.1 s' ∧ WriterDB.of s'.2.db = r.1 ∧
      s'.2.writer = Writer.next (r.2.2.map write) := by
  -- the three reasons of a refusal fail the batch in the same way
  have hrefused : ∀ e, (p.db.flushErr ≠ none ∨ p.db.activeWal = none ∨ p.db.memtable = none) →
      (WriterDB.of p.db, failWriteRequests batch (some e), []) = r →
      ∃ s', Does write (dir, p) r.2.1 s' ∧ WriterDB.of s'.2.db = r.1 ∧
        s'.2.writer = Writer.next (r.2.2.map write) := by
    rintro e hrefuse rfl
    exact ⟨(dir, { p with writer := .idle }), .fail (.refuseBatch _ hw hrefuse) e rfl, rfl, rfl⟩
  -- no error arrives from the flush loop while a clean round runs
  have hround : round env (.of p.db) batch = roundOn env (.of p.db) batch := by
    rw [round, hclean.flushErr, Option.map_none, Option.or_none]
  rw [hround, roundOn] at hr
  split at hr
  · next e herr =>
    refine hrefused _ (Or.inl ?_) hr
    intro hnone
    simp [WriterDB.of, hnone] at herr
  · next wal a herr hwal hmem =>
    obtain ⟨file, hfile'⟩ := hfile wal hwal
    set p₁ : Proc := { p with writer := .preparing [] (batch.map write) p.db.memtableBytes }
    have hsome : p.db.activeWal ≠ none ∧ p.db.memtable ≠ none :=
      ⟨Option.ne_none_iff_exists'.mpr ⟨wal, hwal⟩, Option.ne_none_iff_exists'.mpr ⟨a, hmem⟩⟩
    have hstart : Does write (dir, p) [] (dir, p₁) :=
      .step (.prepare _ hw (Option.map_eq_none_iff.mp herr) hsome.1 hsome.2) rfl rfl
    -- preparing changes neither the active WAL nor the memtable
    obtain ⟨-, -, hshows⟩ := prepare_effects env (WriterDB.of p.db).memtableBytes 0 batch
      (level_start (WriterDB.of p.db)).shows
    obtain ⟨⟨dir₂, p₂⟩, hdb₂, hch₂, hwals₂, hout⟩ := prepare_does hwrite hclean dir hne 0
      (show p₁.writer = .preparing (submitted write []) _ _ from rfl) rfl
    set pr := prepare env (WriterDB.of p.db) (WriterDB.of p.db).memtableBytes 0 batch
    change WriterDB.of p₂.db = pr.1 at hdb₂
    -- not even the first value was stored, or there is something to commit
    rcases hout with ⟨hnil, hidle, e, hprep, hdoes⟩ | ⟨hne', why, hwhy, hw₂, hdoes⟩
    · have hlast : pr.2.done.getLast? = none := List.getLast?_eq_none_iff.mpr hnil
      simp only [hlast, show pr.2.prepErr = some e from hprep] at hr
      subst hr
      exact ⟨(dir₂, p₂), hstart.trans hdoes, hdb₂, hidle⟩
    · have hlast : pr.2.done.getLast? = some (pr.2.done.getLast hne') :=
        List.getLast?_eq_some_getLast hne'
      have hmem₂ : (WriterDB.of p₂.db).memtable = some a := by
        rw [hdb₂, ← hshows.memtable]
        exact hmem
      have hwal₂ : (WriterDB.of p₂.db).activeWal = some wal := by
        rw [hdb₂, ← hshows.wal]
        exact hwal
      obtain ⟨s', hcommit, hdb', hw'⟩ := commit_does hwrite hclean hmem₂ hwal₂ (hwals₂ ▸ hfile')
        (hch₂ ▸ hroom) (hwals₂ ▸ hfresh) hwhy hlast hw₂ rfl
      simp only [hlast, hclean.appendFails, Bool.false_eq_true, if_false, ← hdb₂] at hr
      subst hr
      exact ⟨s', (hstart.trans hdoes).trans hcommit, hdb', hw'⟩
  · next herr hnone =>
    refine hrefused _ (Or.inr ?_) hr
    by_contra hboth
    obtain ⟨hwal, hmem⟩ := not_or.mp hboth
    obtain ⟨wal, hwal⟩ := Option.ne_none_iff_exists'.mp hwal
    obtain ⟨a, hmem⟩ := Option.ne_none_iff_exists'.mp hmem
    exact hnone wal a hwal hmem

/-! ## The whole batch -/

omit hwrite

/-- What the other goroutines leave alone between two rounds, and what the flush loop does for the next
one: the writer's place and fields are as before, the flush channel has room, the active WAL has its
file, and the name of the next WAL is free. -/
structure Between (now : ℕ) (s t : Dir × Proc) : Prop where
  writer : t.2.writer = s.2.writer
  fields : WriterDB.of t.2.db = WriterDB.of s.2.db
  room : t.2.flushCh.length < flushCap
  file : ∀ wal, t.2.db.activeWal = some wal → ∃ file, t.1.wals.get wal = some file
  fresh : t.1.wals.get (walID now) = none

/-- The writer does the effects in at most `n` turns and is idle then, with the store `db`: whatever the
other goroutines do before a turn, its steps do the next of the effects. -/
def DoesInTurns (write : WriteRequest → Write) (now : ℕ → ℕ) :
    ℕ → Dir × Proc → List Effect → WriterDB → Prop
  | 0, s, effects, db => s.2.writer = .idle ∧ effects = [] ∧ WriterDB.of s.2.db = db
  | n + 1, s, effects, db => (s.2.writer = .idle ∧ effects = [] ∧ WriterDB.of s.2.db = db) ∨
      ∀ t, Between (now n) s t → ∃ u first rest, effects = first ++ rest ∧ Does write t first u ∧
        DoesInTurns write now n u rest db

include hwrite

/-- **`processWriteBatch` as steps of the writer.** If no file operation fails, the writer's steps do
the effects of the function on the batch, one round at a turn, and leave its store. -/
theorem processWriteBatch_does {env : ℕ → RoundEnv} {now : ℕ → ℕ} (hclean : ∀ n, (env n).Clean (now n))
    (n : ℕ) {s : Dir × Proc} {batch : List WriteRequest}
    (hw : s.2.writer = Writer.next (batch.map write)) {db' : WriterDB} {effects : List Effect}
    (h : processWriteBatch env n (.of s.2.db) batch = some (db', effects)) :
    DoesInTurns write now n s effects db' := by
  induction n generalizing s batch effects with
  | zero =>
    cases batch with
    | nil =>
      obtain ⟨rfl, rfl⟩ := Prod.mk.inj (Option.some.inj h)
      exact ⟨hw, rfl, rfl⟩
    | cons req rest => cases h
  | succ n ih =>
    cases batch with
    | nil =>
      obtain ⟨rfl, rfl⟩ := Prod.mk.inj (Option.some.inj h)
      exact Or.inl ⟨hw, rfl, rfl⟩
    | cons req rest =>
      -- before each round the other parties may have moved; `t` is any state they leave
      refine Or.inr fun t ht => ?_
      rw [processWriteBatch, Option.map_eq_some_iff] at h
      obtain ⟨⟨dbₙ, more⟩, hmore, heq⟩ := h
      obtain ⟨rfl, rfl⟩ := Prod.mk.inj heq
      rw [← ht.fields] at hmore ⊢
      obtain ⟨u, hdoes, hdb, hw'⟩ := round_does hwrite (hclean n) (List.cons_ne_nil req rest)
        (ht.writer.trans hw) ht.room ht.file ht.fresh rfl
      rw [← hdb] at hmore
      exact ⟨u, _, _, rfl, hdoes, ih hw' hmore⟩

end

end Seol.Batch
