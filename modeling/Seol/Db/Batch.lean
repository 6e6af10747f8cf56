import Seol.Db.Shutdown

/-!
# Processing a batch of writes

Reference: `processWriteBatch`, `rotateMemtable`, `setFlushErrIfNil`, `failWriteRequests` and
`writeRequest.finish` in `db.go`. The function is run with every outcome of the calls it makes: of each
append to the value log, of the append to the WAL, of creating the next WAL and closing the old one,
and with errors that the flush loop records meanwhile. What it does to the value log, the WAL, the
memtables and the requests is its list of effects. A put always succeeds here: room in the arena is a
matter of the skiplist.
-/

namespace Seol.Batch

open Common Vlog

/-- `writeRequest`; `id` stands for the pointer. -/
structure WriteRequest where
  id : ℕ
  key : Bytes
  value : Bytes

namespace WriteRequest

/-- The entry of the request in the WAL. -/
def entry (req : WriteRequest) : Bytes × Bytes := (req.key, req.value)

end WriteRequest

/-- The errors a request may be answered with. -/
inductive WriteError where
  | flush (e : FlushError)
  | appendWAL
  | rotateWAL
  | closeWAL
  | closed

/-- What `processWriteBatch` does that others see. -/
inductive Effect where
  /-- `storeValueForLSM` returned for a request, and left the value log so. -/
  | store (req : WriteRequest) (result : Except StoreError Bytes) (log : Log)
  /-- `activeWal.appendBatch` returned nil. -/
  | append (wal : Bytes) (entries : List (Bytes × Bytes))
  /-- `memtable.Put`. -/
  | put (memtable : ℕ) (req : WriteRequest) (stored : Bytes)
  /-- `rotateMemtable` made a fresh memtable and WAL the active ones. -/
  | rotate (memtable : ℕ) (wal : Bytes)
  /-- `rotateMemtable`, called for a request, failed. -/
  | rotateFailed (req : WriteRequest)
  /-- `req.finish(err)`. -/
  | finish (req : WriteRequest) (err : Option WriteError)

/-- The fields of `DB` that the writer reads and writes, and the address of the next memtable. -/
structure WriterDB where
  memtableMaxBytes : ℕ
  valueThreshold : ℕ
  valueLog : Log
  activeWal : Option Bytes
  memtable : Option ℕ
  memtableBytes : ℕ
  flushErr : Option WriteError
  next : ℕ

/-- What one round of the loop meets: an error the flush loop recorded before it and one recorded
during it, for each request the clock and the write outcome of its value-log append, whether the WAL
takes the batch, whether the next WAL can be created and the old one closed, and its name. -/
structure RoundEnv where
  flushErr : Option FlushError
  lateErr : Option FlushError
  store : ℕ → UInt64 × Option ℕ
  appendFails : Bool
  createFails : Bool
  closeFails : Bool
  nextWal : Bytes

namespace WriterDB

/-- `setFlushErrIfNil`: the flush loop may have recorded its error first. -/
def setFlushErrIfNil (db : WriterDB) (env : RoundEnv) (e : WriteError) : WriterDB × WriteError :=
  let kept := (db.flushErr.or (env.lateErr.map .flush)).getD e
  ({ db with flushErr := some kept }, kept)

/-- `rotateMemtable`. -/
def rotateMemtable (db : WriterDB) (env : RoundEnv) : Except WriteError WriterDB :=
  if env.createFails then .error .rotateWAL
  else if env.closeFails then .error .closeWAL
  else .ok { db with
    memtable := some db.next, activeWal := some env.nextWal, memtableBytes := 0, next := db.next + 1 }

end WriterDB

/-- `failWriteRequests`. -/
def failWriteRequests (batch : List WriteRequest) (err : Option WriteError) : List Effect :=
  batch.map fun req => .finish req err

/-- `walBatch` with `storedBatch`, `crossing` and `prepErr` after the preparing loop, and what the loop
did to the value log. -/
structure Prepared where
  done : List (WriteRequest × Bytes)
  effects : List Effect
  crossing : Bool
  prepErr : Option WriteError

/-- The preparing loop, from request `i` on. -/
def prepare (env : RoundEnv) (db : WriterDB) (projectedBytes i : ℕ) :
    List WriteRequest → WriterDB × Prepared
  | [] => (db, ⟨[], [], false, none⟩)
  | req :: rest =>
    match storeValueForLSM db.valueLog db.valueThreshold req.key req.value (env.store i).1
      (env.store i).2 with
    | (.error e, log) =>
      let (db, kept) := { db with valueLog := log }.setFlushErrIfNil env (.flush (.store e))
      (db, ⟨[], [.store req (.error e) log], false, some kept⟩)
    | (.ok stored, log) =>
      let db := { db with valueLog := log }
      let projectedBytes := projectedBytes + memtableEntrySize req.key req.value
      if db.memtableMaxBytes ≤ projectedBytes then
        (db, ⟨[(req, stored)], [.store req (.ok stored) log], true, none⟩)
      else
        let (db, p) := prepare env db projectedBytes (i + 1) rest
        (db, { p with
          done := (req, stored) :: p.done
          effects := .store req (.ok stored) log :: p.effects })

/-- The loop that puts the prepared requests into the memtable and answers them. The last one waits
for the rotation when the batch crosses the size limit. -/
def applyPrepared (a : ℕ) (crossing : Bool) (db : WriterDB) :
    List (WriteRequest × Bytes) → WriterDB × List Effect
  | [] => (db, [])
  | (req, stored) :: todo =>
    let db := { db with memtableBytes := db.memtableBytes + memtableEntrySize req.key req.value }
    let answer := if crossing && todo.isEmpty then [] else [.finish req none]
    let (db, effects) := applyPrepared a crossing db todo
    (db, .put a req stored :: (answer ++ effects))

/-- The rotation at the end of a round and the answer to the request that waited for it. The requests
after it are left for the next round, or fail with it. -/
def finishCrossing (env : RoundEnv) (db : WriterDB) (last : WriteRequest)
    (rest : List WriteRequest) : WriterDB × List Effect × List WriteRequest :=
  match db.rotateMemtable env with
  | .error e =>
    let (db, e) := db.setFlushErrIfNil env e
    (db, .rotateFailed last :: .finish last (some e) :: failWriteRequests rest (some e), [])
  | .ok db => (db, [.rotate (db.next - 1) env.nextWal, .finish last none], rest)

/-- A round from the append to the WAL on, for prepared requests of which `last` is the last. -/
def commit (env : RoundEnv) (db : WriterDB) (wal : Bytes) (a : ℕ) (p : Prepared)
    (last : WriteRequest) (batch : List WriteRequest) :
    WriterDB × List Effect × List WriteRequest :=
  let (db, effects) := applyPrepared a p.crossing db p.done
  let effects := .append wal (p.done.map fun d => d.1.entry) :: effects
  let rest := batch.drop p.done.length
  if p.crossing then
    let (db, more, rest) := finishCrossing env db last rest
    (db, effects ++ more, rest)
  else
    match p.prepErr with
    | some e => (db, effects ++ failWriteRequests rest (some e), [])
    | none => (db, effects, rest)

/-- A round of the loop of `processWriteBatch`, on the fields it reads at its start. -/
def roundOn (env : RoundEnv) (db : WriterDB) (batch : List WriteRequest) :
    WriterDB × List Effect × List WriteRequest :=
  match db.flushErr, db.activeWal, db.memtable with
  | some e, _, _ => (db, failWriteRequests batch (some e), [])
  | none, some wal, some a =>
    let (db, p) := prepare env db db.memtableBytes 0 batch
    match p.done.getLast? with
    | none => (db, p.effects ++ failWriteRequests batch p.prepErr, [])
    | some (last, _) =>
      if env.appendFails then
        let (db, e) := db.setFlushErrIfNil env .appendWAL
        (db, p.effects ++ failWriteRequests batch (some e), [])
      else
        let (db, effects, rest) := commit env db wal a p last batch
        (db, p.effects ++ effects, rest)
  | none, _, _ => (db, failWriteRequests batch (some .closed), [])

/-- One round of the loop of `processWriteBatch`: the effects, and the requests left for the next
round. A round that returns leaves none. -/
def round (env : RoundEnv) (db : WriterDB) (batch : List WriteRequest) :
    WriterDB × List Effect × List WriteRequest :=
  roundOn env { db with flushErr := db.flushErr.or (env.flushErr.map .flush) } batch

/-- `processWriteBatch`, with a bound on its rounds. -/
def processWriteBatch (env : ℕ → RoundEnv) :
    ℕ → WriterDB → List WriteRequest → Option (WriterDB × List Effect)
  | _, db, [] => some (db, [])
  | 0, _, _ :: _ => none
  | rounds + 1, db, req :: rest =>
    let r := round (env rounds) db (req :: rest)
    (processWriteBatch env rounds r.1 r.2.2).map fun q => (q.1, r.2.1 ++ q.2)

/-! ## The meaning of the effects -/

/-- An entry a WAL took, with the number of rotations before and the name of the WAL. -/
structure Logged where
  generation : ℕ
  wal : Bytes
  entry : Bytes × Bytes

/-- A request put into a memtable, with the number of rotations before, the address of the memtable and
the bytes it got for the value. -/
structure Applied where
  generation : ℕ
  memtable : ℕ
  req : WriteRequest
  stored : Bytes

/-- What the effects so far amount to: the number of rotations, the active memtable and WAL, the value
log, what was stored for the requests, the entries the WALs took, the requests put into memtables, the
answers, and the request whose rotation failed. -/
structure Tally where
  valueThreshold : ℕ
  generation : ℕ
  memtable : Option ℕ
  wal : Option Bytes
  log : Log
  stored : List (WriteRequest × Bytes)
  logged : List Logged
  applied : List Applied
  answered : List (WriteRequest × Option WriteError)
  failed : Option WriteRequest

namespace Tally

/-- Nothing done yet. -/
def start (db : WriterDB) : Tally :=
  ⟨db.valueThreshold, 0, db.memtable, db.activeWal, db.valueLog, [], [], [], [], none⟩

def step (t : Tally) : Effect → Tally
  | .store req (.ok stored) log => { t with log := log, stored := t.stored ++ [(req, stored)] }
  | .store _ (.error _) log => { t with log := log }
  | .append wal entries =>
    { t with logged := t.logged ++ entries.map fun entry => ⟨t.generation, wal, entry⟩ }
  | .put memtable req stored =>
    { t with applied := t.applied ++ [⟨t.generation, memtable, req, stored⟩] }
  | .rotate memtable wal =>
    { t with generation := t.generation + 1, memtable := some memtable, wal := some wal }
  | .rotateFailed req => { t with failed := some req }
  | .finish req err => { t with answered := t.answered ++ [(req, err)] }

end Tally

/-- What each effect may rely on. Values are stored by `storeValueForLSM` in the current value log;
appends go to the active WAL; a request is put into the active memtable, with the bytes stored for it,
once the active WAL has its entry; it is answered with nil once it is in the memtable; and a request in
a memtable is answered with an error only if it is the one whose rotation failed. Requests are stored,
logged, put and answered in order, so each list tells of a request at the same place. -/
def Truthful (t : Tally) : Effect → Prop
  | .store req result log => ∃ now fault,
      storeValueForLSM t.log t.valueThreshold req.key req.value now fault = (result, log)
  | .append wal _ => t.wal = some wal
  | .put a req stored => t.memtable = some a ∧ t.stored[t.applied.length]? = some (req, stored) ∧
      ∃ wal, t.wal = some wal ∧
        t.logged[t.applied.length]? = some ⟨t.generation, wal, req.entry⟩
  | .rotate _ _ => True
  | .rotateFailed req => t.applied.getLast?.map Applied.req = some req
  | .finish req none => t.applied[t.answered.length]?.map Applied.req = some req
  | .finish req (some _) => t.answered.length < t.applied.length →
      t.failed = some req ∧ t.applied[t.answered.length]?.map Applied.req = some req

/-- The bytes that stand for the value of a request: the tombstone, the value itself, or a reference to
the record of its key and value in the value log. -/
inductive StandsFor (log : Log) (valueThreshold : ℕ) (req : WriteRequest) : Bytes → Prop
  | tombstone (ht : req.value = tombstoneValue) : StandsFor log valueThreshold req tombstoneValue
  | inline (ht : req.value ≠ tombstoneValue) (hle : req.value.length ≤ valueThreshold) :
    StandsFor log valueThreshold req req.value
  | logged {ref : ValueRef} (ht : req.value ≠ tombstoneValue)
      (hlt : valueThreshold < req.value.length) (hs : Stored log ref req.key req.value) :
    StandsFor log valueThreshold req (encodeValueRef ref)

theorem StandsFor.mono {log log' : Log} {valueThreshold : ℕ} {req : WriteRequest} {stored : Bytes}
    (h : StandsFor log valueThreshold req stored) (he : Extends log log') :
    StandsFor log' valueThreshold req stored := by
  cases h with
  | tombstone ht => exact .tombstone ht
  | inline ht hle => exact .inline ht hle
  | logged ht hlt hs => exact .logged ht hlt (he _ _ _ hs)

theorem standsFor_of_store {log log' : Log} {valueThreshold : ℕ} {req : WriteRequest}
    {now : UInt64} {fault : Option ℕ} {stored : Bytes}
    (h : storeValueForLSM log valueThreshold req.key req.value now fault = (.ok stored, log')) :
    StandsFor log' valueThreshold req stored := by
  rcases storeValueForLSM_cases h with ⟨ht, rfl, -⟩ | ⟨ht, hle, rfl, -⟩ | ⟨ht, hlt, ref, happ, rfl⟩
  · exact .tombstone ht
  · exact .inline ht hle
  · exact .logged ht hlt (Log.append_stored happ).1

/-- The request at place `i` is in a memtable, in the WAL that was active with that memtable, and the
memtable has bytes that stand for its value. -/
def Tally.Holds (t : Tally) (i : ℕ) (req : WriteRequest) : Prop :=
  ∃ d wal, t.applied[i]? = some d ∧ d.req = req ∧
    t.logged[i]? = some ⟨d.generation, wal, req.entry⟩ ∧
    StandsFor t.log t.valueThreshold req d.stored

/-! ## What truthful effects keep -/

/-- What holds after truthful effects: stored bytes stand for their values, and the requests in
memtables and those answered with nil are held. -/
structure Kept (t : Tally) : Prop where
  stored : ∀ d ∈ t.stored, StandsFor t.log t.valueThreshold d.1 d.2
  applied : ∀ i d, t.applied[i]? = some d → t.Holds i d.req
  answered : ∀ i req, t.answered[i]? = some (req, none) → t.Holds i req

theorem kept_start (db : WriterDB) : Kept (.start db) := by
  refine ⟨?_, ?_, ?_⟩ <;> simp [Tally.start]

/-- A place in a list with one more element at the end. -/
theorem getElem?_concat_cases {α : Type*} {l : List α} {a b : α} {i : ℕ}
    (h : (l ++ [a])[i]? = some b) : l[i]? = some b ∨ i = l.length ∧ a = b := by
  grind

theorem getElem?_of_prefix {α : Type*} {l l' : List α} {a : α} {i : ℕ} (h : l[i]? = some a)
    (hp : l <+: l') : l'[i]? = some a := by
  obtain ⟨hi, rfl⟩ := List.getElem?_eq_some_iff.mp h
  exact List.prefix_iff_getElem?.mp hp i hi

/-- A tally that grew at the ends holds what it held. -/
theorem Tally.Holds.grow {t t' : Tally} {i : ℕ} {req : WriteRequest} (h : t.Holds i req)
    (happlied : t.applied <+: t'.applied) (hlogged : t.logged <+: t'.logged)
    (hlog : Extends t.log t'.log) (hthreshold : t'.valueThreshold = t.valueThreshold) :
    t'.Holds i req := by
  obtain ⟨d, wal, hd, hreq, hl, hstands⟩ := h
  refine ⟨d, wal, getElem?_of_prefix hd happlied, hreq, getElem?_of_prefix hl hlogged, ?_⟩
  rw [hthreshold]
  exact hstands.mono hlog

/-- **Truthful effects keep every request held that is in a memtable or answered with nil.** -/
theorem Kept.step {t : Tally} (h : Kept t) {e : Effect} (he : Truthful t e) : Kept (t.step e) := by
  cases e with
  | store req result log =>
    obtain ⟨now, fault, hstore⟩ := he
    have hext := extends_storeValueForLSM hstore
    have hstored : ∀ d ∈ t.stored, StandsFor log t.valueThreshold d.1 d.2 :=
      fun d hd => (h.stored d hd).mono hext
    cases result with
    | error err =>
      exact ⟨hstored,
        fun i d hd => (h.applied i d hd).grow List.prefix_rfl List.prefix_rfl hext rfl,
        fun i r hr => (h.answered i r hr).grow List.prefix_rfl List.prefix_rfl hext rfl⟩
    | ok stored =>
      exact ⟨List.forall_mem_append.mpr
          ⟨hstored, List.forall_mem_singleton.mpr (standsFor_of_store hstore)⟩,
        fun i d hd => (h.applied i d hd).grow List.prefix_rfl List.prefix_rfl hext rfl,
        fun i r hr => (h.answered i r hr).grow List.prefix_rfl List.prefix_rfl hext rfl⟩
  | append wal entries =>
    have hlogged : t.logged <+: (t.step (.append wal entries)).logged := List.prefix_append _ _
    exact ⟨h.stored,
      fun i d hd => (h.applied i d hd).grow List.prefix_rfl hlogged (Extends.refl _) rfl,
      fun i r hr => (h.answered i r hr).grow List.prefix_rfl hlogged (Extends.refl _) rfl⟩
  | put a req stored =>
    obtain ⟨-, hstored, wal, -, hlogged⟩ := he
    have happlied : t.applied <+: (t.step (.put a req stored)).applied := List.prefix_append _ _
    -- the request just put: the WAL and the stored bytes have it at the place it takes
    have hnew : (t.step (.put a req stored)).Holds t.applied.length req :=
      ⟨⟨t.generation, a, req, stored⟩, wal, List.getElem?_concat_length, rfl, hlogged,
        h.stored _ (List.mem_of_getElem? hstored)⟩
    refine ⟨h.stored, fun i d hd => ?_, fun i r hr =>
      (h.answered i r hr).grow happlied List.prefix_rfl (Extends.refl _) rfl⟩
    rcases getElem?_concat_cases hd with hd | ⟨rfl, rfl⟩
    · exact (h.applied i d hd).grow happlied List.prefix_rfl (Extends.refl _) rfl
    · exact hnew
  | rotate a wal => exact ⟨h.stored, h.applied, h.answered⟩
  | rotateFailed req => exact ⟨h.stored, h.applied, h.answered⟩
  | finish req err =>
    refine ⟨h.stored, h.applied, fun i r hr => ?_⟩
    rcases getElem?_concat_cases hr with hr | ⟨rfl, heq⟩
    · exact h.answered i r hr
    · obtain ⟨rfl, rfl⟩ := Prod.mk.inj heq
      obtain ⟨d, hd, rfl⟩ := Option.map_eq_some_iff.mp he
      exact h.applied _ d hd

/-! ## The loops -/

/-- What the preparing loop leaves. -/
structure PrepareSpec (batch : List WriteRequest) (p : Prepared) : Prop where
  done_eq : p.done.map Prod.fst = batch.take p.done.length
  crossing : p.crossing = true → p.done ≠ [] ∧ p.prepErr = none
  all : p.crossing = false → p.prepErr = none → p.done.length = batch.length

theorem prepare_spec (env : RoundEnv) (db : WriterDB) (projectedBytes i : ℕ)
    (batch : List WriteRequest) : PrepareSpec batch (prepare env db projectedBytes i batch).2 := by
  induction batch generalizing db projectedBytes i with
  | nil => exact ⟨rfl, by simp [prepare], fun _ _ => rfl⟩
  | cons req rest ih =>
    rw [prepare]
    -- a value that cannot be stored ends the loop, as does one that fills the memtable
    split
    · exact ⟨rfl, by simp, by simp⟩
    · next stored log _ =>
      simp only []
      split_ifs with hcross
      · exact ⟨rfl, by simp, by simp⟩
      · obtain ⟨hdone, hcrossing, hall⟩ := ih { db with valueLog := log }
          (projectedBytes + memtableEntrySize req.key req.value) (i + 1)
        refine ⟨?_, fun h => ⟨by simp, (hcrossing h).2⟩, fun h h' => ?_⟩
        · rw [List.map_cons, hdone, List.length_cons, List.take_succ_cons]
        · rw [List.length_cons, List.length_cons, hall h h']

/-- The fields of the store that a tally tells of. -/
structure Shows (db : WriterDB) (t : Tally) : Prop where
  valueThreshold : t.valueThreshold = db.valueThreshold
  memtable : t.memtable = db.memtable
  wal : t.wal = db.activeWal
  log : t.log = db.valueLog

/-- The preparing loop only stores values, one for each request it prepares. -/
theorem prepare_effects (env : RoundEnv) {db : WriterDB} (projectedBytes i : ℕ)
    (batch : List WriteRequest) {t : Tally} (ht : Shows db t) :
    AtEvery Tally.step Truthful t (prepare env db projectedBytes i batch).2.effects ∧
      (prepare env db projectedBytes i batch).2.effects.foldl Tally.step t =
        { t with
          log := (prepare env db projectedBytes i batch).1.valueLog
          stored := t.stored ++ (prepare env db projectedBytes i batch).2.done } ∧
      Shows (prepare env db projectedBytes i batch).1
        { t with log := (prepare env db projectedBytes i batch).1.valueLog } := by
  induction batch generalizing db projectedBytes i t with
  | nil => exact ⟨atEvery_nil, by simp [prepare, ← ht.log], ht.valueThreshold, ht.memtable, ht.wal, rfl⟩
  | cons req rest ih =>
    rw [prepare]
    split
    -- the error of the store is the first one, or an earlier one is kept
    · next e log hstore =>
      refine ⟨atEvery_cons.mpr ⟨⟨_, _, ht.log ▸ ht.valueThreshold ▸ hstore⟩, atEvery_nil⟩, ?_,
        ht.valueThreshold, ht.memtable, ht.wal, rfl⟩
      simp [Tally.step, WriterDB.setFlushErrIfNil]
    · next stored log hstore =>
      have htruth : Truthful t (.store req (.ok stored) log) :=
        ⟨_, _, ht.log ▸ ht.valueThreshold ▸ hstore⟩
      simp only []
      split_ifs with hcross
      · exact ⟨atEvery_cons.mpr ⟨htruth, atEvery_nil⟩, rfl, ht.valueThreshold, ht.memtable, ht.wal,
          rfl⟩
      -- the store changed the value log and nothing else that later effects look at
      · have hshows : Shows { db with valueLog := log } (t.step (.store req (.ok stored) log)) :=
          ⟨ht.valueThreshold, ht.memtable, ht.wal, rfl⟩
        obtain ⟨hrest, hfold, hshows'⟩ := ih
          (projectedBytes + memtableEntrySize req.key req.value) (i + 1) hshows
        refine ⟨atEvery_cons.mpr ⟨htruth, hrest⟩, ?_, hshows'.1, hshows'.2, hshows'.3, rfl⟩
        rw [List.foldl_cons, hfold]
        simp [Tally.step]

/-- Failing requests that are not in a memtable is truthful. -/
theorem failWriteRequests_spec (batch : List WriteRequest) (e : WriteError) {t : Tally}
    (ht : t.applied.length ≤ t.answered.length) :
    AtEvery Tally.step Truthful t (failWriteRequests batch (some e)) ∧
      (failWriteRequests batch (some e)).foldl Tally.step t =
        { t with answered := t.answered ++ batch.map fun req => (req, some e) } := by
  induction batch generalizing t with
  | nil => exact ⟨atEvery_nil, by simp [failWriteRequests]⟩
  | cons req rest ih =>
    obtain ⟨hrest, hfold⟩ := ih (t := t.step (.finish req (some e))) (by
      simp only [Tally.step, List.length_append, List.length_singleton]
      omega)
    -- fewer requests were applied than answered, so no condition is left for this answer
    refine ⟨atEvery_cons.mpr ⟨fun hlt => absurd ht (by omega), hrest⟩, ?_⟩
    rw [failWriteRequests, List.map_cons, List.foldl_cons]
    refine hfold.trans ?_
    simp [Tally.step]

/-- While a round applies requests: `reqs` are in memtables and `answered` of them answered with nil;
the values of `todo` are stored and the active WAL has their entries. -/
structure Applying (db : WriterDB) (wal : Bytes) (reqs answered : List WriteRequest)
    (todo : List (WriteRequest × Bytes)) (t : Tally) : Prop where
  shows : Shows db t
  active : db.activeWal = some wal
  stored : ∃ old : List (WriteRequest × Bytes), old.length = reqs.length ∧ t.stored = old ++ todo
  logged : ∃ old : List Logged, old.length = reqs.length ∧
    t.logged = old ++ todo.map fun d => ⟨t.generation, wal, d.1.entry⟩
  applied : t.applied.map Applied.req = reqs
  answered : t.answered = answered.map fun req => (req, none)

namespace Applying

variable {db : WriterDB} {wal : Bytes} {reqs answered : List WriteRequest} {t : Tally}

theorem length_applied {todo : List (WriteRequest × Bytes)}
    (h : Applying db wal reqs answered todo t) : t.applied.length = reqs.length := by
  rw [← h.applied, List.length_map]

/-- The next request is put with the bytes stored for it, and its entry is in the active WAL. -/
theorem put {req : WriteRequest} {stored : Bytes} {todo : List (WriteRequest × Bytes)}
    (h : Applying db wal reqs answered ((req, stored) :: todo) t) {a : ℕ}
    (ha : db.memtable = some a) :
    Truthful t (.put a req stored) ∧
      Applying db wal (reqs ++ [req]) answered todo (t.step (.put a req stored)) := by
  obtain ⟨olds, holds, hstored⟩ := h.stored
  obtain ⟨oldl, holdl, hlogged⟩ := h.logged
  refine ⟨⟨h.shows.memtable.trans ha, ?_, wal, h.shows.wal.trans h.active, ?_⟩,
    ⟨h.shows.1, h.shows.2, h.shows.3, h.shows.4⟩, h.active, ?_, ?_, ?_, h.answered⟩
  -- the requests applied so far are a prefix of those stored and logged, in the same order
  · rw [h.length_applied, hstored, ← holds]
    simp
  -- the WAL has the entry since the append of the whole batch
  · rw [h.length_applied, hlogged, ← holdl]
    simp
  · exact ⟨olds ++ [(req, stored)], by simp [holds], by simp [Tally.step, hstored]⟩
  · exact ⟨oldl ++ [⟨t.generation, wal, req.entry⟩], by simp [holdl], by simp [Tally.step, hlogged]⟩
  · simp [Tally.step, h.applied]

/-- The first request that is not answered yet may be answered with nil. -/
theorem finish {todo : List (WriteRequest × Bytes)} (h : Applying db wal reqs answered todo t)
    (req : WriteRequest) (hreq : reqs[answered.length]? = some req) :
    Truthful t (.finish req none) ∧
      Applying db wal reqs (answered ++ [req]) todo (t.step (.finish req none)) := by
  refine ⟨?_, ⟨h.shows.1, h.shows.2, h.shows.3, h.shows.4⟩, h.active, h.stored, h.logged, h.applied, ?_⟩
  · rw [Truthful, h.answered, List.length_map, ← List.getElem?_map, h.applied]
    exact hreq
  · simp [Tally.step, h.answered]

theorem withBytes {todo : List (WriteRequest × Bytes)} (h : Applying db wal reqs answered todo t)
    (n : ℕ) : Applying { db with memtableBytes := n } wal reqs answered todo t :=
  ⟨⟨h.shows.1, h.shows.2, h.shows.3, h.shows.4⟩, h.active, h.stored, h.logged, h.applied, h.answered⟩

end Applying

/-- Between rounds every request taken off the batch is in a WAL, in a memtable and answered. -/
structure Level (db : WriterDB) (reqs : List WriteRequest) (t : Tally) : Prop where
  shows : Shows db t
  stored : t.stored.length = reqs.length
  logged : t.logged.length = reqs.length
  applied : t.applied.map Applied.req = reqs
  answered : t.answered = reqs.map fun req => (req, none)

theorem level_start (db : WriterDB) : Level db [] (.start db) :=
  ⟨⟨rfl, rfl, rfl, rfl⟩, rfl, rfl, rfl, rfl⟩

theorem Level.length_applied {db : WriterDB} {reqs : List WriteRequest} {t : Tally}
    (h : Level db reqs t) : t.applied.length = reqs.length := by
  rw [← h.applied, List.length_map]

theorem Applying.level {db : WriterDB} {wal : Bytes} {reqs : List WriteRequest} {t : Tally}
    (h : Applying db wal reqs reqs [] t) : Level db reqs t := by
  obtain ⟨olds, holds, hstored⟩ := h.stored
  obtain ⟨oldl, holdl, hlogged⟩ := h.logged
  exact ⟨h.shows, by simp [hstored, holds], by simp [hlogged, holdl], h.applied, h.answered⟩

/-- The append to the WAL is the step from a level state, with values stored, to one that applies. -/
theorem Level.append {db db' : WriterDB} {reqs : List WriteRequest} {t : Tally}
    (h : Level db reqs t) {wal : Bytes} (hwal : db'.activeWal = some wal)
    {done : List (WriteRequest × Bytes)} (hshows : Shows db' { t with log := db'.valueLog }) :
    Applying db' wal reqs reqs done
      (Tally.step { t with log := db'.valueLog, stored := t.stored ++ done }
        (.append wal (done.map fun d => d.1.entry))) := by
  refine ⟨⟨hshows.1, hshows.2, hshows.3, rfl⟩, hwal, ⟨t.stored, h.stored, rfl⟩,
    ⟨t.logged, h.logged, ?_⟩, h.applied, h.answered⟩
  simp [Tally.step, Function.comp_def]

/-- The requests of a loop that are answered right away: one that crosses the limit waits. -/
def answeredNow (crossing : Bool) (reqs : List WriteRequest) : List WriteRequest :=
  if crossing then reqs.dropLast else reqs

/-- The applying loop: each request is put and answered in turn, but for one that crosses the limit. -/
theorem applyPrepared_spec {a : ℕ} (crossing : Bool) {db : WriterDB} (ha : db.memtable = some a)
    {wal : Bytes} (todo : List (WriteRequest × Bytes)) {reqs : List WriteRequest} {t : Tally}
    (h : Applying db wal reqs reqs todo t) :
    AtEvery Tally.step Truthful t (applyPrepared a crossing db todo).2 ∧
      Applying (applyPrepared a crossing db todo).1 wal (reqs ++ todo.map Prod.fst)
        (reqs ++ answeredNow crossing (todo.map Prod.fst)) []
        ((applyPrepared a crossing db todo).2.foldl Tally.step t) := by
  induction todo generalizing db reqs t with
  | nil =>
    refine ⟨atEvery_nil, ?_⟩
    simpa [applyPrepared, answeredNow] using h
  | cons d todo ih =>
    obtain ⟨req, stored⟩ := d
    obtain ⟨hput, happlying⟩ := h.put ha
    by_cases hwait : (crossing && todo.isEmpty) = true
    · -- the last request of a batch that crosses the limit waits for the rotation
      obtain ⟨hcross, hnil⟩ := Bool.and_eq_true_iff.mp hwait
      obtain rfl := List.isEmpty_iff.mp hnil
      simp only [applyPrepared, hwait, if_true, List.append_nil]
      refine ⟨atEvery_cons.mpr ⟨hput, atEvery_nil⟩, ?_⟩
      simpa [answeredNow, hcross] using happlying.withBytes _
    · obtain ⟨hfinish, hnext⟩ := happlying.finish req List.getElem?_concat_length
      obtain ⟨hrest, hdone⟩ := ih (show WriterDB.memtable { db with
        memtableBytes := db.memtableBytes + memtableEntrySize req.key req.value } = some a from ha)
        (hnext.withBytes _)
      have hlast : answeredNow crossing (req :: todo.map Prod.fst) =
          req :: answeredNow crossing (todo.map Prod.fst) := by
        cases crossing with
        | false => rfl
        | true =>
          cases todo with
          | nil => simp at hwait
          | cons d todo => simp [answeredNow]
      simp only [applyPrepared, hwait, Bool.false_eq_true, if_false, List.singleton_append]
      refine ⟨atEvery_cons.mpr ⟨hput, atEvery_cons.mpr ⟨hfinish, hrest⟩⟩, ?_⟩
      rw [List.map_cons, hlast, List.append_cons, List.append_cons reqs req (answeredNow _ _)]
      exact hdone

/-! ## One round -/

/-- The answers to a batch of which the first `n` requests succeed and all others get one error. -/
def answers (n : ℕ) (e : WriteError) (batch : List WriteRequest) :
    List (WriteRequest × Option WriteError) :=
  (batch.take n).map (fun req => (req, none)) ++ (batch.drop n).map fun req => (req, some e)

theorem answers_fst (n : ℕ) (e : WriteError) (batch : List WriteRequest) :
    (answers n e batch).map Prod.fst = batch := by
  simp [answers, Function.comp_def]

/-- All of a batch after `reqs` is answered: its first `n` requests with nil, the others with `e`. The
first `n` are in memtables, and the next one only if its rotation failed. -/
structure Ended (reqs batch : List WriteRequest) (n : ℕ) (e : WriteError) (t : Tally) : Prop where
  answered : t.answered = reqs.map (fun req => (req, none)) ++ answers n e batch
  applied : t.applied.map Applied.req = reqs ++ batch.take n ∨
    ∃ last, batch[n]? = some last ∧ t.failed = some last ∧
      t.applied.map Applied.req = reqs ++ batch.take (n + 1)

/-- The rounds before may be counted to the batch. -/
theorem Ended.join {reqs batch : List WriteRequest} {n m : ℕ} {e : WriteError} {t : Tally}
    (h : Ended (reqs ++ batch.take n) (batch.drop n) m e t) : Ended reqs batch (n + m) e t := by
  refine ⟨?_, ?_⟩
  · rw [h.answered, answers, answers, List.take_add, List.drop_drop]
    simp only [List.map_append, List.append_assoc]
  · rcases h.applied with happlied | ⟨last, hlast, hfailed, happlied⟩
    · refine Or.inl ?_
      rw [happlied, List.take_add, List.append_assoc]
    · refine Or.inr ⟨last, by rwa [List.getElem?_drop] at hlast, hfailed, ?_⟩
      rw [happlied, Nat.add_assoc, List.take_add (i := n), List.append_assoc]

/-- No request is left. -/
theorem Level.ended_nil {db : WriterDB} {reqs : List WriteRequest} {t : Tally} (h : Level db reqs t)
    {e : WriteError} : Ended reqs [] 0 e t :=
  ⟨by simp [answers, h.answered], Or.inl (by simp [h.applied])⟩

/-- A round is truthful, and either takes requests off the batch with all of them applied and answered,
or ends the batch. -/
structure RoundSpec (reqs batch : List WriteRequest) (t : Tally)
    (r : WriterDB × List Effect × List WriteRequest) : Prop where
  truthful : AtEvery Tally.step Truthful t r.2.1
  outcome :
    (∃ n, 0 < n ∧ r.2.2 = batch.drop n ∧
      Level r.1 (reqs ++ batch.take n) (r.2.1.foldl Tally.step t)) ∨
    (r.2.2 = [] ∧ ∃ n e, Ended reqs batch n e (r.2.1.foldl Tally.step t))

/-- Effects that come first may be counted to the round. -/
theorem RoundSpec.after {reqs batch : List WriteRequest} {t : Tally} {effects : List Effect}
    (htruth : AtEvery Tally.step Truthful t effects) {db : WriterDB} {more : List Effect}
    {rest : List WriteRequest}
    (h : RoundSpec reqs batch (effects.foldl Tally.step t) (db, more, rest)) :
    RoundSpec reqs batch t (db, effects ++ more, rest) := by
  refine ⟨atEvery_append.mpr ⟨htruth, h.truthful⟩, ?_⟩
  rw [List.foldl_append]
  exact h.outcome

/-- A round that fails the requests after a prefix that is applied and answered. -/
theorem roundSpec_failRest {reqs batch : List WriteRequest} {t : Tally} (db : WriterDB) (n : ℕ)
    (e : WriteError) (happlied : t.applied.map Applied.req = reqs ++ batch.take n)
    (hanswered : t.answered = (reqs ++ batch.take n).map fun req => (req, none)) :
    RoundSpec reqs batch t (db, failWriteRequests (batch.drop n) (some e), []) := by
  have hlen : t.applied.length ≤ t.answered.length := by
    rw [hanswered, ← happlied, List.length_map, List.length_map]
  obtain ⟨htruth, hfold⟩ := failWriteRequests_spec (batch.drop n) e hlen
  refine ⟨htruth, Or.inr ⟨rfl, n, e, ?_, Or.inl ?_⟩⟩
  · rw [hfold]
    simp only [hanswered, answers, List.map_append, List.append_assoc]
  · rw [hfold]
    exact happlied

/-- A round that fails the whole batch before anything is applied. -/
theorem roundSpec_refused {reqs batch : List WriteRequest} {t : Tally} (db : WriterDB)
    (e : WriteError) (happlied : t.applied.map Applied.req = reqs)
    (hanswered : t.answered = reqs.map fun req => (req, none)) :
    RoundSpec reqs batch t (db, failWriteRequests batch (some e), []) :=
  roundSpec_failRest db 0 e (by rw [List.take_zero, List.append_nil, happlied])
    (by rw [List.take_zero, List.append_nil, hanswered])

/-- The end of a round that crosses the limit: all requests before `last` are applied and answered, and
`last` is applied and waits for the rotation. -/
theorem finishCrossing_spec (env : RoundEnv) {db : WriterDB} {wal : Bytes}
    {reqs pre : List WriteRequest} {last : WriteRequest} (rest : List WriteRequest) {t : Tally}
    (h : Applying db wal ((reqs ++ pre) ++ [last]) (reqs ++ pre) [] t) :
    RoundSpec reqs (pre ++ last :: rest) t (finishCrossing env db last rest) := by
  unfold finishCrossing
  cases hrotate : db.rotateMemtable env with
  | ok db' =>
    have hdb' : db' = { db with
        memtable := some db.next, activeWal := some env.nextWal, memtableBytes := 0
        next := db.next + 1 } := by
      unfold WriterDB.rotateMemtable at hrotate
      split_ifs at hrotate
      exact (Except.ok.inj hrotate).symm
    obtain ⟨hfinish, hnext⟩ := h.finish last List.getElem?_concat_length
    have hlevel := hnext.level
    -- the rotation comes before the answer but changes neither list
    refine ⟨atEvery_cons.mpr ⟨trivial, atEvery_cons.mpr ⟨hfinish, atEvery_nil⟩⟩,
      Or.inl ⟨pre.length + 1, pre.length.succ_pos, by simp, ?_⟩⟩
    rw [List.take_length_add_append, List.take_succ_cons, List.take_zero, ← List.append_assoc]
    subst hdb'
    exact ⟨⟨h.shows.valueThreshold, rfl, rfl, h.shows.log⟩, hlevel.stored, hlevel.logged,
      hlevel.applied, hlevel.answered⟩
  | error e =>
    set kept := (db.setFlushErrIfNil env e).2
    -- after the two effects about the rotation every applied request is answered
    have hlen : ([Effect.rotateFailed last, .finish last (some kept)].foldl Tally.step t).applied.length
        ≤ ([Effect.rotateFailed last, .finish last (some kept)].foldl Tally.step t).answered.length := by
      simp [Tally.step, h.length_applied, h.answered]
    obtain ⟨htruth, hfold⟩ := failWriteRequests_spec rest kept hlen
    have hlast : t.applied[t.answered.length]?.map Applied.req = some last := by
      rw [h.answered, List.length_map, ← List.getElem?_map, h.applied]
      exact List.getElem?_concat_length
    refine ⟨atEvery_cons.mpr ⟨?_, atEvery_cons.mpr ⟨fun _ => ⟨rfl, hlast⟩, htruth⟩⟩,
      Or.inr ⟨rfl, pre.length, kept, ?_, Or.inr ⟨last, by simp, ?_, ?_⟩⟩⟩
    · rw [Truthful, ← List.getLast?_map, h.applied]
      simp
    · refine (congrArg Tally.answered hfold).trans ?_
      simp [Tally.step, h.answered, answers]
    · exact congrArg Tally.failed hfold
    · refine (congrArg (fun t => t.applied.map Applied.req) hfold).trans ?_
      rw [List.take_length_add_append]
      simpa [Tally.step] using h.applied

/-- A round after the preparing loop, whose values `db` and `t` have. -/
theorem commit_spec (env : RoundEnv) {db : WriterDB} {wal : Bytes} {a : ℕ}
    (ha : db.memtable = some a) {p : Prepared} {batch : List WriteRequest}
    (hp : PrepareSpec batch p) {last : WriteRequest} {stored : Bytes}
    (hlast : p.done.getLast? = some (last, stored)) {reqs : List WriteRequest} {t : Tally}
    (ht : Applying db wal reqs reqs p.done (t.step (.append wal (p.done.map fun d => d.1.entry))))
    (hwal : t.wal = some wal) : RoundSpec reqs batch t (commit env db wal a p last batch) := by
  obtain ⟨htruth, happlying⟩ := applyPrepared_spec p.crossing ha p.done ht
  obtain ⟨pre, hpre⟩ := List.getLast?_eq_some_iff.mp hlast
  -- the append comes before every put, and the WAL is the active one
  have htruth' : AtEvery Tally.step Truthful t
      (.append wal (p.done.map fun d => d.1.entry) :: (applyPrepared a p.crossing db p.done).2) :=
    atEvery_cons.mpr ⟨hwal, htruth⟩
  unfold commit
  simp only []
  by_cases hcross : p.crossing = true
  -- the memtable is full: the last request waits for the rotation, the others are answered
  · have hdone : p.done.map Prod.fst = pre.map Prod.fst ++ [last] := by simp [hpre]
    have hbatch : batch = pre.map Prod.fst ++ last :: batch.drop p.done.length := by
      conv_lhs => rw [← List.take_append_drop p.done.length batch, ← hp.done_eq, hdone]
      simp
    rw [answeredNow, if_pos hcross, hdone, List.dropLast_concat, ← List.append_assoc] at happlying
    rw [if_pos hcross]
    have hround := finishCrossing_spec env (batch.drop p.done.length) happlying
    rw [← hbatch] at hround
    exact RoundSpec.after htruth' hround
  -- no rotation: all prepared requests are answered, and after an error the rest fails
  · rw [answeredNow, if_neg hcross, hp.done_eq] at happlying
    have hlevel := happlying.level
    rw [if_neg hcross]
    cases hprep : p.prepErr with
    | none =>
      refine ⟨htruth', Or.inl ⟨p.done.length, ?_, rfl, hlevel⟩⟩
      simp [hpre]
    | some e =>
      exact RoundSpec.after htruth' (roundSpec_failRest _ _ e hlevel.applied hlevel.answered)

/-- **One round of `processWriteBatch`.** -/
theorem round_spec (env : RoundEnv) {db : WriterDB} {reqs batch : List WriteRequest} {t : Tally}
    (ht : Level db reqs t) (hne : batch ≠ []) : RoundSpec reqs batch t (round env db batch) := by
  unfold round roundOn
  set db₀ := { db with flushErr := db.flushErr.or (env.flushErr.map .flush) }
  simp only []
  split
  · exact roundSpec_refused _ _ ht.applied ht.answered
  · next wal a herr hwal hmem =>
    have hp := prepare_spec env db₀ db₀.memtableBytes 0 batch
    have hshows₀ : Shows db₀ t := ⟨ht.shows.1, ht.shows.2, ht.shows.3, ht.shows.4⟩
    obtain ⟨htruth, hfold, hshows⟩ := prepare_effects env db₀.memtableBytes 0 batch hshows₀
    set r := prepare env db₀ db₀.memtableBytes 0 batch
    cases hlast : r.2.done.getLast? with
    | none =>
      -- nothing was prepared, so storing the first value failed
      have hnil := List.getLast?_eq_none_iff.mp hlast
      cases hprep : r.2.prepErr with
      | some e =>
        refine RoundSpec.after htruth ?_
        rw [hfold]
        exact roundSpec_refused r.1 e ht.applied ht.answered
      | none =>
        have hcross : r.2.crossing = false := by
          by_contra hcross
          exact (hp.crossing (by simpa using hcross)).1 hnil
        have hlen := hp.all hcross hprep
        rw [hnil] at hlen
        exact absurd (List.length_eq_zero_iff.mp hlen.symm) hne
    | some d =>
      simp only []
      split_ifs
      · refine RoundSpec.after htruth ?_
        rw [hfold]
        exact roundSpec_refused _ _ ht.applied ht.answered
      · have hwal' : r.1.activeWal = some wal := hshows.wal.symm.trans (ht.shows.wal.trans hwal)
        have hmem' : r.1.memtable = some a := hshows.memtable.symm.trans (ht.shows.memtable.trans hmem)
        refine RoundSpec.after htruth ?_
        rw [hfold]
        exact commit_spec env hmem' hp hlast (ht.append hwal' hshows) (hshows.wal.trans hwal')
  · exact roundSpec_refused _ _ ht.applied ht.answered

/-! ## The whole batch -/

/-- The rounds of `processWriteBatch` from a state in which `reqs` were applied and answered. -/
theorem processWriteBatch_spec (env : ℕ → RoundEnv) (rounds : ℕ) {db : WriterDB}
    {reqs batch : List WriteRequest} {t : Tally} (ht : Level db reqs t)
    (hrounds : batch.length ≤ rounds) :
    ∃ db' effects, processWriteBatch env rounds db batch = some (db', effects) ∧
      AtEvery Tally.step Truthful t effects ∧
      ∃ n e, Ended reqs batch n e (effects.foldl Tally.step t) := by
  induction rounds generalizing db reqs batch t with
  | zero =>
    obtain rfl := List.length_eq_zero_iff.mp (Nat.le_zero.mp hrounds)
    exact ⟨db, [], by rw [processWriteBatch], atEvery_nil, 0, .closed, ht.ended_nil⟩
  | succ rounds ih =>
    cases batch with
    | nil => exact ⟨db, [], by rw [processWriteBatch], atEvery_nil, 0, .closed, ht.ended_nil⟩
    | cons req rest =>
      obtain ⟨htruth, hout⟩ := round_spec (env rounds) ht (List.cons_ne_nil req rest)
      -- a round ends the batch, or applies some requests and leaves fewer than it got
      rcases hout with ⟨n, hn, hrest, hlevel⟩ | ⟨hrest, hended⟩
      · have hlen : ((req :: rest).drop n).length ≤ rounds := by
          rw [List.length_drop]
          omega
        obtain ⟨db', effects, hrun, htruth', m, e, hended⟩ := ih hlevel hlen
        refine ⟨db', _, ?_, atEvery_append.mpr ⟨htruth, htruth'⟩, n + m, e, ?_⟩
        · rw [processWriteBatch, hrest, hrun]
          rfl
        · rw [List.foldl_append]
          exact hended.join
      · refine ⟨(round (env rounds) db (req :: rest)).1, (round (env rounds) db (req :: rest)).2.1,
          ?_, htruth, hended⟩
        rw [processWriteBatch, hrest, processWriteBatch]
        simp

/-- In an ended batch a request that is in a memtable but answered with an error is the one whose
rotation failed. -/
theorem Ended.failed {batch : List WriteRequest} {n : ℕ} {e : WriteError} {t : Tally}
    (h : Ended [] batch n e t) {i : ℕ} {req : WriteRequest} {err : WriteError}
    (hi : t.answered[i]? = some (req, some err)) (hlt : i < t.applied.length) :
    t.failed = some req := by
  have hbatch : batch[i]? = some req := by
    have hfst := congrArg (Option.map Prod.fst) hi
    rwa [← List.getElem?_map, h.answered, List.map_nil, List.nil_append, answers_fst] at hfst
  have hn : n ≤ i := by
    by_contra hin
    have hnone : t.answered[i]? = some (req, none) := by
      rw [h.answered, List.map_nil, List.nil_append, answers, List.getElem?_append_left,
        List.getElem?_map, List.getElem?_take_of_lt (by omega), hbatch]
      · rfl
      · have := (List.getElem?_eq_some_iff.mp hbatch).1
        rw [List.length_map, List.length_take]
        omega
    rw [hnone] at hi
    cases hi
  rcases h.applied with happlied | ⟨last, hlast, hfailed, happlied⟩
  · have hlen := congrArg List.length happlied
    rw [List.length_map, List.nil_append, List.length_take] at hlen
    omega
  · have hlen := congrArg List.length happlied
    rw [List.length_map, List.nil_append, List.length_take] at hlen
    obtain rfl : i = n := by omega
    rw [hfailed, ← hlast, hbatch]

/-- **Every request of a batch gets exactly one truthful answer**, whatever fails. The loop ends after
at most a round for each request and finishes the requests of the batch, each once. It applies a
prefix of the batch in order. A request answered with nil is in a memtable, as bytes that stand for its
value, and its key and value are in the WAL that was active with that memtable; one that is in a
memtable but answered with an error is the one whose rotation failed. And each effect is truthful at
its time: a request is put into the memtable active then, after its entry is in the WAL, and answered
after both. -/
theorem every_request_answered (env : ℕ → RoundEnv) (db : WriterDB) (batch : List WriteRequest) :
    ∃ db' effects t, processWriteBatch env batch.length db batch = some (db', effects) ∧
      effects.foldl Tally.step (Tally.start db) = t ∧
      t.answered.map Prod.fst = batch ∧
      t.applied.map Applied.req <+: batch ∧
      (∀ i req, t.answered[i]? = some (req, none) → t.Holds i req) ∧
      (∀ i req e, t.answered[i]? = some (req, some e) → i < t.applied.length →
        t.failed = some req) ∧
      AtEvery Tally.step Truthful (Tally.start db) effects := by
  obtain ⟨db', effects, hrun, htruth, n, e, hended⟩ :=
    processWriteBatch_spec env batch.length (level_start db) le_rfl
  -- what is answered with nil holds by the truth of the effects alone
  have hkept := htruth.invariant (fun _ _ h he => h.step he) (kept_start db)
  refine ⟨db', effects, _, hrun, rfl, ?_, ?_, hkept.answered, fun i req e' => hended.failed, htruth⟩
  · rw [hended.answered, List.map_nil, List.nil_append, answers_fst]
  · rcases hended.applied with happlied | ⟨last, -, -, happlied⟩ <;> rw [happlied, List.nil_append]
    · exact List.take_prefix _ _
    · exact List.take_prefix _ _

/-- The answers are those of a batch in the protocol of submitting and shutting down. -/
theorem answers_are_rounds (env : ℕ → RoundEnv) (db : WriterDB) (batch : List WriteRequest) :
    ∃ db' effects rounds, processWriteBatch env batch.length db batch = some (db', effects) ∧
      (effects.foldl Tally.step (Tally.start db)).answered.map (fun a => (a.1.id, a.2)) =
        Shutdown.processWriteBatch rounds (batch.map WriteRequest.id) := by
  obtain ⟨db', effects, hrun, -, n, e, hended⟩ :=
    processWriteBatch_spec env batch.length (level_start db) le_rfl
  have hstart : (effects.foldl Tally.step (Tally.start db)).answered = answers n e batch := by
    rw [hended.answered, List.map_nil, List.nil_append]
  -- one round does it: the first requests succeed and storing the next value fails
  refine ⟨db', effects, fun _ => if n = 0 then .refused e else .prepared (n - 1) (.prepareFailed e),
    hrun, ?_⟩
  rw [hstart, answers, Shutdown.processWriteBatch]
  cases batch with
  | nil => simp [Shutdown.processRounds]
  | cons req rest =>
    rw [List.length_map, List.length_cons, Shutdown.processRounds, if_neg (by simp)]
    by_cases hn : n = 0
    · simp [hn, Shutdown.Round.run, Shutdown.processRounds_nil]
    · simp [hn, Shutdown.Round.run, Shutdown.processRounds_nil, Nat.sub_one_add_one hn,
        -List.map_cons, ← List.map_take, ← List.map_drop, Function.comp_def]

end Seol.Batch
