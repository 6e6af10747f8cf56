import Seol.Db.Meaning
import Seol.Vlog.History

/-!
# Rewriting the live entries

Reference: `rebuildLiveState` in `gc.go`. The tables are scanned in read order. The first entry of
every key is resolved through the old value log and, unless it is deleted, stored again through the
new one; the entries of one table go to one or more output tables at the level and with the age of
their source.
-/

namespace Seol

open Common Vlog

/-- What a run of the rewriting depends on besides its arguments: the clock reading and the outcome
of the n-th append to the new log, the name of the n-th output table (`none` when its flush fails),
and the clock for names that are no timestamps. -/
structure GcChoices where
  append : ℕ → UInt64 × Option ℕ
  flush : ℕ → Option Bytes
  now : ℤ

/-- Why the rewriting stops. -/
inductive GcError where
  | resolve (e : StoreError)
  | store (e : StoreError)
  | flush

/-- An output table and its metadata. -/
structure GcOutput where
  info : TableMeta
  entries : OrdMap Bytes Bytes

/-- The variables of `rebuildLiveState`. -/
structure Rebuild where
  seen : List Bytes
  log : Log
  builder : OrdMap Bytes Bytes
  builderBytes : ℕ
  flushed : List GcOutput

section Model

variable (c : GcChoices) (valueThreshold memtableMaxBytes : ℕ) (oldVlog : Log)

/-- The metadata of an output: the level and the age are those of the source. -/
def gcMeta (source : TableMeta) (name : Bytes) (entries : OrdMap Bytes Bytes) : TableMeta :=
  { tableMetaFromSST ⟨name, entries⟩ source.level c.now with createdAt := source.createdAt }

@[simp] theorem gcMeta_filename (source : TableMeta) (name : Bytes) (entries : OrdMap Bytes Bytes) :
    (gcMeta c source name entries).filename = name := rfl

/-- `flushBuilder`. -/
def flushBuilder (source : TableMeta) (s : Rebuild) : Except GcError Rebuild :=
  if s.builder.isEmpty then .ok s
  else match c.flush s.flushed.length with
    | none => .error .flush
    | some name => .ok { s with
        builder := OrdMap.empty
        builderBytes := 0
        flushed := s.flushed ++ [⟨gcMeta c source name s.builder, s.builder⟩] }

/-- The callback of `table.Scan`. -/
def rebuildEntry (source : TableMeta) (s : Rebuild) (e : Bytes × Bytes) : Except GcError Rebuild :=
  if e.1 ∈ s.seen then .ok s
  else
    let seen := e.1 :: s.seen
    match resolveStoredValue oldVlog e.2 with
    | .error err => .error (.resolve err)
    | .ok none => .ok { s with seen := seen }
    | .ok (some value) =>
      match storeValueForLSM s.log valueThreshold e.1 value (c.append s.seen.length).1
          (c.append s.seen.length).2 with
      | (.error err, _) => .error (.store err)
      | (.ok rewritten, log) =>
        let s' : Rebuild :=
          { seen := seen
            log := log
            builder := s.builder.insert e.1 rewritten
            builderBytes := s.builderBytes + memtableEntrySize e.1 value
            flushed := s.flushed }
        if s'.builderBytes < memtableMaxBytes then .ok s' else flushBuilder c source s'

/-- One table: scan it into a fresh builder and flush what is left. -/
def rebuildTable (s : Rebuild) (source : TableMeta × Table) : Except GcError Rebuild :=
  (source.2.entries.entries.foldlM
    (rebuildEntry c valueThreshold memtableMaxBytes oldVlog source.1)
    { s with builder := OrdMap.empty, builderBytes := 0 }).bind (flushBuilder c source.1)

/-- `rebuildLiveState`: the new log and the output tables. -/
def rebuildLiveState (levels : List LevelState) (newVlog : Log) : Except GcError Rebuild :=
  levels.foldlM
    (fun s l => (l.metas.zip l.tables).foldlM
      (rebuildTable c valueThreshold memtableMaxBytes oldVlog) s)
    ⟨[], newVlog, OrdMap.empty, 0, []⟩

end Model

/-! ## The live entries -/

/-- The keys seen after a list of entries. -/
def seenAfter : List Bytes → List (Bytes × Bytes) → List Bytes
  | seen, [] => seen
  | seen, e :: es => if e.1 ∈ seen then seenAfter seen es else seenAfter (e.1 :: seen) es

/-- The keys and values of the entries that are the first of their key and resolve to a value. -/
def liveOf (log : Log) : List Bytes → List (Bytes × Bytes) → List (Bytes × Bytes)
  | _, [] => []
  | seen, e :: es =>
    if e.1 ∈ seen then liveOf log seen es
    else match resolveStoredValue log e.2 with
      | .ok (some value) => (e.1, value) :: liveOf log (e.1 :: seen) es
      | _ => liveOf log (e.1 :: seen) es

theorem liveOf_append (log : Log) (seen : List Bytes) (as bs : List (Bytes × Bytes)) :
    liveOf log seen (as ++ bs) = liveOf log seen as ++ liveOf log (seenAfter seen as) bs := by
  induction as generalizing seen with
  | nil => rfl
  | cons a as ih =>
    rw [List.cons_append, liveOf, liveOf, seenAfter]
    split_ifs with h
    · exact ih seen
    -- a key is seen whatever its entry resolves to, so that no older entry of it counts
    · cases resolveStoredValue log a.2 with
      | error e => exact ih _
      | ok r =>
        cases r with
        | none => exact ih _
        | some value =>
          dsimp only
          rw [ih, List.cons_append]

/-- A key is live if its first entry resolves to a value. -/
theorem mem_liveOf {log : Log} {seen : List Bytes} {es : List (Bytes × Bytes)} {k v : Bytes} :
    (k, v) ∈ liveOf log seen es ↔ k ∉ seen ∧ ∃ stored, getList k es = some stored ∧
      resolveStoredValue log stored = .ok (some v) := by
  induction es generalizing seen with
  | nil => simp [liveOf, getList]
  | cons e es ih =>
    -- the entries after the first of its key are never live
    have hlater : (k, v) ∈ liveOf log (e.1 :: seen) es ↔ k ≠ e.1 ∧ k ∉ seen ∧
        ∃ stored, getList k es = some stored ∧ resolveStoredValue log stored = .ok (some v) := by
      rw [ih, List.mem_cons, not_or, and_assoc]
    unfold liveOf getList
    by_cases hk : e.1 = k
    · subst hk
      rw [if_pos rfl]
      split_ifs with hseen
      · rw [ih]
        simp [hseen]
      · cases hr : resolveStoredValue log e.2 with
        | error err => simp [hlater, hr]
        | ok r =>
          cases r with
          | none => simp [hlater, hr]
          | some value =>
            simp only [List.mem_cons, hlater, Prod.mk.injEq, true_and, ne_eq, not_true_eq_false,
              false_and, or_false, hseen, not_false_eq_true, Option.some.injEq, exists_eq_left', hr,
              Except.ok.injEq]
            exact eq_comm
    · have hk' : k ≠ e.1 := Ne.symm hk
      rw [if_neg hk]
      split_ifs with hseen
      · exact ih
      · cases resolveStoredValue log e.2 with
        | error err => simp [hlater, hk']
        | ok r =>
          cases r with
          | none => simp [hlater, hk']
          | some value => simp [hlater, hk']

theorem liveOf_keys_nodup (log : Log) (seen : List Bytes) (es : List (Bytes × Bytes)) :
    ((liveOf log seen es).map Prod.fst).Nodup := by
  induction es generalizing seen with
  | nil => exact List.nodup_nil
  | cons e es ih =>
    unfold liveOf
    split_ifs with hseen
    · exact ih seen
    · cases resolveStoredValue log e.2 with
      | error err => exact ih _
      | ok r =>
        cases r with
        | none => exact ih _
        | some value =>
          -- the key was seen with this entry, so none behind it is live
          refine List.nodup_cons.mpr ⟨fun hmem => ?_, ih _⟩
          obtain ⟨⟨k, v⟩, hkv, rfl⟩ := List.mem_map.mp hmem
          exact (mem_liveOf.mp hkv).1 List.mem_cons_self

/-- The live entries of a table stand in the order of the table. -/
theorem liveOf_keys_sublist (log : Log) (seen : List Bytes) (es : List (Bytes × Bytes)) :
    ((liveOf log seen es).map Prod.fst).Sublist (es.map Prod.fst) := by
  induction es generalizing seen with
  | nil => exact List.Sublist.refl _
  | cons e es ih =>
    unfold liveOf
    split_ifs with hseen
    · exact (ih seen).cons _
    · cases resolveStoredValue log e.2 with
      | error err => exact (ih _).cons _
      | ok r =>
        cases r with
        | none => exact (ih _).cons _
        | some value => exact (ih _).cons_cons _

/-! ## Rewriting one table -/

/-- A log whose segments are whole records and that writes at the end of the active one. -/
def Clean (limit : ℕ) (log : Log) : Prop :=
  (∃ as, SegmentsInv limit log.files as) ∧ RunningInv limit log

/-- A live value that the store can carry. -/
def Rewritable (l : Bytes × Bytes) : Prop :=
  l.2 ≠ tombstoneValue ∧ decodeValueRef l.2 = none ∧ LengthsFit l

/-- **Storing a live value again** keeps what the new log holds, and carries the value if the store
can. -/
theorem storeValueForLSM_again {l : Bytes × Bytes} {log log' : Log} {threshold : ℕ} {now : UInt64}
    {fault : Option ℕ} {stored : Bytes}
    (hs : storeValueForLSM log threshold l.1 l.2 now fault = (.ok stored, log')) :
    Extends log log' ∧ log'.closed = log.closed ∧ (Rewritable l → Carries log' l.1 stored l.2 ∧
      ∀ limit, Clean limit log → Clean limit log') := by
  -- as a tombstone, inline, or behind a reference into the new log
  rcases storeValueForLSM_cases hs with ⟨htomb, -, rfl⟩ | ⟨-, -, rfl, rfl⟩ | ⟨-, -, ref, happ, rfl⟩
  · exact ⟨Extends.refl _, rfl, fun hl => absurd htomb hl.1⟩
  · exact ⟨Extends.refl _, rfl, fun hl => ⟨.inline hl.1 hl.2.1, fun _ hc => hc⟩⟩
  · have hext := extends_append log l.1 l.2 now fault
    have hclosed := log.append_closed l.1 l.2 now fault
    rw [happ] at hext hclosed
    refine ⟨hext, hclosed, ?_⟩
    rintro ⟨ht, -, hfit⟩
    refine ⟨.logged ht (Log.append_stored happ).1 hfit, ?_⟩
    -- a record is appended whole, so the segments stay those of the records written
    rintro limit ⟨⟨as, hsegs⟩, hrun⟩
    obtain ⟨hsegs', hrun'⟩ := SegmentsInv.append (a := ⟨l.1, l.2, ref⟩) hsegs hrun hfit happ
    exact ⟨⟨_, hsegs'⟩, hrun'⟩

/-- An output entry has the key of a live entry and carries its value if the store can. -/
def Rewritten (log : Log) (o l : Bytes × Bytes) : Prop :=
  o.1 = l.1 ∧ (Rewritable l → Carries log l.1 o.2 l.2)

theorem Rewritten.mono {log log' : Log} {os ls : List (Bytes × Bytes)}
    (h : List.Forall₂ (Rewritten log) os ls) (he : Extends log log') :
    List.Forall₂ (Rewritten log') os ls := h.imp fun _ _ hr => ⟨hr.1, fun hl => (hr.2 hl).mono he⟩

theorem Rewritten.keys_eq {log : Log} {os ls : List (Bytes × Bytes)}
    (h : List.Forall₂ (Rewritten log) os ls) : os.map Prod.fst = ls.map Prod.fst := by
  induction h with
  | nil => rfl
  | cons hr _ ih => rw [List.map_cons, List.map_cons, hr.1, ih]

/-- All entries of a list of outputs. -/
def outputEntries (os : List GcOutput) : List (Bytes × Bytes) :=
  os.flatMap fun o => o.entries.entries

/-- An output that was flushed for `source`, as the run named it. -/
def FlushedFor (c : GcChoices) (source : TableMeta) (o : GcOutput) : Prop :=
  o.entries.entries ≠ [] ∧ ∃ name, o.info = gcMeta c source name o.entries

/-- The outputs have the names the run gave them, in order. -/
def NamedBy (c : GcChoices) (os : List GcOutput) : Prop :=
  ∀ i o, os[i]? = some o → c.flush i = some o.info.filename

/-- What a part of the scan of `source` does: it visits the entries `es`, and the outputs flushed on
the way and the builder that is left hold, in order, what the builder held before and then the
rewritten live entries. -/
structure Scanned (c : GcChoices) (oldVlog : Log) (source : TableMeta) (es : List (Bytes × Bytes))
    (s s' : Rebuild) : Prop where
  seen : s'.seen = seenAfter s.seen es
  log : Extends s.log s'.log
  closed : s'.log.closed = s.log.closed
  clean : (∀ l ∈ liveOf oldVlog s.seen es, Rewritable l) →
    ∀ limit, Clean limit s.log → Clean limit s'.log
  named : NamedBy c s.flushed → NamedBy c s'.flushed
  outputs : ∃ new outs, s'.flushed = s.flushed ++ new ∧ (∀ o ∈ new, FlushedFor c source o) ∧
    outputEntries new ++ s'.builder.entries = s.builder.entries ++ outs ∧
    List.Forall₂ (Rewritten s'.log) outs (liveOf oldVlog s.seen es)

section Run

variable {c : GcChoices} {valueThreshold memtableMaxBytes : ℕ} {oldVlog : Log} {source : TableMeta}

theorem seenAfter_append (seen : List Bytes) (as bs : List (Bytes × Bytes)) :
    seenAfter seen (as ++ bs) = seenAfter (seenAfter seen as) bs := by
  induction as generalizing seen with
  | nil => rfl
  | cons a as ih =>
    rw [List.cons_append, seenAfter, seenAfter]
    split_ifs
    · exact ih seen
    · exact ih _

theorem Scanned.trans {as bs : List (Bytes × Bytes)} {s s₁ s₂ : Rebuild}
    (h : Scanned c oldVlog source as s s₁) (h' : Scanned c oldVlog source bs s₁ s₂) :
    Scanned c oldVlog source (as ++ bs) s s₂ := by
  obtain ⟨new, outs, hflushed, hnew, houts, hall⟩ := h.outputs
  obtain ⟨new', outs', hflushed', hnew', houts', hall'⟩ := h'.outputs
  -- the keys seen at the end of the first scan are those the second starts with
  have hlive : liveOf oldVlog s.seen (as ++ bs) =
      liveOf oldVlog s.seen as ++ liveOf oldVlog s₁.seen bs := by rw [liveOf_append, h.seen]
  refine ⟨?_, h.log.trans h'.log, h'.closed.trans h.closed, fun hl n hc => ?_,
    fun hn => h'.named (h.named hn), new ++ new', outs ++ outs', ?_, fun o ho => ?_, ?_, ?_⟩
  · rw [seenAfter_append, ← h.seen, h'.seen]
  · rw [hlive, List.forall_mem_append] at hl
    exact h'.clean hl.2 n (h.clean hl.1 n hc)
  · rw [hflushed', hflushed, List.append_assoc]
  · rcases List.mem_append.mp ho with ho | ho
    · exact hnew o ho
    · exact hnew' o ho
  -- what was in the builder comes out first
  · calc outputEntries (new ++ new') ++ s₂.builder.entries
        = outputEntries new ++ (outputEntries new' ++ s₂.builder.entries) := by
          simp [outputEntries]
      _ = outputEntries new ++ s₁.builder.entries ++ outs' := by
          rw [houts', List.append_assoc]
      _ = s.builder.entries ++ (outs ++ outs') := by rw [houts, List.append_assoc]
  · rw [hlive]
    exact List.rel_append (Rewritten.mono hall h'.log) hall'

/-- The builder holds keys it held before or keys that were visited. -/
theorem Scanned.builder_keys {es : List (Bytes × Bytes)} {s s' : Rebuild}
    (h : Scanned c oldVlog source es s s') {b : Bytes × Bytes} (hb : b ∈ s'.builder.entries) :
    b ∈ s.builder.entries ∨ ∃ e ∈ es, e.1 = b.1 := by
  obtain ⟨new, outs, -, -, houts, hall⟩ := h.outputs
  have hmem : b ∈ s.builder.entries ++ outs := houts ▸ List.mem_append_right _ hb
  refine (List.mem_append.mp hmem).imp_right fun hin => ?_
  -- an output has the key of a live entry, which has the key of an entry
  have hkey : b.1 ∈ (liveOf oldVlog s.seen es).map Prod.fst :=
    Rewritten.keys_eq hall ▸ List.mem_map_of_mem hin
  exact List.mem_map.mp ((liveOf_keys_sublist oldVlog s.seen es).subset hkey)

/-- `flushBuilder` moves the builder to the outputs. -/
theorem flushBuilder_scanned {s s' : Rebuild} (h : flushBuilder c source s = .ok s') :
    Scanned c oldVlog source [] s s' ∧ s'.builder = OrdMap.empty := by
  unfold flushBuilder at h
  split_ifs at h with hempty
  · obtain rfl := Except.ok.inj h
    have hnil : s.builder.entries = [] := by simpa [OrdMap.isEmpty] using hempty
    exact ⟨⟨rfl, Extends.refl _, rfl, fun _ _ hc => hc, id, [], [], by simp, by simp,
      by simp [outputEntries], .nil⟩, OrdMap.ext hnil⟩
  · cases hname : c.flush s.flushed.length with
    | none => simp [hname] at h
    | some name =>
      simp only [hname] at h
      obtain rfl := Except.ok.inj h
      refine ⟨⟨rfl, Extends.refl _, rfl, fun _ _ hc => hc, fun hnamed i o ho => ?_,
        [⟨gcMeta c source name s.builder, s.builder⟩], [], rfl, fun o ho => ?_,
        by simp [outputEntries, OrdMap.empty], .nil⟩, rfl⟩
      · dsimp only at ho
        rw [List.getElem?_append] at ho
        -- an output is named by the reading of its own position
        split_ifs at ho with hi
        · exact hnamed i o ho
        · obtain ⟨hlt, rfl⟩ := List.getElem?_eq_some_iff.mp ho
          obtain rfl : i = s.flushed.length := by
            simp only [List.length_singleton] at hlt
            omega
          simpa using hname
      · rw [List.mem_singleton.mp ho]
        exact ⟨by simpa [OrdMap.isEmpty] using hempty, name, rfl⟩

/-- One entry that is stored again goes to the end of the builder. -/
theorem scanned_put {s : Rebuild} {e : Bytes × Bytes} {value rewritten : Bytes} {log : Log} {n : ℕ}
    {now : UInt64} {fault : Option ℕ}
    (hseen : e.1 ∉ s.seen) (hr : resolveStoredValue oldVlog e.2 = .ok (some value))
    (hstore : storeValueForLSM s.log valueThreshold e.1 value now fault = (.ok rewritten, log))
    (hbuilder : ∀ b ∈ s.builder.entries, b.1 < e.1) :
    Scanned c oldVlog source [e] s
      ⟨e.1 :: s.seen, log, s.builder.insert e.1 rewritten, n, s.flushed⟩ := by
  -- the entries of a table ascend, so each goes to the end of the builder
  have hinsert : (s.builder.insert e.1 rewritten).entries =
      s.builder.entries ++ [(e.1, rewritten)] := insertList_of_forall_lt hbuilder
  have hlive : liveOf oldVlog s.seen [e] = [(e.1, value)] := by simp [liveOf, hseen, hr]
  obtain ⟨hext, hclosed, hcarries⟩ := storeValueForLSM_again (l := (e.1, value)) hstore
  refine ⟨by simp [seenAfter, hseen], hext, hclosed, fun hl => ?_, id, [], [(e.1, rewritten)],
    by simp, by simp, hinsert, ?_⟩
  · rw [hlive] at hl
    exact (hcarries (hl _ List.mem_cons_self)).2
  · rw [hlive]
    exact .cons ⟨rfl, fun hl => (hcarries hl).1⟩ .nil

/-- **One callback of the scan.** -/
theorem rebuildEntry_scanned {s s' : Rebuild} {e : Bytes × Bytes}
    (h : rebuildEntry c valueThreshold memtableMaxBytes oldVlog source s e = .ok s')
    (hbuilder : ∀ b ∈ s.builder.entries, b.1 < e.1) : Scanned c oldVlog source [e] s s' := by
  unfold rebuildEntry at h
  by_cases hseen : e.1 ∈ s.seen
  · rw [if_pos hseen] at h
    obtain rfl := Except.ok.inj h
    exact ⟨by simp [seenAfter, hseen], Extends.refl _, rfl, fun _ _ hc => hc, id, [], [], by simp,
      by simp, by simp [outputEntries], by simp [liveOf, hseen]⟩
  rw [if_neg hseen] at h
  cases hr : resolveStoredValue oldVlog e.2 with
  | error err => simp [hr] at h
  | ok r =>
    cases r with
    | none =>
      simp only [hr] at h
      obtain rfl := Except.ok.inj h
      exact ⟨by simp [seenAfter, hseen], Extends.refl _, rfl, fun _ _ hc => hc, id, [], [], by simp,
        by simp, by simp [outputEntries], by simp [liveOf, hseen, hr]⟩
    | some value =>
      simp only [hr] at h
      cases hst : storeValueForLSM s.log valueThreshold e.1 value (c.append s.seen.length).1
          (c.append s.seen.length).2 with
      | mk res log =>
        cases res with
        | error err => simp [hst] at h
        | ok rewritten =>
          simp only [hst] at h
          have hput : ∀ n, Scanned c oldVlog source [e] s
              ⟨e.1 :: s.seen, log, s.builder.insert e.1 rewritten, n, s.flushed⟩ :=
            fun n => scanned_put hseen hr hst hbuilder
          split_ifs at h with hroom
          · exact Except.ok.inj h ▸ hput _
          · -- the entry fills the builder, which is flushed
            exact (hput _).trans (flushBuilder_scanned h).1

/-- **Scanning a table** into a builder whose keys lie below those of the table. -/
theorem foldlM_rebuildEntry {es : List (Bytes × Bytes)} {s s' : Rebuild}
    (h : es.foldlM (rebuildEntry c valueThreshold memtableMaxBytes oldVlog source) s = .ok s')
    (hsorted : KeySorted es) (hbuilder : ∀ b ∈ s.builder.entries, ∀ e ∈ es, b.1 < e.1) :
    Scanned c oldVlog source es s s' := by
  induction es generalizing s with
  | nil =>
    obtain rfl := Except.ok.inj h
    exact ⟨rfl, Extends.refl _, rfl, fun _ _ hc => hc, id, [], [], by simp, by simp,
      by simp [outputEntries], .nil⟩
  | cons e es ih =>
    obtain ⟨hlt, hsorted⟩ := List.pairwise_cons.mp hsorted
    rw [List.foldlM_cons] at h
    cases hstep : rebuildEntry c valueThreshold memtableMaxBytes oldVlog source s e with
    | error err => simp [hstep, bind, Except.bind] at h
    | ok s₁ =>
      rw [hstep] at h
      have hone := rebuildEntry_scanned hstep fun b hb => hbuilder b hb e List.mem_cons_self
      refine hone.trans (ih h hsorted fun b hb x hx => ?_)
      -- the builder has keys from before the table, or of entries scanned already
      rcases hone.builder_keys hb with hb | ⟨y, hy, hkey⟩
      · exact hbuilder b hb x (List.mem_cons_of_mem _ hx)
      · rw [← hkey, List.mem_singleton.mp hy]
        exact hlt x hx

/-! ## Rewriting all tables -/

/-- The outputs of one source table: at its level and age, with some of its keys in its order. -/
structure GroupFor (c : GcChoices) (source : TableMeta × Table) (g : List GcOutput) : Prop where
  flushed : ∀ o ∈ g, FlushedFor c source.1 o
  keys : ((outputEntries g).map Prod.fst).Sublist (source.2.entries.entries.map Prod.fst)

/-- The entries of tables in scan order. -/
def scanEntries (sources : List (TableMeta × Table)) : List (Bytes × Bytes) :=
  sources.flatMap fun source => source.2.entries.entries

/-- What the run over a list of source tables does: a group of outputs for every source, and the
entries of all outputs stand in order for the live entries. -/
structure Rebuilt (c : GcChoices) (oldVlog : Log) (sources : List (TableMeta × Table))
    (s s' : Rebuild) : Prop where
  seen : s'.seen = seenAfter s.seen (scanEntries sources)
  log : Extends s.log s'.log
  closed : s'.log.closed = s.log.closed
  clean : (∀ l ∈ liveOf oldVlog s.seen (scanEntries sources), Rewritable l) →
    ∀ limit, Clean limit s.log → Clean limit s'.log
  named : NamedBy c s.flushed → NamedBy c s'.flushed
  outputs : ∃ groups : List (List GcOutput), s'.flushed = s.flushed ++ groups.flatten ∧
    List.Forall₂ (GroupFor c) sources groups ∧
    List.Forall₂ (Rewritten s'.log) (outputEntries groups.flatten)
      (liveOf oldVlog s.seen (scanEntries sources))

theorem Rebuilt.trans {as bs : List (TableMeta × Table)} {s s₁ s₂ : Rebuild}
    (h : Rebuilt c oldVlog as s s₁) (h' : Rebuilt c oldVlog bs s₁ s₂) :
    Rebuilt c oldVlog (as ++ bs) s s₂ := by
  obtain ⟨gs, hflushed, hgroups, hall⟩ := h.outputs
  obtain ⟨gs', hflushed', hgroups', hall'⟩ := h'.outputs
  have hscan : scanEntries (as ++ bs) = scanEntries as ++ scanEntries bs := by simp [scanEntries]
  have hlive : liveOf oldVlog s.seen (scanEntries (as ++ bs)) =
      liveOf oldVlog s.seen (scanEntries as) ++ liveOf oldVlog s₁.seen (scanEntries bs) := by
    rw [hscan, liveOf_append, h.seen]
  refine ⟨?_, h.log.trans h'.log, h'.closed.trans h.closed, fun hl n hc => ?_,
    fun hn => h'.named (h.named hn), gs ++ gs', ?_, List.rel_append hgroups hgroups', ?_⟩
  · rw [hscan, seenAfter_append, ← h.seen, h'.seen]
  · rw [hlive, List.forall_mem_append] at hl
    exact h'.clean hl.2 n (h.clean hl.1 n hc)
  · rw [hflushed', hflushed, List.append_assoc, List.flatten_append]
  · have hout : outputEntries (gs ++ gs').flatten =
        outputEntries gs.flatten ++ outputEntries gs'.flatten := by simp [outputEntries]
    rw [hout, hlive]
    exact List.rel_append (Rewritten.mono hall h'.log) hall'

/-- **One source table.** -/
theorem rebuildTable_rebuilt {source : TableMeta × Table} {s s' : Rebuild}
    (h : rebuildTable c valueThreshold memtableMaxBytes oldVlog s source = .ok s') :
    Rebuilt c oldVlog [source] s s' := by
  unfold rebuildTable at h
  cases hscan : source.2.entries.entries.foldlM
      (rebuildEntry c valueThreshold memtableMaxBytes oldVlog source.1)
      { s with builder := OrdMap.empty, builderBytes := 0 } with
  | error err => simp [hscan, Except.bind] at h
  | ok s₁ =>
    rw [hscan] at h
    obtain ⟨hflush, hempty⟩ : Scanned c oldVlog source.1 [] s₁ s' ∧ s'.builder = OrdMap.empty :=
      flushBuilder_scanned h
    -- the builder is empty before the table and after it, so the outputs are its live entries
    have hdone := (foldlM_rebuildEntry hscan source.2.entries.sorted
      (by simp [OrdMap.empty])).trans hflush
    rw [List.append_nil] at hdone
    obtain ⟨new, outs, hflushed, hnew, houts, hall⟩ := hdone.outputs
    simp only [hempty, OrdMap.empty, List.append_nil, List.nil_append] at houts
    subst houts
    have hsingle : scanEntries [source] = source.2.entries.entries := by simp [scanEntries]
    refine ⟨hsingle ▸ hdone.seen, hdone.log, hdone.closed, hsingle ▸ hdone.clean, hdone.named, [new],
      by simpa using hflushed, .cons ⟨hnew, ?_⟩ .nil, ?_⟩
    · rw [Rewritten.keys_eq hall]
      exact liveOf_keys_sublist _ _ _
    · rw [hsingle]
      simpa using hall

/-- **All source tables**, in scan order. -/
theorem foldlM_rebuildTable {sources : List (TableMeta × Table)} {s s' : Rebuild}
    (h : sources.foldlM (rebuildTable c valueThreshold memtableMaxBytes oldVlog) s = .ok s') :
    Rebuilt c oldVlog sources s s' := by
  induction sources generalizing s with
  | nil =>
    obtain rfl := Except.ok.inj h
    exact ⟨rfl, Extends.refl _, rfl, fun _ _ hc => hc, id, [], by simp, .nil,
      by simp [outputEntries, scanEntries, liveOf]⟩
  | cons source sources ih =>
    rw [List.foldlM_cons] at h
    cases hstep : rebuildTable c valueThreshold memtableMaxBytes oldVlog s source with
    | error err => simp [hstep, bind, Except.bind] at h
    | ok s₁ =>
      rw [hstep] at h
      exact (rebuildTable_rebuilt hstep).trans (ih h)

/-- The nested loops run over one list of tables. -/
theorem rebuildLiveState_eq (levels : List LevelState) (newVlog : Log) :
    rebuildLiveState c valueThreshold memtableMaxBytes oldVlog levels newVlog =
      (levels.flatMap fun l => l.metas.zip l.tables).foldlM
        (rebuildTable c valueThreshold memtableMaxBytes oldVlog)
        ⟨[], newVlog, OrdMap.empty, 0, []⟩ := by
  rw [rebuildLiveState]
  generalize (⟨[], newVlog, OrdMap.empty, 0, []⟩ : Rebuild) = s
  induction levels generalizing s with
  | nil => rfl
  | cons l levels ih =>
    rw [List.foldlM_cons, List.flatMap_cons, List.foldlM_append]
    congr 1
    funext s'
    exact ih s'

end Run

end Seol
