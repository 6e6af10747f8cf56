import Seol.Common.Transition
import Seol.Db.WriterInv

/-!
# The WAL files that a clean `Close` leaves

Reference: `openDB`, `rotateMemtable`, `flushLoop`, `removeWALFiles`, `Close`,
`closeWithoutPendingFlush` and `closeAndRemoveWAL` in `db.go`. A WAL file is removed because its path
is on one of the lists the store keeps: `currentWalPaths`, the list of a memtable on its way to the
flush loop, or, when `Close` finds the memtable empty, the active WAL alone. `Books` keeps only these
lists; every step of the store is one of the few steps of the books.
-/

namespace Seol

open Common Vlog

/-! ## One session -/

/-- A step of a running process: of a client, the writer, the flush loop, `Close` or a reader. -/
inductive LiveStep : Dir × Proc → Event → Dir × Proc → Prop
  | writer {s s' l e} (h : WriterStep s l e s') : LiveStep s e s'
  | flusher {s s' l} (h : FlusherStep s l s') : LiveStep s .internal s'
  | closer {s s'} (h : CloseStep s s') : LiveStep s .internal s'
  | get {dir p} (k : Bytes) (hopen : p.db.readState.closed = false) :
    LiveStep (dir, p) (.got k (p.db.get k)) (dir, p)

theorem LiveStep.step {s s' : Dir × Proc} {e : Event} (h : LiveStep s e s') (opts : Options) :
    ∃ l, Step opts (.up s.1 s.2) l e (.up s'.1 s'.2) := by
  cases h with
  | writer h => exact ⟨_, .writer h⟩
  | flusher h => exact ⟨_, .flusher h⟩
  | closer h => exact ⟨_, .closer h⟩
  | get k hopen => exact ⟨_, .get k hopen⟩

/-- `Close` has reached `closeStorageLocked`; it returns `flushErr`. -/
structure Proc.Drained (p : Proc) : Prop where
  closing_eq : p.closing = .draining
  flusher_eq : p.flusher = .waiting
  flushCh_eq : p.flushCh = []

/-! ## The books -/

/-- What decides about WAL files: those in the directory, `currentWalPaths`, the active WAL, whether
there is a memtable and whether it is empty, the paths the flush loop will remove, and whether the
writer is rotating. -/
structure Books where
  files : Set Bytes
  current : List Bytes
  active : Option Bytes
  fill : Option Bool
  pending : Set Bytes
  crossing : Prop

/-- The memtable: none, empty or not. -/
def DB.fill (db : DB) : Option Bool := db.memtable.map fun a => (db.heap a).isEmpty

/-- The books of a directory and a process. -/
def books (s : Dir × Proc) : Books where
  files := { n | (s.1.wals.get n).isSome }
  current := s.2.db.currentWalPaths
  active := s.2.db.activeWal
  fill := s.2.db.fill
  pending := { n | n ∈ s.2.flusher.leftover ++ pathsOf s.2.pending }
  crossing := s.2.writer.applied ≠ []

/-- An acknowledgement. -/
def Event.Acks (e : Event) : Prop := ∃ w, e = .acked w

/-- The steps of the books while no error is kept. An acknowledgement comes with a put, or ends a
rotation. -/
inductive BookStep : Books → Event → Books → Prop
  | quiet {b b' e} (hfiles : b'.files = b.files) (hcurrent : b'.current = b.current)
      (hactive : b'.active = b.active) (hfill : b'.fill = b.fill) (hpending : b'.pending = b.pending)
      (hcross : b'.crossing → b.crossing) (hacks : e.Acks → b.crossing)
      (hkeep : b.crossing → ¬e.Acks → b'.crossing) : BookStep b e b'
  | put {b b' e} (hfiles : b'.files = b.files) (hcurrent : b'.current = b.current)
      (hmem : b.fill ≠ none) (hfill : b'.fill = some false) (hpending : b'.pending = b.pending)
      (hcross : ¬b.crossing) (hevent : e.Acks ∨ b'.crossing) : BookStep b e b'
  | rotate {b b' e} (wal : Bytes) (hfiles : b'.files = insert wal b.files)
      (hcurrent : b'.current = [wal]) (hactive : b'.active = some wal) (hmem : b.fill ≠ none)
      (hfill : b'.fill = some true) (hpending : b'.pending = { n | n ∈ b.current } ∪ b.pending)
      (hcross : b.crossing) (hcross' : b'.crossing) (hevent : ¬e.Acks) : BookStep b e b'
  | remove {b b' e} (path : Bytes) (hfiles : b'.files = b.files \ {path})
      (hcurrent : b'.current = b.current) (hactive : b'.active = b.active) (hfill : b'.fill = b.fill)
      (hpending : insert path b'.pending = b.pending) (hcross : b'.crossing ↔ b.crossing)
      (hevent : ¬e.Acks) : BookStep b e b'
  | detach {b b' e} (hfiles : b'.files = b.files) (hcurrent : b'.current = [])
      (hmem : b.fill = some false) (hfill : b'.fill = none)
      (hpending : b'.pending = { n | n ∈ b.current } ∪ b.pending) (hcross : ¬b.crossing)
      (hcross' : ¬b'.crossing) (hevent : ¬e.Acks) : BookStep b e b'
  | detachEmpty {b b' e} (wal : Bytes) (hactive : b.active = some wal)
      (hfiles : b'.files = b.files \ {wal}) (hcurrent : b'.current = []) (hmem : b.fill = some true)
      (hfill : b'.fill = none) (hpending : b'.pending = b.pending) (hcross : ¬b.crossing)
      (hcross' : ¬b'.crossing) (hevent : ¬e.Acks) : BookStep b e b'

/-- What decides about WAL files in the store itself. -/
def DB.walBooks (db : DB) : List Bytes × Option Bytes × Option Bool × Option FlushError :=
  (db.currentWalPaths, db.activeWal, db.fill, db.flushErr)

/-- Installing a table touches none of it. -/
theorem DB.walBooks_installFlushedTable (db : DB) (imm : Immutable) (t : Table) (now : ℤ) :
    (db.installFlushedTable imm t now).1.walBooks = db.walBooks := by
  unfold DB.installFlushedTable
  cases buildLevelState (db.updatedMeta t now) (t :: db.sstables) <;> rfl

/-- A kept error is never forgotten, so a `Close` that returns nil has met none. -/
theorem LiveStep.flushErr_eq_none {s s' : Dir × Proc} {e : Event} (h : LiveStep s e s')
    (hnil : s'.2.db.flushErr = none) : s.2.db.flushErr = none := by
  cases h with
  | writer h => cases h <;> first | exact hnil | simp [DB.setFlushErrIfNil] at hnil
  | flusher h =>
    -- an install changes the levels only; every other step keeps the error or sets one
    cases h with
    | @install dir p imm t now db hf hi =>
      have hbooks := p.db.walBooks_installFlushedTable imm t now
      rw [hi] at hbooks
      simp only [DB.walBooks, Prod.mk.injEq] at hbooks
      exact hbooks.2.2.2.symm.trans hnil
    | _ => first | exact hnil | simp [DB.setFlushErrIfNil] at hnil
  | closer h => cases h <;> exact hnil
  | get k hopen => exact hnil

theorem not_acks_internal : ¬Event.Acks .internal := by
  rintro ⟨w, h⟩
  cases h

/-- A step that touches neither WAL files nor the lists. -/
theorem BookStep.still {s s' : Dir × Proc} {e : Event} (hfiles : s'.1.wals = s.1.wals)
    (hdb : s'.2.db.walBooks = s.2.db.walBooks)
    (hpaths : s'.2.flusher.leftover ++ pathsOf s'.2.pending =
      s.2.flusher.leftover ++ pathsOf s.2.pending)
    (happlied : s'.2.writer.applied = s.2.writer.applied) (hacks : ¬e.Acks) :
    BookStep (books s) e (books s') := by
  simp only [DB.walBooks, Prod.mk.injEq] at hdb
  obtain ⟨hcurrent, hactive, hfill, -⟩ := hdb
  refine .quiet ?_ hcurrent hactive hfill ?_ ?_ (fun h => absurd h hacks) ?_
  · simp [books, hfiles]
  · simp [books, hpaths]
  · simp [books, happlied]
  · simp only [books, happlied]
    exact fun h _ => h

/-- A step of the writer alone that neither hands a memtable on nor puts a write. -/
theorem BookStep.stillWriter {dir dir' : Dir} {p : Proc} {db : DB} {queue : List Write}
    {writer : Writer} {e : Event} (hfiles : dir'.wals = dir.wals)
    (hdb : db.walBooks = p.db.walBooks) (hhanding : writer.handing = p.writer.handing)
    (happlied : writer.applied = p.writer.applied) (hacks : ¬e.Acks) :
    BookStep (books (dir, p)) e (books (dir', { p with db := db, queue := queue, writer := writer }))
    := by
  refine .still hfiles hdb ?_ happlied hacks
  simp only [Proc.pending, hhanding]

theorem WriterStep.bookStep {s s' : Dir × Proc} {l : Label} {e : Event} (h : WriterStep s l e s')
    (hnil : s'.2.db.flushErr = none) : BookStep (books s) e (books s') := by
  cases h with
  | submit w hopen herr hroom => exact .stillWriter rfl rfl rfl rfl (by rintro ⟨w', h⟩; cases h)
  | reject w hrefuse => exact .still rfl rfl rfl rfl (by rintro ⟨w', h⟩; cases h)
  | collect batch rest hw hq hne hcap =>
    exact .stillWriter rfl rfl (by rw [hw]; rfl) (by rw [hw]; rfl) not_acks_internal
  | prepare batch hw herr hwal hmem =>
    exact .stillWriter rfl rfl (by rw [hw]; rfl) (by rw [hw]; rfl) not_acks_internal
  | refuseBatch batch hw hrefuse =>
    exact .stillWriter rfl rfl (by rw [hw]; rfl) (by rw [hw]; rfl) (by rintro ⟨w', h⟩; cases h)
  | store now done w rest projected stored log hw hstore =>
    obtain ⟨-, -, -, happlied, hhanding, -⟩ := Writer.stored_eq (_ : ℕ) (done ++ [(w, stored)]) rest
      (projected + memtableEntrySize w.key w.raw)
    refine .stillWriter rfl rfl ?_ ?_ not_acks_internal
    · rw [hw, hhanding]
      rfl
    · rw [hw, happlied]
      rfl
  -- a kept error is excluded by `hnil`
  | storeFailFirst => simp [DB.setFlushErrIfNil] at hnil
  | storeFail => simp [DB.setFlushErrIfNil] at hnil
  | @append dir p done rest why wal file hw hwal hfile =>
    have hfiles : { n | ((dir.wals.insert wal (appendBatch file (done.map fun e => e.1.record))).get
        n).isSome } = { n | (dir.wals.get n).isSome } := by
      ext n
      simp only [Set.mem_ofPred_eq, OrdMap.get_insert]
      split_ifs with hn
      · simp [← hn, hfile]
      · rfl
    -- the active WAL was there before the append, so no file appears
    refine .quiet hfiles rfl rfl rfl ?_ (fun h => (h rfl).elim)
      (fun h => (not_acks_internal h).elim) ?_
    · simp [books, Proc.pending, hw, Writer.handing]
    · simp [books, hw, Writer.applied]
  | @apply dir p w stored todo rest why a hw hmem hack =>
    refine .put rfl rfl ?_ ?_ ?_ ?_ (Or.inl ⟨w, rfl⟩)
    · simp [books, DB.fill, hmem]
    · simp [books, DB.fill, DB.applyWrite, DB.putMemtable, hmem]
    · simp [books, Proc.pending, hw, Writer.handing]
    · simp [books, hw, Writer.applied]
  | @applyCrossing dir p w stored rest a hw hmem =>
    refine .put rfl rfl ?_ ?_ ?_ ?_ (Or.inr ?_)
    · simp [books, DB.fill, hmem]
    · simp [books, DB.fill, DB.applyWrite, DB.putMemtable, hmem]
    · simp [books, Proc.pending, hw, Writer.handing]
    · simp [books, hw, Writer.applied]
    · simp [books, Writer.applied]
  | batchDone rest hw =>
    obtain ⟨-, -, -, happlied, hhanding, -⟩ := Writer.next_eq rest
    refine .stillWriter rfl rfl ?_ ?_ not_acks_internal
    · rw [hw, hhanding]
      rfl
    · rw [hw, happlied]
      rfl
  | batchFail rest e hw =>
    exact .stillWriter rfl rfl (by rw [hw]; rfl) (by rw [hw]; rfl) (by rintro ⟨w', h⟩; cases h)
  -- a file appears, and the paths of the full memtable move from the list to the queue
  | @rotate dir p now last rest a hw hmem hcreate =>
    refine .rotate (walID now) ?_ rfl rfl ?_ ?_ ?_ ?_ ?_ not_acks_internal
    · ext n
      simp only [books, Set.mem_ofPred_eq, Set.mem_insert_iff, OrdMap.get_insert]
      split_ifs with hn
      · simp [hn]
      · simp [Ne.symm hn]
    · simp [books, DB.fill, hmem]
    · simp [books, DB.fill, DB.rotateMemtable, DB.publishReadState]
    · ext n
      simp only [books, Proc.pending, hw, Writer.handing, pathsOf_append, pathsOf_cons, pathsOf_nil,
        DB.toFlush, Set.mem_union, Set.mem_ofPred_eq, List.mem_append, List.not_mem_nil]
      tauto
    · simp [books, hw, Writer.applied]
    · simp [books, Writer.applied]
  | @send dir p imm last rest hw hroom =>
    obtain ⟨-, -, -, happlied, hhanding, -⟩ := Writer.next_eq rest
    -- the writer's hand is empty again, the channel has the memtable with the same paths
    refine .quiet rfl rfl rfl rfl ?_ ?_ ?_ fun _ h => absurd ⟨last, rfl⟩ h
    · have hpending : ∀ ch : List Immutable, ch ++ [imm] ++ ((Writer.next rest).handing ++
          p.closing.handing) = ch ++ (p.writer.handing ++ p.closing.handing) := by
        intro ch
        rw [hhanding, hw]
        simp [Writer.handing]
      simp only [books, Proc.pending, hpending]
    · exact fun h => absurd happlied h
    · simp [books, hw, Writer.applied]

theorem FlusherStep.bookStep {s s' : Dir × Proc} {l : Label} (h : FlusherStep s l s')
    (hnil : s'.2.db.flushErr = none) : BookStep (books s) .internal (books s') := by
  cases h with
  | @receive dir p imm ch hf hch =>
    refine .still rfl rfl ?_ rfl not_acks_internal
    simp [Proc.pending, hf, hch, Flusher.current, Flusher.leftover, pathsOf]
  | @syncValueLog dir p imm hf =>
    refine .still rfl rfl ?_ rfl not_acks_internal
    simp [Proc.pending, hf, Flusher.current, Flusher.leftover]
  | @flush dir p now imm hf =>
    refine .still rfl rfl ?_ rfl not_acks_internal
    simp [Proc.pending, hf, Flusher.current, Flusher.leftover]
  | failFlush => simp [DB.setFlushErrIfNil] at hnil
  | @install dir p imm t now db hf hi =>
    refine .still rfl ?_ ?_ rfl not_acks_internal
    · rw [← p.db.walBooks_installFlushedTable imm t now, hi]
    · simp [Proc.pending, hf, Flusher.current, Flusher.leftover, pathsOf]
  | failInstall => simp [DB.setFlushErrIfNil] at hnil
  -- the path leaves the queue together with its file
  | @removeWAL dir p path paths hf =>
    refine .remove path ?_ rfl rfl rfl ?_ Iff.rfl not_acks_internal
    · ext n
      simp only [books, Set.mem_ofPred_eq, Set.mem_sdiff, Set.mem_singleton_iff, OrdMap.get_erase]
      split_ifs with hn
      · simp [hn]
      · simp [Ne.symm hn]
    · ext n
      simp [books, Proc.pending, hf, Flusher.current, Flusher.leftover]
  | @removed dir p hf =>
    refine .still rfl rfl ?_ rfl not_acks_internal
    simp [Proc.pending, hf, Flusher.current, Flusher.leftover]

theorem CloseStep.bookStep {s s' : Dir × Proc} (h : CloseStep s s') :
    BookStep (books s) .internal (books s') := by
  cases h with
  | @markClosed dir p hc =>
    refine .still rfl rfl ?_ rfl not_acks_internal
    simp [Proc.pending, hc, Closing.handing]
  | @detach dir p a hc hq hw hmem hne =>
    refine .detach rfl rfl ?_ rfl ?_ ?_ ?_ not_acks_internal
    · simp [books, DB.fill, hmem, hne]
    · ext n
      simp only [books, Proc.pending, hc, Closing.handing, pathsOf_append, pathsOf_cons, pathsOf_nil,
        DB.toFlush, Set.mem_union, Set.mem_ofPred_eq, List.mem_append, List.not_mem_nil]
      tauto
    · simp [books, hw, Writer.applied]
    · simp [books, hw, Writer.applied]
  -- the empty memtable has only the active WAL removed, the rest of its list stays on disk
  | @detachEmpty dir p a wal hc hq hw hmem hempty hwal =>
    refine .detachEmpty wal hwal ?_ rfl ?_ rfl ?_ ?_ ?_ not_acks_internal
    · ext n
      simp only [books, Set.mem_ofPred_eq, Set.mem_sdiff, Set.mem_singleton_iff, OrdMap.get_erase]
      split_ifs with hn
      · simp [hn]
      · simp [Ne.symm hn]
    · simp [books, DB.fill, hmem, hempty]
    · simp [books, Proc.pending, hc, Closing.handing]
    · simp [books, hw, Writer.applied]
    · simp [books, hw, Writer.applied]
  | @sendLast dir p imm hc hroom =>
    refine .quiet rfl rfl rfl rfl ?_ id (fun h => (not_acks_internal h).elim) fun h _ => h
    ext n
    simp only [books, Proc.pending, hc, Closing.handing, pathsOf_append, pathsOf_nil,
      Set.mem_ofPred_eq, List.mem_append, List.not_mem_nil]
    tauto

theorem LiveStep.bookStep {s s' : Dir × Proc} {e : Event} (h : LiveStep s e s')
    (hnil : s'.2.db.flushErr = none) : BookStep (books s) e (books s') := by
  cases h with
  | writer h => exact h.bookStep hnil
  | flusher h => exact h.bookStep hnil
  | closer h => exact h.bookStep
  | get k hopen => exact .still rfl rfl rfl rfl (by rintro ⟨w, h⟩; cases h)

/-! ## Every file is on a list -/

/-- Every WAL file is on a list while there is a memtable, and `base` says that it stays so: an empty
memtable then has no WAL but the active one. -/
structure Books.Sound (base : Prop) (b : Books) : Prop where
  covered : base ∨ b.fill ≠ none → ∀ n ∈ b.files, n ∈ b.current ∨ n ∈ b.pending
  clean : base ∨ b.crossing → b.fill = some true → ∀ n ∈ b.current, b.active = some n
  crossing : b.crossing → b.fill ≠ none
  detached : b.fill = none → b.current = []

/-- An acknowledged write makes it stay so. -/
theorem Books.Sound.step {base : Prop} {b b' : Books} {e : Event} (h : b.Sound base)
    (hstep : BookStep b e b') : b'.Sound (base ∨ e.Acks) := by
  cases hstep with
  | quiet hfiles hcurrent hactive hfill hpending hcross hacks hkeep =>
    refine ⟨?_, ?_, fun hc => hfill ▸ h.crossing (hcross hc), fun hf => ?_⟩
    · rw [hfiles, hcurrent, hfill, hpending]
      rintro ((hbase | hack) | hmem)
      · exact h.covered (Or.inl hbase)
      · exact h.covered (Or.inr (h.crossing (hacks hack)))
      · exact h.covered (Or.inr hmem)
    · rw [hcurrent, hfill, hactive]
      rintro ((hbase | hack) | hc)
      · exact h.clean (Or.inl hbase)
      · exact h.clean (Or.inr (hacks hack))
      · exact h.clean (Or.inr (hcross hc))
    · rw [hcurrent, h.detached (hfill ▸ hf)]
  | put hfiles hcurrent hmem hfill hpending hcross hevent =>
    refine ⟨fun _ => ?_, fun _ hf => ?_, fun _ hf => ?_, fun hf => ?_⟩
    · rw [hfiles, hcurrent, hpending]
      exact h.covered (Or.inr hmem)
    · rw [hfill] at hf
      cases hf
    · rw [hfill] at hf
      cases hf
    · rw [hfill] at hf
      cases hf
  | rotate wal hfiles hcurrent hactive hmem hfill hpending hcross hcross' hevent =>
    refine ⟨fun _ n hn => ?_, fun _ _ n hn => ?_, fun _ hf => ?_, fun hf => ?_⟩
    · rw [hfiles] at hn
      rw [hcurrent, hpending]
      rcases Set.mem_insert_iff.mp hn with rfl | hn
      · exact Or.inl (List.mem_singleton.mpr rfl)
      · exact Or.inr (h.covered (Or.inr hmem) n hn)
    · rw [hcurrent, List.mem_singleton] at hn
      rw [hn, hactive]
    · rw [hfill] at hf
      cases hf
    · rw [hfill] at hf
      cases hf
  | remove path hfiles hcurrent hactive hfill hpending hcross hevent =>
    refine ⟨fun hb n hn => ?_, fun hb => ?_, fun hc => hfill ▸ h.crossing (hcross.mp hc),
      fun hf => ?_⟩
    · rw [hfiles] at hn
      have hb' : base ∨ b.fill ≠ none := hfill ▸ hb.imp_left fun hb => hb.resolve_right hevent
      rw [hcurrent]
      refine (h.covered hb' n hn.1).imp_right fun hp => ?_
      exact (Set.mem_insert_iff.mp (hpending ▸ hp)).resolve_left hn.2
    · rw [hcurrent, hfill, hactive]
      exact h.clean (hb.imp (fun hb => hb.resolve_right hevent) hcross.mp)
    · rw [hcurrent, h.detached (hfill ▸ hf)]
  | detach hfiles hcurrent hmem hfill hpending hcross hcross' hevent =>
    refine ⟨fun _ n hn => Or.inr ?_, fun _ hf => ?_, fun hc => absurd hc hcross', fun _ => hcurrent⟩
    · rw [hfiles] at hn
      rw [hpending]
      exact h.covered (Or.inr (by simp [hmem])) n hn
    · rw [hfill] at hf
      cases hf
  | detachEmpty wal hactive hfiles hcurrent hmem hfill hpending hcross hcross' hevent =>
    refine ⟨fun hb n hn => Or.inr ?_, fun _ hf => ?_, fun hc => absurd hc hcross', fun _ => hcurrent⟩
    · rw [hfiles] at hn
      have hbase : base := (hb.resolve_right fun hf => hf hfill).resolve_right hevent
      rw [hpending]
      refine (h.covered (Or.inl hbase) n hn.1).resolve_left fun hcur => hn.2 ?_
      -- the list of an empty memtable is the active WAL alone
      have hn' := h.clean (Or.inl hbase) hmem n hcur
      rw [hactive] at hn'
      exact (Option.some.inj hn').symm
    · rw [hfill] at hf
      cases hf

/-- No write was put since the store was opened on an empty memtable: the files `left` from before
are there, and `Close` will not look at them. -/
def Books.Untouched (left : List Bytes) (b : Books) : Prop :=
  b.crossing ∨ (∀ n ∈ left, n ∈ b.files) ∧ b.pending = ∅ ∧
    ((b.fill = some true ∧ ∃ wal, b.active = some wal ∧ wal ∉ left) ∨ b.fill = none)

theorem Books.Untouched.step {left : List Bytes} {b b' : Books} {e : Event} (h : b.Untouched left)
    (hstep : BookStep b e b') (hacks : ¬e.Acks) : b'.Untouched left := by
  cases hstep with
  | quiet hfiles hcurrent hactive hfill hpending hcross _ hkeep =>
    rcases h with hc | h
    · exact Or.inl (hkeep hc hacks)
    · refine Or.inr ?_
      rw [hfiles, hpending, hfill, hactive]
      exact h
  -- without an acknowledgement a put is one that crosses the limit
  | put hfiles hcurrent hmem hfill hpending hcross hevent =>
    exact Or.inl (hevent.resolve_left hacks)
  | rotate wal hfiles hcurrent hactive hmem hfill hpending hcross hcross' hevent =>
    exact Or.inl hcross'
  -- with nothing pending there is no file to remove
  | remove path hfiles hcurrent hactive hfill hpending hcross hevent =>
    rcases h with hc | ⟨-, hempty, -⟩
    · exact Or.inl (hcross.mpr hc)
    · have hmem : path ∈ b.pending := hpending ▸ Set.mem_insert _ _
      rw [hempty] at hmem
      exact hmem.elim
  | detach hfiles hcurrent hmem hfill hpending hcross hcross' hevent =>
    rcases h with hc | ⟨-, -, ⟨hf, -⟩ | hf⟩
    · exact absurd hc hcross
    · rw [hmem] at hf
      cases hf
    · rw [hmem] at hf
      cases hf
  -- the active WAL is none of the files left over, so they survive its removal
  | detachEmpty wal hactive hfiles hcurrent hmem hfill hpending hcross hcross' hevent =>
    rcases h with hc | ⟨hleft, hempty, ⟨-, wal', hactive', hnot⟩ | hf⟩
    · exact absurd hc hcross
    · refine Or.inr ⟨fun n hn => ?_, hpending.trans hempty, Or.inr hfill⟩
      rw [hfiles]
      refine ⟨hleft n hn, ?_⟩
      rintro rfl
      rw [hactive] at hactive'
      exact hnot (Option.some.inj hactive' ▸ hn)
    · rw [hmem] at hf
      cases hf

/-! ## A whole session -/

/-- `Close` has detached the memtable. -/
def Closing.Detached : Closing → Prop
  | .sending _ => True
  | .draining => True
  | _ => False

theorem BookStep.fill_none {b b' : Books} {e : Event} (h : BookStep b e b') (hf : b.fill = none) :
    b'.fill = none := by
  cases h with
  | quiet _ _ _ hfill => rw [hfill, hf]
  | put _ _ hmem => exact absurd hf hmem
  | rotate _ _ _ _ hmem => exact absurd hf hmem
  | remove _ _ _ _ hfill => rw [hfill, hf]
  | detach _ _ _ hfill => exact hfill
  | detachEmpty _ _ _ _ _ hfill => exact hfill

/-- Only `Close` itself detaches the memtable. -/
theorem LiveStep.detached {s s' : Dir × Proc} {e : Event} (h : LiveStep s e s')
    (hd : s'.2.closing.Detached) : s.2.closing.Detached ∨ (books s').fill = none := by
  cases h with
  | writer h => cases h <;> exact Or.inl hd
  | flusher h => cases h <;> exact Or.inl hd
  -- the memtable is given up by the two `detach` steps and by no other
  | closer h =>
    cases h with
    | markClosed hc => exact hd.elim
    | detach a hc hq hw hmem hne => exact Or.inr rfl
    | detachEmpty a wal hc hq hw hmem hempty hwal => exact Or.inr rfl
    | sendLast imm hc hroom =>
      refine Or.inl ?_
      simp only [hc]
      exact trivial
  | get k hopen => exact Or.inl hd

/-- What a session in which no error is kept leads to, by its acknowledgements. -/
theorem session_books {left : List Bytes} {base : Prop} {s s' : Dir × Proc} {es : List Event}
    (hrun : Run LiveStep s es s') (hnil : s'.2.db.flushErr = none)
    (hsound : (books s).Sound base) (huntouched : ¬base → (books s).Untouched left)
    (hopen : ¬s.2.closing.Detached) :
    (books s').Sound (base ∨ ∃ w, Event.acked w ∈ es) ∧
      ((¬(base ∨ ∃ w, Event.acked w ∈ es)) → (books s').Untouched left) ∧
      (s'.2.closing.Detached → (books s').fill = none) := by
  induction hrun with
  | refl =>
    refine ⟨by simpa using hsound, by simpa using huntouched, fun hd => absurd hd hopen⟩
  | @tail t u es e _ hstep ih =>
    obtain ⟨hs, hu, hd⟩ := ih (hstep.flushErr_eq_none hnil)
    have hbook := hstep.bookStep hnil
    have hacks : (base ∨ ∃ w, Event.acked w ∈ es ++ [e]) ↔
        (base ∨ ∃ w, Event.acked w ∈ es) ∨ e.Acks := by
      simp only [List.mem_append, List.mem_singleton, exists_or, or_assoc, Event.Acks, eq_comm]
    refine ⟨?_, fun hnot => ?_, fun hdet => ?_⟩
    · rw [hacks]
      exact hs.step hbook
    · rw [hacks, not_or] at hnot
      exact (hu hnot.1).step hbook hnot.2
    · rcases hstep.detached hdet with hbefore | hfill
      · exact hbook.fill_none (hd hbefore)
      · exact hfill

/-- When `Close` has waited for the flush loop, nothing is pending. -/
theorem Proc.Drained.pending_eq {dir : Dir} {p : Proc} (h : p.Drained)
    (hcross : ¬(books (dir, p)).crossing) : (books (dir, p)).pending = ∅ := by
  have hhanding : p.writer.handing = [] := by
    cases hw : p.writer with
    | sending imm last rest => exact absurd (by simp [books, hw, Writer.applied]) hcross
    | _ => rfl
  simp [books, Proc.pending, h.closing_eq, h.flusher_eq, h.flushCh_eq, hhanding, Flusher.leftover,
    Flusher.current, Closing.handing]

/-- Replaying puts the records of the files into the memtable, in order. -/
theorem replayWALs_keys {valueThreshold : ℕ} {files : List Bytes} {s r : Replay}
    (h : replayWALs valueThreshold files s = .ok r) :
    r.memtable.map Prod.fst = s.memtable.map Prod.fst ++ (files.flatMap walRecords).map Prod.fst := by
  refine replayWALs_induction (P := fun rs t => t.memtable.map Prod.fst =
    s.memtable.map Prod.fst ++ rs.map Prod.fst) ?_ (by simp) h
  intro rs x t t' ht hstep
  unfold replayRecord at hstep
  split at hstep
  · cases hstep
  · cases hstep
    simp [ht]

/-- Whether the WAL files of a directory put anything into the memtable. -/
theorem replayed_nil_iff {valueThreshold : ℕ} {dir : Dir} {log : Log} {clock : List UInt64}
    {r : Replay} (h : replayWALs valueThreshold (dir.wals.entries.map Prod.snd)
      ⟨log, [], 0, clock⟩ = .ok r) :
    r.memtable = [] ↔ ∀ e ∈ dir.wals.entries, walRecords e.2 = [] := by
  have hkeys := replayWALs_keys h
  rw [← List.map_eq_nil_iff (f := Prod.fst), hkeys, List.map_nil, List.nil_append,
    List.map_eq_nil_iff, List.flatMap_eq_nil_iff, List.forall_mem_map]

theorem mem_walNames {dir : Dir} {n : Bytes} : n ∈ dir.walNames ↔ (dir.wals.get n).isSome := by
  rw [Option.isSome_iff_exists, Dir.walNames, List.mem_map]
  constructor
  · rintro ⟨e, he, rfl⟩
    exact ⟨e.2, OrdMap.get_eq_some_iff.mpr he⟩
  · rintro ⟨file, hfile⟩
    exact ⟨(n, file), OrdMap.get_eq_some_iff.mp hfile, rfl⟩

/-- The directory and the process that `openDB` leaves, with its parts named. -/
def openedState (dir : Dir) (opts : Options) (clock : OpenClock) (levels : List LevelState)
    (r : Replay) : Dir × Proc :=
  ({ dir with
      manifest := some (openManifest dir clock.table)
      wals := dir.wals.insert (walID clock.wal) []
      segments := r.log.files },
    Proc.start (openedDB (normalizeOptions opts) dir.walNames (walID clock.wal) levels
      (openManifest dir clock.table) r))

section Opened

variable {dir : Dir} {opts : Options} {clock : OpenClock} {levels : List LevelState} {r : Replay}
  {valueThreshold : ℕ} {log : Log}

theorem openedState_files : (books (openedState dir opts clock levels r)).files =
    insert (walID clock.wal) { n | n ∈ dir.walNames } := by
  ext n
  simp only [books, openedState, OrdMap.get_insert, Set.mem_ofPred_eq, Set.mem_insert_iff,
    mem_walNames]
  split_ifs with hn
  · simp [hn]
  · simp [Ne.symm hn]

theorem openedState_fill :
    (books (openedState dir opts clock levels r)).fill = some r.memtable.isEmpty := by
  simp [books, openedState, Proc.start, DB.fill, openedDB, DB.publishReadState]

theorem openedState_current : (books (openedState dir opts clock levels r)).current =
    dir.walNames ++ [walID clock.wal] := rfl

theorem openedState_active :
    (books (openedState dir opts clock levels r)).active = some (walID clock.wal) := rfl

theorem openedState_crossing : ¬(books (openedState dir opts clock levels r)).crossing :=
  fun h => h rfl

theorem openedState_pending : (books (openedState dir opts clock levels r)).pending = ∅ := by
  simp [books, openedState, Proc.start, Proc.pending, Flusher.leftover, Flusher.current,
    Writer.handing, Closing.handing]

/-- All WAL files are on the list of the memtable. -/
theorem openedState_sound (hreplay : replayWALs valueThreshold (dir.wals.entries.map Prod.snd)
      ⟨log, [], 0, clock.appends⟩ = .ok r) :
    (books (openedState dir opts clock levels r)).Sound
      (dir.walNames = [] ∨ ∃ e ∈ dir.wals.entries, walRecords e.2 ≠ []) := by
  -- the list of the memtable has every file of the directory and the new WAL
  refine ⟨fun _ n hn => Or.inl ?_, fun hbase hempty n hn => ?_,
    fun h => absurd h openedState_crossing, fun hnone => ?_⟩
  · rw [openedState_files] at hn
    rw [openedState_current, List.mem_append, List.mem_singleton]
    exact (Set.mem_insert_iff.mp hn).symm
  -- no replayed entry means no record, and then there was no WAL file at all
  · rw [openedState_fill, Option.some.injEq, List.isEmpty_iff, replayed_nil_iff hreplay] at hempty
    rcases hbase.resolve_right openedState_crossing with hnone | ⟨e, he, hne⟩
    · rw [openedState_current, hnone, List.nil_append, List.mem_singleton] at hn
      rw [openedState_active, hn]
    · exact absurd (hempty e he) hne
  · rw [openedState_fill] at hnone
    cases hnone

/-- Without a record in them the old files stay. -/
theorem openedState_untouched (hreplay : replayWALs valueThreshold (dir.wals.entries.map Prod.snd)
      ⟨log, [], 0, clock.appends⟩ = .ok r) (hfree : dir.wals.get (walID clock.wal) = none)
    (hnot : ∀ e ∈ dir.wals.entries, walRecords e.2 = []) :
    (books (openedState dir opts clock levels r)).Untouched dir.walNames := by
  refine Or.inr ⟨fun n hn => ?_, openedState_pending,
    Or.inl ⟨?_, walID clock.wal, openedState_active, ?_⟩⟩
  · rw [openedState_files]
    exact Set.mem_insert_of_mem _ hn
  · rw [openedState_fill, List.isEmpty_iff.mpr ((replayed_nil_iff hreplay).mpr hnot)]
  · rw [mem_walNames, hfree]
    simp

end Opened

/-- **When a clean `Close` leaves no log behind.** For every directory that opens and every session
that ends in `Close` returning nil: no WAL file remains, and the next open replays nothing, exactly if
there was no WAL file before, or one of them held a whole record, or a write was acknowledged. -/
theorem close_leaves_no_wal_iff (opts : Options) (clock : OpenClock) (dir d d' : Dir) (db : DB)
    (p : Proc) (es : List Event) (hopen : openDB dir opts clock = .ok (db, d))
    (hrun : Run LiveStep (d, Proc.start db) es (d', p)) (hclose : p.Drained)
    (hnil : p.db.flushErr = none) :
    (d'.walNames = [] ∧ ∀ valueThreshold s,
        replayWALs valueThreshold (d'.wals.entries.map Prod.snd) s = .ok s) ↔
      dir.walNames = [] ∨ (∃ e ∈ dir.wals.entries, walRecords e.2 ≠ []) ∨
        ∃ w, Event.acked w ∈ es := by
  obtain ⟨levels, log, r, -, -, hreplay, hfree, rfl, rfl⟩ := openDB_eq_ok.mp hopen
  have hrun : Run LiveStep (openedState dir opts clock levels r) es (d', p) := hrun
  set init : Prop := dir.walNames = [] ∨ ∃ e ∈ dir.wals.entries, walRecords e.2 ≠ [] with hinit
  have huntouched : ¬init → (books (openedState dir opts clock levels r)).Untouched dir.walNames := by
    intro hnot
    simp only [hinit, not_or, not_exists, not_and, not_not] at hnot
    exact openedState_untouched hreplay hfree hnot.2
  obtain ⟨hend, hstale, hdet⟩ :=
    session_books hrun hnil (openedState_sound hreplay) huntouched (fun h => h)
  have hfillEnd : (books (d', p)).fill = none := by
    refine hdet ?_
    simp only [hclose.closing_eq]
    exact trivial
  have hcrossEnd : ¬(books (d', p)).crossing := fun h => hend.crossing h hfillEnd
  have hpendingEnd := hclose.pending_eq hcrossEnd
  rw [← or_assoc, ← hinit]
  constructor
  · rintro ⟨hgone, -⟩
    by_contra hnot
    rcases hstale hnot with hc | ⟨hleft, -, -⟩
    · exact hcrossEnd hc
    · -- the files from before are still there
      refine hnot (Or.inl (Or.inl (List.eq_nil_iff_forall_not_mem.mpr fun n hn => ?_)))
      have hmem : n ∈ d'.walNames := mem_walNames.mpr (hleft n hn)
      rw [hgone] at hmem
      exact absurd hmem List.not_mem_nil
  · intro hbase
    have hgone : d'.walNames = [] := by
      refine List.eq_nil_iff_forall_not_mem.mpr fun n hn => ?_
      rcases hend.covered (Or.inl hbase) n (mem_walNames.mp hn) with hmem | hmem
      · rw [hend.detached hfillEnd] at hmem
        exact absurd hmem List.not_mem_nil
      · rw [hpendingEnd] at hmem
        exact hmem
    refine ⟨hgone, fun valueThreshold s => ?_⟩
    rw [List.map_eq_nil_iff.mp hgone]
    rfl

/-- `Close` right after `openDB` on an empty memtable: the two steps until it waits for nothing. -/
theorem close_at_once (dir : Dir) {db : DB} {a : ℕ} {wal : Bytes} (hmem : db.memtable = some a)
    (hempty : db.heap a = []) (hwal : db.activeWal = some wal) :
    ∃ p, Run LiveStep (dir, Proc.start db) [.internal, .internal]
        ({ dir with wals := dir.wals.erase wal }, p) ∧ p.Drained ∧ p.db.flushErr = db.flushErr :=
  ⟨_, (Run.single (.closer (.markClosed rfl))).tail
    (.closer (.detachEmpty a wal rfl rfl rfl hmem hempty hwal)), ⟨rfl, rfl, rfl⟩, rfl⟩

/-- The clock readings of an `openDB`. -/
def laterClock : OpenClock := ⟨1, [], 2, 0⟩

/-- A directory in which a crash left a WAL file without a record. -/
def crashedDir : Dir := { Dir.empty with wals := OrdMap.empty.insert (walID 1) [] }

/-- It opens on an empty memtable. -/
theorem openDB_crashedDir :
    ∃ db, openDB crashedDir ⟨0, 0, 0⟩ laterClock =
        .ok (db, ⟨OrdMap.empty, crashedDir.wals.insert (walID 2) [], db.valueLog.files, some []⟩) ∧
      db.memtable = some 0 ∧ db.heap 0 = [] ∧ db.activeWal = some (walID 2) ∧
      db.flushErr = none :=
  ⟨_, openDB_eq_ok.mpr ⟨[], Log.openEmpty defaultSegmentMaxBytes 1, _, rfl, rfl, rfl, by decide, rfl,
    rfl⟩, rfl, rfl, rfl, rfl⟩

/-- Opening it and closing it at once leaves the file. -/
theorem close_keeps_emptyWal : ∃ d d' db p es,
    openDB crashedDir ⟨0, 0, 0⟩ laterClock = .ok (db, d) ∧
      Run LiveStep (d, Proc.start db) es (d', p) ∧ p.Drained ∧ p.db.flushErr = none ∧
      d'.walNames = [walID 1] := by
  obtain ⟨db, hopen, hmem, hempty, hwal, hnil⟩ := openDB_crashedDir
  obtain ⟨p, hrun, hclose, herr⟩ := close_at_once
    ⟨OrdMap.empty, crashedDir.wals.insert (walID 2) [], db.valueLog.files, some []⟩ hmem hempty hwal
  refine ⟨_, _, db, p, _, hopen, hrun, hclose, herr.trans hnil, ?_⟩
  show ((crashedDir.wals.insert (walID 2) []).erase (walID 2)).entries.map Prod.fst = [walID 1]
  decide

/-- The flush loop removes the WAL files on its list one by one. -/
theorem removing_run (paths : List Bytes) (dir : Dir) (p : Proc) (hf : p.flusher = .removing paths) :
    ∃ es d', Run LiveStep (dir, p) es (d', { p with flusher := .waiting }) := by
  induction paths generalizing dir p with
  | nil => exact ⟨_, dir, .single (.flusher (.removed hf))⟩
  | cons path paths ih =>
    obtain ⟨es, d', hrun⟩ := ih { dir with wals := dir.wals.erase path }
      { p with flusher := .removing paths } rfl
    exact ⟨_, d', .head (.flusher (.removeWAL path paths hf)) hrun⟩

/-- `Close` right after `openDB` on a memtable with entries: it goes to the flush loop, which writes
and installs its table and removes its WAL files. -/
theorem close_flushing (dir : Dir) (db : DB) {db' : DB} {a : ℕ} (now : ℕ) (installed : ℤ)
    (hmem : db.memtable = some a) (hne : db.heap a ≠ [])
    (hinstall : (db.markClosed.detach (db.immutable ++ [db.toFlush a])).installFlushedTable
      (db.toFlush a) ⟨sstableID now, (db.heap a).entries⟩ installed = (db', true)) :
    ∃ es d' p, Run LiveStep (dir, Proc.start db) es (d', p) ∧ p.Drained ∧ p.db = db' := by
  -- `Close` marks the store, detaches the memtable and hands it over
  have hroom : ([] : List Immutable).length < flushCap := by decide
  have hclose : Run LiveStep (dir, Proc.start db) _ _ :=
    ((Run.single (.closer (.markClosed rfl))).tail (.closer (.detach a rfl rfl rfl hmem hne))).tail
      (.closer (.sendLast _ rfl hroom))
  -- the flush loop takes it up to the list of its WAL files
  have hflush := (((hclose.tail (.flusher (.receive _ [] rfl rfl))).tail
    (.flusher (.syncValueLog _ rfl))).tail (.flusher (.flush now _ rfl))).tail
      (.flusher (.install _ _ installed db' rfl hinstall))
  obtain ⟨es, d', hremoved⟩ := removing_run (db.toFlush a).walPaths
    ⟨dir.tables.insert (sstableID now) (db.heap a).entries, dir.wals, dir.segments, _⟩
    ⟨db', [], .idle, [], .removing _, .draining⟩ rfl
  exact ⟨_, d', _, hflush.trans hremoved, ⟨rfl, rfl, rfl⟩, rfl⟩

/-- A directory in which a crash left a WAL file with the record of a put. -/
def loggedDir : Dir :=
  { Dir.empty with wals := OrdMap.empty.insert (walID 1) (encodeRecords [([107], [1])]) }

/-- What `openDB` makes of it. -/
def replayedDB : DB :=
  openedDB (normalizeOptions ⟨0, 0, 0⟩) [walID 1] (walID laterClock.wal) [] []
    ⟨Log.openEmpty defaultSegmentMaxBytes 1, [([107], [1])], memtableEntrySize [107] [1], []⟩

theorem walHolds_logged : WalHolds (encodeRecords [([107], [1])]) [([107], [1])] :=
  ⟨by simp [LengthsFit], [], (List.append_nil _).symm, rfl⟩

theorem openDB_loggedDir : ∃ d, openDB loggedDir ⟨0, 0, 0⟩ laterClock = .ok (replayedDB, d) := by
  have hreplay : replayWALs (size (normalizeOptions ⟨0, 0, 0⟩).valueThreshold)
      (loggedDir.wals.entries.map Prod.snd) ⟨Log.openEmpty defaultSegmentMaxBytes 1, [], 0, []⟩ =
      .ok ⟨Log.openEmpty defaultSegmentMaxBytes 1, [([107], [1])], memtableEntrySize [107] [1], []⟩ := by
    show [encodeRecords [([107], [1])]].foldlM _ _ = _
    rw [List.foldlM_cons, walHolds_logged.replayWAL]
    rfl
  exact ⟨_, openDB_eq_ok.mpr ⟨[], _, _, rfl, rfl, hreplay, by decide, rfl, rfl⟩⟩

/-- With a record in the file, closing the store at once leaves none. -/
theorem close_leaves_no_wal_replayed : ∃ d d' p es,
    openDB loggedDir ⟨0, 0, 0⟩ laterClock = .ok (replayedDB, d) ∧
      Run LiveStep (d, Proc.start replayedDB) es (d', p) ∧ p.Drained ∧ p.db.flushErr = none ∧
      d'.walNames = [] := by
  obtain ⟨d, hopen⟩ := openDB_loggedDir
  obtain ⟨es, d', p, hrun, hclose, hdb⟩ :=
    close_flushing d replayedDB 3 4 rfl (by decide) rfl
  have hnil : p.db.flushErr = none := by rw [hdb]; rfl
  -- the WAL of the directory has a record, so its memtable is flushed and its files are removed
  have hrecord : walRecords (encodeRecords [([107], [1])]) ≠ [] := by
    obtain ⟨tail, hscan, -⟩ := walHolds_logged.scan
    rw [walRecords, hscan]
    exact List.cons_ne_nil _ _
  exact ⟨d, d', p, es, hopen, hrun, hclose, hnil,
    ((close_leaves_no_wal_iff _ _ _ _ _ _ _ _ hopen hrun hclose hnil).mpr
      (.inr (.inl ⟨_, List.mem_singleton.mpr rfl, hrecord⟩))).1⟩

end Seol
