import Seol.Db.Invariant

/-!
# The writer keeps the invariant

Reference: `processWriteBatch` and `rotateMemtable` in `db.go`. Each step of `WriterStep` is answered by
a step of the abstract store with the same event.
-/

namespace Seol

open Common Vlog

/-! ## Frames -/

theorem WalsOK.insert {gets : Prop} {wals : OrdMap Bytes Bytes} (h : WalsOK gets wals)
    {path file : Bytes} {rs : List (Bytes × Bytes)} (hholds : WalHolds file rs)
    (hnamed : ∃ t, NineteenDigits t ∧ path = walID t) (hgood : ∀ r ∈ rs, Good gets r) :
    WalsOK gets (wals.insert path file) := by
  -- the map has the new file in place of an old one of this name, and all the others
  have hmem : ∀ e ∈ (wals.insert path file).entries, e = (path, file) ∨ e ∈ wals.entries :=
    fun e he => mem_insertList he
  refine ⟨fun e he => ?_, fun e he => ?_, fun e he => ?_⟩
  · rcases hmem e he with rfl | he
    · rw [hholds.walRecords_eq]
      exact hholds
    · exact h.holds e he
  · rcases hmem e he with rfl | he
    · exact hnamed
    · exact h.named e he
  · rcases hmem e he with rfl | he
    · rw [hholds.walRecords_eq]
      exact hgood
    · exact h.good e he

theorem WalsOK.erase {gets : Prop} {wals : OrdMap Bytes Bytes} (h : WalsOK gets wals) (path : Bytes) :
    WalsOK gets (wals.erase path) := by
  have hmem : ∀ e ∈ (wals.erase path).entries, e ∈ wals.entries := fun e he => List.mem_of_mem_filter he
  exact ⟨fun e he => h.holds e (hmem e he), fun e he => h.named e (hmem e he),
    fun e he => h.good e (hmem e he)⟩

theorem WalsOK.named_of_get {gets : Prop} {wals : OrdMap Bytes Bytes} (h : WalsOK gets wals)
    {path file : Bytes} (hget : wals.get path = some file) :
    ∃ t, NineteenDigits t ∧ path = walID t :=
  h.named (path, file) (OrdMap.get_eq_some_iff.mp hget)

theorem WalsOK.good_of_mem {gets : Prop} {wals : OrdMap Bytes Bytes} (h : WalsOK gets wals)
    {paths : List Bytes} {r : Bytes × Bytes} (hr : r ∈ recordsOf wals paths) : Good gets r := by
  obtain ⟨e, he, hr⟩ := mem_recordsOf hr
  exact h.good e he r hr

/-- A reading past those of all WAL files gives the greatest name. -/
theorem WalsOK.lt_walID {gets : Prop} {wals : OrdMap Bytes Bytes} (h : WalsOK gets wals) {now : ℕ}
    (hdigits : NineteenDigits now) (hlater : ∀ t, walID t ∈ names wals → t < now) :
    ∀ path ∈ names wals, path < walID now := by
  intro path hp
  obtain ⟨e, he, rfl⟩ := List.mem_map.mp hp
  obtain ⟨t, ht, heq⟩ := h.named e he
  rw [heq] at hp ⊢
  exact walID_lt_walID ht hdigits (hlater t hp)

/-- A memtable with a write is not empty. -/
theorem Holds.ne_nil {log : Log} {m : Memtable} {rs : List (Bytes × Bytes)} (h : Holds log m rs)
    (hne : rs ≠ []) : m ≠ [] := by
  rintro rfl
  exact hne (List.forall₂_nil_left_iff.mp h)

theorem mem_pathsOf {imms : List Immutable} {imm : Immutable} (hi : imm ∈ imms) {path : Bytes}
    (hp : path ∈ imm.walPaths) : path ∈ pathsOf imms := List.mem_flatMap.mpr ⟨imm, hi, hp⟩

/-- The active memtable depends only on its own WAL files. -/
theorem ActiveOK.congr {wals wals' : OrdMap Bytes Bytes} {log : Log} {heap : ℕ → Memtable}
    {cur : List Bytes} {applied : List (Bytes × Bytes)} {logged : List Write} {memtable : Option ℕ}
    {activeWal : Option Bytes} {currentWalPaths : List Bytes}
    (h : ActiveOK wals log heap cur applied logged memtable activeWal currentWalPaths)
    (hsame : ∀ path ∈ cur, wals'.get path = wals.get path) :
    ActiveOK wals' log heap cur applied logged memtable activeWal currentWalPaths := by
  rcases h with ⟨a, wal, hm, hw, hp, hactive⟩ | ⟨hm, hw, hp, happ, hlog, hrec⟩
  · refine Or.inl ⟨a, wal, hm, hw, hp, hactive.cur_last, ?_, hactive.holds, ?_⟩
    -- the active WAL is the last of the current paths
    · obtain ⟨rs, hget, hfit⟩ := hactive.file
      obtain ⟨pre, hcur⟩ := hactive.cur_last
      exact ⟨rs, (hsame wal (by rw [hcur]; simp)).trans hget, hfit⟩
    · rw [recordsOf_congr hsame]
      exact hactive.records
  · exact Or.inr ⟨hm, hw, hp, happ, hlog, by rw [recordsOf_congr hsame]; exact hrec⟩

/-- The generations depend only on the WAL files of memtables that are no longer active. -/
theorem Ghost.generations_congr {g : Ghost} {wals wals' : OrdMap Bytes Bytes} {leftover : List Bytes}
    {pending : List Immutable}
    (h : ∀ path ∈ pathsOf g.stuck ++ (leftover ++ pathsOf pending), wals'.get path = wals.get path) :
    g.generations wals' leftover pending = g.generations wals leftover pending := by
  have hstuck : recordsOf wals' (pathsOf g.stuck) = recordsOf wals (pathsOf g.stuck) :=
    recordsOf_congr fun x hx => h x (List.mem_append_left _ hx)
  have hleft : recordsOf wals' leftover = recordsOf wals leftover :=
    recordsOf_congr fun x hx => h x (List.mem_append_right _ (List.mem_append_left _ hx))
  -- every waiting memtable has its WAL files among the closed paths
  have hwait : (pending.map fun imm => recordsOf wals' imm.walPaths) =
      pending.map fun imm => recordsOf wals imm.walPaths := by
    refine List.map_congr_left fun imm himm => recordsOf_congr fun x hx => h x ?_
    exact List.mem_append_right _ (List.mem_append_right _ (mem_pathsOf himm hx))
  unfold Ghost.generations
  rw [hstuck, hleft, hwait]

theorem TablesOK.mono {gets : Prop} {tables : TableFiles} {manifest : Option (List TableMeta)}
    {log log' : Log} {metas : List TableMeta} {levels : List LevelState} {T : Bytes → Option Bytes}
    (h : TablesOK gets tables manifest log metas levels T) (he : Extends log log') :
    TablesOK gets tables manifest log' metas levels T :=
  { h with reads := h.reads.mono he }

section Active

variable {wals : OrdMap Bytes Bytes} {log log' : Log} {heap : ℕ → Memtable} {cur : List Bytes}
  {applied : List (Bytes × Bytes)} {logged : List Write} {memtable : Option ℕ}
  {activeWal : Option Bytes} {paths : List Bytes}

theorem ActiveOK.mono (h : ActiveOK wals log heap cur applied logged memtable activeWal paths)
    (he : Extends log log') :
    ActiveOK wals log' heap cur applied logged memtable activeWal paths := by
  rcases h with ⟨a, wal, hm, hw, hp, h⟩ | h
  · exact Or.inl ⟨a, wal, hm, hw, hp, { h with holds := h.holds.mono he }⟩
  · exact Or.inr h

theorem ActiveOK.of_memtable (h : ActiveOK wals log heap cur applied logged memtable activeWal paths)
    {a : ℕ} (hm : memtable = some a) :
    ∃ wal, activeWal = some wal ∧ paths = cur ∧
      ActiveAt wals log (heap a) cur applied logged wal := by
  rcases h with ⟨a', wal, hm', hw, hp, h⟩ | ⟨hm', -⟩
  · rw [hm, Option.some.injEq] at hm'
    exact ⟨wal, hw, hp, hm' ▸ h⟩
  · simp [hm] at hm'

theorem ActiveOK.of_activeWal (h : ActiveOK wals log heap cur applied logged memtable activeWal paths)
    {wal : Bytes} (hw : activeWal = some wal) :
    ∃ a, memtable = some a ∧ paths = cur ∧
      ActiveAt wals log (heap a) cur applied logged wal := by
  rcases h with ⟨a, wal', hm, hw', hp, h⟩ | ⟨-, hw', -⟩
  · rw [hw, Option.some.injEq] at hw'
    exact ⟨a, hm, hp, hw' ▸ h⟩
  · simp [hw] at hw'

end Active

namespace Writer

/-- Where the preparing loop goes, it keeps the requests and what is stored for them. -/
theorem stored_eq (maxBytes : ℕ) (done : List (Write × Bytes)) (rest : List Write) (n : ℕ) :
    (Writer.stored maxBytes done rest n).unacked = done.map Prod.fst ++ rest ∧
      (Writer.stored maxBytes done rest n).stores = done ∧
      (Writer.stored maxBytes done rest n).logged = [] ∧
      (Writer.stored maxBytes done rest n).applied = [] ∧
      (Writer.stored maxBytes done rest n).handing = [] ∧
      ∀ last rest', Writer.stored maxBytes done rest n ≠ .rotating last rest' := by
  unfold Writer.stored
  split_ifs <;> simp [unacked, stores, logged, applied, handing]

/-- At the head of the loop nothing is stored or held. -/
theorem next_eq (rest : List Write) : (Writer.next rest).unacked = rest ∧
    (Writer.next rest).stores = [] ∧ (Writer.next rest).logged = [] ∧
    (Writer.next rest).applied = [] ∧ (Writer.next rest).handing = [] ∧
    ∀ last rest', Writer.next rest ≠ .rotating last rest' := by
  unfold Writer.next
  cases rest <;> simp [unacked, stores, logged, applied, handing]

end Writer

namespace Live

variable {gets : Prop} {dir : Dir} {p : Proc} {s : Spec} {g : Ghost}

/-- The WAL files of the active memtable are no other memtable's. -/
theorem notMem_of_cur (h : Live gets dir p s g) {path : Bytes} (hp : path ∈ g.cur) :
    path ∉ pathsOf g.stuck ++ (p.flusher.leftover ++ pathsOf p.pending) := by
  have hn := names_nodup dir.wals
  rw [h.names_eq, ← List.append_assoc p.flusher.leftover, ← List.append_assoc] at hn
  intro hmem
  exact (List.nodup_append.mp hn).2.2 path hmem path hp rfl

theorem closed_mem_names (h : Live gets dir p s g) {path : Bytes}
    (hp : path ∈ pathsOf g.stuck ++ (p.flusher.leftover ++ pathsOf p.pending)) :
    path ∈ names dir.wals := by
  rw [h.names_eq, ← List.append_assoc p.flusher.leftover, ← List.append_assoc]
  exact List.mem_append_left _ hp

theorem cur_mem_names (h : Live gets dir p s g) {path : Bytes} (hp : path ∈ g.cur) :
    path ∈ names dir.wals := by
  rw [h.names_eq, ← List.append_assoc p.flusher.leftover, ← List.append_assoc]
  exact List.mem_append_right _ hp

theorem cur_nodup (h : Live gets dir p s g) : g.cur.Nodup := by
  have hn := names_nodup dir.wals
  rw [h.names_eq, ← List.append_assoc p.flusher.leftover, ← List.append_assoc] at hn
  exact (List.nodup_append.mp hn).2.1

/-- The active WAL is the last file of its memtable, and none of the earlier ones. -/
theorem cur_eq (h : Live gets dir p s g) {wal : Bytes} (hwal : p.db.activeWal = some wal) :
    ∃ pre, g.cur = pre ++ [wal] ∧ wal ∉ pre := by
  obtain ⟨_, -, -, hactive⟩ := h.active.of_activeWal hwal
  obtain ⟨pre, hcur⟩ := hactive.cur_last
  have hn := h.cur_nodup
  rw [hcur] at hn
  exact ⟨pre, hcur, fun hp => (List.nodup_append.mp hn).2.2 wal hp wal (by simp) rfl⟩

/-- The WAL files of an immutable memtable are among those of the generations. -/
theorem mem_paths (h : Live gets dir p s g) {imm : Immutable} (hi : imm ∈ p.db.immutable)
    {path : Bytes} (hp : path ∈ imm.walPaths) :
    path ∈ pathsOf g.stuck ++ (p.flusher.leftover ++ pathsOf p.pending) := by
  rw [h.immutable_eq, List.mem_append] at hi
  rcases hi with hi | hi
  · exact List.mem_append_left _ (mem_pathsOf hi hp)
  · exact List.mem_append_right _ (List.mem_append_right _ (mem_pathsOf hi hp))

/-- The table being installed is that of an immutable memtable. -/
theorem mem_immutable_of_installing (h : Live gets dir p s g) {imm : Immutable} {t : Table}
    (hf : p.flusher = .installing imm t) : imm ∈ p.db.immutable := by
  rw [h.immutable_eq, Proc.pending, hf]
  exact List.mem_append_right _ List.mem_cons_self

/-- An immutable memtable is not the active one. -/
theorem table_ne (h : Live gets dir p s g) {imm : Immutable} (hi : imm ∈ p.db.immutable) {a : ℕ}
    (hm : p.db.memtable = some a) : imm.table ≠ a := by
  have hheap := h.heap
  rw [hm] at hheap
  exact hheap.table_ne hi

theorem table_lt (h : Live gets dir p s g) {imm : Immutable} (hi : imm ∈ p.db.immutable) :
    imm.table < p.db.next := h.heap.table_lt hi

/-- While the writer is busy `Close` has not taken the memtable. -/
theorem attached_of_busy (h : Live gets dir p s g) (hbusy : p.writer ≠ .idle ∨ p.queue ≠ []) :
    p.closing = .no ∨ p.closing = .marked := by
  cases hc : p.closing with
  | no => exact Or.inl rfl
  | marked => exact Or.inr rfl
  | sending imm =>
    obtain ⟨hw, hq⟩ := h.closing.detached (Or.inr ⟨imm, hc⟩)
    exact absurd hbusy (by simp [hw, hq])
  | draining =>
    obtain ⟨hw, hq⟩ := h.closing.detached (Or.inl hc)
    exact absurd hbusy (by simp [hw, hq])

theorem handing_of_busy (h : Live gets dir p s g) (hbusy : p.writer ≠ .idle) :
    p.closing.handing = [] := by
  rcases h.attached_of_busy (Or.inl hbusy) with hc | hc <;> rw [hc] <;> rfl

/-- `Close` has come as far as before while the writer is busy. -/
theorem closing_of_busy (h : Live gets dir p s g) (hbusy : p.writer ≠ .idle ∨ p.queue ≠ [])
    (writer : Writer) (queue : List Write) :
    ClosingOK { p with writer := writer, queue := queue } where
  published := h.closing.published
  closed := h.closing.closed
  attached := h.closing.attached
  detached := by
    intro hc
    rcases h.attached_of_busy hbusy with hno | hmarked
    · simp [hno] at hc
    · simp [hmarked] at hc

/-- A step of the writer that touches neither files nor memtables. -/
theorem setWriter (h : Live gets dir p s g) (writer : Writer) {queue unacked : List Write}
    (hunacked : unacked = writer.unacked ++ queue)
    (hgood : ∀ w ∈ unacked, w.Plain ∧ Good gets w.record)
    (hstores : ∀ e ∈ writer.stores, Carries p.db.valueLog e.1.key e.2 e.1.raw)
    (hlogged : writer.logged = p.writer.logged) (happlied : writer.applied = p.writer.applied)
    (hhanding : writer.handing = p.writer.handing)
    (hrotating : ∀ last rest, writer = .rotating last rest → g.applied ≠ [])
    (hclosing : ClosingOK { p with writer := writer, queue := queue }) :
    Live gets dir { p with writer := writer, queue := queue } ⟨s.history, unacked⟩ g := by
  -- what waits for the flusher depends on the writer only through what it is handing over
  have hpending : Proc.pending { p with writer := writer, queue := queue } = p.pending := by
    simp only [Proc.pending, hhanding]
  exact
    { h with
      unacked_eq := hunacked
      good := by
        intro w hw
        rcases List.mem_append.mp hw with hw | hw
        · exact h.good w (List.mem_append_left _ hw)
        · exact hgood w hw
      stores := hstores
      immutable_eq := by rw [hpending]; exact h.immutable_eq
      names_eq := by rw [hpending]; exact h.names_eq
      active := by rw [hlogged]; exact h.active
      rotating := hrotating
      view_eq := by rw [hpending, happlied]; exact h.view_eq
      safe := by rw [hpending]; exact h.safe
      closing := hclosing }

/-- The value log grows. -/
theorem setLog (h : Live gets dir p s g) {log : Log} (hlog : LogReady log)
    (hext : Extends p.db.valueLog log) :
    Live gets { dir with segments := log.files } { p with db := { p.db with valueLog := log } } s g :=
  { h with
    stores := fun e he => (h.stores e he).mono hext
    memtables := fun imm himm => ⟨(h.memtables imm himm).1, (h.memtables imm himm).2.mono hext⟩
    active := h.active.mono hext
    tables := h.tables.mono hext
    log := hlog
    segments_eq := rfl
    closing := ⟨h.closing.published, h.closing.closed, h.closing.detached, h.closing.attached⟩ }

/-! ## Submitting and preparing -/

theorem submit (h : Live gets dir p s g) {w : Write} (hopen : p.db.readState.closed = false)
    (hw : w.Plain ∧ Good gets w.record) :
    Live gets dir { p with queue := p.queue ++ [w] } ⟨s.history, s.unacked ++ [w]⟩ g := by
  -- `Close` sets the flag before it does anything else, so an open store is not closing
  have hno : p.closing = .no := by
    by_contra hc
    simp [(h.closing.closed hc).2] at hopen
  refine h.setWriter p.writer ?_ ?_ h.stores rfl rfl rfl h.rotating ?_
  · rw [h.unacked_eq, List.append_assoc]
  · intro w' hw'
    rcases List.mem_append.mp hw' with hw' | hw'
    · exact h.good w' (List.mem_append_right _ hw')
    · exact List.mem_singleton.mp hw' ▸ hw
  · exact ⟨h.closing.published, h.closing.closed, by simp [hno], h.closing.attached⟩

theorem good_unacked (h : Live gets dir p s g) : ∀ w ∈ s.unacked, w.Plain ∧ Good gets w.record :=
  fun w hw => h.good w (List.mem_append_right _ hw)

theorem collect (h : Live gets dir p s g) {batch rest : List Write} (hw : p.writer = .idle)
    (hq : p.queue = batch ++ rest) (hne : batch ≠ []) :
    Live gets dir { p with queue := rest, writer := .loop batch } s g := by
  have hun := h.unacked_eq
  rw [hw, hq] at hun
  refine h.setWriter (.loop batch) hun h.good_unacked (by simp [Writer.stores]) ?_ ?_ ?_
    (by simp) (h.closing_of_busy (Or.inr (by simp [hq, hne])) _ _) <;> rw [hw] <;> rfl

theorem prepare (h : Live gets dir p s g) {batch : List Write} (hw : p.writer = .loop batch)
    (projectedBytes : ℕ) :
    Live gets dir { p with writer := .preparing [] batch projectedBytes } s g := by
  have hun := h.unacked_eq
  rw [hw] at hun
  refine h.setWriter (.preparing [] batch projectedBytes) hun h.good_unacked
    (by simp [Writer.stores]) ?_ ?_ ?_ (by simp) (h.closing_of_busy (Or.inl (by simp [hw])) _ _) <;>
    rw [hw] <;> rfl

/-- A batch or what is left of it is answered with an error. -/
theorem failed (h : Live gets dir p s g) (ws : List Write) (hws : p.writer.unacked = ws)
    (hbusy : p.writer ≠ .idle) (hlogged : p.writer.logged = []) (happlied : p.writer.applied = [])
    (hhanding : p.writer.handing = []) :
    ∃ s', SpecStep s (.failed ws) s' ∧ Live gets dir { p with writer := .idle } s' g := by
  have hun := h.unacked_eq
  -- the batch is the front of the unanswered writes, the queue is the rest
  rw [hws] at hun
  refine ⟨⟨s.history, p.queue⟩, ?_, ?_⟩
  · obtain ⟨history, unacked⟩ := s
    obtain rfl : unacked = ws ++ p.queue := hun
    exact .failed ws
  · refine h.setWriter .idle rfl ?_ (by simp [Writer.stores]) ?_ ?_ ?_ (by simp)
      (h.closing_of_busy (Or.inl hbusy) _ _)
    · intro w hw
      exact h.good_unacked w (hun ▸ List.mem_append_right _ hw)
    · exact hlogged.symm
    · exact happlied.symm
    · exact hhanding.symm

/-- **A value is stored.** -/
theorem store (h : Live gets dir p s g) {now : UInt64} {done : List (Write × Bytes)} {w : Write}
    {rest : List Write} {projected : ℕ} (hw : p.writer = .preparing done (w :: rest) projected)
    (hnow : p.db.valueLog.active.id < now) (maxBytes n : ℕ) :
    ∃ stored log, storeValueForLSM p.db.valueLog p.db.valueThreshold w.key w.raw now none =
        (.ok stored, log) ∧
      Live gets { dir with segments := log.files }
        { p with
          db := { p.db with valueLog := log }
          writer := Writer.stored maxBytes (done ++ [(w, stored)]) rest n } s g := by
  have hun := h.unacked_eq
  rw [hw] at hun
  -- the write is not answered yet, so it is one whose lengths fit
  have hmem : w ∈ s.unacked := by rw [hun]; simp [Writer.unacked]
  obtain ⟨stored, log, hstore, hcarries, hready, hext, -⟩ :=
    h.log.store (h.good_unacked w hmem).2.sendable hnow p.db.valueThreshold
  -- the log only grows: what was readable in it stays so
  have h' := h.setLog hready hext
  obtain ⟨hu, hs, hl, ha, hh, hr⟩ := Writer.stored_eq maxBytes (done ++ [(w, stored)]) rest n
  refine ⟨stored, log, hstore, h'.setWriter _ ?_ h'.good_unacked ?_ ?_ ?_ ?_ ?_
    (h'.closing_of_busy (Or.inl (by simp [hw])) _ _)⟩
  · rw [hu, hun]
    simp [Writer.unacked]
  · rw [hs]
    intro e he
    rcases List.mem_append.mp he with he | he
    · exact h'.stores e (by rw [hw]; exact he)
    · exact List.mem_singleton.mp he ▸ hcarries
  · rw [hl, hw]
    rfl
  · rw [ha, hw]
    rfl
  · rw [hh, hw]
    rfl
  · exact fun last rest' heq => absurd heq (hr last rest')

/-! ## The WAL -/

/-- **Another content of the active WAL** changes the records of the active memtable, and touches
nothing else. -/
theorem replace_active (h : Live gets dir p s g) {wal file : Bytes} (hwal : p.db.activeWal = some wal)
    (hfile : dir.wals.get wal = some file) :
    ∃ pre, g.cur = pre ++ [wal] ∧
      ∀ {file' : Bytes} {xs : List (Bytes × Bytes)}, WalHolds file' xs → (∀ x ∈ xs, Good gets x) →
        WalsOK gets (dir.wals.insert wal file') ∧
        names (dir.wals.insert wal file') = names dir.wals ∧
        (∀ path ∈ pathsOf g.stuck ++ (p.flusher.leftover ++ pathsOf p.pending),
          (dir.wals.insert wal file').get path = dir.wals.get path) ∧
        recordsOf (dir.wals.insert wal file') g.cur = recordsOf dir.wals pre ++ xs := by
  -- the paths of the active memtable are distinct, so its earlier files are not touched
  obtain ⟨pre, hcur, hpre⟩ := h.cur_eq hwal
  have hwalcur : wal ∈ g.cur := by rw [hcur]; simp
  refine ⟨pre, hcur, fun {file' xs} hnew hgood => ⟨?_, ?_, ?_, ?_⟩⟩
  · exact h.wals.insert hnew (h.wals.named_of_get hfile) hgood
  · exact names_insert_of_mem (mem_names_iff.mpr ⟨_, hfile⟩) _
  -- no closed memtable uses the active WAL
  · intro path hp
    rw [OrdMap.get_insert, if_neg]
    rintro rfl
    exact h.notMem_of_cur hwalcur hp
  · have hget : (dir.wals.insert wal file').get wal = some file' := by
      rw [OrdMap.get_insert, if_pos rfl]
    rw [hcur, recordsOf_append, recordsOf_insert hpre, recordsOf_singleton hget,
      hnew.walRecords_eq]

/-- The records of the active WAL are those of the active memtable that no older file holds. -/
theorem active_records (h : Live gets dir p s g) {wal : Bytes} (hwal : p.db.activeWal = some wal)
    {rs : List (Bytes × Bytes)} (hfile : dir.wals.get wal = some (encodeRecords rs))
    (hfit : ∀ r ∈ rs, LengthsFit r) {pre : List Bytes} (hcur : g.cur = pre ++ [wal]) :
    recordsOf dir.wals pre ++ rs = g.applied ++ p.writer.logged.map Write.record := by
  obtain ⟨a, -, -, hactive⟩ := h.active.of_activeWal hwal
  have hold : WalHolds (encodeRecords rs) rs := ⟨hfit, [], by simp, rfl⟩
  rw [← hactive.records, hcur, recordsOf_append, recordsOf_singleton hfile, hold.walRecords_eq]

/-- **Bytes written behind the active WAL** add the records they hold to those of the active memtable,
and touch nothing else. -/
theorem write_active (h : Live gets dir p s g) {wal file : Bytes} (hwal : p.db.activeWal = some wal)
    (hfile : dir.wals.get wal = some file) :
    ∃ rs, file = encodeRecords rs ∧ (∀ r ∈ rs, LengthsFit r) ∧
      ∀ {file' : Bytes} {new : List (Bytes × Bytes)}, WalHolds file' (rs ++ new) →
        (∀ r ∈ new, Good gets r) →
        WalsOK gets (dir.wals.insert wal file') ∧
        names (dir.wals.insert wal file') = names dir.wals ∧
        (∀ path ∈ pathsOf g.stuck ++ (p.flusher.leftover ++ pathsOf p.pending),
          (dir.wals.insert wal file').get path = dir.wals.get path) ∧
        recordsOf (dir.wals.insert wal file') g.cur =
          g.applied ++ p.writer.logged.map Write.record ++ new := by
  obtain ⟨a, -, -, hactive⟩ := h.active.of_activeWal hwal
  obtain ⟨rs, hget, hfit⟩ := hactive.file
  obtain rfl : file = encodeRecords rs := by simpa [hfile] using hget
  have hold : WalHolds (encodeRecords rs) rs := ⟨hfit, [], by simp, rfl⟩
  obtain ⟨pre, hcur, hreplace⟩ := h.replace_active hwal hfile
  refine ⟨rs, rfl, hfit, fun {file' new} hnew hgood => ?_⟩
  have hall : ∀ r ∈ rs ++ new, Good gets r := by
    intro r hr
    rcases List.mem_append.mp hr with hr | hr
    · refine h.wals.good _ (OrdMap.get_eq_some_iff.mp hfile) r ?_
      rwa [hold.walRecords_eq]
    · exact hgood r hr
  rw [← h.active_records hwal hfile hfit hcur, List.append_assoc]
  exact hreplace hnew hall

/-- The records of a batch are good. -/
theorem good_prepared (h : Live gets dir p s g) {done : List (Write × Bytes)} {rest : List Write}
    {why : PrepareEnd} (hw : p.writer = .prepared done rest why) :
    ∀ r ∈ done.map fun e => e.1.record, Good gets r := by
  intro r hr
  obtain ⟨e, he, rfl⟩ := List.mem_map.mp hr
  refine (h.good_unacked e.1 ?_).2
  rw [h.unacked_eq, hw]
  exact List.mem_append_left _ (List.mem_append_left _ (List.mem_map_of_mem he))

/-- **The batch is appended to the WAL.** -/
theorem append (h : Live gets dir p s g) {done : List (Write × Bytes)} {rest : List Write}
    {why : PrepareEnd} {wal file : Bytes} (hw : p.writer = .prepared done rest why)
    (hwal : p.db.activeWal = some wal) (hfile : dir.wals.get wal = some file) :
    Live gets
      { dir with wals := dir.wals.insert wal (appendBatch file (done.map fun e => e.1.record)) }
      { p with writer := .applying done rest why } s g := by
  have hun := h.unacked_eq
  rw [hw] at hun
  obtain ⟨a, hmem, hpaths, hactive⟩ := h.active.of_activeWal hwal
  obtain ⟨rs, rfl, hfit, hwrite⟩ := h.write_active hwal hfile
  have hgood := h.good_prepared hw
  -- a whole batch behind whole records leaves a file of whole records
  have hnew : WalHolds (appendBatch (encodeRecords rs) (done.map fun e => e.1.record))
      (rs ++ done.map fun e => e.1.record) := by
    exact walHolds_appendBatch
      (List.forall_mem_append.mpr ⟨hfit, fun r hr => (hgood r hr).sendable.fits⟩)
  obtain ⟨hwals, hnames, hsame, hrecords⟩ := hwrite hnew hgood
  have hpending : Proc.pending { p with writer := .applying done rest why } = p.pending := by
    simp only [Proc.pending, hw]
    rfl
  exact
    { h with
      unacked_eq := hun
      stores := fun e he => h.stores e (by rw [hw]; exact he)
      immutable_eq := by rw [hpending]; exact h.immutable_eq
      names_eq := by rw [hpending, hnames]; exact h.names_eq
      wals := hwals
      -- the memtables that wait have other WAL files
      memtables := by
        intro imm himm
        obtain ⟨hne, hholds⟩ := h.memtables imm himm
        refine ⟨hne, ?_⟩
        rwa [recordsOf_congr fun path hp => hsame path (h.mem_paths himm hp)]
      active := by
        refine Or.inl ⟨a, wal, hmem, hwal, hpaths, hactive.cur_last, ?_, hactive.holds, ?_⟩
        · refine ⟨_, ?_, hnew.fit⟩
          rw [OrdMap.get_insert, if_pos rfl, appendBatch, encodeRecords_append]
        -- the WAL is ahead of the memtable by exactly the batch that is being applied
        · rw [hrecords, hw]
          simp [Writer.logged, Function.comp_def]
      rotating := by simp
      view_eq := by
        rw [hpending, Ghost.generations_congr hsame]
        have hview := h.view_eq
        rw [hw] at hview
        exact hview
      safe := by
        rw [hpending, Ghost.generations_congr hsame]
        exact h.safe
      closing := h.closing_of_busy (Or.inl (by simp [hw])) _ _ }

/-! ## The memtable -/

/-- **A write is put into the memtable**; whether it is answered now or after a rotation shows in
`s'`. -/
theorem put (h : Live gets dir p s g) {w : Write} {stored : Bytes} {todo : List (Write × Bytes)}
    {rest : List Write} {why : PrepareEnd} {a : ℕ}
    (hw : p.writer = .applying ((w, stored) :: todo) rest why) (hmem : p.db.memtable = some a)
    {writer : Writer} {s' : Spec} (hunacked : s'.unacked = writer.unacked ++ p.queue)
    (hall : s'.history ++ s'.unacked = s.history ++ s.unacked)
    (hstores : ∀ e ∈ writer.stores, e ∈ todo) (hlogged : writer.logged = todo.map Prod.fst)
    (hhanding : writer.handing = []) (happlied : s'.history ++ writer.applied = s.history ++ [w]) :
    Live gets dir { p with db := p.db.applyWrite a w stored, writer := writer } s'
      { g with applied := g.applied ++ [w.record] } := by
  obtain ⟨wal, hwal, hpaths, hactive⟩ := h.active.of_memtable hmem
  have hcarries : Carries p.db.valueLog w.key stored w.raw :=
    h.stores (w, stored) (by rw [hw]; exact List.mem_cons_self)
  have hheap : (p.db.applyWrite a w stored).heap a = p.db.heap a ++ [(w.key, stored)] :=
    p.db.putMemtable_heap_self a w.key stored
  -- the write goes to the active memtable, which is none of the immutable ones
  have hother : ∀ imm ∈ p.db.immutable, (p.db.applyWrite a w stored).heap imm.table =
      p.db.heap imm.table := fun imm himm =>
    p.db.putMemtable_heap_of_ne (h.table_ne himm hmem) w.key stored
  have hpending : Proc.pending { p with db := p.db.applyWrite a w stored, writer := writer } =
      p.pending := by
    simp only [Proc.pending, hw, hhanding]
    rfl
  exact
    { h with
      unacked_eq := hunacked
      good := by rw [hall]; exact h.good
      stores := fun e he => h.stores e (by rw [hw]; exact List.mem_cons_of_mem _ (hstores e he))
      immutable_eq := by rw [hpending]; exact h.immutable_eq
      names_eq := by rw [hpending]; exact h.names_eq
      memtables := by
        intro imm himm
        rw [hother imm himm]
        exact h.memtables imm himm
      active := by
        refine Or.inl ⟨a, wal, hmem, hwal, hpaths, hactive.cur_last, hactive.file, ?_, ?_⟩
        · show Holds p.db.valueLog ((p.db.applyWrite a w stored).heap a) _
          rw [hheap]
          exact hactive.holds.append (.cons ⟨rfl, hcarries⟩ .nil)
        -- the write was logged before; it moves from the logged to the applied ones
        · rw [hactive.records, hw, hlogged]
          simp [Writer.logged]
      rotating := fun last rest _ => by simp
      installing := by
        intro imm t hf
        exact (h.installing imm t hf).congr (hother imm (h.mem_immutable_of_installing hf))
      view_eq := by
        have hview := h.view_eq
        rw [hw] at hview
        rw [hpending, happlied, List.map_append, lastOf_append]
        -- on top of all generations the write decides its key, as it does at the end of the history
        refine (Generations.view_write (g := g.generations dir.wals p.flusher.leftover p.pending)
          [w.record]).trans ?_
        rw [hview]
        simp [Writer.applied]
      safe := by
        rw [hpending]
        exact ⟨h.safe.absorbed, h.safe.apart⟩
      closing := ⟨h.closing.published, h.closing.closed,
        (h.closing_of_busy (Or.inl (by simp [hw])) writer p.queue).detached, h.closing.attached⟩ }

/-- What is put before a rotation is all of the WAL files. -/
theorem records_of_nil_logged (h : Live gets dir p s g) {a : ℕ} (hmem : p.db.memtable = some a)
    (hlogged : p.writer.logged = []) :
    p.db.toFlush a = ⟨a, g.cur⟩ ∧ recordsOf dir.wals g.cur = g.applied ∧
      Holds p.db.valueLog (p.db.heap a) g.applied := by
  obtain ⟨wal, -, hpaths, hactive⟩ := h.active.of_memtable hmem
  refine ⟨by rw [DB.toFlush, hpaths], ?_, hactive.holds⟩
  rw [hactive.records, hlogged, List.map_nil, List.append_nil]

/-- **The memtable is rotated.** -/
theorem rotate (h : Live gets dir p s g) {now : ℕ} {last : Write} {rest : List Write} {a : ℕ}
    (hw : p.writer = .rotating last rest) (hmem : p.db.memtable = some a)
    (hdigits : NineteenDigits now) (hlt : ∀ path ∈ names dir.wals, path < walID now) :
    Live gets { dir with wals := dir.wals.insert (walID now) [] }
      { p with
        db := p.db.rotateMemtable a (walID now)
        writer := .sending (p.db.toFlush a) last rest } s
      { g with cur := [walID now], applied := [] } := by
  have hun := h.unacked_eq
  rw [hw] at hun
  -- nothing is logged that is not applied: the WAL files of the memtable hold its records
  obtain ⟨hflush, hrecords, hholds⟩ := h.records_of_nil_logged hmem (by rw [hw]; rfl)
  -- the new WAL has the greatest name, so every other file stays what it was
  have hsame : ∀ path ∈ names dir.wals,
      (dir.wals.insert (walID now) []).get path = dir.wals.get path := by
    intro path hp
    rw [OrdMap.get_insert, if_neg (hlt path hp).ne']
  have hnew : (dir.wals.insert (walID now) []).get (walID now) = some [] := by
    rw [OrdMap.get_insert, if_pos rfl]
  have hcurrecords : recordsOf (dir.wals.insert (walID now) []) g.cur = g.applied := by
    rw [recordsOf_congr fun path hp => hsame path (h.cur_mem_names hp), hrecords]
  have hheap : ∀ b < p.db.next, (p.db.rotateMemtable a (walID now)).heap b = p.db.heap b :=
    fun b hb => p.db.rotateMemtable_heap_of_lt hb a (walID now)
  have ha : a < p.db.next := h.heap.allocated a (by simp [hmem])
  -- the old memtable joins the end of the queue to the flusher, with its WAL files
  have hpending : Proc.pending { p with
      db := p.db.rotateMemtable a (walID now)
      writer := .sending (p.db.toFlush a) last rest } = p.pending ++ [⟨a, g.cur⟩] := by
    simp [Proc.pending, Writer.handing, hw, h.handing_of_busy (by simp [hw]), hflush]
  have himmutable : (p.db.rotateMemtable a (walID now)).immutable = p.db.immutable ++ [⟨a, g.cur⟩] := by
    rw [← hflush]
    rfl
  have hgen := Ghost.generations_congr (g := g) fun path hp => hsame path (h.closed_mem_names hp)
  exact
    { h with
      unacked_eq := hun
      stores := by simp [Writer.stores]
      immutable_eq := by
        rw [hpending, himmutable, h.immutable_eq, List.append_assoc]
      heap := by
        have hheap := h.heap
        rw [hmem] at hheap
        rw [himmutable]
        exact hheap.rotate g.cur
      names_eq := by
        rw [hpending, names_insert_of_lt hlt, h.names_eq]
        simp [pathsOf_append, pathsOf_cons]
      wals := h.wals.insert walHolds_nil ⟨now, hdigits, rfl⟩ (by simp)
      memtables := by
        intro imm himm
        rw [himmutable] at himm
        rcases List.mem_append.mp himm with himm | himm
        · rw [hheap _ (h.table_lt himm), recordsOf_congr fun path hp =>
            hsame path (h.closed_mem_names (h.mem_paths himm hp))]
          exact h.memtables imm himm
        -- the memtable just closed: it is not empty, since a rotation follows a write
        · obtain rfl := List.mem_singleton.mp himm
          rw [hheap _ ha, hcurrecords]
          exact ⟨hholds.ne_nil (h.rotating last rest hw), hholds⟩
      active := by
        refine Or.inl ⟨p.db.next, walID now, rfl, rfl, rfl, ⟨[], rfl⟩, ⟨[], hnew, by simp⟩, ?_, ?_⟩
        · rw [DB.rotateMemtable_heap_next]
          exact .nil
        · rw [recordsOf_singleton hnew, walHolds_nil.walRecords_eq]
          rfl
      rotating := by simp
      installing := by
        intro imm t hf
        exact (h.installing imm t hf).congr
          (hheap _ (h.table_lt (h.mem_immutable_of_installing hf)))
      view_eq := by
        have hview := h.view_eq
        rw [hw, ← hgen, ← Generations.view_rotate] at hview
        rw [hpending]
        -- a rotation moves the records of the active memtable into a generation of their own
        refine Eq.trans (congrArg Generations.view ?_) hview
        simp [Ghost.generations, hcurrecords]
      safe := by
        have hsafe := h.safe
        rw [← hgen] at hsafe
        rw [hpending]
        exact ⟨hsafe.absorbed, hsafe.apart⟩
      closing :=
        { published := fun _ => rfl
          closed := fun hc => ⟨(h.closing.closed hc).1, (h.closing.closed hc).1⟩
          detached := (h.closing_of_busy (Or.inl (by simp [hw])) _ p.queue).detached
          attached := fun _ => by simp [DB.rotateMemtable, DB.publishReadState] } }

/-- **The rotated memtable is handed over** and its last write answered. -/
theorem send (h : Live gets dir p s g) {imm : Immutable} {last : Write} {rest : List Write}
    (hw : p.writer = .sending imm last rest) :
    ∃ s', SpecStep s (.acked last) s' ∧
      Live gets dir { p with flushCh := p.flushCh ++ [imm], writer := Writer.next rest } s' g := by
  obtain ⟨history, unacked⟩ := s
  obtain rfl : unacked = last :: (rest ++ p.queue) := by
    have hun := h.unacked_eq
    rw [hw] at hun
    exact hun
  obtain ⟨hu, hs, hl, ha, hh, hr⟩ := Writer.next_eq rest
  have hpending : Proc.pending { p with flushCh := p.flushCh ++ [imm], writer := Writer.next rest } =
      p.pending := by
    -- the memtable moves from the writer's hand to the end of the channel
    have hsending : p.writer.handing = [imm] := by rw [hw]; rfl
    simp [Proc.pending, hh, hsending]
  refine ⟨_, .acked last, ?_⟩
  exact
    { h with
      unacked_eq := by rw [hu]
      good := by
        intro w hmem
        refine h.good w ?_
        simpa [List.append_assoc] using hmem
      stores := by simp [hs]
      immutable_eq := by rw [hpending]; exact h.immutable_eq
      names_eq := by rw [hpending]; exact h.names_eq
      active := by
        have hactive := h.active
        rw [hw] at hactive
        rw [hl]
        exact hactive
      rotating := fun last' rest' heq => absurd heq (hr last' rest')
      view_eq := by
        have hview := h.view_eq
        rw [hw] at hview
        rw [hpending, ha, List.append_nil]
        exact hview
      safe := by rw [hpending]; exact h.safe
      closing := ⟨h.closing.published, h.closing.closed,
        (h.closing_of_busy (Or.inl (by simp [hw])) _ p.queue).detached, h.closing.attached⟩ }

/-! ## Every step of the writer -/

/-- **Every step of the writer keeps the invariant** and is a step of the abstract store. -/
theorem writerStep (h : Live gets dir p s g) {dir' : Dir} {p' : Proc} {l : Label} {e : Event}
    (hstep : WriterStep (dir, p) l e (dir', p')) (hadm : Admissible gets dir p l) :
    ∃ s' g', SpecStep s e s' ∧ Live gets dir' p' s' g' := by
  cases hstep with
  | submit w hopen herr hroom => exact ⟨_, g, .submitted w, h.submit hopen hadm⟩
  | reject w hrefuse => exact ⟨s, g, .rejected w, h⟩
  | collect batch rest hw hq hne hcap => exact ⟨s, g, .internal, h.collect hw hq hne⟩
  | prepare batch hw herr hwal hmem => exact ⟨s, g, .internal, h.prepare hw _⟩
  | refuseBatch batch hw hrefuse =>
    obtain ⟨s', hs, hl⟩ := h.failed batch (by rw [hw]; rfl) (by simp [hw]) (by rw [hw]; rfl)
      (by rw [hw]; rfl) (by rw [hw]; rfl)
    exact ⟨s', g, hs, hl⟩
  | store now done w rest projected stored log hw hstore =>
    obtain ⟨stored', log', hstore', hl⟩ := h.store hw hadm p.db.memtableMaxBytes
      (projected + memtableEntrySize w.key w.raw)
    rw [hstore] at hstore'
    obtain ⟨rfl, rfl⟩ : stored = stored' ∧ log = log' := by simpa using hstore'
    exact ⟨s, g, .internal, hl⟩
  | storeFailFirst now w rest projected e log hw hstore =>
    -- with an admissible reading of the clock a store does not fail
    obtain ⟨stored', log', hstore', -⟩ := h.store hw hadm 0 0
    simp [hstore] at hstore'
  | storeFail now done w rest projected e log hdone hw hstore =>
    obtain ⟨stored', log', hstore', -⟩ := h.store hw hadm 0 0
    simp [hstore] at hstore'
  | append done rest why wal file hw hwal hfile => exact ⟨s, g, .internal, h.append hw hwal hfile⟩
  | apply w stored todo rest why a hw hmem hack =>
    obtain ⟨history, unacked⟩ := s
    obtain rfl : unacked = w :: (todo.map Prod.fst ++ rest ++ p.queue) := by
      have hun := h.unacked_eq
      rw [hw] at hun
      exact hun
    refine ⟨_, _, .acked w, h.put hw hmem rfl (by simp) (fun e he => he) rfl rfl ?_⟩
    simp [Writer.applied]
  -- the write that fills the memtable is answered only after the rotation
  | applyCrossing w stored rest a hw hmem =>
    have hun := h.unacked_eq
    rw [hw] at hun
    exact ⟨s, _, .internal, h.put hw hmem hun rfl (by simp [Writer.stores]) rfl rfl rfl⟩
  | batchDone rest hw =>
    have hun := h.unacked_eq
    rw [hw] at hun
    obtain ⟨hu, hs, hl, ha, hh, hr⟩ := Writer.next_eq rest
    refine ⟨s, g, .internal, h.setWriter _ (by rw [hu, hun]; rfl) h.good_unacked (by simp [hs]) ?_ ?_
      ?_ (fun last rest' heq => absurd heq (hr last rest'))
      (h.closing_of_busy (Or.inl (by simp [hw])) _ _)⟩
    · rw [hl, hw]
      rfl
    · rw [ha, hw]
      rfl
    · rw [hh, hw]
      rfl
  | batchFail rest e hw =>
    obtain ⟨s', hs, hl⟩ := h.failed rest (by rw [hw]; rfl) (by simp [hw]) (by rw [hw]; rfl)
      (by rw [hw]; rfl) (by rw [hw]; rfl)
    exact ⟨s', g, hs, hl⟩
  | rotate now last rest a hw hmem hcreate =>
    exact ⟨s, _, .internal, h.rotate hw hmem hadm.1 (h.wals.lt_walID hadm.1 hadm.2)⟩
  | send imm last rest hw hroom =>
    obtain ⟨s', hs, hl⟩ := h.send hw
    exact ⟨s', g, hs, hl⟩

end Live

end Seol
