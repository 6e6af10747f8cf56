import Seol.Db.WriterInv

/-!
# The flush loop and `Close` keep the invariant

Reference: `flushLoop`, `installFlushedTable`, `removeWALFiles`, `Close` and
`flushPendingMemtableAndClose` in `db.go`. No step here shows an event; the generations move down: a
memtable becomes a table, then its WAL files go one by one.
-/

namespace Seol

open Common Vlog

/-! ## Tables -/

/-- The table of a memtable answers like the memtable. -/
theorem find_entries (path : Bytes) (m : Memtable) (k : Bytes) :
    Table.find ⟨path, m.entries⟩ k = lastOf m k := by
  unfold Table.find Memtable.entries
  rw [OrdMap.get_insertAll, OrdMap.get_empty, Option.or_none]

theorem entries_ne_nil {m : Memtable} (h : m ≠ []) : m.entries.entries ≠ [] := by
  obtain ⟨e, m, rfl⟩ := List.exists_cons_of_ne_nil h
  intro hnil
  have hnone : Table.find ⟨[], Memtable.entries (e :: m)⟩ e.1 = none :=
    OrdMap.get_eq_none_iff.mpr (by simp [hnil])
  rw [find_entries, lastOf_eq_none_iff] at hnone
  exact hnone e List.mem_cons_self rfl

/-- An entry of a memtable stands for the last record of its key. -/
theorem Holds.entry_carries {log : Log} {m : Memtable} {rs : List (Bytes × Bytes)}
    (h : Holds log m rs) {e : Bytes × Bytes} (he : e ∈ m.entries.entries) :
    ∃ v, lastOf rs e.1 = some v ∧ Carries log e.1 e.2 v := by
  have hlast : lastOf m e.1 = some e.2 := by
    rw [← find_entries []]
    exact OrdMap.get_eq_some_iff.mpr he
  have hrel := h.reads e.1
  rw [hlast] at hrel
  revert hrel
  cases lastOf rs e.1 with
  | none => intro hrel; cases hrel
  | some v => intro hrel; cases hrel with | some hc => exact ⟨v, rfl, hc⟩

/-- What stands for a good record can be an entry of a table. -/
theorem Carries.entryOK {gets : Prop} {log : Log} {key stored value : Bytes}
    (h : Carries log key stored value) (hgood : Good gets (key, value)) :
    EntryOK gets (key, stored) := by
  refine ⟨⟨hgood.sendable.fits.1, ?_⟩, fun hgets => h.ne_nil (hgood.ne_nil hgets)⟩
  cases h with
  | tombstone => exact hgood.sendable.fits.2
  | inline ht hd => exact hgood.sendable.fits.2
  | logged ht hs hfit =>
    show (encodeValueRef _).length < 2 ^ 32
    rcases length_encodeValueRef ‹_› with hlen | hlen <;> rw [hlen] <;> decide

/-- The table of a memtable of good records. -/
theorem Holds.entries_ok {gets : Prop} {log : Log} {m : Memtable} {rs : List (Bytes × Bytes)}
    (h : Holds log m rs) (hrs : ∀ r ∈ rs, Good gets r) :
    ∀ e ∈ m.entries.entries, EntryOK gets e := by
  intro e he
  obtain ⟨v, hv, hc⟩ := h.entry_carries he
  exact hc.entryOK (hrs _ (mem_of_lastOf hv))

/-- **The table of a memtable is installed** in front of the others and read over them. -/
theorem InstallOK.install {files : TableFiles} {metas : List TableMeta} {heap : ℕ → Memtable}
    {imm : Immutable} {t : Table} (hi : InstallOK files metas heap imm t)
    (h : WellFormed files metas) (hne : heap imm.table ≠ []) (now : ℤ) :
    WellFormed files (tableMetaFromSST t 0 now :: metas) ∧
      ∀ k, lookupLevels Table.find (levelsOf files (tableMetaFromSST t 0 now :: metas)) k =
        (lastOf (heap imm.table) k).or (lookupLevels Table.find (levelsOf files metas) k) := by
  obtain ⟨⟨flushed, hflushed, hpath, hnewer⟩, hfresh, hentries, hfile⟩ := hi
  obtain ⟨path, entries⟩ := t
  obtain rfl : path = sstableID flushed := hpath
  obtain rfl : entries = (heap imm.table).entries := hentries
  have hmeta := tableMetaFromSST_sstableID hflushed (heap imm.table).entries now
  generalize tableMetaFromSST ⟨sstableID flushed, (heap imm.table).entries⟩ 0 now = m at hmeta ⊢
  subst hmeta
  -- the name of the file holds the reading, so its time of creation is newer than all others
  have hnewest : Newest metas ⟨sstableID flushed, 0,
      Table.smallest ⟨sstableID flushed, (heap imm.table).entries⟩,
      Table.largest ⟨sstableID flushed, (heap imm.table).entries⟩, flushed⟩ :=
    ⟨rfl, fun m hm _ => hnewer m hm, hfresh⟩
  have hdesc : Describes ⟨sstableID flushed, 0,
      Table.smallest ⟨sstableID flushed, (heap imm.table).entries⟩,
      Table.largest ⟨sstableID flushed, (heap imm.table).entries⟩, flushed⟩
      ⟨sstableID flushed, (heap imm.table).entries⟩ := ⟨rfl, entries_ne_nil hne, rfl, rfl⟩
  refine ⟨h.install hnewest hfile hdesc, fun k => ?_⟩
  rw [h.lookup_install hnewest hfile hdesc sound_find k, find_entries]

/-- The installed table is named by its timestamp. -/
theorem InstallOK.stamped {files : TableFiles} {metas : List TableMeta} {heap : ℕ → Memtable}
    {imm : Immutable} {t : Table} (hi : InstallOK files metas heap imm t) (now : ℤ)
    (h : Stamped metas) : Stamped (tableMetaFromSST t 0 now :: metas) := by
  obtain ⟨flushed, hflushed, hpath, -⟩ := hi.written
  obtain ⟨path, entries⟩ := t
  obtain rfl : path = sstableID flushed := hpath
  refine List.forall_mem_cons.mpr ⟨⟨flushed, ?_⟩, h⟩
  rw [tableMetaFromSST_sstableID hflushed]
  exact ⟨rfl, rfl⟩

/-- The files hold the tables of a manifest, and the levels are those of the manifest. -/
structure Tabled (files : TableFiles) (metas : List TableMeta) (levels : List LevelState) : Prop where
  wellFormed : WellFormed files metas
  levels_eq : levels = levelsOf files metas

namespace Tabled

variable {files : TableFiles} {metas : List TableMeta} {levels : List LevelState}

/-- A new file that the manifest does not name changes nothing. -/
theorem insert (h : Tabled files metas levels) {name : Bytes} (hname : ∀ m ∈ metas, m.filename ≠ name)
    (entries : OrdMap Bytes Bytes) : Tabled (files.insert name entries) metas levels := by
  have hget : ∀ m ∈ metas, (files.insert name entries).get m.filename = files.get m.filename :=
    fun m hm => by rw [OrdMap.get_insert, if_neg (hname m hm).symm]
  exact ⟨h.wellFormed.insert hname entries, by rw [levelsOf_congr hget]; exact h.levels_eq⟩

/-- **A table that is installed** joins the others. -/
theorem install (h : Tabled files metas levels) {heap : ℕ → Memtable} {imm : Immutable} {t : Table}
    (hi : InstallOK files metas heap imm t) (hne : heap imm.table ≠ []) (now : ℤ) :
    WellFormed files (tableMetaFromSST t 0 now :: metas) ∧
      Tabled files (orderTableMetaForManifest (tableMetaFromSST t 0 now :: metas))
        (levelsOf files (tableMetaFromSST t 0 now :: metas)) ∧
      ∀ k, lookupLevels Table.find (levelsOf files (tableMetaFromSST t 0 now :: metas)) k =
        (lastOf (heap imm.table) k).or (lookupLevels Table.find levels k) := by
  obtain ⟨hwf, hlookup⟩ := hi.install h.wellFormed hne now
  have hperm := orderTableMetaForManifest_perm hwf.distinct
  refine ⟨hwf, ⟨hwf.perm hperm, (levelsOf_perm hwf.distinct hperm).symm⟩, fun k => ?_⟩
  rw [hlookup k, ← h.levels_eq]

end Tabled

namespace TablesOK

variable {gets : Prop} {tables : TableFiles} {manifest : Option (List TableMeta)} {log : Log}
  {metas : List TableMeta} {levels : List LevelState} {T : Bytes → Option Bytes}

theorem tabled (h : TablesOK gets tables manifest log metas levels T) :
    Tabled tables metas levels := ⟨h.wellFormed, h.levels_eq⟩

/-- Only the files that the manifest names matter. -/
theorem congr (h : TablesOK gets tables manifest log metas levels T) {tables' : TableFiles}
    (hget : ∀ m ∈ metas, tables'.get m.filename = tables.get m.filename) :
    TablesOK gets tables' manifest log metas levels T :=
  { h with
    wellFormed := h.wellFormed.congr hget
    levels_eq := by rw [levelsOf_congr hget]; exact h.levels_eq
    entries := by
      intro m hm
      rw [tableOf, hget m hm]
      exact h.entries m hm }

/-- A new file that the manifest does not name changes nothing. -/
theorem insert (h : TablesOK gets tables manifest log metas levels T) {name : Bytes}
    (hname : ∀ m ∈ metas, m.filename ≠ name) (entries : OrdMap Bytes Bytes) :
    TablesOK gets (tables.insert name entries) manifest log metas levels T :=
  h.congr fun m hm => by rw [OrdMap.get_insert, if_neg (hname m hm).symm]

/-- **The flushed memtable goes over the tables.** -/
theorem install (h : TablesOK gets tables manifest log metas levels T) {heap : ℕ → Memtable}
    {imm : Immutable} {t : Table} (hi : InstallOK tables metas heap imm t)
    (hne : heap imm.table ≠ []) {rs : List (Bytes × Bytes)} (hholds : Holds log (heap imm.table) rs)
    (hgood : ∀ r ∈ rs, Good gets r) (now : ℤ) :
    WellFormed tables (tableMetaFromSST t 0 now :: metas) ∧
      TablesOK gets tables (some (tableMetaFromSST t 0 now :: metas)) log
        (orderTableMetaForManifest (tableMetaFromSST t 0 now :: metas))
        (levelsOf tables (tableMetaFromSST t 0 now :: metas)) (overlay (lastOf rs) T) := by
  obtain ⟨hwf, hlookup⟩ := hi.install h.wellFormed hne now
  have hperm := orderTableMetaForManifest_perm hwf.distinct
  refine ⟨hwf, hwf.perm hperm, (levelsOf_perm hwf.distinct hperm).symm, ⟨_, rfl, hperm.symm⟩,
    fun k => ?_, fun k v hv => ?_, fun m hm => ?_⟩
  -- the table answers for its memtable, on top of what the tables had
  · rw [hlookup k, ← h.levels_eq]
    exact hholds.reads.overlay h.reads k
  · rcases Option.or_eq_some_iff.mp hv with hv | ⟨-, hv⟩
    · exact hgood _ (mem_of_lastOf hv)
    · exact h.records k v hv
  · rcases List.mem_cons.mp (hperm.mem_iff.mp hm) with rfl | hm
    · have hfile : tables.get (tableMetaFromSST t 0 now).filename = some t.entries := hi.file
      rw [tableOf, hfile, Option.getD_some, hi.entries_eq]
      exact hholds.entries_ok hgood
    · exact h.entries m hm

end TablesOK

namespace Live

variable {gets : Prop} {dir : Dir} {p : Proc} {s : Spec} {g : Ghost}

/-! ## The flush loop -/

/-- A step that only passes memtables on. -/
theorem setFlusher (h : Live gets dir p s g) (flusher : Flusher) (flushCh : List Immutable)
    (closing : Closing)
    (hpending : Proc.pending { p with flusher := flusher, flushCh := flushCh, closing := closing } =
      p.pending)
    (hleftover : flusher.leftover = p.flusher.leftover)
    (hinstalling : ∀ imm t, flusher = .installing imm t →
      InstallOK dir.tables p.db.tableMeta p.db.heap imm t)
    (hclosing : ClosingOK { p with flusher := flusher, flushCh := flushCh, closing := closing }) :
    Live gets dir { p with flusher := flusher, flushCh := flushCh, closing := closing } s g :=
  { h with
    immutable_eq := by rw [hpending]; exact h.immutable_eq
    names_eq := by rw [hpending, hleftover]; exact h.names_eq
    installing := hinstalling
    view_eq := by rw [hpending, hleftover]; exact h.view_eq
    safe := by rw [hpending, hleftover]; exact h.safe
    closing := hclosing }

theorem receive (h : Live gets dir p s g) {imm : Immutable} {ch : List Immutable}
    (hf : p.flusher = .waiting) (hch : p.flushCh = imm :: ch) :
    Live gets dir { p with flushCh := ch, flusher := .syncing imm } s g := by
  refine h.setFlusher (.syncing imm) ch p.closing ?_ (by rw [hf]; rfl) (by simp)
    ⟨h.closing.published, h.closing.closed, h.closing.detached, h.closing.attached⟩
  simp [Proc.pending, hf, hch, Flusher.current]

theorem syncValueLog (h : Live gets dir p s g) {imm : Immutable} (hf : p.flusher = .syncing imm) :
    Live gets dir { p with flusher := .writing imm } s g := by
  refine h.setFlusher (.writing imm) p.flushCh p.closing ?_ (by rw [hf]; rfl) (by simp)
    ⟨h.closing.published, h.closing.closed, h.closing.detached, h.closing.attached⟩
  simp [Proc.pending, hf, Flusher.current]

theorem removed (h : Live gets dir p s g) (hf : p.flusher = .removing []) :
    Live gets dir { p with flusher := .waiting } s g := by
  refine h.setFlusher .waiting p.flushCh p.closing ?_ (by rw [hf]; rfl) (by simp)
    ⟨h.closing.published, h.closing.closed, h.closing.detached, h.closing.attached⟩
  simp [Proc.pending, hf, Flusher.current]

/-- **The memtable is written to a table file.** -/
theorem flush (h : Live gets dir p s g) {now : ℕ} {imm : Immutable} (hf : p.flusher = .writing imm)
    (hnow : now < 2 ^ 63) (hnewer : ∀ m ∈ p.db.tableMeta, m.createdAt < now)
    (hfresh : ∀ m ∈ p.db.tableMeta, m.filename ≠ sstableID now) :
    Live gets
      { dir with tables := dir.tables.insert (sstableID now) (p.db.heap imm.table).entries }
      { p with flusher := .installing imm ⟨sstableID now, (p.db.heap imm.table).entries⟩ } s g := by
  -- no table in use has the name, so writing the file touches none of them
  have htables := h.tables.insert hfresh (p.db.heap imm.table).entries
  have h' : Live gets
      { dir with tables := dir.tables.insert (sstableID now) (p.db.heap imm.table).entries } p s g :=
    { h with tables := htables, installing := by simp [hf] }
  refine h'.setFlusher (.installing imm ⟨sstableID now, (p.db.heap imm.table).entries⟩) p.flushCh
    p.closing ?_ (by rw [hf]; rfl) ?_
    ⟨h.closing.published, h.closing.closed, h.closing.detached, h.closing.attached⟩
  · simp [Proc.pending, hf, Flusher.current]
  · intro imm' t heq
    simp only [Flusher.installing.injEq] at heq
    obtain ⟨rfl, rfl⟩ := heq
    refine ⟨⟨now, hnow, rfl, hnewer⟩, hfresh, rfl, ?_⟩
    rw [OrdMap.get_insert, if_pos rfl]

/-- The memtables behind the one the flush loop works on. -/
def behind (p : Proc) : List Immutable := p.flushCh ++ (p.writer.handing ++ p.closing.handing)

/-- The memtable the flush loop works on is the oldest of the pending ones. -/
theorem pending_eq_cons {imm : Immutable} (hf : p.flusher.current = [imm]) :
    p.pending = imm :: behind p := by
  rw [Proc.pending, hf]
  rfl

theorem waiting_eq {imm : Immutable} (hf : p.flusher.current = [imm]) (g : Ghost)
    (wals : OrdMap Bytes Bytes) (leftover : List Bytes) :
    (g.generations wals leftover p.pending).waiting = recordsOf wals imm.walPaths ::
      (behind p).map fun imm => recordsOf wals imm.walPaths := by
  rw [pending_eq_cons hf]
  rfl

/-- **A failed flush** leaves its memtable where it is. -/
theorem failFlush (h : Live gets dir p s g) {imm : Immutable} (hf : p.flusher = .writing imm)
    (e : FlushError) :
    Live gets dir { p with db := (p.db.setFlushErrIfNil e).1, flusher := .waiting } s
      { g with stuck := g.stuck ++ [imm] } := by
  have hcurrent : p.flusher.current = [imm] := by rw [hf]; rfl
  have hwaiting := waiting_eq hcurrent g dir.wals p.flusher.leftover
  -- the memtable leaves the queue and joins those whose flush failed
  have hgen : Ghost.generations { g with stuck := g.stuck ++ [imm] } dir.wals [] (behind p) =
      { g.generations dir.wals p.flusher.leftover p.pending with
        stuck := recordsOf dir.wals (pathsOf g.stuck) ++ recordsOf dir.wals imm.walPaths
        waiting := (behind p).map fun imm => recordsOf dir.wals imm.walPaths } := by
    simp [Ghost.generations, pathsOf_append, pathsOf_cons, recordsOf_append, hf, Flusher.leftover]
  exact
    { h with
      immutable_eq := by
        have himm := h.immutable_eq
        rw [pending_eq_cons hcurrent] at himm
        show p.db.immutable = (g.stuck ++ [imm]) ++ behind p
        rw [himm, List.append_assoc]
        rfl
      names_eq := by
        have hnames := h.names_eq
        rw [pending_eq_cons hcurrent, hf] at hnames
        show names dir.wals = pathsOf (g.stuck ++ [imm]) ++ ([] ++ (pathsOf (behind p) ++ g.cur))
        rw [hnames]
        simp [Flusher.leftover, pathsOf_append, pathsOf_cons]
      installing := by simp
      view_eq := by
        show (Ghost.generations { g with stuck := g.stuck ++ [imm] } dir.wals [] (behind p)).view = _
        rw [hgen]
        -- it keeps its place below the newer generations, so the view stays
        exact (Generations.view_stick hwaiting).trans h.view_eq
      safe := by
        show (Ghost.generations { g with stuck := g.stuck ++ [imm] } dir.wals [] (behind p)).Safe
        rw [hgen]
        exact Generations.Safe.stick (g := g.generations dir.wals p.flusher.leftover p.pending)
          (by rw [hf]; rfl) _ _
      stuck_nil := by simp [DB.setFlushErrIfNil]
      closing := ⟨h.closing.published, h.closing.closed, h.closing.detached, h.closing.attached⟩ }

/-! ## Installing -/

/-- The memtable the flush loop works on is found behind the stuck ones. -/
theorem split_immutable (h : Live gets dir p s g) {imm : Immutable} (hf : p.flusher.current = [imm]) :
    p.db.immutable = g.stuck ++ imm :: behind p ∧
      (∀ i ∈ g.stuck, i.table ≠ imm.table) ∧
      p.db.immutable.takeWhile (fun i => i.table ≠ imm.table) = g.stuck ∧
      p.db.immutable.eraseP (fun i => i.table = imm.table) = g.stuck ++ behind p := by
  have himm := h.immutable_eq
  rw [pending_eq_cons hf] at himm
  -- no memtable is listed twice
  have hne : ∀ i ∈ g.stuck, i.table ≠ imm.table := by
    have hn := (List.nodup_append.mp h.heap.nodup).1
    rw [himm, List.map_append] at hn
    intro i hi
    exact (List.nodup_append.mp hn).2.2 _ (List.mem_map_of_mem hi) _ (by simp)
  refine ⟨himm, hne, ?_, ?_⟩
  · rw [himm, List.takeWhile_append_of_pos (by simpa using hne), List.takeWhile_cons_of_neg (by simp),
      List.append_nil]
  · rw [himm, List.eraseP_append_right _ (by simpa using hne), List.eraseP_cons_of_pos (by simp)]

/-- The records of stuck memtables that share no key with one being installed. -/
theorem stuck_disjoint (h : Live gets dir p s g) {imm : Immutable} (hf : p.flusher.current = [imm])
    (hapart : OlderApart p.db imm) :
    DisjointMaps (lastOf (recordsOf dir.wals (pathsOf g.stuck)))
      (lastOf (recordsOf dir.wals imm.walPaths)) := by
  obtain ⟨himm, -, htake, -⟩ := h.split_immutable hf
  rw [OlderApart, htake] at hapart
  -- a memtable has a key exactly if its records have it
  have hnone : ∀ i ∈ p.db.immutable, ∀ k, (p.db.heap i.table).get k = none ↔
      lastOf (recordsOf dir.wals i.walPaths) k = none := by
    intro i hi k
    have hrel := (h.memtables i hi).2.reads k
    revert hrel
    unfold Memtable.get
    generalize lastOf (p.db.heap i.table) k = a
    generalize lastOf (recordsOf dir.wals i.walPaths) k = b
    intro hrel
    cases hrel <;> simp
  intro k
  by_cases hk : lastOf (recordsOf dir.wals imm.walPaths) k = none
  · exact Or.inr hk
  · refine Or.inl (lastOf_eq_none_iff.mpr fun r hr => ?_)
    obtain ⟨path, hpath, hr⟩ := List.mem_flatMap.mp hr
    obtain ⟨older, hold, hpath⟩ := List.mem_flatMap.mp hpath
    -- `imm` has the key, so no memtable that is stuck before it may have it
    have hsome := (hnone imm (by rw [himm]; simp) k).not.mpr hk
    have hnot := (hapart older hold k).resolve_right hsome
    rw [hnone older (by rw [himm]; exact List.mem_append_left _ hold), lastOf_eq_none_iff] at hnot
    exact hnot r (List.mem_flatMap.mpr ⟨path, hpath, hr⟩)

/-- **The flushed table is installed.** -/
theorem install (h : Live gets dir p s g) {imm : Immutable} {t : Table}
    (hf : p.flusher = .installing imm t) (hapart : OlderApart p.db imm) (now : ℤ) :
    ∃ db, p.db.installFlushedTable imm t now = (db, true) ∧
      Live gets { dir with manifest := some (p.db.updatedMeta t now) }
        { p with db := db, flusher := .removing imm.walPaths } s
        { g with table := overlay (lastOf (recordsOf dir.wals imm.walPaths)) g.table } := by
  have hcurrent : p.flusher.current = [imm] := by rw [hf]; rfl
  obtain ⟨himm, -, -, herase⟩ := h.split_immutable hcurrent
  have hmem := h.mem_immutable_of_installing hf
  have hinstall := h.installing imm t hf
  obtain ⟨hne, hholds⟩ := h.memtables imm hmem
  obtain ⟨hwf, htables⟩ := h.tables.install hinstall hne hholds
    (fun r hr => h.wals.good_of_mem hr) now
  refine ⟨_, DB.installFlushedTable_eq h.tables.levels_eq hwf hinstall.file imm, ?_⟩
  -- the memtables that stay are those before and behind `imm`
  have hsub : (g.stuck ++ behind p).Sublist p.db.immutable := by
    rw [himm]
    exact (List.Sublist.refl _).append (List.sublist_cons_self _ _)
  have hdisjoint := h.stuck_disjoint hcurrent hapart
  have hwaiting := waiting_eq hcurrent g dir.wals p.flusher.leftover
  -- the records of `imm` are in the table now, and still in its WAL files
  have hgen : Ghost.generations
      { g with table := overlay (lastOf (recordsOf dir.wals imm.walPaths)) g.table } dir.wals
        imm.walPaths (behind p) =
      { g.generations dir.wals p.flusher.leftover p.pending with
        leftover := recordsOf dir.wals imm.walPaths
        waiting := (behind p).map fun imm => recordsOf dir.wals imm.walPaths
        table := overlay (lastOf (recordsOf dir.wals imm.walPaths)) g.table } := rfl
  exact
    { h with
      immutable_eq := herase
      heap := h.heap.sublist (herase ▸ hsub)
      names_eq := by
        have hnames := h.names_eq
        rw [pending_eq_cons hcurrent, hf] at hnames
        show names dir.wals = pathsOf g.stuck ++ (imm.walPaths ++ (pathsOf (behind p) ++ g.cur))
        rw [hnames]
        simp [Flusher.leftover, pathsOf_cons]
      memtables := by
        intro i hi
        exact h.memtables i (hsub.subset (herase ▸ hi))
      tables := htables
      installing := by simp
      view_eq := by
        show (Ghost.generations
          { g with table := overlay (lastOf (recordsOf dir.wals imm.walPaths)) g.table } dir.wals
          imm.walPaths (behind p)).view = _
        rw [hgen]
        -- the table goes below the stuck generations, which share no key with it
        exact (Generations.view_install hwaiting hdisjoint).trans h.view_eq
      safe := by
        show (Ghost.generations
          { g with table := overlay (lastOf (recordsOf dir.wals imm.walPaths)) g.table } dir.wals
          imm.walPaths (behind p)).Safe
        rw [hgen]
        exact Generations.Safe.install
          (g := g.generations dir.wals p.flusher.leftover p.pending) hdisjoint _
      closing :=
        { published := fun _ => rfl
          closed := fun hc => ⟨(h.closing.closed hc).1, (h.closing.closed hc).1⟩
          detached := h.closing.detached
          attached := h.closing.attached } }

/-- **A WAL file of an installed memtable is removed.** -/
theorem removeWAL (h : Live gets dir p s g) {path : Bytes} {paths : List Bytes}
    (hf : p.flusher = .removing (path :: paths)) :
    Live gets { dir with wals := dir.wals.erase path } { p with flusher := .removing paths } s g := by
  have hnames := h.names_eq
  rw [hf] at hnames
  have hpending : Proc.pending { p with flusher := .removing paths } = p.pending := by
    simp [Proc.pending, hf, Flusher.current]
  -- the file is nobody else's
  have hfresh : path ∉ pathsOf g.stuck ∧ path ∉ paths ∧ path ∉ pathsOf p.pending ∧ path ∉ g.cur := by
    have hn := names_nodup dir.wals
    rw [hnames] at hn
    simp only [Flusher.leftover, List.nodup_append, List.cons_append, List.nodup_cons,
      List.mem_append, List.mem_cons] at hn
    grind
  have hsame : ∀ x, x ≠ path → (dir.wals.erase path).get x = dir.wals.get x := by
    intro x hx
    rw [OrdMap.get_erase, if_neg hx.symm]
  have hkeep : ∀ {l : List Bytes}, path ∉ l → recordsOf (dir.wals.erase path) l =
      recordsOf dir.wals l := fun hl => recordsOf_erase hl
  have hgen : g.generations (dir.wals.erase path) paths p.pending =
      { g.generations dir.wals p.flusher.leftover p.pending with
        leftover := recordsOf dir.wals paths } := by
    have hcongr : g.generations (dir.wals.erase path) paths p.pending =
        g.generations dir.wals paths p.pending := by
      refine Ghost.generations_congr fun x hx => hsame x ?_
      rintro rfl
      simp only [List.mem_append] at hx
      tauto
    rw [hcongr]
    rfl
  exact
    { h with
      immutable_eq := by rw [hpending]; exact h.immutable_eq
      names_eq := by
        rw [hpending]
        exact names_erase_middle hnames
      wals := h.wals.erase path
      memtables := by
        intro imm himm
        obtain ⟨hne, hholds⟩ := h.memtables imm himm
        refine ⟨hne, ?_⟩
        rwa [hkeep]
        intro hp
        have hmem := h.immutable_eq ▸ himm
        rcases List.mem_append.mp hmem with hi | hi
        · exact hfresh.1 (mem_pathsOf hi hp)
        · exact hfresh.2.2.1 (mem_pathsOf hi hp)
      active := by
        refine h.active.congr fun x hx => hsame x ?_
        rintro rfl
        exact hfresh.2.2.2 hx
      installing := by simp
      view_eq := by
        rw [hpending]
        show (g.generations (dir.wals.erase path) paths p.pending).view = _
        rw [hgen]
        exact h.view_eq
      safe := by
        rw [hpending]
        show (g.generations (dir.wals.erase path) paths p.pending).Safe
        rw [hgen]
        have hleft : (g.generations dir.wals p.flusher.leftover p.pending).leftover =
            recordsOf dir.wals [path] ++ recordsOf dir.wals paths := by
          rw [hf]
          exact recordsOf_cons
        exact h.safe.drop hleft
      closing := ⟨h.closing.published, h.closing.closed, h.closing.detached, h.closing.attached⟩ }

/-- **Every step of the flush loop keeps the invariant.** -/
theorem flusherStep (h : Live gets dir p s g) {dir' : Dir} {p' : Proc} {l : Label}
    (hstep : FlusherStep (dir, p) l (dir', p')) (hadm : Admissible gets dir p l)
    (hfresh : FreshFlush p l) : ∃ g', Live gets dir' p' s g' := by
  cases hstep with
  | receive imm ch hf hch => exact ⟨g, h.receive hf hch⟩
  | syncValueLog imm hf => exact ⟨g, h.syncValueLog hf⟩
  | flush now imm hf => exact ⟨g, h.flush hf hadm.1 hadm.2 hfresh⟩
  | failFlush imm hf => exact ⟨_, h.failFlush hf .flushMemtable⟩
  | install imm t now db hf hi =>
    obtain ⟨db', hi', hl⟩ := h.install hf (hadm imm t hf) now
    obtain rfl : db = db' := by simpa [hi] using hi'
    exact ⟨_, hl⟩
  | failInstall imm t now db hf hi =>
    -- an admissible install finds its memtable, so it cannot fail
    obtain ⟨db', hi', -⟩ := h.install hf (hadm imm t hf) now
    simp [hi] at hi'
  | removeWAL path paths hf => exact ⟨g, h.removeWAL hf⟩
  | removed hf => exact ⟨g, h.removed hf⟩

/-! ## Closing -/

theorem markClosed (h : Live gets dir p s g) (hc : p.closing = .no) :
    Live gets dir { p with db := p.db.markClosed, closing := .marked } s g := by
  -- `Close` hands nothing over at this point
  have hpending : Proc.pending { p with db := p.db.markClosed, closing := .marked } = p.pending := by
    simp [Proc.pending, hc, Closing.handing]
  exact
    { h with
      immutable_eq := by rw [hpending]; exact h.immutable_eq
      names_eq := by rw [hpending]; exact h.names_eq
      view_eq := by rw [hpending]; exact h.view_eq
      safe := by rw [hpending]; exact h.safe
      closing :=
        { published := fun _ => rfl
          closed := fun _ => ⟨rfl, rfl⟩
          detached := by simp
          attached := fun _ => h.closing.attached (Or.inl hc) } }

/-- What is left to do once `Close` has taken the memtable. -/
theorem closing_detached (h : Live gets dir p s g) (hc : p.closing = .marked) (hq : p.queue = [])
    (hw : p.writer = .idle) {closing : Closing}
    (hclosing : closing = .draining ∨ ∃ imm, closing = .sending imm) (immutable : List Immutable) :
    ClosingOK { p with db := p.db.detach immutable, closing := closing } where
  published := fun hopen => by
    have hclosed := (h.closing.closed (by simp [hc])).2
    simp [DB.detach, hclosed] at hopen
  closed := fun _ => h.closing.closed (by simp [hc])
  detached := fun _ => ⟨hw, hq⟩
  attached := by
    intro hno
    rcases hclosing with rfl | ⟨imm, rfl⟩ <;> simp at hno

/-- **`Close` takes the active memtable.** -/
theorem detach (h : Live gets dir p s g) {a : ℕ} (hc : p.closing = .marked) (hq : p.queue = [])
    (hw : p.writer = .idle) (hmem : p.db.memtable = some a) (hne : p.db.heap a ≠ []) :
    Live gets dir
      { p with
        db := p.db.detach (p.db.immutable ++ [p.db.toFlush a])
        closing := .sending (p.db.toFlush a) } s { g with cur := [], applied := [] } := by
  obtain ⟨hflush, hrecords, hholds⟩ := h.records_of_nil_logged hmem (by rw [hw]; rfl)
  -- the memtable is queued behind the others as by a rotation
  have hpending : Proc.pending { p with
      db := p.db.detach (p.db.immutable ++ [p.db.toFlush a])
      closing := .sending (p.db.toFlush a) } = p.pending ++ [⟨a, g.cur⟩] := by
    simp [Proc.pending, hc, Closing.handing, hflush]
  exact
    { h with
      immutable_eq := by
        rw [hpending, DB.detach, hflush, h.immutable_eq, List.append_assoc]
      heap := by
        have hheap := h.heap
        rw [hmem] at hheap
        obtain ⟨hnodup, halloc⟩ := hheap
        rw [DB.detach, hflush]
        exact ⟨by simpa using hnodup, by simpa using halloc⟩
      names_eq := by
        rw [hpending, h.names_eq]
        simp [pathsOf_append, pathsOf_cons]
      memtables := by
        intro imm himm
        rcases List.mem_append.mp himm with himm | himm
        · exact h.memtables imm himm
        · obtain rfl := List.mem_singleton.mp himm
          rw [hflush]
          refine ⟨hne, ?_⟩
          rw [hrecords]
          exact hholds
      active := by
        refine Or.inr ⟨rfl, rfl, rfl, rfl, ?_, rfl⟩
        rw [hw]
        rfl
      rotating := by simp [hw]
      view_eq := by
        rw [hpending]
        refine Eq.trans (congrArg Generations.view ?_) (Generations.view_rotate.trans h.view_eq)
        simp [Ghost.generations, hrecords]
      safe := by
        rw [hpending]
        exact ⟨h.safe.absorbed, h.safe.apart⟩
      closing := h.closing_detached hc hq hw (Or.inr ⟨_, rfl⟩) _ }

/-- `Close` drops an empty memtable with its WAL. -/
theorem detachEmpty (h : Live gets dir p s g) {a : ℕ} {wal : Bytes} (hc : p.closing = .marked)
    (hq : p.queue = []) (hw : p.writer = .idle) (hmem : p.db.memtable = some a)
    (hempty : p.db.heap a = []) (hwal : p.db.activeWal = some wal) :
    ∃ g', Live gets { dir with wals := dir.wals.erase wal }
      { p with db := p.db.detach p.db.immutable, closing := .draining } s g' := by
  obtain ⟨-, hrecords, hholds⟩ := h.records_of_nil_logged hmem (by rw [hw]; rfl)
  obtain ⟨pre, hcur, hpre⟩ := h.cur_eq hwal
  -- the memtable is empty, so no write was applied to it
  have happlied : g.applied = [] := by
    rw [hempty] at hholds
    exact List.forall₂_nil_left_iff.mp hholds
  have hpending : Proc.pending { p with
      db := p.db.detach p.db.immutable
      closing := .draining } = p.pending := by
    simp [Proc.pending, hc, Closing.handing]
  have hwalcur : wal ∈ g.cur := by rw [hcur]; simp
  have hfresh := h.notMem_of_cur hwalcur
  -- only the WAL of the empty memtable goes, and no other memtable uses it
  have hsame : ∀ path ∈ pathsOf g.stuck ++ (p.flusher.leftover ++ pathsOf p.pending),
      (dir.wals.erase wal).get path = dir.wals.get path := by
    intro path hp
    rw [OrdMap.get_erase, if_neg]
    rintro rfl
    exact hfresh hp
  refine ⟨{ g with cur := pre, applied := [] }, ?_⟩
  exact
    { h with
      immutable_eq := by rw [hpending]; exact h.immutable_eq
      heap := by
        refine ⟨?_, fun b hb => h.heap.allocated b ?_⟩
        · simpa [DB.detach] using (List.nodup_append.mp h.heap.nodup).1
        · exact List.mem_append_left _ (by simpa [DB.detach] using hb)
      names_eq := by
        rw [hpending]
        have hnames := h.names_eq
        rw [hcur, ← List.append_assoc (pathsOf p.pending), ← List.append_assoc p.flusher.leftover,
          ← List.append_assoc (pathsOf g.stuck)] at hnames
        rw [names_erase_middle hnames]
        simp
      wals := h.wals.erase wal
      memtables := by
        intro imm himm
        rw [recordsOf_congr fun path hp => hsame path (h.mem_paths himm hp)]
        exact h.memtables imm himm
      active := by
        -- the earlier WAL files of the memtable, replayed at the opening, hold no records either
        refine Or.inr ⟨rfl, rfl, rfl, rfl, by rw [hw]; rfl, ?_⟩
        rw [recordsOf_erase hpre]
        rw [hcur, happlied, recordsOf_append] at hrecords
        exact (List.append_eq_nil_iff.mp hrecords).1
      rotating := by simp [hw]
      view_eq := by
        rw [hpending, ← h.view_eq, ← Ghost.generations_congr hsame]
        refine congrArg Generations.view ?_
        simp [Ghost.generations, happlied]
      safe := by
        have hsafe := h.safe
        rw [← Ghost.generations_congr hsame] at hsafe
        rw [hpending]
        exact ⟨hsafe.absorbed, hsafe.apart⟩
      closing := h.closing_detached hc hq hw (Or.inl rfl) _ }

/-- **Every step of `Close` keeps the invariant.** -/
theorem closeStep (h : Live gets dir p s g) {dir' : Dir} {p' : Proc}
    (hstep : CloseStep (dir, p) (dir', p')) : ∃ g', Live gets dir' p' s g' := by
  cases hstep with
  | markClosed hc => exact ⟨g, h.markClosed hc⟩
  | detach a hc hq hw hmem hne => exact ⟨_, h.detach hc hq hw hmem hne⟩
  | detachEmpty a wal hc hq hw hmem hempty hwal => exact h.detachEmpty hc hq hw hmem hempty hwal
  | sendLast imm hc hroom =>
    have hdetached := h.closing.detached (Or.inr ⟨imm, hc⟩)
    refine ⟨g, h.setFlusher p.flusher (p.flushCh ++ [imm]) .draining ?_ rfl h.installing ?_⟩
    · simp [Proc.pending, hc, hdetached.1, Closing.handing, Writer.handing]
    · exact ⟨h.closing.published, fun _ => h.closing.closed (by simp [hc]), fun _ => hdetached,
        by simp⟩

end Live

end Seol
