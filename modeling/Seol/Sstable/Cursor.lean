import Seol.Sstable.Table

/-!
# Iterating over a table

Reference: `Iterator` in `sstable/sstable.go`, with the block cache and the file behind it. An iterator
over a table follows the iterator over what the block loads return (`TableIter`), step by step.
-/

namespace Seol.Sstable

open Common Checked

/-- `Iterator`, from its `Rewind` on. -/
structure Cursor where
  rangeIdx : ℕ
  entryIdx : ℕ
  block : Option CachedBlock
  err : Option SstError

namespace Cursor

/-- `Valid`. -/
def valid (it : Cursor) (t : Table) : Bool :=
  it.err.isNone && it.block.any fun block =>
    decide (it.rangeIdx < t.ranges.length) && decide (it.entryIdx < block.entryOffsets.length)

/-- `Key` and `Value`; nil reads as empty. -/
def entry (it : Cursor) (t : Table) : Checked SstError (Bytes × Bytes) :=
  match it.block with
  | none => .ok ([], [])
  | some block => if it.valid t then block.entryAt it.entryIdx else .ok ([], [])

/-- The block of a round of `loadCurrent`: the one that is there, or a load. -/
def loadBlock (pool : BlockPool) (it : Cursor) (t : Table) : Checked SstError CachedBlock × Table :=
  match it.block with
  | some block => (.ok block, t)
  | none =>
    match (elemAt t.ranges it.rangeIdx : Checked SstError DataRange) with
    | .error e => (.error e, t)
    | .ok ra => t.getCachedBlock pool ra

/-- The loop of `loadCurrent`. Every round but the last goes on by a range. -/
def loadLoop (pool : BlockPool) : ℕ → Cursor → Table → Checked SstError (Cursor × Table)
  | 0, it, t => .ok (it, t)
  | rounds + 1, it, t =>
    if it.rangeIdx < t.ranges.length then
      match it.loadBlock pool t with
      | (.error .outOfRange, _) => .error .outOfRange
      | (.error (.error e), t) => .ok ({ it with err := some e, block := none }, t)
      | (.ok block, t) =>
        if it.entryIdx < block.entryOffsets.length then .ok ({ it with block := some block }, t)
        else loadLoop pool rounds ⟨it.rangeIdx + 1, 0, none, it.err⟩ t
    else .ok ({ it with block := none }, t)

/-- `loadCurrent`. -/
def loadCurrent (pool : BlockPool) (it : Cursor) (t : Table) : Checked SstError (Cursor × Table) :=
  if it.err.isSome then .ok (it, t) else it.loadLoop pool (t.ranges.length + 1) t

/-- `NewIterator` and `Rewind`. -/
def rewind (pool : BlockPool) (t : Table) : Checked SstError (Cursor × Table) :=
  loadCurrent pool ⟨0, 0, none, none⟩ t

/-- `Next`. -/
def next (pool : BlockPool) (it : Cursor) (t : Table) : Checked SstError (Cursor × Table) :=
  if it.valid t then { it with entryIdx := it.entryIdx + 1 }.loadCurrent pool t else .ok (it, t)

/-- The loop `for it.Valid() { it.Key(); it.Value(); it.Next() }`: the entries it saw, and the
iterator and the table at its end; `none` when the rounds do not suffice. -/
def drain (pool : BlockPool) :
    ℕ → Cursor → Table → Checked SstError (Option (List (Bytes × Bytes) × Cursor × Table))
  | 0, _, _ => .ok none
  | rounds + 1, it, t =>
    if it.valid t then do
      let e ← it.entry t
      let (it, t) ← it.next pool t
      return (← drain pool rounds it t).map fun r => (e :: r.1, r.2)
    else .ok (some ([], it, t))

end Cursor

/-- A full iteration of a table. -/
def Table.iterate (pool : BlockPool) (rounds : ℕ) (t : Table) :
    Checked SstError (Option (List (Bytes × Bytes) × Cursor × Table)) := do
  let (it, t) ← Cursor.rewind pool t
  it.drain pool rounds t

/-! ## The iterator over the loads -/

namespace Cursor

/-- The iterator is where `ti` is, and the ranges it has still to load give the blocks of `ti`. -/
structure Follows (pool : BlockPool) (it : Cursor) (t : Table) (ti : TableIter SstError) : Prop where
  sound : t.Sound
  rangeIdx : ti.rangeIdx = it.rangeIdx
  entryIdx : ti.entryIdx = it.entryIdx
  err : ti.err = it.err
  length : ti.blocks.length = t.ranges.length
  unloaded : it.err = none → it.block = none → ti.block = none ∧
    ti.blocks.drop it.rangeIdx = t.loads pool (t.ranges.drop it.rangeIdx)
  loaded : ∀ b, it.block = some b → ∃ es, (∀ e ∈ es, EntryFits e) ∧ b = blockOf es ∧
    ti.block = some es ∧
      ti.blocks.drop (it.rangeIdx + 1) = t.loads pool (t.ranges.drop (it.rangeIdx + 1))
  failed : it.err ≠ none → it.block = none

/-- One round of the loop loads what the blocks of `ti` have at that place. -/
theorem Follows.loadBlock {pool : BlockPool} {it : Cursor} {t : Table} {ti : TableIter SstError}
    (h : it.Follows pool t ti) (herr : it.err = none) (hlt : it.rangeIdx < t.ranges.length)
    (hlt' : ti.rangeIdx < ti.blocks.length) :
    t.Same (it.loadBlock pool t).2 ∧ (it.loadBlock pool t).2.Sound ∧
      ti.blocks.drop (it.rangeIdx + 1) =
        (it.loadBlock pool t).2.loads pool (t.ranges.drop (it.rangeIdx + 1)) ∧
      ((∃ e, (it.loadBlock pool t).1 = fail e ∧ ti.block = none ∧
          ti.blocks[ti.rangeIdx] = .error e) ∨
        ∃ es, (∀ e ∈ es, EntryFits e) ∧ (it.loadBlock pool t).1 = .ok (blockOf es) ∧
          ti.block.elim ti.blocks[ti.rangeIdx] Except.ok = .ok es) := by
  rw [Cursor.loadBlock]
  -- the block is loaded already, or is loaded now, with what `ti` has at this place
  cases hb : it.block with
  | some b =>
    obtain ⟨es, hfit, rfl, hti, hrest⟩ := h.loaded b hb
    exact ⟨Table.Same.refl t, h.sound, hrest, Or.inr ⟨es, hfit, rfl, by rw [hti]; rfl⟩⟩
  | none =>
    obtain ⟨hti, hrest⟩ := h.unloaded herr hb
    obtain ⟨hsame, hsound, -⟩ := h.sound.getCachedBlock pool t.ranges[it.rangeIdx]
    rw [List.drop_eq_getElem_cons hlt, Table.loads,
      List.drop_eq_getElem_cons (h.rangeIdx ▸ hlt')] at hrest
    obtain ⟨hhead, htail⟩ := List.cons.inj hrest
    have hhead' : ti.blocks[ti.rangeIdx] = t.loaded pool t.ranges[it.rangeIdx] := by
      rw [← hhead]
      simp only [h.rangeIdx]
    simp only [elemAt_of_lt hlt]
    refine ⟨hsame, hsound, htail, ?_⟩
    rcases h.sound.loaded pool t.ranges[it.rangeIdx] with ⟨e, hfail, hload⟩ | ⟨es, hfit, hok, hload⟩
    · exact Or.inl ⟨e, hfail, hti, hhead'.trans hload⟩
    · exact Or.inr ⟨es, hfit, hok, by rw [hti, Option.elim_none, hhead', hload]⟩

/-- **The loop of `loadCurrent` follows** the loop over the loads. -/
theorem Follows.loadLoop {pool : BlockPool} {rounds : ℕ} {it : Cursor} {t : Table}
    {ti : TableIter SstError} (h : it.Follows pool t ti) (herr : it.err = none)
    (hrounds : t.ranges.length - it.rangeIdx < rounds) :
    ∃ it' t', it.loadLoop pool rounds t = .ok (it', t') ∧ t.Same t' ∧
      it'.Follows pool t' ti.loadLoop := by
  induction rounds generalizing it t ti with
  | zero => omega
  | succ rounds ih =>
    rw [Cursor.loadLoop, TableIter.loadLoop]
    by_cases hlt : it.rangeIdx < t.ranges.length
    swap
    · -- no range is left
      have hlt' : ¬ti.rangeIdx < ti.blocks.length := by rw [h.rangeIdx, h.length]; exact hlt
      rw [if_neg hlt, dif_neg hlt']
      refine ⟨_, _, rfl, Table.Same.refl t, h.sound, h.rangeIdx, h.entryIdx, h.err, h.length,
        fun _ _ => ⟨rfl, ?_⟩, fun _ hb => (by cases hb), fun _ => rfl⟩
      rw [List.drop_of_length_le (h.length ▸ not_lt.mp hlt), List.drop_of_length_le (not_lt.mp hlt)]
      rfl
    have hlt' : ti.rangeIdx < ti.blocks.length := by rw [h.rangeIdx, h.length]; exact hlt
    rw [if_pos hlt, dif_pos hlt']
    obtain ⟨hsame, hsound, hrest, ⟨e, hfail, hti, hblock⟩ | ⟨es, hfit, hok, hblock⟩⟩ :=
      h.loadBlock herr hlt hlt'
    all_goals
      generalize hload : it.loadBlock pool t = r at *
      obtain ⟨res, t'⟩ := r
      simp only at hsame hsound hrest
    · -- the load fails
      obtain rfl : res = fail e := hfail
      have hfail' : ti.block.elim ti.blocks[ti.rangeIdx] Except.ok = .error e := by
        rw [hti, Option.elim_none, hblock]
      simp only [fail, hfail']
      exact ⟨_, _, rfl, hsame, hsound, h.rangeIdx, h.entryIdx, rfl, hsame.ranges ▸ h.length,
        fun hnone => (by cases hnone), fun _ hb => (by cases hb), fun _ => rfl⟩
    · obtain rfl : res = .ok (blockOf es) := hok
      have hlen : (blockOf es).entryOffsets.length = es.length := length_offsetsFrom 0 es
      simp only [hblock, hlen, h.entryIdx]
      by_cases hentry : it.entryIdx < es.length
      · rw [if_pos hentry, if_pos hentry]
        exact ⟨_, _, rfl, hsame, hsound, h.rangeIdx, rfl, h.err, hsame.ranges ▸ h.length,
          fun _ hnone => (by cases hnone),
          fun b hb => ⟨es, hfit, (Option.some.inj hb).symm, rfl, hsame.ranges ▸ hrest⟩,
          fun hne => absurd herr hne⟩
      · -- the block has no entry left
        rw [if_neg hentry, if_neg hentry]
        have hnext : Follows pool ⟨it.rangeIdx + 1, 0, none, it.err⟩ t'
            { ti with rangeIdx := ti.rangeIdx + 1, entryIdx := 0, block := none } :=
          ⟨hsound, by rw [h.rangeIdx], rfl, h.err, hsame.ranges ▸ h.length,
            fun _ _ => ⟨rfl, hsame.ranges ▸ hrest⟩, fun _ hb => (by cases hb), fun _ => rfl⟩
        obtain ⟨it', t'', hloop, hsame', hfollows⟩ := ih hnext herr
          (by rw [hsame.ranges]; simp only; omega)
        exact ⟨it', t'', hloop, hsame.trans hsame', hfollows⟩

/-- The current entry of an iterator is that of the one it follows. -/
theorem Follows.entry {pool : BlockPool} {it : Cursor} {t : Table} {ti : TableIter SstError}
    (h : it.Follows pool t ti) :
    it.valid t = ti.valid ∧ it.entry t = .ok (ti.current.getD ([], [])) := by
  rw [Cursor.entry, TableIter.valid, TableIter.current, valid, h.err]
  cases herr : it.err with
  | some e =>
    have hnone := h.failed (by rw [herr]; exact Option.some_ne_none e)
    rw [hnone]
    exact ⟨rfl, rfl⟩
  | none =>
    cases hb : it.block with
    | none =>
      rw [(h.unloaded herr hb).1]
      exact ⟨rfl, rfl⟩
    | some b =>
      obtain ⟨es, hfit, rfl, hti, -⟩ := h.loaded b hb
      have hlen : (blockOf es).entryOffsets.length = es.length := length_offsetsFrom 0 es
      rw [hti]
      simp only [h.rangeIdx, h.entryIdx, h.length, Option.isNone_none, Bool.true_and,
        Option.any_some, hlen]
      -- both iterators are past the end at the same time
      by_cases hlt : it.rangeIdx < t.ranges.length
      · by_cases hentry : it.entryIdx < es.length
        · rw [if_pos hlt, List.getElem?_eq_getElem hentry, if_pos (by simp [hlt, hentry]),
            entryAt_blockOf hfit hentry]
          simp [hlt, hentry]
        · rw [if_pos hlt, List.getElem?_eq_none (not_lt.mp hentry), if_neg (by simp [hentry])]
          simp [hentry]
      · rw [if_neg hlt, if_neg (by simp [hlt])]
        simp [hlt]

/-- **`Next` follows** the `Next` over the loads. -/
theorem Follows.next {pool : BlockPool} {it : Cursor} {t : Table} {ti : TableIter SstError}
    (h : it.Follows pool t ti) (hvalid : ti.valid = true) :
    ∃ it' t', it.next pool t = .ok (it', t') ∧ t.Same t' ∧ it'.Follows pool t' ti.next := by
  have herr : it.err = none := by
    rw [← h.err]
    cases htierr : ti.err with
    | none => rfl
    | some e => simp [TableIter.valid, TableIter.current, htierr] at hvalid
  have hstep : Follows pool { it with entryIdx := it.entryIdx + 1 } t
      { ti with entryIdx := ti.entryIdx + 1 } :=
    ⟨h.sound, h.rangeIdx, congrArg (· + 1) h.entryIdx, h.err, h.length, h.unloaded, h.loaded, h.failed⟩
  rw [Cursor.next, if_pos (h.entry.1.trans hvalid), loadCurrent, if_neg (by simp [herr]),
    TableIter.next, if_pos hvalid, TableIter.loadCurrent, if_neg (by simp [h.err, herr])]
  exact hstep.loadLoop herr (by omega)

/-- The loop over an iterator sees what the one it follows has still to visit. -/
theorem Follows.drain {pool : BlockPool} {rounds : ℕ} {it : Cursor} {t : Table}
    {ti : TableIter SstError} (h : it.Follows pool t ti) (hpos : ti.Positioned)
    (hrounds : ti.rest.1.length < rounds) :
    ∃ it' t', it.drain pool rounds t = .ok (some (ti.rest.1, it', t')) ∧ t.Same t' ∧ t'.Sound ∧
      it'.valid t' = false ∧ it'.err = ti.rest.2 := by
  induction rounds generalizing it t ti with
  | zero => omega
  | succ rounds ih =>
    rw [Cursor.drain]
    -- nothing is left to visit, or the current entry is the next one
    cases hrest : ti.rest.1 with
    | nil =>
      have hinvalid : it.valid t = false := by
        rw [h.entry.1, TableIter.valid_eq hpos, hrest]
        rfl
      have herr : it.err = ti.rest.2 := by
        rw [← h.err, TableIter.err_eq hpos, if_pos hrest]
      rw [if_neg (by simp [hinvalid])]
      exact ⟨it, t, rfl, Table.Same.refl t, h.sound, hinvalid, herr⟩
    | cons e es =>
      have hvalid : ti.valid = true := by
        rw [TableIter.valid_eq hpos, hrest]
        rfl
      have hentry : it.entry t = .ok e := by
        rw [h.entry.2, TableIter.current_eq hpos, hrest]
        rfl
      obtain ⟨hpos', hrest'⟩ := TableIter.next_spec hpos hrest
      obtain ⟨it', t', hnext, hsame, hfollows⟩ := h.next hvalid
      obtain ⟨it'', t'', hdrain, hsame', hsound, hinvalid, herr⟩ := ih hfollows hpos' (by
        rw [hrest', ← Nat.add_lt_add_iff_right]
        rwa [hrest] at hrounds)
      rw [hrest'] at hdrain herr
      rw [if_pos (h.entry.1.trans hvalid), hentry, ok_bind, hnext, ok_bind]
      refine ⟨it'', t'', ?_, hsame.trans hsame', hsound, hinvalid, herr⟩
      simp only [hdrain, ok_bind]
      rfl

/-- The iterator over the loads of a table, before its first load. -/
theorem follows_start (pool : BlockPool) {t : Table} (h : t.Sound) :
    Follows pool ⟨0, 0, none, none⟩ t ⟨t.loads pool t.ranges, 0, 0, none, none⟩ :=
  ⟨h, rfl, rfl, rfl, Table.length_loads pool t t.ranges, fun _ _ => ⟨rfl, rfl⟩,
    fun _ hb => (by cases hb), fun _ => rfl⟩

end Cursor

/-- **A full iteration** sees the entries that the loads give up to the first failure, ends, and
reports that failure. -/
theorem Table.iterate_spec (pool : BlockPool) {t : Table} (h : t.Sound) {rounds : ℕ}
    (hrounds : (blockStream (t.loads pool t.ranges)).1.length < rounds) :
    ∃ it t', t.iterate pool rounds =
        .ok (some ((blockStream (t.loads pool t.ranges)).1, it, t')) ∧ t.Same t' ∧ t'.Sound ∧
      it.valid t' = false ∧ it.err = (blockStream (t.loads pool t.ranges)).2 := by
  obtain ⟨it, t', hloop, hsame, hfollows⟩ := (Cursor.follows_start pool h).loadLoop rfl
    (show t.ranges.length - 0 < t.ranges.length + 1 by omega)
  obtain ⟨hpos, hrest⟩ := TableIter.rewind_spec (t.loads pool t.ranges)
  have hfollows' : it.Follows pool t' (TableIter.rewind (t.loads pool t.ranges)) := hfollows
  obtain ⟨it', t'', hdrain, hsame', hsound, hinvalid, herr⟩ :=
    hfollows'.drain hpos (hrest.symm ▸ hrounds)
  rw [hrest] at hdrain herr
  refine ⟨it', t'', ?_, hsame.trans hsame', hsound, hinvalid, herr⟩
  have hrewind : Cursor.rewind pool t = .ok (it, t') := hloop
  rw [iterate, hrewind]
  exact hdrain

end Seol.Sstable
