import Seol.Common.OrdMap
import Seol.Common.Bytes

/-!
# The iterator of a table

Reference: `Iterator` in `sstable/sstable.go`. An iterator loads the blocks of its table one after the
other, and each load returns the entries of the block or fails. What it has still to visit is a
stream: entries, and behind them the end of the table or a read error.
-/

namespace Seol

open Common

variable {ε : Type}

/-- `Iterator`. The table is given by what `getCachedBlock` returns for each range of its index
while this iterator runs. -/
structure TableIter (ε : Type) where
  blocks : List (Except ε (List (Bytes × Bytes)))
  rangeIdx : ℕ
  entryIdx : ℕ
  block : Option (List (Bytes × Bytes))
  err : Option ε

namespace TableIter

/-- The entry the iterator points at. -/
def current (it : TableIter ε) : Option (Bytes × Bytes) :=
  match it.err, it.block with
  | none, some b => if it.rangeIdx < it.blocks.length then b[it.entryIdx]? else none
  | _, _ => none

/-- `Valid`. -/
def valid (it : TableIter ε) : Bool := it.current.isSome

/-- `Key`; nil reads as empty. -/
def key (it : TableIter ε) : Bytes := (it.current.map Prod.fst).getD []

/-- `Value`. -/
def value (it : TableIter ε) : Bytes := (it.current.map Prod.snd).getD []

/-- The loop of `loadCurrent`: go on to the next range while the block has no entry left. -/
def loadLoop (it : TableIter ε) : TableIter ε :=
  if _h : it.rangeIdx < it.blocks.length then
    match it.block.elim it.blocks[it.rangeIdx] Except.ok with
    | .error e => { it with err := some e, block := none }
    | .ok b =>
      if it.entryIdx < b.length then { it with block := some b }
      else loadLoop { it with rangeIdx := it.rangeIdx + 1, entryIdx := 0, block := none }
  else { it with block := none }
termination_by it.blocks.length - it.rangeIdx

/-- `loadCurrent`. -/
def loadCurrent (it : TableIter ε) : TableIter ε := if it.err.isSome then it else it.loadLoop

/-- `NewIterator` and `Rewind`. -/
def rewind (blocks : List (Except ε (List (Bytes × Bytes)))) : TableIter ε :=
  loadCurrent { blocks := blocks, rangeIdx := 0, entryIdx := 0, block := none, err := none }

/-- `Next`. -/
def next (it : TableIter ε) : TableIter ε :=
  if it.valid then loadCurrent { it with entryIdx := it.entryIdx + 1 } else it

end TableIter

/-! ## What is left to visit -/

/-- The entries of the blocks up to the first that fails to load, and that failure. -/
def blockStream : List (Except ε (List (Bytes × Bytes))) → List (Bytes × Bytes) × Option ε
  | [] => ([], none)
  | .error e :: _ => ([], some e)
  | .ok b :: bs => (b ++ (blockStream bs).1, (blockStream bs).2)

theorem blockStream_ok (gs : List (List (Bytes × Bytes))) :
    blockStream (gs.map (Except.ok : _ → Except ε _)) = (gs.flatten, none) := by
  induction gs with
  | nil => rfl
  | cons g gs ih => rw [List.map_cons, blockStream, ih, List.flatten_cons]

namespace TableIter

/-- What the iterator has still to visit. -/
def rest (it : TableIter ε) : List (Bytes × Bytes) × Option ε :=
  match it.err, it.block with
  | some e, _ => ([], some e)
  | none, none => ([], none)
  | none, some b =>
    (b.drop it.entryIdx ++ (blockStream (it.blocks.drop (it.rangeIdx + 1))).1,
      (blockStream (it.blocks.drop (it.rangeIdx + 1))).2)

/-- After `loadCurrent` a loaded block has a current entry. -/
def Positioned (it : TableIter ε) : Prop :=
  it.err = none → ∀ b, it.block = some b → it.rangeIdx < it.blocks.length ∧ it.entryIdx < b.length

/-- `loadCurrent` starts at a block that is loaded, or at the start of one that is not. -/
theorem loadLoop_spec (it : TableIter ε) (herr : it.err = none)
    (hblock : ∀ b, it.block = some b → it.rangeIdx < it.blocks.length)
    (hstart : it.block = none → it.entryIdx = 0) :
    it.loadLoop.Positioned ∧
      it.loadLoop.rest = it.block.elim (blockStream (it.blocks.drop it.rangeIdx)) fun b =>
        (b.drop it.entryIdx ++ (blockStream (it.blocks.drop (it.rangeIdx + 1))).1,
          (blockStream (it.blocks.drop (it.rangeIdx + 1))).2) := by
  fun_induction loadLoop it with
  | case1 it hlt e hload =>
    -- a loaded block does not fail, so the failure is that of a fresh load
    cases hb : it.block with
    | some b =>
      rw [hb] at hload
      cases hload
    | none =>
      rw [hb] at hload
      have hfail : it.blocks[it.rangeIdx] = .error e := hload
      refine ⟨fun h => by simp at h, ?_⟩
      rw [List.drop_eq_getElem_cons hlt, hfail]
      rfl
  | case2 it hlt b hload hentry =>
    refine ⟨fun _ b' hb' => ?_, ?_⟩
    · obtain rfl : b = b' := Option.some.inj hb'
      exact ⟨hlt, hentry⟩
    · cases hb : it.block with
      | some b' =>
        rw [hb] at hload
        obtain rfl : b' = b := Except.ok.inj hload
        simp only [rest, herr, Option.elim_some]
      | none =>
        rw [hb] at hload
        have hok : it.blocks[it.rangeIdx] = .ok b := hload
        rw [Option.elim_none, List.drop_eq_getElem_cons hlt, hok]
        simp only [rest, herr, hstart hb, List.drop_zero, blockStream]
  | case3 it hlt b hload hentry ih =>
    obtain ⟨hpos, hrest⟩ := ih herr (fun b hb => by simp at hb) fun _ => rfl
    refine ⟨hpos, hrest.trans ?_⟩
    have hdrop : b.drop it.entryIdx = [] := List.drop_of_length_le (not_lt.mp hentry)
    rw [Option.elim_none]
    cases hb : it.block with
    | some b' =>
      rw [hb] at hload
      obtain rfl : b' = b := Except.ok.inj hload
      rw [Option.elim_some, hdrop, List.nil_append]
    | none =>
      rw [hb] at hload
      have hok : it.blocks[it.rangeIdx] = .ok b := hload
      rw [hstart hb, List.drop_zero] at hdrop
      rw [Option.elim_none, List.drop_eq_getElem_cons hlt, hok, blockStream, hdrop, List.nil_append]
  | case4 it hlt =>
    have hnone : it.block = none := by
      cases hb : it.block with
      | none => rfl
      | some b => exact absurd (hblock b hb) hlt
    refine ⟨fun _ b hb => by simp at hb, ?_⟩
    rw [hnone, Option.elim_none, List.drop_of_length_le (not_lt.mp hlt)]
    simp only [rest, herr, blockStream]

section Reading

variable {it : TableIter ε} (hpos : it.Positioned)

include hpos

/-- The current entry is the first that is left. -/
theorem current_eq : it.current = it.rest.1.head? := by
  unfold current rest
  cases herr : it.err with
  | some e => rfl
  | none =>
    cases hb : it.block with
    | none => rfl
    | some b =>
      obtain ⟨hlt, hentry⟩ := hpos herr b hb
      simp only [if_pos hlt]
      rw [List.drop_eq_getElem_cons hentry, List.getElem?_eq_getElem hentry]
      rfl

theorem valid_eq : it.valid = it.rest.1.head?.isSome := by
  rw [valid, current_eq hpos]

/-- An iterator reports the error of its stream once no entry is left before it. -/
theorem err_eq : it.err = if it.rest.1 = [] then it.rest.2 else none := by
  unfold rest
  cases herr : it.err with
  | some e => rfl
  | none =>
    cases hb : it.block with
    | none => rfl
    | some b =>
      obtain ⟨-, hentry⟩ := hpos herr b hb
      simp only []
      rw [List.drop_eq_getElem_cons hentry]
      rfl

/-- **`Next`** drops the current entry. -/
theorem next_spec {e : Bytes × Bytes} {es : List (Bytes × Bytes)} (hes : it.rest.1 = e :: es) :
    it.next.Positioned ∧ it.next.rest = (es, it.rest.2) := by
  have hvalid : it.valid = true := by
    rw [valid_eq hpos, hes]
    rfl
  have herr : it.err = none := by
    rw [err_eq hpos, hes]
    rfl
  rw [next, if_pos hvalid, loadCurrent, if_neg (by simp [herr])]
  cases hb : it.block with
  | none => simp [rest, herr, hb] at hes
  | some b =>
    obtain ⟨hlt, hentry⟩ := hpos herr b hb
    -- within the block, or with the first entry of the next one that has any
    obtain ⟨hpos', hrest⟩ := loadLoop_spec { it with entryIdx := it.entryIdx + 1 } herr
      (fun _ _ => hlt) (fun hnone => by simp [hb] at hnone)
    rw [hb] at hpos' hrest
    refine ⟨hpos', hrest.trans ?_⟩
    simp only [rest, herr, hb, List.drop_eq_getElem_cons hentry, List.cons_append,
      List.cons.injEq] at hes
    rw [Option.elim_some, ← hes.2]
    simp only [rest, herr, hb]

end Reading

/-- **`Rewind`** starts at the first entry of the first block that has one. -/
theorem rewind_spec (blocks : List (Except ε (List (Bytes × Bytes)))) :
    (rewind blocks).Positioned ∧ (rewind blocks).rest = blockStream blocks :=
  loadLoop_spec { blocks := blocks, rangeIdx := 0, entryIdx := 0, block := none, err := none } rfl
    (fun b hb => by simp at hb) (fun _ => rfl)

end TableIter

end Seol
