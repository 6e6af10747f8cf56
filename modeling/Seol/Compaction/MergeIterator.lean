import Seol.Compaction.Merge
import Seol.Sstable.Iterator

/-!
# The merge iterator

Reference: `compactionMergeIterator` and `compactTables` in `compaction.go`, step by step and with the
errors of the input iterators. An iteration without a read error yields the merge of the inputs; a
read error anywhere ends it with `Err` set, and `compactTables` then returns an error.
-/

namespace Seol

open Common

variable {ε : Type}

/-- `compactionMergeInput`. -/
structure MergeInput (ε : Type) where
  priority : ℕ
  iter : TableIter ε

/-- `compactionMergeIterator`. -/
structure MergeIterator (ε : Type) where
  inputs : List (MergeInput ε)
  key : Bytes
  value : Bytes
  err : Option ε
  valid : Bool

namespace MergeIterator

/-- One round of the first loop of `advance`: the input with the least key so far, the one of lower
priority number among equals. -/
def chooseInput (chosen : Option (MergeInput ε)) (input : MergeInput ε) :
    Except ε (Option (MergeInput ε)) :=
  match input.iter.err with
  | some e => .error e
  | none =>
    if !input.iter.valid then .ok chosen
    else
      match chosen with
      | none => .ok (some input)
      | some c =>
        if input.iter.key < c.iter.key ∨ input.iter.key = c.iter.key ∧ input.priority < c.priority
        then .ok (some input) else .ok (some c)

/-- The second loop of `advance`: move every input that is at the key past it. It stops at the first
error. -/
def passKey (k : Bytes) : List (MergeInput ε) → List (MergeInput ε) × Option ε
  | [] => ([], none)
  | input :: inputs =>
    if !input.iter.valid || input.iter.key ≠ k then
      (input :: (passKey k inputs).1, (passKey k inputs).2)
    else
      let input := { input with iter := input.iter.next }
      match input.iter.err with
      | some e => (input :: inputs, some e)
      | none => (input :: (passKey k inputs).1, (passKey k inputs).2)

/-- `advance`. -/
def advance (it : MergeIterator ε) : MergeIterator ε :=
  if it.err.isSome then it
  else
    match it.inputs.foldlM chooseInput none with
    | .error e => { it with err := some e, valid := false }
    | .ok none => { it with key := [], value := [], valid := false }
    | .ok (some chosen) =>
      let (inputs, err) := passKey chosen.iter.key it.inputs
      { inputs := inputs, key := chosen.iter.key, value := chosen.iter.value, err := err
        valid := err.isNone }

/-- `newCompactionMergeIterator`, over what the iterators of the tables read. -/
def new (tables : List (List (Except ε (List (Bytes × Bytes))))) : MergeIterator ε :=
  advance
    { inputs := tables.zipIdx.map fun t => ⟨t.2, TableIter.rewind t.1⟩, key := [], value := []
      err := none, valid := false }

/-- `Valid`. -/
def isValid (it : MergeIterator ε) : Bool := it.valid && it.err.isNone

/-- `Next`. -/
def next (it : MergeIterator ε) : MergeIterator ε := if it.isValid then it.advance else it

/-- The entries that `Valid`, `Key`, `Value` and `Next` yield to the end, and the iterator then. -/
def drain : ℕ → MergeIterator ε → Option (List (Bytes × Bytes) × MergeIterator ε)
  | 0, _ => none
  | rounds + 1, it =>
    if it.isValid then (drain rounds it.next).map fun r => ((it.key, it.value) :: r.1, r.2)
    else some ([], it)

end MergeIterator

namespace CompactTables

/-- `flushBuilder`: the tables written so far with the builder's, unless it is empty. The call that
writes table `n` fails with `flush n`. -/
def flushBuilder (flush : ℕ → Option ε) (builder : OrdMap Bytes Bytes)
    (outputs : List (OrdMap Bytes Bytes)) : Except ε (List (OrdMap Bytes Bytes)) :=
  if builder.isEmpty then .ok outputs
  else
    match flush outputs.length with
    | some e => .error e
    | none => .ok (outputs ++ [builder])

/-- The loop of `compactTables` with what follows it. -/
def loop (p : CompactionPlan) (flush : ℕ → Option ε) :
    ℕ → MergeIterator ε → OrdMap Bytes Bytes → ℕ → List (OrdMap Bytes Bytes) →
      Option (Except ε (List (OrdMap Bytes Bytes)))
  | 0, _, _, _, _ => none
  | rounds + 1, it, builder, builderBytes, outputs =>
    if it.isValid then
      if p.dropTombstones && isTombstoneValue it.value then
        loop p flush rounds it.next builder builderBytes outputs
      else
        let builder := builder.insert it.key it.value
        let builderBytes := builderBytes + (it.key.length + it.value.length)
        if size (targetBytes p) ≤ builderBytes then
          match flushBuilder flush builder outputs with
          | .error e => some (.error e)
          | .ok outputs => loop p flush rounds it.next OrdMap.empty 0 outputs
        else loop p flush rounds it.next builder builderBytes outputs
    else
      match it.err with
      | some e => some (.error e)
      | none => some (flushBuilder flush builder outputs)

/-- `compactTables`, with the errors of reading its inputs and of writing its outputs. -/
def run (p : CompactionPlan) (flush : ℕ → Option ε) (rounds : ℕ)
    (tables : List (List (Except ε (List (Bytes × Bytes))))) :
    Option (Except ε (List (OrdMap Bytes Bytes))) :=
  loop p flush rounds (MergeIterator.new tables) OrdMap.empty 0 []

end CompactTables

/-! ## One step -/

namespace MergeIterator

/-- The inputs are at an entry or at the end of their stream, in the order of their priorities. -/
structure Ready (inputs : List (MergeInput ε)) : Prop where
  positioned : ∀ i ∈ inputs, i.iter.Positioned
  ordered : inputs.Pairwise fun a b => a.priority < b.priority

/-- The entries each input has still to visit. -/
def remaining (inputs : List (MergeInput ε)) : List (List (Bytes × Bytes)) :=
  inputs.map fun i => i.iter.rest.1

/-- The entry of the chosen input. -/
def entryOf (chosen : Option (MergeInput ε)) : Option (Bytes × Bytes) :=
  chosen.bind fun i => i.iter.current

theorem chooseInput_error {i : MergeInput ε} (hi : i.iter.err ≠ none)
    (chosen : Option (MergeInput ε)) : ∃ e, chooseInput chosen i = .error e := by
  obtain ⟨e, he⟩ := Option.ne_none_iff_exists'.mp hi
  exact ⟨e, by simp only [chooseInput, he]⟩

/-- The first loop reports an error that an input has. -/
theorem foldlM_choose_error {inputs : List (MergeInput ε)} (chosen : Option (MergeInput ε))
    (h : ∃ i ∈ inputs, i.iter.err ≠ none) :
    ∃ e, inputs.foldlM chooseInput chosen = .error e := by
  induction inputs generalizing chosen with
  | nil => simp at h
  | cons i inputs ih =>
    rw [List.foldlM_cons]
    -- the error is this input's, or the loop gets past it and meets the one behind
    by_cases hi : i.iter.err = none
    · obtain ⟨j, hj, herr⟩ := h
      rcases List.mem_cons.mp hj with rfl | hj
      · exact absurd hi herr
      · cases hc : chooseInput chosen i with
        | error e => exact ⟨e, rfl⟩
        | ok c => exact ih c ⟨j, hj, herr⟩
    · obtain ⟨e, he⟩ := chooseInput_error hi chosen
      exact ⟨e, by rw [he]; rfl⟩

theorem key_eq {i : MergeInput ε} {e : Bytes × Bytes} (h : i.iter.current = some e) :
    i.iter.key = e.1 ∧ i.iter.value = e.2 := by
  simp [TableIter.key, TableIter.value, h]

/-- One round without an error. The inputs come in the order of their priorities, so an equal key
does not replace the choice. -/
theorem chooseInput_ok {i : MergeInput ε} (hpos : i.iter.Positioned) (hi : i.iter.err = none)
    {chosen : Option (MergeInput ε)}
    (hchosen : ∀ c, chosen = some c → c.iter.current.isSome ∧ c.priority < i.priority) :
    ∃ c, chooseInput chosen i = .ok c ∧
      entryOf c = chooseEntry (entryOf chosen) i.iter.rest.1 ∧
      (c = chosen ∨ c = some i ∧ i.iter.current.isSome) := by
  have hcur := TableIter.current_eq hpos
  cases hrest : i.iter.rest.1 with
  | nil =>
    have hinvalid : i.iter.valid = false := by rw [TableIter.valid_eq hpos, hrest]; rfl
    refine ⟨chosen, by simp [chooseInput, hi, hinvalid], ?_, Or.inl rfl⟩
    cases entryOf chosen <;> rfl
  | cons e es =>
    rw [hrest] at hcur
    have hvalid : i.iter.valid = true := by rw [TableIter.valid_eq hpos, hrest]; rfl
    have hentry : entryOf (some i) = some e := hcur
    cases chosen with
    | none =>
      exact ⟨some i, by simp [chooseInput, hi, hvalid], hentry, Or.inr ⟨rfl, by simp [hcur]⟩⟩
    | some c =>
      obtain ⟨hsome, hprio⟩ := hchosen c rfl
      obtain ⟨b, hb⟩ := Option.isSome_iff_exists.mp hsome
      have hbest : entryOf (some c) = some b := hb
      -- the choice has the smaller priority, so of the source's test only the comparison of keys is
      -- left
      have hiff : (i.iter.key < c.iter.key ∨
          i.iter.key = c.iter.key ∧ i.priority < c.priority) ↔ e.1 < b.1 := by
        rw [(key_eq hcur).1, (key_eq hb).1]
        exact or_iff_left fun h => absurd h.2 hprio.asymm
      by_cases hlt : e.1 < b.1
      · refine ⟨some i, ?_, ?_, Or.inr ⟨rfl, by simp [hcur]⟩⟩
        · simp only [chooseInput, hi, hvalid, Bool.not_true, Bool.false_eq_true, if_false,
            if_pos (hiff.mpr hlt)]
        · rw [hentry, hbest, chooseEntry, if_pos hlt]
      · refine ⟨some c, ?_, ?_, Or.inl rfl⟩
        · simp only [chooseInput, hi, hvalid, Bool.not_true, Bool.false_eq_true, if_false,
            if_neg (mt hiff.mp hlt)]
        · rw [hbest, chooseEntry, if_neg hlt]

/-- Without an error the first loop finds the winner of the remaining entries. -/
theorem foldlM_choose_ok {inputs : List (MergeInput ε)} (hready : Ready inputs)
    (hok : ∀ i ∈ inputs, i.iter.err = none) (chosen : Option (MergeInput ε))
    (hchosen : ∀ c, chosen = some c →
      c.iter.current.isSome ∧ ∀ i ∈ inputs, c.priority < i.priority) :
    ∃ c, inputs.foldlM chooseInput chosen = .ok c ∧
      entryOf c = (remaining inputs).foldl chooseEntry (entryOf chosen) ∧
      ∀ i, c = some i → i.iter.current.isSome := by
  induction inputs generalizing chosen with
  | nil => exact ⟨chosen, rfl, rfl, fun c hc => (hchosen c hc).1⟩
  | cons i inputs ih =>
    obtain ⟨hprio, hordered⟩ := List.pairwise_cons.mp hready.ordered
    obtain ⟨c, hc, hentry, hfrom⟩ := chooseInput_ok (hready.positioned i List.mem_cons_self)
      (hok i List.mem_cons_self) fun c hc =>
        ⟨(hchosen c hc).1, (hchosen c hc).2 i List.mem_cons_self⟩
    obtain ⟨c', hfold, hentry', hsome⟩ :=
      ih ⟨fun j hj => hready.positioned j (List.mem_cons_of_mem _ hj), hordered⟩
        -- the choice is the one from before, or `i`, whose priority is below all that follow
        (fun j hj => hok j (List.mem_cons_of_mem _ hj)) c (fun c₁ hc₁ => by
          rcases hfrom with rfl | ⟨rfl, hcur⟩
          · exact ⟨(hchosen c₁ hc₁).1, fun j hj => (hchosen c₁ hc₁).2 j (List.mem_cons_of_mem _ hj)⟩
          · obtain rfl := Option.some.inj hc₁
            exact ⟨hcur, hprio⟩)
    refine ⟨c', ?_, ?_, hsome⟩
    · rw [List.foldlM_cons, hc]
      exact hfold
    · rw [hentry', hentry]
      rfl

/-- What the second loop does to one input. -/
def moved (k : Bytes) (i : MergeInput ε) : MergeInput ε :=
  if !i.iter.valid || i.iter.key ≠ k then i else { i with iter := i.iter.next }

theorem moved_spec {i : MergeInput ε} (hpos : i.iter.Positioned) (k : Bytes) :
    (moved k i).iter.Positioned ∧ (moved k i).iter.rest = (skipKey k i.iter.rest.1, i.iter.rest.2) ∧
      (moved k i).priority = i.priority := by
  have hcur := TableIter.current_eq hpos
  cases hrest : i.iter.rest.1 with
  | nil =>
    have hinvalid : i.iter.valid = false := by rw [TableIter.valid_eq hpos, hrest]; rfl
    rw [moved, if_pos (by simp [hinvalid]), skipKey, ← hrest]
    exact ⟨hpos, rfl, rfl⟩
  | cons e es =>
    rw [hrest] at hcur
    have hvalid : i.iter.valid = true := by rw [TableIter.valid_eq hpos, hrest]; rfl
    have hkey := (key_eq (i := i) hcur).1
    by_cases hk : e.1 = k
    · rw [moved, if_neg (by simp [hvalid, hkey, hk]), skipKey, if_pos hk]
      obtain ⟨hpos', hrest'⟩ := TableIter.next_spec hpos hrest
      exact ⟨hpos', hrest', rfl⟩
    · rw [moved, if_pos (by simp [hkey, hk]), skipKey, if_neg hk, ← hrest]
      exact ⟨hpos, rfl, rfl⟩

/-- The second loop moves every input, or stops at one whose stream has an error. -/
theorem passKey_spec {inputs : List (MergeInput ε)} (hpos : ∀ i ∈ inputs, i.iter.Positioned)
    (k : Bytes) :
    passKey k inputs = (inputs.map (moved k), none) ∨
      (passKey k inputs).2 ≠ none ∧ ∃ i ∈ inputs, i.iter.rest.2 ≠ none := by
  induction inputs with
  | nil => exact Or.inl rfl
  | cons i inputs ih =>
    have hposi := hpos i List.mem_cons_self
    have ih := ih fun j hj => hpos j (List.mem_cons_of_mem _ hj)
    -- both branches without an error go on with `moved k i` and the loop over the rest
    have hlater : ∀ i' : MergeInput ε, i' = moved k i →
        passKey k (i :: inputs) = (i' :: (passKey k inputs).1, (passKey k inputs).2) →
        passKey k (i :: inputs) = ((i :: inputs).map (moved k), none) ∨
          (passKey k (i :: inputs)).2 ≠ none ∧ ∃ j ∈ i :: inputs, j.iter.rest.2 ≠ none := by
      intro i' hi' hstep
      rcases ih with ih | ⟨hne, j, hj, hrest⟩
      · exact Or.inl (by rw [hstep, ih, hi', List.map_cons])
      · exact Or.inr ⟨by rw [hstep]; exact hne, j, List.mem_cons_of_mem _ hj, hrest⟩
    by_cases hskip : (!i.iter.valid || i.iter.key ≠ k) = true
    · refine hlater i (by rw [moved, if_pos hskip]) ?_
      rw [passKey, if_pos hskip]
    · have hmoved : moved k i = { i with iter := i.iter.next } := by rw [moved, if_neg hskip]
      cases herr : i.iter.next.err with
      | none =>
        refine hlater _ hmoved.symm ?_
        rw [passKey, if_neg hskip]
        simp only [herr]
      | some e =>
        obtain ⟨hpos', hrest', -⟩ := moved_spec hposi k
        rw [hmoved] at hpos' hrest'
        -- the error after the move is the one at the end of the same stream
        have herr' := TableIter.err_eq hpos'
        refine Or.inr ⟨?_, i, List.mem_cons_self, ?_⟩
        · rw [passKey, if_neg hskip]
          simp [herr]
        · intro hnone
          rw [herr, hrest', hnone] at herr'
          simp at herr'

theorem Ready.moved {inputs : List (MergeInput ε)} (h : Ready inputs) (k : Bytes) :
    Ready (inputs.map (moved k)) ∧
      remaining (inputs.map (MergeIterator.moved k)) = (remaining inputs).map (skipKey k) ∧
      ∀ i ∈ inputs, (MergeIterator.moved k i).iter.rest.2 = i.iter.rest.2 := by
  refine ⟨⟨fun i hi => ?_, ?_⟩, ?_, fun i hi => ?_⟩
  · obtain ⟨j, hj, rfl⟩ := List.mem_map.mp hi
    exact (moved_spec (h.positioned j hj) k).1
  · refine List.pairwise_map.mpr (h.ordered.imp_of_mem fun {a b} ha hb hab => ?_)
    rw [(moved_spec (h.positioned a ha) k).2.2, (moved_spec (h.positioned b hb) k).2.2]
    exact hab
  · rw [remaining, remaining, List.map_map, List.map_map]
    refine List.map_congr_left fun i hi => ?_
    exact congrArg Prod.fst (moved_spec (h.positioned i hi) k).2.1
  · rw [(moved_spec (h.positioned i hi) k).2.1]

/-- **One call of `advance`**: it stops with an error that some stream has, or at the end of all
streams, or it yields the winner and moves every stream past it. -/
theorem advance_spec {it : MergeIterator ε} (herr : it.err = none) (hready : Ready it.inputs) :
    (it.advance.err ≠ none ∧ ∃ i ∈ it.inputs, i.iter.rest.2 ≠ none) ∨
    (it.advance.err = none ∧ it.advance.valid = false ∧ winner (remaining it.inputs) = none ∧
      ∀ i ∈ it.inputs, i.iter.rest.2 = none) ∨
    (it.advance.err = none ∧ it.advance.valid = true ∧
      winner (remaining it.inputs) = some (it.advance.key, it.advance.value) ∧
      it.advance.inputs = it.inputs.map (moved it.advance.key)) := by
  -- the first loop looks at the errors of all inputs before anything else
  by_cases hok : ∀ i ∈ it.inputs, i.iter.err = none
  · obtain ⟨c, hfold, hentry, hsome⟩ := foldlM_choose_ok hready hok none (by simp)
    cases c with
    | none =>
      have hwinner : winner (remaining it.inputs) = none := hentry.symm
      have hadv : it.advance = { it with key := [], value := [], valid := false } := by
        rw [advance, if_neg (by simp [herr]), hfold]
      refine Or.inr (Or.inl ⟨by rw [hadv]; exact herr, by rw [hadv], hwinner, fun i hi => ?_⟩)
      -- no winner means that every stream is at its end, where its error would show
      have hnil := winner_eq_none hwinner _ (List.mem_map_of_mem hi)
      have herri := TableIter.err_eq (hready.positioned i hi)
      rw [hok i hi, if_pos hnil] at herri
      exact herri.symm
    | some c =>
      obtain ⟨e, he⟩ := Option.isSome_iff_exists.mp (hsome c rfl)
      obtain ⟨hkey, hvalue⟩ := key_eq he
      have hwinner : winner (remaining it.inputs) = some e := hentry.symm.trans he
      have hadv : it.advance =
          { inputs := (passKey e.1 it.inputs).1, key := e.1, value := e.2
            err := (passKey e.1 it.inputs).2, valid := (passKey e.1 it.inputs).2.isNone } := by
        rw [advance, if_neg (by simp [herr]), hfold]
        simp only [hkey, hvalue]
      -- the second loop moves all inputs, or stops at one that fails behind the key
      rcases passKey_spec hready.positioned e.1 with hpass | ⟨hpass, hrest⟩
      · rw [hpass] at hadv
        refine Or.inr (Or.inr ?_)
        rw [hadv]
        exact ⟨rfl, rfl, hwinner, rfl⟩
      · refine Or.inl ⟨?_, hrest⟩
        rw [hadv]
        exact hpass
  · push Not at hok
    obtain ⟨e, hfold⟩ := foldlM_choose_error none hok
    obtain ⟨i, hi, herri⟩ := hok
    refine Or.inl ⟨?_, i, hi, fun hnone => ?_⟩
    · rw [advance, if_neg (by simp [herr]), hfold]
      simp
    · have herr' := TableIter.err_eq (hready.positioned i hi)
      rw [hnone, ite_self] at herr'
      exact herri herr'

/-! ## Whole iterations -/

theorem drain_of_not_valid {it : MergeIterator ε} {rounds : ℕ} (hpos : 0 < rounds)
    (h : it.isValid = false) : it.drain rounds = some ([], it) := by
  obtain ⟨rounds, rfl⟩ := Nat.exists_eq_add_one_of_ne_zero hpos.ne'
  rw [drain, if_neg (by simp [h])]

/-- **An iteration to the end** takes at most a round for each entry left. It yields the merge of the
streams when none of them has an error, and ends with an error when one has. -/
theorem drain_advance (n : ℕ) {it : MergeIterator ε} (herr : it.err = none)
    (hready : Ready it.inputs) (hn : ((remaining it.inputs).map List.length).sum ≤ n) {rounds : ℕ}
    (hrounds : n < rounds) :
    ∃ es fin, it.advance.drain rounds = some (es, fin) ∧ fin.isValid = false ∧
      ((∀ i ∈ it.inputs, i.iter.rest.2 = none) →
        fin.err = none ∧ es = mergeFuel n (remaining it.inputs)) ∧
      ((∃ i ∈ it.inputs, i.iter.rest.2 ≠ none) → fin.err ≠ none) := by
  have hpos : 0 < rounds := Nat.zero_lt_of_lt hrounds
  rcases advance_spec herr hready with ⟨hne, hex⟩ | ⟨hnone, hinvalid, hw, hclean⟩ |
    ⟨hnone, hvalid, hw, hinputs⟩
  · have hstop : it.advance.isValid = false := by
      obtain ⟨e, he⟩ := Option.ne_none_iff_exists'.mp hne
      simp [isValid, he]
    refine ⟨[], it.advance, drain_of_not_valid hpos hstop, hstop, fun hclean => ?_, fun _ => hne⟩
    obtain ⟨i, hi, hrest⟩ := hex
    exact absurd (hclean i hi) hrest
  · have hstop : it.advance.isValid = false := by simp [isValid, hinvalid]
    refine ⟨[], it.advance, drain_of_not_valid hpos hstop, hstop, fun _ => ⟨hnone, ?_⟩, ?_⟩
    · rw [mergeFuel_of_winner_none n hw]
    · rintro ⟨i, hi, hrest⟩
      exact absurd (hclean i hi) hrest
  · -- the winner is yielded, and what follows is an iteration over the streams moved past it
    have hlt := sum_length_skipKey hw
    simp only [] at hlt
    obtain ⟨hready', hremaining, hsame⟩ := hready.moved it.advance.key
    rw [← hinputs] at hready' hremaining
    cases n with
    | zero => omega
    | succ n =>
      obtain ⟨rounds, rfl⟩ := Nat.exists_eq_add_one_of_ne_zero hpos.ne'
      have hvalid' : it.advance.isValid = true := by simp [isValid, hvalid, hnone]
      obtain ⟨es, fin, hdrain, hstop, hclean, hfail⟩ :=
        drain_advance n hnone hready' (by rw [hremaining]; omega) (Nat.lt_of_succ_lt_succ hrounds)
      refine ⟨(it.advance.key, it.advance.value) :: es, fin, ?_, hstop, fun h => ?_, ?_⟩
      · rw [drain, if_pos hvalid', next, if_pos hvalid', hdrain]
        rfl
      · obtain ⟨hfin, rfl⟩ := hclean fun i hi => by
          rw [hinputs] at hi
          obtain ⟨j, hj, rfl⟩ := List.mem_map.mp hi
          rw [hsame j hj]
          exact h j hj
        refine ⟨hfin, ?_⟩
        rw [mergeFuel, hw, hremaining]
      · rintro ⟨i, hi, hrest⟩
        refine hfail ⟨moved it.advance.key i, ?_, ?_⟩
        · rw [hinputs]
          exact List.mem_map_of_mem hi
        · rw [hsame i hi]
          exact hrest

/-- The inputs of a new iterator read the streams of their tables. -/
theorem ready_rewind (tables : List (List (Except ε (List (Bytes × Bytes))))) :
    Ready (tables.zipIdx.map fun t => (⟨t.2, TableIter.rewind t.1⟩ : MergeInput ε)) ∧
      remaining (tables.zipIdx.map fun t => (⟨t.2, TableIter.rewind t.1⟩ : MergeInput ε)) =
        tables.map fun t => (blockStream t).1 := by
  refine ⟨⟨fun i hi => ?_, ?_⟩, ?_⟩
  · obtain ⟨t, -, rfl⟩ := List.mem_map.mp hi
    exact (TableIter.rewind_spec t.1).1
  · have hlt : (tables.zipIdx.map Prod.snd).Pairwise (· < ·) := by
      rw [List.zipIdx_map_snd]
      exact List.pairwise_lt_range'
    exact List.pairwise_map.mpr (List.pairwise_map.mp hlt)
  -- the priorities do not matter for what the inputs read
  · have hfst : tables.map (fun t => (blockStream t).1) =
        tables.zipIdx.map fun t => (blockStream t.1).1 := by
      conv_lhs => rw [← List.zipIdx_map_fst 0 tables]
      rw [List.map_map]
      rfl
    rw [hfst, remaining, List.map_map]
    refine List.map_congr_left fun t _ => ?_
    exact congrArg Prod.fst (TableIter.rewind_spec t.1).2

/-- The iteration of a new iterator, in terms of the streams of its tables. -/
theorem drain_new (tables : List (List (Except ε (List (Bytes × Bytes))))) {n rounds : ℕ}
    (hn : (tables.map fun t => (blockStream t).1.length).sum ≤ n) (hrounds : n < rounds) :
    ∃ es fin, (new tables).drain rounds = some (es, fin) ∧ fin.isValid = false ∧
      ((∀ t ∈ tables, (blockStream t).2 = none) →
        fin.err = none ∧ es = mergeFuel n (tables.map fun t => (blockStream t).1)) ∧
      ((∃ t ∈ tables, (blockStream t).2 ≠ none) → fin.err ≠ none) := by
  obtain ⟨hready, hremaining⟩ := ready_rewind tables
  let start : MergeIterator ε :=
    ⟨tables.zipIdx.map fun t => ⟨t.2, TableIter.rewind t.1⟩, [], [], none, false⟩
  have hstart : ((remaining start.inputs).map List.length).sum ≤ n := by
    rw [hremaining, List.map_map]
    exact hn
  -- `new` is `advance` from this state, before any entry was yielded
  obtain ⟨es, fin, hdrain, hstop, hclean, hfail⟩ := drain_advance n
    (show start.err = none from rfl) hready hstart hrounds
  have hstream : ∀ t : List (Except ε (List (Bytes × Bytes))),
      (TableIter.rewind t).rest.2 = (blockStream t).2 := fun t => by
    rw [(TableIter.rewind_spec t).2]
  refine ⟨es, fin, hdrain, hstop, fun hok => ?_, ?_⟩
  · rw [← hremaining]
    refine hclean fun i hi => ?_
    obtain ⟨t, ht, rfl⟩ := List.mem_map.mp hi
    rw [hstream]
    exact hok t.1 (List.fst_mem_of_mem_zipIdx ht)
  · rintro ⟨t, ht, hne⟩
    obtain ⟨n, hn, rfl⟩ := List.mem_iff_getElem.mp ht
    refine hfail ⟨⟨n, TableIter.rewind tables[n]⟩, List.mem_map.mpr ⟨(tables[n], n), ?_, rfl⟩, ?_⟩
    · rw [List.mem_zipIdx_iff_getElem?]
      exact List.getElem?_eq_getElem hn
    · rw [hstream]
      exact hne

end MergeIterator

/-! ## Compacting -/

namespace CompactTables

open MergeIterator

/-- The loop of `compactTables` returns an error when the iteration ends with one. -/
theorem loop_error {p : CompactionPlan} {flush : ℕ → Option ε} {rounds : ℕ} {it fin : MergeIterator ε}
    {es : List (Bytes × Bytes)} (hdrain : it.drain rounds = some (es, fin)) (hfin : fin.err ≠ none)
    (builder : OrdMap Bytes Bytes) (builderBytes : ℕ) (outputs : List (OrdMap Bytes Bytes)) :
    ∃ e, loop p flush rounds it builder builderBytes outputs = some (.error e) := by
  induction rounds generalizing it es builder builderBytes outputs with
  | zero => simp [drain] at hdrain
  | succ rounds ih =>
    rw [drain] at hdrain
    rw [loop]
    -- the iteration that `drain` describes is the one of the loop, entry for entry
    by_cases hvalid : it.isValid = true
    · rw [if_pos hvalid] at hdrain ⊢
      obtain ⟨⟨es', fin'⟩, hrest, heq⟩ := Option.map_eq_some_iff.mp hdrain
      obtain ⟨-, rfl⟩ := Prod.mk.inj heq
      by_cases hdrop : (p.dropTombstones && isTombstoneValue it.value) = true
      · rw [if_pos hdrop]
        exact ih hrest _ _ _
      · rw [if_neg hdrop]
        simp only []
        split_ifs
        · cases flushBuilder flush (builder.insert it.key it.value) outputs with
          | error e => exact ⟨e, rfl⟩
          | ok outputs => exact ih hrest _ _ _
        · exact ih hrest _ _ _
    -- the end of the iteration, where the loop asks for `Err`
    · rw [if_neg hvalid] at hdrain ⊢
      obtain ⟨-, rfl⟩ := Prod.mk.inj (Option.some.inj hdrain)
      obtain ⟨e, he⟩ := Option.ne_none_iff_exists'.mp hfin
      exact ⟨e, by rw [he]⟩

/-- Without an error, and with no flush that fails, it splits the merged stream into outputs. -/
theorem loop_ok {p : CompactionPlan} {rounds : ℕ} {it fin : MergeIterator ε}
    {es : List (Bytes × Bytes)} (hdrain : it.drain rounds = some (es, fin)) (hfin : fin.err = none)
    (builder : OrdMap Bytes Bytes) (builderBytes : ℕ) (outputs : List (OrdMap Bytes Bytes)) :
    loop p (fun _ => none) rounds it builder builderBytes outputs =
      some (.ok (outputs ++ splitOutputs (size (targetBytes p)) builder builderBytes
        (es.filter fun e => !(p.dropTombstones && isTombstoneValue e.2)))) := by
  induction rounds generalizing it es builder builderBytes outputs with
  | zero => simp [drain] at hdrain
  | succ rounds ih =>
    rw [drain] at hdrain
    rw [loop]
    by_cases hvalid : it.isValid = true
    · rw [if_pos hvalid] at hdrain ⊢
      obtain ⟨⟨es', fin'⟩, hrest, heq⟩ := Option.map_eq_some_iff.mp hdrain
      obtain ⟨rfl, rfl⟩ := Prod.mk.inj heq
      by_cases hdrop : (p.dropTombstones && isTombstoneValue it.value) = true
      -- a dropped tombstone is an entry the filter removes
      · rw [if_pos hdrop, List.filter_cons_of_neg (by simpa using hdrop), ih hrest]
      · rw [if_neg hdrop, List.filter_cons_of_pos (by rw [eq_false_of_ne_true hdrop]; rfl),
          splitOutputs]
        simp only []
        by_cases hfull : size (targetBytes p) ≤ builderBytes + (it.key.length + it.value.length)
        -- the builder that is cut has at least the entry just put, so the flush keeps it
        · have hflush : flushBuilder (fun _ => (none : Option ε)) (builder.insert it.key it.value)
              outputs = .ok (outputs ++ [builder.insert it.key it.value]) := by
            rw [flushBuilder, if_neg fun hempty => ?_]
            have hnone := OrdMap.get_of_isEmpty hempty it.key
            rw [OrdMap.get_insert, if_pos rfl] at hnone
            cases hnone
          rw [if_pos hfull, if_pos hfull, hflush]
          simp only []
          rw [ih hrest, List.append_assoc, List.singleton_append]
        · rw [if_neg hfull, if_neg hfull, ih hrest]
    · rw [if_neg hvalid] at hdrain ⊢
      obtain ⟨rfl, rfl⟩ := Prod.mk.inj (Option.some.inj hdrain)
      rw [hfin]
      simp only [flushBuilder, List.filter_nil, splitOutputs]
      split_ifs <;> simp

/-- Without read errors and failing flushes this is the compaction of the tables' entries. -/
theorem run_eq_compactTables (p : CompactionPlan) (inputs : List Table)
    {tables : List (List (Except ε (List (Bytes × Bytes))))}
    (hread : tables.map blockStream = inputs.map fun t => (t.entries.entries, none)) {rounds : ℕ}
    (hrounds : (inputs.map fun t => t.entries.entries.length).sum < rounds) :
    run p (fun _ => none) rounds tables = some (.ok (compactTables inputs p)) := by
  have hfst : tables.map (fun t => (blockStream t).1) = inputs.map fun t => t.entries.entries := by
    have hmap := congrArg (List.map Prod.fst) hread
    rwa [List.map_map, List.map_map] at hmap
  have hsum : (tables.map fun t => (blockStream t).1.length).sum =
      ((inputs.map fun t => t.entries.entries).map List.length).sum := by
    rw [← hfst, List.map_map]
    rfl
  obtain ⟨es, fin, hdrain, -, hclean, -⟩ := drain_new tables hsum.le
    (by rw [List.map_map]; exact hrounds)
  -- a stream without an error is what `hread` says of every table
  obtain ⟨hfin, rfl⟩ := hclean fun t ht => by
    have hmem := List.mem_map_of_mem (f := blockStream) ht
    rw [hread] at hmem
    obtain ⟨t', -, heq⟩ := List.mem_map.mp hmem
    rw [← heq]
  rw [run, loop_ok hdrain hfin, hfst]
  rfl

end CompactTables

theorem blockStream_error_iff {blocks : List (Except ε (List (Bytes × Bytes)))} :
    (blockStream blocks).2 ≠ none ↔ ∃ e, .error e ∈ blocks := by
  induction blocks with
  | nil => simp [blockStream]
  | cons b blocks ih =>
    cases b with
    | error e => simp [blockStream]
    | ok b => simp [blockStream, ih]

/-- **The merge iterator is a newest-wins sorted union.** An iteration to the end terminates. Without
a read error it yields, in increasing order and once each, the keys of the inputs, with the value of
the first input that has the key. A read error in any input leaves the iterator invalid with `Err`
set, and `compactTables` returns an error. -/
theorem merge_newest_wins (tables : List (List (Except ε (List (Bytes × Bytes)))))
    (hsorted : ∀ t ∈ tables, KeySorted (blockStream t).1) (rounds : ℕ)
    (hrounds : (tables.map fun t => (blockStream t).1.length).sum < rounds) :
    ∃ es fin, (MergeIterator.new tables).drain rounds = some (es, fin) ∧ fin.isValid = false ∧
      ((∀ t ∈ tables, ∀ e, .error e ∉ t) → fin.err = none ∧ KeySorted es ∧
        ∀ k v, (k, v) ∈ es ↔ firstValue (tables.map fun t => (blockStream t).1) k = some v) ∧
      ((∃ t ∈ tables, ∃ e, .error e ∈ t) → fin.err ≠ none ∧
        ∀ p flush, ∃ e, CompactTables.run p flush rounds tables = some (.error e)) := by
  obtain ⟨es, fin, hdrain, hstop, hclean, hfail⟩ := MergeIterator.drain_new tables le_rfl hrounds
  refine ⟨es, fin, hdrain, hstop, fun hok => ?_, ?_⟩
  · obtain ⟨hfin, rfl⟩ := hclean fun t ht => by
      by_contra hne
      obtain ⟨e, he⟩ := blockStream_error_iff.mp hne
      exact hok t ht e he
    have hs : ∀ l ∈ tables.map fun t => (blockStream t).1, KeySorted l := by
      intro l hl
      obtain ⟨t, ht, rfl⟩ := List.mem_map.mp hl
      exact hsorted t ht
    -- a round takes an entry from some stream, so the number of entries is fuel enough
    have hfuel : ((tables.map fun t => (blockStream t).1).map List.length).sum ≤
        (tables.map fun t => (blockStream t).1.length).sum := by
      rw [List.map_map]
      rfl
    obtain ⟨hkeys, hget⟩ := mergeFuel_spec hs hfuel
    refine ⟨hfin, hkeys, fun k v => ?_⟩
    rw [← hget]
    exact ⟨getList_of_mem hkeys, mem_of_getList⟩
  · rintro ⟨t, ht, e, he⟩
    have hfin : fin.err ≠ none := hfail ⟨t, ht, blockStream_error_iff.mpr ⟨e, he⟩⟩
    exact ⟨hfin, fun p flush => CompactTables.loop_error hdrain hfin _ _ _⟩

/-- Two tables with a common key; the second fails at its second block. -/
def twoReads : List (List (Except String (List (Bytes × Bytes)))) :=
  [[.ok [([1], [7]), ([3], [8])]], [.ok [([1], [9])], .error "read"]]

theorem merge_newest_wins_two :
    ∃ es fin, (MergeIterator.new twoReads).drain 4 = some (es, fin) ∧ fin.isValid = false ∧
      fin.err ≠ none ∧ ∀ p flush, ∃ e, CompactTables.run p flush 4 twoReads = some (.error e) := by
  have hsorted : ∀ t ∈ twoReads, KeySorted (blockStream t).1 := by
    intro t ht
    simp only [twoReads, List.mem_cons, List.not_mem_nil, or_false] at ht
    rcases ht with rfl | rfl
    · simp only [blockStream, KeySorted]
      decide
    · simp [blockStream, KeySorted]
  obtain ⟨es, fin, hdrain, hstop, -, hfail⟩ := merge_newest_wins twoReads hsorted 4 (by decide)
  refine ⟨es, fin, hdrain, hstop, hfail ⟨_, List.mem_cons_of_mem _ List.mem_cons_self, "read", ?_⟩⟩
  simp

end Seol
