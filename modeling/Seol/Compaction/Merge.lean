import Seol.Compaction.Plan

/-!
# Merging and splitting

Reference: `compactionMergeIterator` and `compactTables` in `compaction.go`. An input iterator is the
list of entries it has still to visit. A step takes the least key among the current entries, from the
first input that holds it, and moves every input past that key. The stream of winners, less dropped
tombstones, is cut into output tables by size.
-/

namespace Seol

open Common

/-- The choice of `advance` between the winner so far and the current entry of the next input. -/
def chooseEntry (best : Option (Bytes × Bytes)) (input : List (Bytes × Bytes)) :
    Option (Bytes × Bytes) :=
  match best, input with
  | best, [] => best
  | none, e :: _ => some e
  | some b, e :: _ => if e.1 < b.1 then some e else some b

/-- The entry `advance` emits. -/
def winner (inputs : List (List (Bytes × Bytes))) : Option (Bytes × Bytes) :=
  inputs.foldl chooseEntry none

/-- Move one input past a key. -/
def skipKey (k : Bytes) : List (Bytes × Bytes) → List (Bytes × Bytes)
  | [] => []
  | e :: es => if e.1 = k then es else e :: es

/-- Iterate `advance` until no input is valid. Each round consumes an entry. -/
def mergeFuel : ℕ → List (List (Bytes × Bytes)) → List (Bytes × Bytes)
  | 0, _ => []
  | fuel + 1, inputs =>
    match winner inputs with
    | none => []
    | some e => e :: mergeFuel fuel (inputs.map (skipKey e.1))

/-- `newCompactionMergeIterator`, read to its end. -/
def mergeInputs (inputs : List (List (Bytes × Bytes))) : List (Bytes × Bytes) :=
  mergeFuel (inputs.map List.length).sum inputs

/-- The loop of `compactTables` over the merged stream: put each entry in the builder and flush the
builder when it reaches the target. -/
def splitOutputs (targetBytes : ℕ) (builder : OrdMap Bytes Bytes) (builderBytes : ℕ) :
    List (Bytes × Bytes) → List (OrdMap Bytes Bytes)
  | [] => if builder.isEmpty then [] else [builder]
  | e :: es =>
    let bytes := builderBytes + (e.1.length + e.2.length)
    if targetBytes ≤ bytes then builder.insert e.1 e.2 :: splitOutputs targetBytes OrdMap.empty 0 es
    else splitOutputs targetBytes (builder.insert e.1 e.2) bytes es

/-- The size at which `compactTables` flushes its builder. -/
def targetBytes (p : CompactionPlan) : Int64 :=
  if p.targetOutputBytes ≤ 0 then defaultMemtableMaxBytes else p.targetOutputBytes

/-- `compactTables`: the contents of the output tables, in the order they are flushed. -/
def compactTables (tables : List Table) (p : CompactionPlan) : List (OrdMap Bytes Bytes) :=
  let targetBytes := size (targetBytes p)
  let stream := mergeInputs (tables.map fun t => t.entries.entries)
  splitOutputs targetBytes OrdMap.empty 0
    (stream.filter fun e => !(p.dropTombstones && isTombstoneValue e.2))

/-! ## The merged stream -/

/-- The value of the first input that holds `k`. -/
def firstValue (inputs : List (List (Bytes × Bytes))) (k : Bytes) : Option Bytes :=
  inputs.findSome? (getList k)

theorem forall_head_cons {P : Bytes × Bytes → Prop} {a : Bytes × Bytes} {l : List (Bytes × Bytes)}
    {inputs : List (List (Bytes × Bytes))} (ha : P a)
    (h : ∀ l ∈ inputs, ∀ b, l.head? = some b → P b) :
    ∀ l' ∈ (a :: l) :: inputs, ∀ b, l'.head? = some b → P b := by
  refine List.forall_mem_cons.mpr ⟨fun b hb => ?_, h⟩
  rwa [← Option.some.inj hb]

/-- The fold keeps the winner unless a later input has a strictly smaller key. -/
theorem foldl_chooseEntry {inputs : List (List (Bytes × Bytes))} {best : Option (Bytes × Bytes)}
    {e : Bytes × Bytes} (h : inputs.foldl chooseEntry best = some e) :
    (∀ b, best = some b → e.1 ≤ b.1) ∧ (∀ l ∈ inputs, ∀ a, l.head? = some a → e.1 ≤ a.1) ∧
      (best = some e ∨ ∃ as l bs, inputs = as ++ (e :: l) :: bs ∧
        (∀ b, best = some b → e.1 < b.1) ∧ ∀ l ∈ as, ∀ a, l.head? = some a → e.1 < a.1) := by
  induction inputs generalizing best with
  | nil =>
    simp only [List.foldl_nil] at h
    subst h
    simp
  | cons l inputs ih =>
    rw [List.foldl_cons] at h
    obtain ⟨hbest, hall, hfrom⟩ := ih h
    -- an exhausted input never changes the choice
    cases l with
    | nil =>
      have hsame : chooseEntry best [] = best := by cases best <;> rfl
      rw [hsame] at hbest hfrom
      refine ⟨hbest, ?_, ?_⟩
      · simpa using hall
      · rcases hfrom with hfrom | ⟨as, l, bs, rfl, hlt, has⟩
        · exact Or.inl hfrom
        · exact Or.inr ⟨[] :: as, l, bs, rfl, hlt, by simpa using has⟩
    -- the head of `l` becomes the choice, or the earlier choice beats it
    | cons a l =>
      cases best with
      | none =>
        have hsame : chooseEntry none (a :: l) = some a := rfl
        rw [hsame] at hbest hfrom
        refine ⟨by simp, ?_, Or.inr ?_⟩
        · exact forall_head_cons (hbest a rfl) hall
        · rcases hfrom with hfrom | ⟨as, l', bs, rfl, hlt, has⟩
          · obtain rfl := Option.some.inj hfrom
            exact ⟨[], l, inputs, rfl, by simp, by simp⟩
          · exact ⟨(a :: l) :: as, l', bs, rfl, by simp, forall_head_cons (hlt a rfl) has⟩
      | some b =>
        by_cases hab : a.1 < b.1
        -- a strictly smaller key takes over
        · have hsame : chooseEntry (some b) (a :: l) = some a := if_pos hab
          rw [hsame] at hbest hfrom
          have hea := hbest a rfl
          refine ⟨by simpa using hea.trans hab.le, ?_, Or.inr ?_⟩
          · exact forall_head_cons hea hall
          · rcases hfrom with hfrom | ⟨as, l', bs, rfl, hlt, has⟩
            · obtain rfl := Option.some.inj hfrom
              exact ⟨[], l, inputs, rfl, by simpa using hab, by simp⟩
            · exact ⟨(a :: l) :: as, l', bs, rfl, by simpa using (hlt a rfl).trans hab,
                forall_head_cons (hlt a rfl) has⟩
        -- among equal keys the earlier input stays, which has the newer entry
        · have hsame : chooseEntry (some b) (a :: l) = some b := if_neg hab
          rw [hsame] at hbest hfrom
          have hba : b.1 ≤ a.1 := not_lt.mp hab
          refine ⟨hbest, ?_, ?_⟩
          · exact forall_head_cons ((hbest b rfl).trans hba) hall
          · rcases hfrom with hfrom | ⟨as, l', bs, rfl, hlt, has⟩
            · exact Or.inl hfrom
            · exact Or.inr ⟨(a :: l) :: as, l', bs, rfl, hlt,
                forall_head_cons ((hlt b rfl).trans_le hba) has⟩

theorem winner_eq_none {inputs : List (List (Bytes × Bytes))} (h : winner inputs = none) :
    ∀ l ∈ inputs, l = [] := by
  -- once there is a choice the fold never loses it
  have hsome : ∀ (inputs : List (List (Bytes × Bytes))) (b : Bytes × Bytes),
      inputs.foldl chooseEntry (some b) ≠ none := by
    intro inputs
    induction inputs with
    | nil => simp
    | cons l inputs ih =>
      intro b
      rw [List.foldl_cons]
      cases l with
      | nil => exact ih b
      | cons a l =>
        simp only [chooseEntry]
        split_ifs
        · exact ih a
        · exact ih b
  rw [winner] at h
  induction inputs with
  | nil => simp
  | cons l inputs ih =>
    rw [List.foldl_cons] at h
    cases l with
    | nil => simpa using ih h
    | cons a l => exact absurd h (hsome inputs a)

section Step

variable {inputs : List (List (Bytes × Bytes))} (hs : ∀ l ∈ inputs, KeySorted l)
  {e : Bytes × Bytes} (hw : winner inputs = some e)

include hs hw

/-- The winner has the least key of all remaining entries. -/
theorem winner_le {l : List (Bytes × Bytes)} (hl : l ∈ inputs) {a : Bytes × Bytes} (ha : a ∈ l) :
    e.1 ≤ a.1 := by
  obtain ⟨-, hall, -⟩ := foldl_chooseEntry hw
  cases l with
  | nil => simp at ha
  | cons b l =>
    have hb := hall _ hl b rfl
    rcases List.mem_cons.mp ha with rfl | ha
    · exact hb
    · exact hb.trans ((List.pairwise_cons.mp (hs _ hl)).1 a ha).le

/-- Its value is that of the first input with the key. -/
theorem winner_value : firstValue inputs e.1 = some e.2 := by
  obtain ⟨-, -, hfrom⟩ := foldl_chooseEntry hw
  rcases hfrom with hfrom | ⟨as, l, bs, rfl, -, has⟩
  · simp at hfrom
  -- the inputs in front of the winner have only larger keys
  · have hnone : as.findSome? (getList e.1) = none := by
      refine List.findSome?_eq_none_iff.mpr fun l' hl' => getList_eq_none_iff.mpr fun a ha => ?_
      have hsorted := hs l' (by simp [hl'])
      cases l' with
      | nil => simp at ha
      | cons b l' =>
        have hlt := has _ hl' b rfl
        rcases List.mem_cons.mp ha with rfl | ha
        · exact ne_of_gt hlt
        · exact ne_of_gt (hlt.trans ((List.pairwise_cons.mp hsorted).1 a ha))
    rw [firstValue, List.findSome?_append, hnone, Option.none_or, List.findSome?_cons]
    simp [getList]

/-- After the step every remaining key is greater. -/
theorem lt_of_mem_skipKey {l : List (Bytes × Bytes)} (hl : l ∈ inputs) {a : Bytes × Bytes}
    (ha : a ∈ skipKey e.1 l) : e.1 < a.1 := by
  have hsorted := hs l hl
  have hle := fun b hb => winner_le hs hw hl (a := b) hb
  cases l with
  | nil => simp [skipKey] at ha
  | cons b l =>
    obtain ⟨hb, -⟩ := List.pairwise_cons.mp hsorted
    simp only [skipKey] at ha
    -- the head has the key and is passed, or it is larger already
    split_ifs at ha with heq
    · rw [← heq]
      exact hb a ha
    · have hlt : e.1 < b.1 := lt_of_le_of_ne (hle b List.mem_cons_self) (Ne.symm heq)
      rcases List.mem_cons.mp ha with rfl | ha
      · exact hlt
      · exact hlt.trans (hb a ha)

end Step

/-- For every other key the inputs answer as before. -/
theorem firstValue_skipKey {inputs : List (List (Bytes × Bytes))} {k k' : Bytes} (hk : k ≠ k') :
    firstValue (inputs.map (skipKey k')) k = firstValue inputs k := by
  -- only an entry with the key `k'` is passed
  have hskip : ∀ l, getList k (skipKey k' l) = getList k l := by
    intro l
    cases l with
    | nil => rfl
    | cons b l =>
      simp only [skipKey]
      split_ifs with heq
      · simp [getList, heq, Ne.symm hk]
      · rfl
  rw [firstValue, firstValue, List.findSome?_map]
  congr 1
  funext l
  exact hskip l

theorem KeySorted.skipKey {l : List (Bytes × Bytes)} (h : KeySorted l) (k : Bytes) :
    KeySorted (skipKey k l) := by
  cases l with
  | nil => exact h
  | cons b l =>
    simp only [Seol.skipKey]
    split_ifs
    · exact (List.pairwise_cons.mp h).2
    · exact h

/-- A step shortens the inputs. -/
theorem sum_length_skipKey {inputs : List (List (Bytes × Bytes))} {e : Bytes × Bytes}
    (hw : winner inputs = some e) :
    ((inputs.map (skipKey e.1)).map List.length).sum < (inputs.map List.length).sum := by
  have hle : ∀ l, (skipKey e.1 l).length ≤ l.length := by
    intro l
    cases l with
    | nil => exact le_rfl
    | cons b l =>
      simp only [skipKey]
      split_ifs <;> simp
  -- no input gets longer, and the input of the winner gets shorter
  have hsum : ∀ ls : List (List (Bytes × Bytes)),
      ((ls.map (skipKey e.1)).map List.length).sum ≤ (ls.map List.length).sum := by
    intro ls
    induction ls with
    | nil => exact le_rfl
    | cons l ls ih => simpa using Nat.add_le_add (hle l) ih
  obtain ⟨-, -, hfrom⟩ := foldl_chooseEntry hw
  rcases hfrom with hfrom | ⟨as, l, bs, rfl, -, -⟩
  · simp at hfrom
  · have ha := hsum as
    have hb := hsum bs
    simp only [List.map_append, List.map_cons, List.sum_append, List.sum_cons, skipKey, if_true,
      List.length_cons] at ha hb ⊢
    omega

theorem mergeFuel_of_winner_none (fuel : ℕ) {inputs : List (List (Bytes × Bytes))}
    (hw : winner inputs = none) : mergeFuel fuel inputs = [] := by
  cases fuel with
  | zero => rfl
  | succ fuel => rw [mergeFuel, hw]

/-- **The merge is the newest-first union**: it emits each key once, in increasing order, with the
value of the first input that holds it. -/
theorem mergeFuel_spec {inputs : List (List (Bytes × Bytes))} (hs : ∀ l ∈ inputs, KeySorted l)
    {fuel : ℕ} (hfuel : (inputs.map List.length).sum ≤ fuel) :
    KeySorted (mergeFuel fuel inputs) ∧
      ∀ k, getList k (mergeFuel fuel inputs) = firstValue inputs k := by
  induction fuel generalizing inputs with
  | zero =>
    have hnil : ∀ l ∈ inputs, l = [] := by
      intro l hl
      have hle := List.single_le_sum (by simp) l.length (List.mem_map_of_mem hl)
      exact List.length_eq_zero_iff.mp (by omega)
    refine ⟨List.Pairwise.nil, fun k => ?_⟩
    refine (List.findSome?_eq_none_iff.mpr fun l hl => ?_).symm
    rw [hnil l hl]
    rfl
  | succ fuel ih =>
    simp only [mergeFuel]
    cases hw : winner inputs with
    | none =>
      refine ⟨List.Pairwise.nil, fun k => ?_⟩
      refine (List.findSome?_eq_none_iff.mpr fun l hl => ?_).symm
      rw [winner_eq_none hw l hl]
      rfl
    | some e =>
      have hs' : ∀ l ∈ inputs.map (skipKey e.1), KeySorted l := by
        intro l hl
        obtain ⟨l', hl', rfl⟩ := List.mem_map.mp hl
        exact KeySorted.skipKey (hs l' hl') e.1
      have hlt := sum_length_skipKey hw
      obtain ⟨hsorted, hget⟩ := ih hs' (by omega)
      -- the rest of the stream comes from the shortened inputs, where every key is greater
      have hrest : ∀ a ∈ mergeFuel fuel (inputs.map (skipKey e.1)), e.1 < a.1 := by
        intro a ha
        have hsome := getList_of_mem hsorted (v := a.2) ha
        rw [hget, firstValue, List.findSome?_map] at hsome
        obtain ⟨l, hl, hin⟩ := List.exists_of_findSome?_eq_some hsome
        exact lt_of_mem_skipKey hs hw hl (mem_of_getList hin)
      refine ⟨List.pairwise_cons.mpr ⟨hrest, hsorted⟩, fun k => ?_⟩
      simp only [getList]
      split_ifs with hk
      · rw [← hk, winner_value hs hw]
      · rw [hget, firstValue_skipKey (Ne.symm hk)]

/-! ## The outputs -/

/-- Cutting a sorted stream keeps its entries in order and makes no empty table. -/
theorem splitOutputs_spec (targetBytes : ℕ) (builder : OrdMap Bytes Bytes) (builderBytes : ℕ)
    {stream : List (Bytes × Bytes)} (hs : KeySorted (builder.entries ++ stream)) :
    (splitOutputs targetBytes builder builderBytes stream).flatMap OrdMap.entries =
        builder.entries ++ stream ∧
      ∀ m ∈ splitOutputs targetBytes builder builderBytes stream, m.entries ≠ [] := by
  induction stream generalizing builder builderBytes with
  | nil =>
    simp only [splitOutputs]
    split_ifs with hempty
    -- nothing was put since the last cut, so there is no table to add
    · have hnil : builder.entries = [] := List.isEmpty_iff.mp hempty
      simp [hnil]
    · refine ⟨by simp, fun m hm => ?_⟩
      rw [List.mem_singleton.mp hm]
      intro hnil
      exact hempty (List.isEmpty_iff.mpr hnil)
  | cons e es ih =>
    -- the keys ascend, so an entry goes to the end of the builder
    have hinsert : (builder.insert e.1 e.2).entries = builder.entries ++ [e] :=
      insertList_of_forall_lt fun a ha => (List.pairwise_append.mp hs).2.2 a ha e List.mem_cons_self
    simp only [splitOutputs]
    split_ifs with hfull
    -- the builder is full: it becomes a table and an empty one takes its place
    · have htail : KeySorted ((OrdMap.empty : OrdMap Bytes Bytes).entries ++ es) :=
        (List.pairwise_cons.mp (List.pairwise_append.mp hs).2.1).2
      obtain ⟨hflat, hne⟩ := ih OrdMap.empty 0 htail
      refine ⟨?_, ?_⟩
      · rw [List.flatMap_cons, hflat, hinsert, List.append_assoc]
        rfl
      · refine List.forall_mem_cons.mpr ⟨?_, hne⟩
        simp [hinsert]
    · have hs' : KeySorted ((builder.insert e.1 e.2).entries ++ es) := by
        rw [hinsert, List.append_assoc]
        exact hs
      obtain ⟨hflat, hne⟩ := ih _ (builderBytes + (e.1.length + e.2.length)) hs'
      refine ⟨?_, hne⟩
      rw [hflat, hinsert, List.append_assoc]
      rfl

/-- Looking a key up in the outputs one after the other is looking it up in the stream. -/
theorem getList_flatMap (k : Bytes) (ms : List (OrdMap Bytes Bytes)) :
    getList k (ms.flatMap OrdMap.entries) = ms.findSome? fun m => m.get k := by
  induction ms with
  | nil => rfl
  | cons m ms ih =>
    rw [List.flatMap_cons, getList_append, List.findSome?_cons, ih]
    cases hm : m.get k with
    | none =>
      rw [OrdMap.get] at hm
      simp [hm]
    | some v =>
      rw [OrdMap.get] at hm
      simp [hm]

/-- Filtering a sorted list by value filters what it answers. -/
theorem getList_filter {es : List (Bytes × Bytes)} (hs : KeySorted es) (p : Bytes → Bool)
    (k : Bytes) : getList k (es.filter fun e => p e.2) = (getList k es).filter p := by
  induction es with
  | nil => rfl
  | cons e es ih =>
    obtain ⟨he, hes⟩ := List.pairwise_cons.mp hs
    -- behind an entry with the key there is no other
    have htail : e.1 = k → getList k es = none := by
      rintro rfl
      exact getList_eq_none_iff.mpr fun a ha => ne_of_gt (he a ha)
    by_cases hp : p e.2 = true
    · rw [List.filter_cons, if_pos hp]
      simp only [getList]
      split_ifs with hk
      · exact (Option.filter_some_pos hp).symm
      · exact ih hes
    · rw [List.filter_cons, if_neg hp, ih hes]
      simp only [getList]
      split_ifs with hk
      · rw [htail hk]
        exact (Option.filter_some_eq_none.mpr hp).symm
      · rfl

/-- What the outputs of a compaction are: sorted and non-overlapping in the order they are written,
none of them empty, and holding for every key the value of the first input with the key, unless that
is a tombstone to be dropped. -/
structure OutputsOf (inputs : List Table) (drop : Bool) (outputs : List (OrdMap Bytes Bytes)) : Prop
    where
  sorted : KeySorted (outputs.flatMap OrdMap.entries)
  nonempty : ∀ m ∈ outputs, m.entries ≠ []
  get_eq : ∀ k, (outputs.findSome? fun m => m.get k) =
    (firstHit Table.find inputs k).filter fun v => !(drop && isTombstoneValue v)

/-- **The outputs of `compactTables`.** -/
theorem compactTables_outputs (inputs : List Table) (p : CompactionPlan) :
    OutputsOf inputs p.dropTombstones (compactTables inputs p) := by
  have hsorted : ∀ l ∈ inputs.map (fun t => t.entries.entries), KeySorted l := by
    intro l hl
    obtain ⟨t, -, rfl⟩ := List.mem_map.mp hl
    exact t.entries.sorted
  obtain ⟨hstream, hget⟩ := mergeFuel_spec hsorted le_rfl
  have hfiltered : KeySorted ((OrdMap.empty : OrdMap Bytes Bytes).entries ++
      (mergeInputs (inputs.map fun t => t.entries.entries)).filter
        fun e => !(p.dropTombstones && isTombstoneValue e.2)) := hstream.filter _
  obtain ⟨hflat, hne⟩ := splitOutputs_spec (size (targetBytes p)) OrdMap.empty 0 hfiltered
  refine ⟨?_, hne, fun k => ?_⟩
  · rw [compactTables, hflat]
    exact hfiltered
  · rw [← getList_flatMap, compactTables, hflat]
    exact (getList_filter hstream (fun v => !(p.dropTombstones && isTombstoneValue v)) k).trans
      (by rw [hget, firstValue, List.findSome?_map]; rfl)

end Seol
