import Mathlib
import Seol.Common.PartialMap

/-!
# Ordered finite maps

A finite map kept as its strictly key-sorted entry list. The order is a field of the structure, so
every map iterates each key once and in increasing order.
-/

namespace Seol.Common

variable {K V : Type*} [LinearOrder K]

/-- First entry with key `k` of an entry list. -/
def getList (k : K) : List (K × V) → Option V
  | [] => none
  | e :: es => if e.1 = k then some e.2 else getList k es

/-- Insert or overwrite `k` in a key-sorted entry list. -/
def insertList (k : K) (v : V) : List (K × V) → List (K × V)
  | [] => [(k, v)]
  | e :: es =>
    if k < e.1 then (k, v) :: e :: es
    else if k = e.1 then (k, v) :: es
    else e :: insertList k v es

/-- Entry lists in strictly increasing key order. -/
def KeySorted (es : List (K × V)) : Prop := es.Pairwise fun a b => a.1 < b.1

instance (es : List (K × V)) : Decidable (KeySorted es) :=
  inferInstanceAs (Decidable (es.Pairwise fun a b => a.1 < b.1))

theorem mem_insertList {k : K} {v : V} {es : List (K × V)} {e : K × V}
    (h : e ∈ insertList k v es) : e = (k, v) ∨ e ∈ es := by
  induction es with
  | nil => simpa [insertList] using h
  | cons a es ih =>
    simp only [insertList] at h
    split_ifs at h with hlt heq
    · simpa using h
    · rcases List.mem_cons.mp h with h | h
      · exact Or.inl h
      · exact Or.inr (List.mem_cons_of_mem _ h)
    · rcases List.mem_cons.mp h with h | h
      · exact Or.inr (h ▸ List.mem_cons_self)
      · exact (ih h).imp id (List.mem_cons_of_mem _)

theorem KeySorted.insertList {k : K} {v : V} {es : List (K × V)} (h : KeySorted es) :
    KeySorted (insertList k v es) := by
  induction es with
  | nil => simp [Common.insertList, KeySorted]
  | cons a es ih =>
    obtain ⟨ha, hes⟩ := List.pairwise_cons.mp h
    simp only [Common.insertList]
    split_ifs with hlt heq
    -- the new entry goes in front: it is below the head and so below all
    · refine List.pairwise_cons.mpr ⟨fun b hb => ?_, h⟩
      rcases List.mem_cons.mp hb with rfl | hb
      · exact hlt
      · exact hlt.trans (ha b hb)
    -- the head has the key and is replaced
    · exact List.pairwise_cons.mpr ⟨fun b hb => heq ▸ ha b hb, hes⟩
    · have hak : a.1 < k := lt_of_le_of_ne (not_lt.mp hlt) (Ne.symm heq)
      refine List.pairwise_cons.mpr ⟨fun b hb => ?_, ih hes⟩
      rcases mem_insertList hb with rfl | hb
      · exact hak
      · exact ha b hb

theorem getList_insertList (k k' : K) (v : V) (es : List (K × V)) :
    getList k' (insertList k v es) = if k = k' then some v else getList k' es := by
  induction es with
  | nil => simp [insertList, getList]
  | cons a es ih =>
    simp only [insertList]
    by_cases hlt : k < a.1
    · rw [if_pos hlt]
      rfl
    · rw [if_neg hlt]
      -- an entry with the key is replaced, and answers for `k` as the new one does
      by_cases heq : k = a.1
      · rw [if_pos heq]
        by_cases hk : k = k' <;> simp [getList, ← heq, hk]
      · rw [if_neg heq]
        simp only [getList, ih]
        by_cases hk : k = k'
        · simp [← hk, Ne.symm heq]
        · simp [hk]

theorem getList_eq_none_iff {k : K} {es : List (K × V)} :
    getList k es = none ↔ ∀ e ∈ es, e.1 ≠ k := by
  induction es with
  | nil => simp [getList]
  | cons a es ih =>
    simp only [getList, List.forall_mem_cons]
    split_ifs with h
    · simp [h]
    · simp [h, ih]

theorem mem_of_getList {k : K} {v : V} {es : List (K × V)} (h : getList k es = some v) :
    (k, v) ∈ es := by
  induction es with
  | nil => simp [getList] at h
  | cons a es ih =>
    simp only [getList] at h
    split_ifs at h with hk
    · obtain rfl := Option.some.inj h
      exact hk ▸ List.mem_cons_self
    · exact List.mem_cons_of_mem _ (ih h)

theorem getList_of_mem {k : K} {v : V} {es : List (K × V)} (hs : KeySorted es)
    (h : (k, v) ∈ es) : getList k es = some v := by
  induction es with
  | nil => simp at h
  | cons a es ih =>
    obtain ⟨ha, hes⟩ := List.pairwise_cons.mp hs
    rcases List.mem_cons.mp h with rfl | h
    · simp [getList]
    · simp only [getList, if_neg (ne_of_lt (ha _ h)), ih hes h]

theorem getList_append (k : K) (as bs : List (K × V)) :
    getList k (as ++ bs) = (getList k as).or (getList k bs) := by
  induction as with
  | nil => simp [getList]
  | cons a as ih =>
    simp only [List.cons_append, getList]
    split_ifs <;> simp [ih]

/-- Keys above every stored key are inserted at the end. -/
theorem insertList_of_forall_lt {k : K} {v : V} {es : List (K × V)} (h : ∀ e ∈ es, e.1 < k) :
    insertList k v es = es ++ [(k, v)] := by
  induction es with
  | nil => rfl
  | cons a es ih =>
    have ha : a.1 < k := h a List.mem_cons_self
    simp only [insertList, if_neg ha.asymm, if_neg (ne_of_gt ha), List.cons_append,
      ih fun e he => h e (List.mem_cons_of_mem _ he)]

/-- A key that falls between two parts of an entry list is inserted there. -/
theorem insertList_append {k : K} {v : V} {lo hi : List (K × V)} (hlo : ∀ e ∈ lo, e.1 < k)
    (hhi : ∀ e ∈ hi, k < e.1) : insertList k v (lo ++ hi) = lo ++ (k, v) :: hi := by
  induction lo with
  | nil =>
    cases hi with
    | nil => rfl
    | cons e hi => simp [insertList, hhi e List.mem_cons_self]
  | cons a lo ih =>
    have ha : a.1 < k := hlo a List.mem_cons_self
    simp only [List.cons_append, insertList, if_neg ha.asymm, if_neg (ne_of_gt ha),
      ih fun e he => hlo e (List.mem_cons_of_mem _ he)]

/-- Inserting a key that is present overwrites its entry. -/
theorem insertList_eq_map {k : K} {v : V} {es : List (K × V)} (hs : KeySorted es)
    (hk : ∃ e ∈ es, e.1 = k) :
    insertList k v es = es.map fun e => if e.1 = k then (k, v) else e := by
  induction es with
  | nil => simp at hk
  | cons a es ih =>
    obtain ⟨ha, hes⟩ := List.pairwise_cons.mp hs
    obtain ⟨e, he, rfl⟩ := hk
    rcases List.mem_cons.mp he with rfl | he
    -- the keys behind the head are larger, so the map changes nothing there
    · have htail : es.map (fun b => if b.1 = e.1 then (e.1, v) else b) = es := by
        rw [List.map_congr_left fun b hb => if_neg (ne_of_gt (ha b hb)), List.map_id']
      simp [insertList, htail]
    · have hae := ha e he
      simp only [insertList, if_neg hae.asymm, if_neg (ne_of_gt hae), List.map_cons,
        if_neg (ne_of_lt hae), ih hes ⟨e, he, rfl⟩]

variable (K V) in
/-- A finite map as its key-sorted entries. -/
structure OrdMap where
  entries : List (K × V)
  sorted : KeySorted entries

namespace OrdMap

/-- The map without entries. -/
def empty : OrdMap K V := ⟨[], List.Pairwise.nil⟩

/-- The value stored under `k`. -/
def get (m : OrdMap K V) (k : K) : Option V := getList k m.entries

/-- Insert or overwrite one key. -/
def insert (m : OrdMap K V) (k : K) (v : V) : OrdMap K V :=
  ⟨insertList k v m.entries, m.sorted.insertList⟩

/-- Whether the map has no entry. -/
def isEmpty (m : OrdMap K V) : Bool := m.entries.isEmpty

/-- Insert a list of entries from left to right. -/
def insertAll (m : OrdMap K V) (es : List (K × V)) : OrdMap K V :=
  es.foldl (fun m e => m.insert e.1 e.2) m

/-- Remove one key. -/
def erase (m : OrdMap K V) (k : K) : OrdMap K V :=
  ⟨m.entries.filter fun e => e.1 ≠ k, m.sorted.filter _⟩

@[simp] theorem get_empty (k : K) : (empty : OrdMap K V).get k = none := rfl

theorem get_insert (m : OrdMap K V) (k k' : K) (v : V) :
    (m.insert k v).get k' = if k = k' then some v else m.get k' :=
  getList_insertList k k' v m.entries

@[ext] theorem ext {m m' : OrdMap K V} (h : m.entries = m'.entries) : m = m' := by
  cases m
  cases m'
  simp_all

theorem get_eq_some_iff {m : OrdMap K V} {k : K} {v : V} :
    m.get k = some v ↔ (k, v) ∈ m.entries :=
  ⟨mem_of_getList, getList_of_mem m.sorted⟩

/-- A second insertion under the same key replaces the first. -/
@[simp] theorem insert_insert (m : OrdMap K V) (k : K) (v v' : V) :
    (m.insert k v).insert k v' = m.insert k v' := by
  apply OrdMap.ext
  show insertList k v' (insertList k v m.entries) = insertList k v' m.entries
  induction m.entries with
  | nil => simp [insertList]
  | cons e es ih =>
    by_cases hlt : k < e.1
    · simp [insertList, hlt]
    · by_cases heq : k = e.1
      · simp [insertList, heq]
      · simp [insertList, hlt, heq, ih]

/-- Writing back what a key has changes nothing. -/
theorem insert_eq_self {m : OrdMap K V} {k : K} {v : V} (h : m.get k = some v) :
    m.insert k v = m := by
  have hmem := get_eq_some_iff.mp h
  refine OrdMap.ext ((insertList_eq_map m.sorted ⟨_, hmem, rfl⟩).trans ?_)
  refine (List.map_congr_left fun e he => ?_).trans (List.map_id _)
  split_ifs with hk
  · obtain ⟨k', v'⟩ := e
    obtain rfl : k' = k := hk
    have hget : m.get k' = some v' := get_eq_some_iff.mpr he
    rw [h] at hget
    rw [Option.some.inj hget, id]
  · rfl

theorem get_eq_none_iff {m : OrdMap K V} {k : K} :
    m.get k = none ↔ ∀ e ∈ m.entries, e.1 ≠ k :=
  getList_eq_none_iff

theorem get_erase (m : OrdMap K V) (k k' : K) :
    (m.erase k).get k' = if k = k' then none else m.get k' := by
  split_ifs with h
  · refine get_eq_none_iff.mpr fun e he => ?_
    simp only [erase, List.mem_filter, decide_eq_true_eq] at he
    exact h ▸ he.2
  · cases hg : m.get k' with
    | none =>
      refine get_eq_none_iff.mpr fun e he => ?_
      exact get_eq_none_iff.mp hg e (List.mem_of_mem_filter he)
    | some v =>
      refine get_eq_some_iff.mpr (List.mem_filter.mpr ⟨get_eq_some_iff.mp hg, ?_⟩)
      simpa using Ne.symm h

/-- An insertion adds at most one entry. -/
theorem length_insert_le (m : OrdMap K V) (k : K) (v : V) :
    (m.insert k v).entries.length ≤ m.entries.length + 1 := by
  show (insertList k v m.entries).length ≤ m.entries.length + 1
  induction m.entries with
  | nil => simp [insertList]
  | cons e es ih =>
    rw [insertList]
    split_ifs
    · simp
    · simp
    · simpa using ih

theorem length_insertAll_le (m : OrdMap K V) (es : List (K × V)) :
    (m.insertAll es).entries.length ≤ m.entries.length + es.length := by
  induction es generalizing m with
  | nil => exact le_rfl
  | cons e es ih =>
    have hlen := m.length_insert_le e.1 e.2
    have hrest := ih (m.insert e.1 e.2)
    rw [List.length_cons]
    exact hrest.trans (by omega)

/-- Inserting a list of entries reads the last one for each key over the map. -/
theorem get_insertAll [DecidableEq K] (m : OrdMap K V) (es : List (K × V)) (k : K) :
    (m.insertAll es).get k = (lastOf es k).or (m.get k) := by
  induction es generalizing m with
  | nil => rfl
  | cons e es ih =>
    rw [insertAll, List.foldl_cons]
    refine (ih (m.insert e.1 e.2)).trans ?_
    rw [get_insert, lastOf, Option.or_assoc]
    by_cases h : e.1 = k <;> simp [h]

/-- Set or remove one key. -/
def update (m : OrdMap K V) (k : K) : Option V → OrdMap K V
  | some v => m.insert k v
  | none => m.erase k

/-- Updates from left to right. -/
def updateAll (m : OrdMap K V) (ops : List (K × Option V)) : OrdMap K V :=
  ops.foldl (fun m op => m.update op.1 op.2) m

theorem get_update (m : OrdMap K V) (k k' : K) (o : Option V) :
    (m.update k o).get k' = if k = k' then o else m.get k' := by
  cases o with
  | none => exact get_erase m k k'
  | some v => exact get_insert m k k' v

/-- After a list of updates a key has what the last update to it says, else what it had. -/
theorem get_updateAll [DecidableEq K] (m : OrdMap K V) (ops : List (K × Option V)) (k : K) :
    (m.updateAll ops).get k = (lastOf ops k).getD (m.get k) := by
  induction ops generalizing m with
  | nil => rfl
  | cons op ops ih =>
    refine (ih (m.update op.1 op.2)).trans ?_
    rw [get_update, lastOf]
    cases lastOf ops k with
    | some o => rfl
    | none => by_cases h : op.1 = k <;> simp [h]

theorem get_updateAll_of_not_mem [DecidableEq K] {m : OrdMap K V} {ops : List (K × Option V)} {k : K}
    (h : ∀ o, (k, o) ∉ ops) : (m.updateAll ops).get k = m.get k := by
  have hnone : lastOf ops k = none :=
    lastOf_eq_none_iff.mpr fun op hop heq => h op.2 (by rw [← heq]; exact hop)
  rw [get_updateAll, hnone, Option.getD_none]

theorem get_updateAll_of_mem [DecidableEq K] {m : OrdMap K V} {ops : List (K × Option V)} {k : K}
    {o : Option V} (hmem : (k, o) ∈ ops) (hall : ∀ o', (k, o') ∈ ops → o' = o) :
    (m.updateAll ops).get k = o := by
  rw [get_updateAll]
  cases hlast : lastOf ops k with
  | none => exact absurd rfl (lastOf_eq_none_iff.mp hlast _ hmem)
  | some o' => rw [Option.getD_some, hall o' (mem_of_lastOf hlast)]

/-- An empty map has no value for any key. -/
theorem get_of_isEmpty {m : OrdMap K V} (h : m.isEmpty = true) (k : K) : m.get k = none := by
  rw [isEmpty, List.isEmpty_iff] at h
  simp [get_eq_none_iff, h]

end OrdMap

end Seol.Common
