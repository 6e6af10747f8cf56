import Mathlib.Data.List.Induction
import Mathlib.Data.List.Sort
import Mathlib.Logic.Function.Basic

/-!
# Sorting by an unknown algorithm, and grouping by a key

`SortsSlices` says of a sorting function only that it permutes its input and leaves no pair in the
wrong order; equal elements may end up either way round. `groupBy` is the loop that collects a list
into one group for each key and remembers the keys in the order in which they first came.
-/

namespace Seol.Common

variable {α K : Type}

/-- A comparison that a sort may be given: no two elements are each less than the other, and being
not greater is transitive. -/
structure WeakOrder (less : α → α → Bool) : Prop where
  total : ∀ a b, less b a = false ∨ less a b = false
  trans : ∀ a b c, less b a = false → less c b = false → less c a = false

/-- What a sort guarantees that need not be stable. -/
structure SortsSlices (sortSlice : (α → α → Bool) → List α → List α) : Prop where
  perm : ∀ less l, (sortSlice less l).Perm l
  sorted : ∀ less l, WeakOrder less → (sortSlice less l).Pairwise fun a b => less b a = false

/-- Insertion sort is such a sort. -/
theorem sortsSlices_insertionSort :
    SortsSlices fun (less : α → α → Bool) l => l.insertionSort fun a b => less b a = false where
  perm less l := List.perm_insertionSort _ l
  sorted less l h := by
    have htotal : Std.Total fun a b => less b a = false := ⟨h.total⟩
    have htrans : IsTrans α fun a b => less b a = false := ⟨h.trans⟩
    exact List.pairwise_insertionSort _ l

/-! ## Groups -/

/-- The groups collected so far, and their keys in the order of first appearance. -/
structure Groups (K α : Type) where
  groups : K → List α
  keys : List K

variable [DecidableEq K] (key : α → K)

/-- One element joins its group; a key is recorded when it is new. -/
def Groups.add (g : Groups K α) (a : α) : Groups K α where
  groups := Function.update g.groups (key a) (g.groups (key a) ++ [a])
  keys := if key a ∈ g.keys then g.keys else g.keys ++ [key a]

/-- The grouping loop. -/
def groupBy (l : List α) : Groups K α := l.foldl (Groups.add key) ⟨fun _ => [], []⟩

theorem groupBy_concat (l : List α) (a : α) :
    groupBy key (l ++ [a]) = (groupBy key l).add key a := by
  simp [groupBy, List.foldl_append]

/-- A group holds the elements with its key, in the order of the list. -/
theorem groupBy_groups (l : List α) (k : K) :
    (groupBy key l).groups k = l.filter fun a => key a = k := by
  induction l using List.reverseRecOn with
  | nil => rfl
  | append_singleton l a ih =>
    rw [groupBy_concat, Groups.add, List.filter_append]
    by_cases hk : key a = k
    · subst hk
      simp [ih]
    · simp [Function.update_of_ne (Ne.symm hk), ih, hk]

/-- The keys are distinct, and they are those of the list. -/
theorem groupBy_keys (l : List α) :
    (groupBy key l).keys.Nodup ∧ ∀ k, k ∈ (groupBy key l).keys ↔ ∃ a ∈ l, key a = k := by
  -- from the end of the list, as the loop adds one element at a time
  induction l using List.reverseRecOn with
  | nil => simp [groupBy]
  | append_singleton l a ih =>
    obtain ⟨hnodup, hmem⟩ := ih
    rw [groupBy_concat, Groups.add]
    dsimp only
    by_cases hseen : key a ∈ (groupBy key l).keys
    · rw [if_pos hseen]
      refine ⟨hnodup, fun k => (hmem k).trans ?_⟩
      simp only [List.mem_append, List.mem_singleton, or_and_right, exists_or, exists_eq_left]
      refine ⟨Or.inl, ?_⟩
      rintro (hk | rfl)
      · exact hk
      · exact (hmem _).mp hseen
    -- a new key goes to the end of the list of keys
    · rw [if_neg hseen]
      refine ⟨List.nodup_append.mpr ⟨hnodup, List.nodup_singleton _, ?_⟩, fun k => ?_⟩
      · rintro k hk k' hk' rfl
        exact hseen (List.mem_singleton.mp hk' ▸ hk)
      · simp only [List.mem_append, List.mem_singleton, or_and_right, exists_or, exists_eq_left,
          hmem k]
        exact or_congr_right eq_comm

end Seol.Common
