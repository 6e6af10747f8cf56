import Mathlib

/-!
# Chains of pointers

A list that is stored as pointers: `Chain next nil x l` says that following `next` from `x` visits
the cells `l` in order and ends with `nil`. Splicing a cell in writes two pointers.
-/

namespace Seol.Common

variable {α : Type*} {next next' : α → α} {nil x y : α} {l as bs : List α}

/-- Following `next` from a cell visits the given cells and ends with `nil`. -/
def Chain (next : α → α) (nil : α) : α → List α → Prop
  | x, [] => next x = nil
  | x, y :: l => next x = y ∧ Chain next nil y l

namespace Chain

theorem head_eq (h : Chain next nil x l) : next x = l.headD nil := by
  cases l with
  | nil => exact h
  | cons y l => exact h.1

/-- A chain depends on the pointers of its cells only. -/
theorem congr (h : Chain next nil x l) (heq : ∀ z ∈ x :: l, next' z = next z) :
    Chain next' nil x l := by
  induction l generalizing x with
  | nil => exact (heq x List.mem_cons_self).trans h
  | cons y l ih =>
    refine ⟨(heq x List.mem_cons_self).trans h.1, ih h.2 fun z hz => ?_⟩
    exact heq z (List.mem_cons_of_mem _ hz)

/-- The pointers determine the cells. -/
theorem unique {l' : List α} (h : Chain next nil x l) (h' : Chain next nil x l') (hl : nil ∉ l)
    (hl' : nil ∉ l') : l = l' := by
  induction l generalizing x l' with
  | nil =>
    cases l' with
    | nil => rfl
    -- one chain ends where the other goes on, so `nil` would be one of its cells
    | cons y l' => exact absurd (h.symm.trans h'.1 ▸ List.mem_cons_self) hl'
  | cons y l ih =>
    cases l' with
    | nil => exact absurd (h'.symm.trans h.1 ▸ List.mem_cons_self) hl
    | cons z l' =>
      obtain rfl : y = z := h.1.symm.trans h'.1
      rw [ih h.2 h'.2 (fun hmem => hl (List.mem_cons_of_mem _ hmem)) fun hmem =>
        hl' (List.mem_cons_of_mem _ hmem)]

/-- A cell of the chain points at another one, or at the end. -/
theorem next_mem (h : Chain next nil x l) (hy : y ∈ x :: l) : next y = nil ∨ next y ∈ l := by
  induction l generalizing x with
  | nil =>
    obtain rfl := List.mem_singleton.mp hy
    exact Or.inl h
  | cons z l ih =>
    rcases List.mem_cons.mp hy with rfl | hy
    · exact Or.inr (h.1 ▸ List.mem_cons_self)
    · exact (ih h.2 hy).imp_right (List.mem_cons_of_mem _)

/-- The cell behind a part of the chain. -/
theorem next_getLastD (h : Chain next nil x (as ++ bs)) : next (as.getLastD x) = bs.headD nil := by
  induction as generalizing x with
  | nil => exact h.head_eq
  | cons a as ih =>
    rw [List.getLastD_cons]
    exact ih h.2

/-- The rest of a chain from one of its cells on. -/
theorem drop (h : Chain next nil x (as ++ y :: bs)) : Chain next nil y bs := by
  induction as generalizing x with
  | nil => exact h.2
  | cons a as ih => exact ih h.2

/-- **Splicing a cell in**: point it at what follows, and its predecessor at it. -/
theorem splice [DecidableEq α] (h : Chain next nil x (as ++ bs)) (hnodup : (x :: (as ++ bs)).Nodup)
    (hnew : y ∉ x :: (as ++ bs)) :
    Chain (Function.update (Function.update next y (bs.headD nil)) (as.getLastD x) y) nil x
      (as ++ y :: bs) := by
  induction as generalizing x with
  | nil =>
    -- `y` goes right behind `x`
    have hyx : y ≠ x := fun heq => hnew (heq ▸ List.mem_cons_self)
    refine ⟨Function.update_self .., ?_⟩
    rw [List.getLastD_nil]
    cases bs with
    | nil =>
      show Function.update (Function.update next y nil) x y y = nil
      rw [Function.update_of_ne hyx, Function.update_self]
    | cons b bs =>
      refine ⟨?_, h.2.congr fun z hz => ?_⟩
      · rw [Function.update_of_ne hyx, Function.update_self, List.headD_cons]
      -- the two updated cells are not among those that follow
      · have hzx : z ≠ x := fun heq => (List.nodup_cons.mp hnodup).1 (heq ▸ hz)
        have hzy : z ≠ y := fun heq => hnew (heq ▸ List.mem_cons_of_mem _ hz)
        rw [Function.update_of_ne hzx, Function.update_of_ne hzy]
  | cons a as ih =>
    obtain ⟨hx, hnodup'⟩ := List.nodup_cons.mp hnodup
    have hlast : as.getLastD a ∈ a :: as := List.getLastD_mem_cons
    -- the updated predecessor is further down, so the pointer of `x` stays
    have hne : x ≠ as.getLastD a := by
      intro heq
      rw [heq] at hx
      refine hx ?_
      rw [List.cons_append, ← List.cons_append]
      exact List.mem_append_left _ hlast
    have hxy : x ≠ y := fun heq => hnew (heq ▸ List.mem_cons_self)
    rw [List.getLastD_cons]
    refine ⟨?_, ih h.2 hnodup' fun hmem => hnew (List.mem_cons_of_mem _ hmem)⟩
    rw [Function.update_of_ne hne, Function.update_of_ne hxy]
    exact h.1

end Chain

end Seol.Common
