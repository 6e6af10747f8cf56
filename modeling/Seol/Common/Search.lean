import Mathlib

/-!
# Binary search

`search n f` is the half-open bisection of `sort.Search`: on a predicate that is false and then true
it returns the first index in `[0, n)` where the predicate holds, or `n`.
-/

namespace Seol.Common

/-- One bisection of `[i, j)` for each unit of fuel. -/
def searchLoop (f : ℕ → Bool) : ℕ → ℕ → ℕ → ℕ
  | 0, i, _ => i
  | fuel + 1, i, j =>
    if i < j then
      let h := (i + j) / 2
      if f h then searchLoop f fuel i h else searchLoop f fuel (h + 1) j
    else i

/-- `sort.Search`: every round shortens the interval, so `n` rounds suffice. -/
def search (n : ℕ) (f : ℕ → Bool) : ℕ := searchLoop f n 0 n

/-- The predicate switches from false to true at most once below `n`. -/
def SwitchesOnce (n : ℕ) (f : ℕ → Bool) : Prop :=
  ∀ i j, i ≤ j → j < n → f i = true → f j = true

/-- What a search over `[0, n)` may return: the border between false and true. -/
structure IsBorder (n : ℕ) (f : ℕ → Bool) (r : ℕ) : Prop where
  le : r ≤ n
  below : ∀ i < r, f i = false
  above : ∀ i, r ≤ i → i < n → f i = true

theorem searchLoop_isBorder {n : ℕ} {f : ℕ → Bool} (hf : SwitchesOnce n f) (fuel i j : ℕ)
    (hij : i ≤ j) (hjn : j ≤ n) (hfuel : j - i ≤ fuel) (hlo : ∀ k < i, f k = false)
    (hhi : ∀ k, j ≤ k → k < n → f k = true) : IsBorder n f (searchLoop f fuel i j) := by
  induction fuel generalizing i j with
  | zero =>
    obtain rfl : i = j := by omega
    exact ⟨hjn, hlo, hhi⟩
  | succ fuel ih =>
    simp only [searchLoop]
    by_cases hlt : i < j
    · rw [if_pos hlt]
      cases hm : f ((i + j) / 2) with
      | true =>
        rw [if_pos rfl]
        refine ih i _ (by omega) (by omega) (by omega) hlo fun k hk hkn => ?_
        exact hf _ k hk hkn hm
      | false =>
        rw [if_neg (by simp)]
        refine ih _ j (by omega) hjn (by omega) (fun k hk => ?_) hhi
        -- a true value at or below the midpoint would force the midpoint to be true
        by_contra hne
        have hk' : f k = true := by simpa using hne
        have := hf k ((i + j) / 2) (by omega) (by omega) hk'
        simp [hm] at this
    · rw [if_neg hlt]
      obtain rfl : i = j := by omega
      exact ⟨hjn, hlo, hhi⟩

theorem searchLoop_le (f : ℕ → Bool) (fuel : ℕ) {i j : ℕ} (hij : i ≤ j) :
    searchLoop f fuel i j ≤ j := by
  induction fuel generalizing i j with
  | zero => exact hij
  | succ fuel ih =>
    simp only [searchLoop]
    split_ifs with hlt hf
    · exact (ih (by omega)).trans (by omega)
    · exact ih (by omega)
    · exact hij

/-- The result is in range for every predicate. -/
theorem search_le (n : ℕ) (f : ℕ → Bool) : search n f ≤ n := searchLoop_le f n (Nat.zero_le n)

/-- **`search` finds the border** of every predicate that switches once. -/
theorem search_isBorder {n : ℕ} {f : ℕ → Bool} (hf : SwitchesOnce n f) :
    IsBorder n f (search n f) :=
  searchLoop_isBorder hf n 0 n (Nat.zero_le n) le_rfl (by omega) (by simp) fun k hk hkn => by omega

/-- The border is unique, so a search is determined by any border one can name. -/
theorem IsBorder.eq {n : ℕ} {f : ℕ → Bool} {r s : ℕ} (hr : IsBorder n f r)
    (hs : IsBorder n f s) : r = s := by
  rcases lt_trichotomy r s with h | h | h
  · have h1 := hs.below r h
    have h2 := hr.above r le_rfl (lt_of_lt_of_le h hs.le)
    simp [h1] at h2
  · exact h
  · have h1 := hr.below s h
    have h2 := hs.above s le_rfl (lt_of_lt_of_le h hr.le)
    simp [h1] at h2

theorem IsBorder.switchesOnce {n : ℕ} {f : ℕ → Bool} {r : ℕ} (h : IsBorder n f r) :
    SwitchesOnce n f := by
  intro i j hij hj hi
  have hr : r ≤ i := by
    by_contra hlt
    rw [h.below i (not_le.mp hlt)] at hi
    cases hi
  exact h.above j (hr.trans hij) hj

/-- A search finds the border there is. -/
theorem IsBorder.search_eq {n : ℕ} {f : ℕ → Bool} {r : ℕ} (h : IsBorder n f r) : search n f = r :=
  (search_isBorder h.switchesOnce).eq h

end Seol.Common
