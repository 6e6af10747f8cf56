import Mathlib.Order.Bounds.Basic
import Mathlib.Order.SetNotation

/-!
# Closure of intervals under their hull

Items `t` carry the interval from `lo t` to `hi t`. The hull of a set of items spans from the least
lower end to the greatest upper end. `HullClosed` sets contain every item that meets their hull, and
a closed set that was built by adding such items one at a time is the least one.
-/

namespace Seol.Common

variable {ι α : Type} [LinearOrder α] (lo hi : ι → α)

/-- The interval of `t` meets the hull of `S`. -/
def MeetsHull (S : Set ι) (t : ι) : Prop := (∃ a ∈ S, lo a ≤ hi t) ∧ ∃ b ∈ S, lo t ≤ hi b

/-- Every item of `U` that meets the hull of `S` is in `S`. -/
def HullClosed (U S : Set ι) : Prop := ∀ t ∈ U, MeetsHull lo hi S t → t ∈ S

/-- `S` is built from `start` by adding items of `U` that meet the hull of what is there already. -/
inductive GrownFrom (U : Set ι) (start : ι) : Set ι → Prop
  | single : GrownFrom U start {start}
  | add {S : Set ι} {t : ι} (hS : GrownFrom U start S) (ht : t ∈ U) (hmeets : MeetsHull lo hi S t) :
      GrownFrom U start (insert t S)

variable {lo hi}

theorem MeetsHull.mono {S S' : Set ι} {t : ι} (h : MeetsHull lo hi S t) (hsub : S ⊆ S') :
    MeetsHull lo hi S' t := by
  obtain ⟨⟨a, ha, hlo⟩, b, hb, hhi⟩ := h
  exact ⟨⟨a, hsub ha, hlo⟩, b, hsub hb, hhi⟩

/-- Against the ends of the hull, meeting it is the comparison of two intervals. -/
theorem meetsHull_iff {S : Set ι} {l u : α} (hl : IsLeast (lo '' S) l)
    (hu : IsGreatest (hi '' S) u) (t : ι) : MeetsHull lo hi S t ↔ l ≤ hi t ∧ lo t ≤ u := by
  constructor
  · rintro ⟨⟨a, ha, hlo⟩, b, hb, hhi⟩
    exact ⟨(hl.2 ⟨a, ha, rfl⟩).trans hlo, hhi.trans (hu.2 ⟨b, hb, rfl⟩)⟩
  · rintro ⟨hlo, hhi⟩
    obtain ⟨a, ha, rfl⟩ := hl.1
    obtain ⟨b, hb, rfl⟩ := hu.1
    exact ⟨⟨a, ha, hlo⟩, b, hb, hhi⟩

/-- Growing never leaves a closed set. -/
theorem GrownFrom.subset {U S C : Set ι} {start : ι} (h : GrownFrom lo hi U start S)
    (hstart : start ∈ C) (hclosed : HullClosed lo hi U C) : S ⊆ C := by
  induction h with
  | single => exact Set.singleton_subset_iff.mpr hstart
  | add _ ht hmeets ih => exact Set.insert_subset (hclosed _ ht (hmeets.mono ih)) ih

theorem GrownFrom.start_mem {U S : Set ι} {start : ι} (h : GrownFrom lo hi U start S) :
    start ∈ S := by
  induction h with
  | single => rfl
  | add _ _ _ ih => exact Set.mem_insert_of_mem _ ih

/-- **A closed set grown from `start` is the least closed set that contains it.** -/
theorem GrownFrom.isLeast {U S : Set ι} {start : ι} (h : GrownFrom lo hi U start S)
    (hclosed : HullClosed lo hi U S) :
    IsLeast { C : Set ι | start ∈ C ∧ HullClosed lo hi U C } S :=
  ⟨⟨h.start_mem, hclosed⟩, fun _ hC => h.subset hC.1 hC.2⟩

end Seol.Common
