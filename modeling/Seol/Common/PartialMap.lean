import Mathlib

/-!
# Partial maps under overlay

The meaning of a layered store is one partial map read over another. `overlay` is that reading, `lastOf`
is the map left by a list of writes, and the lemmas say when a layer may be dropped (`Absorbs`) or
moved past another (`overlay_comm_of_disjoint`) without changing any lookup.
-/

namespace Seol.Common

variable {K E : Type*}

/-- Read `f`, and `g` where `f` has nothing. -/
def overlay (f g : K → Option E) : K → Option E := fun k => (f k).or (g k)

/-- No key is bound in both maps. -/
def DisjointMaps (f g : K → Option E) : Prop := ∀ k, f k = none ∨ g k = none

/-- Every binding of `f` is already what `g` answers. -/
def Absorbs (g f : K → Option E) : Prop := ∀ k, f k = none ∨ f k = g k

theorem overlay_apply (f g : K → Option E) (k : K) : overlay f g k = (f k).or (g k) := rfl

@[simp] theorem overlay_none (f : K → Option E) : overlay f (fun _ => none) = f := by
  funext k
  simp [overlay]

@[simp] theorem none_overlay (f : K → Option E) : overlay (fun _ => none) f = f := by
  funext k
  simp [overlay]

theorem overlay_assoc (f g h : K → Option E) : overlay (overlay f g) h = overlay f (overlay g h) := by
  funext k
  simp [overlay, Option.or_assoc]

theorem overlay_comm_of_disjoint {f g : K → Option E} (h : DisjointMaps f g) :
    overlay f g = overlay g f := by
  funext k
  rcases h k with hk | hk <;> simp [overlay, hk]

theorem DisjointMaps.symm {f g : K → Option E} (h : DisjointMaps f g) : DisjointMaps g f :=
  fun k => (h k).symm

theorem Absorbs.overlay_eq {f g : K → Option E} (h : Absorbs g f) : overlay f g = g := by
  funext k
  rcases h k with hk | hk
  · simp [overlay, hk]
  · simp only [overlay, hk, Option.or_self]

theorem absorbs_overlay_self (f g : K → Option E) : Absorbs (overlay f g) f := by
  intro k
  cases hk : f k with
  | none => exact Or.inl rfl
  | some e => exact Or.inr (by simp [overlay, hk])

theorem absorbs_none (g : K → Option E) : Absorbs g (fun _ => none) := fun _ => Or.inl rfl

/-! ## The map left by a list of writes -/

section Writes

variable [DecidableEq K]

/-- The last write to `k` in `ws`, the list being in the order of the writes. -/
def lastOf : List (K × E) → K → Option E
  | [], _ => none
  | w :: ws, k => (lastOf ws k).or (if w.1 = k then some w.2 else none)

@[simp] theorem lastOf_nil : lastOf ([] : List (K × E)) = fun _ => none := rfl

/-- Later writes are read over earlier ones. -/
theorem lastOf_append (as bs : List (K × E)) : lastOf (as ++ bs) = overlay (lastOf bs) (lastOf as) := by
  induction as with
  | nil =>
    funext k
    simp [overlay, lastOf]
  | cons a as ih =>
    funext k
    simp only [List.cons_append, lastOf, ih, overlay, Option.or_assoc]

/-- A map that absorbs all of a list of writes absorbs every suffix of it. -/
theorem Absorbs.suffix {g : K → Option E} {as bs : List (K × E)}
    (h : Absorbs g (lastOf (as ++ bs))) : Absorbs g (lastOf bs) := by
  intro k
  have hk := h k
  rw [lastOf_append] at hk
  cases hb : lastOf bs k with
  | none => exact Or.inl rfl
  | some e =>
    simp only [overlay, hb, Option.some_or, reduceCtorEq, false_or] at hk
    exact Or.inr hk

theorem lastOf_eq_none_iff {ws : List (K × E)} {k : K} :
    lastOf ws k = none ↔ ∀ w ∈ ws, w.1 ≠ k := by
  induction ws with
  | nil => simp [lastOf]
  | cons w ws ih =>
    simp only [lastOf, Option.or_eq_none_iff, ih, List.forall_mem_cons, ite_eq_right_iff,
      reduceCtorEq, imp_false, and_comm]

theorem mem_of_lastOf {ws : List (K × E)} {k : K} {e : E} (h : lastOf ws k = some e) :
    (k, e) ∈ ws := by
  induction ws with
  | nil => simp at h
  | cons w ws ih =>
    rw [lastOf, Option.or_eq_some_iff] at h
    rcases h with h | ⟨-, h⟩
    · exact List.mem_cons_of_mem _ (ih h)
    · by_cases hk : w.1 = k
      · rw [if_pos hk, Option.some.injEq] at h
        subst hk h
        exact List.mem_cons_self
      · simp [hk] at h

/-- The last writes to the keys that are kept. -/
theorem lastOf_filter (p : K → Bool) (ws : List (K × E)) (k : K) :
    lastOf (ws.filter fun w => p w.1) k = if p k then lastOf ws k else none := by
  induction ws with
  | nil => simp
  | cons w ws ih =>
    rw [List.filter_cons]
    by_cases hw : w.1 = k
    · subst hw
      cases hp : p w.1 <;> simp [hp, lastOf, ih]
    · split_ifs with hpw <;> simp_all [lastOf]

/-- With distinct keys every write is the last to its key. -/
theorem lastOf_of_mem {ws : List (K × E)} (hn : (ws.map Prod.fst).Nodup) {w : K × E} (hw : w ∈ ws) :
    lastOf ws w.1 = some w.2 := by
  induction ws with
  | nil => simp at hw
  | cons a ws ih =>
    obtain ⟨ha, hn⟩ := List.nodup_cons.mp hn
    rw [lastOf]
    rcases List.mem_cons.mp hw with rfl | hw
    · rw [lastOf_eq_none_iff.mpr fun b hb heq => ha (List.mem_map.mpr ⟨b, hb, heq⟩)]
      simp
    · rw [ih hn hw, Option.some_or]

end Writes

/-! ## The first answer of numbered layers -/

/-- `r` is the answer of the lowest layer that has one. -/
def FirstAnswer (f : ℕ → Option E) (r : Option E) : Prop :=
  (r = none ∧ ∀ n, f n = none) ∨ ∃ n, r ≠ none ∧ f n = r ∧ ∀ i < n, f i = none

theorem FirstAnswer.unique {f : ℕ → Option E} {r r' : Option E} (h : FirstAnswer f r)
    (h' : FirstAnswer f r') : r = r' := by
  rcases h with ⟨rfl, hnone⟩ | ⟨n, hr, rfl, hlt⟩ <;>
    rcases h' with ⟨rfl, hnone'⟩ | ⟨n', hr', rfl, hlt'⟩
  · rfl
  · exact (hnone n').symm
  · exact hnone' n
  · rcases lt_trichotomy n n' with h | rfl | h
    · exact absurd (hlt' n h) hr
    · rfl
    · exact absurd (hlt n' h) hr'

/-- The answer of a layer that is the first to have one. -/
theorem FirstAnswer.eq_some {f : ℕ → Option E} {r : Option E} (h : FirstAnswer f r) {n : ℕ} {e : E}
    (hn : f n = some e) (hlt : ∀ i < n, f i = none) : r = some e :=
  h.unique (Or.inr ⟨n, by simp, hn, hlt⟩)

theorem FirstAnswer.eq_none {f : ℕ → Option E} {r : Option E} (h : FirstAnswer f r)
    (hf : ∀ n, f n = none) : r = none := h.unique (Or.inl ⟨rfl, hf⟩)

/-- Asking the layers of an ascending list that leaves out only silent ones. -/
theorem firstAnswer_findSome? {f : ℕ → Option E} {l : List ℕ} (hs : l.Pairwise (· < ·))
    (hcover : ∀ n ∉ l, f n = none) : FirstAnswer f (l.findSome? f) := by
  cases hr : l.findSome? f with
  | none =>
    refine Or.inl ⟨rfl, fun n => ?_⟩
    by_cases hn : n ∈ l
    · exact List.findSome?_eq_none_iff.mp hr n hn
    · exact hcover n hn
  | some v =>
    obtain ⟨as, n, bs, rfl, hn, has⟩ := List.findSome?_eq_some_iff.mp hr
    refine Or.inr ⟨n, by simp, hn, fun i hi => ?_⟩
    by_cases hmem : i ∈ as ++ n :: bs
    · rcases List.mem_append.mp hmem with hia | hib
      · exact has i hia
      · -- entries from `n` on are not below `n`
        have hge := (List.pairwise_append.mp hs).2.1
        rcases List.mem_cons.mp hib with rfl | hib
        · exact absurd hi (lt_irrefl _)
        · exact absurd hi ((List.pairwise_cons.mp hge).1 i hib).asymm
    · exact hcover i hmem

/-- Two searches through the same candidates agree when one relation orders the answers of both. -/
theorem findSome?_eq_of_pairwise {α : Type*} {f : α → Option E} {l l' : List α}
    {before : α → α → Prop} (hasymm : ∀ a b, before a b → ¬ before b a)
    (hmem : ∀ a, a ∈ l ↔ a ∈ l')
    (h : l.Pairwise fun a b => f a ≠ none → f b ≠ none → before a b)
    (h' : l'.Pairwise fun a b => f a ≠ none → f b ≠ none → before a b) :
    l.findSome? f = l'.findSome? f := by
  -- another answer comes after the first one
  have hfirst : ∀ l : List α, (l.Pairwise fun a b => f a ≠ none → f b ≠ none → before a b) →
      ∀ v, l.findSome? f = some v → ∃ a ∈ l, f a = some v ∧
        ∀ b ∈ l, f b ≠ none → b = a ∨ before a b := by
    intro l hl v hv
    obtain ⟨as, a, bs, rfl, ha, has⟩ := List.findSome?_eq_some_iff.mp hv
    refine ⟨a, by simp, ha, fun b hb hne => ?_⟩
    rcases List.mem_append.mp hb with hb | hb
    · exact absurd (has b hb) hne
    · rcases List.mem_cons.mp hb with rfl | hb
      · exact .inl rfl
      · have hafter := (List.pairwise_cons.mp (List.pairwise_append.mp hl).2.1).1 b hb
        exact .inr (hafter (by simp [ha]) hne)
  cases hv : l.findSome? f with
  | none =>
    refine (List.findSome?_eq_none_iff.mpr fun a ha => ?_).symm
    exact List.findSome?_eq_none_iff.mp hv a ((hmem a).mpr ha)
  | some v =>
    obtain ⟨a, ha, hfa, hall⟩ := hfirst l h v hv
    cases hv' : l'.findSome? f with
    | none => exact absurd (List.findSome?_eq_none_iff.mp hv' a ((hmem a).mp ha)) (by simp [hfa])
    | some v' =>
      obtain ⟨a', ha', hfa', hall'⟩ := hfirst l' h' v' hv'
      have hsame : a = a' := by
        rcases hall a' ((hmem a').mpr ha') (by simp [hfa']) with heq | hlt
        · exact heq.symm
        · rcases hall' a ((hmem a).mp ha) (by simp [hfa]) with heq | hlt'
          · exact heq
          · exact absurd hlt' (hasymm _ _ hlt)
      rw [← hfa, ← hfa', hsame]

end Seol.Common
