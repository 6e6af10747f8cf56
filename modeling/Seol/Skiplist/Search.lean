import Seol.Skiplist.List

/-!
# Searching a skiplist

On towers whose levels are key-sorted sublists of one another (`Skiplist.Linked`) the descent of
`Put` and the walk of `Get` split every level at the key they look for: `Skiplist.lower` is the part
before it, `Skiplist.upper` the rest, `Skiplist.pred` the last node of the former.
-/

namespace Seol

open Common

namespace Skiplist

/-- The shape of the towers: the bottom level is sorted by key, each level is a sublist of the level
below, and nothing is linked at or above the list's height. -/
structure Linked (s : Skiplist) : Prop where
  sorted : (s.levels 0).Pairwise fun a b => s.key a < s.key b
  sublist : ∀ i, (s.levels (i + 1)).Sublist (s.levels i)
  empty_above : ∀ i, s.height ≤ i → s.levels i = []
  height_pos : 0 < s.height
  head_not_mem : s.head ∉ s.levels 0
  zero_not_mem : 0 ∉ s.head :: s.levels 0

/-- The nodes of a level with a key below `k`. -/
def lower (s : Skiplist) (k : Bytes) (i : ℕ) : List ℕ := (s.levels i).filter fun o => s.key o < k

/-- The nodes of a level with a key from `k` on. -/
def upper (s : Skiplist) (k : Bytes) (i : ℕ) : List ℕ := (s.levels i).filter fun o => !(s.key o < k)

/-- The last node of a level with a key below `k`, or the head. -/
def pred (s : Skiplist) (k : Bytes) (i : ℕ) : ℕ := (s.lower k i).getLastD s.head

/-- The node that `findNear` looks for. -/
def near (s : Skiplist) (k : Bytes) (less allowEqual : Bool) : Option ℕ :=
  match less, allowEqual with
  | false, true => (s.upper k 0).head?
  | false, false => ((s.levels 0).filter fun o => k < s.key o).head?
  | true, true => ((s.levels 0).filter fun o => s.key o ≤ k).getLast?
  | true, false => (s.lower k 0).getLast?

theorem mem_lower {s : Skiplist} {k : Bytes} {i o : ℕ} :
    o ∈ s.lower k i ↔ o ∈ s.levels i ∧ s.key o < k := by
  simp [lower]

theorem mem_upper {s : Skiplist} {k : Bytes} {i o : ℕ} :
    o ∈ s.upper k i ↔ o ∈ s.levels i ∧ k ≤ s.key o := by
  simp [upper]

theorem pred_mem (s : Skiplist) (k : Bytes) (i : ℕ) : s.pred k i ∈ s.head :: s.lower k i :=
  List.getLastD_mem_cons

theorem cons_lower_subset (s : Skiplist) (k : Bytes) (i : ℕ) :
    s.head :: s.lower k i ⊆ s.head :: s.levels i :=
  List.cons_subset_cons _ fun _ ho => (mem_lower.mp ho).1

/-- A sorted list is its part below `k` followed by the rest: both are sorted, and they hold the
same elements. -/
theorem filter_below_append {α : Type*} {f : α → Bytes} {l : List α} (k : Bytes)
    (h : l.Pairwise fun a b => f a < f b) :
    (l.filter fun a => f a < k) ++ (l.filter fun a => !(f a < k)) = l := by
  refine List.Perm.eq_of_pairwise ?_ ?_ h (List.filter_append_perm _ l)
  · intro a b _ _ hab hba
    exact absurd hab hba.asymm
  · refine List.pairwise_append.mpr ⟨h.filter _, h.filter _, fun a ha b hb => ?_⟩
    simp only [List.mem_filter, decide_eq_true_eq, Bool.not_eq_true', decide_eq_false_iff_not,
      not_lt] at ha hb
    exact ha.2.trans_le hb.2

namespace Linked

variable {s : Skiplist} (h : s.Linked)

include h

theorem sublist_zero (i : ℕ) : (s.levels i).Sublist (s.levels 0) := by
  induction i with
  | zero => exact List.Sublist.refl _
  | succ i ih => exact (h.sublist i).trans ih

theorem sorted_level (i : ℕ) : (s.levels i).Pairwise fun a b => s.key a < s.key b :=
  h.sorted.sublist (h.sublist_zero i)

theorem mem_zero {i o : ℕ} (ho : o ∈ s.levels i) : o ∈ s.levels 0 := (h.sublist_zero i).subset ho

theorem head_ne {i o : ℕ} (ho : o ∈ s.levels i) : o ≠ s.head := by
  rintro rfl
  exact h.head_not_mem (h.mem_zero ho)

theorem ne_zero {i o : ℕ} (ho : o ∈ s.head :: s.levels i) : o ≠ 0 := by
  rintro rfl
  exact h.zero_not_mem (List.cons_subset_cons _ (h.sublist_zero i).subset ho)

theorem nodup_level (i : ℕ) : (s.levels i).Nodup := by
  refine (h.sorted_level i).imp fun hab heq => ?_
  rw [heq] at hab
  exact lt_irrefl _ hab

/-- The level split at `k`. -/
theorem lower_append_upper (k : Bytes) (i : ℕ) : s.lower k i ++ s.upper k i = s.levels i :=
  filter_below_append k (h.sorted_level i)

theorem lower_sublist (k : Bytes) (i : ℕ) : (s.lower k (i + 1)).Sublist (s.lower k i) :=
  (h.sublist i).filter _

theorem upper_sublist (k : Bytes) (i : ℕ) : (s.upper k (i + 1)).Sublist (s.upper k i) :=
  (h.sublist i).filter _

omit h in
theorem after_head (s : Skiplist) (i : ℕ) : s.after s.head i = s.levels i := by
  simp [after]

/-- The nodes linked after a node are those behind it in the level. -/
theorem after_of_split {i o : ℕ} {as bs : List ℕ} (hlevel : s.levels i = as ++ o :: bs) :
    s.after o i = bs := by
  have hmem : o ∈ s.levels i := hlevel ▸ List.mem_append_right _ List.mem_cons_self
  -- the node occurs once, behind the head sentinel
  have hnot : ∀ p ∈ s.head :: as, p ≠ o := by
    intro p hp heq
    rcases List.mem_cons.mp hp with rfl | hp
    · exact h.head_ne hmem heq.symm
    · have hnodup := h.nodup_level i
      rw [hlevel, List.nodup_append] at hnodup
      exact hnodup.2.2 p hp o List.mem_cons_self heq
  have hcons : s.head :: s.levels i = (s.head :: as) ++ o :: bs := by
    rw [hlevel, List.cons_append]
  rw [after, hcons, List.dropWhile_append_of_pos (by simpa using hnot)]
  simp

/-- The nodes linked after one that is below `k`: first the rest of those below, then the others. -/
theorem after_eq {k : Bytes} {i before : ℕ} (hb : before ∈ s.head :: s.lower k i) :
    ∃ lo, s.after before i = lo ++ s.upper k i ∧ (∀ o ∈ lo, s.key o < k) ∧
      lo.getLastD before = s.pred k i := by
  have hsplit := h.lower_append_upper k i
  rcases List.mem_cons.mp hb with rfl | hb
  · refine ⟨s.lower k i, ?_, fun o ho => (mem_lower.mp ho).2, rfl⟩
    rw [after_head, hsplit]
  · obtain ⟨as, bs, hab⟩ := List.append_of_mem hb
    have hlevel : s.levels i = as ++ before :: (bs ++ s.upper k i) := by
      rw [← hsplit, hab, List.append_assoc, List.cons_append]
    refine ⟨bs, h.after_of_split hlevel, fun o ho => ?_, ?_⟩
    · have hlow : o ∈ s.lower k i := by
        rw [hab]
        exact List.mem_append_right _ (List.mem_cons_of_mem _ ho)
      exact (mem_lower.mp hlow).2
    -- the last node below the key is the last behind `before`, or `before` itself
    · rw [pred, hab, ← List.getLastD_cons (a := s.head), List.getLastD_eq_getLast?,
        List.getLastD_eq_getLast?, List.getLast?_append]
      cases hl : (before :: bs).getLast? with
      | none => simp at hl
      | some o => rfl

theorem length_after_le (o i : ℕ) : (s.after o i).length ≤ (s.levels 0).length := by
  refine le_trans ?_ (h.sublist_zero i).length_le
  have hlen := (List.dropWhile_sublist (l := s.head :: s.levels i) (p := (· ≠ o))).length_le
  rw [after, List.length_tail]
  rw [List.length_cons] at hlen
  omega

omit h in
/-- The splice loop skips the nodes below the key. -/
theorem spliceFrom_append {k : Bytes} {before : ℕ} {lo : List ℕ} (hlo : ∀ o ∈ lo, s.key o < k)
    (hi : List ℕ) :
    s.spliceFrom k before (lo ++ hi) = s.spliceFrom k (lo.getLastD before) hi := by
  induction lo generalizing before with
  | nil => rfl
  | cons a lo ih =>
    have ha : s.key a < k := hlo a List.mem_cons_self
    rw [List.cons_append, spliceFrom, if_neg (ne_of_gt ha), if_neg ha.asymm,
      ih fun o ho => hlo o (List.mem_cons_of_mem _ ho), List.getLastD_cons]

omit h in
/-- So does the walk of `findNear`. -/
theorem walk_append {k : Bytes} {x : ℕ} {lo : List ℕ} (hlo : ∀ o ∈ lo, s.key o < k)
    {hi : List ℕ} (hhi : ∀ o ∈ hi, k ≤ s.key o) :
    s.walk k x (lo ++ hi) = (lo.getLastD x, hi.head?) := by
  induction lo generalizing x with
  | nil =>
    cases hi with
    | nil => rfl
    | cons o hi => simp [walk, hhi o List.mem_cons_self]
  | cons a lo ih =>
    rw [List.cons_append, walk, if_pos (hlo a List.mem_cons_self),
      ih fun o ho => hlo o (List.mem_cons_of_mem _ ho), List.getLastD_cons]

/-- The walk along one level stops in front of the first node from the key on. -/
theorem walk_eq {i before : ℕ} (hb : before ∈ s.head :: s.lower k i) :
    s.walk k before (s.after before i) = (s.pred k i, (s.upper k i).head?) := by
  obtain ⟨lo, hafter, hlo, hlast⟩ := h.after_eq hb
  rw [hafter, walk_append hlo fun o ho => (mem_upper.mp ho).2, hlast]

/-- The first node from `k` on is the one with key `k`, where a level has it. -/
theorem head_upper_of_mem {k : Bytes} {i o : ℕ} (ho : o ∈ s.levels i) (hk : s.key o = k) :
    ∃ rest, s.upper k i = o :: rest := by
  have hmem : o ∈ s.upper k i := mem_upper.mpr ⟨ho, hk.ge⟩
  cases hu : s.upper k i with
  | nil => simp [hu] at hmem
  | cons a rest =>
    have hsorted : (a :: rest).Pairwise fun a b => s.key a < s.key b := by
      rw [← hu]
      exact (h.sorted_level i).filter _
    rw [hu] at hmem
    rcases List.mem_cons.mp hmem with rfl | hmem
    · exact ⟨rest, rfl⟩
    · -- a node before it would be below `k`, against the definition of the upper part
      have hlt := (List.pairwise_cons.mp hsorted).1 o hmem
      have ha : k ≤ s.key a := (mem_upper.mp (hu ▸ List.mem_cons_self)).2
      rw [hk] at hlt
      exact absurd ha hlt.not_ge

/-- Distinct nodes of a level have distinct keys. -/
theorem key_inj {i o p : ℕ} (ho : o ∈ s.levels i) (hp : p ∈ s.levels i) (hk : s.key o = s.key p) :
    o = p := by
  obtain ⟨rest, hu⟩ := h.head_upper_of_mem ho hk
  obtain ⟨rest', hu'⟩ := h.head_upper_of_mem hp rfl
  rw [hu] at hu'
  exact (List.cons.inj hu').1

/-- `findSpliceForLevel` from a node below `k` finds the node with key `k`, if the level has it. -/
theorem findSpliceForLevel_of_mem {k : Bytes} {i before o : ℕ}
    (hb : before ∈ s.head :: s.lower k i) (ho : o ∈ s.levels i) (hk : s.key o = k) :
    s.findSpliceForLevel k before i = (o, o) := by
  obtain ⟨lo, hafter, hlo, -⟩ := h.after_eq hb
  obtain ⟨rest, hupper⟩ := h.head_upper_of_mem ho hk
  rw [findSpliceForLevel, hafter, spliceFrom_append hlo, hupper, spliceFrom, if_pos hk.symm]

/-- Otherwise it finds the predecessor of `k` and the node behind it, which differ. -/
theorem findSpliceForLevel_of_not_mem {k : Bytes} {i before : ℕ}
    (hb : before ∈ s.head :: s.lower k i) (hk : ∀ o ∈ s.levels i, s.key o ≠ k) :
    s.findSpliceForLevel k before i = (s.pred k i, (s.upper k i).headD 0) ∧
      s.pred k i ≠ (s.upper k i).headD 0 := by
  obtain ⟨lo, hafter, hlo, hlast⟩ := h.after_eq hb
  have hpred := s.pred_mem k i
  rw [findSpliceForLevel, hafter, spliceFrom_append hlo, hlast]
  -- no node is left behind the predecessor, or the first one has a greater key
  cases hu : s.upper k i with
  | nil =>
    refine ⟨rfl, fun heq => h.zero_not_mem ?_⟩
    rw [heq] at hpred
    exact List.cons_subset_cons _ (fun o ho => h.mem_zero (mem_lower.mp ho).1) hpred
  | cons a rest =>
    obtain ⟨hmem, hle⟩ := mem_upper.mp (hu ▸ List.mem_cons_self : a ∈ s.upper k i)
    have hne := hk a hmem
    refine ⟨?_, ?_⟩
    · rw [spliceFrom, if_neg (Ne.symm hne), if_pos (lt_of_le_of_ne hle (Ne.symm hne))]
      rfl
    · rw [List.headD_cons]
      rintro rfl
      rcases List.mem_cons.mp hpred with heq | hlow
      · exact h.head_ne hmem heq
      · exact absurd hle (mem_lower.mp hlow).2.not_ge

/-- **The descent of `Put`** finds the node with the key, or the predecessors of all levels it
visits. -/
theorem descend_spec (k : Bytes) (n before : ℕ) (prev : List ℕ)
    (hb : ∀ i, n = i + 1 → before ∈ s.head :: s.lower k i) :
    (∃ o ∈ s.levels 0, s.key o = k ∧ s.descend k n before prev = .found o) ∨
    ((∀ i < n, ∀ o ∈ s.levels i, s.key o ≠ k) ∧
      s.descend k n before prev = .missing ((List.range n).map (s.pred k) ++ prev)) := by
  induction n generalizing before prev with
  | zero => exact Or.inr ⟨by simp, rfl⟩
  | succ n ih =>
    have hbefore := hb n rfl
    by_cases hmem : ∃ o ∈ s.levels n, s.key o = k
    · obtain ⟨o, ho, hk⟩ := hmem
      refine Or.inl ⟨o, h.mem_zero ho, hk, ?_⟩
      simp only [descend, h.findSpliceForLevel_of_mem hbefore ho hk, if_true]
    · push Not at hmem
      obtain ⟨hfind, hne⟩ := h.findSpliceForLevel_of_not_mem hbefore hmem
      have hstep : s.descend k (n + 1) before prev =
          s.descend k n (s.pred k n) (s.pred k n :: prev) := by
        simp only [descend, hfind, if_neg hne]
      rw [hstep]
      -- the predecessor at this level is linked at the level below as well
      rcases ih (s.pred k n) (s.pred k n :: prev) (fun i hi => by
          subst hi
          exact List.cons_subset_cons _ (h.lower_sublist k i).subset (s.pred_mem k (i + 1)))
        with hfound | ⟨hnone, hmiss⟩
      · exact Or.inl hfound
      · refine Or.inr ⟨fun i hi => ?_, ?_⟩
        · rcases Nat.lt_succ_iff_lt_or_eq.mp hi with hi | rfl
          · exact hnone i hi
          · exact hmem
        · rw [hmiss, List.range_succ, List.map_append, List.append_assoc]
          rfl

theorem splice_spec (k : Bytes) :
    (∃ o ∈ s.levels 0, s.key o = k ∧ s.splice k = .found o) ∨
    ((∀ o ∈ s.levels 0, s.key o ≠ k) ∧
      s.splice k = .missing ((List.range s.height).map (s.pred k))) := by
  rcases h.descend_spec k s.height s.head [] (by simp) with hfound | ⟨hnone, hmiss⟩
  · exact Or.inl hfound
  · exact Or.inr ⟨hnone 0 h.height_pos, by simpa [splice] using hmiss⟩

/-- The bottom level around a node with the key. -/
theorem split_at {o : ℕ} (ho : o ∈ s.levels 0) (hk : s.key o = k) :
    ∃ rest, s.upper k 0 = o :: rest ∧ s.levels 0 = s.lower k 0 ++ o :: rest ∧
      ∀ p ∈ rest, k < s.key p := by
  obtain ⟨rest, hupper⟩ := h.head_upper_of_mem ho hk
  refine ⟨rest, hupper, by rw [← hupper, h.lower_append_upper], fun p hp => ?_⟩
  have hsorted : (o :: rest).Pairwise fun a b => s.key a < s.key b :=
    hupper ▸ (h.sorted_level 0).filter _
  exact hk ▸ (List.pairwise_cons.mp hsorted).1 p hp

/-- The next node of the bottom level is the first behind the key. -/
theorem near_above_of_mem {o : ℕ} (ho : o ∈ s.levels 0) (hk : s.key o = k) :
    s.near k false false = (s.after o 0).head? := by
  obtain ⟨rest, -, hlevel, hrest⟩ := h.split_at ho hk
  have hlow : (s.lower k 0).filter (fun p => decide (k < s.key p)) = [] :=
    List.filter_eq_nil_iff.mpr fun p hp => by
      simpa using (mem_lower.mp hp).2.le
  have hkeep : rest.filter (fun p => decide (k < s.key p)) = rest :=
    List.filter_eq_self.mpr fun p hp => by simpa using hrest p hp
  rw [near, h.after_of_split hlevel, hlevel, List.filter_append, hlow, List.nil_append,
    List.filter_cons_of_neg (by simp [hk]), hkeep]

theorem near_upto_of_mem {o : ℕ} (ho : o ∈ s.levels 0) (hk : s.key o = k) :
    s.near k true true = some o := by
  obtain ⟨rest, -, hlevel, hrest⟩ := h.split_at ho hk
  have hlow : (s.lower k 0).filter (fun p => decide (s.key p ≤ k)) = s.lower k 0 :=
    List.filter_eq_self.mpr fun p hp => by simpa using (mem_lower.mp hp).2.le
  have hdrop : rest.filter (fun p => decide (s.key p ≤ k)) = [] :=
    List.filter_eq_nil_iff.mpr fun p hp => by simpa using hrest p hp
  rw [near, hlevel, List.filter_append, hlow, List.filter_cons_of_pos (by simp [hk]), hdrop,
    List.getLast?_append]
  rfl

omit h in
/-- Without a node that has the key, equality makes no difference. -/
theorem near_of_not_mem (hnone : ∀ o ∈ s.levels 0, s.key o ≠ k) (less allowEqual : Bool) :
    s.near k less allowEqual = if less then (s.lower k 0).getLast? else (s.upper k 0).head? := by
  -- with no node of the key, at most and below are the same nodes, and so are at least and above
  have habove : ((s.levels 0).filter fun o => decide (k < s.key o)) = s.upper k 0 := by
    refine List.filter_congr fun o ho => ?_
    have hiff : k < s.key o ↔ ¬s.key o < k :=
      ⟨fun hlt => hlt.asymm, fun hge => lt_of_le_of_ne (not_lt.mp hge) (hnone o ho).symm⟩
    rw [decide_eq_decide.mpr hiff, decide_not]
  have hupto : ((s.levels 0).filter fun o => decide (s.key o ≤ k)) = s.lower k 0 := by
    refine List.filter_congr fun o ho => ?_
    have hiff : s.key o ≤ k ↔ s.key o < k :=
      ⟨fun hle => lt_of_le_of_ne hle (hnone o ho), le_of_lt⟩
    rw [decide_eq_decide.mpr hiff]
  cases less with
  | false =>
    cases allowEqual with
    | false => exact congrArg List.head? habove
    | true => rfl
  | true =>
    cases allowEqual with
    | false => rfl
    | true => exact congrArg List.getLast? hupto

/-- The head stands for no node below the key. -/
theorem stay_eq (k : Bytes) :
    (if s.pred k 0 = s.head then (none, false) else (some (s.pred k 0), false) : Option ℕ × Bool) =
      ((s.lower k 0).getLast?, false) := by
  rw [pred, List.getLastD_eq_getLast?]
  cases hlast : (s.lower k 0).getLast? with
  | none => simp
  | some o =>
    have hmem : o ∈ s.levels 0 := (mem_lower.mp (List.mem_of_getLast? hlast)).1
    simp [h.head_ne hmem]

/-- What `findNear` returns at a node with the key; `down` is what it goes on with when it looks for
a smaller key. -/
theorem near_found {o : ℕ} (ho : o ∈ s.levels 0) (hk : s.key o = k) (less allowEqual : Bool)
    {down r : Option ℕ × Bool} (hdown : down.1 = s.near k true false ∧ down.2 = false)
    (hr : r = if allowEqual then (some o, true)
      else if !less then ((s.after o 0).head?, false) else down) :
    r.1 = s.near k less allowEqual ∧
      (r.2 = true ↔ allowEqual = true ∧ ∃ o ∈ s.levels 0, s.key o = k) := by
  obtain ⟨rest, hupper, -⟩ := h.split_at ho hk
  subst hr
  -- an equal node is the answer if one is allowed, otherwise its neighbour
  cases allowEqual with
  | true =>
    refine ⟨?_, fun _ => ⟨rfl, o, ho, hk⟩, fun _ => rfl⟩
    cases less with
    | false => exact (congrArg List.head? hupper).symm
    | true => exact (h.near_upto_of_mem ho hk).symm
  | false =>
    cases less with
    | false => exact ⟨(h.near_above_of_mem ho hk).symm, by simp⟩
    | true => exact ⟨hdown.1, by simp [hdown.2]⟩

/-- **The search in all four modes.** From a node below the key the descent ends at the nearest node,
and reports equality only where it is allowed. -/
theorem findNear_eq_near (less allowEqual : Bool) (n before : ℕ)
    (hb : before ∈ s.head :: s.lower k n) :
    (s.findNear k less allowEqual (n + 1) before).1 = s.near k less allowEqual ∧
      ((s.findNear k less allowEqual (n + 1) before).2 = true ↔
        allowEqual = true ∧ ∃ o ∈ s.levels 0, s.key o = k) := by
  have hno : (∀ o ∈ s.levels 0, s.key o ≠ k) → ¬∃ o ∈ s.levels 0, s.key o = k :=
    fun hnone ⟨o, ho, hk⟩ => hnone o ho hk
  induction n generalizing before less allowEqual with
  | zero =>
    rw [findNear, h.walk_eq hb]
    simp only [lt_irrefl, if_false, h.stay_eq]
    cases hu : s.upper k 0 with
    | nil =>
      have hnone : ∀ o ∈ s.levels 0, s.key o ≠ k := fun o ho hk => by
        obtain ⟨rest, hupper⟩ := h.head_upper_of_mem ho hk
        simp [hu] at hupper
      rw [near_of_not_mem hnone, hu]
      cases less <;> simp [hno hnone]
    | cons a rest =>
      have ha : a ∈ s.levels 0 := (mem_upper.mp (hu ▸ List.mem_cons_self : a ∈ s.upper k 0)).1
      simp only [List.head?_cons]
      by_cases hk : k = s.key a
      · rw [if_pos hk]
        exact h.near_found ha hk.symm less allowEqual ⟨rfl, rfl⟩ rfl
      · have hnone : ∀ o ∈ s.levels 0, s.key o ≠ k := fun o ho hko => by
          obtain ⟨rest', hupper⟩ := h.head_upper_of_mem ho hko
          obtain ⟨rfl, -⟩ := List.cons.inj (hu.symm.trans hupper)
          exact hk hko.symm
        rw [if_neg hk, near_of_not_mem hnone, hu]
        cases less <;> simp [hno hnone]
  | succ n ih =>
    -- the predecessor at this level is linked at the level below as well
    have hbelow : s.pred k (n + 1) ∈ s.head :: s.lower k n :=
      List.cons_subset_cons _ (h.lower_sublist k n).subset (s.pred_mem k (n + 1))
    rw [findNear, h.walk_eq hb]
    simp only [Nat.succ_pos, if_true]
    cases hu : s.upper k (n + 1) with
    | nil => exact ih less allowEqual _ hbelow
    | cons a rest =>
      have ha : a ∈ s.levels 0 :=
        h.mem_zero (mem_upper.mp (hu ▸ List.mem_cons_self : a ∈ s.upper k (n + 1))).1
      simp only [List.head?_cons]
      by_cases hk : k = s.key a
      · obtain ⟨hnode, hequal⟩ := ih true false _ hbelow
        refine h.near_found ha hk.symm less allowEqual
          ⟨hnode, ?_⟩ ?_
        · simpa using hequal
        · rw [if_pos hk]
          cases allowEqual <;> cases less <;> rfl
      · rw [if_neg hk]
        exact ih less allowEqual _ hbelow

/-- **The search of `Get`** returns the node with the key, or reports that there is none. -/
theorem findNear_spec (k : Bytes) :
    (∃ o ∈ s.levels 0, s.key o = k ∧ s.findNear k false true s.height s.head = (some o, true)) ∨
    ((∀ o ∈ s.levels 0, s.key o ≠ k) ∧ (s.findNear k false true s.height s.head).2 = false) := by
  obtain ⟨n, hn⟩ : ∃ n, s.height = n + 1 := ⟨s.height - 1, by have := h.height_pos; omega⟩
  obtain ⟨hnode, hequal⟩ := h.findNear_eq_near (k := k) false true n s.head List.mem_cons_self
  rw [hn]
  -- the node with the key is the first that is not below it
  by_cases hmem : ∃ o ∈ s.levels 0, s.key o = k
  · obtain ⟨o, ho, hk⟩ := hmem
    obtain ⟨rest, hupper, -⟩ := h.split_at ho hk
    refine Or.inl ⟨o, ho, hk, Prod.ext (hnode.trans ?_) (hequal.mpr ⟨rfl, o, ho, hk⟩)⟩
    exact congrArg List.head? hupper
  · refine Or.inr ⟨fun o ho hk => hmem ⟨o, ho, hk⟩, ?_⟩
    rw [← Bool.not_eq_true, hequal]
    exact fun hfound => hmem hfound.2

end Linked

end Skiplist

end Seol
