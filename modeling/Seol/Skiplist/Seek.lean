import Seol.Skiplist.Towers

/-!
# Seeks

Reference: `findLast` and the seeks of `Iterator` in `skiplist/skiplist.go`. After any sequence of `Put`
calls, with any tower heights, every seek stops at the least or the greatest key of the requested kind,
or is invalid when there is none. The calls must fit in the arena, and their keys in the 16-bit size
field: a longer key is stored cut, and a seek to it does not find it.
-/

namespace Seol

open Common

namespace Towers

/-- `findLast`. -/
def findLast (t : Towers) : ℕ → ℕ → ℕ → Except SkipFault ℕ
  | 0, _, _ => .error .rounds
  | rounds + 1, n, level => do
    let next ← t.getNext n level
    if next ≠ 0 then findLast t rounds next level
    else if level = 0 then
      if n = t.head then return 0 else return n
    else findLast t rounds n (level - 1)

/-- `Seek`: the node of the iterator after it, zero when it is invalid. -/
def seek (t : Towers) (rounds : ℕ) (target : Bytes) : Except SkipFault ℕ := do
  return (← t.findNear target false true rounds t.head (t.height - 1)).1

/-- `SeekForPrev`. -/
def seekForPrev (t : Towers) (rounds : ℕ) (target : Bytes) : Except SkipFault ℕ := do
  return (← t.findNear target true true rounds t.head (t.height - 1)).1

/-- `SeekToLast`. -/
def seekToLast (t : Towers) (rounds : ℕ) : Except SkipFault ℕ :=
  t.findLast rounds t.head (t.height - 1)

/-- `Prev` of an iterator at node `o`; zero is an invalid iterator. -/
def prev (t : Towers) (rounds o : ℕ) : Except SkipFault ℕ := do
  if o = 0 then t.seekToLast rounds
  else return (← t.findNear (t.key o) true false rounds t.head (t.height - 1)).1

namespace Represents

variable {t : Towers} {s : Skiplist} {rounds : ℕ} (hr : t.Represents s) (h : s.Linked)

include hr h

/-- A search from the top ends at the nearest node. -/
theorem findNear_top (k : Bytes) (less allowEqual : Bool)
    (hrounds : maxHeight * ((s.levels 0).length + 1) ≤ rounds) :
    ∃ equal, t.findNear k less allowEqual rounds t.head (t.height - 1) =
      .ok ((s.near k less allowEqual).getD 0, equal) := by
  have hpos := h.height_pos
  have hle := hr.height_le
  -- the list model counts levels, the slots are indexed from zero
  have hheight : s.height - 1 + 1 = s.height := Nat.sub_add_cancel hpos
  have hfind : t.findNear k less allowEqual rounds s.head (s.height - 1) =
      .ok (offsetOf (s.findNear k less allowEqual (s.height - 1 + 1) s.head)) :=
    hr.findNear_eq h (by omega) List.mem_cons_self
      (hheight ▸ (Nat.mul_le_mul_right _ hle).trans hrounds)
  obtain ⟨hnode, -⟩ := h.findNear_eq_near (k := k) less allowEqual (s.height - 1) s.head
    List.mem_cons_self
  rw [hr.head_eq, hr.height_eq, hfind, offsetOf, hnode]
  exact ⟨_, rfl⟩

/-- The loop of `findLast` goes to the end of a level. -/
theorem findLast_append {level x : ℕ} {l : List ℕ} (hlevel : level < maxHeight)
    (hchain : Chain (t.tower level) 0 x l) (hmem : ∀ p ∈ x :: l, p ∈ s.head :: s.levels level) :
    t.findLast (l.length + rounds) x level = t.findLast rounds (l.getLastD x) level := by
  induction l generalizing x with
  | nil => rw [List.length_nil, Nat.zero_add, List.getLastD_nil]
  | cons a l ih =>
    obtain ⟨hnext, hrest⟩ := hchain
    have hmem' : ∀ p ∈ a :: l, p ∈ s.head :: s.levels level := fun p hp =>
      hmem p (List.mem_cons_of_mem _ hp)
    have hx := hmem x List.mem_cons_self
    have hne : a ≠ 0 := h.ne_zero (hmem' a List.mem_cons_self)
    rw [List.length_cons, Nat.add_right_comm, findLast, hr.getNext_eq hlevel hx (h.ne_zero hx),
      hnext, List.getLastD_cons]
    simp only [bind, Except.bind, ne_eq, hne, not_false_eq_true, if_true]
    exact ih hrest hmem'

omit hr in
/-- Behind any node of a level stands the last of the level. -/
theorem getLastD_after {i x : ℕ} (hx : x ∈ s.head :: s.levels i) :
    (s.after x i).getLastD x = (s.levels i).getLastD s.head := by
  rcases List.mem_cons.mp hx with rfl | hx
  · rw [Skiplist.Linked.after_head]
  · obtain ⟨as, bs, hab⟩ := List.append_of_mem hx
    rw [h.after_of_split hab, hab]
    simp [List.getLastD_eq_getLast?, List.getLast?_append, List.getLast?_cons]

/-- The rounds of `findLast` at one level. -/
theorem findLast_level {level x : ℕ} (hlevel : level < maxHeight)
    (hx : x ∈ s.head :: s.levels level)
    (hrounds : (level + 1) * ((s.levels 0).length + 1) ≤ rounds) :
    ∃ r, level * ((s.levels 0).length + 1) ≤ r ∧ t.findLast rounds x level =
      if level = 0 then .ok (if (s.levels 0).getLastD s.head = s.head then 0
        else (s.levels 0).getLastD s.head)
      else t.findLast r ((s.levels level).getLastD s.head) (level - 1) := by
  have hlen := h.length_after_le x level
  rw [Nat.succ_mul] at hrounds
  obtain ⟨r, rfl⟩ : ∃ r, rounds = (s.after x level).length + (r + 1) :=
    ⟨rounds - (s.after x level).length - 1, by omega⟩
  obtain ⟨hchain, hmem⟩ := hr.chain_after h hlevel hx
  have hend : t.tower level ((s.after x level).getLastD x) = 0 := by
    rw [← List.append_nil (s.after x level)] at hchain
    exact hchain.next_getLastD
  have hlast : (s.levels level).getLastD s.head ∈ s.head :: s.levels level := List.getLastD_mem_cons
  refine ⟨r, by omega, ?_⟩
  rw [hr.findLast_append h hlevel hchain hmem, findLast, getLastD_after h hx,
    hr.getNext_eq hlevel hlast (h.ne_zero hlast), ← getLastD_after h hx, hend, getLastD_after h hx,
    hr.head_eq]
  simp only [bind, Except.bind, ne_eq, not_true_eq_false, if_false]
  -- at the bottom the loop returns, with the head sentinel read as no node
  by_cases hzero : level = 0
  · subst hzero
    simp only [if_true]
    split_ifs <;> rfl
  · rw [if_neg hzero, if_neg hzero]

/-- **`findLast`** ends at the last node of the bottom level. -/
theorem findLast_eq {level x : ℕ} (hlevel : level < maxHeight) (hx : x ∈ s.head :: s.levels level)
    (hrounds : (level + 1) * ((s.levels 0).length + 1) ≤ rounds) :
    t.findLast rounds x level = .ok ((s.levels 0).getLastD 0) := by
  induction level generalizing x rounds with
  | zero =>
    obtain ⟨r, -, hstep⟩ := hr.findLast_level h hlevel hx hrounds
    rw [hstep, if_pos rfl, List.getLastD_eq_getLast?, List.getLastD_eq_getLast?]
    cases hlast : (s.levels 0).getLast? with
    | none => simp
    | some o => simp [h.head_ne (List.mem_of_getLast? hlast)]
  | succ level ih =>
    obtain ⟨r, hr', hstep⟩ := hr.findLast_level h hlevel hx hrounds
    rw [hstep, if_neg (Nat.succ_ne_zero level), Nat.add_sub_cancel]
    refine ih (Nat.lt_of_succ_lt hlevel) ?_ hr'
    exact List.cons_subset_cons _ (h.sublist level).subset List.getLastD_mem_cons

theorem seekToLast_eq (hrounds : maxHeight * ((s.levels 0).length + 1) ≤ rounds) :
    t.seekToLast rounds = .ok ((s.levels 0).getLastD 0) := by
  have hpos := h.height_pos
  have hle := hr.height_le
  rw [seekToLast, hr.head_eq, hr.height_eq]
  refine hr.findLast_eq h (by omega) List.mem_cons_self ?_
  rw [Nat.sub_add_cancel hpos]
  exact (Nat.mul_le_mul_right _ hle).trans hrounds

end Represents

/-! ## Where seeks stop -/

/-- An iterator stops at the least key of a set, or is invalid when the set is empty. -/
def StopsAtLeast (t : Towers) (nodes : List ℕ) (o : ℕ) (keys : Set Bytes) : Prop :=
  o = 0 ∧ keys = ∅ ∨ o ∈ nodes ∧ IsLeast keys (t.key o)

/-- An iterator stops at the greatest key of a set, or is invalid when the set is empty. -/
def StopsAtGreatest (t : Towers) (nodes : List ℕ) (o : ℕ) (keys : Set Bytes) : Prop :=
  o = 0 ∧ keys = ∅ ∨ o ∈ nodes ∧ IsGreatest keys (t.key o)

section Stops

variable {t : Towers} {nodes : List ℕ} (hsorted : nodes.Pairwise fun a b => t.key a < t.key b)
  (p : Bytes → Bool)

include hsorted

/-- The first node of a kind has the least key of that kind. -/
theorem stopsAtLeast_head :
    t.StopsAtLeast nodes (((nodes.filter fun o => p (t.key o)).head?).getD 0)
      {k | p k = true ∧ ∃ o ∈ nodes, t.key o = k} := by
  cases hf : nodes.filter fun o => p (t.key o) with
  | nil =>
    refine Or.inl ⟨rfl, Set.eq_empty_of_forall_notMem ?_⟩
    rintro _ ⟨hp, o, ho, rfl⟩
    exact absurd hp (List.filter_eq_nil_iff.mp hf o ho)
  | cons a rest =>
    have hmem : ∀ o, o ∈ nodes ∧ p (t.key o) = true ↔ o ∈ a :: rest := fun o => by
      rw [← hf, List.mem_filter]
    obtain ⟨ha, hpa⟩ := (hmem a).mpr List.mem_cons_self
    have hlt : (a :: rest).Pairwise fun a b => t.key a < t.key b := hf ▸ hsorted.filter _
    refine Or.inr ⟨ha, ⟨hpa, a, ha, rfl⟩, ?_⟩
    -- the nodes that satisfy the test ascend, so the first is the least
    rintro _ ⟨hp, o, ho, rfl⟩
    rcases List.mem_cons.mp ((hmem o).mp ⟨ho, hp⟩) with rfl | ho'
    · exact le_rfl
    · exact ((List.pairwise_cons.mp hlt).1 o ho').le

/-- The last node of a kind has the greatest key of that kind. -/
theorem stopsAtGreatest_getLast :
    t.StopsAtGreatest nodes (((nodes.filter fun o => p (t.key o)).getLast?).getD 0)
      {k | p k = true ∧ ∃ o ∈ nodes, t.key o = k} := by
  cases hf : (nodes.filter fun o => p (t.key o)).getLast? with
  | none =>
    rw [List.getLast?_eq_none_iff] at hf
    refine Or.inl ⟨rfl, Set.eq_empty_of_forall_notMem ?_⟩
    rintro _ ⟨hp, o, ho, rfl⟩
    exact absurd hp (List.filter_eq_nil_iff.mp hf o ho)
  | some a =>
    obtain ⟨front, hfront⟩ := List.getLast?_eq_some_iff.mp hf
    have hmem : ∀ o, o ∈ nodes ∧ p (t.key o) = true ↔ o ∈ front ++ [a] := fun o => by
      rw [← hfront, List.mem_filter]
    obtain ⟨ha, hpa⟩ := (hmem a).mpr (List.mem_append_right _ (List.mem_singleton_self a))
    have hlt : (front ++ [a]).Pairwise fun a b => t.key a < t.key b := hfront ▸ hsorted.filter _
    refine Or.inr ⟨ha, ⟨hpa, a, ha, rfl⟩, ?_⟩
    rintro _ ⟨hp, o, ho, rfl⟩
    rcases List.mem_append.mp ((hmem o).mp ⟨ho, hp⟩) with ho' | ho'
    · exact ((List.pairwise_append.mp hlt).2.2 o ho' a (List.mem_singleton_self a)).le
    · obtain rfl := List.mem_singleton.mp ho'
      exact le_rfl

end Stops

/-- The seeks of an iterator over a list with the given keys, whose nodes are `nodes`. -/
structure SeeksRight (t : Towers) (rounds : ℕ) (nodes : List ℕ) (keys : Set Bytes) : Prop where
  keys_iff : ∀ k, k ∈ keys ↔ ∃ o ∈ nodes, t.key o = k
  zero_not_mem : 0 ∉ nodes
  findNear_ok : ∀ target less allowEqual,
    ∃ r, t.findNear target less allowEqual rounds t.head (t.height - 1) = .ok r
  seek : ∀ target, ∃ o, t.seek rounds target = .ok o ∧
    t.StopsAtLeast nodes o {k ∈ keys | target ≤ k}
  seekForPrev : ∀ target, ∃ o, t.seekForPrev rounds target = .ok o ∧
    t.StopsAtGreatest nodes o {k ∈ keys | k ≤ target}
  seekToLast : ∃ o, t.seekToLast rounds = .ok o ∧ t.StopsAtGreatest nodes o keys
  prev : ∀ o ∈ nodes, ∃ o', t.prev rounds o = .ok o' ∧
    t.StopsAtGreatest nodes o' {k ∈ keys | k < t.key o}
  prev_invalid : ∃ o, t.prev rounds 0 = .ok o ∧ t.StopsAtGreatest nodes o keys

/-- Towers that represent a linked list seek right. -/
theorem Represents.seeksRight {t : Towers} {s : Skiplist} {rounds : ℕ} (hr : t.Represents s)
    (h : s.Linked) (hrounds : maxHeight * ((s.levels 0).length + 1) ≤ rounds) {keys : Set Bytes}
    (hkeys : ∀ k, k ∈ keys ↔ ∃ o ∈ s.levels 0, t.key o = k) :
    t.SeeksRight rounds (s.levels 0) keys := by
  have hkey : s.key = t.key := funext fun o => (hr.key_eq o).symm
  have hsorted : (s.levels 0).Pairwise fun a b => t.key a < t.key b := hkey ▸ h.sorted
  -- the answers of the list model are filters of the level; as sets of keys they are those sought
  have hset : ∀ (p : Bytes → Bool) (q : Bytes → Prop), (∀ k, p k = true ↔ q k) →
      {k | p k = true ∧ ∃ o ∈ s.levels 0, t.key o = k} = {k ∈ keys | q k} := by
    intro p q hpq
    ext k
    simp only [Set.mem_ofPred_eq, hpq, hkeys, and_comm]
  have hall : {k | (fun _ => true) k = true ∧ ∃ o ∈ s.levels 0, t.key o = k} = keys := by
    ext k
    simp only [Set.mem_ofPred_eq, true_and, hkeys]
  have hlast : t.StopsAtGreatest (s.levels 0) ((s.levels 0).getLastD 0) keys := by
    have hstop := stopsAtGreatest_getLast hsorted fun _ => true
    rwa [hall, List.filter_true, ← List.getLastD_eq_getLast?] at hstop
  have hzero : 0 ∉ s.levels 0 := fun hmem => h.zero_not_mem (List.mem_cons_of_mem _ hmem)
  refine ⟨hkeys, hzero, fun target less allowEqual => ?_, fun target => ?_, fun target => ?_,
    ⟨_, hr.seekToLast_eq h hrounds, hlast⟩, fun o ho => ?_, ⟨_, hr.seekToLast_eq h hrounds, hlast⟩⟩
  · obtain ⟨equal, hfind⟩ := hr.findNear_top h target less allowEqual hrounds
    exact ⟨_, hfind⟩
  · obtain ⟨equal, hfind⟩ := hr.findNear_top h target false true hrounds
    refine ⟨_, by rw [Towers.seek, hfind]; rfl, ?_⟩
    rw [Skiplist.near, Skiplist.upper, hkey, ← hset (fun k => !decide (k < target)) _ (by simp)]
    exact stopsAtLeast_head hsorted fun k => !decide (k < target)
  · obtain ⟨equal, hfind⟩ := hr.findNear_top h target true true hrounds
    refine ⟨_, by rw [Towers.seekForPrev, hfind]; rfl, ?_⟩
    rw [Skiplist.near, hkey, ← hset (fun k => decide (k ≤ target)) _ (by simp)]
    exact stopsAtGreatest_getLast hsorted fun k => decide (k ≤ target)
  · obtain ⟨equal, hfind⟩ := hr.findNear_top h (t.key o) true false hrounds
    have hne : o ≠ 0 := fun heq => hzero (heq ▸ ho)
    refine ⟨_, by rw [Towers.prev, if_neg hne, hfind]; rfl, ?_⟩
    rw [Skiplist.near, Skiplist.lower, hkey, ← hset (fun k => decide (k < t.key o)) _ (by simp)]
    exact stopsAtGreatest_getLast hsorted fun k => decide (k < t.key o)

/-- **Seeks land on the right neighbour.** After any sequence of `Put` calls with any tower heights,
whose keys fit their size field and which fit in the arena, every search ends and every seek stops at the
least or greatest key of its kind. -/
theorem fill_seeksRight (size rounds : ℕ) (ps : List Insertion) (hlegal : ∀ p ∈ ps, p.Legal)
    (hin : (new size).arena.n + fillSize [] ps ≤ size)
    (hwrap : (new size).arena.n + fillSize [] ps < 2 ^ 32)
    (hrounds : maxHeight * (ps.length + 1) ≤ rounds) :
    ∃ t nodes, fill rounds (new size) ps = .ok t ∧
      t.SeeksRight rounds nodes {k | ∃ p ∈ ps, p.key = k} := by
  obtain ⟨t, m, hfill, hr, hs, -, hlen, hlast⟩ := fill_represents size rounds ps hlegal hin hwrap hrounds
  have hbound := Nat.mul_le_mul_left maxHeight (Nat.succ_le_succ hlen)
  refine ⟨t, _, hfill, hr.seeksRight hs.toLinked (hbound.trans hrounds) fun k => ?_⟩
  -- the keys of the list are those that were put
  have hput : (∃ p ∈ ps, p.key = k) ↔ m.get k ≠ none := by
    rw [hlast, ne_eq, lastOf_eq_none_iff, List.forall_mem_map]
    push Not
    rfl
  rw [Set.mem_ofPred_eq, hput, ne_eq, OrdMap.get_eq_none_iff, ← hs.entries_eq, Skiplist.entries,
    List.forall_mem_map]
  push Not
  simp only [hr.key_eq]

/-- Seeks on a list of three calls. -/
theorem fill_seeksRight_three : ∃ t nodes, fill 80 (new 1024) threePuts = .ok t ∧
    t.SeeksRight 80 nodes {k | ∃ p ∈ threePuts, p.key = k} := by
  refine fill_seeksRight 1024 80 threePuts ?_ (by decide) (by decide) (by decide)
  intro p hp
  simp only [threePuts, List.mem_cons, List.not_mem_nil, or_false] at hp
  rcases hp with rfl | rfl | rfl <;> exact ⟨by decide, by decide, by decide⟩

/-- A list with one node behind the head, whose key is stored as the empty one. -/
theorem seek_empty_key {t : Towers} {o : ℕ} {k : Bytes} (hk : k ≠ []) (hheight : t.height = 1)
    (hhead : t.slot t.head 0 = .ok ()) (hnext : t.tower 0 t.head = o) (hne : o ≠ 0)
    (hslot : t.slot o 0 = .ok ()) (hend : t.tower 0 o = 0) (hkey : t.key o = []) (rounds : ℕ) :
    t.seek (rounds + 2) k = .ok 0 := by
  have hlt : t.key o < k := by
    rw [hkey]
    obtain ⟨a, rest, rfl⟩ := List.exists_cons_of_ne_nil hk
    exact List.nil_lt_cons a rest
  simp only [seek, hheight, findNear, getNext, hhead, hnext, hslot, hend, hne, hlt, bind, Except.bind,
    if_true, if_false, pure, Except.pure]
  rfl

/-- A key of `2 ^ 16` bytes is stored as the empty key, and a seek to it misses it. -/
theorem seek_cut_key {k : Bytes} (hk : k.length = 2 ^ 16) :
    ∃ t, fill 40 (new (2 ^ 20)) [⟨k, [], 1⟩] = .ok t ∧ t.seek 40 k = .ok 0 := by
  have hne : k ≠ [] := by
    rintro rfl
    simp at hk
  refine ⟨_, rfl, seek_empty_key (o := 104) hne rfl rfl rfl (by decide) rfl rfl ?_ 38⟩
  apply List.length_eq_zero_iff.mp
  rw [Towers.key, Arena.length_getBytes]
  change k.length % 2 ^ 16 = 0
  rw [hk, Nat.mod_self]

/-- After the one call `Put(k, "")` with a key of `2 ^ 16` zero bytes the iterator is invalid behind
`Seek(k)`. -/
theorem seek_misses_long_key :
    ∃ t, fill 40 (new (2 ^ 20)) [⟨List.replicate (2 ^ 16) 0, [], 1⟩] = .ok t ∧
      t.seek 40 (List.replicate (2 ^ 16) 0) = .ok 0 :=
  seek_cut_key List.length_replicate

end Towers

end Seol
