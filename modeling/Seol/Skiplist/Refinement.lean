import Seol.Skiplist.Search

/-!
# The skiplist is an ordered map

`Skiplist.Sim s m` says that the list `s` holds the ordered map `m`: its towers are linked, its
bottom level reads as the entries of `m`, and all that its nodes point at was allocated. `Put` of a
key shorter than `2^16` bytes that has room in the arena carries it to the map with the key
inserted.
-/

namespace Seol

open Common

namespace Skiplist

/-- One `Put` ends inside the buffer and below the range of the counter. -/
structure Room (s : Skiplist) (k v : Bytes) (height : ℕ) : Prop where
  inside : s.arena.n + s.need k v height ≤ s.arena.size
  no_wrap : s.arena.n + s.need k v height < 2 ^ 32

/-- The list `s` holds the map `m`. -/
structure Sim (s : Skiplist) (m : OrdMap Bytes Bytes) : Prop extends Linked s where
  entries_eq : s.entries = m.entries
  node_lt : ∀ o ∈ s.head :: s.levels 0, o < s.arena.n
  key_le : ∀ o ∈ s.levels 0, (s.nodes o).keyOffset + (s.nodes o).keySize ≤ s.arena.n
  val_le : ∀ o ∈ s.levels 0, (s.nodes o).valOffset + (s.nodes o).valSize ≤ s.arena.n

theorem Sim.length_levels {s : Skiplist} {m : OrdMap Bytes Bytes} (h : s.Sim m) :
    (s.levels 0).length = m.entries.length := by
  rw [← h.entries_eq, Skiplist.entries, List.length_map]

/-! ## The empty list -/

/-- The head node and its padding take the first bytes of the arena. -/
theorem new_n (size : ℕ) : (new size).arena.n = 104 := rfl

@[simp] theorem new_size (size : ℕ) : (new size).arena.size = size := rfl

/-- The first aligned offset behind the nil byte. -/
@[simp] theorem new_head (size : ℕ) : (new size).head = 8 := by
  simp [new, newNode, Arena.putNode, Arena.newArena, nodeAlign]

theorem sim_new (size : ℕ) : Sim (new size) OrdMap.empty where
  sorted := List.Pairwise.nil
  sublist _ := List.Sublist.refl _
  empty_above _ _ := rfl
  height_pos := Nat.one_pos
  head_not_mem := by simp [new]
  zero_not_mem := by
    have hlevels : (new size).levels 0 = [] := rfl
    simp [hlevels]
  entries_eq := rfl
  node_lt := by
    have hlevels : (new size).levels 0 = [] := rfl
    simp [hlevels, new_n]
  key_le := by simp [new]
  val_le := by simp [new]

/-! ## Linking a node -/

/-- A node is linked right behind its predecessor. -/
theorem flatMap_insert {p x : ℕ} {as bs : List ℕ} (has : p ∉ as) (hbs : p ∉ bs) :
    (as ++ p :: bs).flatMap (fun o => if o = p then [o, x] else [o]) = as ++ p :: x :: bs := by
  have hid : ∀ l : List ℕ, p ∉ l → l.flatMap (fun o => if o = p then [o, x] else [o]) = l := by
    intro l hl
    induction l with
    | nil => rfl
    | cons a l ih =>
      rw [List.mem_cons, not_or] at hl
      rw [List.flatMap_cons, if_neg (Ne.symm hl.1), ih hl.2]
      rfl
  rw [List.flatMap_append, List.flatMap_cons, hid as has, hid bs hbs, if_pos rfl]
  rfl

/-- Linking behind the predecessor of `k` puts the node between the two parts of the level. -/
theorem Linked.insertAfter_pred {s : Skiplist} (h : s.Linked) (k : Bytes) (i x : ℕ) :
    insertAfter s.head (s.pred k i) x (s.levels i) = s.lower k i ++ x :: s.upper k i := by
  have hsplit := h.lower_append_upper k i
  -- the predecessor is the head sentinel when no node is below the key
  rcases List.eq_nil_or_concat' (s.lower k i) with hnil | ⟨as, p, hlow⟩
  · rw [insertAfter, pred, hnil, List.getLastD_nil, if_pos rfl, ← hsplit, hnil]
    rfl
  · have hpred : s.pred k i = p := by rw [pred, hlow, List.getLastD_concat]
    have hp : p ∈ s.levels i := by
      rw [← hsplit, hlow]
      simp
    have hlevel : s.levels i = as ++ p :: s.upper k i := by
      rw [← hsplit, hlow, List.append_assoc]
      rfl
    have hnodup := h.nodup_level i
    rw [hlevel, List.nodup_append, List.nodup_cons] at hnodup
    rw [hpred, insertAfter, if_neg (h.head_ne hp), hlevel,
      flatMap_insert (fun hmem => hnodup.2.2 p hmem p List.mem_cons_self rfl) hnodup.2.1.1, hlow,
      List.append_assoc]
    rfl

/-! ## Allocating a node -/

/-- What `newNode` leaves: an offset in fresh bytes, a node that reads as the key and the value, and
all earlier regions as they were. -/
structure Allocated (a : Arena) (k v : Bytes) (o : ℕ) (node : Node) (a' : Arena) : Prop where
  n_le : a.n ≤ a'.n
  fresh : a.n ≤ o
  node_lt : o < a'.n
  size_eq : a'.size = a.size
  key_eq : a'.getBytes node.keyOffset node.keySize = k
  val_eq : a'.getBytes node.valOffset node.valSize = v
  key_le : node.keyOffset + node.keySize ≤ a'.n
  val_le : node.valOffset + node.valSize ≤ a'.n
  frame : ∀ offset size, offset + size ≤ a.n → a'.getBytes offset size = a.getBytes offset size

theorem newNode_n {a : Arena} {k v : Bytes} {height : ℕ}
    (hwrap : a.n + (Arena.nodeSize height + k.length + v.length) < 2 ^ 32) :
    (newNode a k v height).2.2.n = a.n + (Arena.nodeSize height + k.length + v.length) := by
  simp only [newNode, Arena.putBytes_n, Arena.putNode_n]
  rw [Arena.bump_of_lt (n := a.n) (by omega), Arena.bump_of_lt (n := a.n + _) (by omega),
    Arena.bump_of_lt (by omega)]
  omega

theorem newNode_allocated {a : Arena} {k v : Bytes} {height : ℕ} (hk : k.length < 2 ^ 16)
    (hin : a.n + (Arena.nodeSize height + k.length + v.length) ≤ a.size)
    (hwrap : a.n + (Arena.nodeSize height + k.length + v.length) < 2 ^ 32) :
    Allocated a k v (newNode a k v height).1 (newNode a k v height).2.1
      (newNode a k v height).2.2 := by
  have hn := newNode_n hwrap
  obtain ⟨hfresh, hlt⟩ : a.n ≤ (a.putNode height).1 ∧
      (a.putNode height).1 < a.n + Arena.nodeSize height :=
    Arena.putNode_bounds (by omega)
  -- the three allocations, one after the other
  set a₁ := (a.putNode height).2 with ha₁
  set a₂ := (a₁.putBytes k).2 with ha₂
  have hn₁ : a₁.n = a.n + Arena.nodeSize height := Arena.bump_of_lt (by omega)
  have hn₂ : a₂.n = a₁.n + k.length := Arena.bump_of_lt (by omega)
  have hs₁ : a₁.size = a.size := rfl
  have hs₂ : a₂.size = a.size := rfl
  have hnode : (newNode a k v height).2.1 =
      ⟨a₁.n, k.length % 2 ^ 16, height, a₂.n, v.length % 2 ^ 32⟩ := rfl
  have harena : (newNode a k v height).2.2 = (a₂.putBytes v).2 := rfl
  have hoff : (newNode a k v height).1 = (a.putNode height).1 := rfl
  have hkey : (a₂.putBytes v).2.getBytes a₁.n k.length = k := by
    rw [Arena.getBytes_putBytes_of_le (by omega)]
    exact Arena.getBytes_putBytes_self (by simp only [Arena.Inside]; omega)
  refine ⟨by omega, by omega, by omega, rfl, ?_, ?_, ?_, ?_, fun offset size hle => ?_⟩
  · rw [hnode, harena, Nat.mod_eq_of_lt hk]
    exact hkey
  · rw [hnode, harena, Nat.mod_eq_of_lt (by omega : v.length < 2 ^ 32)]
    exact Arena.getBytes_putBytes_self (by simp only [Arena.Inside]; omega)
  · rw [hn, hnode]
    simp only [Nat.mod_eq_of_lt hk]
    omega
  · rw [hn, hnode]
    simp only [Nat.mod_eq_of_lt (by omega : v.length < 2 ^ 32)]
    omega
  · rw [harena, Arena.getBytes_putBytes_of_le (a := a₂) (by omega), ha₂,
      Arena.getBytes_putBytes_of_le (a := a₁) (by omega), ha₁, Arena.getBytes_putNode]

/-! ## Put -/

section Put

variable {s : Skiplist} {m : OrdMap Bytes Bytes} {k v : Bytes} {height : ℕ}

theorem setValue_nodes_key (o p : ℕ) :
    ((s.setValue o v).nodes p).keyOffset = (s.nodes p).keyOffset ∧
      ((s.setValue o v).nodes p).keySize = (s.nodes p).keySize := by
  by_cases hpo : p = o
  · simp [Skiplist.setValue, hpo]
  · simp [Skiplist.setValue, Function.update_of_ne hpo]

/-- `setValue` leaves the keys of the bottom level. -/
theorem Sim.key_setValue (h : s.Sim m) {o p : ℕ} (hp : p ∈ s.levels 0) :
    (s.setValue o v).key p = s.key p := by
  obtain ⟨hoffset, hsize⟩ := setValue_nodes_key (s := s) (v := v) o p
  rw [Skiplist.key, Skiplist.key, hoffset, hsize]
  exact Arena.getBytes_putBytes_of_le (h.key_le p hp) v

/-- `setValue` changes the value of its node only. -/
theorem Sim.val_setValue (h : s.Sim m) {o p : ℕ} (hp : p ∈ s.levels 0)
    (hin : s.arena.n + v.length ≤ s.arena.size) (hwrap : s.arena.n + v.length < 2 ^ 32) :
    (s.setValue o v).val p = if p = o then v else s.val p := by
  have hvlen : v.length % 2 ^ 32 = v.length := Nat.mod_eq_of_lt (by omega)
  by_cases hpo : p = o
  · rw [if_pos hpo, hpo]
    simp only [Skiplist.val, Skiplist.setValue, Function.update_self, hvlen]
    exact Arena.getBytes_putBytes_self hin
  · rw [if_neg hpo]
    simp only [Skiplist.val, Skiplist.setValue, Function.update_of_ne hpo]
    exact Arena.getBytes_putBytes_of_le (h.val_le p hp) v

/-- The bottom level of the list after `setValue` reads as before but for the value of the node. -/
theorem Sim.setValue (h : s.Sim m) {o : ℕ} (ho : o ∈ s.levels 0) (hk : s.key o = k)
    (hin : s.arena.n + v.length ≤ s.arena.size) (hwrap : s.arena.n + v.length < 2 ^ 32) :
    (s.setValue o v).Sim (m.insert k v) := by
  have hn : (s.setValue o v).arena.n = s.arena.n + v.length := Arena.bump_of_lt hwrap
  -- keys of the bottom level are distinct, so the node is the only one with this key
  have hiff : ∀ p ∈ s.levels 0, (s.key p = k ↔ p = o) := fun p hp =>
    ⟨fun hpk => h.key_inj hp ho (hpk.trans hk.symm), fun hpo => hpo ▸ hk⟩
  refine ⟨⟨?_, h.sublist, h.empty_above, h.height_pos, h.head_not_mem, h.zero_not_mem⟩, ?_, ?_, ?_,
    ?_⟩
  · refine h.sorted.imp_of_mem fun ha hb hab => ?_
    rw [h.key_setValue ha, h.key_setValue hb]
    exact hab
  · have hmem : ∃ e ∈ m.entries, e.1 = k := by
      refine ⟨(s.key o, s.val o), ?_, hk⟩
      rw [← h.entries_eq]
      exact List.mem_map_of_mem ho
    change (s.levels 0).map _ = insertList k v m.entries
    rw [insertList_eq_map m.sorted hmem, ← h.entries_eq, Skiplist.entries, List.map_map]
    refine List.map_congr_left fun p hp => ?_
    simp only [Function.comp_apply, h.key_setValue hp, h.val_setValue hp hin hwrap, hiff p hp]
    split_ifs with hpo
    · rw [hpo, hk]
    · rfl
  · intro p hp
    rw [hn]
    exact (h.node_lt p hp).trans_le (Nat.le_add_right _ _)
  · intro p hp
    obtain ⟨hoffset, hsize⟩ := setValue_nodes_key (s := s) (v := v) o p
    rw [hn, hoffset, hsize]
    exact (h.key_le p hp).trans (Nat.le_add_right _ _)
  · intro p hp
    rw [hn]
    have hle := h.val_le p hp
    by_cases hpo : p = o
    · subst hpo
      simp only [Skiplist.setValue, Function.update_self, Arena.putBytes_fst,
        Nat.mod_eq_of_lt (by omega : v.length < 2 ^ 32), le_refl]
    · simp only [Skiplist.setValue, Function.update_of_ne hpo]
      omega

/-- The list `s'` is `s` with a node `x` for `k` and `v` between the nodes below and above the key, at
the levels below `height`. -/
structure Inserted (s : Skiplist) (k v : Bytes) (height x : ℕ) (s' : Skiplist) : Prop where
  head_eq : s'.head = s.head
  height_eq : s'.height = max s.height height
  level_eq : ∀ i, s'.levels i =
    if i < height then s.lower k i ++ x :: s.upper k i else s.levels i
  fresh : x ∉ s.head :: s.levels 0
  ne_zero : x ≠ 0
  key_self : s'.key x = k
  val_self : s'.val x = v
  key_old : ∀ o ∈ s.levels 0, s'.key o = s.key o
  val_old : ∀ o ∈ s.levels 0, s'.val o = s.val o

namespace Inserted

variable {s' : Skiplist} {x : ℕ}

theorem level_zero (hi : Inserted s k v height x s') (hpos : 0 < height) :
    s'.levels 0 = s.lower k 0 ++ x :: s.upper k 0 := by
  rw [hi.level_eq, if_pos hpos]

theorem mem_level_zero (hi : Inserted s k v height x s') (hpos : 0 < height) {o : ℕ}
    (ho : o ∈ s'.levels 0) : o = x ∨ o ∈ s.levels 0 := by
  rw [hi.level_zero hpos, List.mem_append, List.mem_cons] at ho
  rcases ho with ho | ho | ho
  · exact Or.inr (mem_lower.mp ho).1
  · exact Or.inl ho
  · exact Or.inr (mem_upper.mp ho).1

/-- Among old nodes the keys are ordered as before. -/
theorem pairwise_old (hi : Inserted s k v height x s') {l : List ℕ}
    (hl : ∀ o ∈ l, o ∈ s.levels 0) (hsorted : l.Pairwise fun a b => s.key a < s.key b) :
    l.Pairwise fun a b => s'.key a < s'.key b := by
  refine hsorted.imp_of_mem fun ha hb hab => ?_
  rw [hi.key_old _ (hl _ ha), hi.key_old _ (hl _ hb)]
  exact hab

theorem sorted (hi : Inserted s k v height x s') (h : s.Linked) (hpos : 0 < height)
    (hnew : ∀ o ∈ s.levels 0, s.key o ≠ k) :
    (s'.levels 0).Pairwise fun a b => s'.key a < s'.key b := by
  -- around the new node the keys are below and above
  have hlow : ∀ o ∈ s.lower k 0, s'.key o < k := by
    intro o ho
    rw [hi.key_old o (mem_lower.mp ho).1]
    exact (mem_lower.mp ho).2
  have hup : ∀ o ∈ s.upper k 0, k < s'.key o := by
    intro o ho
    rw [hi.key_old o (mem_upper.mp ho).1]
    exact lt_of_le_of_ne (mem_upper.mp ho).2 (hnew o (mem_upper.mp ho).1).symm
  have hlower : (s.lower k 0).Pairwise _ :=
    hi.pairwise_old (fun o ho => (mem_lower.mp ho).1) (h.sorted.filter _)
  have hupper : (s.upper k 0).Pairwise _ :=
    hi.pairwise_old (fun o ho => (mem_upper.mp ho).1) (h.sorted.filter _)
  rw [hi.level_zero hpos, List.pairwise_append, List.pairwise_cons, hi.key_self]
  refine ⟨hlower, ⟨hup, hupper⟩, fun a ha b hb => ?_⟩
  rcases List.mem_cons.mp hb with rfl | hb
  · rw [hi.key_self]
    exact hlow a ha
  · exact (hlow a ha).trans (hup b hb)

theorem sublist (hi : Inserted s k v height x s') (h : s.Linked) (i : ℕ) :
    (s'.levels (i + 1)).Sublist (s'.levels i) := by
  rw [hi.level_eq, hi.level_eq]
  by_cases hin : i + 1 < height
  · rw [if_pos hin, if_pos (by omega)]
    exact (h.lower_sublist k i).append ((h.upper_sublist k i).cons_cons x)
  · rw [if_neg hin]
    by_cases hlast : i < height
    · -- the top level of the new node
      rw [if_pos hlast]
      refine (h.sublist i).trans ?_
      rw [← h.lower_append_upper k i]
      exact (List.Sublist.refl _).append (List.sublist_cons_self x _)
    · rw [if_neg hlast]
      exact h.sublist i

/-- The towers stay linked. -/
theorem linked (hi : Inserted s k v height x s') (h : s.Linked) (hpos : 0 < height)
    (hnew : ∀ o ∈ s.levels 0, s.key o ≠ k) : s'.Linked where
  sorted := hi.sorted h hpos hnew
  sublist := hi.sublist h
  empty_above i hle := by
    rw [hi.height_eq] at hle
    rw [hi.level_eq, if_neg (by omega)]
    exact h.empty_above i (by omega)
  height_pos := by
    rw [hi.height_eq]
    exact lt_max_of_lt_left h.height_pos
  head_not_mem hmem := by
    rw [hi.head_eq] at hmem
    rcases hi.mem_level_zero hpos hmem with heq | hmem
    · exact hi.fresh (heq ▸ List.mem_cons_self)
    · exact h.head_not_mem hmem
  -- the nil offset is no node: the arena never hands it out
  zero_not_mem hmem := by
    rw [hi.head_eq] at hmem
    rcases List.mem_cons.mp hmem with heq | hmem
    · exact h.zero_not_mem (heq ▸ List.mem_cons_self)
    · rcases hi.mem_level_zero hpos hmem with heq | hmem
      · exact hi.ne_zero heq.symm
      · exact h.zero_not_mem (List.mem_cons_of_mem _ hmem)

/-- The bottom level reads as the map with the key inserted. -/
theorem entries_eq (hi : Inserted s k v height x s') (h : s.Sim m) (hpos : 0 < height)
    (hnew : ∀ o ∈ s.levels 0, s.key o ≠ k) : s'.entries = (m.insert k v).entries := by
  have hread : ∀ o ∈ s.levels 0, (s'.key o, s'.val o) = (s.key o, s.val o) := fun o ho => by
    rw [hi.key_old o ho, hi.val_old o ho]
  -- the two parts of the level are the two parts of the map around the key
  have hentries : m.entries = (s.lower k 0).map (fun o => (s.key o, s.val o)) ++
      (s.upper k 0).map fun o => (s.key o, s.val o) := by
    rw [← h.entries_eq, Skiplist.entries, ← List.map_append, h.lower_append_upper]
  change (s'.levels 0).map _ = insertList k v m.entries
  rw [hentries, insertList_append, hi.level_zero hpos, List.map_append, List.map_cons, hi.key_self,
    hi.val_self, List.map_congr_left fun o ho => hread o (mem_lower.mp ho).1,
    List.map_congr_left fun o ho => hread o (mem_upper.mp ho).1]
  · intro e he
    obtain ⟨o, ho, rfl⟩ := List.mem_map.mp he
    exact (mem_lower.mp ho).2
  · intro e he
    obtain ⟨o, ho, rfl⟩ := List.mem_map.mp he
    exact lt_of_le_of_ne (mem_upper.mp ho).2 (hnew o (mem_upper.mp ho).1).symm

end Inserted

/-- `link` inserts the node that it allocates. -/
theorem Sim.link_inserted (h : s.Sim m) {o : ℕ} {node : Node} {arena : Arena}
    (heq : newNode s.arena k v height = (o, node, arena))
    (hal : Allocated s.arena k v o node arena) (prev : List ℕ)
    (hprev : ∀ i, prev.getD i s.head = s.pred k i) :
    Inserted s k v height o (s.link k v height prev) := by
  have hlink : s.link k v height prev = { s with
      arena := arena
      height := max s.height height
      nodes := Function.update s.nodes o node
      levels := fun i =>
        if i < height then insertAfter s.head (prev.getD i s.head) o (s.levels i)
        else s.levels i } := by
    rw [link, heq]
  -- the node is allocated behind all others
  have hne : ∀ p ∈ s.head :: s.levels 0, p ≠ o := fun p hp =>
    ne_of_lt ((h.node_lt p hp).trans_le hal.fresh)
  have hold : ∀ p ∈ s.levels 0, (s.link k v height prev).nodes p = s.nodes p := by
    intro p hp
    rw [hlink]
    exact Function.update_of_ne (hne p (List.mem_cons_of_mem _ hp)) _ _
  refine ⟨by rw [hlink], by rw [hlink], fun i => ?_, fun hmem => hne o hmem rfl, ?_, ?_, ?_,
    fun p hp => ?_, fun p hp => ?_⟩
  · simp only [hlink, hprev, h.insertAfter_pred]
  · have hlt := (h.node_lt s.head List.mem_cons_self).trans_le hal.fresh
    omega
  · simp only [hlink, Skiplist.key, Function.update_self, hal.key_eq]
  · simp only [hlink, Skiplist.val, Function.update_self, hal.val_eq]
  -- keys and values of the others lie in front of what was allocated
  · rw [Skiplist.key, hold p hp, hlink]
    exact hal.frame _ _ (h.key_le p hp)
  · rw [Skiplist.val, hold p hp, hlink]
    exact hal.frame _ _ (h.val_le p hp)

/-- The list after `link` holds the map with the key inserted. -/
theorem Sim.link (h : s.Sim m) (hk : k.length < 2 ^ 16) (hpos : 0 < height)
    (hnew : ∀ o ∈ s.levels 0, s.key o ≠ k)
    (hin : s.arena.n + (Arena.nodeSize height + k.length + v.length) ≤ s.arena.size)
    (hwrap : s.arena.n + (Arena.nodeSize height + k.length + v.length) < 2 ^ 32)
    (prev : List ℕ) (hprev : ∀ i, prev.getD i s.head = s.pred k i) :
    (s.link k v height prev).Sim (m.insert k v) := by
  have hal := newNode_allocated hk hin hwrap
  have hi := h.link_inserted rfl hal prev hprev
  -- the nodes of the bottom level are the new one and the old ones
  have hnodes : ∀ P : ℕ → Node → Prop, P (newNode s.arena k v height).1
      (newNode s.arena k v height).2.1 → (∀ o ∈ s.levels 0, P o (s.nodes o)) →
      ∀ o ∈ (s.link k v height prev).levels 0, P o ((s.link k v height prev).nodes o) := by
    intro P hself hold o ho
    by_cases heq : o = (newNode s.arena k v height).1
    · rw [heq]
      simpa [Skiplist.link] using hself
    · have hmem := (hi.mem_level_zero hpos ho).resolve_left heq
      simpa [Skiplist.link, Function.update_of_ne heq] using hold o hmem
  refine ⟨hi.linked h.toLinked hpos hnew, hi.entries_eq h hpos hnew, fun o ho => ?_,
    hnodes (fun _ node => node.keyOffset + node.keySize ≤ _) hal.key_le
      fun o ho => (h.key_le o ho).trans hal.n_le,
    hnodes (fun _ node => node.valOffset + node.valSize ≤ _) hal.val_le
      fun o ho => (h.val_le o ho).trans hal.n_le⟩
  rcases List.mem_cons.mp ho with rfl | ho
  · exact (h.node_lt s.head List.mem_cons_self).trans_le hal.n_le
  · exact hnodes (fun o _ => o < _) hal.node_lt
      (fun o ho => (h.node_lt o (List.mem_cons_of_mem _ ho)).trans_le hal.n_le) o ho

/-- Above the list's height every level is empty, so the head is the predecessor there. -/
theorem Linked.getD_range_pred (h : s.Linked) (k : Bytes) (i : ℕ) :
    ((List.range s.height).map (s.pred k)).getD i s.head = s.pred k i := by
  by_cases hi : i < s.height
  · rw [List.getD_eq_getElem _ _ (by simpa using hi)]
    simp
  · rw [List.getD_eq_default _ _ (by simpa using hi), pred, lower, h.empty_above i (by omega)]
    rfl

/-- **`Put` inserts into the map**, for keys that fit the 16-bit size field and allocations that fit
the arena. -/
theorem Sim.put (h : s.Sim m) (hk : k.length < 2 ^ 16) (hpos : 0 < height)
    (hroom : s.Room k v height) : (s.put k v height).Sim (m.insert k v) := by
  obtain ⟨hin, hwrap⟩ := hroom
  rcases h.splice_spec k with ⟨o, ho, hok, hs⟩ | ⟨hnew, hs⟩
  · simp only [need, hs] at hin hwrap
    simp only [Skiplist.put, hs]
    exact h.setValue ho hok hin hwrap
  · simp only [need, hs] at hin hwrap
    simp only [Skiplist.put, hs]
    exact h.link hk hpos hnew hin hwrap _ (h.getD_range_pred k)

end Put

/-! ## Get -/

section Get

variable {s : Skiplist} {m : OrdMap Bytes Bytes} {k : Bytes}

/-- A node of the bottom level is an entry of the map. -/
theorem Sim.get_of_mem (h : s.Sim m) {o : ℕ} (ho : o ∈ s.levels 0) (hk : s.key o = k) :
    m.get k = some (s.val o) := by
  rw [OrdMap.get_eq_some_iff, ← h.entries_eq, ← hk]
  exact List.mem_map_of_mem ho

theorem Sim.get_of_forall_ne (h : s.Sim m) (hnone : ∀ o ∈ s.levels 0, s.key o ≠ k) :
    m.get k = none := by
  refine OrdMap.get_eq_none_iff.mpr fun e he => ?_
  rw [← h.entries_eq] at he
  obtain ⟨o, ho, rfl⟩ := List.mem_map.mp he
  exact hnone o ho

/-- **`Get` reads the map.** -/
theorem Sim.get_eq (h : s.Sim m) (k : Bytes) : s.get k = m.get k := by
  -- the search stops at a node with the key, or there is none
  rcases h.findNear_spec k with ⟨o, ho, hk, hf⟩ | ⟨hnone, hf⟩
  · rw [h.get_of_mem ho hk]
    simp only [Skiplist.get, hf]
  · rw [h.get_of_forall_ne hnone, Skiplist.get]
    split
    · next o heq =>
      rw [heq] at hf
      simp at hf
    · rfl

end Get

end Skiplist

end Seol
