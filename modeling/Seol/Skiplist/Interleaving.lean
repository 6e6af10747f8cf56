import Seol.Skiplist.Concurrent

/-!
# Interleaved calls on a skiplist

Whatever the interleaving, the slots link sorted and nested levels (`Shared`), and a thread that acts
changes nothing that another one relies on (`Rely`): links are added and never removed, keys and heights
of linked nodes stay, and a node that is not linked yet belongs to one thread. From this no thread ever
reaches a fault, and every call takes effect at one of its own steps: `Put` when it swaps the slot of
the bottom level or stores a value word, `Get` and the seeks with their last load.
-/

namespace Seol

open Common

/-- The list model of towers that link the given nodes. -/
def Towers.listed (t : Towers) (levels : ℕ → List ℕ) : Skiplist :=
  ⟨t.arena, t.head, t.height, t.nodes, levels⟩

namespace Concurrent

/-! ## Shared memory -/

/-- The towers link the levels `L`, which hold the map `m`. -/
structure Shared (t : Towers) (L : ℕ → List ℕ) (m : OrdMap Bytes Bytes) : Prop where
  sim : (t.listed L).Sim m
  rep : t.Represents (t.listed L)

/-- What a thread that owns the node `x` may do without being seen: allocate, raise the height, and
write its own node where it is not linked. -/
structure Quiet (x : ℕ) (L : ℕ → List ℕ) (t t' : Towers) : Prop where
  head_eq : t'.head = t.head
  height_le : t.height ≤ t'.height
  height_max : t'.height ≤ maxHeight
  n_le : t.arena.n ≤ t'.arena.n
  bytes : ∀ offset size, offset + size ≤ t.arena.n →
    t'.arena.getBytes offset size = t.arena.getBytes offset size
  nodes : ∀ o, o ≠ x ∨ o ∈ L 0 → t'.nodes o = t.nodes o
  slots : ∀ i o, o ≠ x ∨ o ∈ L i → t'.tower i o = t.tower i o

/-- What the other threads may rely on when the owner of `x` makes a step. -/
structure Rely (x : ℕ) (t : Towers) (L : ℕ → List ℕ) (t' : Towers) (L' : ℕ → List ℕ) : Prop where
  head_eq : t'.head = t.head
  height_le : t.height ≤ t'.height
  linked : ∀ i o, o ∈ L i → o ∈ L' i
  new : ∀ i o, o ∈ L' i → o ∈ L i ∨ o = x
  n_le : t.arena.n ≤ t'.arena.n
  bytes : ∀ offset size, offset + size ≤ t.arena.n →
    t'.arena.getBytes offset size = t.arena.getBytes offset size
  record : ∀ o, o ≠ x → o ∉ L 0 → t'.nodes o = t.nodes o
  shape : ∀ o ∈ L 0, (t'.nodes o).keyOffset = (t.nodes o).keyOffset ∧
    (t'.nodes o).keySize = (t.nodes o).keySize ∧ (t'.nodes o).height = (t.nodes o).height
  slot : ∀ i o, o ≠ x → o ∉ t.head :: L i → t'.tower i o = t.tower i o

section Shared

variable {t t' : Towers} {L L' : ℕ → List ℕ} {m : OrdMap Bytes Bytes} {k : Bytes} {x i o : ℕ}

theorem Rely.key_eq (hr : Rely x t L t' L') (h : Shared t L m) (ho : o ∈ L 0) :
    t'.key o = t.key o := by
  obtain ⟨hoffset, hsize, -⟩ := hr.shape o ho
  rw [Towers.key, Towers.key, hoffset, hsize]
  exact hr.bytes _ _ (h.sim.key_le o ho)

namespace Quiet

theorem refl (h : Shared t L m) (x : ℕ) : Quiet x L t t :=
  ⟨rfl, le_rfl, h.rep.height_le, le_rfl, fun _ _ _ => rfl, fun _ _ => rfl, fun _ _ _ => rfl⟩

theorem rely (hq : Quiet x L t t') : Rely x t L t' L where
  head_eq := hq.head_eq
  height_le := hq.height_le
  linked _ _ ho := ho
  new _ _ ho := Or.inl ho
  n_le := hq.n_le
  bytes := hq.bytes
  record o hne _ := hq.nodes o (Or.inl hne)
  shape o ho := by
    rw [hq.nodes o (Or.inr ho)]
    exact ⟨rfl, rfl, rfl⟩
  slot i o hne _ := hq.slots i o (Or.inl hne)

theorem val_eq (hq : Quiet x L t t') (h : Shared t L m) (ho : o ∈ L 0) : t'.val o = t.val o := by
  rw [Towers.val, Towers.val, hq.nodes o (Or.inr ho)]
  exact hq.bytes _ _ (h.sim.val_le o ho)

/-- **A quiet step keeps the levels and the map.** -/
theorem shared (hq : Quiet x L t t') (h : Shared t L m) (hx : x ≠ t.head) : Shared t' L m := by
  -- the step writes to the arena behind its end, and to slots of a node that is not linked
  have hkey : ∀ o ∈ L 0, t'.key o = t.key o := fun o ho => hq.rely.key_eq h ho
  have hhead : (t'.listed L).head = (t.listed L).head := hq.head_eq
  have hnodes : ∀ i, ∀ o ∈ t.head :: L i, t'.nodes o = t.nodes o := by
    intro i o ho
    rcases List.mem_cons.mp ho with rfl | ho
    · exact hq.nodes _ (Or.inl hx.symm)
    · exact hq.nodes o (Or.inr (h.sim.mem_zero ho))
  refine ⟨⟨⟨?_, h.sim.sublist, fun i hi => h.sim.empty_above i (hq.height_le.trans hi),
    h.sim.height_pos.trans_le hq.height_le, hhead ▸ h.sim.head_not_mem,
    hhead ▸ h.sim.zero_not_mem⟩, ?_, fun o ho => ?_, fun o ho => ?_, fun o ho => ?_⟩,
    ⟨rfl, rfl, rfl, rfl, fun i hi => ?_, fun i hi o ho => ?_, hq.height_max⟩⟩
  · refine h.sim.sorted.imp_of_mem fun {a b} ha hb hab => ?_
    change t'.key a < t'.key b
    rw [hkey a ha, hkey b hb]
    exact hab
  · rw [← h.sim.entries_eq]
    refine List.map_congr_left fun o ho => ?_
    exact Prod.ext (hkey o ho) (hq.val_eq h ho)
  · exact (h.sim.node_lt o (hhead ▸ ho)).trans_le hq.n_le
  · change (t'.nodes o).keyOffset + (t'.nodes o).keySize ≤ _
    rw [hq.nodes o (Or.inr ho)]
    exact (h.sim.key_le o ho).trans hq.n_le
  · change (t'.nodes o).valOffset + (t'.nodes o).valSize ≤ _
    rw [hq.nodes o (Or.inr ho)]
    exact (h.sim.val_le o ho).trans hq.n_le
  -- along a level no slot that links it was written
  · rw [hhead]
    refine (h.rep.chain i hi).congr fun o ho => ?_
    rcases List.mem_cons.mp ho with rfl | ho
    · exact hq.slots i _ (Or.inl hx.symm)
    · exact hq.slots i o (Or.inr ho)
  · have ho' : o ∈ t.head :: L i := hq.head_eq ▸ ho
    change i < (t'.nodes o).height
    rw [hnodes i o ho']
    exact h.rep.tall i hi o ho'

end Quiet

namespace Shared

variable (h : Shared t L m)

include h

/-- A linked node can be asked for its successor, which is linked too. -/
theorem getNext_eq (hi : i < maxHeight) (ho : o ∈ t.head :: L i) :
    t.getNext o i = .ok (t.tower i o) ∧ (t.tower i o = 0 ∨ t.tower i o ∈ L i) :=
  ⟨h.rep.getNext_eq hi ho (h.sim.ne_zero ho), (h.rep.chain i hi).next_mem ho⟩

/-- **Where the slot of a node below the key ends the walk**, the node is the last one below the key
and the slot points at the first one from the key on. -/
theorem splice_unique (hi : i < maxHeight) {p : ℕ} (hp : p ∈ t.head :: (t.listed L).lower k i)
    (hge : t.tower i p = 0 ∨ k ≤ t.key (t.tower i p)) :
    p = (t.listed L).pred k i ∧ t.tower i p = ((t.listed L).upper k i).headD 0 := by
  have hlink := h.sim.toLinked
  obtain ⟨hchain, hmem⟩ := h.rep.chain_after hlink hi ((t.listed L).cons_lower_subset k i hp)
  obtain ⟨lo, hafter, hlo, hlast⟩ := hlink.after_eq hp
  have hnext := hchain.head_eq
  rw [hafter] at hnext hmem
  cases lo with
  | nil => exact ⟨hlast, hnext⟩
  | cons a lo =>
    -- a node below the key in front would be the successor
    have hne : a ≠ 0 := hlink.ne_zero (hmem a (by simp))
    rw [hnext] at hge
    rcases hge with hzero | hge
    · exact absurd hzero hne
    · exact absurd (hlo a List.mem_cons_self) hge.not_gt

/-- Where the walk ends above the key, no node of the level has the key. -/
theorem key_ne (hi : i < maxHeight) {p : ℕ} (hp : p ∈ t.head :: (t.listed L).lower k i)
    (hgt : t.tower i p = 0 ∨ k < t.key (t.tower i p)) (ho : o ∈ L i) : t.key o ≠ k := by
  intro hk
  obtain ⟨-, hnext⟩ := h.splice_unique hi hp (hgt.imp_right le_of_lt)
  obtain ⟨rest, hupper⟩ := h.sim.head_upper_of_mem (i := i) ho hk
  rw [hupper, List.headD_cons] at hnext
  rcases hgt with hzero | hlt
  · exact h.sim.ne_zero (List.mem_cons_of_mem _ ho) (hnext.symm.trans hzero)
  · rw [hnext, hk] at hlt
    exact lt_irrefl _ hlt

end Shared

/-! ## Linking -/

/-- The levels with `x` linked at level `i` between the nodes below and above the key. -/
def linkAt (t : Towers) (L : ℕ → List ℕ) (k : Bytes) (i x : ℕ) : ℕ → List ℕ :=
  Function.update L i ((t.listed L).lower k i ++ x :: (t.listed L).upper k i)

theorem linkAt_self (t : Towers) (L : ℕ → List ℕ) (k : Bytes) (i x : ℕ) :
    linkAt t L k i x i = (t.listed L).lower k i ++ x :: (t.listed L).upper k i :=
  Function.update_self ..

theorem linkAt_of_ne (t : Towers) (L : ℕ → List ℕ) (k : Bytes) (x : ℕ) {i j : ℕ} (hj : j ≠ i) :
    linkAt t L k i x j = L j :=
  Function.update_of_ne hj ..

/-- The state in which the swap of the slot of `p` at level `i` links `x`. -/
structure Swap (t : Towers) (L : ℕ → List ℕ) (k : Bytes) (i p x : ℕ) : Prop where
  level_lt : i < maxHeight
  below : p ∈ t.head :: (t.listed L).lower k i
  next : t.tower i p = 0 ∨ k < t.key (t.tower i p)
  stored : t.tower i x = t.tower i p
  fresh : x ∉ t.head :: L i
  tall : i < (t.nodes x).height
  ne_zero : x ≠ 0
  key_eq : t.key x = k

namespace Swap

variable {p : ℕ} (hs : Swap t L k i p x) (h : Shared t L m)

include hs

theorem mem_linkAt {j : ℕ} (ho : o ∈ linkAt t L k i x j) : o ∈ L j ∨ o = x := by
  by_cases hj : j = i
  · subst hj
    rw [linkAt_self, List.mem_append, List.mem_cons] at ho
    rcases ho with ho | ho | ho
    · exact Or.inl (Skiplist.mem_lower.mp ho).1
    · exact Or.inr ho
    · exact Or.inl (Skiplist.mem_upper.mp ho).1
  · rw [linkAt_of_ne t L k x hj] at ho
    exact Or.inl ho

include h

theorem sublist_linkAt (j : ℕ) : (L j).Sublist (linkAt t L k i x j) := by
  by_cases hj : j = i
  · subst hj
    have hsplit : (t.listed L).lower k j ++ (t.listed L).upper k j = L j :=
      h.sim.lower_append_upper k j
    rw [linkAt_self, ← hsplit]
    exact (List.Sublist.refl _).append (List.sublist_cons_self x _)
  · rw [linkAt_of_ne t L k x hj]

/-- The chain of the level after the swap. -/
theorem chain : Chain ((t.setSlot p i x).tower i) 0 t.head (linkAt t L k i x i) := by
  -- the splice stands for the place of the key: the last node below it and the first behind
  obtain ⟨hpred, hnext⟩ := h.splice_unique hs.level_lt hs.below (hs.next.imp_right le_of_lt)
  have hsplit : (t.listed L).lower k i ++ (t.listed L).upper k i = L i :=
    h.sim.lower_append_upper k i
  have hchain : Chain (t.tower i) 0 t.head (L i) := h.rep.chain i hs.level_lt
  have hnodup : (t.head :: L i).Nodup :=
    List.nodup_cons.mpr ⟨fun hmem => h.sim.head_ne hmem rfl, h.sim.nodup_level i⟩
  rw [← hsplit] at hchain hnodup
  have hspliced := hchain.splice hnodup (hsplit.symm ▸ hs.fresh)
  -- the node's own slot has the successor already, so the swap completes the link
  rw [← hnext, ← hs.stored, Function.update_eq_self] at hspliced
  have hlast : ((t.listed L).lower k i).getLastD t.head = p := hpred.symm
  rw [hlast] at hspliced
  rw [linkAt_self, Towers.setSlot_tower_self]
  exact hspliced

/-- The slots after the swap link the levels with the node. -/
theorem represents :
    (t.setSlot p i x).Represents ((t.setSlot p i x).listed (linkAt t L k i x)) := by
  refine ⟨rfl, rfl, rfl, rfl, fun j hj => ?_, fun j hj o ho => ?_, h.rep.height_le⟩
  · by_cases hji : j = i
    · subst hji
      exact hs.chain h
    · change Chain _ 0 t.head (linkAt t L k i x j)
      rw [Towers.setSlot_tower_of_ne _ _ _ hji, linkAt_of_ne t L k x hji]
      exact h.rep.chain j hj
  -- the one new node of the level is tall enough by its own height
  · rcases List.mem_cons.mp ho with rfl | ho
    · exact h.rep.tall j hj _ List.mem_cons_self
    · by_cases hold : o ∈ L j
      · exact h.rep.tall j hj o (List.mem_cons_of_mem _ hold)
      · have hji : j = i := by
          by_contra hne
          rw [show ((t.setSlot p i x).listed (linkAt t L k i x)).levels j = L j from
            linkAt_of_ne t L k x hne] at ho
          exact hold ho
        obtain rfl := (hs.mem_linkAt ho).resolve_left hold
        exact hji ▸ hs.tall

theorem rely : Rely x t L (t.setSlot p i x) (linkAt t L k i x) where
  head_eq := rfl
  height_le := le_rfl
  linked j _ ho := (hs.sublist_linkAt h j).subset ho
  new _ _ ho := hs.mem_linkAt ho
  n_le := le_rfl
  bytes _ _ _ := rfl
  record _ _ _ := rfl
  shape _ _ := ⟨rfl, rfl, rfl⟩
  slot j o _ hnot := by
    by_cases hji : j = i
    · subst hji
      rw [Towers.setSlot_tower_self, Function.update_of_ne]
      rintro rfl
      exact hnot ((t.listed L).cons_lower_subset k j hs.below)
    · rw [Towers.setSlot_tower_of_ne _ _ _ hji]

/-- **The swap at the bottom level** inserts into the map. -/
theorem shared_zero (hi : i = 0) {v : Bytes} (hv : t.val x = v) (hlt : x < t.arena.n)
    (hkey : (t.nodes x).keyOffset + (t.nodes x).keySize ≤ t.arena.n)
    (hval : (t.nodes x).valOffset + (t.nodes x).valSize ≤ t.arena.n) :
    Shared (t.setSlot p i x) (linkAt t L k i x) (m.insert k v) := by
  subst hi
  -- seen from the map it is an insertion of height one, whatever the tower's height
  have hins : Skiplist.Inserted (t.listed L) k v 1 x
      ((t.setSlot p 0 x).listed (linkAt t L k 0 x)) := by
    refine ⟨rfl, ?_, fun j => ?_, hs.fresh, hs.ne_zero, hs.key_eq, hv, fun _ _ => rfl, fun _ _ => rfl⟩
    · exact (max_eq_left h.sim.height_pos).symm
    · change linkAt t L k 0 x j = _
      by_cases hj : j = 0
      · subst hj
        rw [linkAt_self, if_pos Nat.one_pos]
      · rw [linkAt_of_ne t L k x hj, if_neg (by omega)]
        rfl
  -- the splice was checked against the key, so no node has it yet
  have hnew : ∀ o ∈ L 0, t.key o ≠ k := fun o ho => h.key_ne hs.level_lt hs.below hs.next ho
  refine ⟨⟨hins.linked h.sim.toLinked Nat.one_pos hnew, hins.entries_eq h.sim Nat.one_pos hnew,
    fun o ho => ?_, fun o ho => ?_, fun o ho => ?_⟩, hs.represents h⟩
  · rcases List.mem_cons.mp ho with rfl | ho
    · exact h.sim.node_lt _ List.mem_cons_self
    · rcases hs.mem_linkAt (j := 0) ho with ho | rfl
      · exact h.sim.node_lt o (List.mem_cons_of_mem _ ho)
      · exact hlt
  · rcases hs.mem_linkAt (j := 0) ho with ho | rfl
    · exact h.sim.key_le o ho
    · exact hkey
  · rcases hs.mem_linkAt (j := 0) ho with ho | rfl
    · exact h.sim.val_le o ho
    · exact hval

/-- The level with the node is a sublist of the one below, which has the node already. -/
theorem linkAt_sublist_below {j : ℕ} (hi : i = j + 1) (hx : x ∈ L j) :
    (linkAt t L k i x i).Sublist (L j) := by
  subst hi
  have hsplit : (t.listed L).lower k j ++ (t.listed L).upper k j = L j :=
    h.sim.lower_append_upper k j
  -- in the level below the node is the first that is not below the key
  obtain ⟨rest, hupper⟩ := h.sim.head_upper_of_mem (i := j) hx hs.key_eq
  have hnot : x ∉ (t.listed L).upper k (j + 1) := fun hmem =>
    hs.fresh (List.mem_cons_of_mem _ (Skiplist.mem_upper.mp hmem).1)
  have hrest : ((t.listed L).upper k (j + 1)).Sublist rest := by
    have hsub := h.sim.upper_sublist k j
    rw [hupper] at hsub
    rcases List.sublist_cons_iff.mp hsub with hsub | ⟨r, hr, -⟩
    · exact hsub
    · exact absurd (hr ▸ List.mem_cons_self) hnot
  rw [linkAt_self, ← hsplit, hupper]
  exact (h.sim.lower_sublist k j).append (hrest.cons_cons x)

/-- **The swap at a level above** changes the towers only. -/
theorem shared_succ {j : ℕ} (hi : i = j + 1) (hx : x ∈ L j) (hheight : i < t.height) :
    Shared (t.setSlot p i x) (linkAt t L k i x) m := by
  have hzero : linkAt t L k i x 0 = L 0 := linkAt_of_ne t L k x (by omega)
  refine ⟨⟨⟨?_, fun l => ?_, fun l hl => ?_, h.sim.height_pos, ?_, ?_⟩, ?_, fun o ho => ?_,
    fun o ho => ?_, fun o ho => ?_⟩, hs.represents h⟩
  · change (linkAt t L k i x 0).Pairwise fun a b => t.key a < t.key b
    rw [hzero]
    exact h.sim.sorted
  · change (linkAt t L k i x (l + 1)).Sublist (linkAt t L k i x l)
    -- only two neighbours of the level are new to check: the one above and the one below
    by_cases hl : l + 1 = i
    · rw [hl, linkAt_of_ne t L k x (by omega : l ≠ i)]
      have hlj : l = j := by omega
      exact hlj ▸ hs.linkAt_sublist_below h hi hx
    · rw [linkAt_of_ne t L k x hl]
      exact (h.sim.sublist l).trans (hs.sublist_linkAt h l)
  · have hl' : t.height ≤ l := hl
    exact (linkAt_of_ne t L k x (by omega)).trans (h.sim.empty_above l hl)
  · change t.head ∉ linkAt t L k i x 0
    rw [hzero]
    exact h.sim.head_not_mem
  · change 0 ∉ t.head :: linkAt t L k i x 0
    rw [hzero]
    exact h.sim.zero_not_mem
  · change (linkAt t L k i x 0).map (fun o => (t.key o, t.val o)) = m.entries
    rw [hzero]
    exact h.sim.entries_eq
  · have ho' : o ∈ t.head :: linkAt t L k i x 0 := ho
    rw [hzero] at ho'
    exact h.sim.node_lt o ho'
  · have ho' : o ∈ linkAt t L k i x 0 := ho
    rw [hzero] at ho'
    exact h.sim.key_le o ho'
  · have ho' : o ∈ linkAt t L k i x 0 := ho
    rw [hzero] at ho'
    exact h.sim.val_le o ho'

end Swap

/-! ## Storing a value -/

/-- `setValue` stores the value word. -/
def storeWord (t : Towers) (o offset size : ℕ) : Towers :=
  { t with nodes := Function.update t.nodes o { t.nodes o with valOffset := offset, valSize := size } }

section StoreWord

variable {offset size : ℕ} (h : Shared t L m)

theorem storeWord_shape (t : Towers) (o offset size p : ℕ) :
    ((storeWord t o offset size).nodes p).keyOffset = (t.nodes p).keyOffset ∧
      ((storeWord t o offset size).nodes p).keySize = (t.nodes p).keySize ∧
      ((storeWord t o offset size).nodes p).height = (t.nodes p).height := by
  by_cases hpo : p = o
  · simp [storeWord, hpo]
  · simp [storeWord, Function.update_of_ne hpo]

theorem rely_storeWord (x : ℕ) (ho : o ∈ L 0) : Rely x t L (storeWord t o offset size) L where
  head_eq := rfl
  height_le := le_rfl
  linked _ _ hp := hp
  new _ _ hp := Or.inl hp
  n_le := le_rfl
  bytes _ _ _ := rfl
  record p _ hp := by
    have hpo : p ≠ o := fun heq => hp (heq ▸ ho)
    exact Function.update_of_ne hpo ..
  shape p _ := storeWord_shape t o offset size p
  slot _ _ _ _ := rfl

include h

/-- **A stored value word** overwrites the value of the key. -/
theorem shared_storeWord (ho : o ∈ L 0) {v : Bytes} (hv : t.arena.getBytes offset size = v)
    (hle : offset + size ≤ t.arena.n) :
    Shared (storeWord t o offset size) L (m.insert (t.key o) v) := by
  have hkey : ∀ p, (storeWord t o offset size).key p = t.key p := by
    intro p
    obtain ⟨hoffset, hsize, -⟩ := storeWord_shape t o offset size p
    rw [Towers.key, Towers.key, hoffset, hsize]
    rfl
  have hval : ∀ p, (storeWord t o offset size).val p = if p = o then v else t.val p := by
    intro p
    by_cases hpo : p = o
    · simp only [Towers.val, storeWord, hpo, Function.update_self, if_true]
      exact hv
    · simp only [Towers.val, storeWord, Function.update_of_ne hpo, if_neg hpo]
  have hentries : (L 0).map (fun p => (t.key p, t.val p)) = m.entries := h.sim.entries_eq
  refine ⟨⟨⟨?_, h.sim.sublist, h.sim.empty_above, h.sim.height_pos, h.sim.head_not_mem,
    h.sim.zero_not_mem⟩, ?_, h.sim.node_lt, fun p hp => ?_, fun p hp => ?_⟩,
    ⟨rfl, rfl, rfl, rfl, h.rep.chain, fun i hi p hp => ?_, h.rep.height_le⟩⟩
  · refine h.sim.sorted.imp fun {a b} hab => ?_
    change (storeWord t o offset size).key a < (storeWord t o offset size).key b
    rw [hkey, hkey]
    exact hab
  · -- keys of the bottom level are distinct, so the node is the only one with this key
    have hiff : ∀ p ∈ L 0, (t.key p = t.key o ↔ p = o) := fun p hp =>
      ⟨fun hpk => h.sim.key_inj (i := 0) hp ho hpk, fun hpo => congrArg t.key hpo⟩
    have hmem : ∃ e ∈ m.entries, e.1 = t.key o :=
      ⟨(t.key o, t.val o), hentries ▸ List.mem_map_of_mem ho, rfl⟩
    change (L 0).map (fun p => ((storeWord t o offset size).key p,
      (storeWord t o offset size).val p)) = insertList (t.key o) v m.entries
    rw [insertList_eq_map m.sorted hmem, ← hentries, List.map_map]
    refine List.map_congr_left fun p hp => ?_
    simp only [Function.comp_apply, hkey, hval, hiff p hp]
    split_ifs with hpo
    · rw [hpo]
    · rfl
  · obtain ⟨hoffset, hsize, -⟩ := storeWord_shape t o offset size p
    change ((storeWord t o offset size).nodes p).keyOffset + _ ≤ _
    rw [hoffset]
    exact hsize.symm ▸ h.sim.key_le p hp
  · change ((storeWord t o offset size).nodes p).valOffset +
      ((storeWord t o offset size).nodes p).valSize ≤ t.arena.n
    by_cases hpo : p = o
    · simpa [storeWord, hpo] using hle
    · simp only [storeWord, Function.update_of_ne hpo]
      exact h.sim.val_le p hp
  · obtain ⟨-, -, hheight⟩ := storeWord_shape t o offset size p
    change i < ((storeWord t o offset size).nodes p).height
    rw [hheight]
    exact h.rep.tall i hi p hp

end StoreWord

end Shared

end Concurrent

end Seol
