import Seol.Common.Chain
import Seol.Common.Checked
import Seol.Skiplist.Fill

/-!
# The towers of a skiplist

Reference: `skiplist/skiplist.go`, pointer by pointer. A tower slot holds the offset of the next
node, zero for nil, and the loops of the source take a bound on their rounds. Reading or writing a
slot at or beyond the height of its node, following a nil node and each `panic` of `Put` are faults
of the model. `Represents` ties the slots to the lists that a `Skiplist` keeps for its levels: every
operation then computes what it computes there, and no fault occurs.
-/

namespace Seol

open Common

/-- What stops an operation on the towers. -/
inductive SkipFault where
  /-- A nil node is followed. -/
  | nilNode
  /-- A slot at or beyond the height of its node is touched. -/
  | slot (node level : ℕ)
  /-- "skiplist: missing splice on base level" -/
  | missingSplice
  /-- "skiplist: duplicate key above base level" -/
  | duplicateKey
  /-- "skiplist: equality can happen only on base level" -/
  | equalityAboveBase
  /-- The bound on the rounds of a loop is used up. -/
  | rounds
  deriving DecidableEq, Repr

/-- A skiplist as the code has it: `tower level o` is the slot of node `o` at a level. -/
structure Towers where
  arena : Arena
  head : ℕ
  height : ℕ
  nodes : ℕ → Node
  tower : ℕ → ℕ → ℕ

/-- The outcome of the descent of `Put`: a node with the key, or the arrays `prev` and `next`. -/
inductive Descent where
  | found (node : ℕ)
  | missing (prev next : ℕ → ℕ)

namespace Towers

/-- `New`. -/
def new (arenaSize : ℕ) : Towers :=
  let (head, node, arena) := Skiplist.newNode (Arena.newArena arenaSize) [] [] maxHeight
  { arena := arena, head := head, height := 1, nodes := fun _ => node, tower := fun _ _ => 0 }

/-- `node.key`. -/
def key (t : Towers) (o : ℕ) : Bytes := t.arena.getBytes (t.nodes o).keyOffset (t.nodes o).keySize

/-- The bytes a node's value word points at. -/
def val (t : Towers) (o : ℕ) : Bytes := t.arena.getBytes (t.nodes o).valOffset (t.nodes o).valSize

/-- Whether the slot may be touched. -/
def slot (t : Towers) (o level : ℕ) : Except SkipFault Unit :=
  if o = 0 then .error .nilNode
  else if (t.nodes o).height ≤ level then .error (.slot o level)
  else .ok ()

/-- `getNext`. -/
def getNext (t : Towers) (o level : ℕ) : Except SkipFault ℕ := do
  t.slot o level
  return t.tower level o

/-- The towers with one slot written. -/
def setSlot (t : Towers) (o level next : ℕ) : Towers :=
  { t with tower := Function.update t.tower level (Function.update (t.tower level) o next) }

/-- `tower[level].Store`. -/
def store (t : Towers) (o level next : ℕ) : Except SkipFault Towers := do
  t.slot o level
  return t.setSlot o level next

/-- `casNextOffset`; `none` when the slot has another value. -/
def casNextOffset (t : Towers) (o level old val : ℕ) : Except SkipFault (Option Towers) := do
  if (← t.getNext o level) = old then return some (← t.store o level val) else return none

/-- `findSpliceForLevel`. -/
def findSpliceForLevel (t : Towers) (k : Bytes) (level : ℕ) : ℕ → ℕ → Except SkipFault (ℕ × ℕ)
  | 0, _ => .error .rounds
  | rounds + 1, before => do
    let next ← t.getNext before level
    if next = 0 then return (before, 0)
    else if k = t.key next then return (next, next)
    else if k < t.key next then return (before, next)
    else findSpliceForLevel t k level rounds next

/-- The first loop of `Put`, from the top level down. -/
def descend (t : Towers) (rounds : ℕ) (k : Bytes) :
    ℕ → (ℕ → ℕ) → (ℕ → ℕ) → Except SkipFault Descent
  | 0, prev, next => .ok (.missing prev next)
  | i + 1, prev, next => do
    let (p, n) ← t.findSpliceForLevel k i rounds (prev (i + 1))
    if p = n then return .found p
    else descend t rounds k i (Function.update prev i p) (Function.update next i n)

/-- `setValue`. -/
def setValue (t : Towers) (o : ℕ) (v : Bytes) : Towers :=
  { t with
    arena := (t.arena.putBytes v).2
    nodes := Function.update t.nodes o
      { t.nodes o with valOffset := (t.arena.putBytes v).1, valSize := v.length % 2 ^ 32 } }

/-- The splice of one level: a level above the list's old height has none yet. -/
def spliceAt (t : Towers) (rounds : ℕ) (k : Bytes) (i prev next : ℕ) :
    Except SkipFault (ℕ × ℕ) := do
  if prev = 0 then
    if i = 0 then throw .missingSplice
    let (p, n) ← t.findSpliceForLevel k i rounds t.head
    if p = n then throw .duplicateKey
    return (p, n)
  else return (prev, next)

/-- The inner loop of `Put` at level `i`: link `x` between the splice, or compute the splice again.
The flag says that another node with the key was found and overwritten, which ends `Put`. -/
def linkLevel (t : Towers) (rounds : ℕ) (k v : Bytes) (x i : ℕ) :
    ℕ → ℕ → ℕ → Except SkipFault (Towers × Bool)
  | 0, _, _ => .error .rounds
  | tries + 1, prev, next => do
    let (prev, next) ← t.spliceAt rounds k i prev next
    let t₁ ← t.store x i next
    match ← t₁.casNextOffset prev i next x with
    | some t₂ => return (t₂, false)
    | none =>
      let (p, n) ← t₁.findSpliceForLevel k i rounds prev
      if p = n then
        if i ≠ 0 then throw .equalityAboveBase
        return (t₁.setValue p v, true)
      else linkLevel t₁ rounds k v x i tries p n

/-- The second loop of `Put`, over the levels of the new node. -/
def linkLevels (rounds : ℕ) (k v : Bytes) (x : ℕ) (prev next : ℕ → ℕ) (t : Towers) :
    List ℕ → Except SkipFault Towers
  | [] => .ok t
  | i :: is => do
    let (t, overwritten) ← t.linkLevel rounds k v x i rounds (prev i) (next i)
    if overwritten then return t else linkLevels rounds k v x prev next t is

/-- `Put` allocates a node and raises the list's height. With one writer the height is the one just
read, so its compare-and-swap succeeds. -/
def allocate (t : Towers) (k v : Bytes) (height : ℕ) : ℕ × Towers :=
  let (x, node, arena) := Skiplist.newNode t.arena k v height
  (x, { t with
    arena := arena, height := max t.height height, nodes := Function.update t.nodes x node })

/-- `Put`. -/
def put (t : Towers) (rounds : ℕ) (k v : Bytes) (height : ℕ) : Except SkipFault Towers := do
  let prev := Function.update (fun _ => 0) t.height t.head
  match ← t.descend rounds k t.height prev fun _ => 0 with
  | .found o => return t.setValue o v
  | .missing prev next =>
    let (x, t) := t.allocate k v height
    linkLevels rounds k v x prev next t (List.range height)

/-- `findNear`; the zero offset is the nil node. -/
def findNear (t : Towers) (k : Bytes) (less allowEqual : Bool) :
    ℕ → ℕ → ℕ → Except SkipFault (ℕ × Bool)
  | 0, _, _ => .error .rounds
  | rounds + 1, x, level => do
    let stay : ℕ × Bool := if x = t.head then (0, false) else (x, false)
    let next ← t.getNext x level
    if next = 0 then
      if 0 < level then findNear t k less allowEqual rounds x (level - 1)
      else if !less then return (0, false) else return stay
    else if t.key next < k then findNear t k less allowEqual rounds next level
    else if k = t.key next then
      if allowEqual then return (next, true)
      else if !less then return (← t.getNext next 0, false)
      else if 0 < level then findNear t k less allowEqual rounds x (level - 1)
      else return stay
    else if 0 < level then findNear t k less allowEqual rounds x (level - 1)
    else if !less then return (next, false)
    else return stay

/-- `Get`; `none` is the nil slice. -/
def get (t : Towers) (rounds : ℕ) (k : Bytes) : Except SkipFault (Option Bytes) := do
  let (o, equal) ← t.findNear k false true rounds t.head (t.height - 1)
  if equal then return some (t.val o) else return none

/-- `Next` until the iterator is no longer valid, with the entries on the way. -/
def visit (t : Towers) : ℕ → ℕ → Except SkipFault (List (Bytes × Bytes))
  | 0, _ => .error .rounds
  | rounds + 1, o => do
    if o = 0 then return []
    else
      let next ← t.getNext o 0
      return (t.key o, t.val o) :: (← visit t rounds next)

/-- `Rewind`, then `Next` to the end. -/
def iterate (t : Towers) (rounds : ℕ) : Except SkipFault (List (Bytes × Bytes)) := do
  t.visit rounds (← t.getNext t.head 0)

/-- A sequence of calls of `Put`. -/
def fill (rounds : ℕ) (t : Towers) (ps : List Insertion) : Except SkipFault Towers :=
  ps.foldlM (fun t p => t.put rounds p.key p.value p.height) t

end Towers

/-- The slots of `t` link, level by level, the nodes that `s` lists. -/
structure Towers.Represents (t : Towers) (s : Skiplist) : Prop where
  arena_eq : t.arena = s.arena
  head_eq : t.head = s.head
  height_eq : t.height = s.height
  nodes_eq : t.nodes = s.nodes
  chain : ∀ i < maxHeight, Chain (t.tower i) 0 s.head (s.levels i)
  tall : ∀ i < maxHeight, ∀ o ∈ s.head :: s.levels i, i < (s.nodes o).height
  height_le : s.height ≤ maxHeight

namespace Towers

theorem setSlot_tower_self (t : Towers) (o level next : ℕ) :
    (t.setSlot o level next).tower level = Function.update (t.tower level) o next :=
  Function.update_self ..

theorem setSlot_tower_of_ne (t : Towers) (o next : ℕ) {i level : ℕ} (hi : i ≠ level) :
    (t.setSlot o level next).tower i = t.tower i :=
  Function.update_of_ne hi ..

theorem represents_new (size : ℕ) : Represents (new size) (Skiplist.new size) where
  arena_eq := rfl
  head_eq := rfl
  height_eq := rfl
  nodes_eq := rfl
  chain _ _ := rfl
  tall i hi o _ := hi
  height_le := show 1 ≤ maxHeight by decide

namespace Represents

variable {t : Towers} {s : Skiplist} {m : OrdMap Bytes Bytes} {k v : Bytes} {rounds : ℕ}
  (hr : t.Represents s) (h : s.Linked)

include hr

theorem key_eq (o : ℕ) : t.key o = s.key o := by
  rw [key, Skiplist.key, hr.arena_eq, hr.nodes_eq]

theorem val_eq (o : ℕ) : t.val o = s.val o := by
  rw [val, Skiplist.val, hr.arena_eq, hr.nodes_eq]

/-- A node may be asked for its successor at the levels that link it. -/
theorem slot_eq {i o : ℕ} (hi : i < maxHeight) (ho : o ∈ s.head :: s.levels i) (hne : o ≠ 0) :
    t.slot o i = .ok () := by
  have htall := hr.tall i hi o ho
  rw [← hr.nodes_eq] at htall
  rw [slot, if_neg hne, if_neg (by omega)]

theorem getNext_eq {i o : ℕ} (hi : i < maxHeight) (ho : o ∈ s.head :: s.levels i) (hne : o ≠ 0) :
    t.getNext o i = .ok (t.tower i o) := by
  rw [getNext, hr.slot_eq hi ho hne]
  rfl

include h

/-- The slots from a linked node on chain the nodes listed after it. -/
theorem chain_after {i o : ℕ} (hi : i < maxHeight) (ho : o ∈ s.head :: s.levels i) :
    Chain (t.tower i) 0 o (s.after o i) ∧ ∀ p ∈ o :: s.after o i, p ∈ s.head :: s.levels i := by
  have hchain := hr.chain i hi
  rcases List.mem_cons.mp ho with rfl | ho'
  · rw [Skiplist.Linked.after_head]
    exact ⟨hchain, fun p hp => hp⟩
  · obtain ⟨as, bs, hlevel⟩ := List.append_of_mem ho'
    rw [h.after_of_split hlevel]
    refine ⟨?_, fun p hp => ?_⟩
    · rw [hlevel] at hchain
      exact hchain.drop
    · rw [hlevel]
      exact List.mem_cons_of_mem _ (List.mem_append_right _ hp)

/-! ## The searches -/

/-- The splice loop over a chain is the one over the list of its nodes. -/
theorem findSpliceForLevel_chain {i before : ℕ} {l : List ℕ} (hi : i < maxHeight)
    (hchain : Chain (t.tower i) 0 before l)
    (hmem : ∀ p ∈ before :: l, p ∈ s.head :: s.levels i) (hrounds : l.length < rounds) :
    t.findSpliceForLevel k i rounds before = .ok (s.spliceFrom k before l) := by
  induction l generalizing before rounds with
  | nil =>
    obtain ⟨rounds, rfl⟩ := Nat.exists_eq_add_one_of_ne_zero (Nat.ne_zero_of_lt hrounds)
    have hnext : t.tower i before = 0 := hchain
    have hb := hmem _ List.mem_cons_self
    rw [findSpliceForLevel, hr.getNext_eq hi hb (h.ne_zero hb), hnext]
    rfl
  | cons next l ih =>
    obtain ⟨rounds, rfl⟩ := Nat.exists_eq_add_one_of_ne_zero (Nat.ne_zero_of_lt hrounds)
    obtain ⟨hnext, hrest⟩ := hchain
    have hmem' : ∀ p ∈ next :: l, p ∈ s.head :: s.levels i := fun p hp =>
      hmem p (List.mem_cons_of_mem _ hp)
    have hb := hmem _ List.mem_cons_self
    have hne : next ≠ 0 := h.ne_zero (hmem' next List.mem_cons_self)
    have hih := ih hrest hmem' (Nat.lt_of_succ_lt_succ hrounds)
    rw [findSpliceForLevel, hr.getNext_eq hi hb (h.ne_zero hb), hnext, Skiplist.spliceFrom]
    simp only [bind, Except.bind, pure, Except.pure, if_neg hne, hr.key_eq, hih]
    split_ifs <;> rfl

theorem findSpliceForLevel_eq {i before : ℕ} (hi : i < maxHeight)
    (hb : before ∈ s.head :: s.levels i) (hrounds : (s.levels 0).length < rounds) :
    t.findSpliceForLevel k i rounds before = .ok (s.findSpliceForLevel k before i) := by
  obtain ⟨hchain, hmem⟩ := hr.chain_after h hi hb
  exact hr.findSpliceForLevel_chain h hi hchain hmem ((h.length_after_le _ _).trans_lt hrounds)

/-- **The descent of `Put` over the slots** finds the node with the key, or the splice of each
level it visits. -/
theorem descend_spec (hrounds : (s.levels 0).length < rounds) (n : ℕ) (hn : n ≤ maxHeight)
    (prev next : ℕ → ℕ) (hb : ∀ i, n = i + 1 → prev n ∈ s.head :: s.lower k i) :
    (∃ o ∈ s.levels 0, s.key o = k ∧ t.descend rounds k n prev next = .ok (.found o)) ∨
    ((∀ i < n, ∀ o ∈ s.levels i, s.key o ≠ k) ∧ ∃ prev' next',
      t.descend rounds k n prev next = .ok (.missing prev' next') ∧
      (∀ i < n, prev' i = s.pred k i ∧ next' i = (s.upper k i).headD 0) ∧
      ∀ i, n ≤ i → prev' i = prev i ∧ next' i = next i) := by
  induction n generalizing prev next with
  | zero => exact Or.inr ⟨by simp, prev, next, rfl, by simp, fun _ _ => ⟨rfl, rfl⟩⟩
  | succ n ih =>
    have hbefore := hb n rfl
    have hfind := hr.findSpliceForLevel_eq h (k := k) hn (s.cons_lower_subset k n hbefore) hrounds
    by_cases hmem : ∃ o ∈ s.levels n, s.key o = k
    · obtain ⟨o, ho, hk⟩ := hmem
      refine Or.inl ⟨o, h.mem_zero ho, hk, ?_⟩
      rw [descend, hfind, h.findSpliceForLevel_of_mem hbefore ho hk]
      simp only [bind, Except.bind, if_true]
      rfl
    · push Not at hmem
      obtain ⟨hsplice, hne⟩ := h.findSpliceForLevel_of_not_mem hbefore hmem
      set prev₁ := Function.update prev n (s.pred k n) with hprev₁
      set next₁ := Function.update next n ((s.upper k n).headD 0) with hnext₁
      have hstep : t.descend rounds k (n + 1) prev next = t.descend rounds k n prev₁ next₁ := by
        rw [descend, hfind, hsplice]
        simp only [bind, Except.bind, if_neg hne, ← hprev₁, ← hnext₁]
      rw [hstep]
      rcases ih (by omega) prev₁ next₁ (fun i hi => by
          -- the predecessor at this level is linked at the level below as well
          rw [hprev₁, Function.update_self, hi]
          exact List.cons_subset_cons _ (h.lower_sublist k i).subset (s.pred_mem k (i + 1)))
        with hfound | ⟨hnone, prev', next', hmiss, hbelow, habove⟩
      · exact Or.inl hfound
      · refine Or.inr ⟨fun i hi => ?_, prev', next', hmiss, fun i hi => ?_, fun i hi => ?_⟩
        · rcases Nat.lt_succ_iff_lt_or_eq.mp hi with hi | rfl
          · exact hnone i hi
          · exact hmem
        · rcases Nat.lt_succ_iff_lt_or_eq.mp hi with hi | rfl
          · exact hbelow i hi
          · obtain ⟨hp, hq⟩ := habove i le_rfl
            rw [hp, hq, hprev₁, hnext₁, Function.update_self, Function.update_self]
            exact ⟨rfl, rfl⟩
        · obtain ⟨hp, hq⟩ := habove i (by omega)
          have hin : i ≠ n := by omega
          rw [hp, hq, hprev₁, hnext₁, Function.update_of_ne hin, Function.update_of_ne hin]
          exact ⟨rfl, rfl⟩

omit h in
/-- At a level that links nothing the splice is the head and nil. -/
theorem findSpliceForLevel_empty {i : ℕ} (hi : i < maxHeight) (hlevel : s.levels i = [])
    (hne : s.head ≠ 0) (hrounds : 0 < rounds) :
    t.findSpliceForLevel k i rounds t.head = .ok (s.head, 0) := by
  obtain ⟨rounds, rfl⟩ := Nat.exists_eq_add_one_of_ne_zero hrounds.ne'
  have hchain := hr.chain i hi
  rw [hlevel] at hchain
  have hnext : t.tower i s.head = 0 := hchain
  rw [findSpliceForLevel, hr.head_eq, hr.getNext_eq hi List.mem_cons_self hne, hnext]
  rfl

end Represents

/-! ## Linking a node -/

/-- The list `s` with the levels below `j` as in `s'`. -/
def linkedBelow (s s' : Skiplist) (j : ℕ) : Skiplist :=
  { s' with levels := fun i => if i < j then s'.levels i else s.levels i }

/-- The list `s'` is `s` with a fresh node `x` linked at the levels below its height. -/
structure Links (s s' : Skiplist) (k : Bytes) (x height : ℕ) : Prop where
  linked : s.Linked
  head_eq : s'.head = s.head
  level_eq : ∀ i, s'.levels i =
    if i < height then s.lower k i ++ x :: s.upper k i else s.levels i
  fresh : x ∉ s.head :: s.levels 0
  ne_zero : x ≠ 0
  height_eq : (s'.nodes x).height = height
  height_le : height ≤ maxHeight

/-- The splice `Put` has for a level: the one of the descent, or nil above the list's height. -/
def Spliced (s : Skiplist) (k : Bytes) (i prev next : ℕ) : Prop :=
  prev = s.pred k i ∧ next = (s.upper k i).headD 0 ∨ prev = 0 ∧ s.height < i

section Link

variable {t : Towers} {s s' : Skiplist} {m : OrdMap Bytes Bytes} {k v : Bytes} {x height j : ℕ}
  {rounds tries prev next : ℕ} {prevs : List ℕ}

theorem linkedBelow_of_lt {i : ℕ} (hi : i < j) : (linkedBelow s s' j).levels i = s'.levels i :=
  if_pos hi

theorem linkedBelow_of_le {i : ℕ} (hi : j ≤ i) : (linkedBelow s s' j).levels i = s.levels i :=
  if_neg hi.not_gt

/-- The splice of a level that is not linked yet. -/
theorem spliceAt_eq (hl : Links s s' k x height) (hr : t.Represents (linkedBelow s s' j))
    (hj : j < height) (hrounds : 0 < rounds) (hs : Spliced s k j prev next) :
    t.spliceAt rounds k j prev next = .ok (s.pred k j, (s.upper k j).headD 0) := by
  rcases hs with ⟨rfl, rfl⟩ | ⟨rfl, hheight⟩
  · rw [spliceAt, if_neg (hl.linked.ne_zero (s.cons_lower_subset k j (s.pred_mem k j)))]
    rfl
  · -- above the old height the level links nothing, and the search starts at the head
    have hempty : s.levels j = [] := hl.linked.empty_above j hheight.le
    have hlevel : (linkedBelow s s' j).levels j = [] := (linkedBelow_of_le le_rfl).trans hempty
    have hhead : (linkedBelow s s' j).head = s.head := hl.head_eq
    have hne : s.head ≠ 0 := hl.linked.ne_zero (i := 0) List.mem_cons_self
    have hfind := hr.findSpliceForLevel_empty (k := k) (hj.trans_le hl.height_le) hlevel
      (hhead ▸ hne) hrounds
    rw [hhead] at hfind
    have hpred : s.pred k j = s.head := by simp [Skiplist.pred, Skiplist.lower, hempty]
    have hupper : s.upper k j = [] := by simp [Skiplist.upper, hempty]
    rw [spliceAt, if_pos rfl, if_neg (by omega), hfind, hpred, hupper]
    simp only [bind, Except.bind, pure, Except.pure, if_neg hne, List.headD_nil]

/-- A node that is not in the list is in none of its levels. -/
theorem Links.not_mem (hl : Links s s' k x height) (i : ℕ) : x ∉ s.head :: s.levels i := fun hmem =>
  hl.fresh (List.cons_subset_cons _ (hl.linked.sublist_zero i).subset hmem)

/-- The chain of a level that is not linked yet, split at the key. -/
theorem Represents.chain_split (hl : Links s s' k x height)
    (hr : t.Represents (linkedBelow s s' j)) (hj : j < maxHeight) :
    Chain (t.tower j) 0 s.head (s.lower k j ++ s.upper k j) := by
  have hchain := hr.chain j hj
  rwa [linkedBelow_of_le le_rfl, show (linkedBelow s s' j).head = s.head from hl.head_eq,
    ← hl.linked.lower_append_upper k j] at hchain

/-- **The two stores of a level**: the slot of the new node, then that of its predecessor. -/
theorem Represents.splice (hl : Links s s' k x height) (hr : t.Represents (linkedBelow s s' j))
    (hj : j < height) :
    ((t.setSlot x j ((s.upper k j).headD 0)).setSlot (s.pred k j) j x).Represents
      (linkedBelow s s' (j + 1)) := by
  have hchain := hr.chain_split hl (hj.trans_le hl.height_le)
  have hsplit := hl.linked.lower_append_upper k j
  have hlevel : (linkedBelow s s' (j + 1)).levels j = s.lower k j ++ x :: s.upper k j := by
    rw [linkedBelow_of_lt (Nat.lt_succ_self j), hl.level_eq, if_pos hj]
  -- a level is linked at a time, the others stay
  have hother : ∀ i, i ≠ j →
      (linkedBelow s s' (j + 1)).levels i = (linkedBelow s s' j).levels i := by
    intro i hi
    have hiff : i < j + 1 ↔ i < j := by omega
    simp only [linkedBelow, hiff]
  refine ⟨hr.arena_eq, hr.head_eq, hr.height_eq, hr.nodes_eq, fun i hi => ?_,
    fun i hi o ho => ?_, hr.height_le⟩
  · by_cases hij : i = j
    · subst hij
      have hnodup : (s.head :: (s.lower k i ++ s.upper k i)).Nodup := by
        rw [hsplit]
        exact List.nodup_cons.mpr
          ⟨fun hmem => hl.linked.head_ne hmem rfl, hl.linked.nodup_level i⟩
      rw [hlevel, setSlot_tower_self, setSlot_tower_self]
      -- first the new node points to its successor, then its predecessor to it
      have hspliced := hchain.splice hnodup (hsplit.symm ▸ hl.not_mem i)
      exact hl.head_eq.symm ▸ hspliced
    · rw [hother i hij, setSlot_tower_of_ne _ _ _ hij, setSlot_tower_of_ne _ _ _ hij]
      exact hr.chain i hi
  · by_cases hij : i = j
    · subst hij
      rw [hlevel] at ho
      -- the one new node of the level is as tall as the tower
      have hcases : o = x ∨ o ∈ (linkedBelow s s' i).head :: (linkedBelow s s' i).levels i := by
        rw [linkedBelow_of_le le_rfl, ← hsplit]
        simp only [List.mem_cons, List.mem_append] at ho ⊢
        tauto
      rcases hcases with rfl | ho
      · exact hj.trans_eq hl.height_eq.symm
      · exact hr.tall i hi o ho
    · rw [hother i hij] at ho
      exact hr.tall i hi o ho

/-- **One level of the second loop of `Put`**: the compare-and-swap finds the slot as the splice
says, and the level is linked as the list model has it. -/
theorem linkLevel_spec (hl : Links s s' k x height) (hr : t.Represents (linkedBelow s s' j))
    (hj : j < height) (hrounds : 0 < rounds) (htries : 0 < tries)
    (hs : Spliced s k j prev next) :
    ∃ t', t.linkLevel rounds k v x j tries prev next = .ok (t', false) ∧
      t'.Represents (linkedBelow s s' (j + 1)) := by
  obtain ⟨tries, rfl⟩ := Nat.exists_eq_add_one_of_ne_zero htries.ne'
  have hj' : j < maxHeight := hj.trans_le hl.height_le
  refine ⟨_, ?_, hr.splice hl hj⟩
  have hsplice := spliceAt_eq hl hr hj hrounds hs
  have hnext : t.tower j (s.pred k j) = (s.upper k j).headD 0 :=
    (hr.chain_split hl hj').next_getLastD
  generalize hn : (s.upper k j).headD 0 = n at hsplice hnext ⊢
  generalize hp : s.pred k j = p at hsplice hnext ⊢
  have hpmem : p ∈ s.head :: s.levels j := hp ▸ s.cons_lower_subset k j (s.pred_mem k j)
  have hpx : p ≠ x := fun heq => hl.not_mem j (heq ▸ hpmem)
  have hpslot : t.slot p j = .ok () := by
    have hhead : (linkedBelow s s' j).head = s.head := hl.head_eq
    exact hr.slot_eq hj' (by rwa [linkedBelow_of_le le_rfl, hhead]) (hl.linked.ne_zero hpmem)
  have hxslot : t.slot x j = .ok () := by
    have hheight : (t.nodes x).height = height := by
      rw [hr.nodes_eq]
      exact hl.height_eq
    rw [slot, if_neg hl.ne_zero, if_neg (by omega)]
  -- the slot of `x` is written first, and that of its predecessor still has the old value
  have hstore : t.store x j n = .ok (t.setSlot x j n) := by
    rw [store, hxslot]
    rfl
  have hslot : (t.setSlot x j n).slot p j = .ok () := hpslot
  have hold : (t.setSlot x j n).tower j p = n := by
    rw [setSlot_tower_self, Function.update_of_ne hpx]
    exact hnext
  have hcas : (t.setSlot x j n).casNextOffset p j n x =
      .ok (some ((t.setSlot x j n).setSlot p j x)) := by
    simp only [casNextOffset, getNext, store, hslot, bind, Except.bind, pure, Except.pure, hold,
      if_true]
  rw [linkLevel, hsplice]
  simp only [bind, Except.bind, hstore, hcas]
  rfl

/-- The second loop of `Put` links every level of the new node. -/
theorem linkLevels_spec (hl : Links s s' k x height) (hrounds : 0 < rounds) {prev next : ℕ → ℕ}
    (hs : ∀ i < height, Spliced s k i (prev i) (next i)) (n : ℕ)
    (hr : t.Represents (linkedBelow s s' j)) (hn : j + n = height) :
    ∃ t', linkLevels rounds k v x prev next t (List.range' j n) = .ok t' ∧
      t'.Represents (linkedBelow s s' height) := by
  -- the levels from `j` up are still to be linked
  induction n generalizing t j with
  | zero =>
    obtain rfl : j = height := hn
    exact ⟨t, rfl, hr⟩
  | succ n ih =>
    obtain ⟨t₁, hlink, hr₁⟩ :=
      linkLevel_spec (v := v) hl hr (by omega) hrounds hrounds (hs j (by omega))
    obtain ⟨t₂, hrest, hr₂⟩ := ih hr₁ (by omega)
    refine ⟨t₂, ?_, hr₂⟩
    rw [List.range'_succ, linkLevels, hlink]
    exact hrest

/-- With all levels of the new node linked the list is complete. -/
theorem Links.linkedBelow_eq (hl : Links s s' k x height) : linkedBelow s s' height = s' := by
  have hlevels : (linkedBelow s s' height).levels = s'.levels := by
    funext i
    by_cases hi : i < height
    · exact linkedBelow_of_lt hi
    · rw [linkedBelow_of_le (not_lt.mp hi), hl.level_eq, if_neg hi]
  show ({ s' with levels := (linkedBelow s s' height).levels } : Skiplist) = s'
  rw [hlevels]

/-- What `Put` does to the list model is to link the fresh node behind the predecessors of its
key. -/
theorem links_link (h : s.Sim m) (hk : k.length < 2 ^ 16) (hheight : height ≤ maxHeight)
    (hin : s.arena.n + (Arena.nodeSize height + k.length + v.length) ≤ s.arena.size)
    (hwrap : s.arena.n + (Arena.nodeSize height + k.length + v.length) < 2 ^ 32) :
    Links s (s.link k v height ((List.range s.height).map (s.pred k))) k
      (Skiplist.newNode s.arena k v height).1 height := by
  have hal := Skiplist.newNode_allocated hk hin hwrap
  have hi := h.link_inserted rfl hal _ (h.getD_range_pred k)
  refine ⟨h.toLinked, hi.head_eq, hi.level_eq, hi.fresh, hi.ne_zero, ?_, hheight⟩
  simp only [Skiplist.link, Function.update_self, Skiplist.newNode]

/-- The node is allocated before any level links it. -/
theorem Represents.allocate (hr : t.Represents s) (hheight : height ≤ maxHeight)
    (hl : Links s (s.link k v height prevs) k (Skiplist.newNode s.arena k v height).1 height) :
    (t.allocate k v height).2.Represents (linkedBelow s (s.link k v height prevs) 0) := by
  refine ⟨?_, hr.head_eq, ?_, ?_, hr.chain, fun i hi o ho => ?_, max_le hr.height_le hheight⟩
  · simp only [Towers.allocate, hr.arena_eq, linkedBelow, Skiplist.link]
  · simp only [Towers.allocate, hr.height_eq, linkedBelow, Skiplist.link]
  · simp only [Towers.allocate, hr.arena_eq, hr.nodes_eq, linkedBelow, Skiplist.link]
  · have ho' : o ∈ s.head :: s.levels i := ho
    have hne : o ≠ (Skiplist.newNode s.arena k v height).1 := by
      rintro rfl
      exact hl.not_mem i ho'
    simp only [linkedBelow, Skiplist.link, Function.update_of_ne hne]
    exact hr.tall i hi o ho'

theorem Represents.setValue (hr : t.Represents s) (o : ℕ) (v : Bytes) :
    (t.setValue o v).Represents (s.setValue o v) := by
  refine ⟨?_, hr.head_eq, hr.height_eq, ?_, hr.chain, fun i hi p hp => ?_, hr.height_le⟩
  · simp only [Towers.setValue, Skiplist.setValue, hr.arena_eq]
  · simp only [Towers.setValue, Skiplist.setValue, hr.arena_eq, hr.nodes_eq]
  · have htall := hr.tall i hi p hp
    by_cases hpo : p = o
    · simp only [Skiplist.setValue, hpo, Function.update_self]
      rwa [hpo] at htall
    · simp only [Skiplist.setValue, Function.update_of_ne hpo]
      exact htall

/-- **`Put` over the slots** reaches none of its panics, touches no slot beyond a node's height, and
does what it does to the list model. -/
theorem Represents.put (hr : t.Represents s) (h : s.Sim m) (hk : k.length < 2 ^ 16)
    (hheight : height ≤ maxHeight) (hroom : s.Room k v height)
    (hrounds : (s.levels 0).length < rounds) :
    ∃ t', t.put rounds k v height = .ok t' ∧ t'.Represents (s.put k v height) := by
  obtain ⟨hin, hwrap⟩ := hroom
  have hdescend := hr.descend_spec h.toLinked (k := k) hrounds s.height hr.height_le
    (Function.update (fun _ => 0) s.height s.head) (fun _ => 0)
    (fun i _ => by rw [Function.update_self]; exact List.mem_cons_self)
  rw [← hr.head_eq, ← hr.height_eq] at hdescend
  rcases h.splice_spec k with ⟨o, ho, hok, hs⟩ | ⟨hnew, hs⟩
  · rcases hdescend with ⟨o', ho', hok', hfound⟩ | ⟨hnone, -⟩
    · obtain rfl : o' = o := h.key_inj ho' ho (hok'.trans hok.symm)
      refine ⟨t.setValue o' v, ?_, ?_⟩
      · rw [Towers.put, hfound]
        rfl
      · simp only [Skiplist.put, hs]
        exact hr.setValue o' v
    · exact absurd hok (hnone 0 (hr.height_eq ▸ h.height_pos) o ho)
  · rcases hdescend with ⟨o, ho, hok, -⟩ | ⟨-, prev, next, hmiss, hbelow, habove⟩
    · exact absurd hok (hnew o ho)
    · simp only [Skiplist.need, hs] at hin hwrap
      have hl := links_link h hk hheight hin hwrap
      have hspliced : ∀ i < height, Spliced s k i (prev i) (next i) := by
        intro i _
        rcases lt_trichotomy i s.height with hi | rfl | hi
        · exact Or.inl (hbelow i (hr.height_eq ▸ hi))
        · -- the descent starts with the head at the list's height
          obtain ⟨hp, hn⟩ := habove s.height hr.height_eq.le
          have hempty := h.empty_above s.height le_rfl
          refine Or.inl ⟨?_, ?_⟩
          · rw [hp, hr.height_eq, hr.head_eq, Function.update_self]
            simp [Skiplist.pred, Skiplist.lower, hempty]
          · rw [hn]
            simp [Skiplist.upper, hempty]
        · obtain ⟨hp, -⟩ := habove i (hr.height_eq ▸ hi.le)
          refine Or.inr ⟨?_, hi⟩
          rw [hp, hr.height_eq, Function.update_of_ne hi.ne']
      obtain ⟨t', hlink, hr'⟩ := linkLevels_spec (v := v) hl (Nat.zero_lt_of_lt hrounds) hspliced
        height (hr.allocate hheight hl) (Nat.zero_add _)
      refine ⟨t', ?_, ?_⟩
      · rw [Towers.put, hmiss, ← hlink, List.range_eq_range', ← hr.arena_eq]
        rfl
      · simp only [Skiplist.put, hs]
        rwa [hl.linkedBelow_eq] at hr'

end Link

/-! ## Reading -/

namespace Represents

variable {t : Towers} {s : Skiplist} {m : OrdMap Bytes Bytes} {k : Bytes} {less allowEqual : Bool}
  {rounds : ℕ} (hr : t.Represents s) (h : s.Linked)

include hr h

/-- The loop of `findNear` passes the nodes below the key, one in each round. -/
theorem findNear_append {level x : ℕ} {lo hi : List ℕ} (hlevel : level < maxHeight)
    (hchain : Chain (t.tower level) 0 x (lo ++ hi))
    (hmem : ∀ p ∈ x :: (lo ++ hi), p ∈ s.head :: s.levels level) (hlo : ∀ o ∈ lo, s.key o < k) :
    t.findNear k less allowEqual (lo.length + rounds) x level =
      t.findNear k less allowEqual rounds (lo.getLastD x) level := by
  induction lo generalizing x with
  | nil => rw [List.length_nil, Nat.zero_add, List.getLastD_nil]
  | cons a lo ih =>
    obtain ⟨hnext, hrest⟩ := hchain
    have hmem' : ∀ p ∈ a :: (lo ++ hi), p ∈ s.head :: s.levels level := fun p hp =>
      hmem p (List.mem_cons_of_mem _ hp)
    have hx := hmem x List.mem_cons_self
    have ha : s.key a < k := hlo a List.mem_cons_self
    have hne : a ≠ 0 := h.ne_zero (hmem' a List.mem_cons_self)
    rw [List.length_cons, Nat.add_right_comm, findNear, hr.getNext_eq hlevel hx (h.ne_zero hx),
      hnext, List.getLastD_cons]
    simp only [bind, Except.bind, if_neg hne, hr.key_eq, if_pos ha]
    exact ih hrest hmem' fun o ho => hlo o (List.mem_cons_of_mem _ ho)

omit hr h in
/-- A node or nil as an offset. -/
def offsetOf (r : Option ℕ × Bool) : ℕ × Bool := (r.1.getD 0, r.2)

/-- The rounds of `findNear` at one level, given what it does on the level below. -/
theorem findNear_level {level x : ℕ} (hlevel : level < maxHeight)
    (hx : x ∈ s.head :: s.lower k level)
    (hrounds : (level + 1) * ((s.levels 0).length + 1) ≤ rounds)
    (hdown : 0 < level → ∀ r, level * ((s.levels 0).length + 1) ≤ r →
      t.findNear k less allowEqual r (s.pred k level) (level - 1) =
        .ok (offsetOf (s.findNear k less allowEqual level (s.pred k level)))) :
    t.findNear k less allowEqual rounds x level =
      .ok (offsetOf (s.findNear k less allowEqual (level + 1) x)) := by
  obtain ⟨lo, hafter, hlo, hlast⟩ := h.after_eq hx
  have hwalk := h.walk_eq hx
  obtain ⟨hchain, hmem⟩ := hr.chain_after h hlevel (s.cons_lower_subset k level hx)
  have hlen : lo.length ≤ (s.levels 0).length := by
    have hle := h.length_after_le x level
    rw [hafter, List.length_append] at hle
    omega
  obtain ⟨r, rfl⟩ : ∃ r, rounds = lo.length + (r + 1) :=
    ⟨rounds - lo.length - 1, by rw [Nat.succ_mul] at hrounds; omega⟩
  have hr' : level * ((s.levels 0).length + 1) ≤ r := by
    rw [Nat.succ_mul] at hrounds
    omega
  rw [hafter] at hchain hmem
  have hp : s.pred k level ∈ s.head :: s.levels level :=
    s.cons_lower_subset k level (s.pred_mem k level)
  have hnext : t.tower level (s.pred k level) = (s.upper k level).headD 0 := by
    rw [← hlast]
    exact hchain.next_getLastD
  rw [hr.findNear_append h hlevel hchain hmem hlo, hlast, findNear,
    hr.getNext_eq hlevel hp (h.ne_zero hp), hnext]
  simp only [Skiplist.findNear, hwalk, bind, Except.bind, pure, Except.pure, hr.key_eq, hr.head_eq]
  -- the level ends, or the next node has the key or a greater one
  cases hu : s.upper k level with
  | nil =>
    simp only [List.headD_nil, List.head?_nil, if_true]
    by_cases hpos : 0 < level
    · rw [if_pos hpos, if_pos hpos, hdown hpos r hr']
    · rw [if_neg hpos, if_neg hpos]
      split_ifs <;> rfl
  | cons a rest =>
    obtain ⟨ha, hle⟩ := Skiplist.mem_upper.mp (hu ▸ List.mem_cons_self : a ∈ s.upper k level)
    have hne : a ≠ 0 := h.ne_zero (List.mem_cons_of_mem _ ha)
    have ha0 : a ∈ s.head :: s.levels 0 := List.mem_cons_of_mem _ (h.mem_zero ha)
    have hsucc : t.getNext a 0 = .ok ((s.after a 0).headD 0) := by
      rw [hr.getNext_eq (by decide) ha0 (h.ne_zero ha0)]
      exact congrArg _ (hr.chain_after h (by decide) ha0).1.head_eq
    simp only [List.headD_cons, List.head?_cons, if_neg hne, if_neg hle.not_gt, hsucc]
    -- at the bottom the search is over, otherwise it goes down at the predecessor
    by_cases hpos : 0 < level
    · simp only [if_pos hpos, hdown hpos r hr']
      split_ifs <;> simp [offsetOf]
    · simp only [if_neg hpos]
      split_ifs <;> simp [offsetOf]

/-- **`findNear` over the slots** is the one of the list model. -/
theorem findNear_eq {level x : ℕ} (hlevel : level < maxHeight)
    (hx : x ∈ s.head :: s.lower k level)
    (hrounds : (level + 1) * ((s.levels 0).length + 1) ≤ rounds) :
    t.findNear k less allowEqual rounds x level =
      .ok (offsetOf (s.findNear k less allowEqual (level + 1) x)) := by
  induction level generalizing x rounds with
  | zero => exact hr.findNear_level h hlevel hx hrounds fun hpos => absurd hpos (lt_irrefl 0)
  | succ level ih =>
    refine hr.findNear_level h hlevel hx hrounds fun _ r hr' => ?_
    refine ih (Nat.lt_of_succ_lt hlevel) ?_ hr'
    -- the predecessor at this level is linked at the level below as well
    exact List.cons_subset_cons _ (h.lower_sublist k level).subset (s.pred_mem k (level + 1))

/-- **`Get` over the slots** is the one of the list model. -/
theorem get_eq (hrounds : maxHeight * ((s.levels 0).length + 1) ≤ rounds) :
    t.get rounds k = .ok (s.get k) := by
  have hpos := h.height_pos
  have hheight : s.height - 1 + 1 = s.height := Nat.sub_add_cancel hpos
  have hlt : s.height - 1 < maxHeight := by
    have hle := hr.height_le
    omega
  have hfind : t.findNear k false true rounds s.head (s.height - 1) =
      .ok (offsetOf (s.findNear k false true (s.height - 1 + 1) s.head)) :=
    hr.findNear_eq h hlt List.mem_cons_self
      (hheight ▸ (Nat.mul_le_mul_right _ hr.height_le).trans hrounds)
  rw [hheight] at hfind
  rw [get, hr.head_eq, hr.height_eq, hfind, Skiplist.get]
  -- a node is found together with `equal`, and without it there is no value
  rcases h.findNear_spec k with ⟨o, -, -, hf⟩ | ⟨-, hf⟩
  · rw [hf]
    simp only [bind, Except.bind, offsetOf, hr.val_eq]
    rfl
  · generalize s.findNear k false true s.height s.head = r at hf
    obtain ⟨o, equal⟩ := r
    obtain rfl : equal = false := hf
    cases o <;> rfl

/-- The iterator behind a node walks the chain of the bottom level. -/
theorem visit_next {o : ℕ} {l : List ℕ} (hchain : Chain (t.tower 0) 0 o l)
    (hmem : ∀ p ∈ l, p ∈ s.head :: s.levels 0) (hrounds : l.length < rounds) :
    t.visit rounds (t.tower 0 o) = .ok (l.map fun p => (s.key p, s.val p)) := by
  obtain ⟨rounds, rfl⟩ := Nat.exists_eq_add_one_of_ne_zero (Nat.ne_zero_of_lt hrounds)
  induction l generalizing o rounds with
  | nil =>
    have hnext : t.tower 0 o = 0 := hchain
    rw [visit, if_pos hnext]
    rfl
  | cons next l ih =>
    obtain ⟨hnext, hrest⟩ := hchain
    have hb := hmem next List.mem_cons_self
    obtain ⟨rounds, rfl⟩ :=
      Nat.exists_eq_add_one_of_ne_zero (Nat.ne_zero_of_lt (Nat.lt_of_succ_lt_succ hrounds))
    have hih := ih hrest (fun p hp => hmem p (List.mem_cons_of_mem _ hp)) rounds
      (Nat.lt_of_succ_lt_succ hrounds)
    rw [visit, hnext, if_neg (h.ne_zero hb), hr.getNext_eq (by decide) hb (h.ne_zero hb),
      hr.key_eq, hr.val_eq]
    simp only [bind, Except.bind, hih]
    rfl

/-- **`Rewind` and `Next`** visit the entries of the list model. -/
theorem iterate_eq (hrounds : (s.levels 0).length < rounds) :
    t.iterate rounds = .ok s.entries := by
  have hhead : s.head ∈ s.head :: s.levels 0 := List.mem_cons_self
  rw [iterate, hr.head_eq, hr.getNext_eq (by decide) hhead (h.ne_zero hhead)]
  exact hr.visit_next h (hr.chain 0 (by decide)) (fun p hp => List.mem_cons_of_mem _ hp) hrounds

end Represents

/-! ## Sequences of calls -/

/-- The nodes that the slots link at each level: sorted by key, a sublist of the level below, and of
towers that reach the level. -/
structure Ordered (t : Towers) (levels : ℕ → List ℕ) : Prop where
  chain : ∀ i < maxHeight, Chain (t.tower i) 0 t.head (levels i)
  sorted : ∀ i < maxHeight, (levels i).Pairwise fun a b => t.key a < t.key b
  sublist : ∀ i, i + 1 < maxHeight → (levels (i + 1)).Sublist (levels i)
  tall : ∀ i < maxHeight, ∀ o ∈ levels i, i < (t.nodes o).height

theorem Represents.ordered {t : Towers} {s : Skiplist} (hr : t.Represents s) (h : s.Linked) :
    t.Ordered s.levels where
  chain i hi := hr.head_eq ▸ hr.chain i hi
  sorted i _ := by
    simp only [hr.key_eq]
    exact h.sorted_level i
  sublist i _ := h.sublist i
  tall i hi o ho := hr.nodes_eq ▸ hr.tall i hi o (List.mem_cons_of_mem _ ho)

/-- A sequence of calls that fits in the arena goes through, and is that of the list model. -/
theorem Represents.fill {t : Towers} {s : Skiplist} {m : OrdMap Bytes Bytes} {seen : List Bytes}
    {rounds : ℕ} (hr : t.Represents s) (h : s.Sim m) (hseen : Skiplist.Seen seen m)
    {ps : List Insertion} (hlegal : ∀ p ∈ ps, p.Legal)
    (hin : s.arena.n + fillSize seen ps ≤ s.arena.size)
    (hwrap : s.arena.n + fillSize seen ps < 2 ^ 32)
    (hrounds : m.entries.length + ps.length < rounds) :
    ∃ t', Towers.fill rounds t ps = .ok t' ∧ t'.Represents (s.fill ps) := by
  induction ps generalizing t s m seen with
  | nil => exact ⟨t, rfl, hr⟩
  | cons p ps ih =>
    -- the calls after the first have room for what they take, so the first has room too
    obtain ⟨hroom, hrest⟩ := h.room_of_fillSize hseen hin hwrap
    have hp := hlegal p List.mem_cons_self
    have hlen := m.length_insert_le p.key p.value
    rw [List.length_cons] at hrounds
    have hshort : (s.levels 0).length < rounds := by
      rw [h.length_levels]
      omega
    obtain ⟨t₁, hput, hr₁⟩ := hr.put h hp.key_lt hp.height_le hroom hshort
    obtain ⟨t₂, hfill, hr₂⟩ := ih hr₁ (h.put hp.key_lt hp.height_pos hroom)
      (hseen.insert p.key p.value) (fun q hq => hlegal q (List.mem_cons_of_mem _ hq))
      (by rw [hrest, Skiplist.put_size]; exact hin) (by rw [hrest]; exact hwrap) (by omega)
    refine ⟨t₂, ?_, hr₂⟩
    rw [Towers.fill, List.foldlM_cons, hput]
    exact hfill

/-- A sequence of calls on a new list that fits in the arena goes through, and is that of the list
model, which holds the last value put under each key. -/
theorem fill_represents (size rounds : ℕ) (ps : List Insertion) (hlegal : ∀ p ∈ ps, p.Legal)
    (hin : (new size).arena.n + fillSize [] ps ≤ size)
    (hwrap : (new size).arena.n + fillSize [] ps < 2 ^ 32)
    (hrounds : maxHeight * (ps.length + 1) ≤ rounds) :
    ∃ t m, fill rounds (new size) ps = .ok t ∧ t.Represents ((Skiplist.new size).fill ps) ∧
      ((Skiplist.new size).fill ps).Sim m ∧
      ((Skiplist.new size).fill ps).arena.n = (new size).arena.n + fillSize [] ps ∧
      (((Skiplist.new size).fill ps).levels 0).length ≤ ps.length ∧
      ∀ k, m.get k = lastOf (ps.map Insertion.entry) k := by
  have hsim := Skiplist.sim_new size
  have hrounds' : 20 * (ps.length + 1) ≤ rounds := hrounds
  have hempty : (OrdMap.empty : OrdMap Bytes Bytes).entries.length = 0 := rfl
  have hshort : (OrdMap.empty : OrdMap Bytes Bytes).entries.length + ps.length < rounds := by omega
  obtain ⟨t, hfill, hr⟩ := (represents_new size).fill hsim Skiplist.seen_empty hlegal hin hwrap
    hshort
  obtain ⟨hs, hn⟩ := hsim.fill Skiplist.seen_empty hlegal hin hwrap
  refine ⟨t, _, hfill, hr, hs, hn, ?_, fun k => ?_⟩
  -- a call adds at most one key
  · have hle := OrdMap.empty.length_insertAll_le (ps.map Insertion.entry)
    rw [List.length_map] at hle
    rw [hs.length_levels]
    omega
  · rw [OrdMap.get_insertAll, OrdMap.get_empty, Option.or_none]

/-- The skiplist is well formed and holds the map. The counter of its arena is a `uint32`. -/
def Holds (t : Towers) (m : OrdMap Bytes Bytes) : Prop :=
  ∃ s : Skiplist, t.Represents s ∧ s.Sim m ∧ s.arena.n < 2 ^ 32

/-- What `Put` calls that fit in the arena leave is well formed. -/
theorem fill_holds (size rounds : ℕ) (ps : List Insertion) (hlegal : ∀ p ∈ ps, p.Legal)
    (hin : (new size).arena.n + fillSize [] ps ≤ size)
    (hwrap : (new size).arena.n + fillSize [] ps < 2 ^ 32)
    (hrounds : maxHeight * (ps.length + 1) ≤ rounds) :
    ∃ t m, fill rounds (new size) ps = .ok t ∧ t.Holds m ∧
      ∀ k, m.get k = lastOf (ps.map Insertion.entry) k := by
  obtain ⟨t, m, hfill, hr, hs, hn, -, hlast⟩ :=
    fill_represents size rounds ps hlegal hin hwrap hrounds
  exact ⟨t, m, hfill, ⟨_, hr, hs, hn ▸ hwrap⟩, hlast⟩

/-- The iterator over a well-formed skiplist visits the entries of its map. -/
theorem Holds.iterate {t : Towers} {m : OrdMap Bytes Bytes} (h : t.Holds m) {rounds : ℕ}
    (hrounds : m.entries.length < rounds) : t.iterate rounds = .ok m.entries := by
  obtain ⟨s, hr, hs, -⟩ := h
  rw [hr.iterate_eq hs.toLinked (hs.length_levels ▸ hrounds), hs.entries_eq]

/-- Every node has its own place in the arena, so there are fewer than the counter can count. -/
theorem Holds.length_lt {t : Towers} {m : OrdMap Bytes Bytes} (h : t.Holds m) :
    m.entries.length < 2 ^ 32 := by
  obtain ⟨s, -, hs, hn⟩ := h
  have hne : ∀ {a b}, s.key a < s.key b → a ≠ b := fun hlt heq => hlt.ne (congrArg s.key heq)
  have hnodup : (s.levels 0).Nodup := hs.sorted.imp hne
  have hsub : s.levels 0 ⊆ List.range s.arena.n := fun o ho =>
    List.mem_range.mpr (hs.node_lt o (List.mem_cons_of_mem _ ho))
  have hle := (hnodup.subperm hsub).length_le
  rw [List.length_range] at hle
  rw [← hs.length_levels]
  omega

/-- **The skiplist refines an ordered map.** Any sequence of `Put` calls by one writer, with any
tower heights, that fits in the arena reaches no fault. It leaves towers whose levels are sorted,
nested and within the height of each node; `Get` returns the last value put under a key, and the
iterator visits each key once, in order, with that value. -/
theorem fill_refines_map (size rounds : ℕ) (ps : List Insertion) (hlegal : ∀ p ∈ ps, p.Legal)
    (hin : (new size).arena.n + fillSize [] ps ≤ size)
    (hwrap : (new size).arena.n + fillSize [] ps < 2 ^ 32)
    (hrounds : maxHeight * (ps.length + 1) ≤ rounds) :
    ∃ t levels es, fill rounds (new size) ps = .ok t ∧ t.Ordered levels ∧
      (∀ k, t.get rounds k = .ok (lastOf (ps.map Insertion.entry) k)) ∧
      (∀ k, t.get rounds k = .ok none ↔ ∀ p ∈ ps, p.key ≠ k) ∧
      t.iterate rounds = .ok es ∧ KeySorted es ∧
      ∀ k v, (k, v) ∈ es ↔ lastOf (ps.map Insertion.entry) k = some v := by
  have hrounds' : 20 * (ps.length + 1) ≤ rounds := hrounds
  obtain ⟨t, m, hfill, hr, hs, -, hlen, hlast⟩ := fill_represents size rounds ps hlegal hin hwrap hrounds
  have hget : ∀ k, t.get rounds k = .ok (lastOf (ps.map Insertion.entry) k) := by
    intro k
    have hbound := Nat.mul_le_mul_left maxHeight (Nat.succ_le_succ hlen)
    rw [hr.get_eq hs.toLinked (hbound.trans hrounds), hs.get_eq, hlast]
  refine ⟨t, _, m.entries, hfill, hr.ordered hs.toLinked, hget, fun k => ?_, ?_, m.sorted,
    fun k v => ?_⟩
  · rw [hget k, Except.ok.injEq, lastOf_eq_none_iff, List.forall_mem_map]
    rfl
  · rw [hr.iterate_eq hs.toLinked (by omega), hs.entries_eq]
  · rw [← hlast, OrdMap.get_eq_some_iff]

/-- Three calls: two keys, one of them overwritten with a taller tower drawn. -/
def threePuts : List Insertion := [⟨[2], [7], 1⟩, ⟨[1], [], 3⟩, ⟨[2], [8, 9], 20⟩]

theorem fill_refines_map_three :
    ∃ t levels es, fill 80 (new 1024) threePuts = .ok t ∧ t.Ordered levels ∧
      (∀ k, t.get 80 k = .ok (lastOf (threePuts.map Insertion.entry) k)) ∧
      (∀ k, t.get 80 k = .ok none ↔ ∀ p ∈ threePuts, p.key ≠ k) ∧
      t.iterate 80 = .ok es ∧ KeySorted es ∧
      ∀ k v, (k, v) ∈ es ↔ lastOf (threePuts.map Insertion.entry) k = some v := by
  refine fill_refines_map 1024 80 threePuts ?_ ?_ ?_ ?_
  · intro p hp
    simp only [threePuts, List.mem_cons, List.not_mem_nil, or_false] at hp
    rcases hp with rfl | rfl | rfl <;> exact ⟨by decide, by decide, by decide⟩
  · decide
  · decide
  · decide

/-! ## The size field of a key -/

/-- The size field of a key has 16 bits. -/
def KeySizes (t : Towers) : Prop := ∀ o, (t.nodes o).keySize < 2 ^ 16

theorem keySizes_new (size : ℕ) : (new size).KeySizes := fun _ => Nat.mod_lt _ (by decide)

namespace KeySizes

variable {t t' : Towers} {k v : Bytes} {rounds : ℕ}

theorem setValue (h : t.KeySizes) (o : ℕ) (v : Bytes) : (t.setValue o v).KeySizes := by
  intro o'
  change (Function.update t.nodes o _ o').keySize < 2 ^ 16
  by_cases heq : o' = o
  · rw [heq, Function.update_self]
    exact h o
  · rw [Function.update_of_ne heq]
    exact h o'

theorem allocate (h : t.KeySizes) (k v : Bytes) (height : ℕ) :
    (t.allocate k v height).2.KeySizes := by
  intro o
  change (Function.update t.nodes (t.allocate k v height).1 _ o).keySize < 2 ^ 16
  by_cases heq : o = (t.allocate k v height).1
  · rw [heq, Function.update_self]
    exact Nat.mod_lt _ (by decide)
  · rw [Function.update_of_ne heq]
    exact h o

theorem store (h : t.KeySizes) {o level next : ℕ} (hstore : t.store o level next = .ok t') :
    t'.KeySizes := by
  obtain ⟨-, -, hset⟩ := bind_eq_ok.mp hstore
  cases hset
  exact h

theorem casNextOffset (h : t.KeySizes) {o level old next : ℕ}
    (hcas : t.casNextOffset o level old next = .ok (some t')) : t'.KeySizes := by
  obtain ⟨n, -, hcas⟩ := bind_eq_ok.mp hcas
  by_cases hn : n = old
  · rw [if_pos hn] at hcas
    obtain ⟨t₁, hstore, hsome⟩ := bind_eq_ok.mp hcas
    cases hsome
    exact h.store hstore
  · rw [if_neg hn] at hcas
    cases hcas

theorem linkLevel (h : t.KeySizes) {x i tries prev next : ℕ} {overwritten : Bool}
    (hlink : t.linkLevel rounds k v x i tries prev next = .ok (t', overwritten)) : t'.KeySizes := by
  -- the retries keep the sizes, as do the stores and the swap of a round
  induction tries generalizing t prev next with
  | zero => cases hlink
  | succ tries ih =>
    rw [Towers.linkLevel] at hlink
    obtain ⟨⟨p, n⟩, -, hlink⟩ := bind_eq_ok.mp hlink
    obtain ⟨t₁, hstore, hlink⟩ := bind_eq_ok.mp hlink
    obtain ⟨r, hcas, hlink⟩ := bind_eq_ok.mp hlink
    have h₁ := h.store hstore
    cases r with
    | some t₂ =>
      cases hlink
      exact h₁.casNextOffset hcas
    | none =>
      -- somebody else put the key: its node gets the value and keeps its key
      obtain ⟨⟨q, m⟩, -, hlink⟩ := bind_eq_ok.mp hlink
      by_cases hq : q = m
      · by_cases hi : i = 0
        · simp only [if_pos hq, hi] at hlink
          cases hlink
          exact h₁.setValue q v
        · simp only [if_pos hq, if_pos hi] at hlink
          cases hlink
      · simp only [if_neg hq] at hlink
        exact ih h₁ hlink

theorem linkLevels (h : t.KeySizes) {x : ℕ} {prev next : ℕ → ℕ} {is : List ℕ}
    (hlink : Towers.linkLevels rounds k v x prev next t is = .ok t') : t'.KeySizes := by
  induction is generalizing t with
  | nil =>
    cases hlink
    exact h
  | cons i is ih =>
    rw [Towers.linkLevels] at hlink
    obtain ⟨⟨t₁, overwritten⟩, hlevel, hlink⟩ := bind_eq_ok.mp hlink
    have h₁ := h.linkLevel hlevel
    cases overwritten with
    | true =>
      cases hlink
      exact h₁
    | false => exact ih h₁ hlink

/-- `Put` writes a size of 16 bits, whatever the key. -/
theorem put (h : t.KeySizes) {height : ℕ} (hput : t.put rounds k v height = .ok t') : t'.KeySizes := by
  obtain ⟨d, -, hput⟩ := bind_eq_ok.mp hput
  cases d with
  | found o =>
    cases hput
    exact h.setValue o v
  | missing prev next => exact (h.allocate k v height).linkLevels hput

theorem visit (h : t.KeySizes) {o : ℕ} {es : List (Bytes × Bytes)}
    (hvisit : t.visit rounds o = .ok es) : ∀ e ∈ es, e.1.length < 2 ^ 16 := by
  induction rounds generalizing o es with
  | zero => cases hvisit
  | succ rounds ih =>
    rw [Towers.visit] at hvisit
    by_cases ho : o = 0
    · rw [if_pos ho] at hvisit
      cases hvisit
      simp
    · rw [if_neg ho] at hvisit
      obtain ⟨next, -, hvisit⟩ := bind_eq_ok.mp hvisit
      obtain ⟨rest, hrest, hcons⟩ := bind_eq_ok.mp hvisit
      cases hcons
      -- a key is read with the length its field has room for
      refine List.forall_mem_cons.mpr ⟨?_, ih hrest⟩
      rw [Towers.key, Arena.length_getBytes]
      exact h o

/-- Every key the iterator lists is shorter than `2 ^ 16` bytes. -/
theorem iterate (h : t.KeySizes) {es : List (Bytes × Bytes)} (hiter : t.iterate rounds = .ok es) :
    ∀ e ∈ es, e.1.length < 2 ^ 16 := by
  obtain ⟨o, -, hvisit⟩ := bind_eq_ok.mp hiter
  exact h.visit hvisit

end KeySizes

end Towers

end Seol
