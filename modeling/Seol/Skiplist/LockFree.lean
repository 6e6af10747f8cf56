import Seol.Skiplist.Linearizable

/-!
# The skiplist is lock-free

Reference: `skiplist/skiplist.go`. A compare-and-swap that fails has been overtaken by one that went
through, and each call makes at most `maxHeight + 1` of those: one raises the list's height, the others
link the new node. Between two of them every step brings its thread closer to the end of its call. So
the calls under way end after a bounded number of steps, whatever the order, when no new calls are made.
-/

namespace Seol

open Common

namespace Concurrent

/-! ## Ranks -/

/-- The thread is in the middle of a call. -/
def Pc.Running : Pc → Prop
  | .idle | .returning _ => False
  | _ => True

/-- The swaps that a call may still make with success. -/
def Pc.links : Pc → ℕ
  | .putHeight _ _ | .descend _ _ _ | .putNode _ => maxHeight + 1
  | .putKey f | .putVal f _ | .getHeight f | .casHeight f _ => f.height + 1
  | .missing f i _ | .store f i | .cas f i | .retry f i _ => f.height - i
  | _ => 0

/-- The nodes that a walk still has in front of it. -/
def ahead (t : Towers) (L : ℕ → List ℕ) (x level : ℕ) : ℕ := ((t.listed L).after x level).length

/-- The steps until the next swap that goes through, or the end of the call, while nobody else makes
such a swap. -/
def Pc.rounds (t : Towers) (L : ℕ → List ℕ) : Pc → ℕ
  | .putHeight _ _ => maxHeight * ((L 0).length + 1) + (L 0).length + 10
  | .descend _ i before => i * ((L 0).length + 1) + ahead t L before i + (L 0).length + 10
  | .putNode _ => (L 0).length + 9
  | .putKey _ => (L 0).length + 8
  | .putVal _ _ => (L 0).length + 7
  | .getHeight _ => (L 0).length + 6
  | .casHeight _ listHeight => if t.height = listHeight then 1 else (L 0).length + 7
  | .missing _ i before | .retry _ i before => ahead t L before i + 3
  | .store f i => if t.tower i (f.prev i) = f.next i then 2 else (L 0).length + 5
  | .cas f i => if t.tower i (f.prev i) = f.next i then 1 else (L 0).length + 4
  | .copyValue _ _ => 2
  | .storeValue _ _ _ => 1
  | .findHeight _ => maxHeight * ((L 0).length + 1) + 2
  | .find _ x level => level * ((L 0).length + 1) + ahead t L x level + 2
  | .findNext _ _ | .readValue _ => 1
  | .idle | .returning _ | .fault _ => 0

/-- What a step leaves as it is when no swap goes through. -/
structure Unseen (L : ℕ → List ℕ) (t t' : Towers) : Prop where
  head_eq : t'.head = t.head
  height_eq : t'.height = t.height
  slots : ∀ i, ∀ o ∈ t.head :: L i, t'.tower i o = t.tower i o

section Rank

variable {t t' : Towers} {L L' : ℕ → List ℕ} {m : OrdMap Bytes Bytes} {ph : Phase Call Answer}
  {pc : Pc} {f : Frame} {q : Query} {k : Bytes} {i x o draw : ℕ}

theorem Unseen.refl (L : ℕ → List ℕ) (t : Towers) : Unseen L t t := ⟨rfl, rfl, fun _ _ _ => rfl⟩

theorem Unseen.ahead_eq (hu : Unseen L t t') (x level : ℕ) : ahead t' L x level = ahead t L x level := by
  simp only [ahead, Skiplist.after, Towers.listed, hu.head_eq]

theorem Shared.ahead_le (h : Shared t L m) (x level : ℕ) : ahead t L x level ≤ (L 0).length :=
  h.sim.toLinked.length_after_le x level

/-- A walk comes closer to its end. -/
theorem Shared.ahead_next (h : Shared t L m) (hi : i < maxHeight) (hx : x ∈ t.head :: L i)
    (hne : t.tower i x ≠ 0) : ahead t L (t.tower i x) i < ahead t L x i := by
  obtain ⟨hchain, -⟩ := h.rep.chain_after h.sim.toLinked hi hx
  have hnext := hchain.head_eq
  cases hafter : (t.listed L).after x i with
  | nil =>
    rw [hafter] at hnext
    exact absurd hnext hne
  | cons a rest =>
    rw [hafter, List.headD_cons] at hnext
    -- one node further, the walk has the rest of the level before it
    have hrest : (t.listed L).after a i = rest := by
      rcases List.mem_cons.mp hx with rfl | hx
      · rw [show t.head = (t.listed L).head from rfl, Skiplist.Linked.after_head] at hafter
        have hlevel : (t.listed L).levels i = [] ++ a :: rest := hafter
        exact h.sim.toLinked.after_of_split hlevel
      · obtain ⟨as, bs, hlevel⟩ := List.append_of_mem hx
        have hlevel' : (t.listed L).levels i = as ++ x :: bs := hlevel
        rw [h.sim.toLinked.after_of_split hlevel'] at hafter
        rw [hafter, List.append_cons] at hlevel'
        exact h.sim.toLinked.after_of_split hlevel'
    rw [ahead, ahead, hafter, hnext, hrest, List.length_cons]
    exact Nat.lt_succ_self _

/-- Another thread's rank stays while no swap goes through. -/
theorem Pc.OK.rounds_eq (hok : pc.OK t L ph) (hu : Unseen L t t') :
    pc.rounds t' L = pc.rounds t L := by
  -- the slot of a splice is the slot of a linked node
  have hslot : ∀ {f : Frame} {i : ℕ}, SpliceOK t L f.key i (f.prev i) (f.next i) →
      t'.tower i (f.prev i) = t.tower i (f.prev i) := fun {f i} hs =>
    hu.slots i _ ((t.listed L).cons_lower_subset f.key i hs.below)
  cases pc with
  | descend f i before => simp only [Pc.rounds, hu.ahead_eq]
  | casHeight f listHeight => simp only [Pc.rounds, hu.height_eq]
  | missing f i before => simp only [Pc.rounds, hu.ahead_eq]
  | retry f i before => simp only [Pc.rounds, hu.ahead_eq]
  | store f i => simp only [Pc.rounds, hslot hok.2.2]
  | cas f i => simp only [Pc.rounds, hslot hok.2.2.1]
  | find q x level => simp only [Pc.rounds, hu.ahead_eq]
  | _ => rfl

/-- The rounds of a thread on a list of `n` nodes. -/
def roundBound (n : ℕ) : ℕ := 21 * (n + 1) + 9

theorem Pc.OK.rounds_le (hok : pc.OK t L ph) (h : Shared t L m) :
    pc.rounds t L ≤ roundBound (L 0).length := by
  -- a level costs a walk of at most all nodes
  have hlevel : ∀ {i : ℕ}, i < maxHeight → i * ((L 0).length + 1) ≤ 19 * ((L 0).length + 1) :=
    fun {i} hi => Nat.mul_le_mul_right _ (Nat.le_of_lt_succ hi)
  have hmax : maxHeight = 20 := rfl
  unfold roundBound
  cases pc with
  | descend f i before =>
    have := hlevel hok.2.2.1
    have := h.ahead_le before i
    simp only [Pc.rounds]
    omega
  | find q x level =>
    have := hlevel hok.2.2.1
    have := h.ahead_le x level
    simp only [Pc.rounds]
    omega
  | missing f i before =>
    have := h.ahead_le before i
    simp only [Pc.rounds]
    omega
  | retry f i before =>
    have := h.ahead_le before i
    simp only [Pc.rounds]
    omega
  | casHeight f listHeight =>
    simp only [Pc.rounds]
    split_ifs <;> omega
  | store f i =>
    simp only [Pc.rounds]
    split_ifs <;> omega
  | cas f i =>
    simp only [Pc.rounds]
    split_ifs <;> omega
  | _ =>
    simp only [Pc.rounds, hmax]
    omega

theorem Pc.OK.links_le (hok : pc.OK t L ph) : pc.links ≤ maxHeight + 1 := by
  have hheight : ∀ {f : Frame} {j : ℕ}, f.Owns t L j → f.height ≤ maxHeight := fun hf => hf.height_le
  cases pc with
  | putKey f => exact Nat.succ_le_succ (hheight hok.2)
  | putVal f keyOffset => exact Nat.succ_le_succ (hheight hok.2.1)
  | getHeight f => exact Nat.succ_le_succ (hheight hok.2.toOwns)
  | casHeight f listHeight => exact Nat.succ_le_succ (hheight hok.2.1.toOwns)
  | missing f i before => exact (Nat.sub_le ..).trans ((hheight hok.1.toOwns).trans (Nat.le_succ _))
  | store f i => exact (Nat.sub_le ..).trans ((hheight hok.1.toOwns).trans (Nat.le_succ _))
  | cas f i => exact (Nat.sub_le ..).trans ((hheight hok.1.toOwns).trans (Nat.le_succ _))
  | retry f i before => exact (Nat.sub_le ..).trans ((hheight hok.1.toOwns).trans (Nat.le_succ _))
  | putHeight key value => exact le_rfl
  | descend f i before => exact le_rfl
  | putNode f => exact le_rfl
  | _ => exact Nat.zero_le _

/-! ## One step -/

/-- A step with which a swap goes through, or one that others do not see and that brings its thread
closer to the next swap or to its end. -/
def Closer (t : Towers) (L : ℕ → List ℕ) (pc : Pc) (r : Towers × Pc) : Prop :=
  r.2.links < pc.links ∨
    (r.2.links ≤ pc.links ∧ Unseen L t r.1 ∧ r.2.rounds r.1 L < pc.rounds t L)

/-- A step that only reads. -/
theorem closer_read {pc' : Pc} (hlinks : pc'.links ≤ pc.links)
    (hrounds : pc'.rounds t L < pc.rounds t L) : Closer t L pc (t, pc') :=
  Or.inr ⟨hlinks, Unseen.refl L t, hrounds⟩

theorem Frame.links_level (f : Frame) (head i : ℕ) : (f.level head i).links ≤ f.height - i := by
  rw [Frame.level]
  split_ifs
  · exact Nat.zero_le _
  · exact Nat.zero_le _
  · exact le_rfl
  · exact le_rfl

theorem Shared.rounds_level (h : Shared t L m) (f : Frame) (i : ℕ) :
    (f.level t.head i).rounds t L ≤ (L 0).length + 5 := by
  have hahead := h.ahead_le t.head i
  rw [Frame.level]
  split_ifs <;> simp only [Pc.rounds]
  · exact Nat.zero_le _
  · exact Nat.zero_le _
  · omega
  · split_ifs <;> omega

/-- A round of `findSpliceForLevel` that goes on comes closer to the end of the level. -/
theorem Shared.ahead_lt {before : ℕ} (h : Shared t L m) (hi : i < maxHeight)
    (hb : before ∈ t.head :: (t.listed L).lower k i)
    (hnext : t.tower i before ∈ (t.listed L).lower k i) :
    ahead t L (t.tower i before) i < ahead t L before i := by
  have hne : t.tower i before ≠ 0 :=
    h.sim.ne_zero (i := i) (List.mem_cons_of_mem _ (Skiplist.mem_lower.mp hnext).1)
  exact h.ahead_next hi ((t.listed L).cons_lower_subset k i hb) hne

theorem Shared.closer_descend {before : ℕ} (h : Shared t L m)
    (hok : (Pc.descend f i before).OK t L ph) :
    Closer t L (.descend f i before) ((Pc.descend f i before).step draw t) := by
  obtain ⟨-, -, hi, hb⟩ := hok
  -- the walk goes on, finds the key, or ends the level
  rcases h.spliceRound_cases hi hb with ⟨hround, hnext⟩ | ⟨hround, -⟩ | ⟨hround, hne, -⟩
  · have hlt := h.ahead_lt hi hb hnext
    simp only [Pc.step, hround, orFault]
    refine closer_read le_rfl ?_
    simp only [Pc.rounds]
    omega
  · simp only [Pc.step, hround, orFault, if_true]
    refine closer_read (Nat.zero_le _) ?_
    simp only [Pc.rounds]
    omega
  · simp only [Pc.step, hround, orFault, if_neg hne]
    -- at the bottom the search is over, otherwise it goes down with a walk less to come
    cases i with
    | zero =>
      refine closer_read le_rfl ?_
      simp only [Frame.below, Pc.rounds]
      omega
    | succ j =>
      refine closer_read le_rfl ?_
      have hle := h.ahead_le ((f.setSplice (j + 1) before (t.tower (j + 1) before)).prev (j + 1)) j
      simp only [Frame.below, Pc.rounds, Nat.succ_mul]
      omega

theorem Shared.closer_getHeight (h : Shared t L m) :
    Closer t L (.getHeight f) ((Pc.getHeight f).step draw t) := by
  simp only [Pc.step]
  split_ifs with hlt
  · refine closer_read le_rfl ?_
    simp only [Pc.rounds, if_true]
    omega
  · refine closer_read ((f.links_level t.head 0).trans (Nat.le_succ _)) ?_
    exact Nat.lt_succ_of_le (h.rounds_level f 0)

theorem closer_casHeight {listHeight : ℕ} :
    Closer t L (.casHeight f listHeight) ((Pc.casHeight f listHeight).step draw t) := by
  simp only [Pc.step]
  split_ifs with heq
  · exact Or.inl (Nat.lt_succ_of_le (f.links_level t.head 0))
  · refine closer_read le_rfl ?_
    simp only [Pc.rounds, if_neg heq]
    omega

theorem Shared.closer_missing {before : ℕ} (h : Shared t L m)
    (hok : (Pc.missing f i before).OK t L ph) :
    Closer t L (.missing f i before) ((Pc.missing f i before).step draw t) := by
  obtain ⟨hf, hpos, hi, hb⟩ := hok
  have hlevel := hi.trans_le hf.height_le
  rcases h.spliceRound_cases hlevel hb with ⟨hround, hnext⟩ | ⟨-, ho, hk⟩ | ⟨hround, hne, -⟩
  · have hlt := h.ahead_lt hlevel hb hnext
    simp only [Pc.step, hround, orFault]
    refine closer_read le_rfl ?_
    simp only [Pc.rounds]
    omega
  -- another node with the key would have been found at the bottom
  · exact absurd hk (hf.key_ne h hpos.ne' ho)
  · simp only [Pc.step, hround, orFault, if_neg hne]
    refine closer_read le_rfl ?_
    simp only [Pc.rounds, Frame.setSplice, Function.update_self, if_true]
    omega

theorem Shared.closer_retry {before : ℕ} (h : Shared t L m)
    (hok : (Pc.retry f i before).OK t L ph) :
    Closer t L (.retry f i before) ((Pc.retry f i before).step draw t) := by
  obtain ⟨hf, hi, hb⟩ := hok
  have hlevel := hi.trans_le hf.height_le
  rcases h.spliceRound_cases hlevel hb with ⟨hround, hnext⟩ | ⟨hround, ho, hk⟩ | ⟨hround, hne, -⟩
  · have hlt := h.ahead_lt hlevel hb hnext
    simp only [Pc.step, hround, orFault]
    refine closer_read le_rfl ?_
    simp only [Pc.rounds]
    omega
  -- a second node with the key shows at the bottom level only
  · obtain rfl : i = 0 := by
      by_contra hne
      exact hf.key_ne h hne ho hk
    simp only [Pc.step, hround, orFault, if_true, ne_eq, not_true_eq_false, if_false]
    refine closer_read (Nat.zero_le _) ?_
    simp only [Pc.rounds]
    omega
  · simp only [Pc.step, hround, orFault, if_neg hne]
    have hprev : before ≠ 0 := h.sim.ne_zero ((t.listed L).cons_lower_subset f.key i hb)
    have hstore : (f.setSplice i before (t.tower i before)).level t.head i =
        .store (f.setSplice i before (t.tower i before)) i := by
      have hheight : ¬(f.setSplice i before (t.tower i before)).height ≤ i := not_le.mpr hi
      have hne' : ¬(f.setSplice i before (t.tower i before)).prev i = 0 := by
        simpa [Frame.setSplice] using hprev
      rw [Frame.level, if_neg hheight, if_neg hne']
    rw [hstore]
    refine closer_read le_rfl ?_
    simp only [Pc.rounds, Frame.setSplice, Function.update_self, if_true]
    omega

theorem closer_store (hok : (Pc.store f i).OK t L ph) :
    Closer t L (.store f i) ((Pc.store f i).step draw t) := by
  obtain ⟨hf, hi, hs⟩ := hok
  -- the node is not linked at this level yet, so nobody else sees its slot
  have hunlinked : f.node ∉ t.head :: L i := by
    intro hmem
    rcases List.mem_cons.mp hmem with hhead | hmem
    · exact hf.ne_head hhead
    · exact hf.unlinked i le_rfl hmem
  have hu : Unseen L t (t.setSlot f.node i (f.next i)) := by
    refine ⟨rfl, rfl, fun j o ho => ?_⟩
    by_cases hj : j = i
    · subst hj
      have hne : o ≠ f.node := fun heq => hunlinked (heq ▸ ho)
      rw [Towers.setSlot_tower_self, Function.update_of_ne hne]
    · rw [Towers.setSlot_tower_of_ne _ _ _ hj]
  have hprev := hu.slots i _ ((t.listed L).cons_lower_subset f.key i hs.below)
  have hstore : t.store f.node i (f.next i) = .ok (t.setSlot f.node i (f.next i)) := by
    rw [Towers.store, hf.slot_eq hi]
    rfl
  simp only [Pc.step, hstore, orFault]
  refine Or.inr ⟨le_rfl, hu, ?_⟩
  simp only [Pc.rounds, hprev]
  split_ifs <;> omega

theorem Shared.closer_cas (h : Shared t L m) (hok : (Pc.cas f i).OK t L ph) :
    Closer t L (.cas f i) ((Pc.cas f i).step draw t) := by
  obtain ⟨hf, hi, hs, -⟩ := hok
  have hlevel := hi.trans_le hf.height_le
  have hprev := (t.listed L).cons_lower_subset f.key i hs.below
  obtain ⟨hget, -⟩ := h.getNext_eq hlevel hprev
  have hslot : t.slot (f.prev i) i = .ok () := h.rep.slot_eq hlevel hprev (h.sim.ne_zero hprev)
  have hcas : t.casNextOffset (f.prev i) i (f.next i) f.node =
      .ok (if t.tower i (f.prev i) = f.next i then some (t.setSlot (f.prev i) i f.node) else none) := by
    rw [Towers.casNextOffset, hget, Towers.store, hslot]
    simp only [bind, Except.bind, pure, Except.pure]
    split_ifs <;> rfl
  simp only [Pc.step, hcas, orFault]
  -- the swap goes through and is paid by a link, or somebody else's did and the walk starts again
  by_cases heq : t.tower i (f.prev i) = f.next i
  · simp only [if_pos heq]
    refine Or.inl (lt_of_le_of_lt (f.links_level t.head (i + 1)) ?_)
    simp only [Pc.links]
    omega
  · simp only [if_neg heq]
    refine closer_read le_rfl ?_
    have hle := h.ahead_le (f.prev i) i
    simp only [Pc.rounds, if_neg heq]
    omega

theorem rounds_conclude (t : Towers) (L : ℕ → List ℕ) (q : Query) (o : ℕ) (equal : Bool) :
    (conclude t q o equal).links = 0 ∧ (conclude t q o equal).rounds t L ≤ 1 := by
  rw [conclude]
  generalize (if o = 0 then none else some (t.key o)) = key
  split_ifs
  · exact ⟨rfl, le_rfl⟩
  · exact ⟨rfl, Nat.zero_le _⟩
  · exact ⟨rfl, Nat.zero_le _⟩

theorem Shared.closer_find {level : ℕ} (h : Shared t L m) (hok : (Pc.find q x level).OK t L ph) :
    Closer t L (.find q x level) ((Pc.find q x level).step draw t) := by
  obtain ⟨-, -, hlevel, hx⟩ := hok
  have hlinked := (t.listed L).cons_lower_subset q.key level hx
  obtain ⟨hget, -⟩ := h.getNext_eq hlevel hlinked
  -- the search ends and only reading the answer is left
  have hend : ∀ o equal, Closer t L (.find q x level) (t, conclude t q o equal) := by
    intro o equal
    obtain ⟨hlinks, hrounds⟩ := rounds_conclude t L q o equal
    refine closer_read (hlinks.le.trans (Nat.zero_le _)) (lt_of_le_of_lt hrounds ?_)
    simp only [Pc.rounds]
    omega
  -- a level down, with at most all nodes of the level ahead
  have hdown : 0 < level → Closer t L (.find q x level) (t, .find q x (level - 1)) := by
    intro hpos
    obtain ⟨j, rfl⟩ := Nat.exists_eq_add_one_of_ne_zero hpos.ne'
    have hle := h.ahead_le x j
    refine closer_read le_rfl ?_
    simp only [Pc.rounds, Nat.add_sub_cancel, Nat.succ_mul]
    omega
  simp only [Pc.step, hget, orFault, findRound]
  generalize (if x = t.head then 0 else x) = stay
  by_cases hzero : t.tower level x = 0
  · rw [if_pos hzero]
    split_ifs with hpos hless
    · exact hdown hpos
    · exact hend ..
    · exact hend ..
  · rw [if_neg hzero]
    split_ifs with hlt hkey hallow hless hpos hpos hless
    · have hnext := h.ahead_next hlevel hlinked hzero
      refine closer_read le_rfl ?_
      simp only [Pc.rounds]
      omega
    · exact hend ..
    · refine closer_read le_rfl ?_
      simp only [Pc.rounds]
      omega
    · exact hdown hpos
    · exact hend ..
    · exact hdown hpos
    · exact hend ..
    · exact hend ..

/-- The levels of a search that starts at the top. -/
theorem Shared.height_succ (h : Shared t L m) : ∃ n, t.height = n + 1 ∧
    n * ((L 0).length + 1) + (L 0).length + 1 ≤ maxHeight * ((L 0).length + 1) := by
  have hpos : t.height ≠ 0 := h.sim.height_pos.ne'
  have hle : t.height ≤ maxHeight := h.rep.height_le
  obtain ⟨n, hn⟩ := Nat.exists_eq_add_one_of_ne_zero hpos
  refine ⟨n, hn, ?_⟩
  have hmul := Nat.mul_le_mul_right ((L 0).length + 1) (hn ▸ hle)
  rw [Nat.succ_mul] at hmul
  omega

/-- **One step of a thread in the middle of a call.** -/
theorem Pc.OK.closer (hok : pc.OK t L ph) (h : Shared t L m) (hrunning : pc.Running)
    (hle : draw ≤ maxHeight) : Closer t L pc (pc.step draw t) := by
  -- steps that only reserve or fill memory are not seen by others
  have hunseen : ∀ t', t'.head = t.head → t'.height = t.height → t'.tower = t.tower →
      Unseen L t t' := fun t' hhead hheight htower =>
    ⟨hhead, hheight, fun i o _ => by rw [htower]⟩
  cases pc with
  | idle => exact hrunning.elim
  | putHeight key value =>
    obtain ⟨n, hn, hmul⟩ := h.height_succ
    simp only [Pc.step]
    rw [hn]
    refine closer_read le_rfl ?_
    have hahead := h.ahead_le (Function.update (fun _ => 0) (n + 1) t.head (n + 1)) n
    simp only [Frame.below, Pc.rounds]
    omega
  | descend f i before => exact h.closer_descend hok
  | putNode f =>
    -- drawing the height fixes the number of swaps to come
    refine Or.inr ⟨Nat.succ_le_succ hle, hunseen _ rfl rfl rfl, ?_⟩
    exact Nat.lt_succ_self _
  | putKey f => exact Or.inr ⟨le_rfl, hunseen _ rfl rfl rfl, Nat.lt_succ_self _⟩
  | putVal f keyOffset => exact Or.inr ⟨le_rfl, hunseen _ rfl rfl rfl, Nat.lt_succ_self _⟩
  | getHeight f => exact h.closer_getHeight
  | casHeight f listHeight => exact closer_casHeight
  | missing f i before => exact h.closer_missing hok
  | store f i => exact closer_store hok
  | cas f i => exact h.closer_cas hok
  | retry f i before => exact h.closer_retry hok
  | copyValue o value => exact Or.inr ⟨le_rfl, hunseen _ rfl rfl rfl, Nat.lt_succ_self _⟩
  | storeValue o offset size => exact Or.inr ⟨le_rfl, hunseen _ rfl rfl rfl, Nat.lt_succ_self _⟩
  | findHeight q =>
    obtain ⟨n, hn, hmul⟩ := h.height_succ
    have hahead := h.ahead_le t.head n
    simp only [Pc.step]
    rw [hn, Nat.add_sub_cancel]
    refine closer_read le_rfl ?_
    simp only [Pc.rounds]
    omega
  | find q x level => exact h.closer_find hok
  | findNext q o =>
    obtain ⟨-, hvalue, ho, -⟩ := hok
    obtain ⟨hget, -⟩ := h.getNext_eq (i := 0) (by decide) (List.mem_cons_of_mem _ ho)
    simp only [Pc.step, hget, orFault, conclude, hvalue, Bool.false_eq_true, if_false]
    exact closer_read le_rfl Nat.one_pos
  | readValue o => exact closer_read le_rfl Nat.one_pos
  | returning a => exact hrunning.elim
  | fault f => exact hok.elim

/-- Where nobody sees a step, the levels are those from before. -/
theorem Unseen.levels_eq {m' : OrdMap Bytes Bytes} (hu : Unseen L t t') (h : Shared t L m)
    (h' : Shared t' L' m') : L' = L := by
  funext i
  by_cases hi : i < maxHeight
  · have hchain : Chain (t'.tower i) 0 t.head (L i) := (h.rep.chain i hi).congr (hu.slots i)
    have hchain' : Chain (t'.tower i) 0 t.head (L' i) := hu.head_eq ▸ h'.rep.chain i hi
    refine hchain'.unique hchain (fun hmem => ?_) fun hmem => ?_
    · exact h'.sim.ne_zero (i := i) (List.mem_cons_of_mem _ hmem) rfl
    · exact h.sim.ne_zero (i := i) (List.mem_cons_of_mem _ hmem) rfl
  · have hge := not_lt.mp hi
    rw [show L i = [] from h.sim.empty_above i (h.rep.height_le.trans hge)]
    exact h'.sim.empty_above i (h'.rep.height_le.trans hge)

end Rank

/-! ## Whole runs -/

section System

variable {ι : Type*} [Fintype ι]

/-- The swaps that all calls may still make with success. -/
def Sys.links (s : Sys ι) : ℕ := ∑ i, (s.pcs i).links

/-- The steps of all threads until the next such swap. -/
def Sys.rounds (s : Sys ι) (L : ℕ → List ℕ) : ℕ := ∑ i, (s.pcs i).rounds s.mem L

/-- The rank of a list with its threads. -/
def Sys.rank (s : Sys ι) (L : ℕ → List ℕ) : ℕ :=
  s.links * (Fintype.card ι * roundBound ((L 0).length + s.links) + 1) + s.rounds L

/-- The steps that `threads` threads make on a list of `n` nodes before their calls have ended. -/
def stepBound (threads n : ℕ) : ℕ :=
  (21 * threads + 1) * (threads * roundBound (n + 21 * threads) + 1)

theorem roundBound_mono {n n' : ℕ} (h : n ≤ n') : roundBound n ≤ roundBound n' := by
  unfold roundBound
  omega

namespace Matches

variable {s s' : Sys ι} {L L' : ℕ → List ℕ} {a b : AtomicState ι Call Answer (OrdMap Bytes Bytes)}

theorem rounds_le (hm : Matches s L a) : s.rounds L ≤ Fintype.card ι * roundBound (L 0).length := by
  have hsum := Finset.sum_le_card_nsmul Finset.univ (fun i => (s.pcs i).rounds s.mem L)
    (roundBound (L 0).length) fun i _ => (hm.ok i).rounds_le hm.shared
  rw [Finset.card_univ, smul_eq_mul] at hsum
  exact hsum

theorem links_le (hm : Matches s L a) : s.links ≤ 21 * Fintype.card ι := by
  have hsum := Finset.sum_le_card_nsmul Finset.univ (fun i => (s.pcs i).links) 21
    fun i _ => (hm.ok i).links_le
  rw [Finset.card_univ, smul_eq_mul, Nat.mul_comm] at hsum
  exact hsum

/-- The rank is bounded by the number of threads and of nodes. -/
theorem rank_le (hm : Matches s L a) : s.rank L ≤ stepBound (Fintype.card ι) (L 0).length := by
  have hlinks := hm.links_le
  have hmono : roundBound ((L 0).length + s.links) ≤
      roundBound ((L 0).length + 21 * Fintype.card ι) := roundBound_mono (by omega)
  have hrounds : s.rounds L ≤
      Fintype.card ι * roundBound ((L 0).length + 21 * Fintype.card ι) :=
    hm.rounds_le.trans (Nat.mul_le_mul_left _ (roundBound_mono (Nat.le_add_right ..)))
  rw [stepBound, Nat.add_mul, Nat.one_mul]
  refine Nat.add_le_add (Nat.mul_le_mul hlinks ?_) (hrounds.trans (Nat.le_succ _))
  exact Nat.succ_le_succ (Nat.mul_le_mul_left _ hmono)

/-- A swap that went through lowers the rank: it adds at most one node, and the rounds up to the next
one are accounted for. -/
theorem rank_lt_of_links (hm' : Matches s' L' b) (hlinks : s'.links < s.links)
    (hlen : (L' 0).length ≤ (L 0).length + 1) : s'.rank L' < s.rank L := by
  have hmono : roundBound ((L' 0).length + s'.links) ≤ roundBound ((L 0).length + s.links) :=
    roundBound_mono (by omega)
  have hrounds := hm'.rounds_le.trans
    (Nat.mul_le_mul_left (Fintype.card ι)
      (roundBound_mono (Nat.le_add_right (L' 0).length s'.links)))
  have hrounds' := hrounds.trans (Nat.mul_le_mul_left (Fintype.card ι) hmono)
  -- the swap pays for the rounds of all threads
  calc s'.rank L'
      ≤ s'.links * (Fintype.card ι * roundBound ((L 0).length + s.links) + 1) +
        Fintype.card ι * roundBound ((L 0).length + s.links) := by
        refine Nat.add_le_add (Nat.mul_le_mul_left _ ?_) hrounds'
        exact Nat.succ_le_succ (Nat.mul_le_mul_left _ hmono)
    _ < (s'.links + 1) * (Fintype.card ι * roundBound ((L 0).length + s.links) + 1) := by
        rw [Nat.add_mul, Nat.one_mul]
        omega
    _ ≤ s.rank L := (Nat.mul_le_mul_right _ hlinks).trans (Nat.le_add_right ..)

variable [DecidableEq ι]

omit [Fintype ι] in
/-- A call that takes effect adds at most one node. -/
theorem length_le {i : ι} (hm : Matches s L a) (hm' : Matches s' L' b)
    (hb : b = a ∨ AtomicStep apply a (.commit i) b) : (L' 0).length ≤ (L 0).length + 1 := by
  have hlen : (L 0).length = a.value.entries.length := hm.shared.sim.length_levels
  have hlen' : (L' 0).length = b.value.entries.length := hm'.shared.sim.length_levels
  rw [hlen, hlen']
  rcases hb with rfl | hcommit
  · exact Nat.le_succ _
  · cases hcommit with
    | commit _ c _ =>
      cases c with
      | put key value => exact a.value.length_insert_le key value
      | get key => exact Nat.le_succ _
      | near key less allowEqual => exact Nat.le_succ _

end Matches

/-- A step of a thread that is in the middle of a call. -/
def BusyStep [DecidableEq ι] (s : Sys ι) (e : Event ι) (s' : Sys ι) : Prop :=
  Step s e s' ∧ ∃ i n, e = .step i n ∧ (s.pcs i).Running

variable [DecidableEq ι]

omit [DecidableEq ι] in
/-- A sum that changes in one place. -/
theorem sum_update_lt {f g : ι → ℕ} (i : ι) (hothers : ∀ j, j ≠ i → f j = g j) (hlt : f i < g i) :
    ∑ j, f j < ∑ j, g j := by
  refine Finset.sum_lt_sum (fun j _ => ?_) ⟨i, Finset.mem_univ i, hlt⟩
  by_cases hj : j = i
  · exact hj ▸ hlt.le
  · exact (hothers j hj).le

/-- **A busy step lowers the rank.** -/
theorem Matches.busy_step {s s' : Sys ι} {L : ℕ → List ℕ}
    {a : AtomicState ι Call Answer (OrdMap Bytes Bytes)} {e : Event ι} (hm : Matches s L a)
    (hstep : FitStep BusyStep s e s') :
    ∃ L' b, Matches s' L' b ∧ s'.rank L' < s.rank L := by
  obtain ⟨⟨hstep, i, n, rfl, hrunning⟩, -, hfits⟩ := hstep
  cases hstep with
  | step _ draw hpos hle =>
    obtain ⟨b, L', hb, hm'⟩ := hm.thread_step hpos hle hfits
    refine ⟨L', b, hm', ?_⟩
    have hlinks_lt : ((s.pcs i).step draw s.mem).2.links < (s.pcs i).links →
        Sys.links ⟨((s.pcs i).step draw s.mem).1,
          Function.update s.pcs i ((s.pcs i).step draw s.mem).2⟩ < s.links := fun hlt =>
      sum_update_lt i (fun j hj => by simp only [Function.update_of_ne hj])
        (by simpa only [Function.update_self] using hlt)
    rcases (hm.ok i).closer hm.shared hrunning hle with hlinks | ⟨hlinks, hu, hrounds⟩
    · exact hm'.rank_lt_of_links (hlinks_lt hlinks) (hm.length_le hm' hb)
    · -- nothing is seen of the step, so the other threads stand as before
      obtain rfl := hu.levels_eq hm.shared hm'.shared
      have hrounds_lt : Sys.rounds ⟨((s.pcs i).step draw s.mem).1,
          Function.update s.pcs i ((s.pcs i).step draw s.mem).2⟩ L' < s.rounds L' := by
        refine sum_update_lt i (fun j hj => ?_) (by simpa only [Function.update_self] using hrounds)
        simp only [Function.update_of_ne hj]
        exact (hm.ok j).rounds_eq hu
      rcases hlinks.lt_or_eq with hlt | heq
      · exact hm'.rank_lt_of_links (hlinks_lt hlt) (hm.length_le hm' hb)
      · have hlinks_eq : Sys.links ⟨((s.pcs i).step draw s.mem).1,
            Function.update s.pcs i ((s.pcs i).step draw s.mem).2⟩ = s.links := by
          refine Finset.sum_congr rfl fun j _ => ?_
          by_cases hj : j = i
          · subst hj
            simp only [Function.update_self]
            exact heq
          · simp only [Function.update_of_ne hj]
        rw [Sys.rank, Sys.rank, hlinks_eq]
        exact Nat.add_lt_add_left hrounds_lt _

/-- **The skiplist is lock-free.** Let the keys fit the size field and all allocations the arena. From a
reachable state, threads that go on with their calls while no new ones are made have made `stepBound`
steps at most when all calls have ended, in whatever order they are scheduled. -/
theorem skiplist_lock_free {size : ℕ} {es es' : List (Event ι)} {s s' : Sys ι}
    (hrun : Run Step (Sys.new ι size) es s) (hbusy : Run BusyStep s es' s')
    (hlegal : ∀ e ∈ es, e.Legal)
    (hin : (Towers.new size).arena.n + allocated (es ++ es') ≤ size)
    (hwrap : (Towers.new size).arena.n + allocated (es ++ es') < 2 ^ 32) :
    ∃ levels, s.mem.Ordered levels ∧
      es'.length ≤ stepBound (Fintype.card ι) (levels 0).length := by
  have hsum : allocated (es ++ es') = allocated es + allocated es' := by
    simp only [allocated, List.map_append, List.sum_append]
  rw [hsum, ← Nat.add_assoc] at hin hwrap
  obtain ⟨bs, a, -, -, L, hm⟩ := run_matches hrun hlegal (by omega) (by omega)
  obtain ⟨-, hn, hsize⟩ := run_fits (fun _ _ _ hstep => hstep) hrun hlegal
    (le_trans (Nat.le_add_right ..) hin) (lt_of_le_of_lt (Nat.le_add_right ..) hwrap)
  -- threads in the middle of calls make no new ones, so only the first part has keys to check
  have hlegal' : ∀ e ∈ es', e.Legal := by
    refine hbusy.forall_label fun s e t hstep => ?_
    obtain ⟨-, i, n, rfl, -⟩ := hstep
    trivial
  obtain ⟨hfit, -⟩ := run_fits (fun _ _ _ hstep => hstep.1) hbusy hlegal'
    (by rw [hn, hsize]; exact hin) (by rw [hn]; exact hwrap)
  -- every step of a busy thread lowers the rank
  have hrank : ∀ (s : Sys ι) e t n, (∃ L a, Matches s L a ∧ s.rank L = n) → FitStep BusyStep s e t →
      ∃ n' < n, ∃ L a, Matches t L a ∧ t.rank L = n' := by
    rintro s e t n ⟨L, a, hm, rfl⟩ hstep
    obtain ⟨L', b, hm', hlt⟩ := hm.busy_step hstep
    exact ⟨_, hlt, L', b, hm', rfl⟩
  obtain ⟨n', -, hle⟩ := hfit.length_le_rank hrank ⟨L, a, hm, rfl⟩
  refine ⟨L, hm.shared.rep.ordered hm.shared.sim.toLinked, ?_⟩
  exact le_trans (Nat.le_of_add_right_le hle) hm.rank_le

end System

/-- Two threads have called. -/
def twoCalls : Sys Bool :=
  ⟨Towers.new 1024, Function.update (Function.update (fun _ => .idle) false
    (Call.put [1] [2]).start) true (Call.get [1]).start⟩

theorem skiplist_lock_free_twoCalls :
    ∃ (es es' : List (Event Bool)) (s' : Sys Bool), Run Step (Sys.new Bool 1024) es twoCalls ∧
      Run BusyStep twoCalls es' s' ∧ es'.length = 2 ∧
      ∃ levels, twoCalls.mem.Ordered levels ∧ es'.length ≤ stepBound 2 (levels 0).length := by
  have hcall : Run Step (Sys.new Bool 1024) [.invoke false (.put [1] [2]), .invoke true (.get [1])]
      twoCalls := .head (.invoke false _ rfl) (.single (.invoke true _ rfl))
  have hput : BusyStep twoCalls (.step false 0) _ :=
    ⟨.step false 1 (by decide) (by decide), false, 0, rfl, trivial⟩
  have hbusy : Run BusyStep twoCalls [.step false 0, .step true 0] _ :=
    (Run.single hput).tail ⟨.step true 1 (by decide) (by decide), true, 0, rfl, trivial⟩
  exact ⟨_, _, _, hcall, hbusy, rfl,
    skiplist_lock_free hcall hbusy (by decide) (by decide) (by decide)⟩

end Concurrent

end Seol
