import Seol.Skiplist.Interleaving

/-!
# The threads on a skiplist

What each thread knows at each of its steps (`Pc.OK`), that it stays known while others act, and what
one step does (`Pc.OK.advances`): it keeps the links in order, and either leaves the map as it is or is
the step at which the thread's call takes effect.
-/

namespace Seol

open Common

namespace Concurrent

/-! ## What a thread knows -/

/-- A splice that was found at some time: later links do not spoil it. -/
structure SpliceOK (t : Towers) (L : ℕ → List ℕ) (k : Bytes) (i p n : ℕ) : Prop where
  below : p ∈ t.head :: (t.listed L).lower k i
  next : n = 0 ∨ n ∈ L i ∧ k < t.key n

/-- The call that a frame belongs to. -/
def Frame.call (f : Frame) : Call := .put f.key f.value

/-- The frame has a splice for level `n`, and for a level above it has one or none. -/
structure Frame.From (f : Frame) (t : Towers) (L : ℕ → List ℕ) (n : ℕ) : Prop where
  first : SpliceOK t L f.key n (f.prev n) (f.next n)
  rest : ∀ i, n < i → f.prev i = 0 ∨ SpliceOK t L f.key i (f.prev i) (f.next i)
  key_lt : f.key.length < 2 ^ 16

/-- The node is the thread's own, linked at the levels below `j` and at no other. -/
structure Frame.Owns (f : Frame) (t : Towers) (L : ℕ → List ℕ) (j : ℕ) : Prop
    extends f.From t L 0 where
  ne_zero : f.node ≠ 0
  ne_head : f.node ≠ t.head
  node_lt : f.node < t.arena.n
  height_pos : 0 < f.height
  height_le : f.height ≤ maxHeight
  linked : ∀ i < j, f.node ∈ L i
  unlinked : ∀ i, j ≤ i → f.node ∉ L i

/-- The node has its key, and its value as long as it is not linked. -/
structure Frame.Filled (f : Frame) (t : Towers) (L : ℕ → List ℕ) (j : ℕ) : Prop
    extends f.Owns t L j where
  key_eq : t.key f.node = f.key
  tall : (t.nodes f.node).height = f.height
  key_le : (t.nodes f.node).keyOffset + (t.nodes f.node).keySize ≤ t.arena.n
  val : j = 0 → t.val f.node = f.value ∧
    (t.nodes f.node).valOffset + (t.nodes f.node).valSize ≤ t.arena.n

/-- The second loop of `Put` stands at level `j`; above the bottom level its call has taken effect. -/
structure Frame.Linking (f : Frame) (t : Towers) (L : ℕ → List ℕ) (j : ℕ)
    (ph : Phase Call Answer) : Prop extends f.Filled t L j where
  raised : f.height ≤ t.height
  phase : ph = if j = 0 then .pending f.call else .done .done

/-- The call that a query belongs to. -/
def Query.call (q : Query) : Call :=
  if q.value then .get q.key else .near q.key q.less q.allowEqual

/-- `Get` asks for an equal key. -/
def Query.OK (q : Query) : Prop := q.value = true → q.less = false ∧ q.allowEqual = true

/-- What a thread knows of shared memory and of its call. -/
def Pc.OK (t : Towers) (L : ℕ → List ℕ) (ph : Phase Call Answer) : Pc → Prop
  | .idle => ph = .idle
  | .putHeight key value => ph = .pending (.put key value) ∧ key.length < 2 ^ 16
  | .descend f i before => ph = .pending f.call ∧ f.From t L (i + 1) ∧ i < maxHeight ∧
      before ∈ t.head :: (t.listed L).lower f.key i
  | .putNode f => ph = .pending f.call ∧ f.From t L 0
  | .putKey f => ph = .pending f.call ∧ f.Owns t L 0
  | .putVal f keyOffset => ph = .pending f.call ∧ f.Owns t L 0 ∧
      t.arena.getBytes keyOffset f.key.length = f.key ∧ keyOffset + f.key.length ≤ t.arena.n
  | .getHeight f => ph = .pending f.call ∧ f.Filled t L 0
  | .casHeight f listHeight => ph = .pending f.call ∧ f.Filled t L 0 ∧ listHeight < f.height
  | .missing f i before => f.Linking t L i ph ∧ 0 < i ∧ i < f.height ∧
      before ∈ t.head :: (t.listed L).lower f.key i
  | .store f i => f.Linking t L i ph ∧ i < f.height ∧
      SpliceOK t L f.key i (f.prev i) (f.next i)
  | .cas f i => f.Linking t L i ph ∧ i < f.height ∧
      SpliceOK t L f.key i (f.prev i) (f.next i) ∧ t.tower i f.node = f.next i
  | .retry f i before => f.Linking t L i ph ∧ i < f.height ∧
      before ∈ t.head :: (t.listed L).lower f.key i
  | .copyValue o value => o ∈ L 0 ∧ ph = .pending (.put (t.key o) value)
  | .storeValue o offset size => o ∈ L 0 ∧ offset + size ≤ t.arena.n ∧
      ph = .pending (.put (t.key o) (t.arena.getBytes offset size))
  | .findHeight q => ph = .pending q.call ∧ q.OK
  | .find q x level => ph = .pending q.call ∧ q.OK ∧ level < maxHeight ∧
      x ∈ t.head :: (t.listed L).lower q.key level
  | .findNext q o => ph = .pending (.near q.key false false) ∧ q.value = false ∧ o ∈ L 0 ∧
      t.key o = q.key
  | .readValue o => o ∈ L 0 ∧ ph = .pending (.get (t.key o))
  | .returning a => ph = .done a
  | .fault _ => False

/-- The node that a thread has allocated and not yet linked everywhere. -/
def Pc.own : Pc → Option ℕ
  | .putKey f | .putVal f _ | .getHeight f | .casHeight f _ | .missing f _ _ | .store f _
  | .cas f _ | .retry f _ _ => some f.node
  | _ => none

/-! ## What stays known -/

section Stable

variable {t t' : Towers} {L L' : ℕ → List ℕ} {m : OrdMap Bytes Bytes} {k : Bytes} {x i o : ℕ}
  {f : Frame} {j : ℕ} {ph : Phase Call Answer} (hr : Rely x t L t' L') (h : Shared t L m)

include hr h

namespace Rely

theorem below (ho : o ∈ t.head :: (t.listed L).lower k i) :
    o ∈ t'.head :: (t'.listed L').lower k i := by
  rw [hr.head_eq]
  rcases List.mem_cons.mp ho with rfl | ho
  · exact List.mem_cons_self
  · obtain ⟨hmem, hlt⟩ := Skiplist.mem_lower.mp ho
    refine List.mem_cons_of_mem _ (Skiplist.mem_lower.mpr ⟨hr.linked i o hmem, ?_⟩)
    exact (hr.key_eq h (h.sim.mem_zero hmem)).trans_lt hlt

theorem splice {p n : ℕ} (hs : SpliceOK t L k i p n) : SpliceOK t' L' k i p n := by
  refine ⟨hr.below h hs.below, hs.next.imp_right fun ⟨hmem, hlt⟩ => ⟨hr.linked i n hmem, ?_⟩⟩
  rw [hr.key_eq h (h.sim.mem_zero hmem)]
  exact hlt

theorem frame {n : ℕ} (hf : f.From t L n) : f.From t' L' n :=
  ⟨hr.splice h hf.first, fun i hi => (hf.rest i hi).imp_right (hr.splice h), hf.key_lt⟩

theorem owns (hf : f.Owns t L j) (hx : f.node ≠ x) : f.Owns t' L' j :=
  { hr.frame h hf.toFrom with
    ne_zero := hf.ne_zero
    ne_head := hr.head_eq ▸ hf.ne_head
    node_lt := hf.node_lt.trans_le hr.n_le
    height_pos := hf.height_pos
    height_le := hf.height_le
    linked := fun i hi => hr.linked i _ (hf.linked i hi)
    unlinked := fun i hi hmem => (hr.new i _ hmem).elim (hf.unlinked i hi) hx }

theorem filled (hf : f.Filled t L j) (hx : f.node ≠ x) : f.Filled t' L' j := by
  -- another thread can at most change where a linked node has its value
  have hshape : (t'.nodes f.node).keyOffset = (t.nodes f.node).keyOffset ∧
      (t'.nodes f.node).keySize = (t.nodes f.node).keySize ∧
      (t'.nodes f.node).height = (t.nodes f.node).height := by
    by_cases hmem : f.node ∈ L 0
    · exact hr.shape _ hmem
    · rw [hr.record _ hx hmem]
      exact ⟨rfl, rfl, rfl⟩
  obtain ⟨hoffset, hsize, hheight⟩ := hshape
  refine ⟨hr.owns h hf.toOwns hx, ?_, hheight.trans hf.tall, ?_, fun hj => ?_⟩
  · rw [Towers.key, hoffset, hsize, hr.bytes _ _ hf.key_le]
    exact hf.key_eq
  · rw [hoffset, hsize]
    exact hf.key_le.trans hr.n_le
  · obtain ⟨hval, hle⟩ := hf.val hj
    have hrecord := hr.record _ hx (hf.unlinked 0 (by omega))
    rw [Towers.val, hrecord, hr.bytes _ _ hle]
    exact ⟨hval, hle.trans hr.n_le⟩

theorem linking (hf : f.Linking t L j ph) (hx : f.node ≠ x) : f.Linking t' L' j ph :=
  ⟨hr.filled h hf.toFilled hx, hf.raised.trans hr.height_le, hf.phase⟩

end Rely

/-- **What a thread knows stays known** while another one makes a step. -/
theorem Pc.OK.stable {pc : Pc} (hok : pc.OK t L ph) (hx : pc.own ≠ some x) : pc.OK t' L' ph := by
  -- the facts a thread relies on: its splices, its own node, and bytes in front of the arena's end
  cases pc with
  | idle => exact hok
  | putHeight => exact hok
  | descend f i before =>
    obtain ⟨hph, hf, hi, hb⟩ := hok
    exact ⟨hph, hr.frame h hf, hi, hr.below h hb⟩
  | putNode f => exact ⟨hok.1, hr.frame h hok.2⟩
  | putKey f => exact ⟨hok.1, hr.owns h hok.2 fun heq => hx (congrArg some heq)⟩
  | putVal f keyOffset =>
    obtain ⟨hph, hf, hkey, hle⟩ := hok
    refine ⟨hph, hr.owns h hf fun heq => hx (congrArg some heq), ?_, hle.trans hr.n_le⟩
    rw [hr.bytes _ _ hle]
    exact hkey
  | getHeight f => exact ⟨hok.1, hr.filled h hok.2 fun heq => hx (congrArg some heq)⟩
  | casHeight f listHeight =>
    exact ⟨hok.1, hr.filled h hok.2.1 fun heq => hx (congrArg some heq), hok.2.2⟩
  | missing f i before =>
    obtain ⟨hf, hpos, hi, hb⟩ := hok
    exact ⟨hr.linking h hf fun heq => hx (congrArg some heq), hpos, hi, hr.below h hb⟩
  | store f i =>
    obtain ⟨hf, hi, hs⟩ := hok
    exact ⟨hr.linking h hf fun heq => hx (congrArg some heq), hi, hr.splice h hs⟩
  | cas f i =>
    obtain ⟨hf, hi, hs, hstored⟩ := hok
    have hne : f.node ≠ x := fun heq => hx (congrArg some heq)
    refine ⟨hr.linking h hf hne, hi, hr.splice h hs, ?_⟩
    -- the slot is one of the thread's own node, which is not linked at this level
    rw [hr.slot i _ hne fun hmem => ?_]
    · exact hstored
    · rcases List.mem_cons.mp hmem with heq | hmem
      · exact hf.ne_head heq
      · exact hf.unlinked i le_rfl hmem
  | retry f i before =>
    obtain ⟨hf, hi, hb⟩ := hok
    exact ⟨hr.linking h hf fun heq => hx (congrArg some heq), hi, hr.below h hb⟩
  | copyValue o value =>
    obtain ⟨ho, hph⟩ := hok
    exact ⟨hr.linked 0 o ho, by rw [hr.key_eq h ho]; exact hph⟩
  | storeValue o offset size =>
    obtain ⟨ho, hle, hph⟩ := hok
    refine ⟨hr.linked 0 o ho, hle.trans hr.n_le, ?_⟩
    rw [hr.key_eq h ho, hr.bytes _ _ hle]
    exact hph
  | findHeight q => exact hok
  | find q x level =>
    obtain ⟨hph, hq, hlevel, hb⟩ := hok
    exact ⟨hph, hq, hlevel, hr.below h hb⟩
  | findNext q o =>
    obtain ⟨hph, hq, ho, hk⟩ := hok
    exact ⟨hph, hq, hr.linked 0 o ho, (hr.key_eq h ho).trans hk⟩
  | readValue o =>
    obtain ⟨ho, hph⟩ := hok
    exact ⟨hr.linked 0 o ho, by rw [hr.key_eq h ho]; exact hph⟩
  | returning a => exact hok
  | fault f => exact hok

end Stable

/-! ## One step -/

/-- What one step of a thread amounts to: it keeps the shared memory and what the thread knows, and
either nothing happens to the map or the call of the thread takes effect. -/
structure Stepped (t : Towers) (L : ℕ → List ℕ) (m : OrdMap Bytes Bytes) (ph : Phase Call Answer)
    (pc : Pc) (r : Towers × Pc) (L' : ℕ → List ℕ) (m' : OrdMap Bytes Bytes)
    (ph' : Phase Call Answer) : Prop where
  shared : Shared r.1 L' m'
  ok : r.2.OK r.1 L' ph'
  rely : Rely (pc.own.getD 0) t L r.1 L'
  own : ∀ y, r.2.own = some y → pc.own = some y ∨ t.arena.n ≤ y
  effect : m' = m ∧ ph' = ph ∨
    ∃ c, ph = .pending c ∧ ph' = .done (apply c m).1 ∧ m' = (apply c m).2

/-- Some levels, map and phase are those after the step. -/
def Advances (t : Towers) (L : ℕ → List ℕ) (m : OrdMap Bytes Bytes) (ph : Phase Call Answer)
    (pc : Pc) (r : Towers × Pc) : Prop :=
  ∃ L' m' ph', Stepped t L m ph pc r L' m' ph'

/-- There is room for the bytes in the arena, and its counter does not wrap. -/
structure Fits (t : Towers) (n : ℕ) : Prop where
  inside : t.arena.n + n ≤ t.arena.size
  no_wrap : t.arena.n + n < 2 ^ 32

section Step

variable {t t' : Towers} {L : ℕ → List ℕ} {m : OrdMap Bytes Bytes} {ph : Phase Call Answer}
  {pc pc' : Pc} {f : Frame} {q : Query} {k : Bytes} {i x o draw : ℕ}

/-- A step that no other thread sees. -/
theorem Quiet.advances (hq : Quiet x L t t') (hx : pc.own.getD 0 = x) (h : Shared t L m)
    (hhead : x ≠ t.head) (hok : pc'.OK t' L ph)
    (hown : ∀ y, pc'.own = some y → pc.own = some y ∨ t.arena.n ≤ y) :
    Advances t L m ph pc (t', pc') :=
  ⟨L, m, ph, hq.shared h hhead, hok, hx.symm ▸ hq.rely, hown, Or.inl ⟨rfl, rfl⟩⟩

theorem Shared.zero_ne_head (h : Shared t L m) : (0 : ℕ) ≠ t.head := fun heq =>
  h.sim.ne_zero (i := 0) List.mem_cons_self heq.symm

/-- The node of a thread is neither nil nor the head. -/
theorem Pc.OK.own_spec (hok : pc.OK t L ph) (hown : pc.own = some o) :
    o ≠ 0 ∧ o ≠ t.head ∧ o < t.arena.n := by
  have hof : ∀ {f : Frame} {j : ℕ}, f.Owns t L j → some f.node = some o →
      o ≠ 0 ∧ o ≠ t.head ∧ o < t.arena.n := by
    intro f j hf hfo
    obtain rfl := Option.some.inj hfo
    exact ⟨hf.ne_zero, hf.ne_head, hf.node_lt⟩
  -- the calls that own a node are those between its allocation and its last link
  cases pc with
  | putKey f => exact hof hok.2 hown
  | putVal f keyOffset => exact hof hok.2.1 hown
  | getHeight f => exact hof hok.2.toOwns hown
  | casHeight f listHeight => exact hof hok.2.1.toOwns hown
  | missing f i before => exact hof hok.1.toOwns hown
  | store f i => exact hof hok.1.toOwns hown
  | cas f i => exact hof hok.1.toOwns hown
  | retry f i before => exact hof hok.1.toOwns hown
  | _ => cases hown

theorem Pc.OK.own_ne_head (hok : pc.OK t L ph) (h : Shared t L m) : pc.own.getD 0 ≠ t.head := by
  cases hown : pc.own with
  | none => exact h.zero_ne_head
  | some o => exact (hok.own_spec hown).2.1

/-- A step that only reads. -/
theorem Shared.advances_read (h : Shared t L m) (hpc : pc.OK t L ph) (hok : pc'.OK t L ph)
    (hown : ∀ y, pc'.own = some y → pc.own = some y) : Advances t L m ph pc (t, pc') :=
  (Quiet.refl h _).advances rfl h (hpc.own_ne_head h) hok fun y hy => Or.inl (hown y hy)

/-- A read with which the call of the thread takes effect. -/
theorem Shared.advances_answer (h : Shared t L m) (c : Call) (hph : ph = .pending c)
    (hm : (apply c m).2 = m) {a : Answer} (ha : a = (apply c m).1) :
    Advances t L m ph pc (t, .returning a) :=
  ⟨L, m, .done (apply c m).1, h, congrArg Phase.done ha.symm, (Quiet.refl h _).rely,
    fun y hy => (by cases hy), Or.inr ⟨c, hph, rfl, hm.symm⟩⟩

/-! ### The splice -/

/-- **One round of `findSpliceForLevel`** from a node below the key: go on from such a node, or find
the key at this level, or have the splice. -/
theorem Shared.spliceRound_cases (h : Shared t L m) (hi : i < maxHeight)
    (hb : x ∈ t.head :: (t.listed L).lower k i) :
    (t.spliceRound k i x = .ok (.inl (t.tower i x)) ∧
      t.tower i x ∈ (t.listed L).lower k i) ∨
    (t.spliceRound k i x = .ok (.inr (t.tower i x, t.tower i x)) ∧ t.tower i x ∈ L i ∧
      t.key (t.tower i x) = k) ∨
    (t.spliceRound k i x = .ok (.inr (x, t.tower i x)) ∧ x ≠ t.tower i x ∧
      SpliceOK t L k i x (t.tower i x)) := by
  obtain ⟨hget, hnext⟩ := h.getNext_eq hi ((t.listed L).cons_lower_subset k i hb)
  have hx : x ≠ 0 := h.sim.ne_zero ((t.listed L).cons_lower_subset k i hb)
  have hround : t.spliceRound k i x =
      if t.tower i x = 0 then .ok (.inr (x, 0))
      else if k = t.key (t.tower i x) then .ok (.inr (t.tower i x, t.tower i x))
      else if k < t.key (t.tower i x) then .ok (.inr (x, t.tower i x))
      else .ok (.inl (t.tower i x)) := by
    rw [Towers.spliceRound, hget]
    simp only [bind, Except.bind, pure, Except.pure]
  rw [hround]
  by_cases hzero : t.tower i x = 0
  · rw [if_pos hzero, hzero]
    exact Or.inr (Or.inr ⟨rfl, hx, hb, Or.inl rfl⟩)
  · have hmem := hnext.resolve_left hzero
    rw [if_neg hzero]
    by_cases heq : k = t.key (t.tower i x)
    · rw [if_pos heq]
      exact Or.inr (Or.inl ⟨rfl, hmem, heq.symm⟩)
    · rw [if_neg heq]
      by_cases hlt : k < t.key (t.tower i x)
      · rw [if_pos hlt]
        refine Or.inr (Or.inr ⟨rfl, fun hself => ?_, hb, Or.inr ⟨hmem, hlt⟩⟩)
        -- the head has no key and a lower node has a smaller one
        rcases List.mem_cons.mp hb with hhead | hlow
        · exact h.sim.head_ne (i := i) hmem (hself.symm.trans hhead)
        · have hlow' : t.key x < k := (Skiplist.mem_lower.mp hlow).2
          rw [← hself] at hlt
          exact hlt.asymm hlow'
      · rw [if_neg hlt]
        have hgt := lt_of_le_of_ne (not_lt.mp hlt) (Ne.symm heq)
        exact Or.inl ⟨rfl, Skiplist.mem_lower.mpr ⟨hmem, hgt⟩⟩

/-- A splice found for the next level down. -/
theorem Frame.From.setSplice (hf : f.From t L (i + 1)) {p n : ℕ}
    (hs : SpliceOK t L f.key i p n) : (f.setSplice i p n).From t L i := by
  refine ⟨by simpa [Frame.setSplice] using hs, fun j hj => ?_, hf.key_lt⟩
  simp only [Frame.setSplice, Function.update_of_ne (by omega : j ≠ i)]
  rcases Nat.eq_or_lt_of_le (Nat.succ_le_of_lt hj) with rfl | hj
  · exact Or.inr hf.first
  · exact hf.rest j hj

/-- A splice found again for one level. -/
theorem Frame.Linking.setSplice (hf : f.Linking t L i ph) {p n : ℕ}
    (hs : SpliceOK t L f.key i p n) : (f.setSplice i p n).Linking t L i ph := by
  -- of the splices only the one of this level changes
  have hsplice : ∀ j, SpliceOK t L f.key j (f.prev j) (f.next j) →
      SpliceOK t L f.key j ((f.setSplice i p n).prev j) ((f.setSplice i p n).next j) := by
    intro j hj
    by_cases hji : j = i
    · subst hji
      simpa [Frame.setSplice] using hs
    · simpa only [Frame.setSplice, Function.update_of_ne hji] using hj
  have hfrom : (f.setSplice i p n).From t L 0 := by
    refine ⟨hsplice 0 hf.first, fun j hj => ?_, hf.key_lt⟩
    by_cases hji : j = i
    · subst hji
      exact Or.inr (by simpa [Frame.setSplice] using hs)
    · exact (hf.rest j hj).imp
        (fun hzero => by simpa only [Frame.setSplice, Function.update_of_ne hji] using hzero)
        (hsplice j)
  exact ⟨⟨⟨hfrom, hf.ne_zero, hf.ne_head, hf.node_lt, hf.height_pos, hf.height_le, hf.linked,
    hf.unlinked⟩, hf.key_eq, hf.tall, hf.key_le, hf.val⟩, hf.raised, hf.phase⟩

/-- The first loop of `Put` goes on. -/
theorem Frame.From.below_ok (h : Shared t L m) (hf : f.From t L i) (hi : i ≤ maxHeight)
    (hph : ph = .pending f.call) : (f.below i).OK t L ph := by
  cases i with
  | zero => exact ⟨hph, hf⟩
  | succ i =>
    refine ⟨hph, hf, hi, ?_⟩
    exact List.cons_subset_cons _ (h.sim.lower_sublist f.key i).subset hf.first.below

/-- The second loop of `Put` goes on. -/
theorem Frame.Linking.level_ok (h : Shared t L m) (hf : f.Linking t L i ph) :
    (f.level t.head i).OK t L ph := by
  rw [Frame.level]
  split_ifs with hdone hmissing hzero
  -- all levels are linked, so the call has taken effect
  · have hpos := hf.height_pos
    have hphase := hf.phase
    rw [if_neg (by omega)] at hphase
    exact hphase
  -- the first loop found a splice for the bottom level, so none is missing there
  · subst hzero
    exact absurd hmissing (h.sim.ne_zero ((t.listed L).cons_lower_subset f.key 0 hf.first.below))
  · exact ⟨hf, Nat.pos_of_ne_zero hzero, not_le.mp hdone, List.mem_cons_self⟩
  · refine ⟨hf, not_le.mp hdone, ?_⟩
    rcases Nat.eq_zero_or_pos i with rfl | hpos
    · exact hf.first
    · exact (hf.rest i hpos).resolve_left hmissing

theorem Frame.level_own (f : Frame) (head i : ℕ) {y : ℕ} (hy : (f.level head i).own = some y) :
    y = f.node := by
  rw [Frame.level] at hy
  split_ifs at hy <;> cases hy
  · rfl
  · rfl

/-- Above the bottom level no other node has the key. -/
theorem Frame.Linking.key_ne (h : Shared t L m) (hf : f.Linking t L i ph) (hi : i ≠ 0)
    (ho : o ∈ L i) : t.key o ≠ f.key := by
  intro hk
  have hnode := hf.linked 0 (Nat.pos_of_ne_zero hi)
  have hsame : o = f.node :=
    h.sim.key_inj (i := 0) (h.sim.mem_zero ho) hnode (hk.trans hf.key_eq.symm)
  exact hf.unlinked i le_rfl (hsame ▸ ho)

/-! ### The steps of `Put` -/

theorem Shared.advances_putHeight {key value : Bytes} (h : Shared t L m)
    (hok : (Pc.putHeight key value).OK t L ph) :
    Advances t L m ph (.putHeight key value) ((Pc.putHeight key value).step draw t) := by
  obtain ⟨hph, hlt⟩ := hok
  let f : Frame := ⟨key, value, Function.update (fun _ => 0) t.height t.head, fun _ => 0, 0, 0⟩
  have hfrom : f.From t L t.height := by
    refine ⟨⟨?_, Or.inl rfl⟩, fun i hi => Or.inl ?_, hlt⟩
    · simp [f]
    · exact Function.update_of_ne hi.ne' t.head fun _ => 0
  refine h.advances_read ⟨hph, hlt⟩ (hfrom.below_ok h h.rep.height_le hph) fun y hy => ?_
  cases hheight : t.height <;> rw [hheight] at hy <;> cases hy

theorem Shared.advances_descend {before : ℕ} (h : Shared t L m)
    (hok : (Pc.descend f i before).OK t L ph) :
    Advances t L m ph (.descend f i before) ((Pc.descend f i before).step draw t) := by
  obtain ⟨hph, hf, hi, hb⟩ := hok
  -- the walk goes on, meets the key, or ends the level with a splice
  rcases h.spliceRound_cases hi hb with ⟨hround, hnext⟩ | ⟨hround, ho, hk⟩ | ⟨hround, hne, hs⟩
  · simp only [Pc.step, hround, orFault]
    exact h.advances_read ⟨hph, hf, hi, hb⟩ ⟨hph, hf, hi, List.mem_cons_of_mem _ hnext⟩
      fun y hy => hy
  · simp only [Pc.step, hround, orFault, if_true]
    refine h.advances_read ⟨hph, hf, hi, hb⟩ ⟨h.sim.mem_zero ho, ?_⟩ fun y hy => hy
    rw [hk]
    exact hph
  · simp only [Pc.step, hround, orFault, if_neg hne]
    refine h.advances_read ⟨hph, hf, hi, hb⟩ ((hf.setSplice hs).below_ok h hi.le hph) fun y hy => ?_
    cases i <;> cases hy

/-- Reserving bytes is not seen. -/
theorem Shared.quiet_putBytes (h : Shared t L m) {v : Bytes} (hfits : Fits t v.length) (x : ℕ) :
    Quiet x L t { t with arena := (t.arena.putBytes v).2 } where
  head_eq := rfl
  height_le := le_rfl
  height_max := h.rep.height_le
  n_le := by
    rw [Arena.putBytes_n, Arena.bump_of_lt hfits.no_wrap]
    exact Nat.le_add_right ..
  bytes _ _ hle := Arena.getBytes_putBytes_of_le hle v
  nodes _ _ := rfl
  slots _ _ _ := rfl

theorem Shared.quiet_putNode (h : Shared t L m) (hfits : Fits t (Arena.nodeSize draw)) (x : ℕ) :
    Quiet x L t { t with arena := (t.arena.putNode draw).2 } where
  head_eq := rfl
  height_le := le_rfl
  height_max := h.rep.height_le
  n_le := by
    rw [Arena.putNode_n, Arena.bump_of_lt hfits.no_wrap]
    exact Nat.le_add_right ..
  bytes _ _ _ := rfl
  nodes _ _ := rfl
  slots _ _ _ := rfl

theorem Shared.advances_putNode (h : Shared t L m) (hok : (Pc.putNode f).OK t L ph)
    (hpos : 0 < draw) (hle : draw ≤ maxHeight) (hfits : Fits t (Arena.nodeSize draw)) :
    Advances t L m ph (.putNode f) ((Pc.putNode f).step draw t) := by
  obtain ⟨hph, hf⟩ := hok
  obtain ⟨hge, hlt⟩ := Arena.putNode_bounds hfits.no_wrap
  -- the node is allocated at the end of the arena, behind all that are linked
  have hnew : ∀ o ∈ t.head :: L 0, o ≠ (t.arena.putNode draw).1 := fun o ho heq =>
    absurd (h.sim.node_lt o ho) (by rw [heq]; exact not_lt.mpr hge)
  have hq := h.quiet_putNode hfits 0
  have hf' := hq.rely.frame h hf
  refine hq.advances rfl h h.zero_ne_head ⟨hph, ?_⟩ fun y hy => ?_
  · refine ⟨⟨hf'.first, hf'.rest, hf'.key_lt⟩, fun hzero => ?_, fun heq => ?_, ?_, hpos, hle,
      fun i hi => absurd hi (Nat.not_lt_zero i), fun i _ hmem => ?_⟩
    · have hhead : t.head < t.arena.n := h.sim.node_lt _ List.mem_cons_self
      have hzero' : (t.arena.putNode draw).1 = 0 := hzero
      omega
    · exact hnew _ List.mem_cons_self heq.symm
    · change _ < (t.arena.putNode draw).2.n
      rw [Arena.putNode_n, Arena.bump_of_lt hfits.no_wrap]
      exact hlt
    · exact hnew _ (List.mem_cons_of_mem _ (h.sim.mem_zero hmem)) rfl
  · obtain rfl := Option.some.inj hy
    exact Or.inr hge

theorem Shared.advances_putKey (h : Shared t L m) (hok : (Pc.putKey f).OK t L ph)
    (hfits : Fits t f.key.length) :
    Advances t L m ph (.putKey f) ((Pc.putKey f).step draw t) := by
  have hhead := hok.own_ne_head h
  obtain ⟨hph, hf⟩ := hok
  refine (h.quiet_putBytes hfits f.node).advances rfl h hhead
    ⟨hph, (h.quiet_putBytes hfits 0).rely.owns h hf hf.ne_zero, ?_, ?_⟩ fun y hy => Or.inl hy
  · exact Arena.getBytes_putBytes_self hfits.inside
  · change _ ≤ (t.arena.putBytes f.key).2.n
    rw [Arena.putBytes_n, Arena.bump_of_lt hfits.no_wrap]

theorem Shared.advances_putVal {keyOffset : ℕ} (h : Shared t L m)
    (hok : (Pc.putVal f keyOffset).OK t L ph) (hfits : Fits t f.value.length) :
    Advances t L m ph (.putVal f keyOffset) ((Pc.putVal f keyOffset).step draw t) := by
  have hhead := hok.own_ne_head h
  obtain ⟨hph, hf, hkey, hle⟩ := hok
  have hkeyLen := hf.key_lt
  have hvalLen : f.value.length < 2 ^ 32 := lt_of_le_of_lt (Nat.le_add_left ..) hfits.no_wrap
  have hq := h.quiet_putBytes hfits f.node
  -- the record is that of the thread's own node, which nobody else can reach
  have hq' : Quiet f.node L t ((Pc.putVal f keyOffset).step draw t).1 := by
    refine ⟨rfl, le_rfl, h.rep.height_le, hq.n_le, hq.bytes, fun o ho => ?_, fun _ _ _ => rfl⟩
    refine Function.update_of_ne (fun heq => ?_) ..
    rcases ho with hne | hmem
    · exact hne heq
    · exact hf.unlinked 0 le_rfl (heq ▸ hmem)
  have hn : t.arena.n + f.value.length ≤ (t.arena.putBytes f.value).2.n := by
    rw [Arena.putBytes_n, Arena.bump_of_lt hfits.no_wrap]
  have hf' := hq'.rely.frame h hf.toFrom
  refine hq'.advances rfl h hhead ⟨hph, ⟨⟨hf', hf.ne_zero, hf.ne_head, hf.node_lt.trans_le hq.n_le,
    hf.height_pos, hf.height_le, hf.linked, hf.unlinked⟩, ?_, ?_, ?_, fun _ => ⟨?_, ?_⟩⟩⟩
    fun y hy => Or.inl hy
  -- the key was copied by the step before, in front of the value
  · simp only [Pc.step, Towers.key, Function.update_self, Nat.mod_eq_of_lt hkeyLen]
    exact (Arena.getBytes_putBytes_of_le hle f.value).trans hkey
  · simp only [Pc.step, Function.update_self]
  · simp only [Pc.step, Function.update_self, Nat.mod_eq_of_lt hkeyLen]
    exact hle.trans hq.n_le
  · simp only [Pc.step, Towers.val, Function.update_self, Nat.mod_eq_of_lt hvalLen]
    exact Arena.getBytes_putBytes_self hfits.inside
  · simp only [Pc.step, Function.update_self, Nat.mod_eq_of_lt hvalLen]
    exact hn

theorem Shared.advances_getHeight (h : Shared t L m) (hok : (Pc.getHeight f).OK t L ph) :
    Advances t L m ph (.getHeight f) ((Pc.getHeight f).step draw t) := by
  obtain ⟨hph, hf⟩ := hok
  simp only [Pc.step]
  split_ifs with hlt
  · exact h.advances_read ⟨hph, hf⟩ ⟨hph, hf, hlt⟩ fun y hy => hy
  · have hlinking : f.Linking t L 0 ph := ⟨hf, not_lt.mp hlt, hph⟩
    refine h.advances_read ⟨hph, hf⟩ (hlinking.level_ok h) fun y hy => ?_
    exact congrArg some (f.level_own t.head 0 hy).symm

theorem Shared.advances_casHeight {listHeight : ℕ} (h : Shared t L m)
    (hok : (Pc.casHeight f listHeight).OK t L ph) :
    Advances t L m ph (.casHeight f listHeight) ((Pc.casHeight f listHeight).step draw t) := by
  have hhead := hok.own_ne_head h
  obtain ⟨hph, hf, hlt⟩ := hok
  simp only [Pc.step]
  split_ifs with heq
  · -- the swap succeeds, so the height is still the one below the new node's
    have hq : ∀ x, Quiet x L t { t with height := f.height } := fun x =>
      ⟨rfl, heq ▸ hlt.le, hf.height_le, le_rfl, fun _ _ _ => rfl, fun _ _ => rfl, fun _ _ _ => rfl⟩
    have hf' := (hq 0).rely.filled h hf hf.ne_zero
    have hlinking : f.Linking { t with height := f.height } L 0 ph := ⟨hf', le_rfl, hph⟩
    refine (hq f.node).advances rfl h hhead (hlinking.level_ok ((hq 0).shared h h.zero_ne_head))
      fun y hy => Or.inl ?_
    exact congrArg some (f.level_own t.head 0 hy).symm
  · exact h.advances_read ⟨hph, hf, hlt⟩ ⟨hph, hf⟩ fun y hy => hy

theorem Shared.advances_missing {before : ℕ} (h : Shared t L m)
    (hok : (Pc.missing f i before).OK t L ph) :
    Advances t L m ph (.missing f i before) ((Pc.missing f i before).step draw t) := by
  have hpc := hok
  obtain ⟨hf, hpos, hi, hb⟩ := hok
  rcases h.spliceRound_cases (hi.trans_le hf.height_le) hb with ⟨hround, hnext⟩ |
      ⟨hround, ho, hk⟩ | ⟨hround, hne, hs⟩
  · simp only [Pc.step, hround, orFault]
    exact h.advances_read hpc ⟨hf, hpos, hi, List.mem_cons_of_mem _ hnext⟩ fun y hy => hy
  · exact absurd hk (hf.key_ne h hpos.ne' ho)
  · simp only [Pc.step, hround, orFault, if_neg hne]
    refine h.advances_read hpc ⟨hf.setSplice hs, hi, ?_⟩ fun y hy => hy
    simpa [Frame.setSplice] using hs

theorem Shared.advances_retry {before : ℕ} (h : Shared t L m)
    (hok : (Pc.retry f i before).OK t L ph) :
    Advances t L m ph (.retry f i before) ((Pc.retry f i before).step draw t) := by
  have hpc := hok
  obtain ⟨hf, hi, hb⟩ := hok
  rcases h.spliceRound_cases (hi.trans_le hf.height_le) hb with ⟨hround, hnext⟩ |
      ⟨hround, ho, hk⟩ | ⟨hround, hne, hs⟩
  · simp only [Pc.step, hround, orFault]
    exact h.advances_read hpc ⟨hf, hi, List.mem_cons_of_mem _ hnext⟩ fun y hy => hy
  · -- another thread has linked the key at the bottom level: its value is overwritten
    have hzero : i = 0 := by
      by_contra hne
      exact hf.key_ne h hne ho hk
    subst hzero
    simp only [Pc.step, hround, orFault, if_true, ne_eq, not_true_eq_false, if_false]
    refine h.advances_read hpc ⟨ho, ?_⟩ fun y hy => by cases hy
    rw [hk]
    exact hf.phase
  · simp only [Pc.step, hround, orFault, if_neg hne]
    refine h.advances_read hpc ((hf.setSplice hs).level_ok h) fun y hy => ?_
    exact congrArg some ((f.setSplice i before _).level_own t.head i hy).symm

/-- The owner may write a slot of its node that is not linked yet. -/
theorem Frame.Owns.quiet_setSlot (h : Shared t L m) {j : ℕ} (hf : f.Owns t L j) (hj : j ≤ i)
    (next : ℕ) : Quiet f.node L t (t.setSlot f.node i next) := by
  refine ⟨rfl, le_rfl, h.rep.height_le, le_rfl, fun _ _ _ => rfl, fun _ _ => rfl, fun l o ho => ?_⟩
  by_cases hl : l = i
  · subst hl
    have hne : o ≠ f.node := by
      rcases ho with hne | hmem
      · exact hne
      · rintro rfl
        exact hf.unlinked l hj hmem
    rw [Towers.setSlot_tower_self, Function.update_of_ne hne]
  · rw [Towers.setSlot_tower_of_ne _ _ _ hl]

theorem Frame.Filled.slot_eq {j : ℕ} (hf : f.Filled t L j) (hi : i < f.height) :
    t.slot f.node i = .ok () := by
  rw [Towers.slot, if_neg hf.ne_zero, if_neg]
  rw [hf.tall]
  exact not_le.mpr hi

theorem Shared.advances_store (h : Shared t L m) (hok : (Pc.store f i).OK t L ph) :
    Advances t L m ph (.store f i) ((Pc.store f i).step draw t) := by
  have hhead := hok.own_ne_head h
  obtain ⟨hf, hi, hs⟩ := hok
  have hstore : t.store f.node i (f.next i) = .ok (t.setSlot f.node i (f.next i)) := by
    rw [Towers.store, hf.slot_eq hi]
    rfl
  simp only [Pc.step, hstore, orFault]
  -- the slot is one of a node that is not linked at this level
  have hq := hf.quiet_setSlot h le_rfl (f.next i)
  have hframe := hq.rely.frame h hf.toFrom
  refine hq.advances rfl h hhead ⟨⟨⟨⟨hframe, hf.ne_zero, hf.ne_head, hf.node_lt, hf.height_pos,
    hf.height_le, hf.linked, hf.unlinked⟩, hf.key_eq, hf.tall, hf.key_le, hf.val⟩, hf.raised,
    hf.phase⟩, hi, hq.rely.splice h hs, ?_⟩ fun y hy => Or.inl hy
  rw [Towers.setSlot_tower_self, Function.update_self]

/-- After its swap the node is linked at one more level. -/
theorem Frame.Linking.swapped (h : Shared t L m) (hf : f.Linking t L i ph) {p : ℕ}
    (hswap : Swap t L f.key i p f.node) :
    f.Linking (t.setSlot p i f.node) (linkAt t L f.key i f.node) (i + 1) (.done .done) := by
  have hr := hswap.rely h
  refine ⟨⟨⟨hr.frame h hf.toFrom, hf.ne_zero, hf.ne_head, hf.node_lt, hf.height_pos, hf.height_le,
    fun l hl => ?_, fun l hl hmem => ?_⟩, hf.key_eq, hf.tall, hf.key_le, fun hzero => ?_⟩,
    hf.raised, ?_⟩
  -- linked below as before, and at this level by the swap
  · rcases Nat.lt_succ_iff_lt_or_eq.mp hl with hl | rfl
    · exact hr.linked l _ (hf.linked l hl)
    · rw [linkAt_self]
      exact List.mem_append_right _ List.mem_cons_self
  · rw [linkAt_of_ne t L f.key f.node (by omega)] at hmem
    exact hf.unlinked l (by omega) hmem
  · exact absurd hzero (Nat.succ_ne_zero i)
  · rw [if_neg (Nat.succ_ne_zero i)]

theorem Shared.advances_cas (h : Shared t L m) (hok : (Pc.cas f i).OK t L ph) :
    Advances t L m ph (.cas f i) ((Pc.cas f i).step draw t) := by
  have hpc := hok
  obtain ⟨hf, hi, hs, hstored⟩ := hok
  have hlevel := hi.trans_le hf.height_le
  have hprev := (t.listed L).cons_lower_subset f.key i hs.below
  obtain ⟨hget, -⟩ := h.getNext_eq hlevel hprev
  have hslot : t.slot (f.prev i) i = .ok () := h.rep.slot_eq hlevel hprev (h.sim.ne_zero hprev)
  by_cases heq : t.tower i (f.prev i) = f.next i
  · have hcas : t.casNextOffset (f.prev i) i (f.next i) f.node =
        .ok (some (t.setSlot (f.prev i) i f.node)) := by
      rw [Towers.casNextOffset, hget, Towers.store, hslot]
      simp only [bind, Except.bind, pure, Except.pure, heq, if_true]
    have hswap : Swap t L f.key i (f.prev i) f.node := by
      refine ⟨hlevel, hs.below, ?_, hstored.trans heq.symm, fun hmem => ?_, hf.tall ▸ hi, hf.ne_zero,
        hf.key_eq⟩
      · rw [heq]
        exact hs.next.imp_right And.right
      · rcases List.mem_cons.mp hmem with hnode | hmem
        · exact hf.ne_head hnode
        · exact hf.unlinked i le_rfl hmem
    have hf' := hf.swapped h hswap
    simp only [Pc.step, hcas, orFault]
    have hown : ∀ y, (f.level t.head (i + 1)).own = some y →
        (Pc.cas f i).own = some y ∨ t.arena.n ≤ y := fun y hy =>
      Or.inl (congrArg some (f.level_own t.head (i + 1) hy).symm)
    have hphase := hf.phase
    cases i with
    | zero =>
      -- the bottom level: here the call takes effect
      obtain ⟨hval, hle⟩ := hf.val rfl
      have h' := hswap.shared_zero h rfl hval hf.node_lt hf.key_le hle
      exact ⟨_, _, _, h', hf'.level_ok h', hswap.rely h, hown, Or.inr ⟨f.call, hphase, rfl, rfl⟩⟩
    | succ j =>
      have h' := hswap.shared_succ h rfl (hf.linked j (Nat.lt_succ_self j)) (hi.trans_le hf.raised)
      exact ⟨_, m, _, h', hf'.level_ok h', hswap.rely h, hown, Or.inl ⟨rfl, hphase.symm⟩⟩
  · have hcas : t.casNextOffset (f.prev i) i (f.next i) f.node = .ok none := by
      rw [Towers.casNextOffset, hget]
      simp only [bind, Except.bind, pure, Except.pure, if_neg heq]
    simp only [Pc.step, hcas, orFault]
    exact h.advances_read hpc ⟨hf, hi, hs.below⟩ fun y hy => hy

theorem Shared.advances_copyValue {value : Bytes} (h : Shared t L m)
    (hok : (Pc.copyValue o value).OK t L ph) (hfits : Fits t value.length) :
    Advances t L m ph (.copyValue o value) ((Pc.copyValue o value).step draw t) := by
  obtain ⟨ho, hph⟩ := hok
  have hlen : value.length % 2 ^ 32 = value.length :=
    Nat.mod_eq_of_lt (lt_of_le_of_lt (Nat.le_add_left ..) hfits.no_wrap)
  have hq := h.quiet_putBytes hfits 0
  refine hq.advances rfl h h.zero_ne_head ⟨ho, ?_, ?_⟩ fun y hy => by cases hy
  · change t.arena.n + value.length % 2 ^ 32 ≤ (t.arena.putBytes value).2.n
    rw [hlen, Arena.putBytes_n, Arena.bump_of_lt hfits.no_wrap]
  · rw [hq.rely.key_eq h ho, hph, hlen]
    exact congrArg (fun v => Phase.pending (Call.put (t.key o) v))
      (Arena.getBytes_putBytes_self hfits.inside).symm

theorem Shared.advances_storeValue {offset size : ℕ} (h : Shared t L m)
    (hok : (Pc.storeValue o offset size).OK t L ph) :
    Advances t L m ph (.storeValue o offset size) ((Pc.storeValue o offset size).step draw t) := by
  obtain ⟨ho, hle, hph⟩ := hok
  exact ⟨L, _, .done .done, shared_storeWord h ho rfl hle, rfl, rely_storeWord 0 ho,
    fun y hy => (by cases hy), Or.inr ⟨_, hph, rfl, rfl⟩⟩

/-! ### The steps of `Get` and of the seeks -/

/-- The keys of the map are those of the bottom level. -/
theorem Shared.keys_eq (h : Shared t L m) : m.entries.map Prod.fst = (L 0).map t.key := by
  rw [← h.sim.entries_eq, Skiplist.entries, List.map_map]
  rfl

/-- The node that a search is for holds the key that the map has for it. -/
theorem Shared.nearKey_eq (h : Shared t L m) (k : Bytes) (less allowEqual : Bool) :
    nearKey m k less allowEqual = ((t.listed L).near k less allowEqual).map t.key := by
  -- the keys of the map are those of the bottom level, in its order
  have hfilter : ∀ P : Bytes → Bool,
      (m.entries.map Prod.fst).filter P = ((L 0).filter fun o => P (t.key o)).map t.key := by
    intro P
    rw [h.keys_eq, List.filter_map]
    rfl
  have hupper : (t.listed L).upper k 0 = (L 0).filter fun o => decide (k ≤ t.key o) := by
    refine List.filter_congr fun o _ => ?_
    rw [← decide_not]
    exact decide_eq_decide.mpr not_lt
  cases less <;> cases allowEqual
  · rw [nearKey, hfilter, List.head?_map]
    rfl
  · rw [nearKey, hfilter, List.head?_map, Skiplist.near, hupper]
  · rw [nearKey, hfilter, List.getLast?_map]
    rfl
  · rw [nearKey, hfilter, List.getLast?_map]
    rfl

theorem Shared.isSome_get_iff (h : Shared t L m) (k : Bytes) :
    (m.get k).isSome = true ↔ ∃ o ∈ L 0, t.key o = k := by
  have hmem : (∃ o ∈ L 0, t.key o = k) ↔ ∃ e ∈ m.entries, e.1 = k := by
    rw [← List.mem_map, ← h.keys_eq, List.mem_map]
  rw [hmem, Option.isSome_iff_exists]
  refine ⟨fun ⟨v, hv⟩ => ⟨(k, v), OrdMap.get_eq_some_iff.mp hv, rfl⟩, fun ⟨e, he, hk⟩ => ⟨e.2, ?_⟩⟩
  exact OrdMap.get_eq_some_iff.mpr (hk ▸ he)

/-- **What `findNear` returns** is what its caller makes of the map at that instant. -/
theorem Shared.advances_conclude (h : Shared t L m) (hpc : pc.OK t L ph)
    (hph : ph = .pending q.call) (hq : q.OK) {equal : Bool}
    (hnear : (if o = 0 then none else some o) = (t.listed L).near q.key q.less q.allowEqual)
    (hequal : equal = true ↔ q.allowEqual = true ∧ ∃ o ∈ L 0, t.key o = q.key) :
    Advances t L m ph pc (t, conclude t q o equal) := by
  rw [← h.isSome_get_iff] at hequal
  by_cases hvalue : q.value = true
  -- `Get` asks for the value of an equal key; the other callers for a position
  · obtain ⟨hless, hallow⟩ := hq hvalue
    rw [Query.call, if_pos hvalue] at hph
    rw [conclude, if_pos hvalue]
    -- the node found is the one that has the key, and its value is read in a later step
    by_cases hfound : equal = true
    · obtain ⟨p, hp, hk⟩ := (h.isSome_get_iff q.key).mp (hequal.mp hfound).2
      obtain ⟨rest, hupper⟩ := h.sim.head_upper_of_mem (i := 0) hp hk
      rw [hless, hallow, Skiplist.near, hupper, List.head?_cons] at hnear
      split_ifs at hnear with hzero
      obtain rfl := Option.some.inj hnear
      rw [if_pos hfound]
      exact h.advances_read hpc ⟨hp, hk ▸ hph⟩ fun y hy => by cases hy
    · rw [if_neg hfound]
      refine h.advances_answer _ hph rfl (congrArg Answer.value ?_)
      have hnone : ¬(m.get q.key).isSome = true := fun hsome => hfound (hequal.mpr ⟨hallow, hsome⟩)
      exact (Option.not_isSome_iff_eq_none.mp hnone).symm
  · rw [Query.call, if_neg hvalue] at hph
    rw [conclude, if_neg hvalue]
    refine h.advances_answer _ hph rfl ?_
    have hkey : (if o = 0 then none else some (t.key o)) =
        nearKey m q.key q.less q.allowEqual := by
      rw [h.nearKey_eq, ← hnear, apply_ite (Option.map t.key)]
      rfl
    have heq : equal = (q.allowEqual && (m.get q.key).isSome) :=
      Bool.eq_iff_iff.mpr (hequal.trans Bool.and_eq_true_iff.symm)
    rw [hkey, heq]
    rfl

/-- The node that `findNear` stays at, as it returns it. -/
def stay (t : Towers) (x : ℕ) : ℕ := if x = t.head then 0 else x

/-- At the bottom level `findNear` stays at the last node below the key. -/
theorem Shared.stay_eq (h : Shared t L m) (hx : x ∈ t.head :: (t.listed L).lower k 0)
    (hge : t.tower 0 x = 0 ∨ k ≤ t.key (t.tower 0 x)) :
    (if stay t x = 0 then none else some (stay t x)) = ((t.listed L).lower k 0).getLast? := by
  obtain ⟨hpred, -⟩ := h.splice_unique (by decide) hx hge
  have hne : x ≠ 0 := h.sim.ne_zero ((t.listed L).cons_lower_subset k 0 hx)
  have hlast := congrArg Prod.fst (h.sim.toLinked.stay_eq k)
  rw [← hpred] at hlast
  refine Eq.trans ?_ hlast
  change _ = (if x = t.head then (none, false) else (some x, false)).1
  rw [stay]
  by_cases hhead : x = t.head
  · rw [if_pos hhead, if_pos rfl, if_pos hhead]
  · rw [if_neg hhead, if_neg hne, if_neg hhead]

/-- Where the walk ends above the key at the bottom level, the key is not in the list. -/
theorem Shared.near_end (h : Shared t L m) (hx : x ∈ t.head :: (t.listed L).lower k 0)
    (hgt : t.tower 0 x = 0 ∨ k < t.key (t.tower 0 x)) (less allowEqual : Bool) :
    (if (if less then stay t x else t.tower 0 x) = 0 then none
      else some (if less then stay t x else t.tower 0 x)) = (t.listed L).near k less allowEqual := by
  -- no node has the key, so it makes no difference whether an equal one is allowed
  have hnone : ∀ o ∈ L 0, t.key o ≠ k := fun o ho => h.key_ne (by decide) hx hgt ho
  rw [Skiplist.Linked.near_of_not_mem hnone]
  cases less with
  | true => exact h.stay_eq hx (hgt.imp_right le_of_lt)
  | false =>
    obtain ⟨-, hnext⟩ := h.splice_unique (by decide) hx (hgt.imp_right le_of_lt)
    simp only [Bool.false_eq_true, if_false]
    rw [hnext]
    cases hupper : (t.listed L).upper k 0 with
    | nil => rfl
    | cons a rest =>
      have ha : a ∈ L 0 := (Skiplist.mem_upper.mp (hupper ▸ List.mem_cons_self)).1
      exact if_neg (h.sim.ne_zero (i := 0) (List.mem_cons_of_mem _ ha))

/-- `findNear` meets the key. -/
theorem Shared.advances_found {level : ℕ} (h : Shared t L m) (hok : (Pc.find q x level).OK t L ph)
    (ho : o ∈ L level) (hk : q.key = t.key o) (hnext : t.tower level x = o)
    (hdown : 0 < level → Advances t L m ph (.find q x level) (t, .find q x (level - 1))) :
    Advances t L m ph (.find q x level)
      (t, if q.allowEqual then conclude t q o true
        else if !q.less then .findNext q o
        else if 0 < level then .find q x (level - 1)
        else conclude t q (stay t x) false) := by
  have ho' : o ∈ L 0 := h.sim.mem_zero ho
  have hpc := hok
  obtain ⟨hph, hq, -, hx⟩ := hok
  -- an equal node ends the search, or the answer is the node behind it, or one before it
  by_cases hallow : q.allowEqual = true
  · rw [if_pos hallow]
    refine h.advances_conclude hpc hph hq ?_ ⟨fun _ => ⟨hallow, o, ho', hk.symm⟩, fun _ => rfl⟩
    rw [if_neg (h.sim.ne_zero (i := 0) (List.mem_cons_of_mem _ ho')), hallow]
    cases q.less with
    | true => exact (h.sim.toLinked.near_upto_of_mem ho' hk.symm).symm
    | false =>
      obtain ⟨rest, hupper⟩ := h.sim.head_upper_of_mem (i := 0) ho' hk.symm
      rw [Skiplist.near, hupper, List.head?_cons]
  rw [if_neg hallow]
  have hvalue : ¬q.value = true := fun hvalue => hallow (hq hvalue).2
  rw [Bool.not_eq_true] at hallow hvalue
  cases hless : q.less with
  | false =>
    refine h.advances_read hpc ⟨?_, hvalue, ho', hk.symm⟩ fun y hy => hy
    rw [hph, Query.call, hvalue, hless, hallow]
    rfl
  | true =>
    simp only [Bool.not_true, Bool.false_eq_true, if_false]
    by_cases hpos : 0 < level
    · rw [if_pos hpos]
      exact hdown hpos
    -- at the bottom the last node below the key is the one the search stands at
    · obtain rfl : level = 0 := by omega
      rw [if_neg hpos]
      refine h.advances_conclude hpc hph hq ?_
        ⟨fun hfalse => (Bool.false_ne_true hfalse).elim, fun hfound => ?_⟩
      · rw [hless, hallow]
        exact h.stay_eq hx (Or.inr (hnext ▸ hk.le))
      · rw [hallow] at hfound
        exact (Bool.false_ne_true hfound.1).elim

theorem Shared.advances_find {level : ℕ} (h : Shared t L m) (hok : (Pc.find q x level).OK t L ph) :
    Advances t L m ph (.find q x level) ((Pc.find q x level).step draw t) := by
  have hpc := hok
  obtain ⟨hph, hq, hlevel, hx⟩ := hok
  obtain ⟨hget, hnext⟩ := h.getNext_eq hlevel ((t.listed L).cons_lower_subset q.key level hx)
  -- a level down, or the end of the search at the bottom level
  have hdown : 0 < level → Advances t L m ph (.find q x level) (t, .find q x (level - 1)) := by
    intro hpos
    obtain ⟨j, rfl⟩ := Nat.exists_eq_add_one_of_ne_zero hpos.ne'
    refine h.advances_read hpc ⟨hph, hq, by omega, ?_⟩ fun y hy => hy
    exact List.cons_subset_cons _ (h.sim.lower_sublist q.key j).subset hx
  have hend : level = 0 → (t.tower 0 x = 0 ∨ q.key < t.key (t.tower 0 x)) →
      Advances t L m ph (.find q x level)
        (t, conclude t q (if q.less then stay t x else t.tower 0 x) false) := by
    rintro rfl hgt
    refine h.advances_conclude hpc hph hq (h.near_end hx hgt q.less q.allowEqual)
      ⟨fun hfalse => (Bool.false_ne_true hfalse).elim, fun hfound => ?_⟩
    obtain ⟨-, o, ho, hk⟩ := hfound
    exact absurd hk (h.key_ne (by decide) hx hgt ho)
  simp only [Pc.step, hget, orFault, findRound]
  by_cases hzero : t.tower level x = 0
  · rw [if_pos hzero]
    by_cases hpos : 0 < level
    · rw [if_pos hpos]
      exact hdown hpos
    · obtain rfl : level = 0 := by omega
      have hlast := hend rfl (Or.inl hzero)
      rw [hzero] at hlast
      cases hless : q.less <;> simpa [hless, stay] using hlast
  · have hmem := hnext.resolve_left hzero
    rw [if_neg hzero]
    by_cases hlt : t.key (t.tower level x) < q.key
    · rw [if_pos hlt]
      refine h.advances_read hpc ⟨hph, hq, hlevel, ?_⟩ fun y hy => hy
      exact List.mem_cons_of_mem _ (Skiplist.mem_lower.mpr ⟨hmem, hlt⟩)
    rw [if_neg hlt]
    by_cases hkey : q.key = t.key (t.tower level x)
    · rw [if_pos hkey]
      exact h.advances_found hpc hmem hkey rfl hdown
    · rw [if_neg hkey]
      by_cases hpos : 0 < level
      · rw [if_pos hpos]
        exact hdown hpos
      · obtain rfl : level = 0 := by omega
        have hlast := hend rfl (Or.inr (lt_of_le_of_ne (not_lt.mp hlt) hkey))
        cases hless : q.less <;> simpa [hless, stay] using hlast

theorem Shared.advances_findNext (h : Shared t L m) (hok : (Pc.findNext q o).OK t L ph) :
    Advances t L m ph (.findNext q o) ((Pc.findNext q o).step draw t) := by
  obtain ⟨hph, hvalue, ho, hk⟩ := hok
  have ho' : o ∈ t.head :: L 0 := List.mem_cons_of_mem _ ho
  obtain ⟨hget, -⟩ := h.getNext_eq (by decide) ho'
  obtain ⟨hchain, hmem⟩ := h.rep.chain_after h.sim.toLinked (i := 0) (by decide) ho'
  simp only [Pc.step, hget, orFault, conclude, hvalue, Bool.false_eq_true, if_false]
  refine h.advances_answer _ hph rfl (congrArg₂ Answer.position ?_ rfl)
  rw [h.nearKey_eq, h.sim.toLinked.near_above_of_mem ho hk, hchain.head_eq]
  -- the node behind the key is nil exactly at the end of the level
  cases hafter : (t.listed L).after o 0 with
  | nil => rfl
  | cons a rest =>
    have ha : a ≠ 0 := h.sim.ne_zero (hmem a (by simp [hafter]))
    exact if_neg ha

theorem Shared.advances_readValue (h : Shared t L m) (hok : (Pc.readValue o).OK t L ph) :
    Advances t L m ph (.readValue o) ((Pc.readValue o).step draw t) := by
  obtain ⟨ho, hph⟩ := hok
  refine h.advances_answer _ hph rfl (congrArg Answer.value ?_)
  refine (OrdMap.get_eq_some_iff.mpr ?_).symm
  rw [← h.sim.entries_eq]
  exact List.mem_map_of_mem (f := fun p => (t.key p, t.val p)) ho

/-- **One step of one thread**, whatever it is about to do. -/
theorem Pc.OK.advances (hok : pc.OK t L ph) (h : Shared t L m) (hpos : 0 < draw)
    (hle : draw ≤ maxHeight) (hfits : Fits t (pc.reserved draw)) :
    Advances t L m ph pc (pc.step draw t) := by
  -- the two ends of a call leave memory alone; in between each kind of step has its lemma
  cases pc with
  | idle => exact h.advances_read hok hok fun y hy => hy
  | putHeight key value => exact h.advances_putHeight hok
  | descend f i before => exact h.advances_descend hok
  | putNode f => exact h.advances_putNode hok hpos hle hfits
  | putKey f => exact h.advances_putKey hok hfits
  | putVal f keyOffset => exact h.advances_putVal hok hfits
  | getHeight f => exact h.advances_getHeight hok
  | casHeight f listHeight => exact h.advances_casHeight hok
  | missing f i before => exact h.advances_missing hok
  | store f i => exact h.advances_store hok
  | cas f i => exact h.advances_cas hok
  | retry f i before => exact h.advances_retry hok
  | copyValue o value => exact h.advances_copyValue hok hfits
  | storeValue o offset size => exact h.advances_storeValue hok
  | findHeight q =>
    have hheight : t.height ≤ maxHeight := h.rep.height_le
    have hpos : 0 < t.height := h.sim.height_pos
    exact h.advances_read hok ⟨hok.1, hok.2, by omega, List.mem_cons_self⟩ fun y hy => hy
  | find q x level => exact h.advances_find hok
  | findNext q o => exact h.advances_findNext hok
  | readValue o => exact h.advances_readValue hok
  | returning a => exact h.advances_read hok hok fun y hy => hy
  | fault f => exact hok.elim

end Step

end Concurrent

end Seol
