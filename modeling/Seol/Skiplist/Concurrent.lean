import Seol.Common.Atomic
import Seol.Skiplist.Towers

/-!
# A skiplist with many callers

Reference: `skiplist/skiplist.go`. The list is lock-free: any number of threads may run `Put`, `Get`
and the seeks of iterators at the same time. A thread here is a program counter with the locals of the
source, and one step of it is one access to shared memory: a load or a store of a tower slot, a
compare-and-swap, a load of the list's height, a reservation in the arena, a load or store of a value
word. Local computation is done with the access before it. Bytes are copied in the step that reserves
them, since nobody else has their offset before the node or the value word that refers to them is
stored.
-/

namespace Seol

open Common

/-- One round of `findSpliceForLevel`: the node to go on from, or the splice. -/
def Towers.spliceRound (t : Towers) (k : Bytes) (level before : ℕ) :
    Except SkipFault (ℕ ⊕ ℕ × ℕ) := do
  let next ← t.getNext before level
  if next = 0 then return .inr (before, 0)
  else if k = t.key next then return .inr (next, next)
  else if k < t.key next then return .inr (before, next)
  else return .inl next

namespace Concurrent

/-- What a thread may ask of the list. `near` stands for the seeks of iterators, which are calls of
`findNear`. -/
inductive Call where
  | put (key value : Bytes)
  | get (key : Bytes)
  | near (key : Bytes) (less allowEqual : Bool)
  deriving DecidableEq

/-- What it gets: a value or nil, or the key an iterator stands at and whether it is the one asked
for. -/
inductive Answer where
  | done
  | value (stored : Option Bytes)
  | position (key : Option Bytes) (equal : Bool)
  deriving DecidableEq

/-- The locals of `Put`: its arguments, the arrays `prev` and `next`, the new node and its height. -/
structure Frame where
  key : Bytes
  value : Bytes
  prev : ℕ → ℕ
  next : ℕ → ℕ
  height : ℕ
  node : ℕ

/-- The arguments of `findNear`, and whether `Get` called it. -/
structure Query where
  key : Bytes
  less : Bool
  allowEqual : Bool
  value : Bool

/-- The access to shared memory that a thread makes next. -/
inductive Pc where
  | idle
  /-- `Put` loads the height of the list. -/
  | putHeight (key value : Bytes)
  /-- The first loop of `Put` is in `findSpliceForLevel` at level `i`. -/
  | descend (f : Frame) (i before : ℕ)
  /-- `newNode` reserves the node, the key and the value. -/
  | putNode (f : Frame)
  | putKey (f : Frame)
  | putVal (f : Frame) (keyOffset : ℕ)
  /-- The loop that raises the height of the list. -/
  | getHeight (f : Frame)
  | casHeight (f : Frame) (listHeight : ℕ)
  /-- The second loop of `Put` looks for the splice of a level above the height it had read. -/
  | missing (f : Frame) (i before : ℕ)
  /-- It stores the successor in the new node and swaps the slot of the predecessor. -/
  | store (f : Frame) (i : ℕ)
  | cas (f : Frame) (i : ℕ)
  /-- It looks for the splice again, after a failed swap. -/
  | retry (f : Frame) (i before : ℕ)
  /-- `setValue` copies the value and stores the value word. -/
  | copyValue (node : ℕ) (value : Bytes)
  | storeValue (node offset size : ℕ)
  /-- `findNear` loads the height, then one slot a round. -/
  | findHeight (q : Query)
  | find (q : Query) (x level : ℕ)
  | findNext (q : Query) (node : ℕ)
  /-- `Get` loads the value word. -/
  | readValue (node : ℕ)
  | returning (a : Answer)
  | fault (f : SkipFault)

/-- Where a call starts. -/
def Call.start : Call → Pc
  | .put key value => .putHeight key value
  | .get key => .findHeight ⟨key, false, true, true⟩
  | .near key less allowEqual => .findHeight ⟨key, less, allowEqual, false⟩

namespace Frame

/-- `prev[i], next[i] = p, n`. -/
def setSplice (f : Frame) (i p n : ℕ) : Frame :=
  { f with prev := Function.update f.prev i p, next := Function.update f.next i n }

/-- The first loop of `Put` with `n` levels to go. -/
def below (f : Frame) : ℕ → Pc
  | 0 => .putNode f
  | i + 1 => .descend f i (f.prev (i + 1))

/-- The second loop of `Put` from level `i` on. -/
def level (f : Frame) (head i : ℕ) : Pc :=
  if f.height ≤ i then .returning .done
  else if f.prev i = 0 then
    if i = 0 then .fault .missingSplice else .missing f i head
  else .store f i

end Frame

/-- What `findNear` returns, and what its caller does with it. -/
def conclude (t : Towers) (q : Query) (o : ℕ) (equal : Bool) : Pc :=
  if q.value then if equal then .readValue o else .returning (.value none)
  else .returning (.position (if o = 0 then none else some (t.key o)) equal)

/-- Go on with a result, or stop with the fault. -/
def orFault {α : Type} (t : Towers) (r : Except SkipFault α) (k : α → Towers × Pc) : Towers × Pc :=
  match r with
  | .error f => (t, .fault f)
  | .ok a => k a

/-- One round of `findNear`, from the slot it has loaded. -/
def findRound (t : Towers) (q : Query) (x level next : ℕ) : Pc :=
  let stay := if x = t.head then 0 else x
  if next = 0 then
    if 0 < level then .find q x (level - 1)
    else if !q.less then conclude t q 0 false else conclude t q stay false
  else if t.key next < q.key then .find q next level
  else if q.key = t.key next then
    if q.allowEqual then conclude t q next true
    else if !q.less then .findNext q next
    else if 0 < level then .find q x (level - 1)
    else conclude t q stay false
  else if 0 < level then .find q x (level - 1)
  else if !q.less then conclude t q next false
  else conclude t q stay false

/-- One step of a thread. A thread that draws a tower height takes `draw`. -/
def Pc.step (draw : ℕ) (t : Towers) : Pc → Towers × Pc
  | .idle => (t, .idle)
  | .putHeight key value =>
    let f : Frame := ⟨key, value, Function.update (fun _ => 0) t.height t.head, fun _ => 0, 0, 0⟩
    (t, f.below t.height)
  | .descend f i before => orFault t (t.spliceRound f.key i before) fun
    | .inl next => (t, .descend f i next)
    | .inr (p, n) =>
      if p = n then (t, .copyValue p f.value) else (t, (f.setSplice i p n).below i)
  | .putNode f =>
    let (x, arena) := t.arena.putNode draw
    ({ t with arena := arena }, .putKey { f with height := draw, node := x })
  | .putKey f =>
    let (offset, arena) := t.arena.putBytes f.key
    ({ t with arena := arena }, .putVal f offset)
  | .putVal f keyOffset =>
    let (offset, arena) := t.arena.putBytes f.value
    let node : Node :=
      ⟨keyOffset, f.key.length % 2 ^ 16, f.height, offset, f.value.length % 2 ^ 32⟩
    ({ t with arena := arena, nodes := Function.update t.nodes f.node node }, .getHeight f)
  | .getHeight f =>
    if t.height < f.height then (t, .casHeight f t.height) else (t, f.level t.head 0)
  | .casHeight f listHeight =>
    if t.height = listHeight then ({ t with height := f.height }, f.level t.head 0)
    else (t, .getHeight f)
  | .missing f i before => orFault t (t.spliceRound f.key i before) fun
    | .inl next => (t, .missing f i next)
    | .inr (p, n) =>
      if p = n then (t, .fault .duplicateKey) else (t, .store (f.setSplice i p n) i)
  | .store f i => orFault t (t.store f.node i (f.next i)) fun t' => (t', .cas f i)
  | .cas f i => orFault t (t.casNextOffset (f.prev i) i (f.next i) f.node) fun
    | some t' => (t', f.level t.head (i + 1))
    | none => (t, .retry f i (f.prev i))
  | .retry f i before => orFault t (t.spliceRound f.key i before) fun
    | .inl next => (t, .retry f i next)
    | .inr (p, n) =>
      if p = n then
        if i ≠ 0 then (t, .fault .equalityAboveBase) else (t, .copyValue p f.value)
      else (t, (f.setSplice i p n).level t.head i)
  | .copyValue o value =>
    let (offset, arena) := t.arena.putBytes value
    ({ t with arena := arena }, .storeValue o offset (value.length % 2 ^ 32))
  | .storeValue o offset size =>
    ({ t with
      nodes := Function.update t.nodes o { t.nodes o with valOffset := offset, valSize := size } },
      .returning .done)
  | .findHeight q => (t, .find q t.head (t.height - 1))
  | .find q x level => orFault t (t.getNext x level) fun next => (t, findRound t q x level next)
  | .findNext q o => orFault t (t.getNext o 0) fun next => (t, conclude t q next false)
  | .readValue o => (t, .returning (.value (some (t.val o))))
  | .returning a => (t, .returning a)
  | .fault f => (t, .fault f)

/-- The bytes that a step reserves in the arena. -/
def Pc.reserved (draw : ℕ) : Pc → ℕ
  | .putNode _ => Arena.nodeSize draw
  | .putKey f => f.key.length
  | .putVal f _ => f.value.length
  | .copyValue _ value => value.length
  | _ => 0

/-- The list and its threads. -/
structure Sys (ι : Type*) where
  mem : Towers
  pcs : ι → Pc

/-- `New`, with all threads idle. -/
def Sys.new (ι : Type*) (size : ℕ) : Sys ι := ⟨Towers.new size, fun _ => .idle⟩

/-- A call, a return, or a step of a thread with the bytes that it reserves. -/
inductive Event (ι : Type*) where
  | invoke (thread : ι) (c : Call)
  | ret (thread : ι) (a : Answer)
  | step (thread : ι) (reserved : ℕ)
  deriving DecidableEq

namespace Event

variable {ι : Type*}

/-- The bytes that an event reserves in the arena. -/
def reserved : Event ι → ℕ
  | .step _ n => n
  | _ => 0

/-- What the caller sees of an event. -/
def seen : Event ι → List (ClientEvent ι Call Answer)
  | .invoke i c => [.invoke i c]
  | .ret i a => [.ret i a]
  | .step _ _ => []

/-- The keys that are put fit the 16-bit size field of a node. -/
def Legal : Event ι → Prop
  | .invoke _ (.put key _) => key.length < 2 ^ 16
  | _ => True

instance : DecidablePred (Legal : Event ι → Prop)
  | .invoke _ (.put key _) => inferInstanceAs (Decidable (key.length < 2 ^ 16))
  | .invoke _ (.get _) | .invoke _ (.near _ _ _) | .ret _ _ | .step _ _ => .isTrue trivial

end Event

/-- **The interleaving of all threads.** -/
inductive Step {ι : Type*} [DecidableEq ι] : Sys ι → Event ι → Sys ι → Prop
  | invoke {s : Sys ι} (i : ι) (c : Call) (h : s.pcs i = .idle) :
    Step s (.invoke i c) { s with pcs := Function.update s.pcs i c.start }
  | ret {s : Sys ι} (i : ι) (a : Answer) (h : s.pcs i = .returning a) :
    Step s (.ret i a) { s with pcs := Function.update s.pcs i .idle }
  | step {s : Sys ι} (i : ι) (draw : ℕ) (hpos : 0 < draw) (hle : draw ≤ maxHeight) :
    Step s (.step i ((s.pcs i).reserved draw))
      ⟨((s.pcs i).step draw s.mem).1, Function.update s.pcs i ((s.pcs i).step draw s.mem).2⟩

/-- What a scheduler may choose. -/
inductive Move (ι : Type*) where
  | call (thread : ι) (c : Call)
  | ret (thread : ι)
  | step (thread : ι) (draw : ℕ)

/-- One choice of a scheduler. -/
def Sys.move {ι : Type*} [DecidableEq ι] (s : Sys ι) : Move ι → Option (Event ι × Sys ι)
  | .call i c =>
    match s.pcs i with
    | .idle => some (.invoke i c, { s with pcs := Function.update s.pcs i c.start })
    | _ => none
  | .ret i =>
    match s.pcs i with
    | .returning a => some (.ret i a, { s with pcs := Function.update s.pcs i .idle })
    | _ => none
  | .step i draw =>
    if 0 < draw ∧ draw ≤ maxHeight then
      let r := (s.pcs i).step draw s.mem
      some (.step i ((s.pcs i).reserved draw), ⟨r.1, Function.update s.pcs i r.2⟩)
    else none

/-- A schedule, with what happens in it. -/
def Sys.play {ι : Type*} [DecidableEq ι] (s : Sys ι) :
    List (Move ι) → Option (List (Event ι) × Sys ι)
  | [] => some ([], s)
  | mv :: mvs => do
    let (e, s) ← s.move mv
    let (es, s) ← s.play mvs
    return (e :: es, s)

/-- The bytes that a run reserves. -/
def allocated {ι : Type*} (es : List (Event ι)) : ℕ := (es.map Event.reserved).sum

/-! ## The sequential object -/

/-- The key at which a search in the given direction stops. -/
def nearKey (m : OrdMap Bytes Bytes) (k : Bytes) (less allowEqual : Bool) : Option Bytes :=
  let keys := m.entries.map Prod.fst
  match less, allowEqual with
  | false, true => (keys.filter fun a => k ≤ a).head?
  | false, false => (keys.filter fun a => k < a).head?
  | true, true => (keys.filter fun a => a ≤ k).getLast?
  | true, false => (keys.filter fun a => a < k).getLast?

/-- What a call does to an ordered map. -/
def apply : Call → OrdMap Bytes Bytes → Answer × OrdMap Bytes Bytes
  | .put key value, m => (.done, m.insert key value)
  | .get key, m => (.value (m.get key), m)
  | .near key less allowEqual, m =>
    (.position (nearKey m key less allowEqual) (allowEqual && (m.get key).isSome), m)

end Concurrent

end Seol
