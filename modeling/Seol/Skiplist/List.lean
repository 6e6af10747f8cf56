import Seol.Common.OrdMap
import Seol.Skiplist.Arena

/-!
# The skiplist

Reference: `skiplist/skiplist.go`, with a single writer, so that every compare-and-swap succeeds. A
node is named by its arena offset, and the nodes that the towers link at one level are listed in
link order. `Skiplist.put` descends the levels exactly as `Put` does; the tower height, which the
code draws at random, is an argument.
-/

namespace Seol

open Common

/-- `node`, without the tower: where the key and the value lie in the arena. -/
structure Node where
  keyOffset : ℕ
  keySize : ℕ
  height : ℕ
  valOffset : ℕ
  valSize : ℕ

/-- A skiplist: its arena, the head, the current height, the nodes by offset, and the offsets that
each level links. -/
structure Skiplist where
  arena : Arena
  head : ℕ
  height : ℕ
  nodes : ℕ → Node
  levels : ℕ → List ℕ

/-- The outcome of the descent of `Put`: a node with the key, or the predecessor of each level. -/
inductive Splice where
  | found (node : ℕ)
  | missing (prev : List ℕ)

namespace Skiplist

/-- `newNode`: reserve the node, copy key and value. The key size is cut to sixteen bits. -/
def newNode (a : Arena) (key v : Bytes) (height : ℕ) : ℕ × Node × Arena :=
  let (offset, a₁) := a.putNode height
  let (keyOffset, a₂) := a₁.putBytes key
  let (valOffset, a₃) := a₂.putBytes v
  (offset, ⟨keyOffset, key.length % 2 ^ 16, height, valOffset, v.length % 2 ^ 32⟩, a₃)

/-- `New`: the head is a node of full height without key or value. -/
def new (arenaSize : ℕ) : Skiplist :=
  let (head, node, arena) := newNode (Arena.newArena arenaSize) [] [] maxHeight
  { arena := arena, head := head, height := 1, nodes := fun _ => node, levels := fun _ => [] }

/-- `node.key`. -/
def key (s : Skiplist) (o : ℕ) : Bytes := s.arena.getBytes (s.nodes o).keyOffset (s.nodes o).keySize

/-- The bytes a node's value word points at. -/
def val (s : Skiplist) (o : ℕ) : Bytes := s.arena.getBytes (s.nodes o).valOffset (s.nodes o).valSize

/-- The nodes linked after `before` at a level. -/
def after (s : Skiplist) (before level : ℕ) : List ℕ :=
  ((s.head :: s.levels level).dropWhile (· ≠ before)).tail

/-- The loop of `findSpliceForLevel` over the nodes linked after `before`. -/
def spliceFrom (s : Skiplist) (k : Bytes) (before : ℕ) : List ℕ → ℕ × ℕ
  | [] => (before, 0)
  | next :: rest =>
    if k = s.key next then (next, next)
    else if k < s.key next then (before, next)
    else spliceFrom s k next rest

/-- `findSpliceForLevel`. -/
def findSpliceForLevel (s : Skiplist) (k : Bytes) (before level : ℕ) : ℕ × ℕ :=
  s.spliceFrom k before (s.after before level)

/-- The descent of `Put` from the top level down, collecting the predecessors. -/
def descend (s : Skiplist) (k : Bytes) : ℕ → ℕ → List ℕ → Splice
  | 0, _, prev => .missing prev
  | level + 1, before, prev =>
    let (p, n) := s.findSpliceForLevel k before level
    if p = n then .found p else descend s k level p (p :: prev)

/-- The search `Put` starts with. -/
def splice (s : Skiplist) (k : Bytes) : Splice := s.descend k s.height s.head []

/-- Link `x` right behind `prev` in the list of one level. -/
def insertAfter (head prev x : ℕ) (l : List ℕ) : List ℕ :=
  if prev = head then x :: l else l.flatMap fun o => if o = prev then [o, x] else [o]

/-- `setValue`: copy the new value behind everything else and point the node at it. -/
def setValue (s : Skiplist) (o : ℕ) (v : Bytes) : Skiplist :=
  { s with
    arena := (s.arena.putBytes v).2
    nodes := Function.update s.nodes o
      { s.nodes o with valOffset := (s.arena.putBytes v).1, valSize := v.length % 2 ^ 32 } }

/-- The second half of `Put`: allocate a node and link it at each level below its height. A level
above the current height has only the head. -/
def link (s : Skiplist) (k v : Bytes) (height : ℕ) (prev : List ℕ) : Skiplist :=
  let (x, node, arena) := newNode s.arena k v height
  { s with
    arena := arena
    height := max s.height height
    nodes := Function.update s.nodes x node
    levels := fun i =>
      if i < height then insertAfter s.head (prev.getD i s.head) x (s.levels i) else s.levels i }

/-- `Put`. -/
def put (s : Skiplist) (k v : Bytes) (height : ℕ) : Skiplist :=
  match s.splice k with
  | .found o => s.setValue o v
  | .missing prev => s.link k v height prev

/-- The walk of `findNear` along one level: the last node with a smaller key, and its successor. -/
def walk (s : Skiplist) (k : Bytes) (x : ℕ) : List ℕ → ℕ × Option ℕ
  | [] => (x, none)
  | next :: rest => if s.key next < k then walk s k next rest else (x, some next)

/-- `findNear`: the nearest node on the requested side of `k`, and whether it has that key. -/
def findNear (s : Skiplist) (k : Bytes) (less allowEqual : Bool) : ℕ → ℕ → Option ℕ × Bool
  | 0, _ => (none, false)
  | level + 1, x =>
    let (x, next) := s.walk k x (s.after x level)
    let stay : Option ℕ × Bool := if x = s.head then (none, false) else (some x, false)
    match next with
    | none =>
      if 0 < level then findNear s k less allowEqual level x
      else if !less then (none, false) else stay
    | some next =>
      if k = s.key next then
        if allowEqual then (some next, true)
        else if !less then ((s.after next 0).head?, false)
        else if 0 < level then findNear s k less allowEqual level x else stay
      else if 0 < level then findNear s k less allowEqual level x
      else if !less then (some next, false) else stay

/-- `Get`; `none` is the nil slice. An empty value is an empty slice of the arena, which is not
nil. -/
def get (s : Skiplist) (k : Bytes) : Option Bytes :=
  match s.findNear k false true s.height s.head with
  | (some o, true) => some (s.val o)
  | _ => none

/-- What an iterator visits from `Rewind` to the end: the bottom level. -/
def entries (s : Skiplist) : List (Bytes × Bytes) :=
  (s.levels 0).map fun o => (s.key o, s.val o)

/-- The bytes one `Put` takes from the arena. -/
def need (s : Skiplist) (k v : Bytes) (height : ℕ) : ℕ :=
  match s.splice k with
  | .found _ => v.length
  | .missing _ => Arena.nodeSize height + k.length + v.length

end Skiplist

end Seol
