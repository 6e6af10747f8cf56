import Seol.Common.Bytes

/-!
# The arena of a skiplist

Reference: `skiplist/skiplist.go`. The arena is a bump allocator: a `uint32` counter over a byte
buffer that is never checked against the buffer's length. `Arena.Inside` is the missing check, and
the reading lemmas hold of allocations that pass it. Nodes are reserved here as bytes and kept as
typed cells by the skiplist.
-/

namespace Seol

open Common

/-- `offsetSize`: the bytes of one tower slot. -/
def offsetSize : ℕ := 4

/-- `nodeAlign`: the padding that lets a node start at a multiple of eight. -/
def nodeAlign : ℕ := 8 - 1

/-- `maxHeight`: the number of tower slots of the `node` type. -/
def maxHeight : ℕ := 20

/-- `maxNodeSize`: value word, key offset, key size, height and the full tower. -/
def maxNodeSize : ℕ := 8 + 4 + 2 + 2 + maxHeight * offsetSize

/-- The allocation counter, the length of the buffer and its bytes. -/
structure Arena where
  n : ℕ
  size : ℕ
  buf : ℕ → UInt8

namespace Arena

/-- `newArena`: offset zero is the nil pointer, so the first byte is never handed out. -/
def newArena (size : ℕ) : Arena := ⟨1, size, fun _ => 0⟩

/-- The counter after an allocation of `l` bytes, as `atomic.Uint32.Add` computes it. -/
def bump (n l : ℕ) : ℕ := (n + l) % 2 ^ 32

/-- The bytes `putNode` reserves for a node of the given height: the unused tower slots are left
out, the alignment padding is added. -/
def nodeSize (height : ℕ) : ℕ := maxNodeSize - (maxHeight - height) * offsetSize + nodeAlign

/-- `putNode`: the aligned offset inside the reserved bytes. -/
def putNode (a : Arena) (height : ℕ) : ℕ × Arena :=
  let m := (a.n + nodeAlign) % 2 ^ 32
  (m - m % 8, { a with n := bump a.n (nodeSize height) })

/-- The built-in `copy` into the buffer from offset `m` on; bytes past the buffer are dropped. -/
def copyAt (a : Arena) (m : ℕ) (v : Bytes) : ℕ → UInt8 := fun i =>
  if m ≤ i ∧ i < m + v.length ∧ i < a.size then v.getD (i - m) 0 else a.buf i

/-- `putKey` and `putVal`: the same code under two names. -/
def putBytes (a : Arena) (v : Bytes) : ℕ × Arena :=
  (a.n, { a with n := bump a.n v.length, buf := a.copyAt a.n v })

/-- `getKey` and `getVal`: the bytes of a region. -/
def getBytes (a : Arena) (offset size : ℕ) : Bytes :=
  (List.range size).map fun i => a.buf (offset + i)

/-- An allocation of `l` bytes at the current counter ends inside the buffer. -/
def Inside (a : Arena) (l : ℕ) : Prop := a.n + l ≤ a.size

instance (a : Arena) (l : ℕ) : Decidable (a.Inside l) := inferInstanceAs (Decidable (_ ≤ _))

/-! ## Reading regions -/

@[simp] theorem length_getBytes (a : Arena) (offset size : ℕ) :
    (a.getBytes offset size).length = size := by
  simp [getBytes]

/-- Copying at or above the end of a region leaves the region as it was. -/
theorem getBytes_putBytes_of_le {a : Arena} {offset size : ℕ} (h : offset + size ≤ a.n) (v : Bytes) :
    (a.putBytes v).2.getBytes offset size = a.getBytes offset size := by
  refine List.map_congr_left fun i hi => ?_
  have hi' := List.mem_range.mp hi
  simp only [putBytes, copyAt]
  rw [if_neg (by omega)]

/-- Bytes just copied are read back, provided they fit. -/
theorem getBytes_putBytes_self {a : Arena} {v : Bytes} (h : a.Inside v.length) :
    (a.putBytes v).2.getBytes a.n v.length = v := by
  refine List.ext_getElem (by simp) fun i hi hi' => ?_
  simp only [Inside] at h
  simp only [getBytes, putBytes, copyAt, List.getElem_map, List.getElem_range]
  rw [if_pos (by omega), Nat.add_sub_cancel_left, List.getD_eq_getElem _ _ hi']

@[simp] theorem putBytes_size (a : Arena) (v : Bytes) : (a.putBytes v).2.size = a.size := rfl

@[simp] theorem putNode_size (a : Arena) (height : ℕ) : (a.putNode height).2.size = a.size := rfl

@[simp] theorem putNode_buf (a : Arena) (height : ℕ) : (a.putNode height).2.buf = a.buf := rfl

@[simp] theorem putNode_n (a : Arena) (height : ℕ) :
    (a.putNode height).2.n = bump a.n (nodeSize height) := rfl

@[simp] theorem putBytes_n (a : Arena) (v : Bytes) : (a.putBytes v).2.n = bump a.n v.length := rfl

@[simp] theorem putBytes_fst (a : Arena) (v : Bytes) : (a.putBytes v).1 = a.n := rfl

theorem getBytes_putNode (a : Arena) (height offset size : ℕ) :
    (a.putNode height).2.getBytes offset size = a.getBytes offset size := rfl

theorem bump_of_lt {n l : ℕ} (h : n + l < 2 ^ 32) : bump n l = n + l := Nat.mod_eq_of_lt h

/-- A reserved node takes sixteen bytes, four for each level and the padding. -/
theorem nodeSize_eq {height : ℕ} (h : height ≤ maxHeight) : nodeSize height = 23 + 4 * height := by
  simp only [nodeSize, maxNodeSize, maxHeight, offsetSize, nodeAlign] at *
  omega

/-- The aligned offset lies in the reserved bytes. -/
theorem putNode_bounds {a : Arena} {height : ℕ} (h : a.n + nodeSize height < 2 ^ 32) :
    a.n ≤ (a.putNode height).1 ∧ (a.putNode height).1 < a.n + nodeSize height := by
  have hpad : nodeAlign ≤ nodeSize height := Nat.le_add_left _ _
  have hnode : 16 ≤ nodeSize height - nodeAlign := by
    simp only [nodeSize, maxNodeSize, maxHeight, offsetSize, nodeAlign]
    omega
  simp only [nodeAlign] at *
  simp only [putNode, nodeAlign]
  rw [Nat.mod_eq_of_lt (by omega)]
  omega

end Arena

end Seol
