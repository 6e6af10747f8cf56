import Seol.Skiplist.Arena

/-!
# The regions of an arena

Reference: `arena` in `skiplist/skiplist.go`. Every call reserves the next bytes of the buffer, and the
region it returns lies in its reservation, so the regions of any sequence of calls follow one another.
A node starts at a multiple of eight inside its reservation, which has the slack for it.
-/

namespace Seol

open Common

/-- A call on an arena. -/
inductive ArenaCall where
  | putNode (height : ℕ)
  | putKey (key : Bytes)
  | putVal (value : Bytes)

namespace ArenaCall

/-- A height that `randomHeight` can return. -/
def Legal : ArenaCall → Prop
  | putNode height => 1 ≤ height ∧ height ≤ maxHeight
  | _ => True

/-- The bytes the call takes from the buffer. -/
def reserved : ArenaCall → ℕ
  | putNode height => Arena.nodeSize height
  | putKey key => key.length
  | putVal value => value.length

/-- The bytes of the region it returns: for a node its fields and the slots of its tower. -/
def extent : ArenaCall → ℕ
  | putNode height => 8 + 4 + 2 + 2 + height * offsetSize
  | putKey key => key.length
  | putVal value => value.length

end ArenaCall

namespace Arena

/-- One call: the offset it returns. -/
def call (a : Arena) : ArenaCall → ℕ × Arena
  | .putNode height => a.putNode height
  | .putKey key => a.putBytes key
  | .putVal value => a.putBytes value

/-- A sequence of calls, each with the offset it returned. -/
def calls : Arena → List ArenaCall → List (ArenaCall × ℕ) × Arena
  | a, [] => ([], a)
  | a, c :: cs => ((c, (a.call c).1) :: ((a.call c).2.calls cs).1, ((a.call c).2.calls cs).2)

/-- `getKey`. -/
def getKey (a : Arena) (offset : ℕ) (size : UInt16) : Bytes := a.getBytes offset size.toNat

/-- `getVal`. -/
def getVal (a : Arena) (offset : ℕ) (size : UInt32) : Bytes := a.getBytes offset size.toNat

/-- The bytes of a region. -/
def region (r : ArenaCall × ℕ) : Set ℕ := Set.Ico r.2 (r.2 + r.1.extent)

/-- The bytes a sequence of calls takes from the buffer. -/
def total (cs : List ArenaCall) : ℕ := (cs.map ArenaCall.reserved).sum

@[simp] theorem total_cons (c : ArenaCall) (cs : List ArenaCall) :
    total (c :: cs) = c.reserved + total cs := by
  simp [total]

variable {a : Arena}

@[simp] theorem call_size (a : Arena) (c : ArenaCall) : (a.call c).2.size = a.size := by
  cases c <;> rfl

theorem call_n {c : ArenaCall} (h : a.n + c.reserved < 2 ^ 32) :
    (a.call c).2.n = a.n + c.reserved := by
  cases c <;> exact bump_of_lt h

/-- The region of a call lies in what it reserves. -/
theorem call_bounds {c : ArenaCall} (hc : c.Legal) (h : a.n + c.reserved < 2 ^ 32) :
    a.n ≤ (a.call c).1 ∧ (a.call c).1 + c.extent ≤ a.n + c.reserved := by
  cases c with
  | putKey key => exact ⟨le_rfl, le_rfl⟩
  | putVal value => exact ⟨le_rfl, le_rfl⟩
  | putNode height =>
    obtain ⟨-, hmax⟩ := hc
    have hsize := nodeSize_eq hmax
    simp only [ArenaCall.reserved, hsize] at h ⊢
    simp only [call, putNode, nodeAlign, ArenaCall.extent, offsetSize]
    rw [Nat.mod_eq_of_lt (by omega)]
    omega

theorem call_node_aligned (a : Arena) (height : ℕ) : 8 ∣ (a.call (.putNode height)).1 :=
  Nat.dvd_sub_mod _

/-- A call leaves the regions before it as they were. -/
theorem getBytes_call {c : ArenaCall} {offset size : ℕ} (h : offset + size ≤ a.n) :
    (a.call c).2.getBytes offset size = a.getBytes offset size := by
  cases c with
  | putNode height => rfl
  | putKey key => exact getBytes_putBytes_of_le h key
  | putVal value => exact getBytes_putBytes_of_le h value

/-- What a sequence of calls that fits does to the buffer. -/
structure CallsOK (a : Arena) (cs : List ArenaCall) : Prop where
  legal : ∀ c ∈ cs, c.Legal
  inside : a.n + total cs ≤ a.size
  lt : a.n + total cs < 2 ^ 32

theorem CallsOK.tail {c : ArenaCall} {cs : List ArenaCall} (h : a.CallsOK (c :: cs)) :
    a.n + c.reserved < 2 ^ 32 ∧ (a.call c).2.n = a.n + c.reserved ∧ (a.call c).2.CallsOK cs := by
  obtain ⟨hlegal, hin, hlt⟩ := h
  rw [total_cons] at hin hlt
  have hfirst : a.n + c.reserved < 2 ^ 32 := by omega
  have hn := call_n hfirst
  refine ⟨hfirst, hn, fun d hd => hlegal d (List.mem_cons_of_mem _ hd), ?_, ?_⟩
  · rw [call_size, hn]
    omega
  · rw [hn]
    omega

/-- The regions lie behind the counter at the start and below its end. -/
theorem calls_bounds {cs : List ArenaCall} (h : a.CallsOK cs) :
    ∀ r ∈ (a.calls cs).1, a.n ≤ r.2 ∧ r.2 + r.1.extent ≤ a.n + total cs := by
  induction cs generalizing a with
  | nil => simp [calls]
  | cons c cs ih =>
    obtain ⟨hfirst, hn, hrest⟩ := h.tail
    intro r hr
    rw [total_cons]
    rcases List.mem_cons.mp hr with rfl | hr
    · obtain ⟨hlo, hhi⟩ := call_bounds (h.legal c List.mem_cons_self) hfirst
      exact ⟨hlo, hhi.trans (by omega)⟩
    · obtain ⟨hlo, hhi⟩ := ih hrest r hr
      omega

/-- The regions follow one another. -/
theorem calls_ordered {cs : List ArenaCall} (h : a.CallsOK cs) :
    (a.calls cs).1.Pairwise fun r r' => r.2 + r.1.extent ≤ r'.2 := by
  induction cs generalizing a with
  | nil => exact List.Pairwise.nil
  | cons c cs ih =>
    obtain ⟨hfirst, hn, hrest⟩ := h.tail
    refine List.pairwise_cons.mpr ⟨fun r hr => ?_, ih hrest⟩
    obtain ⟨-, hhi⟩ := call_bounds (h.legal c List.mem_cons_self) hfirst
    have hlo := (calls_bounds hrest r hr).1
    exact hhi.trans (hn ▸ hlo)

/-- A region below the counter keeps its bytes through all calls. -/
theorem getBytes_calls {cs : List ArenaCall} (h : a.CallsOK cs) {offset size : ℕ}
    (hle : offset + size ≤ a.n) : (a.calls cs).2.getBytes offset size = a.getBytes offset size := by
  induction cs generalizing a with
  | nil => rfl
  | cons c cs ih =>
    obtain ⟨-, hn, hrest⟩ := h.tail
    rw [calls, ih hrest (by omega), getBytes_call hle]

/-- Bytes that a call copies are read back after all further calls. -/
theorem getBytes_calls_copied {cs : List ArenaCall} (h : a.CallsOK cs) {r : ArenaCall × ℕ}
    (hr : r ∈ (a.calls cs).1) {v : Bytes} (hv : r.1 = .putKey v ∨ r.1 = .putVal v) :
    (a.calls cs).2.getBytes r.2 v.length = v := by
  induction cs generalizing a with
  | nil => simp [calls] at hr
  | cons c cs ih =>
    obtain ⟨hfirst, hn, hrest⟩ := h.tail
    rcases List.mem_cons.mp hr with rfl | hr
    -- the bytes lie in front of everything the later calls write
    · have hin := h.inside
      rw [total_cons] at hin
      have hcall : a.call c = a.putBytes v ∧ c.reserved = v.length := by
        rcases hv with hv | hv
        · obtain rfl : c = .putKey v := hv
          exact ⟨rfl, rfl⟩
        · obtain rfl : c = .putVal v := hv
          exact ⟨rfl, rfl⟩
      have hinside : a.Inside v.length := by
        rw [Inside]
        omega
      rw [calls, getBytes_calls hrest (by rw [hn, hcall.1, hcall.2]; exact le_rfl), hcall.1]
      exact getBytes_putBytes_self hinside
    · exact ih hrest hr

theorem calls_node_aligned {cs : List ArenaCall} {r : ArenaCall × ℕ} (hr : r ∈ (a.calls cs).1)
    {height : ℕ} (hheight : r.1 = .putNode height) : 8 ∣ r.2 := by
  induction cs generalizing a with
  | nil => simp [calls] at hr
  | cons c cs ih =>
    rcases List.mem_cons.mp hr with rfl | hr
    · obtain rfl : c = .putNode height := hheight
      exact call_node_aligned a height
    · exact ih hr

/-- **Regions never overlap.** The regions of any sequence of calls on a new arena that stays within its
buffer and below `2 ^ 32` are pairwise disjoint, avoid byte 0 and lie in the buffer; node offsets are
positive multiples of eight; and every key and value is read back as it was written. -/
theorem regions_disjoint (size : ℕ) (cs : List ArenaCall) (hcs : (newArena size).CallsOK cs) :
    ((newArena size).calls cs).1.Pairwise (fun r r' => Disjoint (region r) (region r')) ∧
    (∀ r ∈ ((newArena size).calls cs).1, 0 ∉ region r ∧ region r ⊆ Set.Iio size) ∧
    (∀ r ∈ ((newArena size).calls cs).1, ∀ height, r.1 = .putNode height → 8 ∣ r.2 ∧ r.2 ≠ 0) ∧
    ∀ r ∈ ((newArena size).calls cs).1, ∀ v, r.1 = .putKey v ∨ r.1 = .putVal v →
      (∀ n : UInt16, n.toNat = v.length → ((newArena size).calls cs).2.getKey r.2 n = v) ∧
      ∀ n : UInt32, n.toNat = v.length → ((newArena size).calls cs).2.getVal r.2 n = v := by
  -- the calls stay inside the buffer because all of them together do
  have hbounds : ∀ r ∈ ((newArena size).calls cs).1, 1 ≤ r.2 ∧ r.2 + r.1.extent ≤ size :=
    fun r hr => ⟨(calls_bounds hcs r hr).1, (calls_bounds hcs r hr).2.trans hcs.inside⟩
  refine ⟨(calls_ordered hcs).imp fun hle => ?_, fun r hr => ?_, fun r hr height hheight => ?_,
    fun r hr v hv => ?_⟩
  · exact Set.disjoint_left.mpr fun i hi hi' => absurd (hle.trans hi'.1) (not_le.mpr hi.2)
  · obtain ⟨hlo, hhi⟩ := hbounds r hr
    exact ⟨fun hzero => absurd (hlo.trans hzero.1) (by decide), fun i hi => hi.2.trans_le hhi⟩
  · exact ⟨calls_node_aligned hr hheight, Nat.one_le_iff_ne_zero.mp (hbounds r hr).1⟩
  · have hread := getBytes_calls_copied hcs hr hv
    exact ⟨fun n hn => by rw [getKey, hn, hread], fun n hn => by rw [getVal, hn, hread]⟩

/-- A node, its key and its value. -/
theorem regions_disjoint_node :
    ((newArena 64).calls [.putNode 1, .putKey [1, 2], .putVal [3]]).1.Pairwise
      fun r r' => Disjoint (region r) (region r') := by
  refine (regions_disjoint 64 [.putNode 1, .putKey [1, 2], .putVal [3]] ⟨?_, ?_, ?_⟩).1
  · simp [ArenaCall.Legal, maxHeight]
  · decide
  · decide

end Arena

end Seol
