import Seol.Skiplist.Refinement

/-!
# Filling a skiplist

A sequence of `Put` calls on one list. The bytes it takes from the arena are a function of the keys,
the values and the tower heights alone (`fillSize`): an overwrite costs its value, a new key a node
as well. A sequence that fits in the arena leaves a list that holds its last value for each key.

Reference: `skiplist/skiplist.go`.
-/

namespace Seol

open Common

/-- One call of `Put`, with the tower height the code draws for it. -/
structure Insertion where
  key : Bytes
  value : Bytes
  height : ℕ

namespace Insertion

/-- The entry the call stores. -/
def entry (p : Insertion) : Bytes × Bytes := (p.key, p.value)

/-- A key that the 16-bit size field holds and a height that `randomHeight` can return. -/
structure Legal (p : Insertion) : Prop where
  key_lt : p.key.length < 2 ^ 16
  height_pos : 1 ≤ p.height
  height_le : p.height ≤ maxHeight

end Insertion

/-- The bytes a sequence of calls takes from the arena, on a list that has the keys `seen`. -/
def fillSize (seen : List Bytes) : List Insertion → ℕ
  | [] => 0
  | p :: ps =>
    (if p.key ∈ seen then 0 else Arena.nodeSize p.height + p.key.length) + p.value.length +
      fillSize (p.key :: seen) ps

namespace Skiplist

/-- A sequence of calls of `Put`. -/
def fill (s : Skiplist) (ps : List Insertion) : Skiplist :=
  ps.foldl (fun s p => s.put p.key p.value p.height) s

variable {s : Skiplist} {m : OrdMap Bytes Bytes} {k v : Bytes} {height : ℕ} {seen : List Bytes}

/-- What a call takes depends on whether the map has the key. -/
theorem Sim.need_eq (h : s.Sim m) (k v : Bytes) (height : ℕ) :
    s.need k v height =
      (if (m.get k).isSome then 0 else Arena.nodeSize height + k.length) + v.length := by
  -- an overwrite takes the value alone, a new key a node and the key as well
  rcases h.splice_spec k with ⟨o, ho, hk, hs⟩ | ⟨hnew, hs⟩
  · simp [need, hs, h.get_of_mem ho hk]
  · simp [need, hs, h.get_of_forall_ne hnew]

/-- A call advances the counter by what it needs. -/
theorem put_n (hwrap : s.arena.n + s.need k v height < 2 ^ 32) :
    (s.put k v height).arena.n = s.arena.n + s.need k v height := by
  cases hs : s.splice k with
  | found o =>
    simp only [need, hs] at hwrap ⊢
    simp only [put, hs, setValue, Arena.putBytes_n]
    exact Arena.bump_of_lt hwrap
  | missing prev =>
    simp only [need, hs] at hwrap ⊢
    simp only [put, hs]
    exact newNode_n hwrap

@[simp] theorem put_size (s : Skiplist) (k v : Bytes) (height : ℕ) :
    (s.put k v height).arena.size = s.arena.size := by
  unfold put
  split <;> rfl

/-- The keys seen so far are those the map has. -/
def Seen (seen : List Bytes) (m : OrdMap Bytes Bytes) : Prop :=
  ∀ k, k ∈ seen ↔ (m.get k).isSome

theorem seen_empty : Seen [] OrdMap.empty := by
  simp [Seen]

theorem Seen.insert (h : Seen seen m) (k v : Bytes) : Seen (k :: seen) (m.insert k v) := by
  intro k'
  rw [List.mem_cons, OrdMap.get_insert]
  by_cases hk : k = k'
  · simp [hk]
  · simp [hk, Ne.symm hk, h k']

/-- What a first call needs and the rest takes is what the sequence takes. -/
theorem Sim.need_add_fillSize (h : s.Sim m) (hseen : Seen seen m) (p : Insertion)
    (ps : List Insertion) : s.need p.key p.value p.height + fillSize (p.key :: seen) ps =
      fillSize seen (p :: ps) := by
  rw [h.need_eq, fillSize]
  by_cases hk : p.key ∈ seen
  · rw [if_pos hk, if_pos ((hseen _).mp hk)]
  · rw [if_neg hk, if_neg fun hget => hk ((hseen _).mpr hget)]

/-- The first call of a sequence that fits has room, and the rest of the sequence fits behind it. -/
theorem Sim.room_of_fillSize (h : s.Sim m) (hseen : Seen seen m) {p : Insertion}
    {ps : List Insertion} (hin : s.arena.n + fillSize seen (p :: ps) ≤ s.arena.size)
    (hwrap : s.arena.n + fillSize seen (p :: ps) < 2 ^ 32) :
    s.Room p.key p.value p.height ∧
      (s.put p.key p.value p.height).arena.n + fillSize (p.key :: seen) ps =
        s.arena.n + fillSize seen (p :: ps) := by
  have hneed := h.need_add_fillSize hseen p ps
  refine ⟨⟨by omega, by omega⟩, ?_⟩
  rw [put_n (by omega), Nat.add_assoc, hneed]

/-- **A sequence of calls that fits in the arena** leaves the map with its entries inserted, and the
counter behind what it took. -/
theorem Sim.fill (h : s.Sim m) (hseen : Seen seen m) {ps : List Insertion}
    (hlegal : ∀ p ∈ ps, p.Legal) (hin : s.arena.n + fillSize seen ps ≤ s.arena.size)
    (hwrap : s.arena.n + fillSize seen ps < 2 ^ 32) :
    (s.fill ps).Sim (m.insertAll (ps.map Insertion.entry)) ∧
      (s.fill ps).arena.n = s.arena.n + fillSize seen ps := by
  induction ps generalizing s m seen with
  | nil => exact ⟨h, rfl⟩
  | cons p ps ih =>
    obtain ⟨hroom, hrest⟩ := h.room_of_fillSize hseen hin hwrap
    have hp := hlegal p List.mem_cons_self
    rw [← hrest] at hin hwrap ⊢
    exact ih (h.put hp.key_lt hp.height_pos hroom) (hseen.insert p.key p.value)
      (fun q hq => hlegal q (List.mem_cons_of_mem _ hq)) (by rwa [put_size]) hwrap

/-- Every call of a sequence ends inside the buffer and below the range of the counter. What one call
allocates lies before the end of its last allocation. -/
def AllRoom (s : Skiplist) : List Insertion → Prop
  | [] => True
  | p :: ps => s.Room p.key p.value p.height ∧ (s.put p.key p.value p.height).AllRoom ps

/-- **Room for a sequence of calls** is room for what it takes from the arena. -/
theorem Sim.allRoom_iff (h : s.Sim m) (hseen : Seen seen m) (hn : s.arena.n ≤ s.arena.size)
    (hn' : s.arena.n < 2 ^ 32) {ps : List Insertion} (hlegal : ∀ p ∈ ps, p.Legal) :
    s.AllRoom ps ↔ s.arena.n + fillSize seen ps ≤ s.arena.size ∧
      s.arena.n + fillSize seen ps < 2 ^ 32 := by
  induction ps generalizing s m seen with
  | nil => exact ⟨fun _ => ⟨hn, hn'⟩, fun _ => trivial⟩
  | cons p ps ih =>
    obtain ⟨hp, hps⟩ := List.forall_mem_cons.mp hlegal
    have hneed := h.need_add_fillSize hseen p ps
    -- the end of the arena moves by what the call takes, so the bounds are those for the rest
    have hrest : s.Room p.key p.value p.height →
        ((s.put p.key p.value p.height).AllRoom ps ↔
          s.arena.n + fillSize seen (p :: ps) ≤ s.arena.size ∧
            s.arena.n + fillSize seen (p :: ps) < 2 ^ 32) := by
      intro hroom
      have hend := put_n hroom.no_wrap
      have hinside := hroom.inside
      have hwrap := hroom.no_wrap
      rw [ih (h.put hp.key_lt hp.height_pos hroom) (hseen.insert p.key p.value)
        (by rw [hend, put_size]; exact hinside) (by rw [hend]; exact hwrap) hps, hend, put_size,
        Nat.add_assoc, hneed]
    constructor
    · rintro ⟨hroom, hall⟩
      exact (hrest hroom).mp hall
    · rintro ⟨hin, hwrap⟩
      obtain ⟨hroom, -⟩ := h.room_of_fillSize hseen hin hwrap
      exact ⟨hroom, (hrest hroom).mpr ⟨hin, hwrap⟩⟩

end Skiplist

end Seol
