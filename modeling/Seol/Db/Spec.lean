import Seol.Db.Meaning

/-!
# What the store is for

The abstract store is a history of writes and a queue of writes that were submitted but not yet
answered. A write joins the history when it is acknowledged; a process stop lets some prefix of the
queue join it; a reader sees the map that the history leaves, possibly with a prefix of the queue
applied. `SpecStep` says which events are allowed; the model of the code is compared with it.
-/

namespace Seol

open Common

/-- A write as a client submits it. -/
inductive Write where
  | put (key value : Bytes)
  | delete (key : Bytes)
deriving DecidableEq

namespace Write

def key : Write → Bytes
  | put k _ => k
  | delete k => k

/-- What a write leaves under its key. -/
def value : Write → Option Bytes
  | put _ v => some v
  | delete _ => none

/-- The value `Put` and `Delete` pass to `submitWrite`. -/
def raw : Write → Bytes
  | put _ v => v
  | delete _ => tombstoneValue

/-- The record of a write in the WAL. -/
def record (w : Write) : Bytes × Bytes := (w.key, w.raw)

/-- The value of a put has neither reserved shape. -/
def Plain : Write → Prop
  | put _ v => v ≠ tombstoneValue ∧ decodeValueRef v = none
  | delete _ => True

theorem Plain.sendable {w : Write} (h : w.Plain) (hfit : LengthsFit w.record) : Sendable w.record := by
  refine ⟨hfit, ?_⟩
  cases w with
  | put k v => exact Or.inr h.2
  | delete k => exact Or.inl rfl

theorem Plain.meaning_raw {w : Write} (h : w.Plain) : meaning w.raw = w.value := by
  cases w with
  | put k v => exact if_neg (by simp [isTombstoneValue, raw, h.1])
  | delete k => exact if_pos (by simp [isTombstoneValue, raw])

end Write

/-- The map left by a list of writes in order. -/
def contents (ws : List Write) (k : Bytes) : Option Bytes :=
  (lastOf (ws.map fun w => (w.key, w.value)) k).join

/-- The map left by writes is the meaning of the last records. -/
theorem contents_eq {ws : List Write} (h : ∀ w ∈ ws, w.Plain) (k : Bytes) :
    contents ws k = (lastOf (ws.map Write.record) k).bind meaning := by
  -- a plain write and its record mean the same, and both lists are in the same order
  have hmap : lastOf (ws.map fun w => (w.key, w.value)) k =
      (lastOf (ws.map Write.record) k).map meaning := by
    induction ws with
    | nil => rfl
    | cons w ws ih =>
      obtain ⟨hw, hws⟩ := List.forall_mem_cons.mp h
      simp only [List.map_cons, lastOf, ih hws, Write.record]
      cases lastOf (ws.map Write.record) k with
      | none => by_cases hk : w.key = k <;> simp [hk, hw.meaning_raw]
      | some v => rfl
  unfold contents
  rw [hmap]
  cases lastOf (ws.map Write.record) k <;> rfl

/-- What a run of the store shows. -/
inductive Event where
  | submitted (w : Write)
  | rejected (w : Write)
  | acked (w : Write)
  | failed (ws : List Write)
  | internal
  | stopped
  | closed
  | reopened (view : Bytes → Except GetError (Option Bytes))
  | openFailed
  | got (key : Bytes) (result : Except GetError (Option Bytes))

/-- The abstract store: the writes that count, and those still unanswered, in writer order. -/
structure Spec where
  history : List Write
  unacked : List Write

/-- The events the abstract store allows. Opening never fails. -/
inductive SpecStep : Spec → Event → Spec → Prop
  | submitted {s : Spec} (w : Write) :
    SpecStep s (.submitted w) { s with unacked := s.unacked ++ [w] }
  | rejected {s : Spec} (w : Write) : SpecStep s (.rejected w) s
  | acked {h u : List Write} (w : Write) : SpecStep ⟨h, w :: u⟩ (.acked w) ⟨h ++ [w], u⟩
  | failed {h u : List Write} (ws : List Write) : SpecStep ⟨h, ws ++ u⟩ (.failed ws) ⟨h, u⟩
  | internal {s : Spec} : SpecStep s .internal s
  | stopped {s : Spec} (n : ℕ) : SpecStep s .stopped ⟨s.history ++ s.unacked.take n, []⟩
  | closed {h : List Write} : SpecStep ⟨h, []⟩ .closed ⟨h, []⟩
  | reopened {h : List Write} {view : Bytes → Except GetError (Option Bytes)}
      (hview : ∀ k, view k = .ok (contents h k)) : SpecStep ⟨h, []⟩ (.reopened view) ⟨h, []⟩
  | got {s : Spec} {key : Bytes} {result : Except GetError (Option Bytes)} (n : ℕ)
      (hresult : result = .ok (contents (s.history ++ s.unacked.take n) key)) :
    SpecStep s (.got key result) s

end Seol
