import Seol.Db.State

/-!
# What stored entries stand for

A submitted record is a key and the bytes of a value, the tombstone for a delete. The tree holds for it
the tombstone, the value itself or a reference into the value log. `Carries` says that a stored entry
stands for a record, `Holds` that the puts of a memtable stand for a list of records, and `Reads` that a
lookup over stored entries answers like a map of records. All three are kept by appends to the log.
-/

namespace Seol

open Common Vlog

/-- Records the store can carry: lengths that the header fields hold, and a value that is the tombstone
or does not have the shape of a reference. -/
structure Sendable (r : Bytes × Bytes) : Prop where
  fits : LengthsFit r
  plain : r.2 = tombstoneValue ∨ decodeValueRef r.2 = none

/-- The user's value of a record; `none` for a delete. -/
def meaning (value : Bytes) : Option Bytes := if isTombstoneValue value then none else some value

/-- `Carries log key stored value`: the stored bytes stand for the record of `key` and `value`. -/
inductive Carries (log : Log) (key : Bytes) : Bytes → Bytes → Prop
  | tombstone : Carries log key tombstoneValue tombstoneValue
  | inline {v : Bytes} (ht : v ≠ tombstoneValue) (hd : decodeValueRef v = none) : Carries log key v v
  | logged {v : Bytes} {ref : ValueRef} (ht : v ≠ tombstoneValue) (hs : Stored log ref key v)
      (hfit : LengthsFit (key, v)) : Carries log key (encodeValueRef ref) v

/-- Every record stored in `log` is stored in `log'` under the same reference. -/
def Extends (log log' : Log) : Prop :=
  ∀ ref key value, Stored log ref key value → Stored log' ref key value

theorem Extends.refl (log : Log) : Extends log log := fun _ _ _ h => h

theorem Extends.trans {a b c : Log} (hab : Extends a b) (hbc : Extends b c) : Extends a c :=
  fun ref key value h => hbc ref key value (hab ref key value h)

theorem extends_append (log : Log) (k v : Bytes) (now : UInt64) (fault : Option ℕ) :
    Extends log (log.append k v now fault).2 := fun _ _ _ h => h.append k v now fault

theorem extends_storeValueForLSM {log log' : Log} {valueThreshold : ℕ} {k v : Bytes} {now : UInt64}
    {fault : Option ℕ} {r : Except StoreError Bytes}
    (h : storeValueForLSM log valueThreshold k v now fault = (r, log')) : Extends log log' := by
  have hext := extends_append log k v now fault
  unfold storeValueForLSM at h
  split_ifs at h
  · exact (Prod.mk.inj h).2 ▸ Extends.refl log
  · exact (Prod.mk.inj h).2 ▸ Extends.refl log
  · cases happ : log.append k v now fault with
    | mk res l =>
      rw [happ] at h hext
      cases res <;> exact (Prod.mk.inj h).2 ▸ hext

/-- What is stored depends on the files and the end of the active segment only. -/
theorem extends_of_files {log log' : Log} (hf : log'.files = log.files)
    (ha : log'.active = log.active) : Extends log log' := by
  intro ref key value h
  exact ⟨hf ▸ h.file, fun hid => by rw [ha] at hid ⊢; exact h.sealed hid, h.offset_lt,
    h.valueLen_eq, h.checksum_eq⟩

theorem Carries.mono {log log' : Log} {key stored value : Bytes} (h : Carries log key stored value)
    (he : Extends log log') : Carries log' key stored value := by
  cases h with
  | tombstone => exact .tombstone
  | inline ht hd => exact .inline ht hd
  | logged ht hs hfit => exact .logged ht (he _ _ _ hs) hfit

/-- **A stored entry resolves to the value it stands for.** -/
theorem Carries.resolveStoredValue {log : Log} {key stored value : Bytes}
    (h : Carries log key stored value) (hopen : log.closed = false) :
    resolveStoredValue log stored = .ok (meaning value) := by
  cases h with
  | tombstone => rw [resolveStoredValue_tombstoneValue, meaning, if_pos (by simp [isTombstoneValue])]
  | inline ht hd => simp [Seol.resolveStoredValue, meaning, isTombstoneValue, ht, hd]
  | logged ht hs hfit =>
    rw [resolveStoredValue_encodeValueRef, hs.readValue hopen hfit.1 hfit.2, meaning,
      if_neg (by simpa [isTombstoneValue] using ht)]

/-- A stored entry is empty only if its value is. -/
theorem Carries.ne_nil {log : Log} {key stored value : Bytes} (h : Carries log key stored value)
    (hv : value ≠ []) : stored ≠ [] := by
  cases h with
  | tombstone => exact hv
  | inline ht hd => exact hv
  | logged ht hs hfit =>
    intro hnil
    have := length_encodeValueRef ‹_›
    rw [hnil] at this
    simp at this

/-- **Storing a sendable record succeeds** at a reading beyond the active segment's id. -/
theorem Vlog.LogReady.store {log : Log} (h : LogReady log) {r : Bytes × Bytes} (hr : Sendable r)
    {now : UInt64} (hnow : log.active.id < now) (valueThreshold : ℕ) :
    ∃ stored log', storeValueForLSM log valueThreshold r.1 r.2 now none = (.ok stored, log') ∧
      Carries log' r.1 stored r.2 ∧ LogReady log' ∧ Extends log log' ∧ log'.active.id ≤ now := by
  -- the three ways to store: a tombstone, an inline value, a reference into the log
  by_cases ht : r.2 = tombstoneValue
  · rw [ht, storeValueForLSM_tombstoneValue]
    exact ⟨_, _, rfl, .tombstone, h, Extends.refl log, hnow.le⟩
  have hnt : isTombstoneValue r.2 = false := by simpa [isTombstoneValue] using ht
  unfold storeValueForLSM
  simp only [hnt, Bool.false_eq_true, if_false]
  by_cases hle : r.2.length ≤ valueThreshold
  · rw [if_pos hle]
    exact ⟨_, _, rfl, .inline ht (hr.plain.resolve_left ht), h, Extends.refl log, hnow.le⟩
  · obtain ⟨ref, log', happ, hready, hid⟩ := h.append (k := r.1) (v := r.2) hr.fits hnow
    rw [if_neg hle, happ]
    refine ⟨_, _, rfl, .logged ht (Log.append_stored happ).1 hr.fits, hready, ?_, hid⟩
    -- a value that was in the log before is still read from it
    have hext := extends_append log r.1 r.2 now none
    rwa [happ] at hext

/-! ## Memtables and lookups -/

section OptionRel

variable {α β : Type*} {r r' : α → β → Prop} {a a' : Option α} {b b' : Option β}

theorem optionRel_imp (h : Option.Rel r a b) (hr : ∀ x y, r x y → r' x y) : Option.Rel r' a b := by
  cases h with
  | some hxy => exact .some (hr _ _ hxy)
  | none => exact .none

theorem optionRel_or (h : Option.Rel r a b) (h' : Option.Rel r a' b') :
    Option.Rel r (a.or a') (b.or b') := by
  cases h with
  | some hxy => exact .some hxy
  | none => exact h'

end OptionRel

/-- The puts of a memtable stand for the records of a list, one by one. -/
def Holds (log : Log) (m : Memtable) (rs : List (Bytes × Bytes)) : Prop :=
  List.Forall₂ (fun e r => e.1 = r.1 ∧ Carries log r.1 e.2 r.2) m rs

/-- A lookup over stored entries answers like a map of records. -/
def Reads (log : Log) (f g : Bytes → Option Bytes) : Prop :=
  ∀ k, Option.Rel (Carries log k) (f k) (g k)

theorem Holds.mono {log log' : Log} {m : Memtable} {rs : List (Bytes × Bytes)} (h : Holds log m rs)
    (he : Extends log log') : Holds log' m rs :=
  List.Forall₂.imp (fun _ _ hc => ⟨hc.1, hc.2.mono he⟩) h

theorem Holds.append {log : Log} {m m' : Memtable} {rs rs' : List (Bytes × Bytes)}
    (h : Holds log m rs) (h' : Holds log m' rs') : Holds log (m ++ m') (rs ++ rs') :=
  List.rel_append h h'

theorem Reads.mono {log log' : Log} {f g : Bytes → Option Bytes} (h : Reads log f g)
    (he : Extends log log') : Reads log' f g := by
  intro k
  exact optionRel_imp (h k) fun _ _ hc => hc.mono he

theorem reads_none (log : Log) : Reads log (fun _ => none) (fun _ => none) := fun _ => .none

theorem Reads.overlay {log : Log} {f g f' g' : Bytes → Option Bytes} (h : Reads log f g)
    (h' : Reads log f' g') : Reads log (overlay f f') (overlay g g') := by
  intro k
  exact optionRel_or (h k) (h' k)

/-- A memtable answers like the last records of its keys. -/
theorem Holds.reads {log : Log} {m : Memtable} {rs : List (Bytes × Bytes)} (h : Holds log m rs) :
    Reads log (lastOf m) (lastOf rs) := by
  induction h with
  | nil => exact reads_none log
  | @cons e r m rs hc _ ih =>
    intro k
    -- the newest entry decides, and both lists have it for the same key
    have hlast : Option.Rel (Carries log k) (if e.1 = k then some e.2 else none)
        (if r.1 = k then some r.2 else none) := by
      by_cases hk : r.1 = k
      · rw [if_pos (hc.1.trans hk), if_pos hk]
        exact .some (hk ▸ hc.2)
      · rw [if_neg (fun heq => hk (hc.1.symm.trans heq)), if_neg hk]
        exact .none
    exact optionRel_or (ih k) hlast

/-- **What a lookup resolves to** is the meaning of the record it stands for. -/
theorem Reads.readStoredValue {log : Log} {f g : Bytes → Option Bytes} (h : Reads log f g)
    (hopen : log.closed = false) (k : Bytes) :
    readStoredValue log (f k) = .ok ((g k).bind meaning) := by
  have hk := h k
  revert hk
  generalize f k = a
  generalize g k = b
  intro hk
  cases hk with
  | some hc =>
    unfold Seol.readStoredValue
    dsimp only
    rw [hc.resolveStoredValue hopen]
    rfl
  | none => rfl

end Seol
