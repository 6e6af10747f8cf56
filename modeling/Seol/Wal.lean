import Seol.Common.Decimal
import Seol.Record

/-!
# The write-ahead log

Reference: `wal.go`, in the mode where an append returns only when its bytes are in the file. A WAL
file is a sequence of records, possibly ending in a torn one; its name is the time of its creation
in nanoseconds, and files are replayed in the order of their names as strings.
-/

namespace Seol

open Common

/-- The suffix `.wal`. -/
def walSuffix : Bytes := [0x2e, 0x77, 0x61, 0x6c]

/-- `walID` at a clock reading in nanoseconds. -/
def walID (now : ℕ) : Bytes := decimal now ++ walSuffix

theorem walID_injective : Function.Injective walID := by
  intro a b h
  exact decimal_injective (List.append_cancel_right h)

/-- `appendBatch`: the file after the records of a batch were written behind it. -/
def appendBatch (file : Bytes) (entries : List (Bytes × Bytes)) : Bytes :=
  file ++ encodeRecords entries

/-- `replayWAL` fails on a record with a wrong checksum, or when its callback does. -/
inductive WalError (ε : Type) where
  | checksumMismatch
  | callback (e : ε)

/-- `replayWAL`: call `fn` on each whole record. A short record ends the replay without error. -/
def replayWAL {σ ε : Type} (fn : σ → Bytes × Bytes → Except ε σ) (file : Bytes) (s : σ) :
    Except (WalError ε) σ :=
  match (scanRecords file).1.foldlM fn s with
  | .error e => .error (.callback e)
  | .ok s => if nextRecord (scanRecords file).2 = .badChecksum then .error .checksumMismatch else .ok s

/-- A file that replays as the records `rs`: those records, then at most a torn one. -/
structure WalHolds (file : Bytes) (rs : List (Bytes × Bytes)) : Prop where
  fit : ∀ r ∈ rs, LengthsFit r
  layout : ∃ tail, file = encodeRecords rs ++ tail ∧ nextRecord tail = .short

theorem WalHolds.scan {file : Bytes} {rs : List (Bytes × Bytes)} (h : WalHolds file rs) :
    ∃ tail, scanRecords file = (rs, tail) ∧ nextRecord tail = .short := by
  obtain ⟨tail, rfl, hshort⟩ := h.layout
  exact ⟨tail, scanRecords_encodeRecords h.fit (by simp [hshort]), hshort⟩

/-- Such a file is replayed record by record and without a checksum error. -/
theorem WalHolds.replayWAL {file : Bytes} {rs : List (Bytes × Bytes)} (h : WalHolds file rs)
    {σ ε : Type} (fn : σ → Bytes × Bytes → Except ε σ) (s : σ) :
    replayWAL fn file s = (rs.foldlM fn s).mapError WalError.callback := by
  obtain ⟨tail, hscan, hshort⟩ := h.scan
  rw [Seol.replayWAL, hscan]
  simp only [hshort]
  cases rs.foldlM fn s <;> simp [Except.mapError]

theorem walHolds_nil : WalHolds [] [] := ⟨by simp, [], rfl, rfl⟩

/-- A batch appended to a file without a torn record is replayed after what was there. -/
theorem walHolds_appendBatch {rs entries : List (Bytes × Bytes)}
    (hfit : ∀ r ∈ rs ++ entries, LengthsFit r) :
    WalHolds (appendBatch (encodeRecords rs) entries) (rs ++ entries) :=
  ⟨hfit, [], by rw [List.append_nil, encodeRecords_append]; rfl, rfl⟩

/-- **A batch cut at any byte** leaves some of its records, in order. -/
theorem walHolds_take {rs entries : List (Bytes × Bytes)}
    (hfit : ∀ r ∈ rs ++ entries, LengthsFit r) (n : ℕ) :
    ∃ j, WalHolds (encodeRecords rs ++ (encodeRecords entries).take n) (rs ++ entries.take j) := by
  obtain ⟨j, tail, htake, hshort⟩ :=
    take_encodeRecords (fun r hr => hfit r (List.mem_append_right _ hr)) n
  refine ⟨j, fun r hr => hfit r ?_, tail, ?_, hshort⟩
  · rcases List.mem_append.mp hr with hr | hr
    · exact List.mem_append_left _ hr
    · exact List.mem_append_right _ (List.mem_of_mem_take hr)
  · rw [htake, encodeRecords_append, List.append_assoc]

/-- Clock readings of nineteen digits: nanoseconds from September 2001 on. -/
def NineteenDigits (now : ℕ) : Prop := 10 ^ 18 ≤ now ∧ now < 10 ^ 19

/-- Among readings of nineteen digits the names sort like the times. -/
theorem walID_lt_walID {a b : ℕ} (ha : NineteenDigits a) (hb : NineteenDigits b) (h : a < b) :
    walID a < walID b := by
  have hlen : (decimal a).length = (decimal b).length := by
    rw [length_decimal ha.1 ha.2, length_decimal hb.1 hb.2]
  exact append_lt_append (decimal_lt_decimal h hlen) hlen _ _

/-- Readings of different lengths do not: the string order puts `10.wal` before `9.wal`. -/
example : walID 10 < walID 9 := by decide

end Seol
