import Seol.Wal

/-!
# Replaying a truncated WAL

Reference: `replayWAL` and `appendBatch` in `wal.go`. `replayLoop` is the loop of `replayWAL` as it
reads the file: two `io.ReadFull` calls a round, and a checksum over a buffer that is assembled
anew from the two lengths and the payload. It agrees with `replayWAL`, which is stated over the
record scan that both logs share. A file cut at any byte is then replayed up to the last record
that ends at or before the cut.
-/

namespace Seol

open Common

variable {σ ε : Type}

/-- The loop of `replayWAL` on the bytes that were not read yet; `none` is a loop that ran out of
rounds. Both reads end the replay without an error when the file ends first. -/
def replayLoop (fn : σ → Bytes × Bytes → Except ε σ) :
    ℕ → Bytes → σ → Option (Except (WalError ε) σ)
  | 0, _, _ => none
  | rounds + 1, file, s =>
    if file.length < recordHeaderSize then some (.ok s)
    else
      let header := file.take recordHeaderSize
      let rest := file.drop recordHeaderSize
      let keyLen := headerKeyLen header
      let valueLen := headerValueLen header
      if rest.length < keyLen + valueLen then some (.ok s)
      else
        let payload := leBytes 4 keyLen ++ leBytes 4 valueLen ++ rest.take (keyLen + valueLen)
        if (checksumIEEE payload).toNat ≠ headerChecksum header then
          some (.error .checksumMismatch)
        else
          match fn s (slice payload 8 keyLen, payload.drop (8 + keyLen)) with
          | .error e => some (.error (.callback e))
          | .ok s => replayLoop fn rounds (rest.drop (keyLen + valueLen)) s

/-! ## One round -/

/-- The buffer the loop assembles holds the bytes that the writer's checksum covers. -/
theorem assembled_payload {file : Bytes} (h : recordHeaderSize ≤ file.length) (n : ℕ) :
    leBytes 4 (headerKeyLen file) ++ leBytes 4 (headerValueLen file) ++
        (file.drop recordHeaderSize).take n =
      slice file 4 8 ++ slice file recordHeaderSize n := by
  simp only [recordHeaderSize] at h
  have hk : (slice file 4 4).length = 4 := length_slice_of_le (by omega)
  have hv : (slice file 8 4).length = 4 := length_slice_of_le (by omega)
  rw [headerKeyLen, headerValueLen, leBytes_leNat_of_length hk, leBytes_leNat_of_length hv,
    ← slice_add file 4 4 4]
  rfl

/-- What one round does, in terms of the record at the front of the file. -/
theorem replayLoop_succ (fn : σ → Bytes × Bytes → Except ε σ) (rounds : ℕ) (file : Bytes) (s : σ) :
    replayLoop fn (rounds + 1) file s =
      match nextRecord file with
      | .short => some (.ok s)
      | .badChecksum => some (.error .checksumMismatch)
      | .record key value rest =>
        match fn s (key, value) with
        | .error e => some (.error (.callback e))
        | .ok s => replayLoop fn rounds rest s := by
  obtain ⟨hsum, hkey, hvalue⟩ := header_fields file
  simp only [replayLoop, nextRecord, hsum, hkey, hvalue, List.length_drop]
  -- the checks of the loop and of `nextRecord` agree one by one
  by_cases hheader : file.length < recordHeaderSize
  · rw [if_pos hheader, if_pos hheader]
  have hin := not_lt.mp hheader
  rw [if_neg hheader, if_neg hheader, assembled_payload hin]
  by_cases hpayload : file.length < recordHeaderSize + (headerKeyLen file + headerValueLen file)
  · rw [if_pos hpayload, if_pos (by omega)]
  rw [if_neg hpayload, if_neg (by omega)]
  by_cases hcrc : (checksumIEEE (slice file 4 8 ++ slice file recordHeaderSize
      (headerKeyLen file + headerValueLen file))).toNat = headerChecksum file
  · have hlen : (slice file 4 8).length = 8 :=
      length_slice_of_le (by simp only [recordHeaderSize] at hin; omega)
    rw [if_neg (not_not.mpr hcrc), if_neg (not_not.mpr hcrc)]
    dsimp only
    -- the loop reads the payload behind the eight bytes it checks with it
    rw [slice_append_right _ _ _ _ hlen.symm, List.drop_append, hlen, Nat.add_sub_cancel_left,
      List.drop_eq_nil_of_le (by omega), List.nil_append, List.drop_drop]
  · rw [if_pos hcrc, if_pos hcrc]

/-! ## Whole replays -/

/-- **The loop computes `replayWAL`**, and ends on every file. -/
theorem replayLoop_eq (fn : σ → Bytes × Bytes → Except ε σ) {rounds : ℕ} {file : Bytes}
    (hrounds : file.length < rounds) (s : σ) :
    replayLoop fn rounds file s = some (replayWAL fn file s) := by
  induction rounds generalizing file s with
  | zero => exact absurd hrounds (Nat.not_lt_zero _)
  | succ rounds ih =>
    rw [replayLoop_succ]
    cases hnext : nextRecord file with
    | short =>
      have hscan : scanRecords file = ([], file) :=
        scanRecords_of_not_record (by simp [hnext])
      simp only [replayWAL, hscan, hnext]
      rfl
    | badChecksum =>
      have hscan : scanRecords file = ([], file) :=
        scanRecords_of_not_record (by simp [hnext])
      simp only [replayWAL, hscan, hnext]
      rfl
    | record key value rest =>
      -- a record takes at least its header, so the rounds last
      obtain ⟨rfl, hfit⟩ := encodeRecord_of_nextRecord hnext
      have hlt := length_lt_of_nextRecord hnext
      rw [replayWAL, scanRecords_cons hfit]
      simp only [List.foldlM_cons]
      cases hfn : fn s (key, value) with
      | error e => rfl
      | ok s' => exact ih (by omega) s'

/-! ## Truncated logs -/

/-- The file after a sequence of batches. -/
def appendBatches (batches : List (List (Bytes × Bytes))) : Bytes := batches.foldl appendBatch []

/-- The entries whose records end at or before byte `n` of the log, in order. -/
def completeBy (entries : List (Bytes × Bytes)) (n : ℕ) : List (Bytes × Bytes) :=
  (List.range entries.length).filterMap fun i =>
    if (encodeRecords (entries.take (i + 1))).length ≤ n then entries[i]? else none

theorem appendBatches_eq (batches : List (List (Bytes × Bytes))) :
    appendBatches batches = encodeRecords batches.flatten := by
  have hfold : ∀ file, batches.foldl appendBatch file = file ++ encodeRecords batches.flatten := by
    induction batches with
    | nil => simp
    | cons b bs ih =>
      intro file
      rw [List.foldl_cons, ih, List.flatten_cons, encodeRecords_append, appendBatch,
        List.append_assoc]
  exact hfold []

theorem completeBy_cons (e : Bytes × Bytes) (es : List (Bytes × Bytes)) (n : ℕ) :
    completeBy (e :: es) n =
      if (encodeRecord e.1 e.2).length ≤ n then
        e :: completeBy es (n - (encodeRecord e.1 e.2).length)
      else [] := by
  have hend : ∀ i, (encodeRecords ((e :: es).take (i + 1))).length =
      (encodeRecord e.1 e.2).length + (encodeRecords (es.take i)).length := by
    intro i
    rw [List.take_succ_cons, encodeRecords_cons, List.length_append]
  rw [completeBy, List.length_cons, List.range_succ_eq_map, List.filterMap_cons,
    List.filterMap_map]
  simp only [hend, Function.comp_def, List.take_zero, encodeRecords_nil, List.length_nil,
    Nat.add_zero, List.getElem?_cons_zero, List.getElem?_cons_succ, Nat.succ_eq_add_one]
  by_cases hle : (encodeRecord e.1 e.2).length ≤ n
  · have hiff : ∀ m, (encodeRecord e.1 e.2).length + m ≤ n ↔
        m ≤ n - (encodeRecord e.1 e.2).length := by omega
    simp only [if_pos hle, hiff]
    rfl
  · -- no later record ends before the first one
    have hnot : ∀ m, ¬ (encodeRecord e.1 e.2).length + m ≤ n := by omega
    simp only [if_neg hle, hnot, if_false, List.filterMap_none]

/-- A log cut at byte `n` holds the records that end there or before. -/
theorem walHolds_completeBy {entries : List (Bytes × Bytes)} (hfit : ∀ e ∈ entries, LengthsFit e)
    (n : ℕ) : WalHolds ((encodeRecords entries).take n) (completeBy entries n) := by
  induction entries generalizing n with
  | nil => simpa [completeBy] using walHolds_nil
  | cons e es ih =>
    obtain ⟨hk, hv⟩ := hfit e List.mem_cons_self
    rw [completeBy_cons, encodeRecords_cons, List.take_append]
    by_cases hle : (encodeRecord e.1 e.2).length ≤ n
    · obtain ⟨hall, tail, htail, hshort⟩ :=
        ih (fun e' he' => hfit e' (List.mem_cons_of_mem _ he')) (n - (encodeRecord e.1 e.2).length)
      rw [if_pos hle, List.take_of_length_le hle, htail]
      refine ⟨List.forall_mem_cons.mpr ⟨⟨hk, hv⟩, hall⟩, tail, ?_, hshort⟩
      rw [encodeRecords_cons, List.append_assoc]
    · rw [if_neg hle, Nat.sub_eq_zero_of_le (not_le.mp hle).le, List.take_zero, List.append_nil]
      exact ⟨by simp, _, rfl, nextRecord_take_encodeRecord hk hv (not_le.mp hle)⟩

/-- **A truncated log is replayed up to its last complete record.** For any batches appended to one
WAL and any number of bytes kept of it, the replay calls its function on exactly the entries whose
records end within the kept bytes, in the order of the appends and with their keys and values, and
returns without an error of its own. -/
theorem replay_truncated {batches : List (List (Bytes × Bytes))}
    (hfit : ∀ e ∈ batches.flatten, LengthsFit e) {n : ℕ}
    (hn : n ≤ (appendBatches batches).length) (fn : σ → Bytes × Bytes → Except ε σ) (s : σ) :
    replayLoop fn (n + 1) ((appendBatches batches).take n) s =
        some (((completeBy batches.flatten n).foldlM fn s).mapError WalError.callback) ∧
      replayLoop (ε := ε) (fun calls e => .ok (calls ++ [e])) (n + 1)
        ((appendBatches batches).take n) [] = some (.ok (completeBy batches.flatten n)) := by
  have hlen : ((appendBatches batches).take n).length < n + 1 := by
    rw [List.length_take]
    omega
  have hholds : WalHolds ((appendBatches batches).take n) (completeBy batches.flatten n) := by
    rw [appendBatches_eq]
    exact walHolds_completeBy hfit n
  -- a function that notes its calls never fails
  have hlog : ∀ (es calls : List (Bytes × Bytes)),
      es.foldlM (fun calls e => (.ok (calls ++ [e]) : Except ε (List (Bytes × Bytes)))) calls =
        .ok (calls ++ es) := by
    intro es
    induction es with
    | nil => simp [pure, Except.pure]
    | cons e es ih =>
      intro calls
      rw [List.foldlM_cons]
      exact (ih _).trans (by rw [List.append_assoc, List.singleton_append])
  refine ⟨?_, ?_⟩
  · rw [replayLoop_eq fn hlen, hholds.replayWAL]
  · rw [replayLoop_eq _ hlen, hholds.replayWAL, hlog, List.nil_append]
    rfl

/-- Two batches, the second cut inside its last record. -/
theorem replay_truncated_sample :
    replayLoop (ε := Unit) (fun calls e => .ok (calls ++ [e])) 40
        ((appendBatches [[([1], [])], [([], [2, 3]), ([4], [5])]]).take 39) [] =
      some (.ok [([1], []), ([], [2, 3])]) := by
  have hfit : ∀ e ∈ [[([1], [])], [([], [2, 3]), ([4], [5])]].flatten, LengthsFit e := by
    simp [LengthsFit]
  rw [(replay_truncated (n := 39) hfit (by decide +kernel)
    (fun (_ : Unit) _ => (.error () : Except Unit Unit)) ()).2]
  have hends : completeBy [[([1], [])], [([], [2, 3]), ([4], [5])]].flatten 39 =
      [([1], []), ([], [2, 3])] := by decide +kernel
  rw [hends]

end Seol
