import Seol.Common.Crc32

/-!
# The log record format

Reference: `wal.go` and `vlog/vlog.go`, which write the same record: a CRC-32, the two lengths and
the two byte strings, all integers as 32-bit little-endian words. The checksum covers everything
after itself.
-/

namespace Seol

open Common

/-- `walRecordHeaderSize`, `recordHeaderSize`: checksum, key length and value length. -/
def recordHeaderSize : ℕ := 4 + 4 + 4

/-- What the checksum of a record covers: `record[4:]`. -/
def recordBody (key value : Bytes) : Bytes :=
  leBytes 4 key.length ++ leBytes 4 value.length ++ (key ++ value)

/-- The fixed-size front of a record. Lengths of `2^32` and more are cut to their low 32 bits by the
`uint32` conversion. -/
def recordHeader (key value : Bytes) : Bytes :=
  leBytes 4 (checksumIEEE (recordBody key value)).toNat ++
    (leBytes 4 key.length ++ leBytes 4 value.length)

/-- One record as `appendBatch` and `Log.Append` lay it out. -/
def encodeRecord (key value : Bytes) : Bytes := recordHeader key value ++ (key ++ value)

/-- The outcome of reading one record from the front of a byte string. -/
inductive Parsed where
  /-- The bytes end inside the header or the payload. -/
  | short
  /-- A whole record whose checksum does not match. -/
  | badChecksum
  /-- A whole record, and the bytes after it. -/
  | record (key value rest : Bytes)
deriving DecidableEq

/-- The checksum field of a header. -/
def headerChecksum (b : Bytes) : ℕ := leNat (slice b 0 4)

/-- The key length field of a header. -/
def headerKeyLen (b : Bytes) : ℕ := leNat (slice b 4 4)

/-- The value length field of a header. -/
def headerValueLen (b : Bytes) : ℕ := leNat (slice b 8 4)

/-- Read one record: the fixed header, as many payload bytes as the header says, the checksum. -/
def nextRecord (b : Bytes) : Parsed :=
  if b.length < recordHeaderSize then .short
  else if b.length < recordHeaderSize + (headerKeyLen b + headerValueLen b) then .short
  else
    let payload := slice b recordHeaderSize (headerKeyLen b + headerValueLen b)
    if (checksumIEEE (slice b 4 8 ++ payload)).toNat ≠ headerChecksum b then .badChecksum
    else .record (payload.take (headerKeyLen b)) (payload.drop (headerKeyLen b))
      (b.drop (recordHeaderSize + (headerKeyLen b + headerValueLen b)))

@[simp] theorem length_recordHeader (key value : Bytes) :
    (recordHeader key value).length = recordHeaderSize := by
  simp [recordHeader, recordHeaderSize]

theorem length_encodeRecord (key value : Bytes) :
    (encodeRecord key value).length = recordHeaderSize + (key.length + value.length) := by
  simp [encodeRecord]

theorem encodeRecord_ne_nil (key value : Bytes) : encodeRecord key value ≠ [] := by
  intro hnil
  have hlen := length_encodeRecord key value
  simp only [hnil, List.length_nil, recordHeaderSize] at hlen
  omega

/-! ## The fields of a header -/

/-- The fields of a header that was read on its own. -/
theorem header_fields (b : Bytes) :
    headerChecksum (b.take recordHeaderSize) = headerChecksum b ∧
      headerKeyLen (b.take recordHeaderSize) = headerKeyLen b ∧
      headerValueLen (b.take recordHeaderSize) = headerValueLen b := by
  have hfield : ∀ o, o + 4 ≤ recordHeaderSize →
      slice (b.take recordHeaderSize) o 4 = slice b o 4 := by
    intro o ho
    have h := slice_slice (b := b) (o := 0) ho
    rwa [Nat.zero_add, show slice b 0 recordHeaderSize = b.take recordHeaderSize from rfl]
      at h
  simp only [headerChecksum, headerKeyLen, headerValueLen, hfield _ (show 0 + 4 ≤ 12 by omega),
    hfield _ (show 4 + 4 ≤ 12 by omega), hfield _ (show 8 + 4 ≤ 12 by omega), and_self]

/-- The lengths in a header are 32-bit numbers. -/
theorem headerLens_lt {b : Bytes} (h : recordHeaderSize ≤ b.length) :
    headerKeyLen b < 2 ^ 32 ∧ headerValueLen b < 2 ^ 32 := by
  simp only [recordHeaderSize] at h
  have hk : (slice b 4 4).length = 4 := length_slice_of_le (by omega)
  have hv : (slice b 8 4).length = 4 := length_slice_of_le (by omega)
  exact ⟨leNat_lt_of_length hk, leNat_lt_of_length hv⟩


section Fields

variable (key value rest : Bytes)

theorem headerChecksum_recordHeader : headerChecksum (recordHeader key value ++ rest) =
    (checksumIEEE (recordBody key value)).toNat := by
  rw [headerChecksum, recordHeader, List.append_assoc,
    slice_append_front _ _ 4 (length_leBytes 4 _).symm]
  exact leNat_leBytes_of_lt (UInt32.toNat_lt _)

theorem headerKeyLen_recordHeader :
    headerKeyLen (recordHeader key value ++ rest) = key.length % 2 ^ 32 := by
  rw [headerKeyLen, recordHeader, List.append_assoc, List.append_assoc,
    slice_append_mid _ (leBytes 4 key.length) _ 4 4 (by simp) (by simp), leNat_leBytes]
  norm_num

theorem headerValueLen_recordHeader :
    headerValueLen (recordHeader key value ++ rest) = value.length % 2 ^ 32 := by
  rw [headerValueLen, recordHeader, ← List.append_assoc, List.append_assoc,
    slice_append_mid _ (leBytes 4 value.length) _ 8 4 (by simp) (by simp), leNat_leBytes]
  norm_num

/-- The two length fields, which the checksum covers before the payload. -/
theorem slice_lengths_recordHeader : slice (recordHeader key value ++ rest) 4 8 =
    leBytes 4 key.length ++ leBytes 4 value.length := by
  rw [recordHeader, List.append_assoc]
  exact slice_append_mid _ _ _ _ _ (by simp) (by simp)

theorem slice_payload_encodeRecord :
    slice (encodeRecord key value ++ rest) recordHeaderSize (key.length + value.length) =
      key ++ value := by
  rw [encodeRecord, List.append_assoc]
  exact slice_append_mid _ _ _ _ _ (by simp) (by simp)

end Fields

/-! ## Reading back a written record -/

/-- **A written record is read back**, whatever follows it. -/
theorem nextRecord_encodeRecord {key value : Bytes} (hk : key.length < 2 ^ 32)
    (hv : value.length < 2 ^ 32) (rest : Bytes) :
    nextRecord (encodeRecord key value ++ rest) = .record key value rest := by
  have hpay := slice_payload_encodeRecord key value rest
  have hlen : (encodeRecord key value ++ rest).length =
      recordHeaderSize + (key.length + value.length) + rest.length := by
    rw [List.length_append, length_encodeRecord]
  have hdrop : (encodeRecord key value ++ rest).drop
      (recordHeaderSize + (key.length + value.length)) = rest := by
    rw [← length_encodeRecord, List.drop_left]
  rw [encodeRecord, List.append_assoc] at hpay hlen hdrop ⊢
  -- every field of the header is read back, the lengths because they fit
  simp only [nextRecord, headerKeyLen_recordHeader, headerValueLen_recordHeader,
    headerChecksum_recordHeader, slice_lengths_recordHeader, Nat.mod_eq_of_lt hk,
    Nat.mod_eq_of_lt hv, hlen]
  rw [if_neg (by omega), if_neg (by omega), hpay, if_neg (by simp [recordBody]), List.take_left,
    List.drop_left, hdrop]

/-- A record cut short is reported as short, at every cut. -/
theorem nextRecord_take_encodeRecord {key value : Bytes} (hk : key.length < 2 ^ 32)
    (hv : value.length < 2 ^ 32) {n : ℕ} (hn : n < (encodeRecord key value).length) :
    nextRecord ((encodeRecord key value).take n) = .short := by
  have hlen : ((encodeRecord key value).take n).length = n := by
    rw [List.length_take]
    omega
  simp only [nextRecord, hlen]
  by_cases hn12 : n < recordHeaderSize
  · rw [if_pos hn12]
  · -- the header is whole, so the length fields are the written ones and the payload is short
    have htake : (encodeRecord key value).take n =
        recordHeader key value ++ (key ++ value).take (n - recordHeaderSize) := by
      rw [encodeRecord, List.take_append, length_recordHeader,
        List.take_of_length_le (by rw [length_recordHeader]; omega)]
    rw [if_neg hn12, htake, headerKeyLen_recordHeader, headerValueLen_recordHeader,
      Nat.mod_eq_of_lt hk, Nat.mod_eq_of_lt hv, if_pos (by rwa [length_encodeRecord] at hn)]

/-- Reading a record consumes at least its header. -/
theorem length_lt_of_nextRecord {b key value rest : Bytes}
    (h : nextRecord b = .record key value rest) : rest.length < b.length := by
  simp only [nextRecord] at h
  split_ifs at h with h1 h2 h3
  simp only [Parsed.record.injEq] at h
  rw [← h.2.2, List.length_drop]
  simp only [recordHeaderSize] at *
  omega

/-- **What is read as a record is one**: the bytes consumed are the encoding of what is returned. -/
theorem encodeRecord_of_nextRecord {b key value rest : Bytes}
    (h : nextRecord b = .record key value rest) :
    b = encodeRecord key value ++ rest ∧ key.length < 2 ^ 32 ∧ value.length < 2 ^ 32 := by
  simp only [nextRecord] at h
  split_ifs at h with hheader hpayload hsum
  obtain ⟨hkey, hvalue, hrest⟩ := Parsed.record.inj h
  have hheader' : 12 ≤ b.length := not_lt.mp hheader
  have hc4 : (slice b 0 4).length = 4 := length_slice_of_le (by omega)
  have hk4 : (slice b 4 4).length = 4 := length_slice_of_le (by omega)
  have hv4 : (slice b 8 4).length = 4 := length_slice_of_le (by omega)
  have hpay : (slice b recordHeaderSize (headerKeyLen b + headerValueLen b)).length =
      headerKeyLen b + headerValueLen b := length_slice_of_le (not_lt.mp hpayload)
  have hklen : key.length = headerKeyLen b := by
    rw [← hkey, List.length_take]
    omega
  have hvlen : value.length = headerValueLen b := by
    rw [← hvalue, List.length_drop]
    omega
  have hconcat : key ++ value =
      slice b recordHeaderSize (headerKeyLen b + headerValueLen b) := by
    rw [← hkey, ← hvalue, List.take_append_drop]
  have hlengths : leBytes 4 key.length ++ leBytes 4 value.length = slice b 4 8 := by
    rw [hklen, hvlen, headerKeyLen, headerValueLen, leBytes_leNat_of_length hk4,
      leBytes_leNat_of_length hv4, ← slice_add]
  -- the checksum field is the checksum of the body that was read
  have hcrc : leBytes 4 (checksumIEEE (recordBody key value)).toNat = slice b 0 4 := by
    rw [recordBody, hlengths, hconcat, not_not.mp hsum, headerChecksum,
      leBytes_leNat_of_length hc4]
  refine ⟨?_, hklen ▸ leNat_lt_of_length hk4, hvlen ▸ leNat_lt_of_length hv4⟩
  calc b = slice b 0 (recordHeaderSize + (headerKeyLen b + headerValueLen b)) ++ rest := by
        rw [← hrest, slice, List.drop_zero, List.take_append_drop]
    _ = slice b 0 4 ++ slice b 4 8 ++
          slice b recordHeaderSize (headerKeyLen b + headerValueLen b) ++ rest := by
        rw [slice_add, recordHeaderSize, slice_add b 0 4 8]
    _ = encodeRecord key value ++ rest := by
        rw [encodeRecord, recordHeader, hcrc, hlengths, hconcat]

/-! ## Sequences of records -/

/-- Records laid out one after the other. -/
def encodeRecords (rs : List (Bytes × Bytes)) : Bytes := rs.flatMap fun r => encodeRecord r.1 r.2

/-- Read records while there are whole and intact ones: the records and the bytes left. -/
def scanFuel : ℕ → Bytes → List (Bytes × Bytes) × Bytes
  | 0, b => ([], b)
  | fuel + 1, b =>
    match nextRecord b with
    | .record key value rest => ((key, value) :: (scanFuel fuel rest).1, (scanFuel fuel rest).2)
    | _ => ([], b)

/-- The records at the front of a file. Each has at least a header, so its length is fuel enough. -/
def scanRecords (b : Bytes) : List (Bytes × Bytes) × Bytes := scanFuel b.length b

/-- Keys and values that the 32-bit length fields can describe. -/
def LengthsFit (r : Bytes × Bytes) : Prop := r.1.length < 2 ^ 32 ∧ r.2.length < 2 ^ 32

@[simp] theorem encodeRecords_nil : encodeRecords [] = [] := rfl

theorem encodeRecords_cons (r : Bytes × Bytes) (rs : List (Bytes × Bytes)) :
    encodeRecords (r :: rs) = encodeRecord r.1 r.2 ++ encodeRecords rs := rfl

theorem encodeRecords_singleton (k v : Bytes) : encodeRecords [(k, v)] = encodeRecord k v := by
  simp [encodeRecords]

theorem encodeRecords_append (rs rs' : List (Bytes × Bytes)) :
    encodeRecords (rs ++ rs') = encodeRecords rs ++ encodeRecords rs' := List.flatMap_append

theorem scanFuel_encodeRecords {rs : List (Bytes × Bytes)} (hfit : ∀ r ∈ rs, LengthsFit r)
    {tail : Bytes} (htail : ∀ k v rest, nextRecord tail ≠ .record k v rest) {fuel : ℕ}
    (hfuel : (encodeRecords rs ++ tail).length ≤ fuel) :
    scanFuel fuel (encodeRecords rs ++ tail) = (rs, tail) := by
  induction rs generalizing fuel with
  | nil =>
    cases fuel with
    | zero => rfl
    | succ fuel =>
      simp only [encodeRecords_nil, List.nil_append, scanFuel]
  | cons r rs ih =>
    rw [encodeRecords_cons, List.append_assoc] at hfuel ⊢
    rw [List.length_append, length_encodeRecord, recordHeaderSize] at hfuel
    -- a record has a header at least, so the fuel is not used up before the records are
    obtain ⟨fuel, rfl⟩ : ∃ f, fuel = f + 1 := ⟨fuel - 1, by omega⟩
    obtain ⟨hk, hv⟩ := hfit r List.mem_cons_self
    have hrest : scanFuel fuel (encodeRecords rs ++ tail) = (rs, tail) :=
      ih (fun r' hr' => hfit r' (List.mem_cons_of_mem _ hr')) (by omega)
    simp only [scanFuel, nextRecord_encodeRecord hk hv, hrest]

/-- **Records followed by something that is not a record** are all read. -/
theorem scanRecords_encodeRecords {rs : List (Bytes × Bytes)} (hfit : ∀ r ∈ rs, LengthsFit r)
    {tail : Bytes} (htail : ∀ k v rest, nextRecord tail ≠ .record k v rest) :
    scanRecords (encodeRecords rs ++ tail) = (rs, tail) :=
  scanFuel_encodeRecords hfit htail le_rfl

@[simp] theorem nextRecord_nil : nextRecord [] = .short := rfl

/-- **A scan cuts its input in two**: whole records, and a rest that does not start with one. -/
theorem scanFuel_spec {fuel : ℕ} {b : Bytes} (hfuel : b.length ≤ fuel) :
    b = encodeRecords (scanFuel fuel b).1 ++ (scanFuel fuel b).2 ∧
      (∀ r ∈ (scanFuel fuel b).1, LengthsFit r) ∧
      ∀ k v rest, nextRecord (scanFuel fuel b).2 ≠ .record k v rest := by
  induction fuel generalizing b with
  | zero =>
    obtain rfl := List.eq_nil_of_length_eq_zero (Nat.le_zero.mp hfuel)
    exact ⟨rfl, by simp [scanFuel], by simp [scanFuel]⟩
  | succ fuel ih =>
    -- the scan stops here, or takes a record whose encoding is what `b` starts with
    cases hnext : nextRecord b with
    | short => simp [scanFuel, hnext]
    | badChecksum => simp [scanFuel, hnext]
    | record key value rest =>
      obtain ⟨hb, hfit⟩ := encodeRecord_of_nextRecord hnext
      have hlt := length_lt_of_nextRecord hnext
      obtain ⟨hrest, hall, hend⟩ := ih (b := rest) (by omega)
      simp only [scanFuel, hnext]
      refine ⟨?_, ?_, hend⟩
      · rw [encodeRecords_cons, List.append_assoc, ← hrest]
        exact hb
      · intro r hr
        rcases List.mem_cons.mp hr with rfl | hr
        · exact hfit
        · exact hall r hr

theorem scanRecords_spec (b : Bytes) :
    b = encodeRecords (scanRecords b).1 ++ (scanRecords b).2 ∧
      (∀ r ∈ (scanRecords b).1, LengthsFit r) ∧
      ∀ k v rest, nextRecord (scanRecords b).2 ≠ .record k v rest := scanFuel_spec le_rfl

/-- Records in front of a byte string are read before what it starts with. -/
theorem scanRecords_append {rs : List (Bytes × Bytes)} (hfit : ∀ r ∈ rs, LengthsFit r)
    (b : Bytes) : scanRecords (encodeRecords rs ++ b) =
      (rs ++ (scanRecords b).1, (scanRecords b).2) := by
  obtain ⟨hb, hall, hend⟩ := scanRecords_spec b
  have hjoin : encodeRecords rs ++ b =
      encodeRecords (rs ++ (scanRecords b).1) ++ (scanRecords b).2 := by
    rw [encodeRecords_append, List.append_assoc, ← hb]
  rw [hjoin]
  refine scanRecords_encodeRecords (fun r hr => ?_) hend
  rcases List.mem_append.mp hr with hr | hr
  · exact hfit r hr
  · exact hall r hr

theorem scanRecords_cons {key value : Bytes} (hfit : LengthsFit (key, value)) (rest : Bytes) :
    scanRecords (encodeRecord key value ++ rest) =
      ((key, value) :: (scanRecords rest).1, (scanRecords rest).2) := by
  have h : ∀ r ∈ [(key, value)], LengthsFit r := by simpa using hfit
  rw [← encodeRecords_singleton, scanRecords_append h]
  rfl

theorem scanRecords_of_not_record {b : Bytes} (h : ∀ k v rest, nextRecord b ≠ .record k v rest) :
    scanRecords b = ([], b) := by
  have hnil : ∀ r ∈ ([] : List (Bytes × Bytes)), LengthsFit r := by simp
  exact scanRecords_encodeRecords hnil h

/-- Every prefix of a sequence of records is some of the records and a torn one. -/
theorem take_encodeRecords {rs : List (Bytes × Bytes)} (hfit : ∀ r ∈ rs, LengthsFit r) (n : ℕ) :
    ∃ j tail, (encodeRecords rs).take n = encodeRecords (rs.take j) ++ tail ∧
      nextRecord tail = .short := by
  induction rs generalizing n with
  | nil => exact ⟨0, [], by simp, rfl⟩
  | cons r rs ih =>
    obtain ⟨hk, hv⟩ := hfit r List.mem_cons_self
    rw [encodeRecords_cons, List.take_append]
    -- the cut is inside the first record, or behind it
    by_cases hn : n < (encodeRecord r.1 r.2).length
    · refine ⟨0, (encodeRecord r.1 r.2).take n, ?_, nextRecord_take_encodeRecord hk hv hn⟩
      simp [Nat.sub_eq_zero_of_le hn.le]
    · obtain ⟨j, tail, htake, hshort⟩ :=
        ih (fun r' hr' => hfit r' (List.mem_cons_of_mem _ hr')) (n - (encodeRecord r.1 r.2).length)
      refine ⟨j + 1, tail, ?_, hshort⟩
      rw [htake, List.take_of_length_le (by omega), List.take_succ_cons, encodeRecords_cons,
        List.append_assoc]

end Seol
