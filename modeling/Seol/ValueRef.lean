import Seol.Vlog.Log

/-!
# Stored values

Reference: `value_ref.go`. A value is stored in the tree as its own bytes, as a tombstone, or as a
reference into the value log in one of two layouts. The three are told apart by length and prefix
only: `resolveStoredValue` reads every byte string of the reserved shapes as what the shape says.
-/

namespace Seol

open Common Vlog

/-- `valueRefPrefix`: a zero byte, `seolvr` and a one byte. -/
def valueRefPrefix : Bytes := [0x00, 0x73, 0x65, 0x6f, 0x6c, 0x76, 0x72, 0x01]

/-- `tombstoneValue`: a zero byte, `seoltomb` and a one byte. -/
def tombstoneValue : Bytes := [0x00, 0x73, 0x65, 0x6f, 0x6c, 0x74, 0x6f, 0x6d, 0x62, 0x01]

/-- `compactEncodedValueRefSize`: the payload with a 32-bit offset. -/
def compactEncodedValueRefSize : ℕ := 8 + 4 + 4 + 4

/-- `vlog.EncodedValueRefSize`: the payload with a 64-bit offset. -/
def encodedValueRefSize : ℕ := 8 + 8 + 4 + 4

/-- `maxCompactValueRefOffset`. -/
def maxCompactValueRefOffset : ℕ := 2 ^ 32 - 1

/-- `encodeValueRef`: the compact layout where the offset fits 32 bits, else the long one. -/
def encodeValueRef (ref : ValueRef) : Bytes :=
  if ref.offset.toNat ≤ maxCompactValueRefOffset then
    valueRefPrefix ++ (leBytes 8 ref.segmentID.toNat ++ (leBytes 4 ref.offset.toNat ++
      (leBytes 4 ref.valueLen.toNat ++ leBytes 4 ref.checksum.toNat)))
  else
    valueRefPrefix ++ (leBytes 8 ref.segmentID.toNat ++ (leBytes 8 ref.offset.toNat ++
      (leBytes 4 ref.valueLen.toNat ++ leBytes 4 ref.checksum.toNat)))

/-- `decodeValueRef`; `none` is the result `ok = false`. The error result is never produced. -/
def decodeValueRef (data : Bytes) : Option ValueRef :=
  if data.length ≠ valueRefPrefix.length + compactEncodedValueRefSize ∧
      data.length ≠ valueRefPrefix.length + encodedValueRefSize then none
  else if data.take valueRefPrefix.length ≠ valueRefPrefix then none
  else
    let payload := data.drop valueRefPrefix.length
    if payload.length = compactEncodedValueRefSize then
      some ⟨UInt64.ofNat (leNat (slice payload 0 8)), UInt64.ofNat (leNat (slice payload 8 4)),
        UInt32.ofNat (leNat (slice payload 12 4)), UInt32.ofNat (leNat (slice payload 16 4))⟩
    else if payload.length = encodedValueRefSize then
      some ⟨UInt64.ofNat (leNat (slice payload 0 8)), UInt64.ofNat (leNat (slice payload 8 8)),
        UInt32.ofNat (leNat (slice payload 16 4)), UInt32.ofNat (leNat (slice payload 20 4))⟩
    else none

/-- `memtableEntrySize`. -/
def memtableEntrySize (key value : Bytes) : ℕ := key.length + value.length

/-- `isTombstoneValue`. -/
def isTombstoneValue (data : Bytes) : Bool := data = tombstoneValue

/-- The value log behind a store or a load failed. -/
inductive StoreError where
  | appendValueLog (e : LogError)
  | readValueLog (e : LogError)
deriving DecidableEq

/-- `storeValueForLSM`: what the tree stores for `value`, and the value log afterwards. `now` and
`fault` are the clock reading and the write outcome of the one append this may do. -/
def storeValueForLSM (log : Log) (valueThreshold : ℕ) (key value : Bytes) (now : UInt64)
    (fault : Option ℕ) : Except StoreError Bytes × Log :=
  if isTombstoneValue value then (.ok tombstoneValue, log)
  else if value.length ≤ valueThreshold then (.ok value, log)
  else
    match log.append key value now fault with
    | (.error e, log') => (.error (.appendValueLog e), log')
    | (.ok ref, log') => (.ok (encodeValueRef ref), log')

/-- `resolveStoredValue`: `none` is the result `deleted = true`, `some v` the value `v` with
`deleted = false`. `readStoredValue` maps a deleted entry to a nil value, which is `none` again. -/
def resolveStoredValue (log : Log) (stored : Bytes) : Except StoreError (Option Bytes) :=
  if isTombstoneValue stored then .ok none
  else match decodeValueRef stored with
    | none => .ok (some stored)
    | some ref =>
      match log.readValue ref with
      | .error e => .error (.readValueLog e)
      | .ok value => .ok (some value)

/-! ## The two layouts -/

/-- The tombstone is shorter than every reference. -/
@[simp] theorem decodeValueRef_tombstoneValue : decodeValueRef tombstoneValue = none := by decide

theorem length_encodeValueRef (ref : ValueRef) :
    (encodeValueRef ref).length = 28 ∨ (encodeValueRef ref).length = 32 := by
  simp only [encodeValueRef]
  split_ifs <;> simp [valueRefPrefix]

theorem isTombstoneValue_encodeValueRef (ref : ValueRef) :
    isTombstoneValue (encodeValueRef ref) = false := by
  simp only [isTombstoneValue, decide_eq_false_iff_not]
  intro heq
  have hlen := length_encodeValueRef ref
  rw [heq] at hlen
  revert hlen
  decide

/-- The fields of a payload with an offset of `w` bytes. -/
theorem payload_fields (w s o v c : ℕ) (hs : s < 256 ^ 8) (ho : o < 256 ^ w) (hv : v < 256 ^ 4)
    (hc : c < 256 ^ 4) :
    let payload := leBytes 8 s ++ (leBytes w o ++ (leBytes 4 v ++ leBytes 4 c))
    leNat (slice payload 0 8) = s ∧ leNat (slice payload 8 w) = o ∧
      leNat (slice payload (8 + w) 4) = v ∧ leNat (slice payload (8 + (w + 4)) 4) = c := by
  refine ⟨?_, ?_, ?_, ?_⟩
  · rw [slice_append_front _ _ 8 (by simp), leNat_leBytes_of_lt hs]
  · rw [slice_append_add _ _ 0 _ _ (by simp), slice_append_front _ _ w (by simp),
      leNat_leBytes_of_lt ho]
  · rw [slice_append_add _ _ w _ _ (by simp), slice_append_add _ _ 0 _ _ (by simp),
      slice_append_front _ _ 4 (by simp), leNat_leBytes_of_lt hv]
  · rw [slice_append_add _ _ (w + 4) _ _ (by simp), slice_append_add _ _ 4 _ _ (by simp),
      slice_append_right _ _ 4 4 (by simp), List.take_of_length_le (by simp),
      leNat_leBytes_of_lt hc]

/-- The long layout, which older versions wrote for every reference. -/
def longValueRef (ref : ValueRef) : Bytes :=
  valueRefPrefix ++ (leBytes 8 ref.segmentID.toNat ++ (leBytes 8 ref.offset.toNat ++
    (leBytes 4 ref.valueLen.toNat ++ leBytes 4 ref.checksum.toNat)))

/-- The long layout is decoded for every offset. -/
theorem decodeValueRef_longValueRef (ref : ValueRef) :
    decodeValueRef (longValueRef ref) = some ref := by
  obtain ⟨s, o, v, c⟩ := ref
  obtain ⟨h1, h2, h3, h4⟩ := payload_fields 8 s.toNat o.toNat v.toNat c.toNat s.toNat_lt o.toNat_lt
    v.toNat_lt c.toNat_lt
  simp only [longValueRef, decodeValueRef, List.length_append, length_leBytes, List.take_left,
    List.drop_left, compactEncodedValueRefSize, encodedValueRefSize, ne_eq, not_true_eq_false,
    if_false, if_true, and_false, Nat.reduceAdd, Nat.reduceEqDiff, h1, h2, h3, h4,
    UInt64.ofNat_toNat, UInt32.ofNat_toNat]

/-- **Decoding an encoded reference gives it back**, in both layouts. -/
theorem decodeValueRef_encodeValueRef (ref : ValueRef) :
    decodeValueRef (encodeValueRef ref) = some ref := by
  obtain ⟨s, o, v, c⟩ := ref
  have hs : s.toNat < 256 ^ 8 := s.toNat_lt
  have hv : v.toNat < 256 ^ 4 := v.toNat_lt
  have hc : c.toNat < 256 ^ 4 := c.toNat_lt
  by_cases ho : o.toNat ≤ maxCompactValueRefOffset
  · rw [encodeValueRef, if_pos ho]
    have ho4 : o.toNat < 256 ^ 4 := by
      simp only [maxCompactValueRefOffset] at ho
      omega
    obtain ⟨h1, h2, h3, h4⟩ := payload_fields 4 s.toNat o.toNat v.toNat c.toNat hs ho4 hv hc
    simp only [decodeValueRef, List.length_append, length_leBytes, List.take_left, List.drop_left,
      compactEncodedValueRefSize, ne_eq, not_true_eq_false, if_false, if_true, false_and,
      Nat.reduceAdd, h1, h2, h3, h4, UInt64.ofNat_toNat, UInt32.ofNat_toNat]
  · rw [encodeValueRef, if_neg ho]
    exact decodeValueRef_longValueRef ⟨s, o, v, c⟩

/-- Length and prefix decide whether bytes are read as a reference. -/
theorem isSome_decodeValueRef (data : Bytes) :
    (decodeValueRef data).isSome = true ↔
      data.take valueRefPrefix.length = valueRefPrefix ∧
        (data.length = valueRefPrefix.length + compactEncodedValueRefSize ∨
          data.length = valueRefPrefix.length + encodedValueRefSize) := by
  rw [decodeValueRef]
  by_cases hlen : data.length ≠ valueRefPrefix.length + compactEncodedValueRefSize ∧
      data.length ≠ valueRefPrefix.length + encodedValueRefSize
  · rw [if_pos hlen]
    simp [hlen.1, hlen.2]
  rw [if_neg hlen]
  by_cases hstart : data.take valueRefPrefix.length = valueRefPrefix
  swap
  · rw [if_pos hstart]
    simp [hstart]
  have hpayload : (data.drop valueRefPrefix.length).length = data.length - valueRefPrefix.length :=
    List.length_drop
  have hlens : data.length = valueRefPrefix.length + compactEncodedValueRefSize ∨
      data.length = valueRefPrefix.length + encodedValueRefSize := by
    by_contra hnot
    exact hlen (not_or.mp hnot)
  rw [if_neg (not_not.mpr hstart)]
  refine ⟨fun _ => ⟨hstart, hlens⟩, fun _ => ?_⟩
  simp only [hpayload]
  rcases hlens with hshort | hlong
  · rw [if_pos (by omega)]
    rfl
  · rw [if_neg (by rw [hlong]; decide), if_pos (by omega)]
    rfl

/-- **The reference codec.** Every reference is decoded from its encoding, and from the long layout; no
encoding is the tombstone; different references have different encodings; and the decoder accepts
exactly the bytes that start with the prefix and have one of the two lengths. -/
theorem valueRef_codec (ref : ValueRef) :
    decodeValueRef (encodeValueRef ref) = some ref ∧
    decodeValueRef (longValueRef ref) = some ref ∧
    encodeValueRef ref ≠ tombstoneValue ∧
    (∀ ref', encodeValueRef ref' = encodeValueRef ref → ref' = ref) ∧
    ∀ data, (∃ ref', decodeValueRef data = some ref') ↔
      data.take valueRefPrefix.length = valueRefPrefix ∧
        (data.length = valueRefPrefix.length + compactEncodedValueRefSize ∨
          data.length = valueRefPrefix.length + encodedValueRefSize) := by
  refine ⟨decodeValueRef_encodeValueRef ref, decodeValueRef_longValueRef ref, ?_, fun ref' heq => ?_,
    fun data => ?_⟩
  · have hnot := isTombstoneValue_encodeValueRef ref
    rwa [isTombstoneValue, decide_eq_false_iff_not] at hnot
  · have hdecode := decodeValueRef_encodeValueRef ref'
    rw [heq, decodeValueRef_encodeValueRef] at hdecode
    exact (Option.some.inj hdecode).symm
  · rw [← Option.isSome_iff_exists, isSome_decodeValueRef]

/-! ## What a stored value resolves to -/

/-- Resolving a stored reference reads the log at it. -/
theorem resolveStoredValue_encodeValueRef (log : Log) (ref : ValueRef) :
    resolveStoredValue log (encodeValueRef ref) =
      match log.readValue ref with
      | .error e => .error (.readValueLog e)
      | .ok value => .ok (some value) := by
  simp only [resolveStoredValue, isTombstoneValue_encodeValueRef, decodeValueRef_encodeValueRef,
    Bool.false_eq_true, if_false]

@[simp] theorem resolveStoredValue_tombstoneValue (log : Log) :
    resolveStoredValue log tombstoneValue = .ok none := by
  simp [resolveStoredValue, isTombstoneValue]

theorem storeValueForLSM_tombstoneValue (log : Log) (valueThreshold : ℕ) (key : Bytes)
    (now : UInt64) (fault : Option ℕ) :
    storeValueForLSM log valueThreshold key tombstoneValue now fault =
      (.ok tombstoneValue, log) := by
  simp [storeValueForLSM, isTombstoneValue]

/-- The ways `storeValueForLSM` succeeds. -/
theorem storeValueForLSM_cases {log log' : Log} {valueThreshold : ℕ} {key value stored : Bytes}
    {now : UInt64} {fault : Option ℕ}
    (h : storeValueForLSM log valueThreshold key value now fault = (.ok stored, log')) :
    (value = tombstoneValue ∧ stored = tombstoneValue ∧ log' = log) ∨
    (value ≠ tombstoneValue ∧ value.length ≤ valueThreshold ∧ stored = value ∧ log' = log) ∨
    (value ≠ tombstoneValue ∧ valueThreshold < value.length ∧ ∃ ref,
      log.append key value now fault = (.ok ref, log') ∧ stored = encodeValueRef ref) := by
  simp only [storeValueForLSM, isTombstoneValue, decide_eq_true_eq] at h
  split_ifs at h with htomb hle
  · simp only [Prod.mk.injEq, Except.ok.injEq] at h
    exact Or.inl ⟨htomb, h.1.symm, h.2.symm⟩
  · simp only [Prod.mk.injEq, Except.ok.injEq] at h
    exact Or.inr (Or.inl ⟨htomb, hle, h.1.symm, h.2.symm⟩)
  · cases happ : log.append key value now fault with
    | mk res l =>
      cases res with
      | error e => simp [happ] at h
      | ok ref =>
        simp only [happ, Prod.mk.injEq, Except.ok.injEq] at h
        obtain ⟨rfl, rfl⟩ := h
        exact Or.inr (Or.inr ⟨htomb, by omega, ref, rfl, rfl⟩)

/-! ## Transparency of the encoding -/

/-- Whatever `Put` stores for `value` under a key of `keyLen` bytes resolves to `value`, with the log
the append left behind and with every log that further appends make of it. -/
def Transparent (keyLen valueThreshold : ℕ) (value : Bytes) : Prop :=
  ∀ (key : Bytes) (log log' : Log) (now : UInt64) (fault : Option ℕ) (stored : Bytes),
    key.length = keyLen →
    storeValueForLSM log valueThreshold key value now fault = (.ok stored, log') →
    ∀ calls : List Log.AppendCall,
      resolveStoredValue (log'.appends calls) stored = .ok (some value)

/-- The values the encoding carries faithfully: not the tombstone, not an inline value that decodes
as a reference, and when logged (in a record that a file can hold at all) of a length that the
record's 32-bit fields hold, like the key. -/
structure Carried (keyLen valueThreshold : ℕ) (value : Bytes) : Prop where
  not_tombstone : value ≠ tombstoneValue
  not_reference : value.length ≤ valueThreshold → decodeValueRef value = none
  lengths_fit : valueThreshold < value.length →
    recordHeaderSize + (keyLen + value.length) < 2 ^ 63 → keyLen < 2 ^ 32 ∧ value.length < 2 ^ 32

theorem Carried.transparent {keyLen valueThreshold : ℕ} {value : Bytes}
    (h : Carried keyLen valueThreshold value) : Transparent keyLen valueThreshold value := by
  intro key log log' now fault stored hkey hstore calls
  rcases storeValueForLSM_cases hstore with ⟨htomb, -⟩ | ⟨-, hle, rfl, -⟩ | ⟨-, hlt, ref, happ, rfl⟩
  · exact absurd htomb h.not_tombstone
  · simp [resolveStoredValue, isTombstoneValue, h.not_tombstone, h.not_reference hle]
  · obtain ⟨hst, hopen⟩ := Log.append_stored happ
    obtain ⟨hk, hv⟩ := h.lengths_fit hlt (hkey ▸ Log.length_lt_of_append happ)
    rw [resolveStoredValue_encodeValueRef,
      (hst.appends calls).readValue (by simpa using hopen) (by omega) hv]

/-- A log without the segment `id`. -/
theorem exists_log_without (id : UInt64) : ∃ log : Log, log.files.get id = none := by
  refine ⟨Log.openEmpty 1 (id + 1), ?_⟩
  simp only [Log.openEmpty, OrdMap.get_insert, OrdMap.get_empty, ite_eq_right_iff, reduceCtorEq,
    imp_false, nextSegmentID]
  split_ifs with hwrap
  · rintro rfl
    exact absurd hwrap (by decide)
  · simp

/-- A key that a logged record of `value` cannot be read back under: too long for its length field,
and without the value's first byte. -/
theorem not_readValue_of_long_key {b c : UInt8} {vs : Bytes} (hbc : b ≠ c) {keyLen : ℕ}
    (hlong : 2 ^ 32 ≤ keyLen) (hv : (c :: vs).length < 2 ^ 32) {log : Log} {id : UInt64} {sum : UInt32}
    (hfile : log.files.get id = some (encodeRecord (List.replicate keyLen b) (c :: vs))) :
    log.readValue ⟨id, 0, UInt32.ofNat (c :: vs).length, sum⟩ ≠ .ok (c :: vs) := by
  intro hread
  obtain ⟨f, hf, hr⟩ := Log.readValue_eq_ok hread
  obtain rfl : encodeRecord (List.replicate keyLen b) (c :: vs) = f := by
    rw [hfile] at hf
    exact Option.some.inj hf
  have hkl : headerKeyLen (slice (encodeRecord (List.replicate keyLen b) (c :: vs)) 0
      recordHeaderSize) = keyLen % 2 ^ 32 := by
    rw [encodeRecord, slice_append_front _ _ _ (length_recordHeader _ _).symm,
      ← List.append_nil (recordHeader _ _), headerKeyLen_recordHeader, List.length_replicate]
  have hlen : (UInt32.ofNat (c :: vs).length).toNat = (c :: vs).length := by
    rw [UInt32.toNat_ofNat', Nat.mod_eq_of_lt hv]
  simp only [UInt64.toNat_zero, Nat.zero_add, hkl, hlen] at hr
  -- the truncated key length points into the key itself, past which only copies of `b` lie
  have hin : recordHeaderSize + keyLen % 2 ^ 32 + (c :: vs).length ≤
      (encodeRecord (List.replicate keyLen b) (c :: vs)).length := by
    rw [length_encodeRecord, List.length_replicate]
    omega
  rw [readAt_eq_slice hin, encodeRecord, slice_append_add _ _ (keyLen % 2 ^ 32) _ _ (by simp),
    slice_append_left (by rw [List.length_replicate]; omega)] at hr
  have hhead := Option.some.inj hr
  rw [slice, List.drop_replicate, List.take_replicate] at hhead
  have hmem : c ∈ List.replicate (min (c :: vs).length (keyLen - keyLen % 2 ^ 32)) b := by
    rw [hhead]
    exact List.mem_cons_self
  exact hbc (List.eq_of_mem_replicate hmem).symm

/-- A byte different from `c`. -/
theorem exists_byte_ne (c : UInt8) : ∃ b : UInt8, b ≠ c := ⟨c + 1, by simp⟩

theorem Transparent.carried {keyLen valueThreshold : ℕ} {value : Bytes}
    (h : Transparent keyLen valueThreshold value) : Carried keyLen valueThreshold value := by
  have htomb : value ≠ tombstoneValue := by
    rintro rfl
    have := h (List.replicate keyLen 0) (Log.openEmpty 1 0) _ 0 none _ (by simp)
      (storeValueForLSM_tombstoneValue _ _ _ _ _) []
    simp at this
  have htombD : isTombstoneValue value = false := by simpa [isTombstoneValue] using htomb
  refine ⟨htomb, fun hle => ?_, fun hlt hsize => ?_⟩
  · -- an inline value that decodes as a reference is looked up, and some log does not have it
    cases hdec : decodeValueRef value with
    | none => rfl
    | some ref =>
      obtain ⟨log, hlog⟩ := exists_log_without ref.segmentID
      have hres := h (List.replicate keyLen 0) log log 0 none value (by simp)
        (by simp [storeValueForLSM, htombD, hle]) []
      have hread : ∃ e, log.readValue ref = .error e := by
        cases hc : log.closed <;> simp [Log.readValue, hc, hlog]
      obtain ⟨e, he⟩ := hread
      simp [resolveStoredValue, htombD, hdec, Log.appends, he] at hres
  · -- a logged value is read back from a fresh log, at the length its header keeps
    have hread : ∀ key : Bytes, key.length = keyLen → ∃ log : Log, ∃ id,
        log.files.get id = some (encodeRecord key value) ∧
        log.readValue ⟨id, 0, UInt32.ofNat value.length, checksumIEEE value⟩ = .ok value := by
      intro key hkey
      obtain ⟨log, happ, hfile⟩ := Log.append_openEmpty 1 0 0 (k := key) (v := value)
        (by omega)
      have hres := h key (Log.openEmpty 1 0) log 0 none _ hkey
        (by simp [storeValueForLSM, htombD, Nat.not_le.mpr hlt, happ]; rfl) []
      rw [resolveStoredValue_encodeValueRef] at hres
      refine ⟨log, _, hfile, ?_⟩
      simp only [Log.appends, List.foldl_nil] at hres
      split at hres
      · simp at hres
      · next w hw => rw [hw, Option.some.inj (Except.ok.inj hres)]
    have hv : value.length < 2 ^ 32 := by
      obtain ⟨log, id, -, hok⟩ := hread (List.replicate keyLen 0) (by simp)
      have hlen := Log.length_of_readValue hok
      rw [UInt32.toNat_ofNat'] at hlen
      omega
    refine ⟨?_, hv⟩
    by_contra hlong
    cases value with
    | nil => simp at hlt
    | cons c vs =>
      obtain ⟨b, hb⟩ := exists_byte_ne c
      obtain ⟨log, id, hfile, hok⟩ := hread (List.replicate keyLen b) (by simp)
      exact not_readValue_of_long_key hb (by omega) hv hfile hok

/-- **Exactly which values are stored transparently.** `Delete` always resolves to deleted, and
`Put` resolves to its value, for every key of the given length and every log, if and only if the
value is `Carried`. -/
theorem storeValueForLSM_transparent_iff (keyLen valueThreshold : ℕ) (value : Bytes) :
    (∀ (key : Bytes) (log log' log'' : Log) (now : UInt64) (fault : Option ℕ) (stored : Bytes),
      storeValueForLSM log valueThreshold key tombstoneValue now fault = (.ok stored, log') →
      resolveStoredValue log'' stored = .ok none) ∧
    (Transparent keyLen valueThreshold value ↔ Carried keyLen valueThreshold value) := by
  refine ⟨fun key log log' log'' now fault stored hstore => ?_, Transparent.carried,
    Carried.transparent⟩
  rw [storeValueForLSM_tombstoneValue] at hstore
  simp only [Prod.mk.injEq, Except.ok.injEq] at hstore
  rw [← hstore.1, resolveStoredValue_tombstoneValue]

/-- A `Put` of the tombstone bytes reads back as deleted, and a `Put` of 28 bytes in the shape of a
compact reference cannot be read back at all. -/
theorem put_reserved_value_not_resolved :
    storeValueForLSM (Log.openEmpty 4096 1) 2048 [0x6b] tombstoneValue 2 none =
        (.ok tombstoneValue, Log.openEmpty 4096 1) ∧
      resolveStoredValue (Log.openEmpty 4096 1) tombstoneValue = .ok none ∧
      storeValueForLSM (Log.openEmpty 4096 1) 2048 [0x6b] (valueRefPrefix ++ List.replicate 20 0) 2
        none = (.ok (valueRefPrefix ++ List.replicate 20 0), Log.openEmpty 4096 1) ∧
      resolveStoredValue (Log.openEmpty 4096 1) (valueRefPrefix ++ List.replicate 20 0) =
        .error (.readValueLog .unknownSegment) := by
  exact ⟨rfl, rfl, rfl, rfl⟩

end Seol
