import Seol.Common.Checked
import Seol.Common.OrdMap
import Seol.Record

/-!
# The value log

Reference: `vlog/vlog.go`. A log is a set of append-only segments keyed by id, the last of which is
active. `Log.append` may rotate to a fresh segment first; `Log.readValue` streams the key through a
256-byte scratch while it checks the record. The directory of a log and its table of open files hold
the same segments, so one map models both.
-/

namespace Seol.Vlog

open Common

/-- `ValueRef` points at a value stored inside a value-log segment. -/
structure ValueRef where
  segmentID : UInt64
  offset : UInt64
  valueLen : UInt32
  checksum : UInt32
deriving DecidableEq

/-- The active segment: its id and the offset of the next record. -/
structure Segment where
  id : UInt64
  size : ℕ
deriving DecidableEq

/-- An open value log. The active segment is always one of the open files. -/
structure Log where
  segmentMaxBytes : ℕ
  active : Segment
  files : OrdMap UInt64 Bytes
  closed : Bool
  active_open : (files.get active.id).isSome

/-- The errors of the log's operations. -/
inductive LogError where
  | recordTooLarge
  | closed
  | segmentExists
  | fileTooLarge
  | writeFailed
  | unknownSegment
  | negativeOffset
  | invalidArgument
  | eof
  | valueLengthMismatch
  | checksumMismatch
  | valueChecksumMismatch
  | invalidTail
deriving DecidableEq

/-- Segment ids follow the clock and never repeat the last one; the increment is a `uint64` one. -/
def nextSegmentID (lastID now : UInt64) : UInt64 := if now ≤ lastID then lastID + 1 else now

namespace Log

/-- The bytes of the active segment. -/
def activeFile (l : Log) : Bytes := (l.files.get l.active.id).get l.active_open

/-- `rotateSegmentLocked`: create the next segment with `O_EXCL` and make it active. -/
def rotateSegmentLocked (l : Log) (lastID now : UInt64) : Except LogError Log :=
  let id := nextSegmentID lastID now
  if (l.files.get id).isSome then .error .segmentExists
  else .ok { l with
    active := ⟨id, 0⟩
    files := l.files.insert id []
    active_open := by simp [OrdMap.get_insert] }

/-- The write of one record at the end of the active segment. With `fault = some n` the call of
`WriteAt` fails after `n` bytes of the record went to the file. `os.File.WriteAt` counts the bytes of
its system calls only when they succeed, so it returns zero with the error and the size stays what it
was. File offsets are `int64`. -/
def writeRecord (l : Log) (key value : Bytes) (fault : Option ℕ) : Except LogError ValueRef × Log :=
  let record := encodeRecord key value
  let offset := l.active.size
  if 2 ^ 63 ≤ offset + record.length then (.error .fileTooLarge, l)
  else
    let data := record.take (fault.getD record.length)
    let n := if fault.isSome then 0 else record.length
    let l' : Log := { l with
      active := ⟨l.active.id, offset + n⟩
      files := l.files.insert l.active.id (writeAt l.activeFile offset data)
      active_open := by simp [OrdMap.get_insert] }
    match fault with
    | some _ => (.error .writeFailed, l')
    | none => (.ok ⟨l.active.id, UInt64.ofNat offset, UInt32.ofNat value.length,
        checksumIEEE value⟩, l')

/-- `Log.Append` at clock reading `now`: the overflow check on the record size, the rotation when a
non-empty active segment would pass its limit, and the write. -/
def append (l : Log) (key value : Bytes) (now : UInt64) (fault : Option ℕ) :
    Except LogError ValueRef × Log :=
  let recordSize := recordHeaderSize + (key.length + value.length)
  if recordSize % 2 ^ 64 < (key.length + value.length) % 2 ^ 64 then (.error .recordTooLarge, l)
  else if l.closed then (.error .closed, l)
  else if 0 < l.active.size ∧ l.segmentMaxBytes < l.active.size + recordSize then
    match l.rotateSegmentLocked l.active.id now with
    | .error e => (.error e, l)
    | .ok l' => l'.writeRecord key value fault
  else l.writeRecord key value fault

/-- The error of a read that goes past the end of the file: the end, or an argument that the system
refuses. -/
def readError (offset n : ℕ) : LogError := if ReadRefused offset n then .invalidArgument else .eof

/-- The checksum loop of `ReadValue` over `remaining` key bytes, 256 at a time. Every round consumes a
byte, so the key length is fuel enough. -/
def checksumKey (f : Bytes) : ℕ → ℕ → ℕ → UInt32 → Except LogError UInt32
  | 0, offset, remaining, crc => if remaining = 0 then .ok crc else .error (readError offset remaining)
  | fuel + 1, offset, remaining, crc =>
    if remaining = 0 then .ok crc
    else
      let chunk := min 256 remaining
      match readAt f offset chunk with
      | none => .error (readError offset chunk)
      | some b => checksumKey f fuel (offset + chunk) (remaining - chunk) (crc32Update crc b)

/-- `Log.ReadValue`. -/
def readValue (l : Log) (ref : ValueRef) : Except LogError Bytes :=
  if l.closed then .error .closed
  else match l.files.get ref.segmentID with
    | none => .error .unknownSegment
    | some f =>
      if 2 ^ 63 ≤ ref.offset.toNat then .error .negativeOffset
      else match readAt f ref.offset.toNat recordHeaderSize with
        | none => .error (readError ref.offset.toNat recordHeaderSize)
        | some header =>
          if headerValueLen header ≠ ref.valueLen.toNat then .error .valueLengthMismatch
          else
            let offset := ref.offset.toNat + recordHeaderSize
            match checksumKey f (headerKeyLen header) offset (headerKeyLen header)
                (crc32Update 0 (header.drop 4)) with
            | .error e => .error e
            | .ok crc =>
              match readAt f (offset + headerKeyLen header) (headerValueLen header) with
              | none => .error (readError (offset + headerKeyLen header) (headerValueLen header))
              | some value =>
                if (crc32Update crc value).toNat ≠ headerChecksum header then
                  .error .checksumMismatch
                else if checksumIEEE value ≠ ref.checksum then .error .valueChecksumMismatch
                else .ok value

/-- `Log.ReadRecord`: the key and the value of a record, read as one payload. -/
def readRecord (l : Log) (ref : ValueRef) : Except LogError (Bytes × Bytes) :=
  if l.closed then .error .closed
  else match l.files.get ref.segmentID with
    | none => .error .unknownSegment
    | some f =>
      if 2 ^ 63 ≤ ref.offset.toNat then .error .negativeOffset
      else match readAt f ref.offset.toNat recordHeaderSize with
        | none => .error (readError ref.offset.toNat recordHeaderSize)
        | some header =>
          if headerValueLen header ≠ ref.valueLen.toNat then .error .valueLengthMismatch
          else
            match readAt f (ref.offset.toNat + recordHeaderSize)
                (headerKeyLen header + headerValueLen header) with
            | none => .error (readError (ref.offset.toNat + recordHeaderSize)
                (headerKeyLen header + headerValueLen header))
            | some payload =>
              if (checksumIEEE (header.drop 4 ++ payload)).toNat ≠ headerChecksum header then
                .error .checksumMismatch
              else if checksumIEEE (payload.drop (headerKeyLen header)) ≠ ref.checksum then
                .error .valueChecksumMismatch
              else .ok (payload.take (headerKeyLen header), payload.drop (headerKeyLen header))

/-- `openEmpty`: a log over a directory without segments, opened at clock reading `now`. -/
def openEmpty (segmentMaxBytes : ℕ) (now : UInt64) : Log where
  segmentMaxBytes := segmentMaxBytes
  active := ⟨nextSegmentID 0 now, 0⟩
  files := OrdMap.empty.insert (nextSegmentID 0 now) []
  closed := false
  active_open := by simp [OrdMap.get_insert]

/-- One call of `Append` with everything it depends on besides the log. -/
structure AppendCall where
  key : Bytes
  value : Bytes
  now : UInt64
  fault : Option ℕ

/-- The log after a sequence of `Append` calls, successful or not. -/
def appends (l : Log) (calls : List AppendCall) : Log :=
  calls.foldl (fun l c => (l.append c.key c.value c.now c.fault).2) l

end Log

/-! ## Reading a stored record -/

/-- The record of `key` and `value` lies in the segment `ref` names, where no later append writes. -/
structure Stored (l : Log) (ref : ValueRef) (key value : Bytes) : Prop where
  file : ∃ f, l.files.get ref.segmentID = some f ∧
    ref.offset.toNat + (encodeRecord key value).length ≤ f.length ∧
    slice f ref.offset.toNat (encodeRecord key value).length = encodeRecord key value
  sealed : l.active.id = ref.segmentID →
    ref.offset.toNat + (encodeRecord key value).length ≤ l.active.size
  offset_lt : ref.offset.toNat < 2 ^ 63
  valueLen_eq : ref.valueLen = UInt32.ofNat value.length
  checksum_eq : ref.checksum = checksumIEEE value

/-- The chunked loop reads the key as one read would, and computes its checksum. Only the error of a
key that is not all in the file may be another one. -/
theorem checksumKey_toOption (f : Bytes) (fuel offset remaining : ℕ) (crc : UInt32)
    (hfuel : remaining ≤ fuel) :
    (Log.checksumKey f fuel offset remaining crc).toOption =
      (readAt f offset remaining).map (crc32Update crc) := by
  induction fuel generalizing offset remaining crc with
  | zero =>
    obtain rfl : remaining = 0 := by omega
    simp [Log.checksumKey, readAt, Except.toOption]
  | succ fuel ih =>
    simp only [Log.checksumKey]
    by_cases hzero : remaining = 0
    · simp [hzero, readAt, Except.toOption]
    · rw [if_neg hzero]
      -- the rest of the key is what one read of both pieces finds after the first chunk
      have hsplit : remaining = min 256 remaining + (remaining - min 256 remaining) := by omega
      have hread := readAt_add f offset (min 256 remaining) (remaining - min 256 remaining)
      rw [← hsplit] at hread
      rw [hread]
      cases readAt f offset (min 256 remaining) with
      | none => rfl
      | some b =>
        dsimp only [Option.bind_some]
        rw [ih _ _ _ (by omega), Option.map_map]
        congr 1
        funext rest
        exact (crc32Update_append crc b rest).symm

/-- **The two readers agree**: `ReadValue` returns what `ReadRecord` returns, without the key, and
fails where it fails. -/
theorem Log.readValue_toOption (l : Log) (ref : ValueRef) :
    (l.readValue ref).toOption = (l.readRecord ref).toOption.map Prod.snd := by
  rw [Log.readValue, Log.readRecord]
  by_cases hclosed : l.closed = true
  · simp only [hclosed, if_true]
    rfl
  rw [if_neg hclosed, if_neg hclosed]
  cases l.files.get ref.segmentID with
  | none => rfl
  | some f =>
    dsimp only
    by_cases hneg : 2 ^ 63 ≤ ref.offset.toNat
    · rw [if_pos hneg, if_pos hneg]
      rfl
    rw [if_neg hneg, if_neg hneg]
    cases readAt f ref.offset.toNat recordHeaderSize with
    | none => rfl
    | some header =>
      dsimp only
      by_cases hlen : headerValueLen header ≠ ref.valueLen.toNat
      · rw [if_pos hlen, if_pos hlen]
        rfl
      rw [if_neg hlen, if_neg hlen, readAt_add]
      have hchecksum := checksumKey_toOption f (headerKeyLen header)
        (ref.offset.toNat + recordHeaderSize) (headerKeyLen header) (crc32Update 0 (header.drop 4)) le_rfl
      cases hkey : readAt f (ref.offset.toNat + recordHeaderSize) (headerKeyLen header) with
      | none =>
        -- both fail, the loop possibly at a later chunk
        rw [hkey, Option.map_none] at hchecksum
        cases hloop : Log.checksumKey f (headerKeyLen header) (ref.offset.toNat + recordHeaderSize)
            (headerKeyLen header) (crc32Update 0 (header.drop 4)) with
        | error e => rfl
        | ok crc => simp [hloop, Except.toOption] at hchecksum
      | some key =>
        rw [hkey, Option.map_some] at hchecksum
        cases hloop : Log.checksumKey f (headerKeyLen header) (ref.offset.toNat + recordHeaderSize)
            (headerKeyLen header) (crc32Update 0 (header.drop 4)) with
        | error e => simp [hloop, Except.toOption] at hchecksum
        | ok crc =>
          rw [hloop] at hchecksum
          obtain rfl := Option.some.inj hchecksum
          dsimp only [Option.bind_some]
          cases readAt f (ref.offset.toNat + recordHeaderSize + headerKeyLen header)
              (headerValueLen header) with
          | none => rfl
          | some value =>
            dsimp only [Option.map_some]
            -- both checksums are over the same bytes, and the payload splits after the key
            have hkeyLen : key.length = headerKeyLen header := length_of_readAt hkey
            rw [← crc32Update_append, ← crc32Update_append, ← checksumIEEE, ← hkeyLen,
              List.drop_left, List.take_left]
            by_cases hcrc : (checksumIEEE (header.drop 4 ++ (key ++ value))).toNat ≠
                headerChecksum header
            · rw [if_pos hcrc, if_pos hcrc]
              rfl
            rw [if_neg hcrc, if_neg hcrc]
            by_cases hval : checksumIEEE value ≠ ref.checksum
            · rw [if_pos hval, if_pos hval]
              rfl
            · rw [if_neg hval, if_neg hval]
              rfl

/-- The parts of a stored record, as the readers fetch them. -/
theorem Stored.parts {l : Log} {ref : ValueRef} {key value : Bytes} (h : Stored l ref key value) :
    ∃ f, l.files.get ref.segmentID = some f ∧
      ref.offset.toNat + recordHeaderSize + key.length + value.length ≤ f.length ∧
      slice f ref.offset.toNat recordHeaderSize = recordHeader key value ++ [] ∧
      slice f (ref.offset.toNat + recordHeaderSize) key.length = key ∧
      slice f (ref.offset.toNat + recordHeaderSize + key.length) value.length = value := by
  obtain ⟨f, hf, hend, hrec⟩ := h.file
  have hlen := length_encodeRecord key value
  -- every part of the record is the same part of the file, shifted by the reference's offset
  have hpart : ∀ o n, o + n ≤ (encodeRecord key value).length →
      slice f (ref.offset.toNat + o) n = slice (encodeRecord key value) o n := by
    intro o n hon
    rw [← hrec, slice_slice hon]
  refine ⟨f, hf, by omega, ?_, ?_, ?_⟩
  · refine (hpart 0 recordHeaderSize (by omega)).trans ?_
    rw [List.append_nil]
    exact slice_append_front _ _ _ (length_recordHeader key value).symm
  · rw [hpart _ _ (by omega)]
    exact slice_append_mid _ _ _ _ _ (length_recordHeader key value).symm rfl
  · rw [Nat.add_assoc, hpart _ _ (by omega), encodeRecord, ← List.append_assoc,
      slice_append_right _ _ _ _ (by simp), List.take_length]

/-- The bytes the checksum covers, as the readers collect them. -/
theorem recordBody_eq (key value : Bytes) :
    (recordHeader key value ++ []).drop 4 ++ (key ++ value) = recordBody key value := by
  have hdrop : (recordHeader key value ++ []).drop 4 =
      leBytes 4 key.length ++ leBytes 4 value.length := by
    rw [recordHeader, List.append_nil]
    exact List.drop_left' (by simp)
  rw [hdrop, recordBody]

/-- **A stored record is read back whole**, with its key. -/
theorem Stored.readRecord {l : Log} {ref : ValueRef} {key value : Bytes}
    (h : Stored l ref key value) (hopen : l.closed = false) (hk : key.length < 2 ^ 32)
    (hv : value.length < 2 ^ 32) : l.readRecord ref = .ok (key, value) := by
  obtain ⟨f, hf, hend, hheader, hkey, hvalue⟩ := h.parts
  have hmod : (UInt32.ofNat value.length).toNat = value.length := by
    rw [UInt32.toNat_ofNat', Nat.mod_eq_of_lt hv]
  have hpayload : slice f (ref.offset.toNat + recordHeaderSize) (key.length + value.length) =
      key ++ value := by
    rw [slice_add, hkey, hvalue]
  simp only [Log.readRecord, hopen, hf, Bool.false_eq_true, if_false]
  rw [if_neg (by have := h.offset_lt; omega), readAt_eq_slice (by omega), hheader]
  dsimp only
  rw [headerKeyLen_recordHeader, headerValueLen_recordHeader, Nat.mod_eq_of_lt hk,
    Nat.mod_eq_of_lt hv, h.valueLen_eq, hmod, if_neg (by simp), readAt_eq_slice (by omega),
    hpayload]
  dsimp only
  rw [recordBody_eq, headerChecksum_recordHeader, if_neg (by simp), List.drop_left, h.checksum_eq,
    if_neg (by simp), List.take_left]

/-- **A stored record is read back** by the streaming reader. -/
theorem Stored.readValue {l : Log} {ref : ValueRef} {key value : Bytes} (h : Stored l ref key value)
    (hopen : l.closed = false) (hk : key.length < 2 ^ 32) (hv : value.length < 2 ^ 32) :
    l.readValue ref = .ok value := by
  rw [← toOption_eq_some_iff, l.readValue_toOption, h.readRecord hopen hk hv]
  rfl

/-- **Reading the value is reading the record**: for every content of the segments and every
reference, `ReadValue` returns `value` exactly when `ReadRecord` returns a record with it. -/
theorem Log.readValue_agrees (l : Log) (ref : ValueRef) (value : Bytes) :
    l.readValue ref = .ok value ↔ ∃ key, l.readRecord ref = .ok (key, value) := by
  rw [← toOption_eq_some_iff, l.readValue_toOption, Option.map_eq_some_iff]
  constructor
  · rintro ⟨⟨key, v⟩, hr, rfl⟩
    exact ⟨key, toOption_eq_some_iff.mp hr⟩
  · rintro ⟨key, hr⟩
    exact ⟨(key, value), toOption_eq_some_iff.mpr hr, rfl⟩

/-- A value that is read has the length the reference names and lies after the key bytes that the
header counts. -/
theorem Log.readValue_eq_ok {l : Log} {ref : ValueRef} {w : Bytes} (h : l.readValue ref = .ok w) :
    ∃ f, l.files.get ref.segmentID = some f ∧
      readAt f (ref.offset.toNat + recordHeaderSize +
        headerKeyLen (slice f ref.offset.toNat recordHeaderSize)) ref.valueLen.toNat = some w := by
  rw [Log.readValue] at h
  by_cases hclosed : l.closed = true
  · simp [hclosed] at h
  rw [if_neg hclosed] at h
  cases hf : l.files.get ref.segmentID with
  | none => simp [hf] at h
  | some f =>
    simp only [hf] at h
    split_ifs at h with hneg
    cases hh : readAt f ref.offset.toNat recordHeaderSize with
    | none => simp [hh] at h
    | some header =>
      have hslice : header = slice f ref.offset.toNat recordHeaderSize := by
        rw [readAt, if_neg (by decide)] at hh
        split_ifs at hh
        exact (Option.some.inj hh).symm
      simp only [hh] at h
      -- the length of the header is the one of the reference, or the read fails
      by_cases hlen : headerValueLen header = ref.valueLen.toNat
      · rw [if_neg (not_not.mpr hlen)] at h
        split at h
        · simp at h
        · split at h
          · simp at h
          · next value hv =>
            split_ifs at h with hcrc hval
            obtain rfl := Except.ok.inj h
            exact ⟨f, rfl, by rw [← hslice, ← hv, hlen]⟩
      · simp [hlen] at h

theorem Log.length_of_readValue {l : Log} {ref : ValueRef} {w : Bytes}
    (h : l.readValue ref = .ok w) : w.length = ref.valueLen.toNat := by
  obtain ⟨f, -, hr⟩ := Log.readValue_eq_ok h
  exact length_of_readAt hr

/-! ## Appends keep what is stored -/

theorem Log.get_activeFile (l : Log) : l.files.get l.active.id = some l.activeFile := by
  simp [Log.activeFile]

/-- A successful rotation opens a segment that was not there and touches no other. -/
theorem Stored.rotate {l l' : Log} {ref : ValueRef} {key value : Bytes} {lastID now : UInt64}
    (h : Stored l ref key value) (hr : l.rotateSegmentLocked lastID now = .ok l') :
    Stored l' ref key value := by
  simp only [Log.rotateSegmentLocked] at hr
  split_ifs at hr with hex
  obtain rfl := Except.ok.inj hr
  obtain ⟨f, hf, hin⟩ := h.file
  have hne : nextSegmentID lastID now ≠ ref.segmentID := by
    intro heq
    rw [heq, hf] at hex
    simp at hex
  refine ⟨⟨f, ?_, hin⟩, fun heq => absurd heq hne, h.offset_lt, h.valueLen_eq, h.checksum_eq⟩
  rw [OrdMap.get_insert, if_neg hne, hf]

/-- A write at the end of the active segment, whole or partial, keeps earlier records. -/
theorem Stored.writeRecord {l : Log} {ref : ValueRef} {key value : Bytes}
    (h : Stored l ref key value) (k v : Bytes) (fault : Option ℕ) :
    Stored (l.writeRecord k v fault).2 ref key value := by
  simp only [Log.writeRecord]
  by_cases hbig : 2 ^ 63 ≤ l.active.size + (encodeRecord k v).length
  · rw [if_pos hbig]
    exact h
  · rw [if_neg hbig]
    obtain ⟨f, hf, hend, hrec⟩ := h.file
    suffices hs : Stored { l with
        active := ⟨l.active.id, l.active.size +
          if fault.isSome then 0 else (encodeRecord k v).length⟩
        files := l.files.insert l.active.id (writeAt l.activeFile l.active.size
          ((encodeRecord k v).take (fault.getD (encodeRecord k v).length)))
        active_open := by simp [OrdMap.get_insert] } ref key value by
      cases fault <;> exact hs
    -- the record lies in front of the end, where the write starts, or in another segment
    by_cases hid : l.active.id = ref.segmentID
    · have hle := h.sealed hid
      have hfile : l.activeFile = f := by
        have := l.get_activeFile
        rw [hid, hf] at this
        exact (Option.some.inj this).symm
      refine ⟨⟨_, by rw [OrdMap.get_insert, if_pos hid], ?_, ?_⟩, fun _ => ?_, h.offset_lt,
        h.valueLen_eq, h.checksum_eq⟩
      · rw [hfile]
        by_cases hd : (encodeRecord k v).take (fault.getD (encodeRecord k v).length) = []
        · rw [hd]
          simpa [writeAt] using hend
        · rw [length_writeAt _ _ _ hd]
          omega
      · rw [hfile, slice_writeAt_of_le hend hle, hrec]
      · exact hle.trans (Nat.le_add_right _ _)
    · refine ⟨⟨f, ?_, hend, hrec⟩, fun heq => absurd heq hid, h.offset_lt, h.valueLen_eq,
        h.checksum_eq⟩
      rw [OrdMap.get_insert, if_neg hid, hf]

theorem Stored.append {l : Log} {ref : ValueRef} {key value : Bytes} (h : Stored l ref key value)
    (k v : Bytes) (now : UInt64) (fault : Option ℕ) :
    Stored (l.append k v now fault).2 ref key value := by
  simp only [Log.append]
  split_ifs with h1 h2 h3
  · exact h
  · exact h
  · cases hr : l.rotateSegmentLocked l.active.id now with
    | error e => exact h
    | ok l' => exact (h.rotate hr).writeRecord k v fault
  · exact h.writeRecord k v fault

/-- No sequence of appends, failed ones included, disturbs a stored record. -/
theorem Stored.appends {l : Log} {ref : ValueRef} {key value : Bytes} (h : Stored l ref key value)
    (calls : List Log.AppendCall) : Stored (l.appends calls) ref key value := by
  induction calls generalizing l with
  | nil => exact h
  | cons c calls ih => exact ih (h.append c.key c.value c.now c.fault)

theorem Log.writeRecord_closed (l : Log) (k v : Bytes) (fault : Option ℕ) :
    (l.writeRecord k v fault).2.closed = l.closed := by
  cases fault <;> simp only [Log.writeRecord] <;> split_ifs <;> rfl

theorem Log.rotateSegmentLocked_closed {l l' : Log} {lastID now : UInt64}
    (h : l.rotateSegmentLocked lastID now = .ok l') : l'.closed = l.closed := by
  simp only [Log.rotateSegmentLocked] at h
  split_ifs at h
  exact (Except.ok.inj h) ▸ rfl

@[simp] theorem Log.append_closed (l : Log) (k v : Bytes) (now : UInt64) (fault : Option ℕ) :
    (l.append k v now fault).2.closed = l.closed := by
  simp only [Log.append]
  split_ifs with h1 h2 h3
  · rfl
  · rfl
  · cases hr : l.rotateSegmentLocked l.active.id now with
    | error e => rfl
    | ok l' => exact (l'.writeRecord_closed k v fault).trans (rotateSegmentLocked_closed hr)
  · exact l.writeRecord_closed k v fault

@[simp] theorem Log.appends_closed (l : Log) (calls : List Log.AppendCall) :
    (l.appends calls).closed = l.closed := by
  induction calls generalizing l with
  | nil => rfl
  | cons c calls ih => exact (ih _).trans (l.append_closed _ _ _ _)

/-! ## What a successful append stores -/

/-- A successful write: the reference to the record and the log behind it. -/
theorem Log.writeRecord_eq {l l' : Log} {k v : Bytes} {fault : Option ℕ} {ref : ValueRef}
    (h : l.writeRecord k v fault = (.ok ref, l')) :
    l.active.size + (encodeRecord k v).length < 2 ^ 63 ∧
      ref = ⟨l.active.id, UInt64.ofNat l.active.size, UInt32.ofNat v.length, checksumIEEE v⟩ ∧
      l'.active = ⟨l.active.id, l.active.size + (encodeRecord k v).length⟩ ∧
      l'.files =
        l.files.insert l.active.id (writeAt l.activeFile l.active.size (encodeRecord k v)) ∧
      l'.segmentMaxBytes = l.segmentMaxBytes := by
  simp only [Log.writeRecord] at h
  by_cases hbig : 2 ^ 63 ≤ l.active.size + (encodeRecord k v).length
  · rw [if_pos hbig] at h
    simp at h
  · rw [if_neg hbig] at h
    cases fault with
    | some n => simp at h
    | none =>
      simp only [Option.getD_none, List.take_length, Prod.mk.injEq, Except.ok.injEq] at h
      obtain ⟨rfl, rfl⟩ := h
      exact ⟨not_le.mp hbig, rfl, rfl, rfl, rfl⟩

/-- The two ways an append succeeds: in the active segment, or in a fresh one. -/
theorem Log.append_cases {l l' : Log} {k v : Bytes} {now : UInt64} {fault : Option ℕ}
    {ref : ValueRef} (h : l.append k v now fault = (.ok ref, l')) :
    l.closed = false ∧
      ((l.active.size = 0 ∨ l.active.size + (encodeRecord k v).length ≤ l.segmentMaxBytes) ∧
          l.writeRecord k v fault = (.ok ref, l') ∨
        0 < l.active.size ∧ ∃ m, l.rotateSegmentLocked l.active.id now = .ok m ∧
          m.writeRecord k v fault = (.ok ref, l')) := by
  rw [length_encodeRecord]
  simp only [Log.append] at h
  split_ifs at h with h1 h2 h3
  · simp at h
  · simp at h
  · refine ⟨Bool.eq_false_iff.mpr h2, .inr ?_⟩
    cases hr : l.rotateSegmentLocked l.active.id now with
    | error e => simp [hr] at h
    | ok m =>
      simp only [hr] at h
      exact ⟨h3.1, m, rfl, h⟩
  · exact ⟨Bool.eq_false_iff.mpr h2, .inl ⟨by omega, h⟩⟩

/-- A successful append ends with the write of its record. -/
theorem Log.append_writes {l l' : Log} {k v : Bytes} {now : UInt64} {fault : Option ℕ}
    {ref : ValueRef} (h : l.append k v now fault = (.ok ref, l')) :
    ∃ m : Log, m.writeRecord k v fault = (.ok ref, l') := by
  rcases (Log.append_cases h).2 with ⟨-, hw⟩ | ⟨-, m, -, hw⟩
  · exact ⟨l, hw⟩
  · exact ⟨m, hw⟩

theorem Log.writeRecord_stored {l l' : Log} {k v : Bytes} {fault : Option ℕ} {ref : ValueRef}
    (h : l.writeRecord k v fault = (.ok ref, l')) : Stored l' ref k v := by
  obtain ⟨hlt, rfl, hactive, hfiles, -⟩ := Log.writeRecord_eq h
  have hoff : (UInt64.ofNat l.active.size).toNat = l.active.size := by
    rw [UInt64.toNat_ofNat', Nat.mod_eq_of_lt (by omega)]
  refine ⟨⟨_, by rw [hfiles, OrdMap.get_insert, if_pos rfl], ?_, ?_⟩, fun _ => ?_, ?_, rfl, rfl⟩
  · rw [hoff, length_writeAt _ _ _ (encodeRecord_ne_nil k v)]
    omega
  · rw [hoff, slice_writeAt_self]
  · rw [hoff, hactive]
  · rw [hoff]
    omega

/-- **A successful append stores its record** and leaves the log open. -/
theorem Log.append_stored {l l' : Log} {k v : Bytes} {now : UInt64} {fault : Option ℕ}
    {ref : ValueRef} (h : l.append k v now fault = (.ok ref, l')) :
    Stored l' ref k v ∧ l'.closed = false := by
  have hclosed : l'.closed = l.closed := by
    rw [← l.append_closed k v now fault, h]
  obtain ⟨m, hw⟩ := Log.append_writes h
  exact ⟨Log.writeRecord_stored hw, hclosed.trans (Log.append_cases h).1⟩

/-- File offsets are `int64`, so a record that was written is shorter than `2^63`. -/
theorem Log.length_lt_of_append {l l' : Log} {k v : Bytes} {now : UInt64} {fault : Option ℕ}
    {ref : ValueRef} (h : l.append k v now fault = (.ok ref, l')) :
    recordHeaderSize + (k.length + v.length) < 2 ^ 63 := by
  obtain ⟨m, hw⟩ := Log.append_writes h
  obtain ⟨hlt, -⟩ := Log.writeRecord_eq hw
  rw [length_encodeRecord] at hlt
  omega

/-- The first append to an empty log writes its record at offset zero, whatever the limit. -/
theorem Log.append_openEmpty (segmentMaxBytes : ℕ) (now now' : UInt64) {k v : Bytes}
    (hsize : recordHeaderSize + (k.length + v.length) < 2 ^ 63) :
    ∃ l', (Log.openEmpty segmentMaxBytes now).append k v now' none =
        (.ok ⟨nextSegmentID 0 now, 0, UInt32.ofNat v.length, checksumIEEE v⟩, l') ∧
      l'.files.get (nextSegmentID 0 now) = some (encodeRecord k v) := by
  have hfile : (Log.openEmpty segmentMaxBytes now).activeFile = [] := by
    have h := (Log.openEmpty segmentMaxBytes now).get_activeFile
    simp only [Log.openEmpty, OrdMap.get_insert, if_true, Option.some.injEq] at h
    exact h.symm
  refine ⟨((Log.openEmpty segmentMaxBytes now).writeRecord k v none).2, ?_, ?_⟩
  · rw [Log.append, if_neg (by rw [Nat.mod_eq_of_lt (by omega), Nat.mod_eq_of_lt (by omega)]; omega),
      if_neg (by simp [Log.openEmpty]), if_neg (by simp [Log.openEmpty])]
    simp only [Log.writeRecord, length_encodeRecord]
    rw [if_neg (by simp only [Log.openEmpty]; omega)]
    rfl
  · simp only [Log.writeRecord, length_encodeRecord]
    rw [if_neg (by simp only [Log.openEmpty]; omega)]
    simp only [OrdMap.get_insert, hfile]
    simp [Log.openEmpty, writeAt, ← length_encodeRecord, encodeRecord_ne_nil]

end Seol.Vlog
