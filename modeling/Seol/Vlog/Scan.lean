import Seol.Vlog.History

/-!
# Scanning a segment

Reference: `scanSegment` in `vlog/vlog.go`. `scanLoop` is the loop of the source over file offsets,
with its `uint64` sums. On every file it ends with what `scanSegment` computes, which is the length
of the longest prefix made of valid records. The segments of a history hold exactly the records
that were appended to them, so a segment cut at any byte is scanned to the end of the last whole
one.
-/

namespace Seol.Vlog

open Common

/-- The error of a scan whose reads do not fail. -/
inductive ScanError where
  | invalidRecordSize
deriving DecidableEq

/-- The loop of `scanSegment` from an offset on: the length of the valid records, and whether
anything follows them. `none` is a loop that ran out of rounds. -/
def scanLoop (f : Bytes) : ℕ → ℕ → Option (Except ScanError (ℕ × Bool))
  | 0, _ => none
  | rounds + 1, offset =>
    if f.length ≤ offset then some (.ok (offset, false))
    else if f.length - offset < recordHeaderSize then some (.ok (offset, true))
    else match readAt f offset recordHeaderSize with
      | none => some (.ok (offset, true))
      | some header =>
        let keyLen := headerKeyLen header
        let valueLen := headerValueLen header
        let recordSize := (recordHeaderSize + keyLen + valueLen) % 2 ^ 64
        if recordSize < recordHeaderSize then some (.error .invalidRecordSize)
        else if f.length < (offset + recordSize) % 2 ^ 64 then some (.ok (offset, true))
        else match readAt f (offset + recordHeaderSize) (keyLen + valueLen) with
          | none => some (.ok (offset, true))
          | some payload =>
            if (checksumIEEE (header.drop 4 ++ payload)).toNat ≠ headerChecksum header then
              some (.ok (offset, true))
            else scanLoop f rounds ((offset + recordSize) % 2 ^ 64)

/-! ## One round -/

/-- A read inside the file, in terms of the bytes from an offset on. -/
theorem readAt_drop {f : Bytes} {offset o n : ℕ} (h : offset + o + n ≤ f.length) :
    readAt f (offset + o) n = some (slice (f.drop offset) o n) := by
  rw [readAt_eq_slice h, slice, slice, List.drop_drop]

/-- What one round does, in terms of the record at its offset. No sum wraps in a file whose size is
an `int64`. -/
theorem scanLoop_succ {f : Bytes} (hsize : f.length < 2 ^ 63) (rounds : ℕ) {offset : ℕ}
    (hoff : offset ≤ f.length) :
    scanLoop f (rounds + 1) offset =
      match nextRecord (f.drop offset) with
      | .record _ _ rest => scanLoop f rounds (f.length - rest.length)
      | _ => some (.ok (offset, decide (offset < f.length))) := by
  have hlen : (f.drop offset).length = f.length - offset := List.length_drop
  rw [scanLoop, nextRecord, hlen]
  -- the checks in the order of the source: end of file, header, payload, checksum
  by_cases hend : f.length ≤ offset
  · rw [if_pos hend, if_pos (by rw [recordHeaderSize]; omega)]
    simp [not_lt.mpr hend]
  rw [if_neg hend]
  by_cases hheader : f.length - offset < recordHeaderSize
  · simp [hheader, not_le.mp hend]
  rw [if_neg hheader, if_neg hheader]
  set b := f.drop offset with hb
  have hin : recordHeaderSize ≤ b.length := by omega
  obtain ⟨hklt, hvlt⟩ := headerLens_lt hin
  obtain ⟨hsum, hkey, hvalue⟩ := header_fields b
  have hread : readAt f offset recordHeaderSize = some (b.take recordHeaderSize) :=
    readAt_drop (o := 0) (by omega)
  simp only [hread, hsum, hkey, hvalue]
  -- a file shorter than `2 ^ 63` keeps both sums below the width of a word
  have hrec : (recordHeaderSize + headerKeyLen b + headerValueLen b) % 2 ^ 64 =
      recordHeaderSize + (headerKeyLen b + headerValueLen b) := by
    rw [Nat.add_assoc, Nat.mod_eq_of_lt (by rw [recordHeaderSize]; omega)]
  have hnext : (offset + (recordHeaderSize + (headerKeyLen b + headerValueLen b))) % 2 ^ 64 =
      offset + (recordHeaderSize + (headerKeyLen b + headerValueLen b)) :=
    Nat.mod_eq_of_lt (by rw [recordHeaderSize]; omega)
  rw [hrec, hnext, if_neg (by omega)]
  by_cases hpayload : f.length <
      offset + (recordHeaderSize + (headerKeyLen b + headerValueLen b))
  · rw [if_pos hpayload, if_pos (by omega)]
    simp [not_le.mp hend]
  rw [if_neg hpayload, if_neg (by omega), readAt_drop (by omega), ← hb]
  have hbody : (b.take recordHeaderSize).drop 4 = slice b 4 8 := by
    rw [List.drop_take]
    rfl
  simp only [hbody]
  by_cases hcrc : (checksumIEEE (slice b 4 8 ++ slice b recordHeaderSize
      (headerKeyLen b + headerValueLen b))).toNat = headerChecksum b
  · rw [if_neg (not_not.mpr hcrc), if_neg (not_not.mpr hcrc)]
    dsimp only
    rw [List.length_drop, hlen]
    congr 1
    omega
  · rw [if_pos hcrc, if_pos hcrc]
    simp [not_le.mp hend]

/-! ## Whole scans -/

/-- The loop from an offset on ends with what the scan of the remaining bytes says. -/
theorem scanLoop_drop {f : Bytes} (hsize : f.length < 2 ^ 63) {rounds offset : ℕ}
    (hoff : offset ≤ f.length) (hrounds : f.length - offset < rounds) :
    scanLoop f rounds offset = some (.ok (f.length - (scanRecords (f.drop offset)).2.length,
      decide ((scanRecords (f.drop offset)).2 ≠ []))) := by
  induction rounds generalizing offset with
  | zero => exact absurd hrounds (Nat.not_lt_zero _)
  | succ rounds ih =>
    have hlen : (f.drop offset).length = f.length - offset := List.length_drop
    -- without a record at the offset nothing more is scanned
    have hstop : (∀ k v rest, nextRecord (f.drop offset) ≠ .record k v rest) →
        (offset, decide (offset < f.length)) =
          (f.length - (scanRecords (f.drop offset)).2.length,
            decide ((scanRecords (f.drop offset)).2 ≠ [])) := by
      intro hnot
      rw [scanRecords_of_not_record hnot, hlen, Nat.sub_sub_self hoff]
      simp [List.drop_eq_nil_iff]
    rw [scanLoop_succ hsize rounds hoff]
    cases hnext : nextRecord (f.drop offset) with
    | short => exact congrArg (fun r => some (Except.ok r)) (hstop (by simp [hnext]))
    | badChecksum => exact congrArg (fun r => some (Except.ok r)) (hstop (by simp [hnext]))
    | record key value rest =>
      obtain ⟨hsplit, hfit⟩ := encodeRecord_of_nextRecord hnext
      have hlt := length_lt_of_nextRecord hnext
      have hrest : f.drop (f.length - rest.length) = rest := by
        have hf : f = f.take offset ++ encodeRecord key value ++ rest := by
          rw [List.append_assoc, ← hsplit, List.take_append_drop]
        rw [hf, List.length_append, Nat.add_sub_cancel, List.drop_left]
      dsimp only
      rw [ih (by omega) (by omega), hrest, hsplit, scanRecords_cons hfit]

/-- **The loop computes `scanSegment`**: it ends on every file and never fails. -/
theorem scanLoop_eq {f : Bytes} (hsize : f.length < 2 ^ 63) :
    scanLoop f (f.length + 1) 0 = some (.ok (scanSegment f)) := by
  rw [scanLoop_drop hsize (Nat.zero_le _) (by omega), List.drop_zero]
  rfl

/-! ## The longest valid prefix -/

/-- A byte string that is one record: its length fields add up and its checksum is right. -/
structure ValidRecord (r : Bytes) : Prop where
  length_eq : r.length = recordHeaderSize + (headerKeyLen r + headerValueLen r)
  checksum_eq : headerChecksum r = (checksumIEEE (r.drop 4)).toNat

/-- The first `n` bytes of a file are valid records, one after the other. -/
def ValidPrefix (f : Bytes) (n : ℕ) : Prop :=
  n ≤ f.length ∧ ∃ rs : List Bytes, (∀ r ∈ rs, ValidRecord r) ∧ f.take n = rs.flatten

/-- The valid records are those that the log writes. -/
theorem validRecord_iff {r : Bytes} :
    ValidRecord r ↔ ∃ key value, LengthsFit (key, value) ∧ r = encodeRecord key value := by
  refine ⟨fun h => ?_, ?_⟩
  -- all behind the checksum is what the checksum covers, so the record is read back as a whole
  · have hbody : slice r 4 8 ++ slice r recordHeaderSize (headerKeyLen r + headerValueLen r) =
        r.drop 4 := by
      have hin := h.length_eq
      simp only [recordHeaderSize] at hin ⊢
      rw [← slice_add r 4 8, slice, List.take_of_length_le]
      rw [List.length_drop]
      omega
    have hnext : nextRecord r = .record
        ((slice r recordHeaderSize (headerKeyLen r + headerValueLen r)).take (headerKeyLen r))
        ((slice r recordHeaderSize (headerKeyLen r + headerValueLen r)).drop (headerKeyLen r))
        [] := by
      rw [nextRecord, if_neg (by have := h.length_eq; omega), if_neg (by have := h.length_eq; omega)]
      dsimp only
      rw [hbody, if_neg (not_not.mpr h.checksum_eq.symm), ← h.length_eq, List.drop_length]
    obtain ⟨hr, hfit⟩ := encodeRecord_of_nextRecord hnext
    exact ⟨_, _, hfit, by rw [List.append_nil] at hr; exact hr⟩
  · rintro ⟨key, value, ⟨hk, hv⟩, rfl⟩
    refine ⟨?_, ?_⟩
    · rw [length_encodeRecord, encodeRecord, headerKeyLen_recordHeader, headerValueLen_recordHeader,
        Nat.mod_eq_of_lt hk, Nat.mod_eq_of_lt hv]
    · have hdrop : (encodeRecord key value).drop 4 = recordBody key value := by
        rw [encodeRecord, recordHeader, List.append_assoc, List.drop_left' (by simp), recordBody]
      rw [hdrop, encodeRecord, headerChecksum_recordHeader]

theorem validPrefix_iff {f : Bytes} {n : ℕ} :
    ValidPrefix f n ↔ n ≤ f.length ∧
      ∃ rs, (∀ r ∈ rs, LengthsFit r) ∧ f.take n = encodeRecords rs := by
  refine and_congr_right fun _ => ⟨?_, ?_⟩
  · rintro ⟨rs, hvalid, htake⟩
    rw [htake]
    clear htake
    induction rs with
    | nil => exact ⟨[], by simp, rfl⟩
    | cons r rs ih =>
      obtain ⟨hr, hrs⟩ := List.forall_mem_cons.mp hvalid
      obtain ⟨key, value, hfit, rfl⟩ := validRecord_iff.mp hr
      obtain ⟨es, hes, hflat⟩ := ih hrs
      refine ⟨(key, value) :: es, List.forall_mem_cons.mpr ⟨hfit, hes⟩, ?_⟩
      rw [List.flatten_cons, hflat, encodeRecords_cons]
  · rintro ⟨rs, hfit, htake⟩
    refine ⟨rs.map fun r => encodeRecord r.1 r.2, ?_, ?_⟩
    · intro r hr
      obtain ⟨e, he, rfl⟩ := List.mem_map.mp hr
      exact validRecord_iff.mpr ⟨e.1, e.2, hfit e he, rfl⟩
    · rw [htake, encodeRecords, List.flatMap_def]

/-- The valid bytes of a file and what follows them. -/
theorem scanSegment_spec (f : Bytes) :
    (scanSegment f).1 = (encodeRecords (scanRecords f).1).length ∧
      f.take (scanSegment f).1 = encodeRecords (scanRecords f).1 ∧
      (scanSegment f).1 ≤ f.length ∧
      ((scanSegment f).2 = true ↔ (scanSegment f).1 < f.length) := by
  obtain ⟨hsplit, -, -⟩ := scanRecords_spec f
  have hlen : f.length = (encodeRecords (scanRecords f).1).length + (scanRecords f).2.length := by
    rw [← List.length_append, ← hsplit]
  have hfst : (scanSegment f).1 = (encodeRecords (scanRecords f).1).length := by
    rw [scanSegment]
    omega
  refine ⟨hfst, ?_, by omega, ?_⟩
  · rw [hfst]
    generalize (scanRecords f).1 = rs at hsplit ⊢
    rw [hsplit, List.take_left]
  · rw [hfst, scanSegment, decide_eq_true_iff, ← List.length_pos_iff]
    omega

/-- **The scan finds the longest valid prefix.** -/
theorem scanSegment_isGreatest (f : Bytes) :
    IsGreatest { n | ValidPrefix f n } (scanSegment f).1 := by
  obtain ⟨hfst, htake, hle, -⟩ := scanSegment_spec f
  refine ⟨validPrefix_iff.mpr ⟨hle, _, (scanRecords_spec f).2.1, htake⟩, fun n hn => ?_⟩
  obtain ⟨hn, rs, hfit, hrs⟩ := validPrefix_iff.mp hn
  -- a valid prefix is read before whatever follows it
  have hscan : (scanRecords f).1 = rs ++ (scanRecords (f.drop n)).1 := by
    conv_lhs => rw [← List.take_append_drop n f, hrs, scanRecords_append hfit]
  rw [hfst, hscan, encodeRecords_append, List.length_append, ← hrs, List.length_take]
  omega

/-- Scanning what the scan kept finds nothing to cut. -/
theorem scanSegment_take (f : Bytes) :
    scanSegment (f.take (scanSegment f).1) = ((scanSegment f).1, false) := by
  obtain ⟨hfst, htake, -, -⟩ := scanSegment_spec f
  rw [htake, scanSegment_encodeRecords (scanRecords_spec f).2.1, hfst]

/-! ## Segments of a history -/

/-- The records that a history appended to one segment, in order. -/
def recordsIn (as : List Appended) (id : UInt64) : List (Bytes × Bytes) :=
  (as.filter fun a => a.ref.segmentID = id).map fun a => (a.key, a.value)

/-- Every segment consists of the records appended to it, at the offsets that were returned. -/
structure LaidOut (segments : OrdMap UInt64 Bytes) (as : List Appended) : Prop where
  content : ∀ id f, segments.get id = some f → f = encodeRecords (recordsIn as id)
  offset : ∀ pre a post, as = pre ++ a :: post →
    a.ref.offset.toNat = (encodeRecords (recordsIn pre a.ref.segmentID)).length

theorem recordsIn_append (as bs : List Appended) (id : UInt64) :
    recordsIn (as ++ bs) id = recordsIn as id ++ recordsIn bs id := by
  simp [recordsIn]

theorem recordsIn_singleton (a : Appended) (id : UInt64) :
    recordsIn [a] id = if a.ref.segmentID = id then [(a.key, a.value)] else [] := by
  by_cases h : a.ref.segmentID = id <;> simp [recordsIn, h]

/-- Nothing was appended to a segment that does not exist. -/
theorem SegmentsInv.recordsIn_eq_nil {limit : ℕ} {segments : OrdMap UInt64 Bytes}
    {as : List Appended} (h : SegmentsInv limit segments as) {id : UInt64}
    (hid : segments.get id = none) : recordsIn as id = [] := by
  rw [recordsIn, List.map_eq_nil_iff, List.filter_eq_nil_iff]
  intro a ha heq
  obtain ⟨f, hf, -⟩ := (h.filed a ha).2.file
  rw [of_decide_eq_true heq, hid] at hf
  exact absurd hf (by simp)

/-- A rotation adds an empty segment, to which nothing was appended. -/
theorem LaidOut.rotate {limit : ℕ} {l l' : Log} {as : List Appended} {now : UInt64}
    (h : LaidOut l.files as) (hs : SegmentsInv limit l.files as)
    (hr : l.rotateSegmentLocked l.active.id now = .ok l') : LaidOut l'.files as := by
  obtain ⟨hfree, -, hfiles, -⟩ := Log.rotateSegmentLocked_ok hr
  refine ⟨fun id f hf => ?_, h.offset⟩
  rw [hfiles, OrdMap.get_insert] at hf
  split_ifs at hf with hid
  · rw [← Option.some.inj hf, ← hid, hs.recordsIn_eq_nil hfree, encodeRecords_nil]
  · exact h.content id f hf

/-- A write puts its record behind those of the active segment. -/
theorem LaidOut.write {l l' : Log} {as : List Appended} {a : Appended} {fault : Option ℕ}
    (h : LaidOut l.files as) (hsize : l.active.size = l.activeFile.length)
    (hw : l.writeRecord a.key a.value fault = (.ok a.ref, l')) : LaidOut l'.files (as ++ [a]) := by
  obtain ⟨hid, hoffset, -, hfiles, -⟩ := Log.writeRecord_ok hw hsize
  have hactive := h.content _ _ l.get_activeFile
  refine ⟨fun id f hf => ?_, fun pre b post hsplit => ?_⟩
  · rw [hfiles, OrdMap.get_insert] at hf
    rw [recordsIn_append, recordsIn_singleton, encodeRecords_append, hid]
    split_ifs at hf ⊢ with heq
    · rw [← Option.some.inj hf, ← heq, ← hactive, encodeRecords_singleton]
    · rw [encodeRecords_nil, List.append_nil]
      exact h.content id f hf
  -- the new record is the last one in the history, or `b` was appended before
  · rcases List.eq_nil_or_concat post with rfl | ⟨post, c, rfl⟩
    · obtain ⟨rfl, hab⟩ := List.append_inj' hsplit rfl
      obtain rfl : a = b := (List.cons.inj hab).1
      rw [hoffset, hsize, hid, ← hactive]
    · rw [List.concat_eq_append, ← List.cons_append, ← List.append_assoc] at hsplit
      exact h.offset pre b post (List.append_inj' hsplit rfl).1

/-- The segments are opened as they are; an empty directory gets an empty segment. -/
theorem LaidOut.open {limit : ℕ} {segments : OrdMap UInt64 Bytes} {as : List Appended}
    (h : LaidOut segments as) (hs : SegmentsInv limit segments as) {segmentMaxBytes : ℤ}
    {now : UInt64} {l : Log} (hopen : Log.open segmentMaxBytes segments now = .ok l) :
    LaidOut l.files as := by
  obtain ⟨l', hl, hopened⟩ := hs.whole.open segmentMaxBytes now
  obtain rfl := Except.ok.inj (hopen.symm.trans hl)
  refine ⟨fun id f hf => ?_, h.offset⟩
  by_cases hnil : segments.entries = []
  · have hfree : segments.get id = none := OrdMap.get_eq_none_iff.mpr (by simp [hnil])
    rw [hs.recordsIn_eq_nil hfree, encodeRecords_nil]
    rw [hopened.fresh hnil, Log.openEmpty, OrdMap.get_insert] at hf
    split_ifs at hf
    · exact (Option.some.inj hf).symm
    · simp at hf
  · rw [hopened.files_eq hnil] at hf
    exact h.content id f hf

/-- **In every history the segments hold what was appended to them.** -/
theorem laidOut_run {segmentMaxBytes : ℤ} {st : LogState} {es : List LogEvent}
    (h : Run (LogStep segmentMaxBytes) (.shut OrdMap.empty) es st) :
    LaidOut st.segments (appendsOf es) := by
  induction h with
  | refl => exact ⟨fun id f hf => by simp [LogState.segments] at hf, by simp [appendsOf]⟩
  | tail hrun hstep ih =>
    rw [appendsOf_append]
    have hinv := HistoryInv.run hrun
    cases hstep with
    | append hfit happ =>
      have hl := hinv.running _ rfl
      rcases (Log.append_cases happ).2 with ⟨-, hw⟩ | ⟨-, m, hr, hw⟩
      · exact ih.write hl.size_eq hw
      · exact (ih.rotate hinv.segments hr).write (hinv.segments.rotate hl hr).2.1.size_eq hw
    | close l =>
      rw [appendsOf_singleton_close, List.append_nil]
      exact ih
    | «open» hopen =>
      rw [appendsOf_singleton_open, List.append_nil]
      exact ih.open hinv.segments hopen

/-- The ends of the records that a history appended to one segment. -/
def recordEnds (as : List Appended) (id : UInt64) : Set ℕ :=
  { n | ∃ a ∈ as, a.ref.segmentID = id ∧
    n = a.ref.offset.toNat + (encodeRecord a.key a.value).length }

/-- The records of a segment end where the encodings of its first records do. -/
theorem LaidOut.mem_recordEnds {segments : OrdMap UInt64 Bytes} {as : List Appended}
    (h : LaidOut segments as) {id : UInt64} {n : ℕ} :
    n ∈ recordEnds as id ↔ ∃ rs r rs', recordsIn as id = rs ++ r :: rs' ∧
      n = (encodeRecords (rs ++ [r])).length := by
  have hend : ∀ (pre : List Appended) (a : Appended),
      (encodeRecords (recordsIn pre id ++ [(a.key, a.value)])).length =
        (encodeRecords (recordsIn pre id)).length + (encodeRecord a.key a.value).length := by
    intro pre a
    rw [encodeRecords_append, encodeRecords_singleton, List.length_append]
  refine ⟨?_, ?_⟩
  · rintro ⟨a, ha, hid, rfl⟩
    obtain ⟨pre, post, rfl⟩ := List.append_of_mem ha
    refine ⟨recordsIn pre id, (a.key, a.value), recordsIn post id, ?_, ?_⟩
    · rw [← List.singleton_append, recordsIn_append, recordsIn_append, recordsIn_singleton,
        if_pos hid, List.singleton_append]
    · rw [hend pre a, h.offset pre a post rfl, hid]
  · rintro ⟨rs, r, rs', hsplit, rfl⟩
    -- the record is that of an append to this segment, with the earlier ones before it
    obtain ⟨l₁, l₂, hfilter, rfl, htail⟩ := List.map_eq_append_iff.mp hsplit
    obtain ⟨a, l₃, rfl, rfl, -⟩ := List.map_eq_cons_iff.mp htail
    obtain ⟨pre, rest, rfl, rfl, hrest⟩ := List.filter_eq_append_iff.mp hfilter
    obtain ⟨skip, post, rfl, hskip, hid, -⟩ := List.filter_eq_cons_iff.mp hrest
    have hid' : a.ref.segmentID = id := of_decide_eq_true hid
    have hnone : recordsIn skip id = [] := by
      rw [recordsIn, List.map_eq_nil_iff, List.filter_eq_nil_iff]
      exact hskip
    refine ⟨a, by simp, hid', ?_⟩
    have hoff := h.offset (pre ++ skip) a post (by rw [List.append_assoc])
    rw [hid', recordsIn_append, hnone, List.append_nil] at hoff
    rw [hoff]
    exact hend pre a

/-- **Cutting a segment.** The scan of a segment of a history that was cut at byte `m` ends with the
last record that is whole. -/
theorem LaidOut.scanSegment_take {segments : OrdMap UInt64 Bytes} {as : List Appended}
    (h : LaidOut segments as) (hfit : ∀ a ∈ as, LengthsFit (a.key, a.value)) {id : UInt64}
    {content : Bytes} (hget : segments.get id = some content) (m : ℕ) :
    IsGreatest { n | n ≤ m ∧ (n = 0 ∨ n ∈ recordEnds as id) } (scanSegment (content.take m)).1 := by
  have hcontent := h.content id content hget
  have hfit' : ∀ r ∈ recordsIn as id, LengthsFit r := by
    intro r hr
    obtain ⟨a, ha, rfl⟩ := List.mem_map.mp hr
    exact hfit a (List.mem_filter.mp ha).1
  obtain ⟨hfst, htake, hle, -⟩ := scanSegment_spec (content.take m)
  refine ⟨⟨hle.trans (by simp), ?_⟩, ?_⟩
  -- what the cut leaves behind the whole records is too short for one
  · obtain ⟨j, tail, hcut, hshort⟩ := take_encodeRecords hfit' m
    rw [hfst, hcontent, hcut, scanRecords_encodeRecords
      (fun r hr => hfit' r (List.mem_of_mem_take hr)) (by simp [hshort])]
    dsimp only
    rcases List.eq_nil_or_concat ((recordsIn as id).take j) with hnil | ⟨rs, r, hrs⟩
    · exact .inl (by rw [hnil]; rfl)
    · refine .inr (h.mem_recordEnds.mpr ⟨rs, r, (recordsIn as id).drop j, ?_, ?_⟩)
      · rw [← List.singleton_append, ← List.append_assoc, ← List.concat_eq_append, ← hrs,
          List.take_append_drop]
      · rw [hrs, List.concat_eq_append]
  -- each record end below the cut is a valid prefix, and the scan returns the longest
  · rintro n ⟨hnm, hn⟩
    apply (scanSegment_isGreatest (content.take m)).2
    rw [Set.mem_ofPred_eq, validPrefix_iff]
    rcases hn with rfl | hn
    · exact ⟨Nat.zero_le _, [], by simp, rfl⟩
    obtain ⟨rs, r, rs', hsplit, rfl⟩ := h.mem_recordEnds.mp hn
    have hsplit' : content = encodeRecords (rs ++ [r]) ++ encodeRecords rs' := by
      rw [hcontent, hsplit, ← encodeRecords_append, List.append_assoc, List.singleton_append]
    refine ⟨?_, rs ++ [r], fun r' hr' => hfit' r' ?_, ?_⟩
    · rw [List.length_take, hsplit', List.length_append]
      omega
    · rw [hsplit, ← List.singleton_append, ← List.append_assoc]
      exact List.mem_append_left _ hr'
    · rw [List.take_take, min_eq_left hnm, hsplit', List.take_left]

/-- **A scan finds the longest valid prefix.** On every file the loop of `scanSegment` ends without
an error; it returns the length of the longest prefix that is a sequence of valid records, and
reports a tail exactly if bytes follow; scanning the prefix again returns its length without a
tail; and if the file is a segment that successful appends wrote, cut at any byte, the length is
the end of the last whole record. -/
theorem scan_longest_valid {f : Bytes} (hsize : f.length < 2 ^ 63) :
    ∃ n tail, scanLoop f (f.length + 1) 0 = some (.ok (n, tail)) ∧
      IsGreatest { n | ValidPrefix f n } n ∧ (tail = true ↔ n < f.length) ∧
      scanLoop (f.take n) ((f.take n).length + 1) 0 = some (.ok (n, false)) ∧
      ∀ (segmentMaxBytes : ℤ) (st : LogState) (es : List LogEvent),
        Run (LogStep segmentMaxBytes) (.shut OrdMap.empty) es st →
        ∀ id content m, st.segments.get id = some content → f = content.take m →
          IsGreatest { n | n ≤ m ∧ (n = 0 ∨ n ∈ recordEnds (appendsOf es) id) } n := by
  refine ⟨(scanSegment f).1, (scanSegment f).2, scanLoop_eq hsize, scanSegment_isGreatest f,
    (scanSegment_spec f).2.2.2, ?_, ?_⟩
  · have hle : (f.take (scanSegment f).1).length ≤ f.length := by
      rw [List.length_take]
      exact min_le_right _ _
    rw [scanLoop_eq (hle.trans_lt hsize), Seol.Vlog.scanSegment_take]
  · intro segmentMaxBytes st es hrun id content m hget hcut
    have hinv := HistoryInv.run hrun
    rw [hcut]
    exact (laidOut_run hrun).scanSegment_take (fun a ha => (hinv.segments.filed a ha).1) hget m

/-- A record with two bytes of another one behind it. -/
theorem scan_longest_valid_torn : ∃ n tail,
    scanLoop (encodeRecord [1] [2] ++ [7, 7]) 17 0 = some (.ok (n, tail)) ∧
      ValidPrefix (encodeRecord [1] [2] ++ [7, 7]) n ∧ (tail = true ↔ n < 16) := by
  obtain ⟨n, tail, hscan, hmax, htail, -⟩ :=
    scan_longest_valid (f := encodeRecord [1] [2] ++ [7, 7]) (by decide +kernel)
  have hlen : (encodeRecord [1] [2] ++ [7, 7]).length = 16 := by decide +kernel
  rw [hlen] at hscan htail
  exact ⟨n, tail, hscan, hmax.1, htail⟩

end Seol.Vlog
