import Seol.Sstable.Block

/-!
# The block index

Reference: `dataRange`, `tableIndex` and their methods in `sstable/sstable.go`. The index is a sequence
of records without a count. Decoding walks over the bytes and takes every record as whole: it goes out
of range exactly on bytes that are not a sequence of whole records.
-/

namespace Seol.Sstable

open Common Checked

/-- `dataRangeMetaSize`: key length, offset and block length. -/
def dataRangeMetaSize : ℕ := 2 + 8 + 4

/-- `dataRange`. -/
structure DataRange where
  firstKey : Bytes
  offset : UInt64
  length : UInt32
deriving DecidableEq

/-- `dataRange.encode`, for the keys that `writeDataBlocks` lets into a block: those are shorter than
the key length field can count. -/
def DataRange.encode (dr : DataRange) : Bytes :=
  leBytes 2 dr.firstKey.length ++
    (dr.firstKey ++ (leBytes 8 dr.offset.toNat ++ leBytes 4 dr.length.toNat))

/-- `encodeFullRange`. -/
def encodeFullRange (ranges : List DataRange) : Bytes := ranges.flatMap DataRange.encode

/-- The built-in `copy` into a fresh slice of `n` bytes. -/
def copyInto (n : ℕ) (src : Bytes) : Bytes := src.take n ++ List.replicate (n - src.length) 0

/-- `dataRange.decode`: the range and the bytes it takes. -/
def decodeRange (src : Bytes) : Checked SstError (DataRange × ℕ) := do
  let klen ← readLEAt 2 src 0
  let firstKey := copyInto klen (← sliceFrom src 2)
  let offset ← readLEAt 8 src (2 + klen)
  let length ← readLEAt 4 src (2 + klen + 8)
  return (⟨firstKey, UInt64.ofNat offset, UInt32.ofNat length⟩, klen + dataRangeMetaSize)

/-- The loop of `decodeFullRange` from `ptr` on. -/
def decodeRanges (data : Bytes) : ℕ → ℕ → Checked SstError (List DataRange)
  | 0, _ => .ok []
  | rounds + 1, ptr =>
    if ptr < data.length then do
      let (dr, n) ← decodeRange (← sliceFrom data ptr)
      return dr :: (← decodeRanges data rounds (ptr + n))
    else .ok []

/-- `decodeFullRange`. Every round goes on by at least a byte. -/
def decodeFullRange (data : Bytes) : Checked SstError (List DataRange) :=
  decodeRanges data data.length 0

/-- `findDataRange`; `none` is nil. -/
def findDataRange (ranges : List DataRange) (key : Bytes) : Checked SstError (Option DataRange) := do
  if ranges.isEmpty then return none
  else
    let idx ← search ranges.length fun i => do
      return decide (key < (← elemAt ranges i).firstKey)
    if idx = 0 then return none else return some (← elemAt ranges (idx - 1))

/-! ## What decodes -/

/-- The key of a range fits its length field. -/
def RangeFits (dr : DataRange) : Prop := dr.firstKey.length < 2 ^ 16

/-- The bytes are a sequence of whole records. -/
def WholeRecords (data : Bytes) : Prop :=
  ∃ ranges, (∀ dr ∈ ranges, RangeFits dr) ∧ data = encodeFullRange ranges

@[simp] theorem DataRange.length_encode (dr : DataRange) :
    dr.encode.length = dr.firstKey.length + dataRangeMetaSize := by
  simp only [encode, List.length_append, length_leBytes, dataRangeMetaSize]
  omega

@[simp] theorem encodeFullRange_nil : encodeFullRange [] = [] := rfl

@[simp] theorem encodeFullRange_cons (dr : DataRange) (ranges : List DataRange) :
    encodeFullRange (dr :: ranges) = dr.encode ++ encodeFullRange ranges := rfl

/-- A whole record is decoded. -/
theorem decodeRange_encode {dr : DataRange} (h : RangeFits dr) (post : Bytes) :
    decodeRange (dr.encode ++ post) = .ok (dr, dr.encode.length) := by
  set k := dr.firstKey
  set a := leBytes 2 k.length with ha
  set b := leBytes 8 dr.offset.toNat with hb
  set c := leBytes 4 dr.length.toNat with hc
  -- the same bytes, cut at the field that is read
  have hkey : dr.encode ++ post = a ++ (k ++ (b ++ (c ++ post))) := by
    simp [DataRange.encode, a, b, c, k]
  have hoffset : dr.encode ++ post = (a ++ k) ++ (b ++ (c ++ post)) := by simp [hkey]
  have hlength : dr.encode ++ post = (a ++ k ++ b) ++ (c ++ post) := by simp [hkey]
  have hlen : (dr.encode ++ post).length = 2 + k.length + 8 + 4 + post.length := by
    simp [hkey, a, b, c]
    omega
  have hcopy : copyInto k.length ((dr.encode ++ post).drop 2) = k := by
    have hdrop : (dr.encode ++ post).drop 2 = k ++ (b ++ (c ++ post)) := by
      rw [hkey, List.drop_append_of_le_length (by simp [a]), List.drop_eq_nil_of_le (by simp [a]),
        List.nil_append]
    rw [hdrop, copyInto, List.take_left, List.length_append]
    simp
  rw [decodeRange, readLEAt_of_le (by omega), ok_bind, sliceFrom_of_le (by omega), ok_bind]
  have hklen : leNat (slice (dr.encode ++ post) 0 2) = k.length := by
    rw [hkey, slice_append_front _ _ _ (by simp [a]), ha, leNat_leBytes_of_lt h]
  rw [hklen, hcopy, readLEAt_of_le (by omega), ok_bind, readLEAt_of_le (by omega), ok_bind]
  have hoff : leNat (slice (dr.encode ++ post) (2 + k.length) 8) = dr.offset.toNat := by
    rw [hoffset, slice_append_mid _ _ _ _ _ (by simp [a]) (by simp [b]), hb,
      leNat_leBytes_of_lt dr.offset.toNat_lt]
  have hlenf : leNat (slice (dr.encode ++ post) (2 + k.length + 8) 4) = dr.length.toNat := by
    rw [hlength, slice_append_mid _ _ _ _ _ (by simp [a, b]; omega) (by simp [c]), hc,
      leNat_leBytes_of_lt dr.length.toNat_lt]
  rw [hoff, hlenf, DataRange.length_encode]
  simp [pure, Except.pure, k]

/-- Decoding a record is out of range, or the bytes start with the record it returns. -/
theorem decodeRange_cases (src : Bytes) :
    decodeRange src = .error .outOfRange ∨
      ∃ dr post, RangeFits dr ∧ src = dr.encode ++ post ∧
        decodeRange src = .ok (dr, dr.encode.length) := by
  by_cases hklen : src.length < 2
  · exact Or.inl (by rw [decodeRange, readLEAt_of_lt (by omega)]; rfl)
  have hfield : (slice src 0 2).length = 2 := length_slice_of_le (by omega)
  set klen := leNat (slice src 0 2) with hk
  have hstart : decodeRange src = do
      let offset ← readLEAt 8 src (2 + klen)
      let length ← readLEAt 4 src (2 + klen + 8)
      return (⟨copyInto klen (src.drop 2), UInt64.ofNat offset, UInt32.ofNat length⟩,
        klen + dataRangeMetaSize) := by
    rw [decodeRange, readLEAt_of_le (by omega), ok_bind, sliceFrom_of_le (by omega), ok_bind]
  by_cases hoffset : src.length < 2 + klen + 8
  · exact Or.inl (by rw [hstart, readLEAt_of_lt hoffset]; rfl)
  by_cases hlength : src.length < 2 + klen + 8 + 4
  · refine Or.inl ?_
    rw [hstart, readLEAt_of_le (by omega), ok_bind, readLEAt_of_lt hlength]
    rfl
  -- the record that stands here
  set dr : DataRange := ⟨slice src 2 klen, UInt64.ofNat (leNat (slice src (2 + klen) 8)),
    UInt32.ofNat (leNat (slice src (2 + klen + 8) 4))⟩ with hdr
  have hkey : dr.firstKey.length = klen := length_slice_of_le (by omega)
  have hfit : RangeFits dr := by
    rw [RangeFits, hkey]
    exact leNat_lt_of_length hfield
  have hoffField : (slice src (2 + klen) 8).length = 8 := length_slice_of_le (by omega)
  have hlenField : (slice src (2 + klen + 8) 4).length = 4 := length_slice_of_le (by omega)
  have hencode : dr.encode = slice src 0 (2 + (klen + (8 + 4))) := by
    have hoffNat : dr.offset.toNat = leNat (slice src (2 + klen) 8) := by
      exact (UInt64.toNat_ofNat' ..).trans (Nat.mod_eq_of_lt (leNat_lt_of_length hoffField))
    have hlenNat : dr.length.toNat = leNat (slice src (2 + klen + 8) 4) := by
      exact (UInt32.toNat_ofNat' ..).trans (Nat.mod_eq_of_lt (leNat_lt_of_length hlenField))
    rw [DataRange.encode, hkey, hoffNat, hlenNat, hk, leBytes_leNat_of_length hfield,
      leBytes_leNat_of_length hoffField, leBytes_leNat_of_length hlenField, slice_add, slice_add,
      slice_add]
  have hsrc : src = dr.encode ++ src.drop (2 + (klen + (8 + 4))) := by
    rw [hencode, slice, List.drop_zero, List.take_append_drop]
  refine Or.inr ⟨dr, src.drop (2 + (klen + (8 + 4))), hfit, hsrc, ?_⟩
  conv_lhs => rw [hsrc]
  exact decodeRange_encode hfit _

/-- The loop decodes the records of an encoding. -/
theorem decodeRanges_encode {ranges : List DataRange} (hfit : ∀ dr ∈ ranges, RangeFits dr)
    {data pre : Bytes} (hdata : data = pre ++ encodeFullRange ranges) {rounds : ℕ}
    (hrounds : (encodeFullRange ranges).length ≤ rounds) :
    decodeRanges data rounds pre.length = .ok ranges := by
  induction ranges generalizing pre rounds with
  | nil =>
    cases rounds with
    | zero => rfl
    | succ rounds => rw [decodeRanges, if_neg (by simp [hdata])]
  | cons dr ranges ih =>
    obtain ⟨hdr, hranges⟩ := List.forall_mem_cons.mp hfit
    rw [encodeFullRange_cons] at hdata hrounds
    -- a record is not empty, so every round comes closer to the end
    have hpos : 0 < dr.encode.length := by
      rw [DataRange.length_encode]
      exact Nat.lt_of_lt_of_le (by decide) (Nat.le_add_left _ _)
    rw [List.length_append] at hrounds
    obtain ⟨rounds, rfl⟩ : ∃ r, rounds = r + 1 := ⟨rounds - 1, by omega⟩
    have hdata' : data = (pre ++ dr.encode) ++ encodeFullRange ranges := by
      rw [hdata, List.append_assoc]
    have hrest := ih hranges hdata' (show (encodeFullRange ranges).length ≤ rounds by omega)
    rw [List.length_append] at hrest
    have hlen : data.length = pre.length + (dr.encode.length + (encodeFullRange ranges).length) := by
      rw [hdata, List.length_append, List.length_append]
    have hdrop : data.drop pre.length = dr.encode ++ encodeFullRange ranges := by
      rw [hdata, List.drop_left]
    rw [decodeRanges, if_pos (by omega), sliceFrom_of_le (by omega), ok_bind, hdrop,
      decodeRange_encode hdr]
    simp only [ok_bind, hrest]
    rfl

/-- From `ptr` on the loop goes out of range, or the bytes are the records it returns. -/
theorem decodeRanges_cases (data : Bytes) (rounds ptr : ℕ) (hrounds : data.length - ptr ≤ rounds) :
    decodeRanges data rounds ptr = .error .outOfRange ∨
      ∃ ranges, (∀ dr ∈ ranges, RangeFits dr) ∧ data.drop ptr = encodeFullRange ranges ∧
        decodeRanges data rounds ptr = .ok ranges := by
  induction rounds generalizing ptr with
  | zero => exact Or.inr ⟨[], by simp, List.drop_eq_nil_of_le (by omega), rfl⟩
  | succ rounds ih =>
    rw [decodeRanges]
    by_cases hend : ptr < data.length
    swap
    · exact Or.inr ⟨[], by simp, List.drop_eq_nil_of_le (by omega), if_neg hend⟩
    rw [if_pos hend, sliceFrom_of_le hend.le, ok_bind]
    -- a record that does not fit is read past the end of the data
    rcases decodeRange_cases (data.drop ptr) with hout | ⟨dr, post, hdr, hdrop, hok⟩
    · exact Or.inl (by rw [hout]; rfl)
    rw [hok, ok_bind]
    have hpos : 0 < dr.encode.length := by
      rw [DataRange.length_encode]
      exact Nat.lt_of_lt_of_le (by decide) (Nat.le_add_left _ _)
    have hpost : data.drop (ptr + dr.encode.length) = post := by
      rw [← List.drop_drop, hdrop, List.drop_left]
    rcases ih (ptr + dr.encode.length) (by omega) with hout | ⟨ranges, hfit, hrest, hok'⟩
    · refine Or.inl ?_
      change (decodeRanges data rounds (ptr + dr.encode.length) >>= _) = _
      rw [hout]
      rfl
    · refine Or.inr ⟨dr :: ranges, List.forall_mem_cons.mpr ⟨hdr, hfit⟩, ?_, ?_⟩
      · rw [encodeFullRange_cons, ← hrest, hpost, hdrop]
      · change (decodeRanges data rounds (ptr + dr.encode.length) >>= _) = _
        rw [hok']
        rfl

theorem decodeFullRange_encode {ranges : List DataRange} (hfit : ∀ dr ∈ ranges, RangeFits dr) :
    decodeFullRange (encodeFullRange ranges) = .ok ranges :=
  decodeRanges_encode hfit (List.nil_append _).symm le_rfl

theorem decodeFullRange_cases (data : Bytes) :
    decodeFullRange data = .error .outOfRange ∨
      ∃ ranges, (∀ dr ∈ ranges, RangeFits dr) ∧ data = encodeFullRange ranges ∧
        decodeFullRange data = .ok ranges := by
  have hcases := decodeRanges_cases data data.length 0 (by omega)
  rwa [List.drop_zero] at hcases

/-- **Decoding the index stays in range exactly on whole records.** -/
theorem decodeFullRange_safe_iff (data : Bytes) :
    (decodeFullRange data).Safe ↔ WholeRecords data := by
  constructor
  · intro hsafe
    rcases decodeFullRange_cases data with hout | ⟨ranges, hfit, hdata, -⟩
    · exact absurd hout hsafe
    · exact ⟨ranges, hfit, hdata⟩
  · rintro ⟨ranges, hfit, rfl⟩
    rw [decodeFullRange_encode hfit]
    exact safe_ok ranges

/-! ## Finding a range -/

/-- The binary search of `findDataRange`. -/
def rangeSearch (ranges : List DataRange) (key : Bytes) : ℕ :=
  Common.search ranges.length fun i => ranges[i]?.any fun dr => decide (key < dr.firstKey)

/-- `findDataRange` steps back from the first range that starts behind the key. -/
theorem findDataRange_eq (ranges : List DataRange) (key : Bytes) :
    findDataRange ranges key =
      .ok (if rangeSearch ranges key = 0 then none else ranges[rangeSearch ranges key - 1]?) := by
  have hprobe : ∀ i < ranges.length,
      (do return decide (key < (← elemAt ranges i).firstKey) : Checked SstError Bool) =
        .ok (ranges[i]?.any fun dr => decide (key < dr.firstKey)) := by
    intro i hi
    rw [elemAt_of_lt hi, List.getElem?_eq_getElem hi]
    rfl
  have hle : rangeSearch ranges key ≤ ranges.length := search_le _ _
  rw [findDataRange]
  by_cases hempty : ranges.isEmpty = true
  · obtain rfl := List.isEmpty_iff.mp hempty
    rw [if_pos hempty]
    simp [pure, Except.pure]
  · rw [if_neg hempty, search_eq hprobe, ok_bind]
    change (if rangeSearch ranges key = 0 then _ else _) = _
    by_cases hzero : rangeSearch ranges key = 0
    · rw [if_pos hzero, if_pos hzero]
      rfl
    -- the ranges are not empty and the border is not the first, so there is one before it
    · have hlt : rangeSearch ranges key - 1 < ranges.length := by omega
      rw [if_neg hzero, if_neg hzero, List.getElem?_eq_getElem hlt]
      change (elemAt ranges (rangeSearch ranges key - 1) >>= _) = _
      rw [elemAt_of_lt hlt]
      rfl

end Seol.Sstable
