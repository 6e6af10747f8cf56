import Seol.Common.OrdMap
import Seol.Sstable.Bloom

/-!
# Data blocks

Reference: `appendBlockEntry`, `newCachedDataBlock`, `entryAt` and `lookup` in `sstable/sstable.go`. A
block is a sequence of length-prefixed entries. The parser accepts exactly the encodings of entries
whose lengths fit their fields, and on what it accepts no access is out of range.
-/

namespace Seol.Sstable

open Common Checked

/-- `sstableBlockSize`. -/
def blockSize : ℕ := 4 * 1024

/-- `entryMetaSize`: key length and value length. -/
def entryMetaSize : ℕ := 2 + 4

/-- The errors of the package. -/
inductive SstError where
  /-- "sstable: truncated entry header" -/
  | truncatedEntryHeader
  /-- "sstable: truncated entry body" -/
  | truncatedEntryBody
  /-- "sstable: entry for key %q exceeds block size" -/
  | entryTooLarge (key : Bytes)
  /-- "sstable: file too small" -/
  | fileTooSmall
  /-- "sstable: invalid bloom magic %#x" -/
  | invalidBloomMagic (got : ℕ)
  /-- "sstable: unsupported bloom version %d" -/
  | unsupportedBloomVersion (got : UInt8)
  /-- "sstable: invalid bloom bit count %d" -/
  | invalidBloomBitCount (numBits : ℕ)
  /-- "sstable: file too small for bloom filter" -/
  | fileTooSmallForBloom
  /-- "sstable: invalid magic %#x" -/
  | invalidMagic (got : ℕ)
  /-- "sstable: unsupported version %d" -/
  | unsupportedVersion (got : UInt8)
  /-- "sstable: invalid index offset %d" -/
  | invalidIndexOffset (offset : ℕ)
  /-- An error of the bloom package. -/
  | bloom (e : Bloom.BloomError)
  /-- `ReadAt` failed: the end of the file, or a negative offset. -/
  | read
deriving DecidableEq, Repr

/-- The bytes of an entry in a block. -/
def encodeEntry (e : Bytes × Bytes) : Bytes :=
  leBytes 2 e.1.length ++ (leBytes 4 e.2.length ++ (e.1 ++ e.2))

/-- The bytes of a block. -/
def encodeEntries (es : List (Bytes × Bytes)) : Bytes := es.flatMap encodeEntry

/-- `entrySize` of an entry. -/
def entrySize (e : Bytes × Bytes) : ℕ := entryMetaSize + e.1.length + e.2.length

/-- `appendBlockEntry`: the block has a capacity of `sstableBlockSize` bytes. -/
def appendBlockEntry (block : Bytes) (e : Bytes × Bytes) : Checked SstError Bytes :=
  if block.length + entrySize e ≤ blockSize then .ok (block ++ encodeEntry e)
  else .error .outOfRange

/-- `cachedDataBlock`. -/
structure CachedBlock where
  data : Bytes
  entryOffsets : List ℕ

/-- The loop of `newCachedDataBlock` from `ptr` on. Every round goes on by at least a header, so the
length of the data is rounds enough. -/
def scanOffsets (data : Bytes) : ℕ → ℕ → Checked SstError (List ℕ)
  | 0, _ => .ok []
  | rounds + 1, ptr =>
    if ptr < data.length then
      if data.length - ptr < entryMetaSize then fail .truncatedEntryHeader
      else do
        let klen ← readLEAt 2 data ptr
        let vlen ← readLEAt 4 data (ptr + 2)
        if data.length < ptr + entryMetaSize + klen + vlen then fail .truncatedEntryBody
        else return ptr :: (← scanOffsets data rounds (ptr + entryMetaSize + klen + vlen))
    else .ok []

/-- `newCachedDataBlock`. -/
def newCachedDataBlock (raw : Bytes) : Checked SstError CachedBlock := do
  return ⟨raw, ← scanOffsets raw raw.length 0⟩

namespace CachedBlock

/-- `entryAt`. -/
def entryAt (b : CachedBlock) (i : ℕ) : Checked SstError (Bytes × Bytes) := do
  let ptr ← elemAt b.entryOffsets i
  let klen ← readLEAt 2 b.data ptr
  let vlen ← readLEAt 4 b.data (ptr + 2)
  let ptr := ptr + entryMetaSize
  let key ← sliceBetween b.data ptr (ptr + klen)
  let value ← sliceBetween b.data (ptr + klen) (ptr + klen + vlen)
  return (key, value)

/-- `lookup`; `none` is the nil slice. -/
def lookup (b : CachedBlock) (key : Bytes) : Checked SstError (Option Bytes) := do
  let idx ← search b.entryOffsets.length fun i => do
    let (entryKey, _) ← b.entryAt i
    return decide (key ≤ entryKey)
  if idx = b.entryOffsets.length then return none
  else
    let (entryKey, value) ← b.entryAt idx
    if entryKey ≠ key then return none else return some value

end CachedBlock

/-! ## What the parser accepts -/

/-- The lengths of an entry fit their fields. -/
structure EntryFits (e : Bytes × Bytes) : Prop where
  key : e.1.length < 2 ^ 16
  value : e.2.length < 2 ^ 32

@[simp] theorem length_encodeEntry (e : Bytes × Bytes) : (encodeEntry e).length = entrySize e := by
  simp only [encodeEntry, List.length_append, length_leBytes, entrySize, entryMetaSize]
  omega

theorem entrySize_pos (e : Bytes × Bytes) : 0 < entrySize e := by
  simp only [entrySize, entryMetaSize]
  omega

@[simp] theorem encodeEntries_nil : encodeEntries [] = [] := rfl

@[simp] theorem encodeEntries_cons (e : Bytes × Bytes) (es : List (Bytes × Bytes)) :
    encodeEntries (e :: es) = encodeEntry e ++ encodeEntries es := rfl

theorem encodeEntries_append (as bs : List (Bytes × Bytes)) :
    encodeEntries (as ++ bs) = encodeEntries as ++ encodeEntries bs := List.flatMap_append

/-- The offsets of entries in a block, the first at `ptr`. -/
def offsetsFrom (ptr : ℕ) : List (Bytes × Bytes) → List ℕ
  | [] => []
  | e :: es => ptr :: offsetsFrom (ptr + entrySize e) es

/-- The parsed block of entries. -/
def blockOf (es : List (Bytes × Bytes)) : CachedBlock := ⟨encodeEntries es, offsetsFrom 0 es⟩

@[simp] theorem length_offsetsFrom (ptr : ℕ) (es : List (Bytes × Bytes)) :
    (offsetsFrom ptr es).length = es.length := by
  induction es generalizing ptr with
  | nil => rfl
  | cons e es ih => simp [offsetsFrom, ih]

theorem offsetsFrom_append (ptr : ℕ) (as bs : List (Bytes × Bytes)) :
    offsetsFrom ptr (as ++ bs) =
      offsetsFrom ptr as ++ offsetsFrom (ptr + (encodeEntries as).length) bs := by
  induction as generalizing ptr with
  | nil => rfl
  | cons e as ih =>
    simp only [List.cons_append, offsetsFrom, ih, encodeEntries_cons, List.length_append,
      length_encodeEntry, Nat.add_assoc]

/-- The fields of an entry that starts at `ptr`. -/
theorem entry_fields {data pre post : Bytes} {e : Bytes × Bytes} (hfit : EntryFits e)
    (hdata : data = pre ++ (encodeEntry e ++ post)) :
    (readLEAt 2 data pre.length : Checked SstError ℕ) = .ok e.1.length ∧
    (readLEAt 4 data (pre.length + 2) : Checked SstError ℕ) = .ok e.2.length ∧
    slice data (pre.length + entryMetaSize) e.1.length = e.1 ∧
    slice data (pre.length + entryMetaSize + e.1.length) e.2.length = e.2 ∧
    pre.length + entrySize e ≤ data.length := by
  -- the same bytes, cut at the field that is read
  have hkey : data =
      pre ++ (leBytes 2 e.1.length ++ (leBytes 4 e.2.length ++ (e.1 ++ e.2) ++ post)) := by
    simp [hdata, encodeEntry]
  have hvalue : data =
      (pre ++ leBytes 2 e.1.length) ++ (leBytes 4 e.2.length ++ (e.1 ++ e.2 ++ post)) := by
    simp [hdata, encodeEntry]
  have hbody : data = (pre ++ leBytes 2 e.1.length ++ leBytes 4 e.2.length) ++
      (e.1 ++ (e.2 ++ post)) := by
    simp [hdata, encodeEntry]
  have hlast : data = (pre ++ leBytes 2 e.1.length ++ leBytes 4 e.2.length ++ e.1) ++
      (e.2 ++ post) := by
    simp [hdata, encodeEntry]
  have hlen : pre.length + entrySize e ≤ data.length := by
    rw [hdata, List.length_append, List.length_append, length_encodeEntry]
    omega
  have hsize : entrySize e = 6 + e.1.length + e.2.length := rfl
  refine ⟨?_, ?_, ?_, ?_, hlen⟩
  · rw [readLEAt_of_le (by omega), hkey, slice_append_mid _ _ _ _ _ rfl (by simp),
      leNat_leBytes_of_lt hfit.key]
  · rw [readLEAt_of_le (by omega), hvalue, slice_append_mid _ _ _ _ _ (by simp) (by simp),
      leNat_leBytes_of_lt hfit.value]
  · rw [hbody, slice_append_mid _ _ _ _ _ (by simp [entryMetaSize]) rfl]
  · rw [hlast, slice_append_mid _ _ _ _ _ (by simp [entryMetaSize]; omega) rfl]

/-- The parser notes an entry and goes on behind it. -/
theorem scanOffsets_entry {data pre post : Bytes} {e : Bytes × Bytes} (hfit : EntryFits e)
    (hdata : data = pre ++ (encodeEntry e ++ post)) (rounds : ℕ) :
    scanOffsets data (rounds + 1) pre.length = (do
      return pre.length :: (← scanOffsets data rounds (pre ++ encodeEntry e).length)) := by
  have hsize : entrySize e = 6 + e.1.length + e.2.length := rfl
  obtain ⟨hklen, hvlen, -, -, hlen⟩ := entry_fields hfit hdata
  have hnext : pre.length + entryMetaSize + e.1.length + e.2.length = pre.length + entrySize e := by
    simp only [entrySize]
    omega
  rw [scanOffsets, if_pos (by omega), if_neg (by simp only [entryMetaSize]; omega), hklen,
    List.length_append, length_encodeEntry]
  simp only [ok_bind, hvlen, hnext, if_neg (not_lt.mpr hlen)]

/-- The parser finds the entries of an encoding. -/
theorem scanOffsets_encode {es : List (Bytes × Bytes)} (hfit : ∀ e ∈ es, EntryFits e)
    {data pre : Bytes} (hdata : data = pre ++ encodeEntries es) {rounds : ℕ}
    (hrounds : (encodeEntries es).length ≤ rounds) :
    scanOffsets data rounds pre.length = .ok (offsetsFrom pre.length es) := by
  induction es generalizing pre rounds with
  | nil =>
    cases rounds with
    | zero => rfl
    | succ rounds =>
      rw [scanOffsets, if_neg (by simp [hdata])]
      rfl
  | cons e es ih =>
    obtain ⟨he, hes⟩ := List.forall_mem_cons.mp hfit
    have hpos := entrySize_pos e
    rw [encodeEntries_cons] at hdata hrounds
    rw [List.length_append, length_encodeEntry] at hrounds
    obtain ⟨rounds, rfl⟩ : ∃ r, rounds = r + 1 := ⟨rounds - 1, by omega⟩
    have hdata' : data = (pre ++ encodeEntry e) ++ encodeEntries es := by
      rw [hdata, List.append_assoc]
    have hrest := ih hes hdata' (show (encodeEntries es).length ≤ rounds by omega)
    rw [scanOffsets_entry he hdata, hrest, List.length_append, length_encodeEntry]
    rfl

/-- The size of the entry that bytes begin with, going by its header; header bytes that are missing
count as zero. -/
def cutSize (x : Bytes) : ℕ := entryMetaSize + leNat (slice x 0 2) + leNat (slice x 2 4)

theorem entryMetaSize_le_cutSize (x : Bytes) : entryMetaSize ≤ cutSize x := by
  rw [cutSize, Nat.add_assoc]
  exact Nat.le_add_right _ _

/-- Bytes as long as their header says begin with a whole entry. -/
theorem exists_entry {x : Bytes} (h : cutSize x ≤ x.length) :
    ∃ e y, EntryFits e ∧ x = encodeEntry e ++ y ∧ entrySize e = cutSize x := by
  have hmeta : 6 ≤ x.length := (entryMetaSize_le_cutSize x).trans h
  have hklen : (slice x 0 2).length = 2 := length_slice_of_le (by omega)
  have hvlen : (slice x 2 4).length = 4 := length_slice_of_le (by omega)
  have hcut : cutSize x = 6 + leNat (slice x 0 2) + leNat (slice x 2 4) := rfl
  set klen := leNat (slice x 0 2) with hk
  set vlen := leNat (slice x 2 4) with hv
  set e : Bytes × Bytes := (slice x 6 klen, slice x (6 + klen) vlen) with he
  have hkey : e.1.length = klen := length_slice_of_le (by omega)
  have hvalue : e.2.length = vlen := length_slice_of_le (by omega)
  -- the header is read and written back, so the bytes taken are an encoding
  have hentry : encodeEntry e = slice x 0 (2 + (4 + (klen + vlen))) := by
    rw [encodeEntry, hkey, hvalue, hk, hv, leBytes_leNat_of_length hklen,
      leBytes_leNat_of_length hvlen, slice_add, slice_add, slice_add]
  have hsize : 2 + (4 + (klen + vlen)) = cutSize x := by omega
  refine ⟨e, x.drop (cutSize x), ?_, ?_, ?_⟩
  · exact ⟨hkey ▸ leNat_lt_of_length hklen, hvalue ▸ leNat_lt_of_length hvlen⟩
  · rw [hentry, hsize, slice, List.drop_zero, List.take_append_drop]
  · rw [entrySize, hkey, hvalue, hcut]
    rfl

/-- Bytes are whole entries and a rest that does not hold another one. -/
theorem exists_cut (x : Bytes) :
    ∃ es tail, (∀ e ∈ es, EntryFits e) ∧ x = encodeEntries es ++ tail ∧
      tail.length < cutSize tail := by
  induction hn : x.length using Nat.strong_induction_on generalizing x with
  | _ n ih =>
    by_cases hcut : cutSize x ≤ x.length
    swap
    · exact ⟨[], x, by simp, rfl, not_le.mp hcut⟩
    obtain ⟨e, y, he, rfl, -⟩ := exists_entry hcut
    have hpos := entrySize_pos e
    rw [List.length_append, length_encodeEntry] at hn
    obtain ⟨es, tail, hes, rfl, htail⟩ := ih y.length (by omega) y rfl
    exact ⟨e :: es, tail, List.forall_mem_cons.mpr ⟨he, hes⟩,
      by rw [encodeEntries_cons, List.append_assoc], htail⟩

/-- The error for a cut entry of which `n` bytes are there. -/
def cutError (n : ℕ) : SstError :=
  if n < entryMetaSize then .truncatedEntryHeader else .truncatedEntryBody

/-- The parser stops at an entry that is cut short. -/
theorem scanOffsets_cut {es : List (Bytes × Bytes)} (hfit : ∀ e ∈ es, EntryFits e)
    {data pre x : Bytes} (hdata : data = pre ++ (encodeEntries es ++ x)) (hpos : 0 < x.length)
    (hcut : x.length < cutSize x) {rounds : ℕ} (hrounds : es.length < rounds) :
    scanOffsets data rounds pre.length = fail (cutError x.length) := by
  induction es generalizing pre rounds with
  | nil =>
    rw [encodeEntries_nil, List.nil_append] at hdata
    obtain ⟨rounds, rfl⟩ : ∃ r, rounds = r + 1 := ⟨rounds - 1, by omega⟩
    have hlen : data.length = pre.length + x.length := by rw [hdata, List.length_append]
    have hleft : data.length - pre.length = x.length := by omega
    rw [scanOffsets, if_pos (by omega), hleft, cutError]
    -- even the header is cut, or it announces more than there is
    by_cases hheader : x.length < entryMetaSize
    · rw [if_pos hheader, if_pos hheader]
    · have hmeta : 6 ≤ x.length := not_lt.mp hheader
      have hfield : ∀ o w, o + w ≤ 6 → slice data (pre.length + o) w = slice x o w := by
        intro o w how
        rw [hdata, slice_append_add _ _ o _ _ rfl]
      have hbody : data.length <
          pre.length + entryMetaSize + leNat (slice x 0 2) + leNat (slice x 2 4) := by
        rw [cutSize] at hcut
        omega
      rw [if_neg hheader, if_neg hheader, readLEAt_of_le (by omega), readLEAt_of_le (by omega)]
      have hklen := hfield 0 2 (by decide)
      rw [Nat.add_zero] at hklen
      simp only [ok_bind, hklen, hfield 2 4 (by decide), if_pos hbody]
  | cons e es ih =>
    obtain ⟨he, hes⟩ := List.forall_mem_cons.mp hfit
    rw [encodeEntries_cons, List.append_assoc] at hdata
    rw [List.length_cons] at hrounds
    obtain ⟨rounds, rfl⟩ : ∃ r, rounds = r + 1 := ⟨rounds - 1, by omega⟩
    have hrest : scanOffsets data rounds (pre ++ encodeEntry e).length = fail (cutError x.length) :=
      ih hes (by rw [hdata, List.append_assoc]) (by omega)
    rw [scanOffsets_entry he hdata, hrest]
    rfl

theorem length_le_length_encodeEntries (es : List (Bytes × Bytes)) :
    es.length ≤ (encodeEntries es).length := by
  induction es with
  | nil => exact le_rfl
  | cons e es ih =>
    have hpos := entrySize_pos e
    rw [List.length_cons, encodeEntries_cons, List.length_append, length_encodeEntry]
    omega

/-- The outcome on entries with a cut one behind them. -/
theorem newCachedDataBlock_cut {es : List (Bytes × Bytes)} (hfit : ∀ e ∈ es, EntryFits e) {x : Bytes}
    (hpos : 0 < x.length) (hcut : x.length < cutSize x) :
    newCachedDataBlock (encodeEntries es ++ x) = fail (cutError x.length) := by
  have hlen := length_le_length_encodeEntries es
  have hrounds : es.length < (encodeEntries es ++ x).length := by
    rw [List.length_append]
    omega
  have hscan : scanOffsets (encodeEntries es ++ x) (encodeEntries es ++ x).length ([] : Bytes).length =
      fail (cutError x.length) :=
    scanOffsets_cut hfit (List.nil_append _).symm hpos hcut hrounds
  rw [newCachedDataBlock]
  exact congrArg (fun x => x >>= fun os => Except.ok (CachedBlock.mk _ os)) hscan

theorem newCachedDataBlock_encode {es : List (Bytes × Bytes)} (hfit : ∀ e ∈ es, EntryFits e) :
    newCachedDataBlock (encodeEntries es) = .ok (blockOf es) := by
  have hscan := scanOffsets_encode hfit (List.nil_append (encodeEntries es)).symm le_rfl
  rw [newCachedDataBlock]
  exact congrArg (fun x => x >>= fun os => Except.ok (CachedBlock.mk (encodeEntries es) os)) hscan

/-! ## Reading a block -/

/-- **The parser accepts exactly the encodings of entries.** -/
theorem newCachedDataBlock_cases (raw : Bytes) :
    (∃ e, newCachedDataBlock raw = fail e) ∨
      ∃ es : List (Bytes × Bytes), (∀ e ∈ es, EntryFits e) ∧ raw = encodeEntries es ∧
        newCachedDataBlock raw = .ok (blockOf es) := by
  obtain ⟨es, tail, hfit, rfl, hcut⟩ := exists_cut raw
  by_cases htail : tail = []
  · subst htail
    rw [List.append_nil]
    exact Or.inr ⟨es, hfit, rfl, newCachedDataBlock_encode hfit⟩
  · exact Or.inl ⟨_, newCachedDataBlock_cut hfit (List.length_pos_iff_ne_nil.mpr htail) hcut⟩

/-- `entryAt` reads the entries. -/
theorem entryAt_blockOf {es : List (Bytes × Bytes)} (hfit : ∀ e ∈ es, EntryFits e) {i : ℕ}
    (hi : i < es.length) : (blockOf es).entryAt i = .ok es[i] := by
  have hsplit : es = es.take i ++ (es[i] :: es.drop (i + 1)) := by
    rw [← List.drop_eq_getElem_cons hi, List.take_append_drop]
  obtain ⟨e, he⟩ : ∃ e, e = es[i] := ⟨_, rfl⟩
  rw [← he] at hsplit ⊢
  have hfite : EntryFits e := hfit e (he ▸ List.getElem_mem hi)
  have hdata : (blockOf es).data = encodeEntries (es.take i) ++
      (encodeEntry e ++ encodeEntries (es.drop (i + 1))) := by
    show encodeEntries es = _
    conv_lhs => rw [hsplit]
    rw [encodeEntries_append, encodeEntries_cons]
  have hoffset : (blockOf es).entryOffsets[i]? = some (encodeEntries (es.take i)).length := by
    show (offsetsFrom 0 es)[i]? = _
    have hlen : (offsetsFrom 0 (es.take i)).length = i := by simp [hi.le]
    conv_lhs => rw [hsplit, offsetsFrom_append, List.getElem?_append_right hlen.le, hlen]
    simp [offsetsFrom]
  obtain ⟨hklen, hvlen, hkey, hvalue, hlen⟩ := entry_fields hfite hdata
  have hsize : entrySize e = 6 + e.1.length + e.2.length := rfl
  have hmeta : entryMetaSize = 6 := rfl
  rw [CachedBlock.entryAt, elemAt, hoffset]
  simp only [ok_bind, hklen, hvlen]
  rw [sliceBetween_of_le (by omega), ok_bind, sliceBetween_of_le (by omega), ok_bind, hkey, hvalue]
  rfl

/-- The binary search of `lookup` over the keys of the entries. -/
def keySearch (es : List (Bytes × Bytes)) (key : Bytes) : ℕ :=
  Common.search es.length fun i => es[i]?.any fun e => decide (key ≤ e.1)

/-- `lookup` on any entries. -/
theorem lookup_blockOf {es : List (Bytes × Bytes)} (hfit : ∀ e ∈ es, EntryFits e) (key : Bytes) :
    (blockOf es).lookup key =
      .ok (es[keySearch es key]?.bind fun e => if e.1 ≠ key then none else some e.2) := by
  have hlen : (blockOf es).entryOffsets.length = es.length := length_offsetsFrom 0 es
  -- the probes of the binary search all succeed, so it is the search over the keys
  have hprobe : ∀ i < es.length, (do
      let (entryKey, _) ← (blockOf es).entryAt i
      return decide (key ≤ entryKey) : Checked SstError Bool) =
        .ok (es[i]?.any fun e => decide (key ≤ e.1)) := by
    intro i hi
    rw [entryAt_blockOf hfit hi, List.getElem?_eq_getElem hi]
    rfl
  rw [CachedBlock.lookup, hlen, search_eq hprobe, ok_bind]
  have hle : keySearch es key ≤ es.length := search_le _ _
  change (if keySearch es key = es.length then _ else _) = _
  by_cases hend : keySearch es key = es.length
  · rw [if_pos hend, hend, List.getElem?_eq_none le_rfl]
    rfl
  · have hlt : keySearch es key < es.length := lt_of_le_of_ne hle hend
    rw [if_neg hend, List.getElem?_eq_getElem hlt]
    change ((blockOf es).entryAt (keySearch es key) >>= _) = _
    rw [entryAt_blockOf hfit hlt, ok_bind, Option.bind_some]
    obtain ⟨entryKey, value⟩ := es[keySearch es key]
    change (if entryKey ≠ key then _ else _) = _
    split_ifs <;> rfl

/-- `lookup` finds what the sorted entries of the block have under a key. -/
theorem lookup_blockOf_sorted {es : List (Bytes × Bytes)} (hfit : ∀ e ∈ es, EntryFits e)
    (hs : KeySorted es) (key : Bytes) : (blockOf es).lookup key = .ok (getList key es) := by
  have hmono : SwitchesOnce es.length fun i => es[i]?.any fun e => decide (key ≤ e.1) := by
    intro i j hij hj hi
    have hi' : i < es.length := by omega
    beta_reduce at hi ⊢
    rw [List.getElem?_eq_getElem hi'] at hi
    rw [List.getElem?_eq_getElem hj]
    rcases Nat.eq_or_lt_of_le hij with rfl | hlt
    · exact hi
    · have hkeys := List.pairwise_iff_getElem.mp hs i j hi' hj hlt
      simp only [Option.any_some, decide_eq_true_eq] at hi ⊢
      exact hi.trans hkeys.le
  obtain ⟨hle, hbelow, habove⟩ := search_isBorder hmono
  change keySearch es key ≤ es.length at hle
  change ∀ i < keySearch es key, _ at hbelow
  change ∀ i, keySearch es key ≤ i → _ at habove
  rw [lookup_blockOf hfit, Except.ok.injEq]
  -- an entry with the key stands at the border
  have hborder : ∀ i (hi : i < es.length), es[i].1 = key → i = keySearch es key := by
    intro i hi hk
    by_contra hne
    rcases Nat.lt_or_gt_of_ne hne with hlt | hgt
    · have hfalse := hbelow i hlt
      rw [List.getElem?_eq_getElem hi] at hfalse
      simp [hk] at hfalse
    · have hr : keySearch es key < es.length := by omega
      have htrue := habove _ le_rfl hr
      rw [List.getElem?_eq_getElem hr] at htrue
      have hkeys := List.pairwise_iff_getElem.mp hs _ i hr hi hgt
      simp only [Option.any_some, decide_eq_true_eq] at htrue
      rw [hk] at hkeys
      exact absurd htrue hkeys.not_ge
  cases hget : getList key es with
  | some v =>
    obtain ⟨i, hi, hes⟩ := List.mem_iff_getElem.mp (mem_of_getList hget)
    have hi' := hborder i hi (by rw [hes])
    rw [← hi', List.getElem?_eq_getElem hi, hes]
    simp
  | none =>
    cases hat : es[keySearch es key]? with
    | none => rfl
    | some e =>
      have hne := getList_eq_none_iff.mp hget e (List.mem_of_getElem? hat)
      simp [hne]

end Seol.Sstable
