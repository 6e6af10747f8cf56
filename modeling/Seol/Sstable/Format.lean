import Seol.Sstable.Index

/-!
# The file format

Reference: `loadBloomFilter`, `readIndexData` and `writeIndexAndFooter` in `sstable/sstable.go`. A file
is a bloom filter, data blocks, the index and a footer that points back to the index. The checks that
come before the index is decoded pass exactly on files of this shape, whatever the blocks and the index
hold.
-/

namespace Seol.Sstable

open Common Checked

/-- `sstableMagic`. -/
def sstableMagic : ℕ := 0xFF12FF45

/-- `sstableVersion`. -/
def sstableVersion : UInt8 := 2

/-- `sstableFooterSize`: index offset, magic and version. -/
def sstableFooterSize : ℕ := 8 + 4 + 1

/-- The footer of `writeIndexAndFooter`. -/
def footer (indexOffset : ℕ) : Bytes :=
  leBytes 8 indexOffset ++ (leBytes 4 sstableMagic ++ [sstableVersion])

/-- A buffer after `ReadAt`: the bytes of the file from `off` on as far as both reach, then what the
buffer held before. -/
def readInto (file buf : Bytes) (off : ℕ) : Bytes :=
  slice file off buf.length ++ buf.drop (slice file off buf.length).length

/-- `loadBloomFilter`: the filter and its size in the file. -/
def loadBloomFilter (file : Bytes) : Checked SstError (Bloom.Filter × ℕ) :=
  if file.length < sstableFooterSize then fail .fileTooSmall
  else
    match readAt file 0 Bloom.headerSize with
    | none => fail .read
    | some bloomHeader => do
      let gotMagic ← readLEAt 4 bloomHeader 0
      if gotMagic ≠ Bloom.magic then fail (.invalidBloomMagic gotMagic)
      else
        let gotVersion ← elemAt bloomHeader 4
        if gotVersion ≠ Bloom.version then fail (.unsupportedBloomVersion gotVersion)
        else
          let bloomBits ← readLEAt 8 bloomHeader 5
          if bloomBits = 0 ∨ bloomBits % Bloom.wordBits ≠ 0 then fail (.invalidBloomBitCount bloomBits)
          else
            let bloomSize := Bloom.headerSize + bloomBits / Bloom.wordBits * 8
            if file.length < bloomSize + sstableFooterSize then fail .fileTooSmallForBloom
            else
              match readAt file 0 bloomSize with
              | none => fail .read
              | some bloomData => do
                let filter ← mapErr SstError.bloom (Bloom.readFilter bloomData)
                return (filter, bloomSize)

/-- `readIndexData`. The file holds a footer: `loadBloomFilter` looked. -/
def readIndexData (file : Bytes) (bloomSize : ℕ) : Checked SstError Bytes :=
  let footerOffset := file.length - sstableFooterSize
  match readAt file footerOffset sstableFooterSize with
  | none => fail .read
  | some footer => do
    let gotMagic ← readLEAt 4 footer 8
    if gotMagic ≠ sstableMagic then fail (.invalidMagic gotMagic)
    else
      let gotVersion ← elemAt footer 12
      if gotVersion ≠ sstableVersion then fail (.unsupportedVersion gotVersion)
      else
        let indexOffset ← readLEAt 8 footer 0
        if indexOffset < bloomSize ∨ footerOffset < indexOffset then
          fail (.invalidIndexOffset indexOffset)
        else return readInto file (List.replicate (footerOffset - indexOffset) 0) indexOffset

/-- A file of this format. -/
def tableFile (f : Bloom.Filter) (blocks index : Bytes) : Bytes :=
  f.marshalBinary ++ (blocks ++ (index ++ footer (f.marshalBinary.length + blocks.length)))

/-- The filter is one that `ReadFilter` accepts and the footer can hold the index offset. -/
structure FormatOK (f : Bloom.Filter) (blocks : Bytes) : Prop where
  sound : f.Sound
  offset_lt : f.marshalBinary.length + blocks.length < 2 ^ 64

/-! ## Reads -/

@[simp] theorem length_readInto (file buf : Bytes) (off : ℕ) :
    (readInto file buf off).length = buf.length := by
  rw [readInto, List.length_append, List.length_drop, length_slice]
  omega

/-- A read inside the file does not depend on the buffer. -/
theorem readInto_of_le {file buf : Bytes} {off : ℕ} (h : off + buf.length ≤ file.length) :
    readInto file buf off = slice file off buf.length := by
  rw [readInto, length_slice_of_le h, List.drop_length, List.append_nil]

@[simp] theorem length_footer (n : ℕ) : (footer n).length = sstableFooterSize := by
  simp only [footer, List.length_append, length_leBytes, List.length_singleton, sstableFooterSize]

/-! ## The bloom filter -/

/-- The checks of `loadBloomFilter` on a file that holds a header. -/
theorem loadBloomFilter_eq {file : Bytes} (h : Bloom.headerSize ≤ file.length) {v : UInt8}
    (hv : file[4]? = some v) :
    loadBloomFilter file =
      (let bloomBits := leNat (slice file 5 8)
      let bloomSize := Bloom.headerSize + bloomBits / Bloom.wordBits * 8
      if leNat (slice file 0 4) ≠ Bloom.magic then
        fail (.invalidBloomMagic (leNat (slice file 0 4)))
      else if v ≠ Bloom.version then fail (.unsupportedBloomVersion v)
      else if bloomBits = 0 ∨ bloomBits % Bloom.wordBits ≠ 0 then
        fail (.invalidBloomBitCount bloomBits)
      else if file.length < bloomSize + sstableFooterSize then fail .fileTooSmallForBloom
      else do
        let filter ← mapErr SstError.bloom (Bloom.readFilter (slice file 0 bloomSize))
        return (filter, bloomSize)) := by
  have h25 : Bloom.headerSize = 25 := rfl
  have hheader : (slice file 0 Bloom.headerSize).length = Bloom.headerSize :=
    length_slice_of_le (by omega)
  -- the fields are read from a copy of the header, which is what the file starts with
  have hread : ∀ w i, i + w ≤ Bloom.headerSize →
      (readLEAt w (slice file 0 Bloom.headerSize) i : Checked SstError ℕ) =
        .ok (leNat (slice file i w)) := by
    intro w i hi
    rw [readLEAt_of_le (by omega), slice_slice hi, Nat.zero_add]
  have helem : (elemAt (slice file 0 Bloom.headerSize) 4 : Checked SstError UInt8) = .ok v := by
    have hsome : (slice file 0 Bloom.headerSize)[4]? = some v := by
      rw [slice, List.drop_zero, List.getElem?_take_of_lt (by decide), hv]
    rw [elemAt, hsome]
  have hfooter : ¬file.length < sstableFooterSize := by
    simp only [sstableFooterSize]
    omega
  rw [loadBloomFilter, if_neg hfooter, readAt_eq_slice (by omega)]
  simp only [hread 4 0 (by decide), hread 8 5 (by decide), helem, ok_bind]
  by_cases hsize : file.length <
      Bloom.headerSize + leNat (slice file 5 8) / Bloom.wordBits * 8 + sstableFooterSize
  · simp only [if_pos hsize]
  · simp only [if_neg hsize]
    rw [readAt_eq_slice (by omega)]

/-- A filter in front of a file is loaded. -/
theorem loadBloomFilter_append {f : Bloom.Filter} (hf : f.Sound) {rest : Bytes}
    (hrest : sstableFooterSize ≤ rest.length) :
    loadBloomFilter (f.marshalBinary ++ rest) = .ok (f, f.marshalBinary.length) := by
  obtain ⟨hmagic, hversion, hbits, -⟩ := Bloom.marshalBinary_fields f
  have hlen := f.length_marshalBinary
  have h25 : Bloom.headerSize = 25 := rfl
  -- the header is read in front of the rest, as if the filter stood alone
  have hcut : ∀ o l, o + l ≤ 25 →
      slice (f.marshalBinary ++ rest) o l = slice f.marshalBinary o l := fun o l hol =>
    slice_append_left (by omega)
  have hcount : f.numBits.toNat / Bloom.wordBits = f.words.length := by
    have hwords := hf.length_words
    simp only [Bloom.wordBits]
    omega
  have hmod : f.numBits.toNat % Bloom.wordBits = 0 := by
    have hwords := hf.length_words
    simp only [Bloom.wordBits]
    omega
  rw [loadBloomFilter_eq (v := Bloom.version) (by rw [List.length_append]; omega)
    (by rw [List.getElem?_append_left (by omega), hversion])]
  simp only [hcut 0 4 (by decide), hcut 5 8 (by decide), hmagic, hbits]
  rw [leNat_leBytes_of_lt (show Bloom.magic < 256 ^ 4 by decide),
    leNat_leBytes_of_lt f.numBits.toNat_lt, hcount, ← hlen, if_neg (not_not.mpr rfl),
    if_neg (not_not.mpr rfl),
    if_neg (not_or.mpr ⟨hf.bits_pos.ne', not_not.mpr hmod⟩),
    if_neg (by rw [List.length_append]; omega), slice_append_front _ _ _ rfl,
    Bloom.readFilter_marshalBinary hf]
  rfl

/-- Loading the filter fails with an error, or the file starts with the filter. -/
theorem loadBloomFilter_cases (file : Bytes) :
    (∃ e, loadBloomFilter file = fail e) ∨
      ∃ (f : Bloom.Filter) (rest : Bytes), f.Sound ∧ sstableFooterSize ≤ rest.length ∧
        file = f.marshalBinary ++ rest := by
  by_cases hshort : file.length < sstableFooterSize
  · exact Or.inl ⟨_, if_pos hshort⟩
  by_cases hheader : file.length < Bloom.headerSize
  · refine Or.inl ⟨.read, ?_⟩
    rw [loadBloomFilter, if_neg hshort, readAt, if_neg (by decide), if_neg (by omega)]
  have h25 : 25 ≤ file.length := not_lt.mp hheader
  -- the file holds a header; the checks on it follow in the order of the source
  rw [loadBloomFilter_eq (not_lt.mp hheader) (List.getElem?_eq_getElem (by omega))]
  simp only []
  by_cases hmagic : leNat (slice file 0 4) ≠ Bloom.magic
  · exact Or.inl ⟨_, if_pos hmagic⟩
  by_cases hversion : file[4] ≠ Bloom.version
  · exact Or.inl ⟨_, by rw [if_neg hmagic, if_pos hversion]⟩
  rw [if_neg hmagic, if_neg hversion]
  set bloomBits := leNat (slice file 5 8)
  by_cases hbits : bloomBits = 0 ∨ bloomBits % Bloom.wordBits ≠ 0
  · exact Or.inl ⟨_, if_pos hbits⟩
  set bloomSize := Bloom.headerSize + bloomBits / Bloom.wordBits * 8
  by_cases hsize : file.length < bloomSize + sstableFooterSize
  · exact Or.inl ⟨_, by rw [if_neg hbits, if_pos hsize]⟩
  rw [if_neg hbits, if_neg hsize]
  rcases Bloom.readFilter_cases (slice file 0 bloomSize) with ⟨e, hfail⟩ | ⟨f, -, hf, hdata⟩
  · exact Or.inl ⟨.bloom e, by rw [hfail]; rfl⟩
  · refine Or.inr ⟨f, file.drop bloomSize, hf, ?_, ?_⟩
    · rw [List.length_drop]
      omega
    · rw [← hdata, slice, List.drop_zero, List.take_append_drop]

/-! ## The footer -/

/-- The checks of `readIndexData` on a file that ends in 13 bytes of a footer. -/
theorem readIndexData_append {body foot : Bytes} (hfoot : foot.length = sstableFooterSize) {v : UInt8}
    (hv : foot[12]? = some v) (bloomSize : ℕ) :
    readIndexData (body ++ foot) bloomSize =
      (let indexOffset := leNat (slice foot 0 8)
      if leNat (slice foot 8 4) ≠ sstableMagic then fail (.invalidMagic (leNat (slice foot 8 4)))
      else if v ≠ sstableVersion then fail (.unsupportedVersion v)
      else if indexOffset < bloomSize ∨ body.length < indexOffset then
        fail (.invalidIndexOffset indexOffset)
      else .ok (body.drop indexOffset)) := by
  have h13 : foot.length = 13 := hfoot
  have hoff : (body ++ foot).length - sstableFooterSize = body.length := by
    rw [List.length_append, hfoot]
    omega
  have hread : readAt (body ++ foot) body.length sstableFooterSize = some foot := by
    rw [readAt_eq_slice (by rw [List.length_append, hfoot]),
      slice_append_right _ _ _ _ rfl, List.take_of_length_le hfoot.le]
  have helem : (elemAt foot 12 : Checked SstError UInt8) = .ok v := by rw [elemAt, hv]
  rw [readIndexData]
  simp only [hoff, hread]
  rw [readLEAt_of_le (by omega), helem, readLEAt_of_le (by omega)]
  simp only [ok_bind]
  by_cases hbad : leNat (slice foot 0 8) < bloomSize ∨ body.length < leNat (slice foot 0 8)
  · simp only [if_pos hbad]
  · simp only [if_neg hbad]
    -- the offset points into the body, so the buffer for the index is filled
    have hle : leNat (slice foot 0 8) ≤ body.length := by omega
    have hindex : readInto (body ++ foot)
        (List.replicate (body.length - leNat (slice foot 0 8)) 0) (leNat (slice foot 0 8)) =
          body.drop (leNat (slice foot 0 8)) := by
      rw [readInto_of_le (by rw [List.length_replicate, List.length_append]; omega),
        List.length_replicate, slice_append_left (by omega), slice,
        List.take_of_length_le (by rw [List.length_drop])]
    rw [hindex]
    rfl

theorem footer_fields (n : ℕ) :
    slice (footer n) 0 8 = leBytes 8 n ∧ slice (footer n) 8 4 = leBytes 4 sstableMagic ∧
      (footer n)[12]? = some sstableVersion := by
  refine ⟨slice_append_front _ _ _ (by simp), ?_, ?_⟩
  · exact slice_append_mid _ _ _ _ _ (by simp) (by simp)
  · rw [footer, List.getElem?_append_right (by simp), List.getElem?_append_right (by simp)]
    simp

/-- The index of a file of the format is read. -/
theorem readIndexData_tableFile {f : Bloom.Filter} {blocks : Bytes} (h : FormatOK f blocks)
    (index : Bytes) :
    readIndexData (tableFile f blocks index) f.marshalBinary.length = .ok index := by
  set n := f.marshalBinary.length + blocks.length with hn
  obtain ⟨hoffset, hmagic, hversion⟩ := footer_fields n
  have hfile : tableFile f blocks index = (f.marshalBinary ++ blocks ++ index) ++ footer n := by
    rw [tableFile, List.append_assoc, List.append_assoc]
  have hle : ¬(n < f.marshalBinary.length ∨ (f.marshalBinary ++ blocks ++ index).length < n) := by
    rw [List.length_append, List.length_append]
    omega
  rw [hfile, readIndexData_append (length_footer n) hversion]
  simp only [hoffset, hmagic]
  rw [leNat_leBytes_of_lt (by decide), leNat_leBytes_of_lt h.offset_lt, if_neg (not_not.mpr rfl),
    if_neg (not_not.mpr rfl), if_neg hle, hn, ← List.length_append, List.drop_left]

/-- Reading the index fails with an error, or the file has the format. -/
theorem readIndexData_cases (f : Bloom.Filter) {rest : Bytes} (hrest : sstableFooterSize ≤ rest.length) :
    (∃ e, readIndexData (f.marshalBinary ++ rest) f.marshalBinary.length = fail e) ∨
      ∃ blocks index, f.marshalBinary.length + blocks.length < 2 ^ 64 ∧
        f.marshalBinary ++ rest = tableFile f blocks index := by
  set m := rest.length - sstableFooterSize with hm
  have hfoot : (rest.drop m).length = sstableFooterSize := by
    rw [List.length_drop]
    omega
  have h13 : (rest.drop m).length = 13 := hfoot
  set foot := rest.drop m with hfootDef
  set body := f.marshalBinary ++ rest.take m with hbody
  have hfile : f.marshalBinary ++ rest = body ++ foot := by
    rw [hbody, List.append_assoc, List.take_append_drop]
  rw [hfile, readIndexData_append hfoot (List.getElem?_eq_getElem (by omega))]
  simp only []
  by_cases hmagic : leNat (slice foot 8 4) ≠ sstableMagic
  · exact Or.inl ⟨_, if_pos hmagic⟩
  by_cases hversion : foot[12] ≠ sstableVersion
  · exact Or.inl ⟨_, by rw [if_neg hmagic, if_pos hversion]⟩
  rw [if_neg hmagic, if_neg hversion]
  have hfield : (slice foot 0 8).length = 8 := length_slice_of_le (by omega)
  have hlt : leNat (slice foot 0 8) < 2 ^ 64 := leNat_lt_of_length hfield
  set indexOffset := leNat (slice foot 0 8) with hindexOffset
  by_cases hbad : indexOffset < f.marshalBinary.length ∨ body.length < indexOffset
  · exact Or.inl ⟨_, if_pos hbad⟩
  obtain ⟨hlow, hhigh⟩ := not_or.mp hbad
  have hbodyLen : body.length = f.marshalBinary.length + m := by
    rw [hbody, List.length_append, List.length_take]
    omega
  -- the blocks end where the footer says the index begins
  set blocks := (rest.take m).take (indexOffset - f.marshalBinary.length) with hblocks
  have hend : f.marshalBinary.length + blocks.length = indexOffset := by
    rw [hblocks, List.length_take, List.length_take]
    omega
  have hfooter : foot = footer indexOffset := by
    have hall : foot = slice foot 0 (8 + (4 + 1)) := by
      rw [slice, List.drop_zero, List.take_of_length_le h13.le]
    have hone : slice foot (8 + 4) 1 = [sstableVersion] := by
      rw [slice, List.drop_eq_getElem_cons (by omega : 12 < foot.length), List.take_succ_cons,
        List.take_zero, not_not.mp hversion]
    have hmagicBytes : slice foot 8 4 = leBytes 4 sstableMagic := by
      rw [← not_not.mp hmagic, leBytes_leNat_of_length (length_slice_of_le (by omega))]
    rw [footer, hindexOffset, leBytes_leNat_of_length hfield, ← hone, ← hmagicBytes]
    conv_lhs => rw [hall, slice_add, slice_add, Nat.zero_add]
  refine Or.inr ⟨blocks, (rest.take m).drop (indexOffset - f.marshalBinary.length),
    by rw [hend]; exact hlt, ?_⟩
  have hsplit : rest.take m = blocks ++ (rest.take m).drop (indexOffset - f.marshalBinary.length) :=
    (List.take_append_drop _ _).symm
  rw [tableFile, hend, ← hfooter, ← List.append_assoc blocks, ← hsplit, ← List.append_assoc]

end Seol.Sstable
