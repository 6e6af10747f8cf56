import Seol.Sstable.Open

/-!
# Block reads past the end of the file

Reference: `getCachedBlock` and `getDataBlock` in `sstable/sstable.go`. A block is read into a buffer of
a pool, and the error of a read that meets the end of the file is dropped. A range that goes past the end
is then completed from what the buffer held before, or from zeros when the block is too large for the
pool. Such a read fails for every buffer only where the entry that the end cuts cannot be completed.
-/

namespace Seol.Sstable

open Common Checked

/-! ## Completing a cut entry -/

theorem cutSize_le_append (x y : Bytes) : cutSize x ≤ cutSize (x ++ y) := by
  have hfield : ∀ o w, leNat (slice x o w) ≤ leNat (slice (x ++ y) o w) := by
    intro o w
    rw [slice, slice, List.drop_append, List.take_append, leNat_append]
    exact Nat.le_add_right _ _
  have hklen := hfield 0 2
  have hvlen := hfield 2 4
  simp only [cutSize]
  omega

theorem cutSize_append_of_le {x : Bytes} (h : entryMetaSize ≤ x.length) (y : Bytes) :
    cutSize (x ++ y) = cutSize x := by
  have hmeta : 6 ≤ x.length := h
  rw [cutSize, slice_append_left (by omega), slice_append_left (by omega)]
  rfl

theorem cutSize_append_zeros (x : Bytes) (k : ℕ) :
    cutSize (x ++ List.replicate k 0) = cutSize x := by
  have hfield : ∀ o w, leNat (slice (x ++ List.replicate k 0) o w) = leNat (slice x o w) := by
    intro o w
    rw [slice, slice, List.drop_append, List.take_append, leNat_append, List.drop_replicate,
      List.take_replicate, leNat_replicate_zero, Nat.mul_zero, Nat.add_zero]
  rw [cutSize, hfield, hfield]
  rfl

/-- Empty entries are zeros. -/
theorem encodeEntries_replicate (m : ℕ) :
    encodeEntries (List.replicate m ([], [])) = List.replicate (entryMetaSize * m) 0 := by
  induction m with
  | zero => rfl
  | succ m ih =>
    rw [List.replicate_succ, encodeEntries_cons, ih, Nat.mul_succ, Nat.add_comm,
      List.replicate_add]
    rfl

theorem fits_empty (m : ℕ) : ∀ e ∈ List.replicate m (([], []) : Bytes × Bytes), EntryFits e := by
  intro e he
  obtain rfl := List.eq_of_mem_replicate he
  exact ⟨by decide, by decide⟩

/-- Bytes of exactly the announced size are one entry. -/
theorem eq_entry_of_length_eq {x : Bytes} (hx : x.length = cutSize x) :
    ∃ e, EntryFits e ∧ x = encodeEntry e := by
  obtain ⟨e, y, he, hxy, hsize⟩ := exists_entry hx.ge
  have hlen : x.length = cutSize x + y.length := by
    rw [hxy, List.length_append, length_encodeEntry, ← hxy, hsize]
  obtain rfl : y = [] := List.length_eq_zero_iff.mp (by omega)
  exact ⟨e, he, by rw [hxy, List.append_nil]⟩

section Completion

variable {es : List (Bytes × Bytes)} (hes : ∀ e ∈ es, EntryFits e) {tail : Bytes}

include hes

/-- An entry that does not fit the range fails, whatever completes it. -/
theorem parse_too_short {stale : Bytes} (hpos : 0 < (tail ++ stale).length)
    (h : (tail ++ stale).length < entryMetaSize ∨ (tail ++ stale).length < cutSize tail) :
    newCachedDataBlock (encodeEntries es ++ (tail ++ stale)) =
      fail (cutError (tail ++ stale).length) := by
  apply newCachedDataBlock_cut hes hpos
  rcases h with h | h
  · exact h.trans_le (entryMetaSize_le_cutSize _)
  · exact h.trans_le (cutSize_le_append _ _)

/-- An entry that leaves less than a header behind it fails. -/
theorem parse_short_rest {x : Bytes} (hlt : cutSize x < x.length)
    (hrest : x.length < cutSize x + entryMetaSize) :
    newCachedDataBlock (encodeEntries es ++ x) = fail .truncatedEntryHeader := by
  obtain ⟨e, y, he, hx, hsize⟩ := exists_entry hlt.le
  have hlen : x.length = cutSize x + y.length := by
    rw [hx, List.length_append, length_encodeEntry, ← hx, hsize]
  have hfits : ∀ e' ∈ es ++ [e], EntryFits e' :=
    List.forall_mem_append.mpr ⟨hes, List.forall_mem_singleton.mpr he⟩
  have hshort : y.length < entryMetaSize := by omega
  have hsplit : encodeEntries es ++ x = encodeEntries (es ++ [e]) ++ y := by
    rw [encodeEntries_append, encodeEntries_cons, encodeEntries_nil, List.append_nil,
      List.append_assoc, ← hx]
  rw [hsplit, newCachedDataBlock_cut hfits (by omega)
    (hshort.trans_le (entryMetaSize_le_cutSize y)), cutError, if_pos hshort]

/-- Whole entries behind an entry of its announced size parse. -/
theorem parse_whole {x : Bytes} (hx : x.length = cutSize x) {fs : List (Bytes × Bytes)}
    (hfs : ∀ e ∈ fs, EntryFits e) :
    ∃ b, newCachedDataBlock (encodeEntries es ++ (x ++ encodeEntries fs)) = .ok b := by
  obtain ⟨e, he, rfl⟩ := eq_entry_of_length_eq hx
  have hfits : ∀ e' ∈ es ++ e :: fs, EntryFits e' :=
    List.forall_mem_append.mpr ⟨hes, List.forall_mem_cons.mpr ⟨he, hfs⟩⟩
  rw [← encodeEntries_cons, ← encodeEntries_append]
  exact ⟨_, newCachedDataBlock_encode hfits⟩

/-- A cut entry completed by zeros, and zeros up to the end of the range. -/
theorem parse_zeros (hcut : tail.length < cutSize tail) {k : ℕ}
    (hle : cutSize tail ≤ tail.length + k) :
    if (tail.length + k - cutSize tail) % entryMetaSize = 0 then
      ∃ b, newCachedDataBlock (encodeEntries es ++ (tail ++ List.replicate k 0)) = .ok b
    else
      newCachedDataBlock (encodeEntries es ++ (tail ++ List.replicate k 0)) =
        fail .truncatedEntryHeader := by
  set m := tail.length + k - cutSize tail with hm
  -- the completed entry, the empty entries behind it, and the zeros that are left
  set x := tail ++ List.replicate (cutSize tail - tail.length) (0 : UInt8) with hx
  have hxlen : x.length = cutSize x := by
    rw [hx, cutSize_append_zeros, List.length_append, List.length_replicate]
    omega
  have hdiv := Nat.div_add_mod m entryMetaSize
  have hsplit : tail ++ List.replicate k 0 =
      x ++ (encodeEntries (List.replicate (m / entryMetaSize) ([], [])) ++
        List.replicate (m % entryMetaSize) 0) := by
    rw [encodeEntries_replicate, ← List.replicate_add, hdiv, hx, List.append_assoc,
      ← List.replicate_add]
    congr 2
    omega
  have hmod : m % entryMetaSize < entryMetaSize := Nat.mod_lt _ (by decide)
  rw [hsplit]
  by_cases hzero : m % entryMetaSize = 0
  · rw [if_pos hzero, hzero, List.replicate_zero, List.append_nil]
    exact parse_whole hes hxlen (fits_empty _)
  · rw [if_neg hzero]
    obtain ⟨e, he, hxe⟩ := eq_entry_of_length_eq hxlen
    have hfits : ∀ e' ∈ es ++ e :: List.replicate (m / entryMetaSize) ([], []), EntryFits e' :=
      List.forall_mem_append.mpr ⟨hes, List.forall_mem_cons.mpr ⟨he, fits_empty _⟩⟩
    have hall : encodeEntries es ++ (x ++ (encodeEntries (List.replicate (m / entryMetaSize) ([], []))
        ++ List.replicate (m % entryMetaSize) 0)) =
          encodeEntries (es ++ e :: List.replicate (m / entryMetaSize) ([], [])) ++
            List.replicate (m % entryMetaSize) 0 := by
      rw [encodeEntries_append, encodeEntries_cons, ← hxe]
      simp only [List.append_assoc]
    have hshort : (List.replicate (m % entryMetaSize) (0 : UInt8)).length < entryMetaSize := by
      rwa [List.length_replicate]
    rw [hall, newCachedDataBlock_cut hfits (by rw [List.length_replicate]; omega)
      (hshort.trans_le (entryMetaSize_le_cutSize _)), cutError, if_pos hshort]

/-- A cut entry completed by zeros, and one more entry when there is room for it. -/
theorem exists_parse_of_room (hcut : tail.length < cutSize tail) {n : ℕ} (hn : n ≤ blockSize)
    (hroom : n = cutSize tail ∨ cutSize tail + entryMetaSize ≤ n) :
    ∃ stale b, (tail ++ stale).length = n ∧
      newCachedDataBlock (encodeEntries es ++ (tail ++ stale)) = .ok b := by
  have hx : (tail ++ List.replicate (cutSize tail - tail.length) (0 : UInt8)).length =
      cutSize (tail ++ List.replicate (cutSize tail - tail.length) 0) := by
    rw [cutSize_append_zeros, List.length_append, List.length_replicate]
    omega
  -- the rest of the buffer can hold any whole entries
  have hfollow : ∀ fs : List (Bytes × Bytes), (∀ e ∈ fs, EntryFits e) →
      n = cutSize tail + (encodeEntries fs).length →
      ∃ stale b, (tail ++ stale).length = n ∧
        newCachedDataBlock (encodeEntries es ++ (tail ++ stale)) = .ok b := by
    intro fs hfs hlen
    obtain ⟨b, hok⟩ := parse_whole hes hx hfs
    refine ⟨List.replicate (cutSize tail - tail.length) 0 ++ encodeEntries fs, b, ?_, ?_⟩
    · simp only [List.length_append, List.length_replicate]
      omega
    · rwa [← List.append_assoc tail]
  rcases hroom with heq | hle
  · exact hfollow [] (by simp) (by simpa using heq)
  -- one more entry, with an empty key and a value that fills the buffer
  · refine hfollow [([], List.replicate (n - cutSize tail - entryMetaSize) 0)] ?_ ?_
    · refine List.forall_mem_singleton.mpr ⟨Nat.two_pow_pos 16, ?_⟩
      have hblock : blockSize < 2 ^ 32 := by decide
      rw [List.length_replicate]
      omega
    · rw [encodeEntries_cons, encodeEntries_nil, List.append_nil, length_encodeEntry, entrySize,
        List.length_nil, List.length_replicate]
      omega

/-- A header that is not all there, completed by bytes `0xff`, announces a value too large for any
pooled block. -/
theorem parse_ones (hheader : tail.length < entryMetaSize) {k : ℕ}
    (hmeta : entryMetaSize ≤ tail.length + k) (hblock : tail.length + k ≤ blockSize) :
    newCachedDataBlock (encodeEntries es ++ (tail ++ List.replicate k 255)) =
      fail .truncatedEntryBody := by
  set x := tail ++ List.replicate k (255 : UInt8) with hx
  have hlen : x.length = tail.length + k := by rw [hx, List.length_append, List.length_replicate]
  have hsix : tail.length < 6 ∧ 6 ≤ tail.length + k ∧ tail.length + k ≤ 4096 := ⟨hheader, hmeta, hblock⟩
  have hbyte : slice x 5 1 = [255] := by
    have hget : x[5]? = some 255 := by
      rw [hx, List.getElem?_append_right (by omega), List.getElem?_replicate, if_pos (by omega)]
    obtain ⟨hlt, hval⟩ := List.getElem?_eq_some_iff.mp hget
    rw [slice, List.drop_eq_getElem_cons hlt, List.take_succ_cons, List.take_zero, hval]
  -- the highest byte of the value size is `0xff`, whatever the others are
  have hvlen : 255 * 256 ^ 3 ≤ leNat (slice x 2 4) := by
    have hthree : (slice x 2 3).length = 3 := length_slice_of_le (by omega)
    rw [slice_add x 2 3 1, hbyte, leNat_append, hthree]
    simp [leNat]
  have hcut : x.length < cutSize x := by
    rw [cutSize, hlen]
    omega
  rw [newCachedDataBlock_cut hes (by omega) hcut, cutError, if_neg (by rw [hlen]; omega)]

/-- If all completions of a cut entry fail with one error, its header is whole and less than a header
is left behind the entry. -/
theorem header_of_parse_fail (hcut : tail.length < cutSize tail) {n : ℕ} (hmeta : entryMetaSize ≤ n)
    (hsize : cutSize tail ≤ n) (hblock : n ≤ blockSize) {e : SstError}
    (hfail : ∀ stale : Bytes, (tail ++ stale).length = n →
      newCachedDataBlock (encodeEntries es ++ (tail ++ stale)) = fail e) :
    entryMetaSize ≤ tail.length ∧ n ≠ cutSize tail ∧ n < cutSize tail + entryMetaSize := by
  have hroom : ¬(n = cutSize tail ∨ cutSize tail + entryMetaSize ≤ n) := by
    intro hroom
    obtain ⟨stale, b, hlen, hok⟩ := exists_parse_of_room hes hcut hblock hroom
    rw [hfail stale hlen] at hok
    cases hok
  refine ⟨?_, fun heq => hroom (Or.inl heq), not_le.mp fun hle => hroom (Or.inr hle)⟩
  by_contra hheader
  -- with bytes of the header missing, zeros and ones are not refused alike
  have hlen : ∀ b : UInt8, (tail ++ List.replicate (n - tail.length) b).length = n := by
    intro b
    rw [List.length_append, List.length_replicate]
    omega
  have hzeros := parse_zeros hes hcut (k := n - tail.length) (by omega)
  have hones := parse_ones hes (not_le.mp hheader) (k := n - tail.length) (by omega) (by omega)
  rw [hfail _ (hlen 255)] at hones
  rw [hfail _ (hlen 0), hones] at hzeros
  split_ifs at hzeros with hmod
  · obtain ⟨b, hok⟩ := hzeros
    cases hok
  · cases hzeros

end Completion

/-! ## Reads -/

/-- What the file has of a range. -/
def available (file : Bytes) (ra : DataRange) : Bytes := slice file ra.offset.toNat ra.length.toNat

theorem length_available_le (file : Bytes) (ra : DataRange) :
    (available file ra).length ≤ ra.length.toNat := by
  rw [available, length_slice]
  exact min_le_left _ _

@[simp] theorem length_getDataBlock (pool : BlockPool) (n length : ℕ) :
    (getDataBlock pool n length).length = length := by
  rw [getDataBlock]
  split_ifs with h
  · rw [List.length_replicate]
  · rw [List.length_map, List.length_range]

namespace Table

variable {t : Table} {ra : DataRange}

theorem rawBlock_eq (pool : BlockPool) :
    t.rawBlock pool ra = available t.file ra ++
      (getDataBlock pool t.leases ra.length.toNat).drop (available t.file ra).length := by
  rw [rawBlock, readInto, length_getDataBlock]
  rfl

/-- A range inside the file is read from the file alone. -/
theorem rawBlock_of_le (h : ra.offset.toNat + ra.length.toNat ≤ t.file.length) (pool : BlockPool) :
    t.rawBlock pool ra = available t.file ra := by
  rw [rawBlock, readInto_of_le (by rwa [length_getDataBlock]), length_getDataBlock]
  rfl

/-- A block too large for the pool is completed by zeros. -/
theorem rawBlock_of_large (h : blockSize < ra.length.toNat) (pool : BlockPool) :
    t.rawBlock pool ra = available t.file ra ++
      List.replicate (ra.length.toNat - (available t.file ra).length) 0 := by
  rw [rawBlock_eq, getDataBlock, if_pos h, List.drop_replicate]

/-- A range that covers bytes behind the end of the file. -/
def PastEnd (t : Table) (ra : DataRange) : Prop :=
  0 < ra.length.toNat ∧ t.file.length < ra.offset.toNat + ra.length.toNat

theorem rawBlock_of_not_pastEnd (h : ¬t.PastEnd ra) (pool : BlockPool) :
    t.rawBlock pool ra = available t.file ra := by
  by_cases hempty : ra.length.toNat = 0
  · rw [rawBlock_eq, available, hempty]
    rfl
  · refine rawBlock_of_le ?_ pool
    by_contra hout
    exact h ⟨by omega, by omega⟩

/-- A pool that holds the given bytes at each lease. -/
def poolOf (buf : ℕ → Bytes) : BlockPool := fun n i => (buf n).getD i 0

/-- The pool can complete a block in any way. -/
theorem rawBlock_poolOf (h : ra.length.toNat ≤ blockSize) {buf : ℕ → Bytes} {stale : Bytes}
    (hlen : (available t.file ra).length + stale.length = ra.length.toNat)
    (hbuf : buf t.leases = available t.file ra ++ stale) :
    t.rawBlock (poolOf buf) ra = available t.file ra ++ stale := by
  have hblock : getDataBlock (poolOf buf) t.leases ra.length.toNat =
      available t.file ra ++ stale := by
    rw [getDataBlock, if_neg (not_lt.mpr h)]
    apply List.ext_getElem
    · rw [List.length_map, List.length_range, List.length_append, hlen]
    · intro i hi hi'
      rw [List.getElem_map, List.getElem_range, poolOf, hbuf, List.getD_eq_getElem]
  rw [rawBlock_eq, hblock, List.drop_left]

theorem exists_pool (h : ra.length.toNat ≤ blockSize) {stale : Bytes}
    (hlen : (available t.file ra).length + stale.length = ra.length.toNat) :
    ∃ pool, t.rawBlock pool ra = available t.file ra ++ stale :=
  ⟨poolOf fun _ => available t.file ra ++ stale, rawBlock_poolOf h hlen rfl⟩

/-- The bytes read are those of the file and as many more as the range asks for. -/
theorem exists_stale (pool : BlockPool) :
    ∃ stale, (available t.file ra).length + stale.length = ra.length.toNat ∧
      t.rawBlock pool ra = available t.file ra ++ stale := by
  refine ⟨_, ?_, rawBlock_eq pool⟩
  have hle := length_available_le t.file ra
  rw [List.length_drop, length_getDataBlock]
  omega

/-- A load that is not answered from the cache. -/
theorem getCachedBlock_uncached (hcache : t.blockCache.get ra.offset = none) (pool : BlockPool) :
    (t.getCachedBlock pool ra).1 =
      if ReadRefused ra.offset.toNat ra.length.toNat then fail .read
      else newCachedDataBlock (t.rawBlock pool ra) := by
  rw [getCachedBlock, hcache]
  simp only []
  by_cases hrefused : ReadRefused ra.offset.toNat ra.length.toNat
  · rw [if_pos hrefused, if_pos hrefused]
  · rw [if_neg hrefused, if_neg hrefused, rawBlock]
    cases newCachedDataBlock (readInto t.file (getDataBlock pool t.leases ra.length.toNat)
      ra.offset.toNat) with
    | error e => rfl
    | ok b => rfl

/-- A load gives the same for all contents of the pool, and a read past the end fails. -/
def ReadsFileOnly (t : Table) (ra : DataRange) : Prop :=
  (∀ pool pool', (t.getCachedBlock pool ra).1 = (t.getCachedBlock pool' ra).1) ∧
  (t.blockCache.get ra.offset = none → t.PastEnd ra →
    ∀ pool, ∃ e, (t.getCachedBlock pool ra).1 = fail e)

/-- The entry that the end of the file cuts fails in any completion: the range has no room for its header
or, missing header bytes read as zero, for its size; or its header is in the file and leaves between one
and five bytes of the range behind it. Blocks too large for the pool are completed by zeros, which are
empty entries of six bytes. -/
def CutRefused (available : Bytes) (length : ℕ) : Prop :=
  ∃ es tail, (∀ e ∈ es, EntryFits e) ∧ available = encodeEntries es ++ tail ∧
    tail.length < cutSize tail ∧
    (length - (encodeEntries es).length < entryMetaSize ∨
      length - (encodeEntries es).length < cutSize tail ∨
      if length ≤ blockSize then
        entryMetaSize ≤ tail.length ∧ length - (encodeEntries es).length ≠ cutSize tail ∧
          length - (encodeEntries es).length < cutSize tail + entryMetaSize
      else (length - (encodeEntries es).length - cutSize tail) % entryMetaSize ≠ 0)

/-- The file ends inside a range that covers bytes behind its end. -/
theorem PastEnd.available_lt (h : t.PastEnd ra) :
    (available t.file ra).length < ra.length.toNat := by
  obtain ⟨hpos, hend⟩ := h
  rw [available, length_slice]
  omega

/-- A refused cut is refused with one error, whatever the pool holds. -/
theorem parse_of_cutRefused (hpast : t.PastEnd ra)
    (h : CutRefused (available t.file ra) ra.length.toNat) :
    ∃ e, ∀ pool, newCachedDataBlock (t.rawBlock pool ra) = fail e := by
  have hlt := hpast.available_lt
  obtain ⟨es, tail, hes, havail, hcut, hcond⟩ := h
  have hlen : (available t.file ra).length = (encodeEntries es).length + tail.length := by
    rw [havail, List.length_append]
  set n := ra.length.toNat - (encodeEntries es).length with hn
  have hraw : ∀ pool, ∃ stale, (tail ++ stale).length = n ∧
      t.rawBlock pool ra = encodeEntries es ++ (tail ++ stale) := by
    intro pool
    obtain ⟨stale, hstale, hraw⟩ := exists_stale (t := t) pool
    refine ⟨stale, ?_, by rw [hraw, havail, List.append_assoc]⟩
    rw [List.length_append]
    omega
  -- too short for the entry however it is completed, or refused by what the buffer holds for
  -- certain
  by_cases hshort : n < entryMetaSize ∨ n < cutSize tail
  · refine ⟨cutError n, fun pool => ?_⟩
    obtain ⟨stale, hstale, hraw⟩ := hraw pool
    rw [hraw, parse_too_short hes (by omega) (by rwa [hstale]), hstale]
  obtain ⟨hmeta, hsize⟩ := not_or.mp hshort
  have hcond' := (hcond.resolve_left hmeta).resolve_left hsize
  refine ⟨.truncatedEntryHeader, fun pool => ?_⟩
  by_cases hpooled : ra.length.toNat ≤ blockSize
  · rw [if_pos hpooled] at hcond'
    obtain ⟨hheader, hne, hrest⟩ := hcond'
    obtain ⟨stale, hstale, hraw⟩ := hraw pool
    have hsame := cutSize_append_of_le hheader stale
    rw [hraw]
    exact parse_short_rest hes (by omega) (by omega)
  -- a buffer that is not pooled is new, so its rest is zeros
  · rw [if_neg hpooled] at hcond'
    have hzeros := parse_zeros hes hcut (k := ra.length.toNat - (available t.file ra).length) (by omega)
    have htotal : tail.length + (ra.length.toNat - (available t.file ra).length) = n := by omega
    rw [htotal, if_neg hcond'] at hzeros
    rw [rawBlock_of_large (not_le.mp hpooled), havail, List.append_assoc, ← havail]
    exact hzeros

/-- Where the cut is not refused, two pools give different outcomes or one completes the block. -/
theorem cutRefused_of_parse (hpast : t.PastEnd ra)
    (hsame : ∀ pool pool', newCachedDataBlock (t.rawBlock pool ra) =
      newCachedDataBlock (t.rawBlock pool' ra))
    (hfail : ∀ pool, ∃ e, newCachedDataBlock (t.rawBlock pool ra) = fail e) :
    CutRefused (available t.file ra) ra.length.toNat := by
  have hlt := hpast.available_lt
  obtain ⟨es, tail, hes, havail, hcut⟩ := exists_cut (available t.file ra)
  have hlen : (available t.file ra).length = (encodeEntries es).length + tail.length := by
    rw [havail, List.length_append]
  refine ⟨es, tail, hes, havail, hcut, ?_⟩
  set n := ra.length.toNat - (encodeEntries es).length with hn
  by_cases hmeta : n < entryMetaSize
  · exact Or.inl hmeta
  by_cases hsize : n < cutSize tail
  · exact Or.inr (Or.inl hsize)
  refine Or.inr (Or.inr ?_)
  obtain ⟨e, herr⟩ := hfail fun _ _ => 0
  by_cases hpooled : ra.length.toNat ≤ blockSize
  swap
  · -- zeros complete the block
    rw [if_neg hpooled]
    intro hmod
    set k := ra.length.toNat - (available t.file ra).length with hk
    have hnk : tail.length + k = n := by omega
    have hzeros := parse_zeros hes hcut (k := k) (by omega)
    rw [hnk, if_pos hmod] at hzeros
    obtain ⟨b, hok⟩ := hzeros
    rw [rawBlock_of_large (not_le.mp hpooled), havail, List.append_assoc, ← havail, hok] at herr
    cases herr
  rw [if_pos hpooled]
  refine header_of_parse_fail hes hcut (not_lt.mp hmeta) (not_lt.mp hsize) (by omega) (e := e)
    fun stale hstale => ?_
  rw [List.length_append] at hstale
  have hfull : (available t.file ra).length + stale.length = ra.length.toNat := by omega
  obtain ⟨pool, hpool⟩ := exists_pool hpooled hfull
  rw [← List.append_assoc, ← havail, ← hpool, hsame pool, herr]

/-- **Reads past the end.** A load depends on the file alone, with an error past its end, iff it is
answered from the cache, the system refuses it, its range lies in the file, or the entry that the end
of the file cuts fails in any completion. -/
theorem readsFileOnly_iff (t : Table) (ra : DataRange) :
    t.ReadsFileOnly ra ↔
      t.blockCache.get ra.offset ≠ none ∨ ReadRefused ra.offset.toNat ra.length.toNat ∨
        ¬t.PastEnd ra ∨ CutRefused (available t.file ra) ra.length.toNat := by
  by_cases hcache : t.blockCache.get ra.offset = none
  swap
  · refine ⟨fun _ => Or.inl hcache, fun _ => ⟨fun pool pool' => ?_, fun hnone => absurd hnone hcache⟩⟩
    obtain ⟨b, hb⟩ := Option.ne_none_iff_exists'.mp hcache
    rw [getCachedBlock, getCachedBlock, hb]
  simp only [ReadsFileOnly, getCachedBlock_uncached hcache, hcache, ne_eq, not_true_eq_false,
    false_or, forall_const]
  by_cases hrefused : ReadRefused ra.offset.toNat ra.length.toNat
  · simp only [if_pos hrefused]
    exact ⟨fun _ => Or.inl hrefused, fun _ => ⟨fun _ _ => trivial, fun _ _ => ⟨.read, rfl⟩⟩⟩
  simp only [if_neg hrefused]
  by_cases hpast : t.PastEnd ra
  swap
  · refine ⟨fun _ => Or.inr (Or.inl hpast), fun _ => ⟨fun pool pool' => ?_, fun h => absurd h hpast⟩⟩
    rw [rawBlock_of_not_pastEnd hpast, rawBlock_of_not_pastEnd hpast]
  constructor
  -- past the end, a load that no pool can make succeed is one whose cut is refused
  · rintro ⟨hsame, hfail⟩
    exact Or.inr (Or.inr (cutRefused_of_parse hpast hsame (hfail hpast)))
  · intro hcond
    have hcut := (hcond.resolve_left hrefused).resolve_left (not_not.mpr hpast)
    obtain ⟨e, hparse⟩ := parse_of_cutRefused hpast hcut
    exact ⟨fun pool pool' => (hparse pool).trans (hparse pool').symm, fun _ pool => ⟨e, hparse pool⟩⟩

end Table

/-- A range of six bytes just behind the end of the file of 60 bytes that holds it. -/
def danglingRange : DataRange := ⟨[], 60, 6⟩

/-- A filter of one word, no block, and an index of the dangling range. -/
def danglingFile : Bytes := tableFile ⟨[0], 64, 1, 0⟩ [] (encodeFullRange [danglingRange])

/-- Zeros left in the buffer make an entry of the dangling range, other bytes make a failure. -/
theorem danglingRange_reads :
    decodeFullRange (encodeFullRange [danglingRange]) = .ok [danglingRange] ∧
    ((newTable [danglingRange] ⟨[0], 64, 1, 0⟩ danglingFile).getCachedBlock (fun _ _ => 0)
      danglingRange).1 = .ok (blockOf [([], [])]) ∧
    ((newTable [danglingRange] ⟨[0], 64, 1, 0⟩ danglingFile).getCachedBlock (fun _ _ => 255)
      danglingRange).1 = fail .truncatedEntryBody := by
  refine ⟨decodeFullRange_encode (List.forall_mem_singleton.mpr (Nat.two_pow_pos 16)), ?_, ?_⟩
  · rw [Table.getCachedBlock_uncached (BlockCache.get_tableCache _), if_neg (by decide)]
    rfl
  · rw [Table.getCachedBlock_uncached (BlockCache.get_tableCache _), if_neg (by decide)]
    rfl

end Seol.Sstable
