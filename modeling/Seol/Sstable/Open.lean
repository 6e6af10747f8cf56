import Seol.Sstable.Cursor

/-!
# Opening damaged files

Reference: `Open` in `sstable/sstable.go` and the reads of the table it returns. Every length that is
read from a file is checked before it is used, but for those of the index: `decodeFullRange` goes out of
range on an index that is not a sequence of whole records. On every other file `Open` returns an error
or a table, and the reads of that table return a result or an error.
-/

namespace Seol.Sstable

open Common Checked

namespace Table

/-! ## Reads of a sound table -/

/-- `Get` of a sound table. -/
theorem Sound.get {t : Table} (h : t.Sound) (hash : Bytes → UInt64 → UInt64) (pool : BlockPool)
    (key : Bytes) :
    t.Same (t.get hash pool key).2 ∧ (t.get hash pool key).2.Sound ∧
      (t.get hash pool key).1.Safe := by
  rw [Table.get, Bloom.Filter.containsHash_eq h.filter]
  cases (t.filter.positions (hash key t.filter.seed)).all t.filter.bit with
  | false => exact ⟨Same.refl t, h, safe_ok none⟩
  | true =>
    rw [findDataRange_eq]
    cases (if rangeSearch t.ranges key = 0 then none else t.ranges[rangeSearch t.ranges key - 1]?) with
    | none => exact ⟨Same.refl t, h, safe_ok none⟩
    | some ra =>
      obtain ⟨hsame, hsound, hload⟩ := h.getCachedBlock pool ra
      refine ⟨hsame, hsound, ?_⟩
      simp only [getInRange]
      -- the load fails, or gives a block of whole entries, in which the search cannot fault
      rcases hload with ⟨e, hfail⟩ | ⟨es, hfit, hok⟩
      · rw [hfail]
        exact safe_fail e
      · rw [hok, ok_bind, lookup_blockOf hfit]
        exact safe_ok _

/-- A scan of a sound table. -/
theorem Sound.scan {t : Table} (h : t.Sound) (pool : BlockPool) {σ τ : Type}
    (fn : Option (Callback σ τ)) (s : σ) :
    t.Same (t.scan pool fn s).2.2 ∧ (t.scan pool fn s).2.2.Sound ∧ (t.scan pool fn s).1.Safe := by
  cases fn with
  | none => exact ⟨Same.refl t, h, safe_ok ()⟩
  | some fn =>
    obtain ⟨t', hsame, hsound, hscan⟩ := scanRanges_spec fn pool h t.ranges s
    rw [Table.scan, hscan]
    refine ⟨hsame, hsound, ?_⟩
    simp only [visitStream]
    split
    · exact safe_fail _
    · exact safe_fail _
    · exact safe_ok ()

/-- What block loads make of a table: reads change nothing else of it. -/
inductive Loaded (pool : BlockPool) (t : Table) : Table → Prop
  | refl : Loaded pool t t
  | load {t' : Table} (ra : DataRange) : Loaded pool t t' → Loaded pool t (t'.getCachedBlock pool ra).2

theorem Loaded.sound {pool : BlockPool} {t t' : Table} (h : t.Loaded pool t') (ht : t.Sound) :
    t'.Sound := by
  induction h with
  | refl => exact ht
  | load ra _ ih => exact (ih.getCachedBlock pool ra).2.1

/-! ## Metadata -/

/-- The metadata of a sound table are loaded, or the load of the last block fails. -/
theorem Sound.loadMetadata {t : Table} (h : t.Sound) (pool : BlockPool) :
    (∃ e, t.loadMetadata pool = fail e) ∨ ∃ t', t.loadMetadata pool = .ok t' ∧ t'.Sound := by
  have h' : ({ t with sizeBytes := t.file.length } : Table).Sound := ⟨h.filter, h.cached⟩
  rw [Table.loadMetadata]
  by_cases hempty : t.ranges.isEmpty = true
  · exact Or.inr ⟨_, if_pos hempty, h.filter, h.cached⟩
  have hpos : 0 < t.ranges.length := by
    rw [List.length_pos_iff_ne_nil]
    exact fun hnil => hempty (List.isEmpty_iff.mpr hnil)
  rw [if_neg hempty, elemAt_of_lt hpos, ok_bind,
    elemAt_of_lt (Nat.sub_one_lt hpos.ne'), ok_bind]
  obtain ⟨-, hsound, hload⟩ := h'.getCachedBlock pool t.ranges[t.ranges.length - 1]
  generalize ({ t with sizeBytes := t.file.length } : Table).getCachedBlock pool
    t.ranges[t.ranges.length - 1] = r at hsound hload ⊢
  obtain ⟨res, t'⟩ := r
  simp only at hsound hload
  -- the last block fails to load, or its last entry is the largest
  rcases hload with ⟨e, rfl⟩ | ⟨es, hfit, rfl⟩
  · exact Or.inl ⟨e, rfl⟩
  have hlen : (blockOf es).entryOffsets.length = es.length := length_offsetsFrom 0 es
  simp only [ok_bind, hlen]
  by_cases hnone : es.length = 0
  · exact Or.inr ⟨_, if_pos hnone, hsound.filter, hsound.cached⟩
  · rw [if_neg hnone, entryAt_blockOf hfit (Nat.sub_one_lt hnone), ok_bind]
    exact Or.inr ⟨_, rfl, hsound.filter, hsound.cached⟩

end Table

/-- The cache of a new table is empty. -/
theorem cached_newTable (P : UInt64 → CachedBlock → Prop) (ranges : List DataRange) (f : Bloom.Filter)
    (file : Bytes) : (newTable ranges f file).Cached P := by
  intro o b hget
  have hnone : (tableCache : BlockCache CachedBlock).get o = some b := hget
  rw [BlockCache.get_tableCache] at hnone
  cases hnone

theorem sound_newTable {f : Bloom.Filter} (hf : f.Sound) (ranges : List DataRange) (file : Bytes) :
    (newTable ranges f file).Sound :=
  ⟨hf, cached_newTable _ ranges f file⟩

/-! ## `Open` -/

/-- `Open` of a file of the format comes down to its index. -/
theorem openTable_tableFile (pool : BlockPool) {f : Bloom.Filter} {blocks : Bytes}
    (h : FormatOK f blocks) (index : Bytes) :
    openTable pool (tableFile f blocks index) =
      (decodeFullRange index >>= fun ranges =>
        (newTable ranges f (tableFile f blocks index)).loadMetadata pool) := by
  have hload : loadBloomFilter (tableFile f blocks index) = .ok (f, f.marshalBinary.length) := by
    rw [tableFile]
    refine loadBloomFilter_append h.sound ?_
    rw [List.length_append, List.length_append, length_footer]
    omega
  rw [openTable, hload]
  simp only [ok_bind, readIndexData_tableFile h]

/-- A file that `Open` does not refuse at once has the format. -/
theorem openTable_cases (pool : BlockPool) (file : Bytes) :
    (∃ e, openTable pool file = fail e) ∨
      ∃ f blocks index, FormatOK f blocks ∧ file = tableFile f blocks index := by
  rcases loadBloomFilter_cases file with ⟨e, hfail⟩ | ⟨f, rest, hf, hrest, rfl⟩
  · exact Or.inl ⟨e, by rw [openTable, hfail]; rfl⟩
  rcases readIndexData_cases f hrest with ⟨e, hfail⟩ | ⟨blocks, index, hlt, hfile⟩
  · refine Or.inl ⟨e, ?_⟩
    rw [openTable, loadBloomFilter_append hf hrest, ok_bind]
    simp only [hfail]
    rfl
  · exact Or.inr ⟨f, blocks, index, ⟨hf, hlt⟩, hfile⟩

/-- Opening a file and reading its table stays in range and ends with a result or an error. -/
def FailsCleanly (hash : Bytes → UInt64 → UInt64) (pool : BlockPool) (file : Bytes) : Prop :=
  (openTable pool file).Safe ∧ ∀ t, openTable pool file = .ok t → ∀ t', t.Loaded pool t' →
    (∀ key, (t'.get hash pool key).1.Safe) ∧
    (∀ (σ τ : Type) (fn : Option (Callback σ τ)) (s : σ), (t'.scan pool fn s).1.Safe) ∧
    ∃ rounds result, t'.iterate pool rounds = .ok (some result)

/-- The reads of an opened sound table. -/
theorem failsCleanly_of_cases {hash : Bytes → UInt64 → UInt64} {pool : BlockPool} {file : Bytes}
    (h : (∃ e, openTable pool file = fail e) ∨ ∃ t, openTable pool file = .ok t ∧ t.Sound) :
    FailsCleanly hash pool file := by
  rcases h with ⟨e, hfail⟩ | ⟨t, hok, hsound⟩
  · refine ⟨by rw [hfail]; exact safe_fail e, fun t hok => ?_⟩
    rw [hfail] at hok
    cases hok
  · refine ⟨by rw [hok]; exact safe_ok t, fun t₀ hok₀ t' hloaded => ?_⟩
    rw [hok] at hok₀
    obtain rfl := Except.ok.inj hok₀
    have hsound' := hloaded.sound hsound
    obtain ⟨it, t'', hiter, -⟩ := Table.iterate_spec pool hsound' (Nat.lt_succ_self _)
    exact ⟨fun key => (hsound'.get hash pool key).2.2,
      fun σ τ fn s => (hsound'.scan pool fn s).2.2, _, _, hiter⟩

/-- **Damaged files.** Opening a file fails cleanly iff the file is refused before its index is decoded,
or its index is a sequence of whole records. -/
theorem open_failsCleanly_iff (hash : Bytes → UInt64 → UInt64) (pool : BlockPool) (file : Bytes) :
    FailsCleanly hash pool file ↔
      ∀ f blocks index, FormatOK f blocks → file = tableFile f blocks index → WholeRecords index := by
  constructor
  · rintro ⟨hsafe, -⟩ f blocks index hformat rfl
    rw [← decodeFullRange_safe_iff]
    intro hout
    rw [openTable_tableFile pool hformat, hout] at hsafe
    exact hsafe rfl
  · intro hwhole
    apply failsCleanly_of_cases
    rcases openTable_cases pool file with hfail | ⟨f, blocks, index, hformat, hfile⟩
    · exact Or.inl hfail
    obtain ⟨ranges, hfit, rfl⟩ := hwhole f blocks index hformat hfile
    rw [hfile, openTable_tableFile pool hformat, decodeFullRange_encode hfit, ok_bind]
    exact (sound_newTable hformat.sound ranges _).loadMetadata pool

/-- A filter of one word, no block, and one stray byte for an index. -/
def strayIndexFile : Bytes := tableFile ⟨[0], 64, 1, 0⟩ [] [0]

/-- The stray byte is taken for a whole record. -/
theorem open_strayIndexFile : openTable (fun _ _ => 0) strayIndexFile = .error .outOfRange := by
  have hformat : FormatOK ⟨[0], 64, 1, 0⟩ [] := ⟨⟨by decide, by decide, by decide⟩, by decide⟩
  have hout : decodeFullRange [0] = .error .outOfRange := rfl
  rw [strayIndexFile, openTable_tableFile _ hformat, hout]
  rfl

end Seol.Sstable
