import Seol.Skiplist.Towers
import Seol.Sstable.Filter
import Seol.Sstable.Open

/-!
# Writing a table

Reference: `prepareBloomFilter`, `writeDataBlocks`, `writeIndexAndFooter` and `Flush` in
`sstable/sstable.go`. The entries of a skiplist are packed into blocks in order, an entry that no longer
fits opens the next block. The filter is filled on the way and written into the bytes kept free for it
in front of the blocks. What the packing loop leaves is stated by the groups of entries that share a
block.
-/

namespace Seol.Sstable

open Common Checked

/-- The state of `writeDataBlocks`, with the filter it fills and what it has given to the writer. -/
structure BlockWriter where
  filter : Bloom.Filter
  ranges : List DataRange
  offset : UInt64
  block : Bytes
  currentRange : DataRange
  out : Bytes

namespace BlockWriter

/-- `flushBlock`. -/
def flushBlock (w : BlockWriter) : BlockWriter :=
  if w.block = [] then w
  else
    { w with
      ranges := w.ranges ++ [{ w.currentRange with length := UInt32.ofNat w.block.length }]
      out := w.out ++ w.block
      offset := w.offset + UInt64.ofNat w.block.length
      block := []
      currentRange := ⟨[], 0, 0⟩ }

/-- The first key and the offset of a block are set when it gets its first entry. -/
def openBlock (w : BlockWriter) (key : Bytes) : BlockWriter :=
  if w.block = [] then
    { w with currentRange := { w.currentRange with firstKey := key, offset := w.offset } }
  else w

/-- One round of `writeDataBlocks`. -/
def addEntry (hash : Bytes → UInt64 → UInt64) (w : BlockWriter) (e : Bytes × Bytes) :
    Checked SstError BlockWriter := do
  let (_, filter) ← w.filter.addHash (hash e.1 w.filter.seed)
  let w := { w with filter := filter }
  if blockSize < entrySize e then fail (.entryTooLarge e.1)
  else
    let w := if w.block ≠ [] ∧ blockSize < w.block.length + entrySize e then w.flushBlock else w
    let w := w.openBlock e.1
    let block ← appendBlockEntry w.block e
    return { w with block := block }

end BlockWriter

/-- `writeDataBlocks` over the entries the iterator gives. -/
def writeDataBlocks (hash : Bytes → UInt64 → UInt64) (filter : Bloom.Filter) (startOffset : UInt64)
    (es : List (Bytes × Bytes)) : Checked SstError BlockWriter := do
  let w ← es.foldlM (BlockWriter.addEntry hash) ⟨filter, [], startOffset, [], ⟨[], 0, 0⟩, []⟩
  return w.flushBlock

/-- `writeIndexAndFooter`: what it gives to the writer. -/
def indexAndFooter (ranges : List DataRange) (indexOffset : UInt64) : Bytes :=
  encodeFullRange ranges ++ footer indexOffset.toNat

/-- `Flush` of the entries the iterator gives. The writer starts behind the reserved bytes of the
filter, which are filled in at the end. -/
def flushEntries (sizing : Bloom.Sizing) (hash : Bytes → UInt64 → UInt64) (pool : BlockPool)
    (es : List (Bytes × Bytes)) : Checked SstError Table := do
  let filter := Bloom.newFor sizing es.length
  let bloomSize := filter.marshalBinary.length
  let w ← writeDataBlocks hash filter (UInt64.ofNat bloomSize) es
  let file := writeAt [] bloomSize (w.out ++ indexAndFooter w.ranges w.offset)
  let file := writeAt file 0 w.filter.marshalBinary
  (newTable w.ranges w.filter file).loadMetadata pool

/-- `Flush` of a skiplist. `countEntries` and `writeDataBlocks` each walk over it. -/
def flush (sizing : Bloom.Sizing) (hash : Bytes → UInt64 → UInt64) (pool : BlockPool) (rounds : ℕ)
    (sk : Towers) : Except SkipFault (Checked SstError Table) := do
  let es ← sk.iterate rounds
  return flushEntries sizing hash pool es

/-! ## The layout of blocks -/

/-- The first key of a group of entries. -/
def firstKeyOf (g : List (Bytes × Bytes)) : Bytes := (g.head?.map Prod.fst).getD []

/-- The groups of entries that share a block, each with its range in a file where the first block is at
`offset`. -/
def layout (offset : ℕ) : List (List (Bytes × Bytes)) → List (DataRange × List (Bytes × Bytes))
  | [] => []
  | g :: gs =>
    (⟨firstKeyOf g, UInt64.ofNat offset, UInt32.ofNat (encodeEntries g).length⟩, g) ::
      layout (offset + (encodeEntries g).length) gs

theorem layout_concat (offset : ℕ) (gs : List (List (Bytes × Bytes))) (g : List (Bytes × Bytes)) :
    layout offset (gs ++ [g]) = layout offset gs ++
      [(⟨firstKeyOf g, UInt64.ofNat (offset + (encodeEntries gs.flatten).length),
        UInt32.ofNat (encodeEntries g).length⟩, g)] := by
  induction gs generalizing offset with
  | nil => rfl
  | cons g' gs ih =>
    rw [List.cons_append, layout, ih, layout, List.flatten_cons, encodeEntries_append,
      List.length_append, Nat.add_assoc]
    rfl

@[simp] theorem map_snd_layout (offset : ℕ) (gs : List (List (Bytes × Bytes))) :
    (layout offset gs).map Prod.snd = gs := by
  induction gs generalizing offset with
  | nil => rfl
  | cons g gs ih => rw [layout, List.map_cons, ih]

/-- A group that a block can hold. -/
structure FitsBlock (g : List (Bytes × Bytes)) : Prop where
  ne_nil : g ≠ []
  length_le : (encodeEntries g).length ≤ blockSize

theorem encodeEntries_eq_nil_iff {es : List (Bytes × Bytes)} : encodeEntries es = [] ↔ es = [] := by
  constructor
  · intro h
    have hle := length_le_length_encodeEntries es
    rw [h] at hle
    exact List.length_eq_zero_iff.mp (Nat.le_zero.mp hle)
  · rintro rfl
    rfl

/-! ## The packing loop -/

/-- The writer has given the blocks `gs` away and keeps the entries `cur` in its block. -/
structure Packed (start : ℕ) (gs : List (List (Bytes × Bytes))) (cur : List (Bytes × Bytes))
    (w : BlockWriter) : Prop where
  ranges : w.ranges = (layout start gs).map Prod.fst
  out : w.out = encodeEntries gs.flatten
  offset : w.offset = UInt64.ofNat (start + (encodeEntries gs.flatten).length)
  block : w.block = encodeEntries cur
  current : cur ≠ [] → w.currentRange.firstKey = firstKeyOf cur ∧ w.currentRange.offset = w.offset
  groups : ∀ g ∈ gs, FitsBlock g
  length_le : (encodeEntries cur).length ≤ blockSize

namespace Packed

variable {start : ℕ} {gs : List (List (Bytes × Bytes))} {cur : List (Bytes × Bytes)}
  {w : BlockWriter} {e : Bytes × Bytes}

theorem block_eq_nil_iff (h : Packed start gs cur w) : w.block = [] ↔ cur = [] := by
  rw [h.block, encodeEntries_eq_nil_iff]

/-- A block with entries is given away with its range. -/
theorem flushBlock (h : Packed start gs cur w) (hcur : cur ≠ []) :
    Packed start (gs ++ [cur]) [] w.flushBlock := by
  have hblock : w.block ≠ [] := fun hnil => hcur (h.block_eq_nil_iff.mp hnil)
  obtain ⟨hkey, hoff⟩ := h.current hcur
  have hflat : (gs ++ [cur]).flatten = gs.flatten ++ cur := by
    rw [List.flatten_append, List.flatten_singleton]
  rw [BlockWriter.flushBlock, if_neg hblock]
  refine ⟨?_, ?_, ?_, rfl, fun hnil => absurd rfl hnil, ?_, Nat.zero_le _⟩
  · rw [layout_concat, List.map_append, List.map_singleton, ← h.ranges, ← hkey, ← h.offset, ← hoff,
      ← h.block]
  · rw [hflat, encodeEntries_append, h.out, h.block]
  · rw [hflat, encodeEntries_append, List.length_append, h.offset, h.block, ← Nat.add_assoc]
    exact (UInt64.ofNat_add _ _).symm
  · exact List.forall_mem_append.mpr
      ⟨h.groups, List.forall_mem_singleton.mpr ⟨hcur, h.length_le⟩⟩

/-- An entry that fits goes behind those of the block. -/
theorem openBlock (h : Packed start gs cur w)
    (hroom : (encodeEntries cur).length + entrySize e ≤ blockSize) :
    appendBlockEntry (w.openBlock e.1).block e = .ok (encodeEntries (cur ++ [e])) ∧
      Packed start gs (cur ++ [e])
        { w.openBlock e.1 with block := encodeEntries (cur ++ [e]) } := by
  have hsplit : encodeEntries (cur ++ [e]) = encodeEntries cur ++ encodeEntry e := by
    rw [encodeEntries_append, encodeEntries_cons, encodeEntries_nil, List.append_nil]
  have hle : (encodeEntries (cur ++ [e])).length ≤ blockSize := by
    rw [hsplit, List.length_append, length_encodeEntry]
    exact hroom
  have happend : appendBlockEntry w.block e = .ok (encodeEntries (cur ++ [e])) := by
    rw [appendBlockEntry, h.block, if_pos hroom, hsplit]
  rw [BlockWriter.openBlock]
  -- an empty block takes the key of its first entry as the key of its range
  by_cases hcur : cur = []
  · rw [if_pos (h.block_eq_nil_iff.mpr hcur)]
    subst hcur
    exact ⟨happend, h.ranges, h.out, h.offset, rfl, fun _ => ⟨rfl, rfl⟩, h.groups, hle⟩
  · have hfirst : firstKeyOf (cur ++ [e]) = firstKeyOf cur := by
      rw [firstKeyOf, List.head?_append_of_ne_nil _ hcur]
      rfl
    rw [if_neg fun hnil => hcur (h.block_eq_nil_iff.mp hnil)]
    exact ⟨happend, h.ranges, h.out, h.offset, rfl, fun _ => hfirst.symm ▸ h.current hcur, h.groups,
      hle⟩

/-- The filter is no part of the packing. -/
theorem withFilter (h : Packed start gs cur w) (filter : Bloom.Filter) :
    Packed start gs cur { w with filter := filter } :=
  ⟨h.ranges, h.out, h.offset, h.block, h.current, h.groups, h.length_le⟩

end Packed

@[simp] theorem BlockWriter.flushBlock_filter (w : BlockWriter) : w.flushBlock.filter = w.filter := by
  rw [flushBlock]
  split <;> rfl

@[simp] theorem BlockWriter.openBlock_filter (w : BlockWriter) (key : Bytes) :
    (w.openBlock key).filter = w.filter := by
  rw [openBlock]
  split <;> rfl

/-- The filter `g` came from `f` by adding the keys of the entries. -/
structure Admits (hash : Bytes → UInt64 → UInt64) (f : Bloom.Filter) (es : List (Bytes × Bytes))
    (g : Bloom.Filter) : Prop where
  shape : f.SameShape g
  contains : ∀ e ∈ es, (g.containsHash (hash e.1 f.seed) : Checked SstError Bool) = .ok true

variable {hash : Bytes → UInt64 → UInt64}

/-- A round of the loop with an entry that a block can hold. -/
theorem Packed.addEntry {start : ℕ} {gs : List (List (Bytes × Bytes))} {cur es : List (Bytes × Bytes)}
    {w : BlockWriter} {e : Bytes × Bytes} {f : Bloom.Filter} (h : Packed start gs cur w)
    (hf : Admits hash f es w.filter) (hflat : gs.flatten ++ cur = es) (hfit : entrySize e ≤ blockSize) :
    ∃ gs' cur' w', w.addEntry hash e = .ok w' ∧ Packed start gs' cur' w' ∧
      gs'.flatten ++ cur' = es ++ [e] ∧ Admits hash f (es ++ [e]) w'.filter := by
  obtain ⟨g, hadd, hshape, -⟩ := Bloom.Filter.addHash_spec (ε := SstError) hf.shape.sound
    (hash e.1 w.filter.seed)
  have hadmits : Admits hash f (es ++ [e]) g := by
    refine ⟨hf.shape.trans hshape, List.forall_mem_append.mpr ⟨fun e' he' => ?_, ?_⟩⟩
    · exact Bloom.Filter.containsHash_addHash hf.shape.sound hadd (Or.inr (hf.contains e' he'))
    · refine List.forall_mem_singleton.mpr ?_
      rw [← hf.shape.seed]
      exact Bloom.Filter.containsHash_addHash hf.shape.sound hadd (Or.inl rfl)
  have h' := h.withFilter g
  rw [BlockWriter.addEntry, hadd, ok_bind]
  simp only [if_neg (not_lt.mpr hfit)]
  by_cases hfull : w.block ≠ [] ∧ blockSize < w.block.length + entrySize e
  · -- the block is full: the entry opens the next one
    have hcur : cur ≠ [] := fun hnil => hfull.1 (h.block_eq_nil_iff.mpr hnil)
    rw [if_pos hfull]
    obtain ⟨happend, hpacked⟩ := (h'.flushBlock hcur).openBlock (e := e) (by simpa using hfit)
    rw [happend, ok_bind]
    refine ⟨_, _, _, rfl, hpacked, ?_, ?_⟩
    · rw [List.flatten_append, List.flatten_singleton, hflat, List.nil_append]
    · simpa using hadmits
  · have hroom : (encodeEntries cur).length + entrySize e ≤ blockSize := by
      rw [← h.block]
      by_contra hlt
      refine hfull ⟨fun hnil => ?_, not_le.mp hlt⟩
      rw [hnil, List.length_nil, Nat.zero_add] at hlt
      exact hlt hfit
    rw [if_neg hfull]
    obtain ⟨happend, hpacked⟩ := h'.openBlock hroom
    rw [happend, ok_bind]
    refine ⟨_, _, _, rfl, hpacked, ?_, ?_⟩
    · rw [← List.append_assoc, hflat]
    · simpa using hadmits

/-- The loop over entries that a block can hold. -/
theorem Packed.addEntries {start : ℕ} {gs : List (List (Bytes × Bytes))}
    {cur es : List (Bytes × Bytes)} {w : BlockWriter} {f : Bloom.Filter} (h : Packed start gs cur w)
    (hf : Admits hash f es w.filter) (hflat : gs.flatten ++ cur = es) {rest : List (Bytes × Bytes)}
    (hfit : ∀ e ∈ rest, entrySize e ≤ blockSize) :
    ∃ gs' cur' w', rest.foldlM (BlockWriter.addEntry hash) w = .ok w' ∧ Packed start gs' cur' w' ∧
      gs'.flatten ++ cur' = es ++ rest ∧ Admits hash f (es ++ rest) w'.filter := by
  induction rest generalizing gs cur es w with
  | nil =>
    rw [List.append_nil]
    exact ⟨gs, cur, w, rfl, h, hflat, hf⟩
  | cons e rest ih =>
    obtain ⟨he, hrest⟩ := List.forall_mem_cons.mp hfit
    obtain ⟨gs', cur', w', hadd, hpacked, hflat', hf'⟩ := h.addEntry hf hflat he
    obtain ⟨gs'', cur'', w'', hfold, hpacked', hflat'', hf''⟩ := ih hpacked hf' hflat' hrest
    rw [List.append_assoc, List.singleton_append] at hflat'' hf''
    exact ⟨gs'', cur'', w'', by rw [List.foldlM_cons, hadd]; exact hfold, hpacked', hflat'', hf''⟩

/-- The loop from its start, before the last block is given away. -/
theorem foldlM_addEntry (hash : Bytes → UInt64 → UInt64) {f : Bloom.Filter} (hf : f.Sound)
    (start : ℕ) {es : List (Bytes × Bytes)}
    (hfit : ∀ e ∈ es, entrySize e ≤ blockSize) :
    ∃ gs cur w, es.foldlM (BlockWriter.addEntry hash)
        ⟨f, [], UInt64.ofNat start, [], ⟨[], 0, 0⟩, []⟩ = .ok w ∧
      Packed start gs cur w ∧ gs.flatten ++ cur = es ∧ Admits hash f es w.filter := by
  have hstart : Packed start [] [] ⟨f, [], UInt64.ofNat start, [], ⟨[], 0, 0⟩, []⟩ :=
    ⟨rfl, rfl, rfl, rfl, fun hnil => absurd rfl hnil, by simp, Nat.zero_le _⟩
  have hadmits : Admits hash f [] f := ⟨Bloom.Filter.SameShape.refl hf, by simp⟩
  exact hstart.addEntries hadmits rfl hfit

/-- **The packing loop** puts the entries in order into blocks that hold them, lays the blocks out one
after the other and adds the keys to the filter. -/
theorem writeDataBlocks_spec (hash : Bytes → UInt64 → UInt64) {f : Bloom.Filter} (hf : f.Sound)
    (start : ℕ) {es : List (Bytes × Bytes)}
    (hfit : ∀ e ∈ es, entrySize e ≤ blockSize) :
    ∃ gs w, writeDataBlocks hash f (UInt64.ofNat start) es = .ok w ∧ gs.flatten = es ∧
      (∀ g ∈ gs, FitsBlock g) ∧ w.ranges = (layout start gs).map Prod.fst ∧
      w.out = encodeEntries es ∧ w.offset = UInt64.ofNat (start + (encodeEntries es).length) ∧
      Admits hash f es w.filter := by
  obtain ⟨gs, cur, w, hfold, hpacked, hflat, hadmits⟩ := foldlM_addEntry hash hf start hfit
  -- the block that is open at the end is written too, unless it is empty
  by_cases hcur : cur = []
  · have hnil : w.flushBlock = w := if_pos (hpacked.block_eq_nil_iff.mpr hcur)
    rw [hcur, List.append_nil] at hflat
    refine ⟨gs, w, ?_, hflat, hpacked.groups, hpacked.ranges, ?_, ?_, hadmits⟩
    · rw [writeDataBlocks, hfold, ok_bind, hnil]
      rfl
    · rw [hpacked.out, hflat]
    · rw [hpacked.offset, hflat]
  · have hlast := hpacked.flushBlock hcur
    have hflat' : (gs ++ [cur]).flatten = es := by
      rw [List.flatten_append, List.flatten_singleton, hflat]
    refine ⟨gs ++ [cur], w.flushBlock, ?_, hflat', hlast.groups, hlast.ranges, ?_, ?_, ?_⟩
    · rw [writeDataBlocks, hfold, ok_bind]
      rfl
    · rw [hlast.out, hflat']
    · rw [hlast.offset, hflat']
    · rwa [BlockWriter.flushBlock_filter]

/-- The first entry that no block can hold ends the loop with its key. -/
theorem writeDataBlocks_tooLarge (hash : Bytes → UInt64 → UInt64) {f : Bloom.Filter} (hf : f.Sound)
    (start : ℕ)
    {pre post : List (Bytes × Bytes)} {e : Bytes × Bytes} (hpre : ∀ e ∈ pre, entrySize e ≤ blockSize)
    (he : blockSize < entrySize e) :
    writeDataBlocks hash f (UInt64.ofNat start) (pre ++ e :: post) = fail (.entryTooLarge e.1) := by
  obtain ⟨gs, cur, w, hfold, -, -, hadmits⟩ := foldlM_addEntry hash hf start hpre
  obtain ⟨g, hadd, -⟩ := Bloom.Filter.addHash_spec (ε := SstError) hadmits.shape.sound
    (hash e.1 w.filter.seed)
  have hround : w.addEntry hash e = fail (.entryTooLarge e.1) := by
    rw [BlockWriter.addEntry, hadd, ok_bind]
    simp only [if_pos he]
  rw [writeDataBlocks, List.foldlM_append, hfold, ok_bind, List.foldlM_cons, hround]
  rfl

end Seol.Sstable
