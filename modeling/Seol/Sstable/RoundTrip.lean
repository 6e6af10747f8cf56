import Seol.Sstable.Cursor
import Seol.Sstable.Flush
import Seol.Sstable.Stale

/-!
# Writing and reading a table

Reference: `Flush`, `Open`, `Table.Get`, `Table.Scan` and `Iterator` in `sstable/sstable.go`. The two
sides meet at `Tiles`, which says how blocks stand in a file one after the other. Flushing writes such a
file, and every read of a table over such a file gives the entries of the blocks, whatever the cache and
the pooled buffers hold.
-/

namespace Seol.Sstable

open Common Checked

/-! ## Blocks that tile a file -/

/-- The blocks of the ranges stand in the file from `start` to `stop`, one right after the other. Each
holds its group of entries, in 1 to 4096 bytes, and begins with the first key of its range. -/
inductive Tiles (file : Bytes) : ℕ → List (DataRange × List (Bytes × Bytes)) → ℕ → Prop where
  | nil (stop : ℕ) : Tiles file stop [] stop
  | cons {ra : DataRange} {g : List (Bytes × Bytes)} {start stop : ℕ}
      {ps : List (DataRange × List (Bytes × Bytes))} (hoff : ra.offset.toNat = start)
      (hpos : 1 ≤ ra.length.toNat) (hle : ra.length.toNat ≤ blockSize)
      (hread : slice file start ra.length.toNat = encodeEntries g)
      (hfirst : ∃ v rest, g = (ra.firstKey, v) :: rest)
      (hrest : Tiles file (start + ra.length.toNat) ps stop) : Tiles file start ((ra, g) :: ps) stop

theorem FitsBlock.length_pos {g : List (Bytes × Bytes)} (h : FitsBlock g) :
    1 ≤ (encodeEntries g).length :=
  List.length_pos_iff.mpr fun hnil => h.ne_nil (encodeEntries_eq_nil_iff.mp hnil)

/-- The entries of a block have sizes that their fields hold. -/
theorem entryFits_of_length_le {g : List (Bytes × Bytes)} (h : (encodeEntries g).length ≤ blockSize)
    {e : Bytes × Bytes} (he : e ∈ g) : EntryFits e := by
  obtain ⟨as, bs, rfl⟩ := List.append_of_mem he
  have hblock : blockSize = 4096 := rfl
  have hsize : entrySize e = 6 + e.1.length + e.2.length := rfl
  rw [encodeEntries_append, encodeEntries_cons, List.length_append, List.length_append,
    length_encodeEntry] at h
  exact ⟨by omega, by omega⟩

/-- The blocks of a layout tile the bytes they are encoded to. -/
theorem tiles_layout {gs : List (List (Bytes × Bytes))} (hgs : ∀ g ∈ gs, FitsBlock g)
    {file pre post : Bytes} (hfile : file = pre ++ (encodeEntries gs.flatten ++ post))
    (hlt : pre.length + (encodeEntries gs.flatten).length < 2 ^ 63) :
    Tiles file pre.length (layout pre.length gs)
      (pre.length + (encodeEntries gs.flatten).length) := by
  induction gs generalizing pre with
  | nil => exact Tiles.nil _
  | cons g gs ih =>
    obtain ⟨hg, hgs⟩ := List.forall_mem_cons.mp hgs
    have hpos := hg.length_pos
    have hle := hg.length_le
    have hblock : blockSize = 4096 := rfl
    rw [List.flatten_cons, encodeEntries_append, List.append_assoc] at hfile
    rw [List.flatten_cons, encodeEntries_append, List.length_append] at hlt ⊢
    -- a block is shorter than `2 ^ 32`, so its length is not cut by the field
    have hlen : (UInt32.ofNat (encodeEntries g).length).toNat = (encodeEntries g).length :=
      UInt32.toNat_ofNat_of_lt' (show _ < 2 ^ 32 by omega)
    have hrest := ih hgs (show file = (pre ++ encodeEntries g) ++ (encodeEntries gs.flatten ++ post) by
      rw [hfile, List.append_assoc]) (by rw [List.length_append]; omega)
    rw [List.length_append, Nat.add_assoc] at hrest
    rw [layout]
    refine Tiles.cons (UInt64.toNat_ofNat_of_lt' (show _ < 2 ^ 64 by omega)) ?_ ?_ ?_ ?_ ?_
    · rwa [hlen]
    · rwa [hlen]
    · rw [hlen, hfile]
      exact slice_append_mid _ _ _ _ _ rfl rfl
    · obtain ⟨⟨k, v⟩, rest, rfl⟩ := List.exists_cons_of_ne_nil hg.ne_nil
      exact ⟨v, rest, rfl⟩
    · rw [hlen]
      exact hrest

namespace Tiles

variable {file : Bytes} {start stop : ℕ} {ps : List (DataRange × List (Bytes × Bytes))}
  {p q : DataRange × List (Bytes × Bytes)}

theorem start_le (h : Tiles file start ps stop) : start ≤ stop := by
  induction h with
  | nil => exact le_rfl
  | cons _ _ _ _ _ _ ih => omega

/-- A block of the tiling lies between its ends. -/
theorem bounds (h : Tiles file start ps stop) (hp : p ∈ ps) :
    start ≤ p.1.offset.toNat ∧ p.1.offset.toNat + p.1.length.toNat ≤ stop := by
  induction h with
  | nil => cases hp
  | cons hoff hpos hle hread hfirst hrest ih =>
    rcases List.mem_cons.mp hp with rfl | hp
    · exact ⟨hoff.ge, hoff ▸ hrest.start_le⟩
    · obtain ⟨hstart, hstop⟩ := ih hp
      exact ⟨by omega, hstop⟩

/-- A block of the tiling holds its entries. -/
theorem read (h : Tiles file start ps stop) (hp : p ∈ ps) :
    slice file p.1.offset.toNat p.1.length.toNat = encodeEntries p.2 ∧
      (∀ e ∈ p.2, EntryFits e) ∧ ∃ v rest, p.2 = (p.1.firstKey, v) :: rest := by
  induction h with
  | nil => cases hp
  | cons hoff hpos hle hread hfirst hrest ih =>
    rcases List.mem_cons.mp hp with rfl | hp
    · refine ⟨hoff ▸ hread, fun e he => ?_, hfirst⟩
      refine entryFits_of_length_le ?_ he
      rw [← hread, length_slice]
      exact (min_le_left _ _).trans hle
    · exact ih hp

/-- The blocks of a tiling have distinct offsets. -/
theorem eq_of_offset_eq (h : Tiles file start ps stop) (hp : p ∈ ps) (hq : q ∈ ps)
    (heq : p.1.offset = q.1.offset) : p = q := by
  induction h with
  | nil => cases hp
  | cons hoff hpos hle hread hfirst hrest ih =>
    -- a block behind the first one has a larger offset
    rcases List.mem_cons.mp hp with rfl | hp <;> rcases List.mem_cons.mp hq with rfl | hq
    · rfl
    · have hbound := (hrest.bounds hq).1
      rw [← heq, hoff] at hbound
      omega
    · have hbound := (hrest.bounds hp).1
      rw [heq, hoff] at hbound
      omega
    · exact ih hp hq

end Tiles

/-! ## Reads of a tiled file -/

/-- The table reads blocks that tile its file, and its cache holds only such blocks. -/
structure Table.Serves (t : Table) (ps : List (DataRange × List (Bytes × Bytes))) : Prop where
  ranges : t.ranges = ps.map Prod.fst
  filter : t.filter.Sound
  tiles : ∃ start stop, Tiles t.file start ps stop ∧ stop ≤ t.file.length ∧ stop < 2 ^ 63
  cached : t.Cached fun o b => ∃ p ∈ ps, p.1.offset = o ∧ b = blockOf p.2

namespace Table

variable {t : Table} {ps : List (DataRange × List (Bytes × Bytes))}
  {p : DataRange × List (Bytes × Bytes)}

namespace Serves

theorem fits (h : t.Serves ps) (hp : p ∈ ps) : ∀ e ∈ p.2, EntryFits e := by
  obtain ⟨start, stop, htiles, -⟩ := h.tiles
  exact (htiles.read hp).2.1

theorem first (h : t.Serves ps) (hp : p ∈ ps) : ∃ v rest, p.2 = (p.1.firstKey, v) :: rest := by
  obtain ⟨start, stop, htiles, -⟩ := h.tiles
  exact (htiles.read hp).2.2

theorem sound (h : t.Serves ps) : t.Sound :=
  ⟨h.filter, fun o b hget => by
    obtain ⟨p, hp, -, rfl⟩ := h.cached o b hget
    exact ⟨p.2, h.fits hp, rfl⟩⟩

/-- A table that differs from a serving one in its cache alone. -/
theorem of_same {t' : Table} (h : t.Serves ps) (hsame : t.Same t')
    (hcached : t'.Cached fun o b => ∃ p ∈ ps, p.1.offset = o ∧ b = blockOf p.2) : t'.Serves ps :=
  ⟨hsame.ranges ▸ h.ranges, hsame.filter ▸ h.filter, hsame.file ▸ h.tiles, hcached⟩

/-- **A load** gives the block of the range. -/
theorem getCachedBlock (h : t.Serves ps) (hp : p ∈ ps) (pool : BlockPool) :
    t.Same (t.getCachedBlock pool p.1).2 ∧ (t.getCachedBlock pool p.1).2.Serves ps ∧
      (t.getCachedBlock pool p.1).1 = .ok (blockOf p.2) := by
  obtain ⟨start, stop, htiles, hin, hlt⟩ := h.tiles
  obtain ⟨hread, hfits, -⟩ := htiles.read hp
  have hbounds := (htiles.bounds hp).2
  have hparse : newCachedDataBlock (t.rawBlock pool p.1) = .ok (blockOf p.2) := by
    rw [rawBlock_of_le (hbounds.trans hin), available, hread, newCachedDataBlock_encode hfits]
  obtain ⟨hsame, hcached, -⟩ := getCachedBlock_spec pool h.cached p.1 fun _ b hok =>
    ⟨p, hp, rfl, Except.ok.inj (hok.symm.trans hparse)⟩
  refine ⟨hsame, h.of_same hsame hcached, ?_⟩
  -- read from the file, or cached under an offset that no other range has
  cases hget : t.blockCache.get p.1.offset with
  | none =>
    rw [getCachedBlock_uncached hget, if_neg (not_readRefused_of_lt (hbounds.trans_lt hlt)), hparse]
  | some b =>
    obtain ⟨q, hq, hoff, rfl⟩ := h.cached _ _ hget
    obtain rfl := htiles.eq_of_offset_eq hq hp hoff
    rw [Table.getCachedBlock, hget]

/-- Loading blocks one after the other gives their entries. -/
theorem loads (h : t.Serves ps) {qs : List (DataRange × List (Bytes × Bytes))} (hqs : qs ⊆ ps)
    (pool : BlockPool) : t.loads pool (qs.map Prod.fst) = qs.map fun q => .ok q.2 := by
  induction qs generalizing t with
  | nil => rfl
  | cons q qs ih =>
    obtain ⟨hq, hqs⟩ := List.cons_subset.mp hqs
    obtain ⟨-, hserves, hok⟩ := h.getCachedBlock hq pool
    rw [List.map_cons, Table.loads, List.map_cons, ih hserves hqs, loaded, hok]
    exact congrArg (· :: _) (congrArg Except.ok (entries_blockOf (h.fits hq)))

/-- What the loads of the whole index give. -/
theorem stream (h : t.Serves ps) (pool : BlockPool) :
    blockStream (t.loads pool t.ranges) = ((ps.map Prod.snd).flatten, none) := by
  rw [h.ranges, h.loads (List.Subset.refl _), ← blockStream_ok, List.map_map]
  rfl

/-- A scan calls back with the entries of the blocks in order. -/
theorem scan (h : t.Serves ps) (pool : BlockPool) {σ τ : Type} (fn : Callback σ τ) (s : σ) :
    ((t.scan pool (some fn) s).1, (t.scan pool (some fn) s).2.1) =
      visitStream fn ((ps.map Prod.snd).flatten, none) s := by
  obtain ⟨t', -, -, hscan⟩ := scanRanges_spec fn pool h.sound t.ranges s
  rw [Table.scan, hscan, h.stream]

/-- A full iteration sees the entries of the blocks in order. -/
theorem iterate (h : t.Serves ps) (pool : BlockPool) {rounds : ℕ}
    (hrounds : (ps.map Prod.snd).flatten.length < rounds) :
    ∃ it t', t.iterate pool rounds = .ok (some ((ps.map Prod.snd).flatten, it, t')) ∧
      it.valid t' = false ∧ it.err = none := by
  have hspec : (blockStream (t.loads pool t.ranges)).1.length < rounds := by rwa [h.stream]
  obtain ⟨it, t', hiter, -, -, hvalid, herr⟩ := Table.iterate_spec pool h.sound hspec
  rw [h.stream] at hiter herr
  exact ⟨it, t', hiter, hvalid, herr⟩

/-- The metadata are the first key of the first block, the last key of the last one and the size of the
file. -/
theorem loadMetadata (h : t.Serves ps) (pool : BlockPool) :
    ∃ t', t.loadMetadata pool = .ok t' ∧ t'.Serves ps ∧ t'.file = t.file ∧ t'.filter = t.filter ∧
      t'.smallest = firstKeyOf (ps.map Prod.snd).flatten ∧
      t'.largest = (((ps.map Prod.snd).flatten.getLast?).map Prod.fst).getD [] ∧
      t'.sizeBytes = t.file.length := by
  have h' : ({ t with sizeBytes := t.file.length } : Table).Serves ps :=
    ⟨h.ranges, h.filter, h.tiles, h.cached⟩
  rw [Table.loadMetadata]
  rcases List.eq_nil_or_concat ps with rfl | ⟨init, q, hps⟩
  · have hempty : t.ranges.isEmpty = true := by
      rw [h.ranges]
      rfl
    exact ⟨_, if_pos hempty, ⟨h.ranges, h.filter, h.tiles, h.cached⟩, rfl, rfl, rfl, rfl, rfl⟩
  rw [List.concat_eq_append] at hps
  have hq : q ∈ ps := hps ▸ List.mem_append_right _ List.mem_cons_self
  obtain ⟨p, tail, hcons⟩ := List.exists_cons_of_ne_nil (List.ne_nil_of_mem hq)
  obtain ⟨v, rest, hfirst⟩ := h.first (hcons ▸ List.mem_cons_self : p ∈ ps)
  obtain ⟨v', rest', hgroup⟩ := h.first hq
  have hzero : (elemAt t.ranges 0 : Checked SstError DataRange) = .ok p.1 := by
    rw [elemAt, h.ranges, hcons]
    rfl
  have hlast : (elemAt t.ranges (t.ranges.length - 1) : Checked SstError DataRange) = .ok q.1 := by
    rw [elemAt, ← List.getLast?_eq_getElem?, h.ranges, hps, List.map_append, List.map_singleton,
      List.getLast?_concat]
  have hpos : 0 < q.2.length := by
    rw [hgroup]
    exact Nat.succ_pos _
  -- the last entry of the last block is the last entry of the table
  have hend : (ps.map Prod.snd).flatten.getLast? = some q.2[q.2.length - 1] := by
    rw [hps, List.map_append, List.flatten_append, List.map_singleton, List.flatten_singleton,
      List.getLast?_append_of_ne_nil _ (List.length_pos_iff.mp hpos), List.getLast?_eq_getElem?,
      List.getElem?_eq_getElem (Nat.sub_one_lt hpos.ne')]
  have hstart : firstKeyOf (ps.map Prod.snd).flatten = p.1.firstKey := by
    rw [hcons, List.map_cons, List.flatten_cons, hfirst]
    rfl
  have hne : ¬t.ranges.isEmpty = true := by
    rw [h.ranges, hcons]
    exact Bool.false_ne_true
  obtain ⟨hsame, hserves, hok⟩ := h'.getCachedBlock hq pool
  rw [if_neg hne, hzero, ok_bind, hlast, ok_bind]
  generalize ({ t with sizeBytes := t.file.length } : Table).getCachedBlock pool q.1 = r
    at hsame hserves hok ⊢
  obtain ⟨res, t'⟩ := r
  obtain rfl : res = .ok (blockOf q.2) := hok
  have hcount : (blockOf q.2).entryOffsets.length = q.2.length := length_offsetsFrom 0 q.2
  simp only [ok_bind, hcount]
  rw [if_neg hpos.ne', entryAt_blockOf (h.fits hq) (Nat.sub_one_lt hpos.ne'), ok_bind]
  refine ⟨_, rfl, ⟨hserves.ranges, hserves.filter, hserves.tiles, hserves.cached⟩, hsame.file,
    hsame.filter, hstart.symm, ?_, hsame.sizeBytes⟩
  rw [hend]
  rfl

/-! ### Point lookups -/

variable (hsorted : KeySorted (ps.map Prod.snd).flatten)

include hsorted in
/-- All keys of a block are below those of a later one. -/
theorem key_lt (i j : ℕ) (hj : j < ps.length) (hij : i < j) :
    ∀ a ∈ ps[i].2, ∀ b ∈ ps[j].2, a.1 < b.1 := by
  have hpairs := (List.pairwise_flatten.mp hsorted).2
  rw [List.pairwise_map] at hpairs
  exact List.pairwise_iff_getElem.mp hpairs i j (by omega) hj hij

include hsorted in
theorem group_sorted (hp : p ∈ ps) : KeySorted p.2 :=
  (List.pairwise_flatten.mp hsorted).1 p.2 (List.mem_map_of_mem hp)

/-- The first key of a range is that of an entry, and no key of its block is smaller. -/
theorem firstKey_le (h : t.Serves ps) (hsorted : KeySorted (ps.map Prod.snd).flatten) (hp : p ∈ ps) :
    (∃ v, (p.1.firstKey, v) ∈ p.2) ∧ ∀ e ∈ p.2, p.1.firstKey ≤ e.1 := by
  obtain ⟨v, rest, hgroup⟩ := h.first hp
  have hs := group_sorted hsorted hp
  rw [hgroup] at hs ⊢
  refine ⟨⟨v, List.mem_cons_self⟩, List.forall_mem_cons.mpr ⟨le_rfl, fun e he => ?_⟩⟩
  exact ((List.pairwise_cons.mp hs).1 e he).le

/-- The search over the first keys ends right behind the block that has the key. -/
theorem rangeSearch_eq (h : t.Serves ps) (hsorted : KeySorted (ps.map Prod.snd).flatten) {k v : Bytes}
    {i : ℕ} (hi : i < ps.length) (hmem : (k, v) ∈ ps[i].2) : rangeSearch t.ranges k = i + 1 := by
  have hlen : t.ranges.length = ps.length := by rw [h.ranges, List.length_map]
  have hrange : ∀ j (hj : j < ps.length), t.ranges[j]? = some ps[j].1 := by
    intro j hj
    rw [h.ranges, List.getElem?_map, List.getElem?_eq_getElem hj]
    rfl
  have hborder : IsBorder t.ranges.length
      (fun j => t.ranges[j]?.any fun dr => decide (k < dr.firstKey)) (i + 1) := by
    refine ⟨by omega, fun j hj => ?_, fun j hij hj => ?_⟩
    · -- a block up to the one with the key starts at or before the key
      have hle : ps[j].1.firstKey ≤ k := by
        have hfirst := (h.firstKey_le hsorted (List.getElem_mem (by omega : j < ps.length)))
        rcases Nat.lt_or_eq_of_le (Nat.le_of_lt_succ hj) with hlt | rfl
        · obtain ⟨v', hv'⟩ := hfirst.1
          exact (key_lt hsorted j i hi hlt _ hv' _ hmem).le
        · exact hfirst.2 _ hmem
      rw [hrange j (by omega), Option.any_some, decide_eq_false_iff_not]
      exact not_lt.mpr hle
    · rw [hlen] at hj
      obtain ⟨v', hv'⟩ := (h.firstKey_le hsorted (List.getElem_mem hj)).1
      rw [hrange j hj, Option.any_some, decide_eq_true_iff]
      exact key_lt hsorted i j hj (by omega) _ hmem _ hv'
  exact hborder.search_eq

/-- A key of the table is in the block right before the border. -/
theorem exists_block_of_mem (h : t.Serves ps) (hsorted : KeySorted (ps.map Prod.snd).flatten)
    {k v : Bytes} (hv : (k, v) ∈ (ps.map Prod.snd).flatten) :
    ∃ i, ∃ hi : i < ps.length, rangeSearch t.ranges k = i + 1 ∧ (k, v) ∈ ps[i].2 := by
  obtain ⟨g, hg, hv⟩ := List.mem_flatten.mp hv
  obtain ⟨p, hp, rfl⟩ := List.mem_map.mp hg
  obtain ⟨i, hi, rfl⟩ := List.getElem_of_mem hp
  exact ⟨i, hi, h.rangeSearch_eq hsorted hi hv, hv⟩

/-- The block right before the border answers for the table. -/
theorem getList_block (h : t.Serves ps) (hsorted : KeySorted (ps.map Prod.snd).flatten) {k : Bytes}
    {i : ℕ} (hi : i < ps.length) (hborder : rangeSearch t.ranges k = i + 1) :
    getList k ps[i].2 = getList k (ps.map Prod.snd).flatten := by
  have hmem : ps[i] ∈ ps := List.getElem_mem hi
  apply Option.ext
  intro v
  constructor
  · intro hget
    refine getList_of_mem hsorted (List.mem_flatten.mpr ⟨_, List.mem_map_of_mem hmem, ?_⟩)
    exact mem_of_getList hget
  · intro hget
    obtain ⟨j, hj, hborder', hv⟩ := h.exists_block_of_mem hsorted (mem_of_getList hget)
    obtain rfl : j = i := by omega
    exact getList_of_mem (group_sorted hsorted hmem) hv

/-- **A lookup** gives the value the entries have under the key, but nil for an empty one. -/
theorem get (h : t.Serves ps) (hsorted : KeySorted (ps.map Prod.snd).flatten)
    {hash : Bytes → UInt64 → UInt64}
    (hadmits : ∀ e ∈ (ps.map Prod.snd).flatten,
      (t.filter.containsHash (hash e.1 t.filter.seed) : Checked SstError Bool) = .ok true)
    (pool : BlockPool) (k : Bytes) :
    t.Same (t.get hash pool k).2 ∧ (t.get hash pool k).2.Serves ps ∧
      (t.get hash pool k).1 = .ok ((getList k (ps.map Prod.snd).flatten).bind cloneBytes) := by
  have habsent : (∀ v, (k, v) ∉ (ps.map Prod.snd).flatten) →
      (getList k (ps.map Prod.snd).flatten).bind cloneBytes = none := by
    intro hnone
    rw [getList_eq_none_iff.mpr fun e he heq => hnone e.2 (heq ▸ he)]
    rfl
  rw [Table.get, Bloom.Filter.containsHash_eq h.filter]
  -- the filter says no only to keys that were not added
  cases hbits : (t.filter.positions (hash k t.filter.seed)).all t.filter.bit with
  | false =>
    refine ⟨Same.refl t, h, congrArg Except.ok (habsent fun v hv => ?_).symm⟩
    have hin := hadmits _ hv
    rw [Bloom.Filter.containsHash_eq h.filter, hbits] at hin
    cases hin
  | true =>
    rw [findDataRange_eq]
    -- every range starts behind the key, or the one before the border is the only one to have it
    by_cases hzero : rangeSearch t.ranges k = 0
    · rw [if_pos hzero]
      refine ⟨Same.refl t, h, congrArg Except.ok (habsent fun v hv => ?_).symm⟩
      obtain ⟨i, -, hi, -⟩ := h.exists_block_of_mem hsorted hv
      omega
    obtain ⟨i, hborder⟩ := Nat.exists_eq_succ_of_ne_zero hzero
    have hle : rangeSearch t.ranges k ≤ t.ranges.length := search_le _ _
    rw [h.ranges, List.length_map, ← h.ranges] at hle
    have hi : i < ps.length := by omega
    have hrange : t.ranges[rangeSearch t.ranges k - 1]? = some ps[i].1 := by
      rw [hborder, h.ranges, Nat.succ_sub_one, List.getElem?_map, List.getElem?_eq_getElem hi]
      rfl
    rw [if_neg hzero, hrange]
    have hmem : ps[i] ∈ ps := List.getElem_mem hi
    obtain ⟨hsame, hserves, hok⟩ := h.getCachedBlock hmem pool
    refine ⟨hsame, hserves, ?_⟩
    change (do return (← (← (t.getCachedBlock pool ps[i].1).1).lookup k).bind cloneBytes :
      Checked SstError (Option Bytes)) = _
    rw [hok, ok_bind, lookup_blockOf_sorted (h.fits hmem) (group_sorted hsorted hmem), ok_bind,
      h.getList_block hsorted hi hborder]
    rfl

end Serves

end Table

/-! ## Flushed tables -/

theorem length_encodeEntries_le {es : List (Bytes × Bytes)}
    (hfit : ∀ e ∈ es, entrySize e ≤ blockSize) :
    (encodeEntries es).length ≤ es.length * blockSize := by
  induction es with
  | nil => exact Nat.zero_le _
  | cons e es ih =>
    obtain ⟨he, hes⟩ := List.forall_mem_cons.mp hfit
    have hle := ih hes
    rw [encodeEntries_cons, List.length_append, length_encodeEntry, List.length_cons, Nat.succ_mul]
    omega

/-- A table over a file of the format, with blocks that tile it in groups of the entries `es`. -/
structure Table.Written (hash : Bytes → UInt64 → UInt64) (es : List (Bytes × Bytes))
    (ps : List (DataRange × List (Bytes × Bytes))) (t : Table) : Prop where
  serves : t.Serves ps
  entries : (ps.map Prod.snd).flatten = es
  file : t.file = tableFile t.filter (encodeEntries es) (encodeFullRange t.ranges)
  tiles : Tiles t.file t.filter.marshalBinary.length ps
    (t.filter.marshalBinary.length + (encodeEntries es).length)
  format : FormatOK t.filter (encodeEntries es)
  admits : ∀ e ∈ es, (t.filter.containsHash (hash e.1 t.filter.seed) : Checked SstError Bool) = .ok true

/-- The metadata of a table with the given entries. -/
structure Table.Described (es : List (Bytes × Bytes)) (t : Table) : Prop where
  smallest : t.smallest = firstKeyOf es
  largest : t.largest = (es.getLast?.map Prod.fst).getD []
  sizeBytes : t.sizeBytes = t.file.length

/-- The table after calls of `Get`, one after the other. -/
def Table.gets (hash : Bytes → UInt64 → UInt64) (pool : BlockPool) (t : Table) (ks : List Bytes) :
    Table :=
  ks.foldl (fun t k => (t.get hash pool k).2) t

/-- The copy that `Get` returns is nil for the empty value alone. -/
theorem bind_cloneBytes_eq_iff (v : Option Bytes) : v.bind cloneBytes = v ↔ v ≠ some [] := by
  rcases v with - | b
  · simp
  · by_cases hb : b = [] <;> simp [cloneBytes, hb]

namespace Table.Written

variable {hash : Bytes → UInt64 → UInt64} {es : List (Bytes × Bytes)} {t t' : Table}
  {ps : List (DataRange × List (Bytes × Bytes))}

/-- What is written stays so whatever happens to the cache. -/
theorem of_serves (h : t.Written hash es ps) (hserves : t'.Serves ps) (hfile : t'.file = t.file)
    (hfilter : t'.filter = t.filter) : t'.Written hash es ps := by
  have hranges : t'.ranges = t.ranges := by rw [hserves.ranges, h.serves.ranges]
  refine ⟨hserves, h.entries, ?_, ?_, hfilter ▸ h.format, ?_⟩
  · rw [hfile, hfilter, hranges]
    exact h.file
  · rw [hfile, hfilter]
    exact h.tiles
  · rw [hfilter]
    exact h.admits

theorem loadMetadata (h : t.Written hash es ps) (pool : BlockPool) :
    ∃ t', t.loadMetadata pool = .ok t' ∧ t'.Written hash es ps ∧ t'.Described es ∧
      t'.file = t.file ∧ t'.filter = t.filter ∧ t'.ranges = t.ranges := by
  obtain ⟨t', hload, hserves, hfile, hfilter, hsmallest, hlargest, hsize⟩ :=
    h.serves.loadMetadata pool
  rw [h.entries] at hsmallest hlargest
  exact ⟨t', hload, h.of_serves hserves hfile hfilter,
    ⟨hsmallest, hlargest, hsize.trans (congrArg _ hfile.symm)⟩, hfile, hfilter,
    hserves.ranges.trans h.serves.ranges.symm⟩

/-- Opening the file of a written table gives such a table. -/
theorem openTable (h : t.Written hash es ps) (pool : BlockPool) :
    ∃ v, openTable pool t.file = .ok v ∧ v.Written hash es ps ∧ v.Described es ∧
      v.file = t.file ∧ v.filter = t.filter ∧ v.ranges = t.ranges := by
  have hfits : ∀ ra ∈ t.ranges, RangeFits ra := by
    intro ra hra
    rw [h.serves.ranges] at hra
    obtain ⟨p, hp, rfl⟩ := List.mem_map.mp hra
    obtain ⟨-, hentries, v, rest, hgroup⟩ := h.tiles.read hp
    exact (hentries (p.1.firstKey, v) (hgroup ▸ List.mem_cons_self)).key
  have hnew : (newTable t.ranges t.filter t.file).Written hash es ps := by
    exact ⟨⟨h.serves.ranges, h.serves.filter, h.serves.tiles, cached_newTable _ _ _ _⟩, h.entries,
      h.file, h.tiles, h.format, h.admits⟩
  obtain ⟨v, hload, hv⟩ := hnew.loadMetadata pool
  refine ⟨v, ?_, hv⟩
  nth_rewrite 1 [h.file]
  rw [openTable_tableFile pool h.format, decodeFullRange_encode hfits, ok_bind, ← h.file, hload]

/-- A lookup in a written table. -/
theorem get (h : t.Written hash es ps) (hsorted : KeySorted es) (pool : BlockPool) (k : Bytes) :
    (t.get hash pool k).2.Written hash es ps ∧
      (t.get hash pool k).1 = .ok ((getList k es).bind cloneBytes) := by
  obtain ⟨hsame, hserves, hget⟩ := h.serves.get (h.entries.symm ▸ hsorted)
    (h.entries.symm ▸ h.admits) pool k
  rw [h.entries] at hget
  exact ⟨h.of_serves hserves hsame.file hsame.filter, hget⟩

/-- Lookups leave a written table written. -/
theorem gets (h : t.Written hash es ps) (hsorted : KeySorted es) (pool : BlockPool) (ks : List Bytes) :
    (t.gets hash pool ks).Written hash es ps := by
  induction ks generalizing t with
  | nil => exact h
  | cons k ks ih => exact ih (h.get hsorted pool k).1

end Table.Written

/-- **What `Flush` writes.** -/
theorem flushEntries_spec {sizing : Bloom.Sizing} {hash : Bytes → UInt64 → UInt64}
    {es : List (Bytes × Bytes)} (hsizing : (Bloom.newFor sizing es.length).Sound)
    (hfit : ∀ e ∈ es, entrySize e ≤ blockSize) (hcount : es.length < 2 ^ 32) (pool : BlockPool) :
    ∃ u ps, flushEntries sizing hash pool es = .ok u ∧ u.Written hash es ps ∧ u.Described es := by
  set f := Bloom.newFor sizing es.length with hf
  obtain ⟨gs, w, hwrite, hflat, hgroups, hranges, hout, hoffset, hadmits⟩ :=
    writeDataBlocks_spec hash hsizing f.marshalBinary.length hfit
  have hbloom := hadmits.shape.length_marshalBinary hsizing
  -- the filter has at most `2 ^ 61` bytes and a header, the blocks fewer than `2 ^ 44`
  have hlt : f.marshalBinary.length + (encodeEntries es).length < 2 ^ 63 := by
    have hblocks : _ ≤ es.length * 4096 := length_encodeEntries_le hfit
    have hbits := f.numBits.toNat_lt
    have hwords := hsizing.length_words
    have hheader : Bloom.headerSize = 25 := rfl
    rw [Bloom.Filter.length_marshalBinary]
    omega
  have hoff : w.offset.toNat = f.marshalBinary.length + (encodeEntries es).length := by
    rw [hoffset]
    exact UInt64.toNat_ofNat_of_lt' (show _ < 2 ^ 64 by omega)
  set file := tableFile w.filter (encodeEntries es) (encodeFullRange w.ranges) with hfile
  have hwritten : (newTable w.ranges w.filter file).Written hash es
      (layout f.marshalBinary.length gs) := by
    have htiles : Tiles file f.marshalBinary.length (layout f.marshalBinary.length gs)
        (f.marshalBinary.length + (encodeEntries es).length) := by
      rw [← hflat] at hlt hfile ⊢
      rw [← hbloom] at hlt ⊢
      exact tiles_layout hgroups (hfile.trans rfl) hlt
    refine ⟨⟨hranges, hadmits.shape.sound, ?_, cached_newTable _ _ _ _⟩, ?_, hfile,
      hbloom.symm ▸ htiles, ⟨hadmits.shape.sound, ?_⟩, hadmits.shape.seed.symm ▸ hadmits.contains⟩
    · refine ⟨_, _, htiles, ?_, hlt⟩
      change _ ≤ file.length
      rw [hfile, tableFile, List.length_append, List.length_append, hbloom]
      omega
    · rw [map_snd_layout, hflat]
    · change w.filter.marshalBinary.length + (encodeEntries es).length < 2 ^ 64
      omega
  obtain ⟨u, hload, hu, hdescribed, -⟩ := hwritten.loadMetadata pool
  refine ⟨u, _, ?_, hu, hdescribed⟩
  have hhead : w.filter.marshalBinary ≠ [] := by
    rw [← List.length_pos_iff, Bloom.Filter.length_marshalBinary]
    exact Nat.lt_of_lt_of_le (by decide) (Nat.le_add_right Bloom.headerSize _)
  have hbody : w.out ++ indexAndFooter w.ranges w.offset ≠ [] := by
    rw [← List.length_pos_iff, List.length_append, indexAndFooter, List.length_append, length_footer]
    exact Nat.lt_of_lt_of_le (by decide) (Nat.le_add_left sstableFooterSize _)
  rw [flushEntries, ← hf, hwrite, ok_bind, ← hbloom]
  change (newTable w.ranges w.filter (writeAt (writeAt [] w.filter.marshalBinary.length
    (w.out ++ indexAndFooter w.ranges w.offset)) 0 w.filter.marshalBinary)).loadMetadata pool = _
  rw [writeAt_gap hhead hbody, hout, indexAndFooter, hoff, ← hbloom]
  exact hload

/-- The first entry that no block can hold is named in the error. -/
theorem flushEntries_tooLarge {sizing : Bloom.Sizing} (hash : Bytes → UInt64 → UInt64)
    (hsizing : ∀ n, (Bloom.newFor sizing n).Sound) (pool : BlockPool)
    {pre : List (Bytes × Bytes)} (hpre : ∀ e ∈ pre, entrySize e ≤ blockSize) {e : Bytes × Bytes}
    (he : blockSize < entrySize e) (post : List (Bytes × Bytes)) :
    flushEntries sizing hash pool (pre ++ e :: post) = fail (.entryTooLarge e.1) := by
  rw [flushEntries, writeDataBlocks_tooLarge hash (hsizing _) _ hpre he]
  rfl

/-- An entry that a block can hold is never named. -/
theorem flushEntries_ne_tooLarge {sizing : Bloom.Sizing} (hash : Bytes → UInt64 → UInt64)
    (hsizing : ∀ n, (Bloom.newFor sizing n).Sound) (pool : BlockPool) {es : List (Bytes × Bytes)}
    (hsorted : KeySorted es) (hcount : es.length < 2 ^ 32) {e : Bytes × Bytes} (hmem : e ∈ es)
    (hfit : entrySize e ≤ blockSize) :
    flushEntries sizing hash pool es ≠ fail (.entryTooLarge e.1) := by
  -- the flush names the first entry that is too large
  cases hfirst : es.find? fun e => decide (blockSize < entrySize e) with
  | none =>
    have hall : ∀ e ∈ es, entrySize e ≤ blockSize := by simpa using hfirst
    obtain ⟨u, ps, hflush, -⟩ : ∃ u ps, flushEntries sizing hash pool es = .ok u ∧ _ :=
      flushEntries_spec (hsizing _) hall hcount pool
    rw [hflush]
    intro heq
    cases heq
  | some e' =>
    obtain ⟨hlarge, pre, post, rfl, hpre⟩ := List.find?_eq_some_iff_append.mp hfirst
    have hlarge' : blockSize < entrySize e' := by simpa using hlarge
    rw [flushEntries_tooLarge hash hsizing pool (by simpa using hpre) hlarge' post]
    intro heq
    obtain rfl : e' = e := by
      have hkey : e'.1 = e.1 := by simpa [fail] using heq
      have hget := getList_of_mem hsorted (List.mem_append_right pre List.mem_cons_self : e' ∈ _)
      rw [hkey, getList_of_mem hsorted hmem] at hget
      exact Prod.ext hkey (Option.some.inj hget).symm
    omega

/-- A well-formed skiplist whose entries each fit in a block, a sizing that gives filters of whole words
with a hash at least, and rounds enough to walk over the skiplist. -/
structure Flushable (sizing : Bloom.Sizing) (rounds : ℕ) (sk : Towers) (m : OrdMap Bytes Bytes) :
    Prop where
  sizing_sound : ∀ n, (Bloom.newFor sizing n).Sound
  holds : sk.Holds m
  fits : ∀ e ∈ m.entries, entryMetaSize + e.1.length + e.2.length ≤ blockSize
  rounds : m.entries.length < rounds

variable {sizing : Bloom.Sizing} {rounds : ℕ} {sk : Towers} {m : OrdMap Bytes Bytes}

/-- A skiplist of entries that blocks can hold is flushed, and what is written can be opened. -/
theorem Flushable.flush_open (h : Flushable sizing rounds sk m) (hash : Bytes → UInt64 → UInt64)
    (pool pool' : BlockPool) : ∃ u v ps, flush sizing hash pool rounds sk = .ok (.ok u) ∧
    openTable pool' u.file = .ok v ∧ v.Written hash m.entries ps ∧ u.Described m.entries ∧
    v.Described m.entries ∧ v.file = u.file ∧ v.ranges = u.ranges := by
  obtain ⟨u, ps, hflush, hu, hdescribed⟩ :=
    flushEntries_spec (h.sizing_sound _) h.fits h.holds.length_lt pool
  obtain ⟨v, hopen, hv, hdescribed', hfile, -, hranges⟩ := hu.openTable pool'
  refine ⟨u, v, ps, ?_, hopen, hv, hdescribed, hdescribed', hfile, hranges⟩
  rw [flush, h.holds.iterate h.rounds]
  exact congrArg Except.ok hflush

/-- **Round trip of a table.** A skiplist whose entries fit in blocks is flushed. The file opens as a
table whose scans and iterations give the entries of the skiplist in order. Its blocks tile the file
from the end of the filter to the offset of the index, its index and metadata are those of the table
that `Flush` returned, and its filter has every key. -/
theorem flush_open_roundTrip (h : Flushable sizing rounds sk m) (hash : Bytes → UInt64 → UInt64)
    (pool pool' : BlockPool) : ∃ u v ps, flush sizing hash pool rounds sk = .ok (.ok u) ∧
    openTable pool' u.file = .ok v ∧
    KeySorted m.entries ∧
    (∀ (p : BlockPool) (σ τ : Type) (fn : Callback σ τ) (s : σ),
      ((v.scan p (some fn) s).1, (v.scan p (some fn) s).2.1) =
        visitStream fn (m.entries, none) s) ∧
    (∀ (p : BlockPool) n, m.entries.length < n → ∃ it v',
      v.iterate p n = .ok (some (m.entries, it, v')) ∧ it.valid v' = false ∧ it.err = none) ∧
    (∃ blocks, v.file = tableFile v.filter blocks (encodeFullRange v.ranges) ∧
      v.ranges = ps.map Prod.fst ∧
      Tiles v.file v.filter.marshalBinary.length ps
        (v.filter.marshalBinary.length + blocks.length)) ∧
    v.ranges = u.ranges ∧ v.smallest = u.smallest ∧ v.largest = u.largest ∧
    v.sizeBytes = u.sizeBytes ∧
    ∀ e ∈ m.entries,
      (v.filter.containsHash (hash e.1 v.filter.seed) : Checked SstError Bool) = .ok true := by
  obtain ⟨u, v, ps, hflush, hopen, hv, hu', hv', hfile, hranges⟩ := h.flush_open hash pool pool'
  refine ⟨u, v, ps, hflush, hopen, m.sorted, fun p σ τ fn s => ?_, fun p n hn => ?_,
    ⟨_, hv.file, hv.serves.ranges, hv.tiles⟩, hranges, ?_, ?_, ?_, hv.admits⟩
  · rw [hv.serves.scan, hv.entries]
  · have hiter := hv.serves.iterate p (show _ < n by rwa [hv.entries])
    rwa [hv.entries] at hiter
  · rw [hv'.smallest, hu'.smallest]
  · rw [hv'.largest, hu'.largest]
  · rw [hv'.sizeBytes, hu'.sizeBytes, hfile]

/-- Filters of one word with one hash. -/
def oneWord : Bloom.Sizing := ⟨fun _ => 64, fun _ _ => 1⟩

theorem oneWord_sound (n : ℕ) : (Bloom.newFor oneWord n).Sound := by
  have hnew : Bloom.newFor oneWord n = ⟨[0], 64, 1, 0⟩ := by
    simp [Bloom.newFor, oneWord, Bloom.wordCount, Bloom.wordBits]
  rw [hnew]
  exact ⟨by decide, by decide, by decide⟩

/-- The skiplist of three calls can be flushed. One of its values is empty. -/
theorem threePuts_flushable :
    ∃ sk m, Towers.fill 80 (Towers.new 1024) Towers.threePuts = .ok sk ∧ m.get [1] = some [] ∧
      Flushable oneWord (m.entries.length + 1) sk m := by
  have hlegal : ∀ p ∈ Towers.threePuts, p.Legal := by
    simp only [Towers.threePuts, List.forall_mem_cons]
    exact ⟨⟨by decide, by decide, by decide⟩, ⟨by decide, by decide, by decide⟩,
      ⟨by decide, by decide, by decide⟩, by simp⟩
  have hsizes : ∀ e ∈ Towers.threePuts.map Insertion.entry, entrySize e ≤ blockSize := by decide
  obtain ⟨sk, m, hfill, hholds, hlast⟩ := Towers.fill_holds 1024 80 Towers.threePuts hlegal
    (by decide) (by decide) (by decide)
  refine ⟨sk, m, hfill, ?_, oneWord_sound, hholds, fun e he => ?_, Nat.lt_succ_self _⟩
  · rw [hlast]
    rfl
  · refine hsizes e (mem_of_lastOf ?_)
    rw [← hlast]
    exact OrdMap.get_eq_some_iff.mpr he

theorem flush_open_roundTrip_three :
    ∃ (sk : Towers) (m : OrdMap Bytes Bytes) (u v : Table),
      Towers.fill 80 (Towers.new 1024) Towers.threePuts = .ok sk ∧
      flush oneWord (fun _ _ => 0) (fun _ _ => 0) (m.entries.length + 1) sk = .ok (.ok u) ∧
      openTable (fun _ _ => 255) u.file = .ok v ∧
      (∀ (p : BlockPool) n, m.entries.length < n → ∃ it v',
        v.iterate p n = .ok (some (m.entries, it, v')) ∧ it.valid v' = false ∧ it.err = none) ∧
      v.ranges = u.ranges ∧ v.smallest = u.smallest ∧ v.largest = u.largest ∧
      v.sizeBytes = u.sizeBytes := by
  obtain ⟨sk, m, hfill, -, h⟩ := threePuts_flushable
  obtain ⟨u, v, ps, hflush, hopen, -, -, hiter, -, hranges, hsmallest, hlargest, hsize, -⟩ :=
    flush_open_roundTrip h (fun _ _ => 0) (fun _ _ => 0) (fun _ _ => 255)
  exact ⟨sk, m, u, v, hfill, hflush, hopen, hiter, hranges, hsmallest, hlargest, hsize⟩

/-- **Point lookups.** In a flushed and opened table, after any lookups before it, `Get` returns the
value of the entry with the key, or nil when there is none, iff that value is not empty. -/
theorem flush_open_get_iff (h : Flushable sizing rounds sk m) (hash : Bytes → UInt64 → UInt64)
    (pool pool' : BlockPool) : ∃ u v, flush sizing hash pool rounds sk = .ok (.ok u) ∧
    openTable pool' u.file = .ok v ∧ ∀ (p : BlockPool) (ks : List Bytes) (k : Bytes),
      (((v.gets hash p ks).get hash p k).1 = .ok (m.get k) ↔ m.get k ≠ some []) := by
  obtain ⟨u, v, ps, hflush, hopen, hv, -⟩ := h.flush_open hash pool pool'
  refine ⟨u, v, hflush, hopen, fun p ks k => ?_⟩
  rw [((hv.gets m.sorted p ks).get m.sorted p k).2, Except.ok.injEq]
  exact bind_cloneBytes_eq_iff (m.get k)

theorem flush_open_get_three :
    ∃ (sk : Towers) (m : OrdMap Bytes Bytes) (u v : Table),
      Towers.fill 80 (Towers.new 1024) Towers.threePuts = .ok sk ∧
      flush oneWord (fun _ _ => 0) (fun _ _ => 0) (m.entries.length + 1) sk = .ok (.ok u) ∧
      openTable (fun _ _ => 0) u.file = .ok v ∧ ∀ p ks k,
        (((v.gets (fun _ _ => 0) p ks).get (fun _ _ => 0) p k).1 = .ok (m.get k) ↔
          m.get k ≠ some []) := by
  obtain ⟨sk, m, hfill, -, h⟩ := threePuts_flushable
  obtain ⟨u, v, hflush, hopen, hget⟩ :=
    flush_open_get_iff h (fun _ _ => 0) (fun _ _ => 0) (fun _ _ => 0)
  exact ⟨sk, m, u, v, hfill, hflush, hopen, hget⟩

/-- The entry with the empty value is looked up as nil. -/
theorem flush_open_get_empty :
    ∃ (sk : Towers) (m : OrdMap Bytes Bytes) (u v : Table),
      Towers.fill 80 (Towers.new 1024) Towers.threePuts = .ok sk ∧ sk.Holds m ∧
      m.get [1] = some [] ∧
      flush oneWord (fun _ _ => 0) (fun _ _ => 0) (m.entries.length + 1) sk = .ok (.ok u) ∧
      openTable (fun _ _ => 0) u.file = .ok v ∧
      (v.get (fun _ _ => 0) (fun _ _ => 0) [1]).1 = .ok none := by
  obtain ⟨sk, m, hfill, hempty, h⟩ := threePuts_flushable
  obtain ⟨u, v, ps, hflush, hopen, hv, -⟩ := h.flush_open (fun _ _ => 0) (fun _ _ => 0) (fun _ _ => 0)
  have hget : getList [1] m.entries = some [] := hempty
  refine ⟨sk, m, u, v, hfill, h.holds, hempty, hflush, hopen, ?_⟩
  rw [(hv.get m.sorted (fun _ _ => 0) [1]).2, hget]
  rfl

end Seol.Sstable
