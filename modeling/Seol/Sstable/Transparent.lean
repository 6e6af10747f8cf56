import Seol.Sstable.Stale

/-!
# Reads through the cache

Reference: `getCachedBlock` in `sstable/sstable.go`. A cached block stands for the read that made it.
It equals what another read would give as long as reads of its range depend on the file alone, or never
give a block: a range that the end of the file cuts may be completed from one buffer and not from the
next.
-/

namespace Seol.Sstable

open Common Checked

/-! ## Cut entries that no buffer completes -/

/-- The entry that the end of the file cuts has no completion within a pooled block: the range has no
room for its header or, missing header bytes read as zero, for its size; or the low byte of its value
size is in the file and it leaves between one and five bytes of the range behind it. -/
def CutIncomplete (available : Bytes) (length : ℕ) : Prop :=
  ∃ es tail, (∀ e ∈ es, EntryFits e) ∧ available = encodeEntries es ++ tail ∧
    tail.length < cutSize tail ∧
    (length - (encodeEntries es).length < entryMetaSize ∨
      length - (encodeEntries es).length < cutSize tail ∨
      3 ≤ tail.length ∧ cutSize tail < length - (encodeEntries es).length ∧
        length - (encodeEntries es).length < cutSize tail + entryMetaSize)

/-- Behind the low byte of the value size, more header bytes add nothing to the size or 256. -/
theorem cutSize_append_jump {x : Bytes} (h : 3 ≤ x.length) (y : Bytes) :
    cutSize (x ++ y) = cutSize x ∨ cutSize x + 256 ≤ cutSize (x ++ y) := by
  have hklen : slice (x ++ y) 0 2 = slice x 0 2 := slice_append_left (by omega)
  have hvlen : leNat (slice (x ++ y) 2 4) = leNat (slice x 2 4) +
      256 ^ (slice x 2 4).length * leNat ((y.drop (2 - x.length)).take (4 - (x.drop 2).length)) := by
    rw [slice, List.drop_append, List.take_append, leNat_append]
    rfl
  have hone : 1 ≤ (slice x 2 4).length := by
    rw [length_slice]
    omega
  rw [cutSize, cutSize, hklen, hvlen]
  generalize leNat ((y.drop (2 - x.length)).take (4 - (x.drop 2).length)) = high
  -- the bytes of `y` add nothing to the value size, or at least 256
  rcases Nat.eq_zero_or_pos high with rfl | hpos
  · left
    rw [Nat.mul_zero, Nat.add_zero]
  · right
    have hpow : 256 ^ 1 ≤ 256 ^ (slice x 2 4).length := Nat.pow_le_pow_right (by decide) hone
    have hmul : 256 * 1 ≤ 256 ^ (slice x 2 4).length * high := Nat.mul_le_mul hpow hpos
    omega

section Completion

variable {es : List (Bytes × Bytes)} (hes : ∀ e ∈ es, EntryFits e) {tail : Bytes}

include hes

/-- Between one and five bytes behind a cut entry are refused when its value size is settled. -/
theorem parse_gap {stale : Bytes} (htail : 3 ≤ tail.length)
    (hlt : cutSize tail < (tail ++ stale).length)
    (hrest : (tail ++ stale).length < cutSize tail + entryMetaSize) :
    ∃ e, newCachedDataBlock (encodeEntries es ++ (tail ++ stale)) = fail e := by
  have hmeta : entryMetaSize < 256 := by decide
  rcases cutSize_append_jump htail stale with hsame | hjump
  · exact ⟨_, parse_short_rest hes (by omega) (by omega)⟩
  · exact ⟨_, newCachedDataBlock_cut hes (by omega) (by omega)⟩

/-- An entry whose value size is missing takes all of the range. -/
theorem exists_parse_of_short (htail : tail.length < 3) {n : ℕ} (hn : n ≤ blockSize)
    (hsize : cutSize tail ≤ n) :
    ∃ stale b, (tail ++ stale).length = n ∧
      newCachedDataBlock (encodeEntries es ++ (tail ++ stale)) = .ok b := by
  have htail' : tail.length ≤ 2 := by omega
  have hkeys : slice tail 0 2 = tail := by
    rw [slice, List.drop_zero, List.take_of_length_le htail']
  have hvalues : slice tail 2 4 = [] := by
    rw [slice, List.drop_eq_nil_of_le htail', List.take_nil]
  have hcut : cutSize tail = 6 + leNat tail := by
    rw [cutSize, hkeys, hvalues]
    rfl
  -- the key size completed by zeros, what is left as the value size, and zeros
  set key := tail ++ List.replicate (2 - tail.length) (0 : UInt8) with hkey
  set x := key ++ (leBytes 4 (n - cutSize tail) ++ List.replicate (n - 6) (0 : UInt8)) with hx
  have hklen : key.length = 2 := by
    rw [hkey, List.length_append, List.length_replicate]
    omega
  have hxlen : x.length = n := by
    simp only [hx, List.length_append, hklen, length_leBytes, List.length_replicate]
    omega
  have hxcut : x.length = cutSize x := by
    have hblock : blockSize = 4096 := rfl
    rw [cutSize, hx, slice_append_front _ _ _ hklen.symm,
      slice_append_mid _ _ _ _ _ hklen.symm (length_leBytes _ _).symm, ← hx, hxlen,
      leNat_leBytes_of_lt (by omega), hkey, leNat_append, leNat_replicate_zero]
    simp only [entryMetaSize]
    omega
  obtain ⟨b, hok⟩ := parse_whole hes hxcut (show ∀ e ∈ [], EntryFits e by simp)
  have hsplit : x = tail ++ (List.replicate (2 - tail.length) 0 ++
      (leBytes 4 (n - cutSize tail) ++ List.replicate (n - 6) 0)) := by
    rw [hx, hkey, List.append_assoc]
  rw [encodeEntries_nil, List.append_nil] at hok
  rw [hsplit] at hok hxlen
  exact ⟨_, b, hxlen, hok⟩

end Completion

/-! ## Reading again -/

theorem data_of_parse {raw : Bytes} {b : CachedBlock} (h : newCachedDataBlock raw = .ok b) :
    b.data = raw := by
  rcases newCachedDataBlock_cases raw with ⟨e, hfail⟩ | ⟨es, -, rfl, hok⟩
  · rw [h] at hfail
    cases hfail
  · rw [h] at hok
    obtain rfl := Except.ok.inj hok
    rfl

namespace Table

/-- A lookup that reads and parses the block whatever the cache holds. -/
def reread (pool : BlockPool) (t : Table) (ra : DataRange) : Checked SstError CachedBlock :=
  if ReadRefused ra.offset.toNat ra.length.toNat then fail .read
  else newCachedDataBlock (t.rawBlock pool ra)

/-- The table after lookups, one after the other. -/
def lookups (pool : BlockPool) (t : Table) (ras : List DataRange) : Table :=
  ras.foldl (fun t ra => (t.getCachedBlock pool ra).2) t

/-- After any lookups of ranges of the index, a lookup of one of them gives what reading and parsing the
block again gives. -/
def Transparent (t : Table) : Prop :=
  ∀ pool ras, (∀ ra ∈ ras, ra ∈ t.ranges) → ∀ ra ∈ t.ranges,
    ((t.lookups pool ras).getCachedBlock pool ra).1 = (t.lookups pool ras).reread pool ra

/-- Reads of the range cannot fail once and go through another time, or give two blocks: the system
refuses them, the range lies in the file, it is too large for the pool, or the entry that the end of the
file cuts has no completion. -/
def Repeatable (file : Bytes) (ra : DataRange) : Prop :=
  ReadRefused ra.offset.toNat ra.length.toNat ∨ ra.length.toNat = 0 ∨
    ra.offset.toNat + ra.length.toNat ≤ file.length ∨ blockSize < ra.length.toNat ∨
    CutIncomplete (available file ra) ra.length.toNat

variable {t t' : Table} {ra : DataRange} {b : CachedBlock}

/-- A cut without completion is refused. -/
theorem parse_of_cutIncomplete (hpast : t.PastEnd ra)
    (h : CutIncomplete (available t.file ra) ra.length.toNat) (pool : BlockPool) :
    ∃ e, newCachedDataBlock (t.rawBlock pool ra) = fail e := by
  have hlt := hpast.available_lt
  obtain ⟨es, tail, hes, havail, -, hcond⟩ := h
  obtain ⟨stale, hstale, hraw⟩ := @exists_stale t ra pool
  have hlen : (available t.file ra).length = (encodeEntries es).length + tail.length := by
    rw [havail, List.length_append]
  have hrest : (tail ++ stale).length = ra.length.toNat - (encodeEntries es).length := by
    rw [List.length_append]
    omega
  rw [← hrest] at hcond
  rw [hraw, havail, List.append_assoc]
  rcases hcond with hshort | hshort | ⟨htail, hgap, hgap'⟩
  · exact ⟨_, parse_too_short hes (by omega) (Or.inl hshort)⟩
  · exact ⟨_, parse_too_short hes (by omega) (Or.inr hshort)⟩
  · exact parse_gap hes htail hgap hgap'

/-- A cut that is not refused for every buffer has a completion. -/
theorem exists_parse_of_not_cutIncomplete (hpast : t.PastEnd ra) (hpooled : ra.length.toNat ≤ blockSize)
    (h : ¬CutIncomplete (available t.file ra) ra.length.toNat) :
    ∃ stale b, (available t.file ra).length + stale.length = ra.length.toNat ∧
      newCachedDataBlock (available t.file ra ++ stale) = .ok b := by
  have hlt := hpast.available_lt
  obtain ⟨es, tail, hes, havail, hcut⟩ := exists_cut (available t.file ra)
  have hlen : (available t.file ra).length = (encodeEntries es).length + tail.length := by
    rw [havail, List.length_append]
  set n := ra.length.toNat - (encodeEntries es).length with hn
  have hmeta : entryMetaSize ≤ n := not_lt.mp fun hlt => h ⟨es, tail, hes, havail, hcut, Or.inl hlt⟩
  have hsize : cutSize tail ≤ n :=
    not_lt.mp fun hlt => h ⟨es, tail, hes, havail, hcut, Or.inr (Or.inl hlt)⟩
  have hcomplete : ∃ stale b, (tail ++ stale).length = n ∧
      newCachedDataBlock (encodeEntries es ++ (tail ++ stale)) = .ok b := by
    -- without the low byte of the value size the buffer can choose it
    by_cases htail : tail.length < 3
    · exact exists_parse_of_short hes htail (by omega) hsize
    refine exists_parse_of_room hes hcut (by omega) ?_
    by_contra hroom
    exact h ⟨es, tail, hes, havail, hcut, Or.inr (Or.inr ⟨by omega, by omega, by omega⟩)⟩
  obtain ⟨stale, b, hstale, hok⟩ := hcomplete
  rw [List.length_append] at hstale
  exact ⟨stale, b, by omega, by rw [havail, List.append_assoc]; exact hok⟩

/-- A block of a repeatable read is given by every later read. -/
theorem Repeatable.reread (h : Repeatable t.file ra) {pool : BlockPool}
    (hok : t.reread pool ra = .ok b) (hfile : t'.file = t.file) (pool' : BlockPool) :
    t'.reread pool' ra = .ok b := by
  rw [Table.reread] at hok ⊢
  by_cases hrefused : ReadRefused ra.offset.toNat ra.length.toNat
  · rw [if_pos hrefused] at hok
    cases hok
  rw [if_neg hrefused] at hok ⊢
  by_cases hpast : t.PastEnd ra
  -- of the reasons for being repeatable, those left past the end: a new buffer, or no block at all
  · rcases h with h | h | h | hlarge | hcut
    · exact absurd h hrefused
    · exact absurd hpast.1 (by omega)
    · exact absurd hpast.2 (by omega)
    · rw [rawBlock_of_large hlarge] at hok ⊢
      rwa [hfile]
    · obtain ⟨e, hfail⟩ := parse_of_cutIncomplete hpast hcut pool
      rw [hfail] at hok
      cases hok
  · have hpast' : ¬t'.PastEnd ra := by
      rw [PastEnd, hfile]
      exact hpast
    rw [rawBlock_of_not_pastEnd hpast] at hok
    rwa [rawBlock_of_not_pastEnd hpast', hfile]

/-- Cached blocks are what reads of their ranges give. -/
def Faithful (t : Table) : Prop :=
  t.Cached fun o b => ∀ ra ∈ t.ranges, ra.offset = o → ∀ pool (t' : Table), t'.file = t.file →
    t'.reread pool ra = .ok b

/-- A lookup in a faithful table gives what a read gives. -/
theorem Faithful.getCachedBlock_eq (h : t.Faithful) (hra : ra ∈ t.ranges) (pool : BlockPool) :
    (t.getCachedBlock pool ra).1 = t.reread pool ra := by
  cases hget : t.blockCache.get ra.offset with
  | none => rw [getCachedBlock_uncached hget, reread]
  | some b =>
    rw [h _ _ hget ra hra rfl pool t rfl, getCachedBlock, hget]

/-- One lookup of a repeatable range keeps a table faithful. -/
theorem Faithful.getCachedBlock (h : t.Faithful) (hdistinct : (t.ranges.map DataRange.offset).Nodup)
    (hrep : ∀ ra ∈ t.ranges, Repeatable t.file ra) (hra : ra ∈ t.ranges) (pool : BlockPool) :
    t.Same (t.getCachedBlock pool ra).2 ∧ (t.getCachedBlock pool ra).2.Faithful := by
  obtain ⟨hsame, hcached, -⟩ := getCachedBlock_spec pool h ra fun hread b hok r hr hoff pool' t' ht' => by
    -- the offsets are distinct: it is the range just read
    obtain rfl := List.inj_on_of_nodup_map hdistinct hr hra hoff
    have hfirst : t.reread pool r = .ok b := by rw [reread, if_neg hread, hok]
    exact (hrep r hr).reread hfirst ht' pool'
  refine ⟨hsame, ?_⟩
  rw [Faithful, hsame.ranges, hsame.file]
  exact hcached

/-- Any lookups of repeatable ranges keep a table faithful. -/
theorem Faithful.lookups (h : t.Faithful) (hdistinct : (t.ranges.map DataRange.offset).Nodup)
    (hrep : ∀ ra ∈ t.ranges, Repeatable t.file ra) {ras : List DataRange}
    (hras : ∀ ra ∈ ras, ra ∈ t.ranges) (pool : BlockPool) :
    t.Same (t.lookups pool ras) ∧ (t.lookups pool ras).Faithful := by
  induction ras generalizing t with
  | nil => exact ⟨Same.refl t, h⟩
  | cons ra ras ih =>
    obtain ⟨hra, hras⟩ := List.forall_mem_cons.mp hras
    obtain ⟨hsame, hfaithful⟩ := h.getCachedBlock hdistinct hrep hra pool
    obtain ⟨hsame', hfaithful'⟩ := ih hfaithful (by rwa [hsame.ranges])
      (by rwa [hsame.ranges, hsame.file]) (by rwa [hsame.ranges])
    exact ⟨hsame.trans hsame', hfaithful'⟩

/-- A cut that one buffer completes is completed in another way by the next buffer. -/
theorem not_transparent (hempty : ∀ o, t.blockCache.get o = none) (hra : ra ∈ t.ranges)
    (h : ¬Repeatable t.file ra) : ¬t.Transparent := by
  simp only [Repeatable, not_or, not_le, not_lt] at h
  obtain ⟨hallowed, hlen, hout, hpooled, hcut⟩ := h
  have hpast : t.PastEnd ra := ⟨by omega, hout⟩
  obtain ⟨stale, b, hstale, hok⟩ := exists_parse_of_not_cutIncomplete hpast hpooled hcut
  -- the second buffer differs in every byte behind the end of the file
  set other := stale.map (· + 1) with hother
  have hlenOther : (available t.file ra).length + other.length = ra.length.toNat := by
    rw [hother, List.length_map, hstale]
  have hne : other ≠ stale := by
    intro heq
    have hlt := hpast.available_lt
    cases hs : stale with
    | nil =>
      rw [hs, List.length_nil] at hstale
      omega
    | cons x xs =>
      rw [hother, hs, List.map_cons, List.cons.injEq] at heq
      exact absurd heq.1 (by simp)
  set pool := poolOf fun n => available t.file ra ++ if n = t.leases then stale else other with hpool
  have hread : newCachedDataBlock (t.rawBlock pool ra) = .ok b := by
    rw [hpool, rawBlock_poolOf hpooled hstale (by rw [if_pos rfl]), hok]
  set t₁ := (t.getCachedBlock pool ra).2 with ht₁
  have hload : t.getCachedBlock pool ra =
      (.ok b, { t with leases := t.leases + 1, blockCache := t.blockCache.add ra.offset b }) := by
    rw [Table.getCachedBlock, hempty]
    simp only [if_neg hallowed]
    have hread' : newCachedDataBlock (readInto t.file (getDataBlock pool t.leases ra.length.toNat)
        ra.offset.toNat) = .ok b := hread
    rw [hread']
  rw [hload] at ht₁
  have hhit : (t₁.getCachedBlock pool ra).1 = .ok b := by
    rw [Table.getCachedBlock, ht₁]
    simp only [BlockCache.get_add_self]
  have hraw : t₁.rawBlock pool ra = available t.file ra ++ other := by
    have hfile : t₁.file = t.file := by rw [ht₁]
    have hleases : t₁.leases ≠ t.leases := by
      rw [ht₁]
      exact Nat.succ_ne_self _
    rw [← hfile, hpool]
    exact rawBlock_poolOf hpooled (by rwa [hfile]) (by rw [if_neg hleases, hfile])
  intro htrans
  have heq := htrans pool [ra] (List.forall_mem_singleton.mpr hra) ra hra
  change (((t.getCachedBlock pool ra).2).getCachedBlock pool ra).1 =
    ((t.getCachedBlock pool ra).2).reread pool ra at heq
  rw [hload, ← ht₁, hhit, reread, if_neg hallowed, hraw] at heq
  have hdata := (data_of_parse hok).symm.trans (data_of_parse heq.symm)
  exact hne (List.append_cancel_left hdata).symm

/-- Over an empty cache, lookups are transparent iff all reads are repeatable. -/
theorem transparent_iff (hempty : ∀ o, t.blockCache.get o = none)
    (hdistinct : (t.ranges.map DataRange.offset).Nodup) :
    t.Transparent ↔ ∀ ra ∈ t.ranges, Repeatable t.file ra := by
  constructor
  · intro htrans ra hra
    by_contra hrep
    exact not_transparent hempty hra hrep htrans
  · intro hrep pool ras hras ra hra
    have hfaithful : t.Faithful := fun o b hget => by
      rw [hempty] at hget
      cases hget
    obtain ⟨hsame, hfaithful'⟩ := hfaithful.lookups hdistinct hrep hras pool
    exact hfaithful'.getCachedBlock_eq (hsame.ranges ▸ hra) pool

end Table

/-! ## The cache of a table -/

/-- **The block cache.** After any calls on a new cache, the queue of each shard lists the offsets of its
map once each, the shard is within its bound, and a hit is the block last added at the offset since the
last `clear`. Over such a cache, lookups in an index with distinct offsets equal reading and parsing
each time iff the reads of its ranges are repeatable. -/
theorem blockCache_transparent_iff (maxEntries : ℕ) (hmax : 1 ≤ maxEntries) (ranges : List DataRange)
    (hdistinct : (ranges.map DataRange.offset).Nodup) (f : Bloom.Filter) (file : Bytes) :
    ∃ c : BlockCache CachedBlock, newDataBlockCache maxEntries = some c ∧
      (∀ ops : List (CacheOp CachedBlock),
        (∀ s ∈ (c.run ops).shards, s.order.Nodup ∧
          (∀ offset, offset ∈ s.order ↔ offset ∈ s.blocks) ∧
          s.blocks.keys.length ≤ s.maxEntries) ∧
        ∀ offset b, (c.run ops).get offset = some b → lastAdded ops offset = some b) ∧
      ({ newTable ranges f file with blockCache := c }.Transparent ↔
        ∀ ra ∈ ranges, Table.Repeatable file ra) := by
  obtain ⟨c, hc⟩ : ∃ c : BlockCache CachedBlock, newDataBlockCache maxEntries = some c := by
    rw [newDataBlockCache, dif_neg (by omega)]
    exact ⟨_, rfl⟩
  refine ⟨c, hc, fun ops => ?_, Table.transparent_iff (BlockCache.get_new hc) hdistinct⟩
  have htracks := (BlockCache.tracks_new hc).run ops
  refine ⟨fun s hs => ?_, htracks.get_eq⟩
  have hstep := htracks.inStep s hs
  exact ⟨hstep.nodup, hstep.mem_order, hstep.length_le⟩

theorem blockCache_transparent_dangling :
    ∃ c : BlockCache CachedBlock, newDataBlockCache 1 = some c ∧
      (∀ ops : List (CacheOp CachedBlock),
        (∀ s ∈ (c.run ops).shards, s.order.Nodup ∧
          (∀ offset, offset ∈ s.order ↔ offset ∈ s.blocks) ∧
          s.blocks.keys.length ≤ s.maxEntries) ∧
        ∀ offset b, (c.run ops).get offset = some b → lastAdded ops offset = some b) ∧
      ({ newTable [danglingRange] ⟨[0], 64, 1, 0⟩ danglingFile with blockCache := c }.Transparent ↔
        ∀ ra ∈ [danglingRange], Table.Repeatable danglingFile ra) :=
  blockCache_transparent_iff 1 le_rfl [danglingRange] (List.nodup_singleton _) ⟨[0], 64, 1, 0⟩
    danglingFile

/-- A buffer of zeros at the first lease, of other bytes behind it. -/
def dirtyPool : BlockPool := fun n _ => if n = 0 then 0 else 255

/-- The dangling range is cached from a buffer of zeros. Reading it again fails. -/
theorem danglingRange_cached :
    (((newTable [danglingRange] ⟨[0], 64, 1, 0⟩ danglingFile).lookups dirtyPool
      [danglingRange]).getCachedBlock dirtyPool danglingRange).1 = .ok (blockOf [([], [])]) ∧
    ((newTable [danglingRange] ⟨[0], 64, 1, 0⟩ danglingFile).lookups dirtyPool
      [danglingRange]).reread dirtyPool danglingRange = fail .truncatedEntryBody := by
  constructor <;> rfl

end Seol.Sstable
