import Mathlib

/-!
# The block cache

Reference: `dataBlockCache` and `dataBlockCacheShard` in `sstable/sstable.go`. A cache is a row of
shards, and a block lives in the shard its offset picks. The offsets of a shard are queued in the order
in which they came, and a full shard drops the oldest.
-/

namespace Seol.Sstable

variable {β : Type}

/-- `dataBlockCacheShard`. -/
structure CacheShard (β : Type) where
  blocks : AList fun _ : UInt64 => β
  order : List UInt64
  maxEntries : ℕ

/-- `dataBlockCache`: there is at least one shard. -/
structure BlockCache (β : Type) where
  shards : List (CacheShard β)
  shards_pos : 0 < shards.length

/-- `blockCacheShardCount`. -/
def blockCacheShardCount : ℕ := 16

/-- `blockCacheEntryLimit`. -/
def blockCacheEntryLimit : ℕ := 256

namespace CacheShard

/-- The loop of `evictOldestLocked`: offsets are popped up to the first that is present. -/
def evictLoop (blocks : AList fun _ : UInt64 => β) :
    List UInt64 → (AList fun _ : UInt64 => β) × List UInt64
  | [] => (blocks, [])
  | oldest :: order =>
    if oldest ∈ blocks then (blocks.erase oldest, order) else evictLoop blocks order

/-- `evictOldestLocked`. -/
def evictOldest (s : CacheShard β) : CacheShard β :=
  { s with blocks := (evictLoop s.blocks s.order).1, order := (evictLoop s.blocks s.order).2 }

/-- `add` on the shard of the offset. -/
def add (s : CacheShard β) (offset : UInt64) (block : β) : CacheShard β :=
  if offset ∈ s.blocks then { s with blocks := s.blocks.insert offset block }
  else
    let s := if s.maxEntries ≤ s.blocks.keys.length then s.evictOldest else s
    { s with blocks := s.blocks.insert offset block, order := s.order ++ [offset] }

/-- `clear` on one shard. -/
def clear (s : CacheShard β) : CacheShard β := { s with blocks := ∅, order := [] }

end CacheShard

/-- `newDataBlockCache`; `none` is nil. -/
def newDataBlockCache (maxEntries : ℕ) : Option (BlockCache β) :=
  if h : maxEntries < 1 then none
  else
    let shardCount := if maxEntries < blockCacheShardCount then maxEntries else blockCacheShardCount
    let perShard := (maxEntries + shardCount - 1) / shardCount
    some ⟨List.replicate shardCount ⟨∅, [], perShard⟩, by
      rw [List.length_replicate]
      change 0 < if maxEntries < 16 then maxEntries else 16
      split <;> omega⟩

namespace BlockCache

/-- The shard of an offset. -/
def shardIndex (c : BlockCache β) (offset : UInt64) : ℕ := offset.toNat % c.shards.length

theorem shardIndex_lt (c : BlockCache β) (offset : UInt64) : c.shardIndex offset < c.shards.length :=
  Nat.mod_lt _ c.shards_pos

/-- `shard`. -/
def shard (c : BlockCache β) (offset : UInt64) : CacheShard β :=
  c.shards.get ⟨c.shardIndex offset, c.shardIndex_lt offset⟩

/-- `get`. -/
def get (c : BlockCache β) (offset : UInt64) : Option β := (c.shard offset).blocks.lookup offset

/-- `add`. -/
def add (c : BlockCache β) (offset : UInt64) (block : β) : BlockCache β :=
  ⟨c.shards.set (c.shardIndex offset) ((c.shard offset).add offset block), by
    rw [List.length_set]
    exact c.shards_pos⟩

/-- `clear`. -/
def clear (c : BlockCache β) : BlockCache β :=
  ⟨c.shards.map CacheShard.clear, by
    rw [List.length_map]
    exact c.shards_pos⟩

end BlockCache

/-- The cache of a table. -/
def tableCache : BlockCache β := (newDataBlockCache blockCacheEntryLimit).get rfl

/-! ## What the cache returns -/

namespace CacheShard

/-- Eviction only takes blocks away. -/
theorem lookup_evictLoop {blocks : AList fun _ : UInt64 => β} {order : List UInt64} {offset : UInt64}
    {b : β} (h : (evictLoop blocks order).1.lookup offset = some b) :
    blocks.lookup offset = some b := by
  induction order with
  | nil => exact h
  | cons oldest order ih =>
    rw [evictLoop] at h
    by_cases hmem : oldest ∈ blocks
    · rw [if_pos hmem] at h
      -- the block that is evicted is no longer found, every other one is
      by_cases heq : offset = oldest
      · subst heq
        rw [AList.lookup_erase] at h
        cases h
      · rwa [AList.lookup_erase_ne heq] at h
    · rw [if_neg hmem] at h
      exact ih h

@[simp] theorem lookup_add_self (s : CacheShard β) (offset : UInt64) (block : β) :
    (s.add offset block).blocks.lookup offset = some block := by
  rw [add]
  by_cases hmem : offset ∈ s.blocks
  · rw [if_pos hmem, AList.lookup_insert]
  · rw [if_neg hmem, AList.lookup_insert]

/-- Another block of the shard was there before. -/
theorem lookup_add_of_ne {s : CacheShard β} {offset offset' : UInt64} {block b : β}
    (hne : offset' ≠ offset) (h : (s.add offset block).blocks.lookup offset' = some b) :
    s.blocks.lookup offset' = some b := by
  rw [add] at h
  by_cases hmem : offset ∈ s.blocks
  · rwa [if_pos hmem, AList.lookup_insert_ne hne] at h
  · rw [if_neg hmem, AList.lookup_insert_ne hne] at h
    by_cases hfull : s.maxEntries ≤ s.blocks.keys.length
    · rw [if_pos hfull] at h
      exact lookup_evictLoop h
    · rwa [if_neg hfull] at h

end CacheShard

namespace BlockCache

@[simp] theorem shardIndex_add (c : BlockCache β) (offset offset' : UInt64) (block : β) :
    (c.add offset block).shardIndex offset' = c.shardIndex offset' := by
  rw [shardIndex, shardIndex, add, List.length_set]

theorem shard_add (c : BlockCache β) (offset offset' : UInt64) (block : β) :
    (c.add offset block).shard offset' =
      if c.shardIndex offset' = c.shardIndex offset then (c.shard offset).add offset block
      else c.shard offset' := by
  have hlt : c.shardIndex offset' <
      (c.shards.set (c.shardIndex offset) ((c.shard offset).add offset block)).length := by
    rw [List.length_set]
    exact c.shardIndex_lt offset'
  rw [shard, List.get_eq_getElem]
  simp only [shardIndex_add]
  change (c.shards.set _ _)[c.shardIndex offset'] = _
  rw [List.getElem_set]
  by_cases heq : c.shardIndex offset' = c.shardIndex offset
  · rw [if_pos heq, if_pos heq.symm]
  · rw [if_neg heq, if_neg (Ne.symm heq)]
    rfl

@[simp] theorem get_add_self (c : BlockCache β) (offset : UInt64) (block : β) :
    (c.add offset block).get offset = some block := by
  rw [get, shard_add, if_pos rfl, CacheShard.lookup_add_self]

theorem get_add_of_ne {c : BlockCache β} {offset offset' : UInt64} {block b : β}
    (hne : offset' ≠ offset) (h : (c.add offset block).get offset' = some b) :
    c.get offset' = some b := by
  rw [get, shard_add] at h
  by_cases heq : c.shardIndex offset' = c.shardIndex offset
  · rw [if_pos heq] at h
    have hsame : c.shard offset' = c.shard offset := by simp only [shard, heq]
    rw [get, hsame]
    exact CacheShard.lookup_add_of_ne hne h
  · rwa [if_neg heq] at h

/-- What holds of the cached blocks and of a new one holds of every block after `add`. -/
theorem forall_get_add {P : UInt64 → β → Prop} {c : BlockCache β} {offset : UInt64} {block : β}
    (hc : ∀ o b, c.get o = some b → P o b) (hblock : P offset block) (o : UInt64) (b : β)
    (h : (c.add offset block).get o = some b) : P o b := by
  by_cases heq : o = offset
  · subst heq
    rw [get_add_self] at h
    obtain rfl := Option.some.inj h
    exact hblock
  · exact hc o b (get_add_of_ne heq h)

/-- A new cache is empty. -/
theorem get_new {maxEntries : ℕ} {c : BlockCache β} (h : newDataBlockCache maxEntries = some c)
    (offset : UInt64) : c.get offset = none := by
  rw [newDataBlockCache] at h
  by_cases hlt : maxEntries < 1
  · rw [dif_pos hlt] at h
    cases h
  · rw [dif_neg hlt] at h
    obtain rfl := Option.some.inj h
    simp only [get, shard, List.get_eq_getElem, List.getElem_replicate, AList.lookup_empty]

@[simp] theorem get_tableCache (offset : UInt64) : (tableCache : BlockCache β).get offset = none :=
  get_new (Option.some_get _).symm offset

end BlockCache

/-! ## Runs of a cache -/

/-- A call of a method; a nil block is `none`. -/
inductive CacheOp (β : Type) where
  | add (offset : UInt64) (block : Option β)
  | get (offset : UInt64)
  | clear

/-- The cache after a call. A nil block is not added. -/
def BlockCache.step (c : BlockCache β) : CacheOp β → BlockCache β
  | .add offset (some block) => c.add offset block
  | .add _ none => c
  | .get _ => c
  | .clear => c.clear

/-- The cache after a sequence of calls. -/
def BlockCache.run (c : BlockCache β) (ops : List (CacheOp β)) : BlockCache β :=
  ops.foldl BlockCache.step c

/-- The blocks last added at each offset since the last `clear`, after one more call. -/
def CacheOp.note (last : UInt64 → Option β) : CacheOp β → UInt64 → Option β
  | .add offset (some block) => Function.update last offset (some block)
  | .add _ none => last
  | .get _ => last
  | .clear => fun _ => none

/-- The block last added at an offset since the last `clear`. -/
def lastAdded (ops : List (CacheOp β)) : UInt64 → Option β := ops.foldl CacheOp.note fun _ => none

namespace CacheShard

/-- The queue lists each offset of the map once, and the shard is within its bound. -/
structure InStep (s : CacheShard β) : Prop where
  nodup : s.order.Nodup
  mem_order : ∀ offset, offset ∈ s.order ↔ offset ∈ s.blocks
  length_le : s.blocks.keys.length ≤ s.maxEntries
  max_pos : 0 < s.maxEntries

variable {s : CacheShard β}

/-- A shard in step that is full drops its oldest offset. -/
theorem InStep.evictOldest (h : s.InStep) (hfull : s.maxEntries ≤ s.blocks.keys.length) :
    ∃ oldest order, s.order = oldest :: order ∧ oldest ∈ s.blocks ∧
      s.evictOldest = ⟨s.blocks.erase oldest, order, s.maxEntries⟩ := by
  have hpos := h.max_pos
  cases horder : s.order with
  | nil =>
    -- an empty queue means an empty map, which is not full
    have hkeys : s.blocks.keys = [] := List.eq_nil_iff_forall_not_mem.mpr fun o ho => by
      have hmem := (h.mem_order o).mpr (AList.mem_keys.mp ho)
      rw [horder] at hmem
      cases hmem
    rw [hkeys, List.length_nil] at hfull
    omega
  | cons oldest order =>
    have hmem : oldest ∈ s.blocks := by
      rw [← h.mem_order, horder]
      exact List.mem_cons_self
    refine ⟨oldest, order, rfl, hmem, ?_⟩
    rw [CacheShard.evictOldest, horder, evictLoop, if_pos hmem]

/-- A shard in step with room takes a new offset at the end of its queue. -/
theorem InStep.insert (h : s.InStep) {offset : UInt64} (hnew : offset ∉ s.blocks)
    (hroom : s.blocks.keys.length < s.maxEntries) (block : β) :
    InStep ⟨s.blocks.insert offset block, s.order ++ [offset], s.maxEntries⟩ where
  nodup := by
    rw [← List.concat_eq_append]
    exact h.nodup.concat fun hmem => hnew ((h.mem_order offset).mp hmem)
  mem_order o := by
    rw [List.mem_append, List.mem_singleton, h.mem_order, AList.mem_insert, or_comm]
  length_le := by
    -- the offset is new, so the queue and the map both grow by it
    have hkey : offset ∉ s.blocks.keys := fun hmem => hnew (AList.mem_keys.mp hmem)
    change (s.blocks.insert offset block).keys.length ≤ s.maxEntries
    rw [AList.keys_insert, List.erase_of_not_mem hkey, List.length_cons]
    omega
  max_pos := h.max_pos

/-- Without its oldest offset, a shard is in step and has room. -/
theorem InStep.erase (h : s.InStep) {oldest : UInt64} {order : List UInt64}
    (horder : s.order = oldest :: order) (hmem : oldest ∈ s.blocks) :
    InStep ⟨s.blocks.erase oldest, order, s.maxEntries⟩ ∧
      (s.blocks.erase oldest).keys.length < s.maxEntries := by
  have hnodup := h.nodup
  rw [horder, List.nodup_cons] at hnodup
  -- the oldest offset is in the map, so erasing it makes room
  have hlen : (s.blocks.erase oldest).keys.length < s.blocks.keys.length := by
    have hpos : 0 < s.blocks.keys.length := List.length_pos_of_mem (AList.mem_keys.mpr hmem)
    rw [AList.keys_erase, List.length_erase_of_mem (AList.mem_keys.mpr hmem)]
    exact Nat.sub_one_lt hpos.ne'
  have hle := h.length_le
  refine ⟨⟨hnodup.2, fun o => ?_, (hlen.trans_le hle).le, h.max_pos⟩, hlen.trans_le hle⟩
  rw [AList.mem_erase, ← h.mem_order, horder, List.mem_cons]
  constructor
  · intro ho
    exact ⟨fun heq => hnodup.1 (heq ▸ ho), Or.inr ho⟩
  · rintro ⟨hne, ho⟩
    exact ho.resolve_left hne

/-- `add` keeps a shard in step. -/
theorem InStep.add (h : s.InStep) (offset : UInt64) (block : β) : (s.add offset block).InStep := by
  rw [CacheShard.add]
  by_cases hmem : offset ∈ s.blocks
  · -- the block is replaced in place
    rw [if_pos hmem]
    refine ⟨h.nodup, fun o => ?_, ?_, h.max_pos⟩
    · rw [h.mem_order, AList.mem_insert]
      exact ⟨Or.inr, fun ho => ho.elim (fun heq => heq ▸ hmem) id⟩
    · rw [AList.keys_insert, List.length_cons, List.length_erase_of_mem (AList.mem_keys.mpr hmem)]
      have hpos : 0 < s.blocks.keys.length := List.length_pos_of_mem (AList.mem_keys.mpr hmem)
      have hle := h.length_le
      change s.blocks.keys.length - 1 + 1 ≤ s.maxEntries
      omega
  · rw [if_neg hmem]
    by_cases hfull : s.maxEntries ≤ s.blocks.keys.length
    · obtain ⟨oldest, order, horder, hold, hevict⟩ := h.evictOldest hfull
      obtain ⟨hstep, hroom⟩ := h.erase horder hold
      rw [if_pos hfull, hevict]
      refine hstep.insert (fun ho => ?_) hroom block
      exact hmem (AList.mem_erase.mp ho).2
    · rw [if_neg hfull]
      exact h.insert hmem (not_le.mp hfull) block

/-- `clear` keeps a shard in step. -/
theorem InStep.clear (h : s.InStep) : s.clear.InStep :=
  ⟨List.nodup_nil, fun _ => ⟨fun ho => (by cases ho), fun ho => absurd ho (AList.notMem_empty _)⟩,
    Nat.zero_le _, h.max_pos⟩

end CacheShard

namespace BlockCache

/-- Every shard is in step, and each cached block is the last one added at its offset. -/
structure Tracks (c : BlockCache β) (last : UInt64 → Option β) : Prop where
  inStep : ∀ s ∈ c.shards, s.InStep
  get_eq : ∀ offset b, c.get offset = some b → last offset = some b

theorem tracks_new {maxEntries : ℕ} {c : BlockCache β} (h : newDataBlockCache maxEntries = some c) :
    c.Tracks fun _ => none := by
  refine ⟨fun s hs => ?_, fun offset b hget => ?_⟩
  · rw [newDataBlockCache] at h
    by_cases hlt : maxEntries < 1
    · rw [dif_pos hlt] at h
      cases h
    · rw [dif_neg hlt] at h
      obtain rfl := Option.some.inj h
      obtain rfl := List.eq_of_mem_replicate hs
      refine ⟨List.nodup_nil, fun o => ⟨fun ho => (by cases ho), fun ho => ?_⟩, Nat.zero_le _, ?_⟩
      · exact absurd ho (AList.notMem_empty o)
      · -- there are no more shards than entries
        apply Nat.div_pos
        · split <;> omega
        · change 0 < if maxEntries < 16 then maxEntries else 16
          split <;> omega
  · rw [get_new h] at hget
    cases hget

theorem get_clear (c : BlockCache β) (offset : UInt64) : c.clear.get offset = none := by
  simp only [get, shard, clear, List.get_eq_getElem, List.getElem_map, CacheShard.clear,
    AList.lookup_empty]

/-- One call keeps the shards in step with their queues and the blocks with the calls. -/
theorem Tracks.step {c : BlockCache β} {last : UInt64 → Option β} (h : c.Tracks last)
    (op : CacheOp β) : (c.step op).Tracks (op.note last) := by
  cases op with
  | add offset block =>
    cases block with
    | none => exact h
    | some block =>
      refine ⟨fun s hs => ?_, fun o b hget => ?_⟩
      · rcases List.mem_or_eq_of_mem_set hs with hold | rfl
        · exact h.inStep s hold
        · exact (h.inStep _ (List.get_mem _ _)).add offset block
      · change (c.add offset block).get o = some b at hget
        change Function.update last offset (some block) o = some b
        -- the call is the last one for its offset; any other offset keeps its block, unless evicted
        by_cases heq : o = offset
        · subst heq
          rwa [get_add_self, ← Function.update_self o (some block) last] at hget
        · rw [Function.update_of_ne heq]
          exact h.get_eq o b (get_add_of_ne heq hget)
  | get offset => exact h
  | clear =>
    refine ⟨fun s hs => ?_, fun offset b hget => ?_⟩
    · obtain ⟨s', hs', rfl⟩ := List.mem_map.mp hs
      exact (h.inStep s' hs').clear
    · change c.clear.get offset = some b at hget
      rw [get_clear] at hget
      cases hget

/-- **The cache over any run.** -/
theorem Tracks.run {c : BlockCache β} {last : UInt64 → Option β} (h : c.Tracks last)
    (ops : List (CacheOp β)) : (c.run ops).Tracks (ops.foldl CacheOp.note last) := by
  induction ops generalizing c last with
  | nil => exact h
  | cons op ops ih => exact ih (h.step op)

end BlockCache

end Seol.Sstable
