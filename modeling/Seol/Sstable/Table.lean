import Seol.Sstable.Cache
import Seol.Sstable.Format
import Seol.Sstable.Iterator

/-!
# Reading a table

Reference: `Open`, `Table.Get`, `Table.Scan`, `getCachedBlock` and `loadMetadata` in
`sstable/sstable.go`. All reads go through the block cache and through buffers of a pool that keep what
earlier reads left in them. A scan is stated over what the block loads of the table return.
-/

namespace Seol.Sstable

open Common Checked

/-- What the buffers of `dataBlockPool` hold when they are leased: byte `i` of the `n`-th lease. -/
abbrev BlockPool : Type := ℕ → ℕ → UInt8

/-- `Table`, with the content of its file. `leases` counts the buffers leased so far. -/
structure Table where
  ranges : List DataRange
  filter : Bloom.Filter
  file : Bytes
  blockCache : BlockCache CachedBlock
  smallest : Bytes
  largest : Bytes
  sizeBytes : ℕ
  leases : ℕ

/-- `getDataBlock` for the `n`-th lease: a pooled buffer, or a fresh one for a larger block. -/
def getDataBlock (pool : BlockPool) (n length : ℕ) : Bytes :=
  if blockSize < length then List.replicate length 0 else (List.range length).map (pool n)

/-- `append([]byte(nil), b...)`: the copy of an empty slice is nil, here `none`. -/
def cloneBytes (b : Bytes) : Option Bytes := if b = [] then none else some b

namespace Table

/-- `getCachedBlock`. `ReadAt` refuses an offset of `2 ^ 63` or more, which is negative as an `int64`,
and the system a read that reaches `2 ^ 63`; a read that meets the end of the file is not refused. -/
def getCachedBlock (pool : BlockPool) (t : Table) (ra : DataRange) :
    Checked SstError CachedBlock × Table :=
  match t.blockCache.get ra.offset with
  | some block => (.ok block, t)
  | none =>
    let raw := getDataBlock pool t.leases ra.length.toNat
    let t := { t with leases := t.leases + 1 }
    if ReadRefused ra.offset.toNat ra.length.toNat then (fail .read, t)
    else
      match newCachedDataBlock (readInto t.file raw ra.offset.toNat) with
      | .error e => (.error e, t)
      | .ok block => (.ok block, { t with blockCache := t.blockCache.add ra.offset block })

/-- `loadMetadata`. -/
def loadMetadata (pool : BlockPool) (t : Table) : Checked SstError Table :=
  let t := { t with sizeBytes := t.file.length }
  if t.ranges.isEmpty then .ok { t with smallest := [], largest := [] }
  else do
    let first ← elemAt t.ranges 0
    let lastRange ← elemAt t.ranges (t.ranges.length - 1)
    let (loaded, t) := t.getCachedBlock pool lastRange
    let block ← loaded
    if block.entryOffsets.length = 0 then .ok { t with smallest := first.firstKey, largest := [] }
    else do
      let (lastKey, _) ← block.entryAt (block.entryOffsets.length - 1)
      return { t with smallest := first.firstKey, largest := lastKey }

/-- `Get` behind the filter: the block is found, loaded and searched. -/
def getInRange (pool : BlockPool) (t : Table) (key : Bytes) (ra : DataRange) :
    Checked SstError (Option Bytes) × Table :=
  let (loaded, t) := t.getCachedBlock pool ra
  (do return (← (← loaded).lookup key).bind cloneBytes, t)

/-- `Get`; `none` is nil. The seeded hash xxh3 is a parameter. -/
def get (hash : Bytes → UInt64 → UInt64) (pool : BlockPool) (t : Table) (key : Bytes) :
    Checked SstError (Option Bytes) × Table :=
  match t.filter.containsHash (hash key t.filter.seed) with
  | .error e => (.error e, t)
  | .ok false => (.ok none, t)
  | .ok true =>
    match findDataRange t.ranges key with
    | .error e => (.error e, t)
    | .ok none => (.ok none, t)
    | .ok (some ra) => t.getInRange pool key ra

end Table

/-- The table that `Open` fills in. -/
def newTable (ranges : List DataRange) (filter : Bloom.Filter) (file : Bytes) : Table where
  ranges := ranges
  filter := filter
  file := file
  blockCache := tableCache
  smallest := []
  largest := []
  sizeBytes := 0
  leases := 0

/-- `Open` of a file with the given content. -/
def openTable (pool : BlockPool) (file : Bytes) : Checked SstError Table := do
  let (filter, bloomSize) ← loadBloomFilter file
  let indexData ← readIndexData file bloomSize
  let ranges ← decodeFullRange indexData
  (newTable ranges filter file).loadMetadata pool

/-! ## Scans -/

/-- The error of a scan: of the table or of the callback. -/
inductive ScanError (τ : Type) where
  | table (e : SstError)
  | callback (e : τ)

/-- The callback of a scan: it changes its own state and may return an error. -/
abbrev Callback (σ τ : Type) : Type := σ → Bytes → Bytes → Option τ × σ

section Scan

variable {σ τ : Type}

/-- The inner loop of `Scan` over the entries `idxs` of a block. -/
def scanBlock (fn : Callback σ τ) (block : CachedBlock) :
    List ℕ → σ → Checked (ScanError τ) Unit × σ
  | [], s => (.ok (), s)
  | i :: idxs, s =>
    match mapErr ScanError.table (block.entryAt i) with
    | .error e => (.error e, s)
    | .ok (key, value) =>
      match fn s key value with
      | (some e, s) => (fail (.callback e), s)
      | (none, s) => scanBlock fn block idxs s

/-- The outer loop of `Scan`. -/
def scanRanges (pool : BlockPool) (fn : Callback σ τ) :
    List DataRange → σ → Table → Checked (ScanError τ) Unit × σ × Table
  | [], s, t => (.ok (), s, t)
  | ra :: ranges, s, t =>
    let (loaded, t) := t.getCachedBlock pool ra
    match mapErr ScanError.table loaded with
    | .error e => (.error e, s, t)
    | .ok block =>
      match scanBlock fn block (List.range block.entryOffsets.length) s with
      | (.error e, s) => (.error e, s, t)
      | (.ok (), s) => scanRanges pool fn ranges s t

/-- `Scan`; a nil callback is `none`. -/
def Table.scan (pool : BlockPool) (t : Table) (fn : Option (Callback σ τ)) (s : σ) :
    Checked (ScanError τ) Unit × σ × Table :=
  match fn with
  | none => (.ok (), s, t)
  | some fn => scanRanges pool fn t.ranges s t

end Scan

/-! ## Block loads -/

/-- A block that the parser built. -/
def Parsed (b : CachedBlock) : Prop := ∃ es, (∀ e ∈ es, EntryFits e) ∧ b = blockOf es

/-- The entries of a block. -/
def CachedBlock.entries (b : CachedBlock) : List (Bytes × Bytes) :=
  (List.range b.entryOffsets.length).filterMap fun i => (b.entryAt i).toOption

theorem filterMap_getElem?_range {α : Type} (l : List α) :
    ((List.range l.length).filterMap fun i => l[i]?) = l := by
  induction l with
  | nil => rfl
  | cons a l ih =>
    rw [List.length_cons, List.range_succ_eq_map, List.filterMap_cons, List.filterMap_map]
    exact congrArg (a :: ·) ih

theorem entries_blockOf {es : List (Bytes × Bytes)} (hfit : ∀ e ∈ es, EntryFits e) :
    (blockOf es).entries = es := by
  have hlen : (blockOf es).entryOffsets.length = es.length := length_offsetsFrom 0 es
  have hentry : ∀ i ∈ List.range es.length, ((blockOf es).entryAt i).toOption = es[i]? := by
    intro i hi
    have hlt := List.mem_range.mp hi
    rw [entryAt_blockOf hfit hlt, List.getElem?_eq_getElem hlt]
    rfl
  rw [CachedBlock.entries, hlen, List.filterMap_congr hentry, filterMap_getElem?_range]

namespace Table

/-- What reading leaves alone. -/
structure Same (t t' : Table) : Prop where
  ranges : t'.ranges = t.ranges
  filter : t'.filter = t.filter
  file : t'.file = t.file
  smallest : t'.smallest = t.smallest
  largest : t'.largest = t.largest
  sizeBytes : t'.sizeBytes = t.sizeBytes

theorem Same.refl (t : Table) : Same t t := ⟨rfl, rfl, rfl, rfl, rfl, rfl⟩

theorem Same.trans {t u v : Table} (h : Same t u) (h' : Same u v) : Same t v :=
  ⟨h'.ranges.trans h.ranges, h'.filter.trans h.filter, h'.file.trans h.file,
    h'.smallest.trans h.smallest, h'.largest.trans h.largest, h'.sizeBytes.trans h.sizeBytes⟩

/-- Every cached block satisfies `P` at its offset. -/
def Cached (P : UInt64 → CachedBlock → Prop) (t : Table) : Prop :=
  ∀ o b, t.blockCache.get o = some b → P o b

/-- The bytes that a load of a range parses. -/
def rawBlock (pool : BlockPool) (t : Table) (ra : DataRange) : Bytes :=
  readInto t.file (getDataBlock pool t.leases ra.length.toNat) ra.offset.toNat

/-- A load returns an error or a block that was cached or is parsed now. -/
theorem getCachedBlock_spec {P : UInt64 → CachedBlock → Prop} (pool : BlockPool) {t : Table}
    (hcached : t.Cached P) (ra : DataRange)
    (hparse : ¬ReadRefused ra.offset.toNat ra.length.toNat →
      ∀ b, newCachedDataBlock (t.rawBlock pool ra) = .ok b → P ra.offset b) :
    t.Same (t.getCachedBlock pool ra).2 ∧ (t.getCachedBlock pool ra).2.Cached P ∧
      ((∃ e, (t.getCachedBlock pool ra).1 = fail e) ∨
        ∃ b, (t.getCachedBlock pool ra).1 = .ok b ∧ P ra.offset b) := by
  rw [getCachedBlock]
  cases hget : t.blockCache.get ra.offset with
  | some b => exact ⟨Same.refl t, hcached, Or.inr ⟨b, rfl, hcached _ _ hget⟩⟩
  | none =>
    simp only []
    by_cases hrefused : ReadRefused ra.offset.toNat ra.length.toNat
    · rw [if_pos hrefused]
      exact ⟨⟨rfl, rfl, rfl, rfl, rfl, rfl⟩, hcached, Or.inl ⟨_, rfl⟩⟩
    · rw [if_neg hrefused]
      rcases newCachedDataBlock_cases (t.rawBlock pool ra) with ⟨e, hfail⟩ | ⟨es, hfit, -, hok⟩
      · have hload : newCachedDataBlock (readInto t.file
            (getDataBlock pool t.leases ra.length.toNat) ra.offset.toNat) = fail e := hfail
        simp only [hload]
        exact ⟨⟨rfl, rfl, rfl, rfl, rfl, rfl⟩, hcached, Or.inl ⟨e, rfl⟩⟩
      · have hload : newCachedDataBlock (readInto t.file
            (getDataBlock pool t.leases ra.length.toNat) ra.offset.toNat) = .ok (blockOf es) := hok
        have hblock := hparse hrefused _ hok
        simp only [hload]
        exact ⟨⟨rfl, rfl, rfl, rfl, rfl, rfl⟩, BlockCache.forall_get_add hcached hblock,
          Or.inr ⟨_, rfl, hblock⟩⟩

/-- What `Open` leaves and every read keeps. -/
structure Sound (t : Table) : Prop where
  filter : t.filter.Sound
  cached : t.Cached fun _ b => Parsed b

theorem parsed_of_ok {raw : Bytes} {b : CachedBlock} (h : newCachedDataBlock raw = .ok b) :
    Parsed b := by
  rcases newCachedDataBlock_cases raw with ⟨e, hfail⟩ | ⟨es, hfit, -, hok⟩
  · rw [h] at hfail
    cases hfail
  · rw [h] at hok
    exact ⟨es, hfit, Except.ok.inj hok⟩

/-- A load of a sound table returns an error or a parsed block. -/
theorem Sound.getCachedBlock {t : Table} (h : t.Sound) (pool : BlockPool) (ra : DataRange) :
    t.Same (t.getCachedBlock pool ra).2 ∧ (t.getCachedBlock pool ra).2.Sound ∧
      ((∃ e, (t.getCachedBlock pool ra).1 = fail e) ∨
        ∃ es, (∀ e ∈ es, EntryFits e) ∧ (t.getCachedBlock pool ra).1 = .ok (blockOf es)) := by
  obtain ⟨hsame, hcached, hload⟩ := getCachedBlock_spec pool h.cached ra fun _ _ => parsed_of_ok
  refine ⟨hsame, ⟨hsame.filter ▸ h.filter, hcached⟩, ?_⟩
  rcases hload with hfail | ⟨b, hok, es, hfit, rfl⟩
  · exact Or.inl hfail
  · exact Or.inr ⟨es, hfit, hok⟩

/-- The outcome of a load as the entries it gives; loads of a sound table stay in range. -/
def loaded (pool : BlockPool) (t : Table) (ra : DataRange) : Except SstError (List (Bytes × Bytes)) :=
  match (t.getCachedBlock pool ra).1 with
  | .ok b => .ok b.entries
  | .error (.error e) => .error e
  | .error .outOfRange => .error .read

/-- What loading ranges one after the other gives. -/
def loads (pool : BlockPool) : Table → List DataRange → List (Except SstError (List (Bytes × Bytes)))
  | _, [] => []
  | t, ra :: ranges => t.loaded pool ra :: loads pool (t.getCachedBlock pool ra).2 ranges

@[simp] theorem length_loads (pool : BlockPool) (t : Table) (ranges : List DataRange) :
    (loads pool t ranges).length = ranges.length := by
  induction ranges generalizing t with
  | nil => rfl
  | cons ra ranges ih => rw [loads, List.length_cons, ih, List.length_cons]

/-- A load of a sound table, with what it counts as. -/
theorem Sound.loaded {t : Table} (h : t.Sound) (pool : BlockPool) (ra : DataRange) :
    (∃ e, (t.getCachedBlock pool ra).1 = fail e ∧ t.loaded pool ra = .error e) ∨
      ∃ es, (∀ e ∈ es, EntryFits e) ∧ (t.getCachedBlock pool ra).1 = .ok (blockOf es) ∧
        t.loaded pool ra = .ok es := by
  obtain ⟨-, -, ⟨e, hfail⟩ | ⟨es, hfit, hok⟩⟩ := h.getCachedBlock pool ra
  · exact Or.inl ⟨e, hfail, by rw [Table.loaded, hfail]; rfl⟩
  · exact Or.inr ⟨es, hfit, hok, by rw [Table.loaded, hok]; exact congrArg _ (entries_blockOf hfit)⟩

end Table

/-! ## What a scan visits -/

section Scan

variable {σ τ : Type} (fn : Callback σ τ)

/-- The callback over entries, up to its first error. -/
def visit : List (Bytes × Bytes) → σ → Option τ × σ
  | [], s => (none, s)
  | e :: es, s =>
    match fn s e.1 e.2 with
    | (some err, s) => (some err, s)
    | (none, s) => visit es s

/-- The outcome of a scan of entries that end in a read error or in the end of the table. -/
def visitStream (stream : List (Bytes × Bytes) × Option SstError) (s : σ) :
    Checked (ScanError τ) Unit × σ :=
  match visit fn stream.1 s, stream.2 with
  | (some e, s), _ => (fail (.callback e), s)
  | (none, s), some e => (fail (.table e), s)
  | (none, s), none => (.ok (), s)

theorem visit_append (as bs : List (Bytes × Bytes)) (s : σ) :
    visit fn (as ++ bs) s =
      match visit fn as s with
      | (some e, s) => (some e, s)
      | (none, s) => visit fn bs s := by
  induction as generalizing s with
  | nil => rfl
  | cons a as ih =>
    rw [List.cons_append, visit, visit]
    cases hfn : fn s a.1 a.2 with
    | mk err s' =>
      cases err with
      | some e => rfl
      | none => exact ih s'

theorem scanBlock_blockOf {es : List (Bytes × Bytes)} (hfit : ∀ e ∈ es, EntryFits e) (i : ℕ) (s : σ) :
    scanBlock fn (blockOf es) (List.range' i (es.length - i)) s =
      visitStream fn (es.drop i, none) s := by
  induction hn : es.length - i generalizing i s with
  | zero =>
    rw [List.drop_of_length_le (by omega)]
    rfl
  | succ n ih =>
    have hlt : i < es.length := by omega
    rw [List.range'_succ, scanBlock, entryAt_blockOf hfit hlt, List.drop_eq_getElem_cons hlt]
    change (match fn s es[i].1 es[i].2 with
      | (some e, s) => (fail (ScanError.callback e), s)
      | (none, s) => scanBlock fn (blockOf es) (List.range' (i + 1) n) s) = _
    cases hfn : fn s es[i].1 es[i].2 with
    | mk err s' =>
      cases err with
      | some e => simp only [visitStream, visit, hfn]
      | none =>
        simp only [ih (i + 1) s' (by omega)]
        simp only [visitStream, visit, hfn]

/-- **A scan** calls back with the entries that the loads give, up to the first error. -/
theorem scanRanges_spec (pool : BlockPool) {t : Table} (h : t.Sound) (ranges : List DataRange) (s : σ) :
    ∃ t', t.Same t' ∧ t'.Sound ∧ scanRanges pool fn ranges s t =
      ((visitStream fn (blockStream (t.loads pool ranges)) s).1,
        (visitStream fn (blockStream (t.loads pool ranges)) s).2, t') := by
  induction ranges generalizing s t with
  | nil => exact ⟨t, Table.Same.refl t, h, rfl⟩
  | cons ra ranges ih =>
    obtain ⟨hsame, hsound, -⟩ := h.getCachedBlock pool ra
    rw [scanRanges, Table.loads]
    rcases h.loaded pool ra with ⟨e, hfail, hloaded⟩ | ⟨es, hfit, hok, hloaded⟩
    · refine ⟨_, hsame, hsound, ?_⟩
      rw [hloaded]
      simp only [hfail, blockStream]
      rfl
    · have hblock : scanBlock fn (blockOf es) (List.range (blockOf es).entryOffsets.length) s =
          visitStream fn (es, none) s := by
        have hscan := scanBlock_blockOf fn hfit 0 s
        rwa [Nat.sub_zero, List.drop_zero, ← List.range_eq_range', ← length_offsetsFrom 0 es] at hscan
      rw [hloaded]
      simp only [hok, mapErr, Except.mapError, hblock, blockStream]
      cases hvisit : visit fn es s with
      | mk err s' =>
        cases err with
        | some e =>
          refine ⟨_, hsame, hsound, ?_⟩
          simp only [visitStream, hvisit, visit_append]
          rfl
        | none =>
          obtain ⟨t', hsame', hsound', hrest⟩ := ih hsound s'
          refine ⟨t', hsame.trans hsame', hsound', ?_⟩
          simp only [visitStream, hvisit, visit_append] at hrest ⊢
          exact hrest

end Scan

end Seol.Sstable
