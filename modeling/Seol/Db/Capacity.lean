import Seol.Compaction.Merge
import Seol.Db.Refinement
import Seol.Sstable.RoundTrip

/-!
# What the layers below can hold

The write path counts the bytes of keys and values. The arena of a memtable also pays for nodes, their
padding and the values that were overwritten; a replay puts the records of all WAL files into one
memtable; and nothing compares a key with the 16 bits of its size field or an entry with a block. The
results say which sequences of writes the arenas have room for and which entries can be stored and
flushed; the runs show acknowledged writes outside of that.

Reference: `memtableArenaSize`, `replayWALs`, `openDB` and `processWriteBatch` in `db.go`,
`compactTables` in `compaction.go`, `storeValueForLSM` in `value_ref.go`, `skiplist/skiplist.go` and
`writeDataBlocks` in `sstable/sstable.go`.
-/

namespace Seol

open Common Vlog

/-! ## The arena of a memtable -/

/-- `skiplist.New(memtableArenaSize(maxBytes))`, for memtables and for the builders of a compaction. -/
def newMemtable (maxBytes : Int64) : Skiplist := Skiplist.new (size (memtableArenaSize maxBytes))

theorem le_size_memtableArenaSize (maxBytes : Int64) :
    2 ^ 20 ≤ size (memtableArenaSize maxBytes) := by
  have hmin : minMemtableArenaSize.toInt = 2 ^ 20 := by decide
  unfold memtableArenaSize size
  dsimp only
  split_ifs with h
  · rw [hmin]
    rfl
  · rw [Int64.lt_iff_toInt_lt, hmin] at h
    omega

/-- The calls of `Put` that fill a memtable, with any tower heights that `randomHeight` can return. -/
structure Draws (m : Memtable) (ps : List Insertion) : Prop where
  entries : ps.map Insertion.entry = m
  heights : ∀ p ∈ ps, 1 ≤ p.height ∧ p.height ≤ maxHeight

/-- Whatever the heights, every allocation ends inside the arena. -/
def HasRoom (maxBytes : Int64) (m : Memtable) : Prop :=
  ∀ ps, Draws m ps → (newMemtable maxBytes).AllRoom ps

/-- The bytes that keys with stored values of given lengths take from an arena when every tower is of
full height: a new key pays for a node, an overwritten one for its value alone. -/
def arenaBytes (seen : List Bytes) : List (Bytes × ℕ) → ℕ
  | [] => 0
  | e :: es =>
    (if e.1 ∈ seen then 0 else Arena.nodeSize maxHeight + e.1.length) + e.2 +
      arenaBytes (e.1 :: seen) es

/-- The keys of a memtable and the lengths of its stored values. -/
def Memtable.sizes (m : Memtable) : List (Bytes × ℕ) := m.map fun e => (e.1, e.2.length)

/-- An arena has room for `n` bytes behind the head of the list. -/
def ArenaHolds (maxBytes : Int64) (n : ℕ) : Prop :=
  104 + n ≤ size (memtableArenaSize maxBytes) ∧ 104 + n < 2 ^ 32

theorem ArenaHolds.mono {maxBytes : Int64} {n n' : ℕ} (h : ArenaHolds maxBytes n) (hle : n' ≤ n) :
    ArenaHolds maxBytes n' :=
  ⟨(Nat.add_le_add_left hle _).trans h.1, (Nat.add_le_add_left hle _).trans_lt h.2⟩

/-- Longer values take more. -/
theorem arenaBytes_mono {es es' : List (Bytes × ℕ)}
    (h : List.Forall₂ (fun e e' => e.1 = e'.1 ∧ e.2 ≤ e'.2) es es') (seen : List Bytes) :
    arenaBytes seen es ≤ arenaBytes seen es' := by
  induction h generalizing seen with
  | nil => exact le_rfl
  | cons he _ ih =>
    rw [arenaBytes, arenaBytes, he.1]
    exact Nat.add_le_add (Nat.add_le_add_left he.2 _) (ih _)

theorem nodeSize_le {height : ℕ} (h : height ≤ maxHeight) :
    Arena.nodeSize height ≤ Arena.nodeSize maxHeight := by
  have hle : height ≤ 20 := h
  simp only [Arena.nodeSize, maxNodeSize, maxHeight, offsetSize, nodeAlign]
  omega

/-- No draw of heights takes more than the tallest one. -/
theorem fillSize_le_arenaBytes {ps : List Insertion} (h : ∀ p ∈ ps, p.height ≤ maxHeight)
    (seen : List Bytes) :
    fillSize seen ps ≤ arenaBytes seen (Memtable.sizes (ps.map Insertion.entry)) := by
  induction ps generalizing seen with
  | nil => exact le_rfl
  | cons p ps ih =>
    obtain ⟨hp, hps⟩ := List.forall_mem_cons.mp h
    -- a key that was seen costs its value alone, another one at most the tallest node as well
    have hnode := nodeSize_le hp
    have hrest := ih hps (p.key :: seen)
    change _ ≤ (if p.key ∈ seen then 0 else Arena.nodeSize maxHeight + p.key.length) +
      p.value.length + arenaBytes (p.key :: seen) (Memtable.sizes (ps.map Insertion.entry))
    rw [fillSize]
    split_ifs <;> omega

/-- The calls for a memtable with every tower of full height. -/
def tallest (m : Memtable) : List Insertion := m.map fun e => ⟨e.1, e.2, maxHeight⟩

theorem draws_tallest (m : Memtable) : Draws m (tallest m) := by
  refine ⟨?_, fun p hp => ?_⟩
  · rw [tallest, List.map_map]
    exact List.map_id m
  · obtain ⟨e, -, rfl⟩ := List.mem_map.mp hp
    exact ⟨Nat.le_of_ble_eq_true rfl, le_rfl⟩

theorem fillSize_tallest (m : Memtable) (seen : List Bytes) :
    fillSize seen (tallest m) = arenaBytes seen m.sizes := by
  induction m generalizing seen with
  | nil => rfl
  | cons e m ih => exact congrArg (_ + _ + ·) (ih (e.1 :: seen))

section Room

variable {maxBytes : Int64} {m : Memtable} {ps : List Insertion}
  (hkeys : ∀ e ∈ m, e.1.length < 2 ^ 16)

include hkeys

theorem Draws.legal (h : Draws m ps) : ∀ p ∈ ps, p.Legal := by
  intro p hp
  have hmem : p.entry ∈ m := h.entries ▸ List.mem_map_of_mem hp
  exact ⟨hkeys _ hmem, (h.heights p hp).1, (h.heights p hp).2⟩

/-- The calls have room when the bytes they take fit. -/
theorem Draws.allRoom_iff (h : Draws m ps) :
    (newMemtable maxBytes).AllRoom ps ↔ ArenaHolds maxBytes (fillSize [] ps) := by
  have harena := le_size_memtableArenaSize maxBytes
  refine (Skiplist.sim_new _).allRoom_iff Skiplist.seen_empty ?_ ?_ (h.legal hkeys)
  · rw [Skiplist.new_n, Skiplist.new_size]
    omega
  · rw [Skiplist.new_n]
    decide

/-- **Room in the arena of a memtable**, whatever the heights, is room for the tallest towers. -/
theorem hasRoom_iff : HasRoom maxBytes m ↔ ArenaHolds maxBytes (arenaBytes [] m.sizes) := by
  constructor
  · intro h
    have htall := draws_tallest m
    rw [← fillSize_tallest]
    exact (htall.allRoom_iff hkeys).mp (h _ htall)
  · intro h ps hps
    have hle := fillSize_le_arenaBytes (fun p hp => (hps.heights p hp).2) []
    rw [hps.entries] at hle
    exact (hps.allRoom_iff hkeys).mpr (h.mono hle)

end Room

theorem sum_values_le_fillSize (ps : List Insertion) (seen : List Bytes) :
    ((ps.map Insertion.entry).map fun e => e.2.length).sum ≤ fillSize seen ps := by
  induction ps generalizing seen with
  | nil => exact le_rfl
  | cons p ps ih =>
    have hrest := ih (p.key :: seen)
    rw [fillSize, List.map_cons, List.map_cons, List.sum_cons]
    change p.value.length + _ ≤ _
    omega

/-- The values alone overflow the arena. -/
theorem Draws.not_allRoom {maxBytes : Int64} {m : Memtable} {ps : List Insertion} (h : Draws m ps)
    (hkeys : ∀ e ∈ m, e.1.length < 2 ^ 16)
    (hlarge : size (memtableArenaSize maxBytes) < (m.map fun e => e.2.length).sum) :
    ¬ (newMemtable maxBytes).AllRoom ps := by
  intro hroom
  obtain ⟨hin, -⟩ := (h.allRoom_iff hkeys).mp hroom
  have hle := sum_values_le_fillSize ps []
  rw [h.entries] at hle
  omega

/-- Distinct keys pay for a node each. -/
theorem arenaBytes_of_nodup {es : List (Bytes × ℕ)} {seen : List Bytes}
    (hnodup : (es.map Prod.fst).Nodup) (hnew : ∀ e ∈ es, e.1 ∉ seen) :
    arenaBytes seen es = (es.map fun e => Arena.nodeSize maxHeight + e.1.length + e.2).sum := by
  induction es generalizing seen with
  | nil => rfl
  | cons e es ih =>
    rw [List.map_cons, List.nodup_cons] at hnodup
    obtain ⟨he, hes⟩ := List.forall_mem_cons.mp hnew
    -- no key comes twice, so none of the rest is among the seen ones
    have hnew' : ∀ e' ∈ es, e'.1 ∉ e.1 :: seen := by
      intro e' he' hmem
      rcases List.mem_cons.mp hmem with heq | hmem
      · exact hnodup.1 (heq ▸ List.mem_map_of_mem he')
      · exact hes e' he' hmem
    rw [arenaBytes, if_neg he, ih hnodup.2 hnew', List.map_cons, List.sum_cons]

/-- **Size accounting.** Counting keys and values against half of the arena is not enough: a memtable
has room for exactly the writes that fit with their nodes and with every overwritten value, and the
builder of a compaction for the entries that fit with their nodes. -/
theorem size_accounting_iff (opts : Options) (inputs : List Table) (plan : CompactionPlan) :
    (∀ m : Memtable, (∀ e ∈ m, e.1.length < 2 ^ 16) →
      (HasRoom (normalizeOptions opts).memtableMaxBytes m ↔
        ArenaHolds (normalizeOptions opts).memtableMaxBytes (arenaBytes [] m.sizes))) ∧
    ∀ o ∈ compactTables inputs plan, (∀ e ∈ o.entries, e.1.length < 2 ^ 16) →
      (HasRoom (targetBytes plan) o.entries ↔ ArenaHolds (targetBytes plan)
        (o.entries.map fun e => Arena.nodeSize maxHeight + e.1.length + e.2.length).sum) := by
  refine ⟨fun m hkeys => hasRoom_iff hkeys, fun o _ hkeys => ?_⟩
  -- a builder is a map: no entry of an output overwrites another
  have hnodup : ((Memtable.sizes o.entries).map Prod.fst).Nodup := by
    rw [Memtable.sizes, List.map_map]
    exact List.pairwise_map.mpr (o.sorted.imp fun h => h.ne)
  rw [hasRoom_iff hkeys, arenaBytes_of_nodup hnodup (by simp), Memtable.sizes, List.map_map]
  rfl

/-- One small entry in a memtable and in the builder of a compaction, with the default limits. -/
theorem size_accounting_one :
    HasRoom (normalizeOptions ⟨0, 0, 0⟩).memtableMaxBytes [([107], [1])] ∧
      ∀ o ∈ compactTables [⟨[49], OrdMap.empty.insert [107] [1]⟩] ⟨0, 1, [], [], 0, false⟩,
        HasRoom (targetBytes ⟨0, 1, [], [], 0, false⟩) o.entries := by
  have h := size_accounting_iff ⟨0, 0, 0⟩ [⟨[49], OrdMap.empty.insert [107] [1]⟩]
    ⟨0, 1, [], [], 0, false⟩
  refine ⟨(h.1 _ (by decide)).mpr ⟨by decide, by decide⟩, fun o ho => ?_⟩
  have hout : o = OrdMap.empty.insert [107] [1] := List.mem_singleton.mp ho
  refine (h.2 o ho ?_).mpr ?_
  · rw [hout]
    decide
  · rw [hout]
    exact ⟨by decide, by decide⟩

/-! ## Large values in a memtable of the default size -/

/-- The default memtable, and values of up to 16 MiB stored in the tree. -/
def wideOptions : Options := ⟨0, 0, 2 ^ 24⟩

/-- The store right after it was opened in an empty directory, in `tinyDir`. -/
def wideDB : DB := openedDB (normalizeOptions wideOptions) [] (walID (10 ^ 18)) [] []
  ⟨Log.openEmpty defaultSegmentMaxBytes 1, [], 0, []⟩

/-- The directory after a first write that filled its memtable. -/
def wideDir₁ (k v : Bytes) : Dir :=
  { tinyDir with
    wals := (tinyDir.wals.insert (walID (10 ^ 18)) (appendBatch [] [(k, v)])).insert
      (walID (10 ^ 18 + 1)) [] }

/-- The process after a first write that filled its memtable. -/
def wideProc₁ (k v : Bytes) : Proc :=
  { Proc.start wideDB with
    db := DB.rotateMemtable (wideDB.applyWrite 0 (.put k v) v) 0 (walID (10 ^ 18 + 1))
    flushCh := [⟨0, [walID (10 ^ 18)]⟩] }

/-- A value of a memtable's size that is stored in the tree. -/
structure Wide (v : Bytes) : Prop where
  fills : 4 * 2 ^ 20 ≤ v.length
  inline : v.length ≤ 2 ^ 24

theorem Wide.store {v : Bytes} (h : Wide v) (log : Log) (k : Bytes) (now : UInt64) :
    storeValueForLSM log wideDB.valueThreshold k v now none = (.ok v, log) := by
  have hthreshold : wideDB.valueThreshold = 2 ^ 24 := by decide
  have htomb : ¬ isTombstoneValue v = true := by
    simp only [isTombstoneValue, decide_eq_true_eq]
    rintro rfl
    exact absurd h.fills (by decide)
  rw [storeValueForLSM, if_neg htomb, hthreshold, if_pos h.inline]

theorem Wide.crosses {v : Bytes} (h : Wide v) (k : Bytes) (n : ℕ) :
    wideDB.memtableMaxBytes ≤ n + memtableEntrySize k v := by
  have hmax : wideDB.memtableMaxBytes = 4 * 2 ^ 20 := by decide
  have hfills := h.fills
  rw [hmax, memtableEntrySize]
  omega

/-- A first write of a wide value is acknowledged. -/
theorem Wide.first {v : Bytes} (h : Wide v) (k : Bytes) :
    Run (CondStep wideOptions fun _ _ => True) (.down Dir.empty)
      (.reopened wideDB.view :: crossingTrace (.put k v)) (.up (wideDir₁ k v) (wideProc₁ k v)) := by
  have hopen : openDB Dir.empty wideOptions firstClock = .ok (wideDB, tinyDir) :=
    openDB_eq_ok.mpr ⟨[], Log.openEmpty defaultSegmentMaxBytes 1,
      ⟨Log.openEmpty defaultSegmentMaxBytes 1, [], 0, []⟩, rfl, rfl, rfl, rfl, rfl, rfl⟩
  have hidle : Idle (Proc.start wideDB) 0 (walID (10 ^ 18)) := ⟨rfl, rfl, rfl, rfl, rfl, rfl⟩
  refine .head ⟨.reopen firstClock, trivial, .reopen firstClock hopen⟩ ?_
  exact Idle.writeCrossing (x := .put k v) wideOptions (fun _ _ => True) tinyDir 2 (10 ^ 18 + 1) hidle
    rfl (fun _ _ => trivial) trivial (fun _ _ _ => trivial) (h.store _ k 2) (h.crosses k 0)
    (fun _ => trivial) (fun heq => absurd (walID_injective heq) (by omega)) (by decide) (by decide)

/-- The arena of a default memtable. -/
theorem size_arena_wide :
    size (memtableArenaSize (normalizeOptions wideOptions).memtableMaxBytes) = 8 * 2 ^ 20 := by
  decide

/-- **An acknowledged write that its arena cannot hold.** The limit of 4 MiB is compared after the
write, and the arena has 8 MiB: a value of 9 MiB does not fit, whatever the height of its tower. -/
theorem acknowledged_beyond_arena : ∃ (v : Bytes) (es : List Event) (dir : Dir) (p : Proc),
    v.length = 9 * 2 ^ 20 ∧
    Run (CondStep wideOptions fun _ _ => True) (.down Dir.empty) es (.up dir p) ∧
    acked es = [.put [107] v] ∧ p.db.heap 0 = [([107], v)] ∧
    ∀ ps, Draws (p.db.heap 0) ps →
      ¬ (newMemtable (normalizeOptions wideOptions).memtableMaxBytes).AllRoom ps := by
  obtain ⟨v, hv⟩ : ∃ v : Bytes, v.length = 9 * 2 ^ 20 := ⟨List.replicate _ 0, List.length_replicate⟩
  have hwide : Wide v := ⟨by omega, by omega⟩
  refine ⟨v, _, _, _, hv, hwide.first [107], rfl, rfl, fun ps hps => ?_⟩
  refine Draws.not_allRoom (m := [([107], v)]) hps ?_ ?_
  · intro e he
    rw [List.mem_singleton.mp he]
    exact (by decide : 1 < 2 ^ 16)
  -- the node is left out: the value alone is longer than the arena
  · rw [size_arena_wide]
    simp only [List.map_cons, List.map_nil, List.sum_cons, List.sum_nil]
    omega

/-! ## Replay into one memtable -/

/-- The length of what the tree stores for a value, when references are `ref` bytes long. -/
def storedLength (valueThreshold ref : ℕ) (value : Bytes) : ℕ :=
  if isTombstoneValue value then tombstoneValue.length
  else if value.length ≤ valueThreshold then value.length
  else ref

/-- `storeValueForLSM` stores a tombstone, the value itself, or a reference of 28 or 32 bytes. -/
theorem length_stored {log log' : Log} {valueThreshold : ℕ} {key value stored : Bytes} {now : UInt64}
    {fault : Option ℕ}
    (h : storeValueForLSM log valueThreshold key value now fault = (.ok stored, log')) :
    stored.length = storedLength valueThreshold 28 value ∨
      stored.length = storedLength valueThreshold 32 value := by
  unfold storedLength
  simp only [isTombstoneValue, decide_eq_true_eq]
  rcases storeValueForLSM_cases h with ⟨htomb, rfl, -⟩ | ⟨htomb, hle, rfl, -⟩ |
    ⟨htomb, hlt, ref, -, rfl⟩
  · exact Or.inl (if_pos htomb).symm
  · exact Or.inl (by rw [if_neg htomb, if_pos hle])
  -- a reference has 28 or 32 bytes, whatever the value
  · rw [if_neg htomb, if_neg (not_le.mpr hlt), if_neg htomb, if_neg (not_le.mpr hlt)]
    exact length_encodeValueRef ref

theorem storedLength_mono (valueThreshold : ℕ) (value : Bytes) :
    storedLength valueThreshold 28 value ≤ storedLength valueThreshold 32 value := by
  unfold storedLength
  split_ifs <;> omega

/-- The keys of WAL records with the lengths of what a replay stores for them. -/
def replaySizes (valueThreshold ref : ℕ) (rs : List (Bytes × Bytes)) : List (Bytes × ℕ) :=
  rs.map fun r => (r.1, storedLength valueThreshold ref r.2)

/-- The memtable that a replay of the records leaves. -/
def Replayed (valueThreshold : ℕ) (rs : List (Bytes × Bytes)) (m : Memtable) : Prop :=
  List.Forall₂ (fun r e => e.1 = r.1 ∧ storedLength valueThreshold 28 r.2 ≤ e.2.length ∧
    e.2.length ≤ storedLength valueThreshold 32 r.2) rs m

theorem replayRecord_replayed {valueThreshold : ℕ} {s s' : Replay} {r : Bytes × Bytes}
    {rs : List (Bytes × Bytes)} (h : Replayed valueThreshold rs s.memtable)
    (hstep : replayRecord valueThreshold s r = .ok s') :
    Replayed valueThreshold (rs ++ [r]) s'.memtable := by
  unfold replayRecord at hstep
  -- the replay stores a record as the write path would
  cases hstore : storeValueForLSM s.log valueThreshold r.1 r.2 (s.clock.headD 0) none with
  | mk result log =>
    rw [hstore] at hstep
    cases result with
    | error e => cases hstep
    | ok stored =>
      cases hstep
      -- 28 and 32 bytes for a reference bound the length from below and above
      have hmono := storedLength_mono valueThreshold r.2
      have hlen := length_stored hstore
      refine List.rel_append h (.cons ⟨rfl, ?_, ?_⟩ .nil)
      · change _ ≤ stored.length
        omega
      · change stored.length ≤ _
        omega

theorem Replayed.keys {valueThreshold : ℕ} {rs : List (Bytes × Bytes)} {m : Memtable}
    (h : Replayed valueThreshold rs m) : m.map Prod.fst = rs.map Prod.fst := by
  induction h with
  | nil => rfl
  | cons he _ ih => rw [List.map_cons, List.map_cons, he.1, ih]

theorem Replayed.arenaBytes_le {valueThreshold : ℕ} {rs : List (Bytes × Bytes)} {m : Memtable}
    (h : Replayed valueThreshold rs m) :
    arenaBytes [] (replaySizes valueThreshold 28 rs) ≤ arenaBytes [] m.sizes ∧
      arenaBytes [] m.sizes ≤ arenaBytes [] (replaySizes valueThreshold 32 rs) := by
  refine ⟨arenaBytes_mono ?_ [], arenaBytes_mono ?_ []⟩
  · rw [replaySizes, Memtable.sizes, List.forall₂_map_left_iff, List.forall₂_map_right_iff]
    exact h.imp fun _ _ he => ⟨he.1.symm, he.2.1⟩
  · rw [replaySizes, Memtable.sizes, List.forall₂_map_left_iff, List.forall₂_map_right_iff]
    exact h.flip.imp fun _ _ he => ⟨he.1, he.2.2⟩

/-- The records of all WAL files of a directory, as `openDB` reads them. -/
def Dir.walContents (dir : Dir) : List (Bytes × Bytes) :=
  (dir.wals.entries.map Prod.snd).flatMap walRecords

/-- **Room for a replay.** A directory that opens is replayed into one memtable. Its arena has room
when the records of all WAL files fit with their nodes, each reference counted with 32 bytes, and only
when they fit with each reference counted with 28. -/
theorem replay_room {dir d : Dir} {opts : Options} {clock : OpenClock} {db : DB}
    (hopen : openDB dir opts clock = .ok (db, d))
    (hkeys : ∀ r ∈ dir.walContents, r.1.length < 2 ^ 16) :
    (ArenaHolds (normalizeOptions opts).memtableMaxBytes (arenaBytes []
        (replaySizes (size (normalizeOptions opts).valueThreshold) 32 dir.walContents)) →
      HasRoom (normalizeOptions opts).memtableMaxBytes (db.heap 0)) ∧
    (HasRoom (normalizeOptions opts).memtableMaxBytes (db.heap 0) →
      ArenaHolds (normalizeOptions opts).memtableMaxBytes (arenaBytes []
        (replaySizes (size (normalizeOptions opts).valueThreshold) 28 dir.walContents))) := by
  obtain ⟨levels, log, r, -, -, hreplay, -, rfl, -⟩ := openDB_eq_ok.mp hopen
  have hmem : Replayed (size (normalizeOptions opts).valueThreshold) dir.walContents r.memtable := by
    refine replayWALs_induction (P := fun rs s => Replayed _ rs s.memtable)
      (fun _ _ _ _ => replayRecord_replayed) ?_ hreplay
    exact .nil
  obtain ⟨hlow, hhigh⟩ := hmem.arenaBytes_le
  have hshort : ∀ e ∈ r.memtable, e.1.length < 2 ^ 16 := by
    intro e he
    have hkey : e.1 ∈ dir.walContents.map Prod.fst := by
      rw [← hmem.keys]
      exact List.mem_map_of_mem he
    obtain ⟨w, hw, heq⟩ := List.mem_map.mp hkey
    exact heq ▸ hkeys w hw
  have hroom : HasRoom (normalizeOptions opts).memtableMaxBytes r.memtable ↔ _ := hasRoom_iff hshort
  exact ⟨fun h => hroom.mpr (h.mono hhigh), fun h => (hroom.mp h).mono hlow⟩

/-- A directory with one WAL file. -/
def oneWal (file : Bytes) : Dir :=
  { Dir.empty with wals := OrdMap.empty.insert (walID (10 ^ 18)) file }

/-- A file of one record is replayed into an arena with room for it. -/
theorem replay_room_one : ∃ db d,
    openDB (oneWal (encodeRecords [([107], [1])])) ⟨0, 0, 0⟩ secondClock = .ok (db, d) ∧
      HasRoom (normalizeOptions ⟨0, 0, 0⟩).memtableMaxBytes (db.heap 0) := by
  -- the file is the encoding of the record and is read back to its end
  have hholds : WalHolds (encodeRecords [([107], [1])]) [([107], [1])] :=
    ⟨by simp [LengthsFit], [], (List.append_nil _).symm, rfl⟩
  have hentries : ∀ file, (oneWal file).wals.entries.map Prod.snd = [file] := fun _ => rfl
  have hcontents : (oneWal (encodeRecords [([107], [1])])).walContents = [([107], [1])] := by
    obtain ⟨tail, hscan, -⟩ := hholds.scan
    rw [Dir.walContents, hentries, List.flatMap_singleton, walRecords, hscan]
  have hreplay : replayWALs (size (normalizeOptions ⟨0, 0, 0⟩).valueThreshold)
      ((oneWal (encodeRecords [([107], [1])])).wals.entries.map Prod.snd)
      ⟨Log.openEmpty defaultSegmentMaxBytes 3, [], 0, [4]⟩ =
      .ok ⟨Log.openEmpty defaultSegmentMaxBytes 3, [([107], [1])], 2, []⟩ := by
    rw [hentries, replayWALs, List.foldlM_cons, hholds.replayWAL]
    rfl
  have hopen : ∃ db d, openDB (oneWal (encodeRecords [([107], [1])])) ⟨0, 0, 0⟩ secondClock =
      .ok (db, d) :=
    ⟨_, _, openDB_eq_ok.mpr ⟨[], Log.openEmpty defaultSegmentMaxBytes 3, _, rfl, rfl, hreplay, rfl,
      rfl, rfl⟩⟩
  obtain ⟨db, d, hopen⟩ := hopen
  refine ⟨db, d, hopen, (replay_room hopen ?_).1 ?_⟩
  · rw [hcontents]
    decide
  · rw [hcontents]
    exact ⟨by decide, by decide⟩

/-- The directory after two writes that each filled a memtable. -/
def wideDir₂ (v : Bytes) : Dir :=
  { wideDir₁ [107] v with
    wals := ((wideDir₁ [107] v).wals.insert (walID (10 ^ 18 + 1)) (appendBatch [] [([108], v)])).insert
      (walID (10 ^ 18 + 2)) [] }

/-- The process after two such writes, the flush loop still with the first memtable. -/
def wideProc₂ (v : Bytes) : Proc :=
  { wideProc₁ [107] v with
    db := DB.rotateMemtable ((wideProc₁ [107] v).db.applyWrite 1 (.put [108] v) v) 1
      (walID (10 ^ 18 + 2))
    flushCh := [⟨1, [walID (10 ^ 18 + 1)]⟩]
    flusher := .syncing ⟨0, [walID (10 ^ 18)]⟩ }

/-- The second memtable is filled while the flush loop holds the first one. -/
theorem Wide.second {v : Bytes} (h : Wide v) :
    Run (CondStep wideOptions fun _ _ => True) (.up (wideDir₁ [107] v) (wideProc₁ [107] v))
      (.internal :: crossingTrace (.put [108] v)) (.up (wideDir₂ v) (wideProc₂ v)) := by
  refine .head ⟨.other, trivial, .flusher (.receive _ [] rfl rfl)⟩ ?_
  exact Idle.writeCrossing (x := .put [108] v) wideOptions (fun _ _ => True) _ 2
    (10 ^ 18 + 2) (⟨rfl, rfl, rfl, rfl, rfl, rfl⟩ : Idle _ 1 (walID (10 ^ 18 + 1)))
    (rfl : OrdMap.get _ _ = some []) (fun _ _ => trivial) trivial (fun _ _ _ => trivial)
    (h.store _ [108] 2) (h.crosses [108] 0) (fun _ => trivial)
    (fun heq => absurd (walID_injective heq) (by omega)) rfl (Nat.zero_lt_one)

/-- The clock readings of an opening after two WAL files. -/
def thirdClock : OpenClock := ⟨3, [4, 5], 10 ^ 18 + 3, 0⟩

theorem Wide.replayWAL {v : Bytes} (h : Wide v) {k : Bytes} (hk : k.length < 2 ^ 32) (s : Replay) :
    replayWAL (replayRecord wideDB.valueThreshold) (appendBatch (encodeRecords []) [(k, v)]) s =
      .ok ⟨s.log, s.memtable ++ [(k, v)], s.bytes + memtableEntrySize k v, s.clock.tail⟩ := by
  have hfit : ∀ r ∈ [] ++ [(k, v)], LengthsFit r := by
    intro r hr
    have hlen := h.inline
    rw [List.mem_singleton.mp hr]
    exact ⟨hk, show v.length < 2 ^ 32 by omega⟩
  rw [(walHolds_appendBatch hfit).replayWAL, List.nil_append, List.foldlM_cons, replayRecord, h.store]
  rfl

/-- The directory opens, and both values are in the one memtable. -/
theorem Wide.opens {v : Bytes} (h : Wide v) :
    ∃ db d, openDB (wideDir₂ v) wideOptions thirdClock = .ok (db, d) ∧
      db.heap 0 = [([107], v), ([108], v)] := by
  -- the files of the two memtables, and the empty one of the memtable that is active
  have hentries : (wideDir₂ v).wals.entries.map Prod.snd =
      [appendBatch (encodeRecords []) [([107], v)], appendBatch (encodeRecords []) [([108], v)], []] :=
    rfl
  have hlog : ∃ log, Log.open (normalizeOptions wideOptions).valueLogSegmentMaxBytes.toInt
      (wideDir₂ v).segments thirdClock.segment = .ok log := ⟨_, rfl⟩
  obtain ⟨log, hlog⟩ := hlog
  -- both values go into the memtable the replay builds
  have hreplay : ∃ r, replayWALs wideDB.valueThreshold ((wideDir₂ v).wals.entries.map Prod.snd)
      ⟨log, [], 0, thirdClock.appends⟩ = .ok r ∧ r.memtable = [([107], v), ([108], v)] := by
    rw [hentries]
    exact ⟨_, bind_eq_ok.mpr ⟨_, h.replayWAL (by decide) _, bind_eq_ok.mpr ⟨_,
      h.replayWAL (by decide) _, bind_eq_ok.mpr ⟨_, walHolds_nil.replayWAL _ _, rfl⟩⟩⟩, rfl⟩
  obtain ⟨r, hreplay, hmem⟩ := hreplay
  exact ⟨_, _, openDB_eq_ok.mpr ⟨[], log, r, rfl, hlog, hreplay, rfl, rfl, rfl⟩, hmem⟩

/-- **A directory the store leaves and cannot replay.** Two writes of 5 MiB each fill a memtable with an
arena of 8 MiB and both are acknowledged, the second while the first memtable is being flushed. After
a stop both WAL files are replayed into one arena of 8 MiB. -/
theorem replay_beyond_arena : ∃ (v : Bytes) (es : List Event) (dir d : Dir) (p : Proc) (db : DB),
    v.length = 5 * 2 ^ 20 ∧
    Run (CondStep wideOptions fun _ _ => True) (.down Dir.empty) es (.up dir p) ∧
    acked es = [.put [107] v, .put [108] v] ∧
    (∀ a, HasRoom (normalizeOptions wideOptions).memtableMaxBytes (p.db.heap a)) ∧
    Run (CondStep wideOptions fun _ _ => True) (.up dir p) [.stopped] (.down dir) ∧
    openDB dir wideOptions thirdClock = .ok (db, d) ∧ db.heap 0 = [([107], v), ([108], v)] ∧
    ∀ ps, Draws (db.heap 0) ps →
      ¬ (newMemtable (normalizeOptions wideOptions).memtableMaxBytes).AllRoom ps := by
  obtain ⟨v, hv⟩ : ∃ v : Bytes, v.length = 5 * 2 ^ 20 := ⟨List.replicate _ 0, List.length_replicate⟩
  have hwide : Wide v := ⟨by omega, by omega⟩
  obtain ⟨db, d, hopen, hheap⟩ := hwide.opens
  refine ⟨v, _, _, d, _, db, hv, (hwide.first [107]).trans hwide.second, rfl, fun a => ?_,
    .single ⟨.other, trivial, .stop⟩, hopen, hheap, fun ps hps => ?_⟩
  -- apart, each value has an arena of its own, with room for it
  · have hsingle : ∀ k : Bytes, k.length = 1 →
        HasRoom (normalizeOptions wideOptions).memtableMaxBytes [(k, v)] := by
      intro k hk
      refine (hasRoom_iff (by simp [hk])).mpr ?_
      -- a node of the tallest height, a key of one byte and the value
      have hbytes : arenaBytes [] (Memtable.sizes [(k, v)]) = 104 + v.length := by
        simp [arenaBytes, Memtable.sizes, hk, Arena.nodeSize, maxNodeSize, maxHeight, offsetSize,
          nodeAlign]
      rw [hbytes, ArenaHolds, size_arena_wide]
      omega
    have hempty : HasRoom (normalizeOptions wideOptions).memtableMaxBytes [] :=
      (hasRoom_iff (by simp)).mpr ⟨by decide, by decide⟩
    -- the two memtables written to, and the addresses that hold nothing
    rcases a with _ | _ | _ | a
    · exact hsingle [107] rfl
    · exact hsingle [108] rfl
    · exact hempty
    · exact hempty
  -- together, the values are longer than the arena
  · rw [hheap] at hps
    refine hps.not_allRoom (by simp) ?_
    rw [size_arena_wide]
    simp only [List.map_cons, List.map_nil, List.sum_cons, List.sum_nil]
    omega

/-! ## Entries that can be stored and flushed -/

/-- The entry of a `Put` is in the memtable with its whole key. -/
def StoredWhole (sk : Towers) (rounds height : ℕ) (key stored : Bytes) : Prop :=
  ∃ sk' es, sk.put rounds key stored height = .ok sk' ∧ sk'.iterate rounds = .ok es ∧
    (key, stored) ∈ es

/-- No memtable fails to flush because of the entry, whatever else it holds. -/
def NeverTooLarge (key stored : Bytes) : Prop :=
  ∀ (es : List (Bytes × Bytes)) (sizing : Bloom.Sizing) (hash : Bytes → UInt64 → UInt64)
    (pool : Sstable.BlockPool), KeySorted es → es.length < 2 ^ 32 → (key, stored) ∈ es →
    (∀ n, (Bloom.newFor sizing n).Sound) →
      Sstable.flushEntries sizing hash pool es ≠ Checked.fail (.entryTooLarge key)

/-- **What the write path must not admit.** The value of a `Put` is stored as itself, as a tombstone or
as a reference. With room in the arena, the memtable then holds the whole key exactly when it is
shorter than `2 ^ 16` bytes, and the entry can be flushed exactly when it fits in a block with its
header. -/
theorem put_representable_iff {sk : Towers} {s : Skiplist} {m : OrdMap Bytes Bytes}
    (hr : sk.Represents s) (hs : s.Sim m) (hfields : sk.KeySizes) {opts : Options} {log log' : Log}
    {key value stored : Bytes} {now : UInt64}
    (hstore : storeValueForLSM log (size (normalizeOptions opts).valueThreshold) key value now none =
      (.ok stored, log'))
    {height rounds : ℕ} (hpos : 1 ≤ height) (hheight : height ≤ maxHeight)
    (hroom : s.Room key stored height) (hrounds : m.entries.length + 1 < rounds) :
    (stored.length = storedLength (size (normalizeOptions opts).valueThreshold) 28 value ∨
      stored.length = storedLength (size (normalizeOptions opts).valueThreshold) 32 value) ∧
    (StoredWhole sk rounds height key stored ↔ key.length < 2 ^ 16) ∧
    (NeverTooLarge key stored ↔
      Sstable.entryMetaSize + key.length + stored.length ≤ Sstable.blockSize) := by
  refine ⟨length_stored hstore, ⟨?_, fun hkey => ?_⟩, fun hflush => ?_, fun hfit => ?_⟩
  -- the key size is a field of 16 bits, so a longer key is not read back whole
  · rintro ⟨sk', es, hput, hiter, hmem⟩
    exact (hfields.put hput).iterate hiter _ hmem
  · have hshort : (s.levels 0).length < rounds := by
      rw [hs.length_levels]
      omega
    obtain ⟨sk', hput, hr'⟩ := hr.put hs hkey hheight hroom hshort
    have hs' := hs.put hkey hpos hroom
    have hlen : ((s.put key stored height).levels 0).length < rounds := by
      rw [hs'.length_levels]
      exact (m.length_insert_le key stored).trans_lt hrounds
    refine ⟨sk', _, hput, hr'.iterate_eq hs'.toLinked hlen, ?_⟩
    rw [hs'.entries_eq, ← OrdMap.get_eq_some_iff, OrdMap.get_insert, if_pos rfl]
  -- the entry alone in a memtable is a flush that fails
  · by_contra hlarge
    refine hflush [(key, stored)] Sstable.oneWord (fun _ _ => 0) (fun _ _ => 0)
      (List.pairwise_singleton _ _) (by simp) List.mem_cons_self Sstable.oneWord_sound ?_
    have hentry : Sstable.blockSize < Sstable.entrySize (key, stored) := not_le.mp hlarge
    exact Sstable.flushEntries_tooLarge _ Sstable.oneWord_sound _ (List.forall_mem_nil _) hentry []
  -- with an entry that fits in a block, no flush that has it fails for its size
  · intro es sizing hash pool hsorted hcount hmem hsizing
    exact Sstable.flushEntries_ne_tooLarge hash hsizing pool hsorted hcount hmem hfit

/-- A small entry in a new memtable. -/
theorem put_representable_one :
    StoredWhole (Towers.new 1024) 2 1 [107] [1] ∧ NeverTooLarge [107] [1] := by
  have hroom : (Skiplist.new 1024).Room [107] [1] 1 := by
    refine ⟨?_, ?_⟩ <;> rw [(Skiplist.sim_new 1024).need_eq] <;> decide
  have hstore : storeValueForLSM (Log.openEmpty 1 1) (size (normalizeOptions ⟨0, 0, 0⟩).valueThreshold)
      [107] [1] 1 none = (.ok [1], Log.openEmpty 1 1) := rfl
  have hrounds : (OrdMap.empty : OrdMap Bytes Bytes).entries.length + 1 < 2 := by decide
  obtain ⟨-, hwhole, hflush⟩ := put_representable_iff (Towers.represents_new 1024)
    (Skiplist.sim_new 1024) (Towers.keySizes_new 1024) hstore le_rfl (by decide) hroom hrounds
  exact ⟨hwhole.mpr (by decide), hflush.mpr (by decide)⟩

/-- A map that is read like one entry has that entry alone. -/
theorem entries_eq_singleton {m : OrdMap Bytes Bytes} {e : Bytes × Bytes}
    (hget : ∀ k, m.get k = lastOf [e] k) : m.entries = [e] := by
  -- every entry of the map is `e`, and its keys are distinct
  have honly : ∀ e' ∈ m.entries, e' = e := by
    intro e' he'
    have hlast := hget e'.1
    rw [OrdMap.get_eq_some_iff.mpr he'] at hlast
    exact List.mem_singleton.mp (mem_of_lastOf hlast.symm)
  have hmem : e ∈ m.entries := by
    rw [← OrdMap.get_eq_some_iff, hget]
    simp [lastOf]
  have hsorted := m.sorted
  cases hes : m.entries with
  | nil =>
    rw [hes] at hmem
    cases hmem
  | cons a rest =>
    rw [hes] at honly hsorted
    obtain ⟨rfl, hrest⟩ := List.forall_mem_cons.mp honly
    cases rest with
    | nil => rfl
    | cons b rest =>
      have hlt : a.1 < b.1 := List.rel_of_pairwise_cons hsorted List.mem_cons_self
      rw [hrest b List.mem_cons_self] at hlt
      exact absurd hlt (lt_irrefl _)

/-- The store with default options right after it was opened in an empty directory. -/
def plainDB : DB := openedDB (normalizeOptions ⟨0, 0, 0⟩) [] (walID (10 ^ 18)) [] []
  ⟨Log.openEmpty defaultSegmentMaxBytes 1, [], 0, []⟩

/-- A write with a long key and an empty value is acknowledged. -/
theorem plain_write {key : Bytes} (hkey : key.length = 5000) :
    ∃ dir, Run (CondStep ⟨0, 0, 0⟩ fun _ _ => True) (.down Dir.empty)
      (firstTrace plainDB.view (.put key [])) (.up dir { Proc.start plainDB with
        db := plainDB.applyWrite 0 (.put key []) [] }) := by
  have hopen : openDB Dir.empty ⟨0, 0, 0⟩ firstClock = .ok (plainDB, tinyDir) :=
    openDB_eq_ok.mpr ⟨[], Log.openEmpty defaultSegmentMaxBytes 1,
      ⟨Log.openEmpty defaultSegmentMaxBytes 1, [], 0, []⟩, rfl, rfl, rfl, rfl, rfl, rfl⟩
  have hidle : Idle (Proc.start plainDB) 0 (walID (10 ^ 18)) := ⟨rfl, rfl, rfl, rfl, rfl, rfl⟩
  -- far below the limit, so no rotation follows
  have hbelow : 0 + memtableEntrySize key [] < plainDB.memtableMaxBytes := by
    have hmax : plainDB.memtableMaxBytes = 4 * 2 ^ 20 := by decide
    rw [hmax, memtableEntrySize, hkey]
    decide
  have hstore : ∀ now, storeValueForLSM plainDB.valueLog plainDB.valueThreshold key [] now none =
      (.ok [], plainDB.valueLog) := fun _ => rfl
  exact ⟨_, .head ⟨.reopen firstClock, trivial, .reopen firstClock hopen⟩
    (Idle.write (x := .put key []) ⟨0, 0, 0⟩ (fun _ _ => True) tinyDir hidle rfl (fun _ _ => trivial)
      trivial (fun _ _ _ => trivial) (hstore 2) hbelow)⟩

/-- **An acknowledged write that no flush gets past.** A key of 5000 bytes with an empty value is
acknowledged with the default options. Its memtable has room for it and holds it, whatever the height
of its tower, and every flush of the memtable fails with the key. -/
theorem long_key_blocks_flush : ∃ (key : Bytes) (es : List Event) (dir : Dir) (p : Proc),
    key.length = 5000 ∧
    Run (CondStep ⟨0, 0, 0⟩ fun _ _ => True) (.down Dir.empty) es (.up dir p) ∧
    acked es = [.put key []] ∧ p.db.heap 0 = [(key, [])] ∧
    ∀ ps, Draws (p.db.heap 0) ps → ∃ sk,
      Towers.fill 40 (Towers.new (size (memtableArenaSize
        (normalizeOptions ⟨0, 0, 0⟩).memtableMaxBytes))) ps = .ok sk ∧
      ∀ (sizing : Bloom.Sizing) (hash : Bytes → UInt64 → UInt64) (pool : Sstable.BlockPool),
        (∀ n, (Bloom.newFor sizing n).Sound) →
        Sstable.flush sizing hash pool 40 sk = .ok (Checked.fail (.entryTooLarge key)) := by
  obtain ⟨key, hkey⟩ : ∃ key : Bytes, key.length = 5000 := ⟨List.replicate _ 0, List.length_replicate⟩
  obtain ⟨dir, hrun⟩ := plain_write hkey
  refine ⟨key, _, dir, _, hkey, hrun, rfl, rfl, fun ps hps => ?_⟩
  have hps : Draws [(key, [])] ps := hps
  have hshort : ∀ e ∈ [(key, ([] : Bytes))], e.1.length < 2 ^ 16 := by simp [hkey]
  have hlength : ps.length = 1 := by rw [← List.length_map, hps.entries, List.length_singleton]
  have hsize : size (memtableArenaSize (normalizeOptions ⟨0, 0, 0⟩).memtableMaxBytes) = 8 * 2 ^ 20 := by
    decide
  -- one node of the tallest height, a key of 5000 bytes and an empty value
  have hbytes : fillSize [] ps ≤ 5103 := by
    have hle := fillSize_le_arenaBytes (fun p hp => (hps.heights p hp).2) []
    rw [hps.entries] at hle
    simpa [arenaBytes, Memtable.sizes, hkey, Arena.nodeSize, maxNodeSize, maxHeight, offsetSize,
      nodeAlign] using hle
  have hnew : ∀ n, (Towers.new n).arena.n = 104 := fun _ => rfl
  obtain ⟨sk, m, hfill, hholds, hget⟩ := Towers.fill_holds
    (size (memtableArenaSize (normalizeOptions ⟨0, 0, 0⟩).memtableMaxBytes)) 40 ps (hps.legal hshort)
    (by rw [hnew, hsize]; omega) (by rw [hnew]; omega) (by rw [hlength]; decide)
  rw [hps.entries] at hget
  have hentries := entries_eq_singleton hget
  refine ⟨sk, hfill, fun sizing hash pool hsizing => ?_⟩
  -- with its header the key is longer than a block
  have hlarge : Sstable.blockSize < Sstable.entrySize (key, []) := by
    simp [Sstable.blockSize, Sstable.entrySize, Sstable.entryMetaSize, hkey]
  have hflush : Sstable.flushEntries sizing hash pool [(key, [])] =
      Checked.fail (.entryTooLarge key) :=
    Sstable.flushEntries_tooLarge hash hsizing pool (List.forall_mem_nil _) hlarge []
  rw [Sstable.flush, hholds.iterate (by rw [hentries, List.length_singleton]; decide),
    hentries]
  exact congrArg Except.ok hflush

end Seol
