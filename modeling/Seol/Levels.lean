import Seol.Common.Decimal
import Seol.Common.OrdMap
import Seol.Common.Search
import Seol.ValueRef

/-!
# Tables, their metadata and the levels

Reference: `manifest.go` and the level functions of `compaction.go`. A table is read as the finite
map of its entries. Level 0 is kept newest first and searched table by table; a deeper level is kept
by smallest key and searched by bisection on its metadata.
-/

namespace Seol

open Common

/-- An open table: its file name and its entries. -/
structure Table where
  path : Bytes
  entries : OrdMap Bytes Bytes

/-- `TableMeta`, less the file size, which nothing modelled here reads. -/
structure TableMeta where
  filename : Bytes
  level : ℕ
  smallest : Bytes
  largest : Bytes
  createdAt : ℤ
deriving DecidableEq

/-- `tableLevelState`. -/
structure LevelState where
  level : ℕ
  metas : List TableMeta
  tables : List Table

namespace Table

/-- The entry of a table for a key, as a finite map. -/
def find (t : Table) (k : Bytes) : Option Bytes := t.entries.get k

/-- `Table.Get`: the copy of an empty value is the nil slice, which reads as absent. -/
def get (t : Table) (k : Bytes) : Option Bytes := (t.find k).filter (· ≠ [])

/-- The least key of a table. -/
def smallest (t : Table) : Bytes := (t.entries.entries.head?.map Prod.fst).getD []

/-- The greatest key of a table. -/
def largest (t : Table) : Bytes := (t.entries.entries.getLast?.map Prod.fst).getD []

end Table

/-! ## Metadata -/

/-- `strconv.ParseInt(_, 10, 64)`. -/
def parseInt (b : Bytes) : Option ℤ :=
  match b with
  | 0x2d :: digits => (parseDecimal digits).bind fun n => if n ≤ 2 ^ 63 then some (-n) else none
  | 0x2b :: digits => (parseDecimal digits).bind fun n => if n < 2 ^ 63 then some n else none
  | digits => (parseDecimal digits).bind fun n => if n < 2 ^ 63 then some n else none

/-- `strings.TrimSuffix(name, filepath.Ext(name))`: the name before its last dot. -/
def trimExt (name : Bytes) : Bytes :=
  if 0x2e ∈ name then ((name.reverse.dropWhile (· ≠ 0x2e)).drop 1).reverse else name

/-- `tableCreatedAt`: the timestamp in the name, else the clock. -/
def tableCreatedAt (filename : Bytes) (now : ℤ) : ℤ := (parseInt (trimExt filename)).getD now

/-- `tableMetaFromSST`. -/
def tableMetaFromSST (t : Table) (level : ℕ) (now : ℤ) : TableMeta :=
  ⟨t.path, level, t.smallest, t.largest, tableCreatedAt t.path now⟩

/-- The suffix `.sst`. -/
def sstSuffix : Bytes := [0x2e, 0x73, 0x73, 0x74]

/-- `sstableID` at a clock reading in microseconds. -/
def sstableID (now : ℕ) : Bytes := decimal now ++ sstSuffix

/-- The comparison of `sortTableMetaForLevel`. -/
def tableLess (level : ℕ) (a b : TableMeta) : Bool :=
  if level = 0 then
    if a.createdAt = b.createdAt then b.filename < a.filename else b.createdAt < a.createdAt
  else if a.smallest = b.smallest then
    if a.createdAt = b.createdAt then a.filename < b.filename else a.createdAt < b.createdAt
  else a.smallest < b.smallest

/-- `a` may stand before `b`. -/
def tableLE (level : ℕ) (a b : TableMeta) : Prop := tableLess level b a = false

instance (level : ℕ) : DecidableRel (tableLE level) := fun a b =>
  inferInstanceAs (Decidable (tableLess level b a = false))

/-- `sortTableMetaForLevel`: on distinct names the comparison is total, so any sort gives this
list. -/
def sortTableMetaForLevel (level : ℕ) (tables : List TableMeta) : List TableMeta :=
  tables.insertionSort (tableLE level)

/-- The level numbers in use, ascending. -/
def levelNumbers (tables : List TableMeta) : List ℕ :=
  (tables.map TableMeta.level).dedup.insertionSort (· ≤ ·)

/-- The metadata of one level, in its read order. -/
def levelMeta (tables : List TableMeta) (level : ℕ) : List TableMeta :=
  sortTableMetaForLevel level (tables.filter fun m => m.level = level)

/-- `groupTableMetaByLevel`. -/
def groupTableMetaByLevel (tables : List TableMeta) : List (ℕ × List TableMeta) :=
  (levelNumbers tables).map fun level => (level, levelMeta tables level)

/-- `orderTableMetaForManifest`. -/
def orderTableMetaForManifest (tables : List TableMeta) : List TableMeta :=
  (groupTableMetaByLevel tables).flatMap Prod.snd

theorem orderTableMetaForManifest_eq (tables : List TableMeta) :
    orderTableMetaForManifest tables = (levelNumbers tables).flatMap (levelMeta tables) := by
  simp [orderTableMetaForManifest, groupTableMetaByLevel, List.flatMap_map]

/-- `tableByName`: of several tables with one name the map keeps the last. -/
def tableByName (tables : List Table) (name : Bytes) : Option Table :=
  tables.reverse.find? fun t => t.path = name

/-- `buildLevelState`; `none` is the error for a manifest entry without a table. -/
def buildLevelState (metas : List TableMeta) (tables : List Table) : Option (List LevelState) :=
  (groupTableMetaByLevel metas).mapM fun g =>
    (g.2.mapM fun m => tableByName tables m.filename).map fun ts => ⟨g.1, g.2, ts⟩

/-! ## Lookup -/

/-- `findLevelTable`; `none` is `-1`. -/
def findLevelTable (metas : List TableMeta) (key : Bytes) : Option ℕ :=
  let idx := search metas.length fun i => ((metas[i]?).map TableMeta.largest).any (key ≤ ·)
  match metas[idx]? with
  | none => none
  | some m => if key < m.smallest then none else some idx

section Lookup

variable (read : Table → Bytes → Option Bytes)

/-- The first table of a list that answers. -/
def firstHit (tables : List Table) (key : Bytes) : Option Bytes := tables.findSome? (read · key)

/-- `lookupLevels` inside one level. -/
def lookupLevel (l : LevelState) (key : Bytes) : Option Bytes :=
  if l.level = 0 then firstHit read l.tables key
  else (findLevelTable l.metas key).bind fun idx => (l.tables[idx]?).bind fun t => read t key

/-- `lookupLevels`, up to the resolution of the stored value: the stored entry it selects when tables
answer by `read`. -/
def lookupLevels (levels : List LevelState) (key : Bytes) : Option Bytes :=
  levels.findSome? (lookupLevel read · key)

end Lookup

/-! ## Bisection finds what the linear search finds -/

/-- The metadata of a table is true of it: the name, and the bounds as its least and greatest key. -/
structure Describes (m : TableMeta) (t : Table) : Prop where
  filename_eq : m.filename = t.path
  nonempty : t.entries.entries ≠ []
  smallest_eq : m.smallest = t.smallest
  largest_eq : m.largest = t.largest

/-- A reading of tables answers only for keys they hold. -/
def Sound (read : Table → Bytes → Option Bytes) : Prop :=
  ∀ t k, t.find k = none → read t k = none

theorem sound_find : Sound Table.find := fun _ _ h => h

theorem sound_get : Sound Table.get := by
  intro t k h
  simp [Table.get, h]

/-- Keys of a sorted entry list lie between the first and the last. -/
theorem KeySorted.bounds {es : List (Bytes × Bytes)} (hs : KeySorted es) {e : Bytes × Bytes}
    (he : e ∈ es) : (es.head?.map Prod.fst).getD [] ≤ e.1 ∧ e.1 ≤ (es.getLast?.map Prod.fst).getD []
    := by
  constructor
  · cases es with
    | nil => simp at he
    | cons a es =>
      rcases List.mem_cons.mp he with rfl | he
      · simp
      · exact ((List.pairwise_cons.mp hs).1 e he).le
  · rcases List.eq_nil_or_concat' es with rfl | ⟨es, a, rfl⟩
    · simp at he
    · rcases List.mem_append.mp he with he | he
      · have := (List.pairwise_append.mp hs).2.2 e he a (by simp)
        simpa using this.le
      · simp [List.mem_singleton.mp he]

/-- Every key of a table lies inside the bounds of its metadata. -/
theorem Describes.bounds {m : TableMeta} {t : Table} (h : Describes m t) {k v : Bytes}
    (hk : t.find k = some v) : m.smallest ≤ k ∧ k ≤ m.largest := by
  rw [h.smallest_eq, h.largest_eq]
  exact KeySorted.bounds t.entries.sorted (OrdMap.get_eq_some_iff.mp hk)

/-- Both bounds are keys of the table. -/
theorem Describes.bounds_mem {m : TableMeta} {t : Table} (h : Describes m t) :
    (∃ v, t.find m.smallest = some v) ∧ ∃ v, t.find m.largest = some v := by
  have hne := h.nonempty
  rw [h.smallest_eq, h.largest_eq]
  refine ⟨?_, ?_⟩
  -- a table that is described is not empty, so it has a first and a last entry
  · cases he : t.entries.entries with
    | nil => exact absurd he hne
    | cons a es =>
      refine ⟨a.2, OrdMap.get_eq_some_iff.mpr ?_⟩
      simp [Table.smallest, he]
  · rcases List.eq_nil_or_concat' t.entries.entries with hnil | ⟨es, a, he⟩
    · exact absurd hnil hne
    · refine ⟨a.2, OrdMap.get_eq_some_iff.mpr ?_⟩
      simp [Table.largest, he]

/-- The bounds of a table's metadata are the least and the greatest of its keys. -/
structure TrueBounds (m : TableMeta) (t : Table) : Prop where
  isLeast : IsLeast { k | (t.find k).isSome } m.smallest
  isGreatest : IsGreatest { k | (t.find k).isSome } m.largest

theorem Describes.trueBounds {m : TableMeta} {t : Table} (h : Describes m t) : TrueBounds m t := by
  obtain ⟨⟨v, hv⟩, w, hw⟩ := h.bounds_mem
  refine ⟨⟨by simp [hv], fun k hk => ?_⟩, by simp [hw], fun k hk => ?_⟩
  · obtain ⟨u, hu⟩ := Option.isSome_iff_exists.mp hk
    exact (h.bounds hu).1
  · obtain ⟨u, hu⟩ := Option.isSome_iff_exists.mp hk
    exact (h.bounds hu).2

theorem TrueBounds.smallest_le_largest {m : TableMeta} {t : Table} (h : TrueBounds m t) :
    m.smallest ≤ m.largest := h.isGreatest.2 h.isLeast.1

/-- A key outside the bounds is not in the table. -/
theorem TrueBounds.find_eq_none {m : TableMeta} {t : Table} (h : TrueBounds m t) {k : Bytes}
    (hk : k < m.smallest ∨ m.largest < k) : t.find k = none := by
  rw [← Option.not_isSome_iff_eq_none]
  intro hsome
  rcases hk with hk | hk
  · exact absurd (h.isLeast.2 hsome) hk.not_ge
  · exact absurd (h.isGreatest.2 hsome) hk.not_ge

theorem Describes.smallest_le_largest {m : TableMeta} {t : Table} (h : Describes m t) :
    m.smallest ≤ m.largest := h.trueBounds.smallest_le_largest

theorem Describes.find_eq_none {m : TableMeta} {t : Table} (h : Describes m t) {k : Bytes}
    (hk : k < m.smallest ∨ m.largest < k) : t.find k = none := h.trueBounds.find_eq_none hk

/-- A level whose tables its metadata describes and whose ranges follow one another. -/
structure RangeLevel (metas : List TableMeta) (tables : List Table) : Prop where
  describes : List.Forall₂ Describes metas tables
  disjoint : metas.Pairwise fun a b => a.largest < b.smallest

/-- If at most the table at index `i` can answer, it decides the search. -/
theorem firstHit_eq_of_unique {read : Table → Bytes → Option Bytes} {tables : List Table}
    {k : Bytes} {i : ℕ} (h : ∀ j t, tables[j]? = some t → j ≠ i → read t k = none) :
    firstHit read tables k = (tables[i]?).bind fun t => read t k := by
  induction tables generalizing i with
  | nil => rfl
  | cons t tables ih =>
    rw [firstHit, List.findSome?_cons]
    cases i with
    | zero =>
      have hnone : tables.findSome? (read · k) = none := by
        refine List.findSome?_eq_none_iff.mpr fun t' ht' => ?_
        obtain ⟨j, hj⟩ := List.mem_iff_getElem?.mp ht'
        exact h (j + 1) t' (by simpa using hj) (by omega)
      cases hr : read t k <;> simp [hr, hnone]
    | succ i =>
      rw [h 0 t rfl (by omega)]
      have hstep := ih (i := i) fun j t' hj hne => h (j + 1) t' (by simpa using hj) (by omega)
      simpa [firstHit] using hstep

/-- The predicate of the bisection: the table at an index ends at or above the key. -/
def endsFrom (metas : List TableMeta) (k : Bytes) (i : ℕ) : Bool :=
  ((metas[i]?).map TableMeta.largest).any (k ≤ ·)

theorem endsFrom_eq {metas : List TableMeta} {k : Bytes} {i : ℕ} {m : TableMeta}
    (hm : metas[i]? = some m) : endsFrom metas k i = decide (k ≤ m.largest) := by
  rw [endsFrom, hm]
  rfl

section Bisection

variable {metas : List TableMeta} {tables : List Table}
  (hbounds : List.Forall₂ TrueBounds metas tables)
  (hdisjoint : metas.Pairwise fun a b => a.largest < b.smallest)

include hbounds in
theorem exists_meta_of_table {j : ℕ} {t : Table} (ht : tables[j]? = some t) :
    ∃ m, metas[j]? = some m ∧ TrueBounds m t := by
  obtain ⟨hj, rfl⟩ := List.getElem?_eq_some_iff.mp ht
  have hj' : j < metas.length := hbounds.length_eq ▸ hj
  exact ⟨metas[j], List.getElem?_eq_getElem hj', hbounds.get hj' hj⟩

include hdisjoint in
theorem largest_lt_smallest {i j : ℕ} {m m' : TableMeta} (hm : metas[i]? = some m)
    (hm' : metas[j]? = some m') (hij : i < j) : m.largest < m'.smallest := by
  obtain ⟨hi, rfl⟩ := List.getElem?_eq_some_iff.mp hm
  obtain ⟨hj, rfl⟩ := List.getElem?_eq_some_iff.mp hm'
  exact List.pairwise_iff_getElem.mp hdisjoint i j hi hj hij

include hbounds hdisjoint

theorem endsFrom_switchesOnce (k : Bytes) : SwitchesOnce metas.length (endsFrom metas k) := by
  intro i j hij hj hi
  rcases Nat.eq_or_lt_of_le hij with rfl | hij
  · exact hi
  · have hjm := List.getElem?_eq_getElem hj
    have him := List.getElem?_eq_getElem (hij.trans hj)
    have hrange := (hbounds.get hj (hbounds.length_eq ▸ hj)).smallest_le_largest
    rw [endsFrom_eq him, decide_eq_true_eq] at hi
    rw [endsFrom_eq hjm, decide_eq_true_eq]
    exact hi.trans ((largest_lt_smallest hdisjoint him hjm hij).le.trans hrange)

/-- Tables before the border end below the key, and those behind it start above the end of the border
table. -/
theorem read_off_border {read : Table → Bytes → Option Bytes} (hread : Sound read) {k : Bytes} {r : ℕ}
    (hr : IsBorder metas.length (endsFrom metas k) r) {j : ℕ} {t : Table} (ht : tables[j]? = some t)
    (hne : j ≠ r) : read t k = none := by
  obtain ⟨m, hm, hmt⟩ := exists_meta_of_table hbounds ht
  have hj : j < metas.length := (List.getElem?_eq_some_iff.mp hm).1
  refine hread t k (hmt.find_eq_none ?_)
  -- left of the border the table ends below the key, right of it it starts above
  rcases Nat.lt_or_gt_of_ne hne with hjr | hrj
  · have hfalse := hr.below j hjr
    rw [endsFrom_eq hm, decide_eq_false_iff_not, not_le] at hfalse
    exact Or.inr hfalse
  · have hborder := List.getElem?_eq_getElem (hrj.trans hj)
    have htrue := hr.above r le_rfl (hrj.trans hj)
    rw [endsFrom_eq hborder, decide_eq_true_eq] at htrue
    exact Or.inl (htrue.trans_lt (largest_lt_smallest hdisjoint hborder hm hrj))

/-- **Bisection on the metadata finds the only table that can hold the key.** -/
theorem findLevelTable_eq_firstHit {read : Table → Bytes → Option Bytes} (hread : Sound read)
    (k : Bytes) :
    ((findLevelTable metas k).bind fun idx => (tables[idx]?).bind fun t => read t k) =
      firstHit read tables k := by
  have hborder := search_isBorder (endsFrom_switchesOnce hbounds hdisjoint k)
  generalize hr : search metas.length (endsFrom metas k) = r at hborder
  have hoff : ∀ j t, tables[j]? = some t → j ≠ r → read t k = none := fun j t ht hne =>
    read_off_border hbounds hdisjoint hread hborder ht hne
  have hfind : findLevelTable metas k = match metas[r]? with
      | none => none
      | some m => if k < m.smallest then none else some r := by
    rw [← hr]
    rfl
  rw [hfind, firstHit_eq_of_unique hoff]
  cases hm : metas[r]? with
  | none =>
    have hlen : tables.length ≤ r := hbounds.length_eq ▸ List.getElem?_eq_none_iff.mp hm
    rw [List.getElem?_eq_none hlen]
    rfl
  | some m =>
    by_cases hk : k < m.smallest
    · -- the border table starts above the key
      simp only [if_pos hk, Option.bind_none]
      cases ht : tables[r]? with
      | none => rfl
      | some t =>
        obtain ⟨m', hm', hmt⟩ := exists_meta_of_table hbounds ht
        obtain rfl := Option.some.inj (hm.symm.trans hm')
        exact (hread t k (hmt.find_eq_none (Or.inl hk))).symm
    · simp only [if_neg hk, Option.bind_some]

end Bisection

theorem RangeLevel.lookup_eq {metas : List TableMeta} {tables : List Table}
    (h : RangeLevel metas tables) {read : Table → Bytes → Option Bytes} (hread : Sound read)
    (k : Bytes) :
    ((findLevelTable metas k).bind fun idx => (tables[idx]?).bind fun t => read t k) =
      firstHit read tables k :=
  findLevelTable_eq_firstHit (h.describes.imp fun _ _ hd => hd.trueBounds) h.disjoint hread k

/-- A deeper level as the search expects it: bounds that are true of the tables, in the order of
the lower bounds, and ranges that do not meet. -/
structure SearchableLevel (l : LevelState) : Prop where
  bounds : List.Forall₂ TrueBounds l.metas l.tables
  sorted : l.metas.Pairwise fun a b => a.smallest ≤ b.smallest
  disjoint : l.metas.Pairwise fun a b => a.largest < b.smallest ∨ b.largest < a.smallest

/-- Disjoint ranges in the order of their lower bounds follow one another. -/
theorem SearchableLevel.pairwise {l : LevelState} (h : SearchableLevel l) :
    l.metas.Pairwise fun a b => a.largest < b.smallest := by
  have hboth := h.sorted.and h.disjoint
  refine hboth.imp_of_mem fun {a b} ha hb hab => ?_
  obtain ⟨hle, hlt | hlt⟩ := hab
  · exact hlt
  · -- the second range would lie below its own lower bound
    obtain ⟨t, -, ht⟩ : ∃ t ∈ l.tables, TrueBounds b t := by
      obtain ⟨i, hi, rfl⟩ := List.getElem_of_mem hb
      have hi' : i < l.tables.length := h.bounds.length_eq ▸ hi
      exact ⟨l.tables[i], List.getElem_mem hi', h.bounds.get hi hi'⟩
    exact absurd (ht.smallest_le_largest.trans_lt hlt) (not_lt.mpr hle)

/-- **The search by level finds what the flat search finds**, with any sound reading of tables. -/
theorem lookupLevels_eq_firstHit {levels : List LevelState}
    (h : ∀ l ∈ levels, l.level ≠ 0 → SearchableLevel l) {read : Table → Bytes → Option Bytes}
    (hread : Sound read) (k : Bytes) :
    lookupLevels read levels k = firstHit read (levels.flatMap LevelState.tables) k := by
  induction levels with
  | nil => rfl
  | cons l ls ih =>
    obtain ⟨hl, hls⟩ := List.forall_mem_cons.mp h
    -- below level 0 the binary search replaces the walk over the level
    have hlevel : lookupLevel read l k = firstHit read l.tables k := by
      rw [lookupLevel]
      split_ifs with hzero
      · rfl
      · exact findLevelTable_eq_firstHit (hl hzero).bounds (hl hzero).pairwise hread k
    rw [List.flatMap_cons, firstHit, List.findSome?_append, lookupLevels, List.findSome?_cons,
      hlevel]
    have hrest := ih hls
    rw [lookupLevels, firstHit] at hrest
    rw [hrest, firstHit]
    cases l.tables.findSome? (read · k) <;> rfl

end Seol
