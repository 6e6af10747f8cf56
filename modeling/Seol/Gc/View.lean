import Seol.Gc.Rebuild
import Seol.Db.Install

/-!
# The view after rewriting the live entries

Reference: `rebuildLiveState` in `gc.go`. The tables are scanned in the order in which a lookup asks
them, so the first entry of a key is the one that a lookup selects. The outputs hold every live key
once; they answer like the sources, and they keep the levels of their sources free of overlap.
-/

namespace Seol

open Common Vlog

/-! ## The scan order is the read order -/

/-- The tables of a manifest with their metadata, in scan order. -/
def scanSources (files : TableFiles) (ms : List TableMeta) : List (TableMeta × Table) :=
  (orderTableMetaForManifest ms).map fun m => (m, tableOf files m)

theorem flatMap_levelsOf (files : TableFiles) (ms : List TableMeta) :
    ((levelsOf files ms).flatMap fun l => l.metas.zip l.tables) = scanSources files ms := by
  rw [scanSources, orderTableMetaForManifest_eq, List.map_flatMap, levelsOf, List.flatMap_map]
  refine List.flatMap_congr fun level _ => ?_
  rw [← List.map_prod_left_eq_zip]

theorem getList_scanEntries (k : Bytes) (sources : List (TableMeta × Table)) :
    getList k (scanEntries sources) = sources.findSome? fun source => source.2.find k := by
  induction sources with
  | nil => rfl
  | cons source sources ih =>
    have hcons : scanEntries (source :: sources) =
        source.2.entries.entries ++ scanEntries sources := rfl
    rw [hcons, getList_append, ih, List.findSome?_cons, Table.find, OrdMap.get]
    cases getList k source.2.entries.entries <;> rfl

/-- **A lookup asks the tables in the order of the manifest.** -/
theorem WellFormed.lookupLevels_order {files : TableFiles} {ms : List TableMeta}
    (h : WellFormed files ms) {read : Table → Bytes → Option Bytes} (hread : Sound read) (k : Bytes) :
    lookupLevels read (levelsOf files ms) k =
      (orderTableMetaForManifest ms).findSome? fun m => read (tableOf files m) k := by
  -- below level 0 the ranges are apart, so the table `findLevelTable` picks is the only one that
  -- can hit
  have hlevel : ∀ level, lookupLevel read ⟨level, levelMeta ms level,
      (levelMeta ms level).map (tableOf files)⟩ k =
        (levelMeta ms level).findSome? fun m => read (tableOf files m) k := by
    intro level
    have hfirst : firstHit read ((levelMeta ms level).map (tableOf files)) k =
        (levelMeta ms level).findSome? fun m => read (tableOf files m) k := by
      rw [firstHit, List.findSome?_map]
      rfl
    rw [← hfirst, lookupLevel]
    split_ifs with hl
    · rfl
    · exact (h.rangeLevel hl).lookup_eq hread k
  rw [orderTableMetaForManifest_eq, lookupLevels, levelsOf]
  generalize levelNumbers ms = levels
  induction levels with
  | nil => rfl
  | cons level levels ih =>
    rw [List.map_cons, List.findSome?_cons, hlevel, ih, List.flatMap_cons, List.findSome?_append]
    cases List.findSome? _ (levelMeta ms level) <;> rfl

/-- The first entry of a key in scan order is the one a lookup selects. -/
theorem WellFormed.lookupLevels_eq {files : TableFiles} {ms : List TableMeta}
    (h : WellFormed files ms) (k : Bytes) :
    lookupLevels Table.find (levelsOf files ms) k =
      getList k (scanEntries (scanSources files ms)) := by
  rw [h.lookupLevels_order sound_find, getList_scanEntries, scanSources, List.findSome?_map]
  rfl

/-! ## The outputs as a store -/

/-- The files of the outputs. -/
def outputFiles (os : List GcOutput) : TableFiles :=
  OrdMap.empty.insertAll (os.map fun o => (o.info.filename, o.entries))

/-- The metadata of the outputs. -/
def outputMetas (os : List GcOutput) : List TableMeta := os.map GcOutput.info

theorem NamedBy.distinctNames {c : GcChoices} {os : List GcOutput} (h : NamedBy c os)
    (hnames : ∀ i j name, c.flush i = some name → c.flush j = some name → i = j) :
    DistinctNames (outputMetas os) := by
  rw [DistinctNames, outputMetas, List.map_map, List.nodup_iff_getElem?_ne_getElem?]
  intro i j hij hj heq
  obtain ⟨o, ho⟩ : ∃ o, os[j]? = some o :=
    ⟨_, List.getElem?_eq_getElem (by simpa using hj)⟩
  rw [List.getElem?_map, List.getElem?_map, ho, Option.map_some, Option.map_eq_some_iff] at heq
  obtain ⟨o', ho', hname⟩ := heq
  have hj' := h j o ho
  have hi' := h i o' ho'
  -- two outputs of one name come from two readings of the clock that gave this name
  rw [Function.comp_apply, Function.comp_apply] at hname
  exact hij.ne (hnames i j _ hi' (hname ▸ hj'))

theorem get_outputFiles {os : List GcOutput} (h : DistinctNames (outputMetas os)) {o : GcOutput}
    (ho : o ∈ os) : (outputFiles os).get o.info.filename = some o.entries := by
  have hkeys : ((os.map fun o => (o.info.filename, o.entries)).map Prod.fst).Nodup := by
    rw [List.map_map]
    rw [DistinctNames, outputMetas, List.map_map] at h
    exact h
  have hlast := lastOf_of_mem hkeys (List.mem_map_of_mem ho)
  rw [outputFiles, OrdMap.get_insertAll, hlast, Option.some_or]

theorem tableOf_outputFiles {os : List GcOutput} (h : DistinctNames (outputMetas os))
    {o : GcOutput} (ho : o ∈ os) :
    tableOf (outputFiles os) o.info = ⟨o.info.filename, o.entries⟩ := by
  rw [tableOf, get_outputFiles h ho, Option.getD_some]

theorem outputFiles_present (os : List GcOutput) :
    ∀ m ∈ outputMetas os, ((outputFiles os).get m.filename).isSome := by
  intro m hm
  obtain ⟨o, ho, rfl⟩ := List.mem_map.mp hm
  rw [outputFiles, OrdMap.get_insertAll, Option.isSome_or]
  by_contra hnone
  rw [Bool.not_eq_true, Bool.or_eq_false_iff, Option.isSome_eq_false_iff, Option.isNone_iff_eq_none,
    lastOf_eq_none_iff] at hnone
  exact hnone.1 _ (List.mem_map_of_mem ho) rfl

/-- Of outputs whose names are not distinct, one comes before another of the same name. -/
theorem exists_overwritten {os : List GcOutput} (h : ¬ DistinctNames (outputMetas os)) :
    ∃ as o bs, os = as ++ o :: bs ∧ ∃ o' ∈ bs, o'.info.filename = o.info.filename := by
  induction os with
  | nil => exact absurd List.nodup_nil h
  | cons o os ih =>
    -- the first output is the overwritten one, or the repetition is behind it
    by_cases hmem : ∃ o' ∈ os, o'.info.filename = o.info.filename
    · exact ⟨[], o, os, rfl, hmem⟩
    · have htail : ¬ DistinctNames (outputMetas os) := by
        intro htail
        refine h (List.nodup_cons.mpr ⟨fun hin => hmem ?_, htail⟩)
        rw [List.map_map] at hin
        exact List.mem_map.mp hin
      obtain ⟨as, o₁, bs, rfl, hover⟩ := ih htail
      exact ⟨o :: as, o₁, bs, rfl, hover⟩

/-- An output that is written over leaves no file. -/
theorem outputFiles_overwritten {as bs : List GcOutput} {o : GcOutput}
    (hover : ∃ o' ∈ bs, o'.info.filename = o.info.filename) {name : Bytes}
    {entries : OrdMap Bytes Bytes} (hget : (outputFiles (as ++ o :: bs)).get name = some entries) :
    ∃ o' ∈ as ++ bs, o'.entries = entries := by
  have hfound : ∀ {os : List GcOutput} {entries : OrdMap Bytes Bytes},
      lastOf (os.map fun o => (o.info.filename, o.entries)) name = some entries →
        ∃ o' ∈ os, o'.entries = entries := by
    intro os entries hlast
    obtain ⟨o', ho', heq⟩ := List.mem_map.mp (mem_of_lastOf hlast)
    exact ⟨o', ho', (Prod.mk.inj heq).2⟩
  rw [outputFiles, OrdMap.get_insertAll, OrdMap.get_empty, Option.or_none, List.map_append,
    lastOf_append, List.map_cons, overlay, lastOf] at hget
  cases hlast : lastOf (bs.map fun o => (o.info.filename, o.entries)) name with
  | some later =>
    rw [hlast, Option.some_or, Option.some_or, Option.some.injEq] at hget
    obtain ⟨o', ho', heq⟩ := hfound hlast
    exact ⟨o', List.mem_append_right _ ho', heq.trans hget⟩
  | none =>
    have hne : o.info.filename ≠ name := by
      obtain ⟨o', ho', hname⟩ := hover
      rw [← hname]
      exact lastOf_eq_none_iff.mp hlast _ (List.mem_map_of_mem ho')
    rw [hlast, Option.none_or, if_neg hne, Option.none_or] at hget
    obtain ⟨o', ho', heq⟩ := hfound hget
    exact ⟨o', List.mem_append_left _ ho', heq⟩

/-- A lookup finds nothing that no table has. -/
theorem lookupLevels_eq_none {files : TableFiles} {ms : List TableMeta} {k : Bytes}
    (h : ∀ m ∈ ms, (tableOf files m).find k = none) :
    lookupLevels Table.find (levelsOf files ms) k = none := by
  refine List.findSome?_eq_none_iff.mpr fun l hl => ?_
  -- a level asks only its own tables, and each of them misses
  have htables : ∀ t ∈ l.tables, t.find k = none := by
    intro t ht
    obtain ⟨m, hm, rfl⟩ := mem_levelsOf_tables.mp (List.mem_flatMap.mpr ⟨l, hl, ht⟩)
    exact h m hm
  rw [lookupLevel]
  split_ifs
  · exact List.findSome?_eq_none_iff.mpr htables
  · cases findLevelTable l.metas k with
    | none => rfl
    | some idx =>
      cases ht : l.tables[idx]? with
      | none => simp [ht]
      | some t => simpa [ht] using htables t (List.mem_of_getElem? ht)

/-- **The keys of an output that is written over are lost**, since no other output has them. -/
theorem lookupLevels_overwritten {as bs : List GcOutput} {o : GcOutput}
    (hkeys : ((outputEntries (as ++ o :: bs)).map Prod.fst).Nodup)
    (hover : ∃ o' ∈ bs, o'.info.filename = o.info.filename) {e : Bytes × Bytes}
    (he : e ∈ o.entries.entries) :
    lookupLevels Table.find (levelsOf (outputFiles (as ++ o :: bs)) (outputMetas (as ++ o :: bs)))
      e.1 = none := by
  refine lookupLevels_eq_none fun m hm => ?_
  obtain ⟨entries, hget⟩ := Option.isSome_iff_exists.mp (outputFiles_present _ m hm)
  obtain ⟨o', ho', rfl⟩ := outputFiles_overwritten hover hget
  rw [tableOf, hget, Option.getD_some]
  by_contra hsome
  obtain ⟨v, hv⟩ := Option.ne_none_iff_exists'.mp hsome
  have hv' : (e.1, v) ∈ o'.entries.entries := OrdMap.get_eq_some_iff.mp hv
  -- the key would occur twice in all outputs together
  have hin : ∀ os : List GcOutput, o' ∈ os → e.1 ∈ (outputEntries os).map Prod.fst :=
    fun os hmem => List.mem_map.mpr ⟨_, List.mem_flatMap.mpr ⟨o', hmem, hv'⟩, rfl⟩
  have hsplit : outputEntries (as ++ o :: bs) =
      outputEntries as ++ (o.entries.entries ++ outputEntries bs) := by simp [outputEntries]
  rw [hsplit, List.map_append, List.map_append] at hkeys
  obtain ⟨-, hrest, hbefore⟩ := List.nodup_append.mp hkeys
  obtain ⟨-, -, hafter⟩ := List.nodup_append.mp hrest
  rcases List.mem_append.mp ho' with ho' | ho'
  · exact hbefore _ (hin as ho') _ (List.mem_append_left _ (List.mem_map_of_mem he)) rfl
  · exact hafter _ (List.mem_map_of_mem he) _ (hin bs ho') rfl

/-- A flushed output is described by its metadata. -/
theorem FlushedFor.describes {c : GcChoices} {source : TableMeta} {o : GcOutput}
    (h : FlushedFor c source o) : Describes o.info ⟨o.info.filename, o.entries⟩ := by
  obtain ⟨hne, name, hinfo⟩ := h
  rw [hinfo]
  exact ⟨rfl, hne, rfl, rfl⟩

theorem FlushedFor.level_eq {c : GcChoices} {source : TableMeta} {o : GcOutput}
    (h : FlushedFor c source o) :
    o.info.level = source.level ∧ o.info.createdAt = source.createdAt := by
  obtain ⟨-, name, hinfo⟩ := h
  rw [hinfo]
  exact ⟨rfl, rfl⟩

/-! ## Levels stay free of overlap -/

/-- Outputs that lie apart wherever a level must be free of overlap. -/
def LevelApart (a b : TableMeta) : Prop := a.level ≠ 0 → a.level = b.level → Apart a b

theorem forall₂_exists_left {α β : Type*} {r : α → β → Prop} {as : List α} {bs : List β}
    (h : List.Forall₂ r as bs) {b : β} (hb : b ∈ bs) : ∃ a ∈ as, r a b := by
  induction h with
  | nil => simp at hb
  | cons hr _ ih =>
    rcases List.mem_cons.mp hb with rfl | hb
    · exact ⟨_, List.mem_cons_self, hr⟩
    · obtain ⟨a, ha, hab⟩ := ih hb
      exact ⟨a, List.mem_cons_of_mem _ ha, hab⟩

theorem forall₂_pairwise {α β : Type*} {r : α → β → Prop} {p : α → α → Prop} {q : β → β → Prop}
    {as : List α} {bs : List β} (h : List.Forall₂ r as bs) (hp : as.Pairwise p)
    (hpq : ∀ a a' b b', r a b → r a' b' → p a a' → q b b') : bs.Pairwise q := by
  induction h with
  | nil => exact List.Pairwise.nil
  | cons hr hrest ih =>
    obtain ⟨hhead, htail⟩ := List.pairwise_cons.mp hp
    refine List.pairwise_cons.mpr ⟨fun b' hb' => ?_, ih htail⟩
    obtain ⟨a', ha', hr'⟩ := forall₂_exists_left hrest hb'
    exact hpq _ a' _ b' hr hr' (hhead a' ha')

/-- The bounds of an output are keys of its source. -/
theorem GroupFor.bounds_mem {c : GcChoices} {source : TableMeta × Table} {g : List GcOutput}
    (hg : GroupFor c source g) {o : GcOutput} (ho : o ∈ g) {k v : Bytes}
    (hk : (k, v) ∈ o.entries.entries) : ∃ w, source.2.find k = some w := by
  have hmem : k ∈ (outputEntries g).map Prod.fst :=
    List.mem_map.mpr ⟨(k, v), List.mem_flatMap.mpr ⟨o, ho, hk⟩, rfl⟩
  obtain ⟨e, he, rfl⟩ := List.mem_map.mp (hg.keys.subset hmem)
  exact ⟨e.2, OrdMap.get_eq_some_iff.mpr he⟩

/-- An output lies inside the range of its source. -/
theorem GroupFor.range_le {c : GcChoices} {source : TableMeta × Table} {g : List GcOutput}
    (hg : GroupFor c source g) (hd : Describes source.1 source.2) {o : GcOutput} (ho : o ∈ g) :
    source.1.smallest ≤ o.info.smallest ∧ o.info.largest ≤ source.1.largest := by
  obtain ⟨⟨v, hv⟩, w, hw⟩ := (hg.flushed o ho).describes.bounds_mem
  obtain ⟨v', hv'⟩ := hg.bounds_mem ho (OrdMap.get_eq_some_iff.mp hv)
  obtain ⟨w', hw'⟩ := hg.bounds_mem ho (OrdMap.get_eq_some_iff.mp hw)
  exact ⟨(hd.bounds hv').1, (hd.bounds hw').2⟩

/-- The outputs of one source follow one another. -/
theorem GroupFor.pairwise {c : GcChoices} {source : TableMeta × Table} {g : List GcOutput}
    (hg : GroupFor c source g) : g.Pairwise fun o o' => o.info.largest < o'.info.smallest := by
  have hsorted : ((outputEntries g).map Prod.fst).Pairwise (· < ·) :=
    (List.pairwise_map.mpr source.2.entries.sorted).sublist hg.keys
  rw [List.pairwise_map, outputEntries, List.pairwise_flatMap] at hsorted
  refine hsorted.2.imp_of_mem fun {o o'} ho ho' hlt => ?_
  obtain ⟨-, w, hw⟩ := (hg.flushed o ho).describes.bounds_mem
  obtain ⟨⟨v, hv⟩, -⟩ := (hg.flushed o' ho').describes.bounds_mem
  exact hlt (_, w) (OrdMap.get_eq_some_iff.mp hw) (_, v) (OrdMap.get_eq_some_iff.mp hv)

theorem WellFormed.scanSources_pairwise {files : TableFiles} {ms : List TableMeta}
    (h : WellFormed files ms) : (scanSources files ms).Pairwise fun a b =>
      Describes a.1 a.2 ∧ Describes b.1 b.2 ∧ LevelApart a.1 b.1 := by
  have hperm := orderTableMetaForManifest_perm h.distinct
  rw [scanSources, List.pairwise_map]
  -- the names are distinct, so the manifest lists no table twice
  have hnodup : (orderTableMetaForManifest ms).Nodup := hperm.nodup_iff.mpr h.distinct.nodup
  refine hnodup.imp_of_mem fun {a b} ha hb hne => ?_
  have ha' := hperm.subset ha
  have hb' := hperm.subset hb
  refine ⟨h.describes a ha', h.describes b hb', fun hl hlevel => ?_⟩
  exact (h.disjoint a.level hl).forall (List.mem_filter.mpr ⟨ha', by simp⟩)
    (List.mem_filter.mpr ⟨hb', by simpa using hlevel.symm⟩) hne

/-- **The outputs of well-formed sources are apart on every level below the first.** -/
theorem outputs_levelApart {c : GcChoices} {sources : List (TableMeta × Table)}
    {groups : List (List GcOutput)} (hg : List.Forall₂ (GroupFor c) sources groups)
    (hs : sources.Pairwise fun a b => Describes a.1 a.2 ∧ Describes b.1 b.2 ∧ LevelApart a.1 b.1) :
    (outputMetas groups.flatten).Pairwise LevelApart := by
  rw [outputMetas, List.pairwise_map, List.pairwise_flatten]
  -- outputs of one table ascend; outputs of two tables stay within the ranges of their sources
  refine ⟨fun g hmem => ?_, forall₂_pairwise hg hs ?_⟩
  · obtain ⟨source, -, hgroup⟩ := forall₂_exists_left hg hmem
    exact hgroup.pairwise.imp fun hlt _ _ => .inl hlt
  · rintro a a' g g' hgroup hgroup' ⟨hd, hd', hapart⟩ o ho o' ho' hl hlevel
    rw [(hgroup.flushed o ho).level_eq.1] at hl hlevel
    rw [(hgroup'.flushed o' ho').level_eq.1] at hlevel
    obtain ⟨hlo, hhi⟩ := hgroup.range_le hd ho
    obtain ⟨hlo', hhi'⟩ := hgroup'.range_le hd' ho'
    refine (hapart hl hlevel).imp (fun hlt => ?_) fun hlt => ?_
    · exact hhi.trans_lt (hlt.trans_le hlo')
    · exact hhi'.trans_lt (hlt.trans_le hlo)

/-! ## What a run produces -/

theorem getList_of_nodup {es : List (Bytes × Bytes)} (hn : (es.map Prod.fst).Nodup) {k v : Bytes} :
    getList k es = some v ↔ (k, v) ∈ es := by
  induction es with
  | nil => simp [getList]
  | cons e es ih =>
    obtain ⟨hnot, hn⟩ := List.nodup_cons.mp hn
    rw [getList]
    -- the first entry with the key is the only one
    split_ifs with hk
    · subst hk
      have hnew : (e.1, v) ∉ es := fun hmem => hnot (List.mem_map.mpr ⟨_, hmem, rfl⟩)
      simp [hnew, Prod.ext_iff, eq_comm]
    · rw [ih hn, List.mem_cons, Prod.ext_iff]
      simp [Ne.symm hk]

/-- What `rebuildLiveState` leaves of a store: `os` are the outputs, `log` is the new value log, and
`levels` and `levels'` are the levels before and after. -/
structure LiveCopy (files : TableFiles) (ms : List TableMeta) (oldVlog : Log)
    (levels : List LevelState) (os : List GcOutput) (log : Log) (levels' : List LevelState) :
    Prop where
  /-- The outputs are a store of their own, with no overlap on levels below the first. -/
  wellFormed : WellFormed (outputFiles os) (outputMetas os)
  /-- Every key resolves as before. -/
  view_eq : ∀ k, readStoredValue log (lookupLevels Table.find levels' k) =
    readStoredValue oldVlog (lookupLevels Table.find levels k)
  /-- A live key occurs once in all outputs together, and a deleted or missing key nowhere. -/
  count_eq : ∀ k, ((outputEntries os).map Prod.fst).count k =
    if readStoredValue oldVlog (lookupLevels Table.find levels k) = .ok none then 0 else 1
  no_tombstone : ∀ e ∈ outputEntries os, e.2 ≠ tombstoneValue
  /-- Every reference in the outputs points to the record of its key in the new log. -/
  references : ∀ e ∈ outputEntries os, ∀ ref, decodeValueRef e.2 = some ref →
    ∃ v, Stored log ref e.1 v
  /-- Every output has the level and the age of a table that held all its keys. -/
  sources : ∀ o ∈ os, ∃ m ∈ ms, o.info.level = m.level ∧ o.info.createdAt = m.createdAt ∧
    ∀ e ∈ o.entries.entries, ∃ v, (tableOf files m).find e.1 = some v

/-- The outputs of a run are a well-formed store. -/
theorem outputs_wellFormed {c : GcChoices} {sources : List (TableMeta × Table)}
    {groups : List (List GcOutput)} (hnames : DistinctNames (outputMetas groups.flatten))
    (hg : List.Forall₂ (GroupFor c) sources groups)
    (hapart : (outputMetas groups.flatten).Pairwise LevelApart) :
    WellFormed (outputFiles groups.flatten) (outputMetas groups.flatten) where
  distinct := hnames
  present := by
    intro m hm
    obtain ⟨o, ho, rfl⟩ := List.mem_map.mp hm
    rw [get_outputFiles hnames ho]
    rfl
  describes := by
    intro m hm
    obtain ⟨o, ho, rfl⟩ := List.mem_map.mp hm
    obtain ⟨g, hgroup, ho'⟩ := List.mem_flatten.mp ho
    obtain ⟨source, -, hfor⟩ := forall₂_exists_left hg hgroup
    rw [tableOf_outputFiles hnames ho]
    exact (hfor.flushed o ho').describes
  -- being apart is what `LevelApart` says of two outputs of one level below the first
  disjoint := by
    intro level hl
    refine (hapart.filter _).imp_of_mem fun {a b} ha hb hab => ?_
    have hal : a.level = level := by simpa using List.of_mem_filter ha
    have hbl : b.level = level := by simpa using List.of_mem_filter hb
    exact hab (hal ▸ hl) (hal.trans hbl.symm)

/-- A lookup in the outputs finds exactly their entries. -/
theorem lookupLevels_outputs {os : List GcOutput}
    (h : WellFormed (outputFiles os) (outputMetas os))
    (hkeys : ((outputEntries os).map Prod.fst).Nodup) {k stored : Bytes} :
    lookupLevels Table.find (levelsOf (outputFiles os) (outputMetas os)) k = some stored ↔
      (k, stored) ∈ outputEntries os := by
  -- the manifest orders the outputs anew, but they stay the same entries
  have hperm : (scanEntries (scanSources (outputFiles os) (outputMetas os))).Perm
      (outputEntries os) := by
    have hflat : outputEntries os = (outputMetas os).flatMap fun m =>
        (tableOf (outputFiles os) m).entries.entries := by
      rw [outputEntries, outputMetas, List.flatMap_map]
      refine List.flatMap_congr fun o ho => ?_
      rw [tableOf_outputFiles h.distinct ho]
    rw [hflat, scanEntries, scanSources, List.flatMap_map]
    exact (orderTableMetaForManifest_perm h.distinct).flatMap_right _
  rw [h.lookupLevels_eq, getList_of_nodup (((hperm.map _).nodup_iff).mpr hkeys), hperm.mem_iff]

/-- What resolves through a log has a length that the header fields hold. -/
theorem length_of_resolveStoredValue {log : Log} {stored v : Bytes}
    (h : resolveStoredValue log stored = .ok (some v)) (hlen : stored.length < 2 ^ 32) :
    v.length < 2 ^ 32 := by
  unfold resolveStoredValue at h
  split_ifs at h with ht
  · simp at h
  -- an inline value is what is stored; behind a reference the field of the length has 32 bits
  · cases hd : decodeValueRef stored with
    | none =>
      simp only [hd, Except.ok.injEq, Option.some.injEq] at h
      exact h ▸ hlen
    | some ref =>
      simp only [hd] at h
      cases hread : log.readValue ref with
      | error err => simp [hread] at h
      | ok w =>
        simp only [hread, Except.ok.injEq, Option.some.injEq] at h
        rw [← h, Log.length_of_readValue hread]
        exact ref.valueLen.toNat_lt

section Live

variable {files : TableFiles} {ms : List TableMeta} {oldVlog : Log}

/-- The live entries are the keys and values of the old view. -/
theorem WellFormed.mem_liveOf_iff (h : WellFormed files ms) {k v : Bytes} :
    (k, v) ∈ liveOf oldVlog [] (scanEntries (scanSources files ms)) ↔
      readStoredValue oldVlog (lookupLevels Table.find (levelsOf files ms) k) = .ok (some v) := by
  rw [mem_liveOf, ← h.lookupLevels_eq]
  cases lookupLevels Table.find (levelsOf files ms) k with
  | none => simp [readStoredValue]
  | some stored =>
    cases hr : resolveStoredValue oldVlog stored <;>
      simp [readStoredValue, Except.mapError, hr]

/-- Every live entry can be stored again. -/
theorem WellFormed.rewritable (h : WellFormed files ms)
    (hfits : ∀ m ∈ ms, ∀ e ∈ (tableOf files m).entries.entries, LengthsFit e)
    (hplain : ∀ k v, readStoredValue oldVlog (lookupLevels Table.find (levelsOf files ms) k) =
      .ok (some v) → v ≠ tombstoneValue ∧ decodeValueRef v = none) {l : Bytes × Bytes}
    (hl : l ∈ liveOf oldVlog [] (scanEntries (scanSources files ms))) : Rewritable l := by
  obtain ⟨k, v⟩ := l
  obtain ⟨ht, hd⟩ := hplain k v (h.mem_liveOf_iff.mp hl)
  obtain ⟨-, stored, hget, hr⟩ := mem_liveOf.mp hl
  obtain ⟨source, hsource, hmem⟩ := List.mem_flatMap.mp (mem_of_getList hget)
  obtain ⟨m, hm, rfl⟩ := List.mem_map.mp hsource
  obtain ⟨hkey, hval⟩ := hfits m ((orderTableMetaForManifest_perm h.distinct).subset hm) _ hmem
  exact ⟨ht, hd, hkey, length_of_resolveStoredValue hr hval⟩

/-- A stored entry of a live value is no tombstone. -/
theorem Carries.ne_tombstoneValue {log : Log} {key stored value : Bytes}
    (h : Carries log key stored value) (hv : value ≠ tombstoneValue) : stored ≠ tombstoneValue := by
  cases h with
  | tombstone => exact hv
  | inline ht _ => exact ht
  | logged ht hs hfit =>
    intro heq
    have href := decodeValueRef_encodeValueRef ‹_›
    rw [heq, decodeValueRef_tombstoneValue] at href
    simp at href

/-- A stored reference of a live value points to its record. -/
theorem Carries.stored {log : Log} {key stored value : Bytes} {ref : ValueRef}
    (h : Carries log key stored value) (href : decodeValueRef stored = some ref) :
    Stored log ref key value := by
  cases h with
  | tombstone => simp at href
  | inline ht hd => simp [hd] at href
  | logged ht hs hfit =>
    rw [decodeValueRef_encodeValueRef] at href
    exact Option.some.inj href ▸ hs

/-- A key whose selected entry resolves, but to no value, is read as absent. -/
theorem readStoredValue_of_ne {sel : Option Bytes}
    (hresolves : ∀ stored, sel = some stored → ∃ r, resolveStoredValue oldVlog stored = .ok r)
    (hne : ∀ v, readStoredValue oldVlog sel ≠ .ok (some v)) :
    readStoredValue oldVlog sel = .ok none := by
  cases sel with
  | none => rfl
  | some stored =>
    obtain ⟨r, hr⟩ := hresolves stored rfl
    have hread : readStoredValue oldVlog (some stored) = .ok r := by
      simp [readStoredValue, hr, Except.mapError]
    cases r with
    | none => exact hread
    | some v => exact absurd hread (hne v)

section Done

variable {c : GcChoices} {newVlog : Log} {s : Rebuild}
  (hdone : Rebuilt c oldVlog (scanSources files ms) ⟨[], newVlog, OrdMap.empty, 0, []⟩ s)
  (h : WellFormed files ms)

include hdone

theorem Rebuilt.outputs_eq : ∃ groups : List (List GcOutput), s.flushed = groups.flatten ∧
    List.Forall₂ (GroupFor c) (scanSources files ms) groups ∧
    List.Forall₂ (Rewritten s.log) (outputEntries s.flushed)
      (liveOf oldVlog [] (scanEntries (scanSources files ms))) := by
  obtain ⟨groups, hflushed, hgroups, hall⟩ := hdone.outputs
  rw [List.nil_append] at hflushed
  exact ⟨groups, hflushed, hgroups, hflushed ▸ hall⟩

theorem Rebuilt.distinctNames
    (hnames : ∀ i j name, c.flush i = some name → c.flush j = some name → i = j) :
    DistinctNames (outputMetas s.flushed) := by
  have hnamed : NamedBy c s.flushed := hdone.named fun i o ho => by simp at ho
  exact hnamed.distinctNames hnames

theorem Rebuilt.keys_nodup : ((outputEntries s.flushed).map Prod.fst).Nodup := by
  obtain ⟨-, -, -, hall⟩ := hdone.outputs_eq
  rw [Rewritten.keys_eq hall]
  exact liveOf_keys_nodup _ _ _

include h

/-- Every output entry carries the live value of its key. -/
theorem Rebuilt.carries
    (hrew : ∀ l ∈ liveOf oldVlog [] (scanEntries (scanSources files ms)), Rewritable l)
    {e : Bytes × Bytes} (he : e ∈ outputEntries s.flushed) : ∃ v,
    readStoredValue oldVlog (lookupLevels Table.find (levelsOf files ms) e.1) = .ok (some v) ∧
      Carries s.log e.1 e.2 v := by
  obtain ⟨-, -, -, hall⟩ := hdone.outputs_eq
  obtain ⟨⟨k, v⟩, hl, hkey, hc⟩ := forall₂_exists_left hall.flip he
  dsimp only at hkey hc
  subst hkey
  exact ⟨v, h.mem_liveOf_iff.mp hl, hc (hrew _ hl)⟩

/-- Every live key has an output entry. -/
theorem Rebuilt.exists_output {k v : Bytes}
    (hv : readStoredValue oldVlog (lookupLevels Table.find (levelsOf files ms) k) =
      .ok (some v)) : ∃ stored, (k, stored) ∈ outputEntries s.flushed := by
  obtain ⟨-, -, -, hall⟩ := hdone.outputs_eq
  obtain ⟨⟨k', stored⟩, ho, hkey, -⟩ := forall₂_exists_left hall (h.mem_liveOf_iff.mpr hv)
  dsimp only at hkey
  exact ⟨stored, hkey ▸ ho⟩

theorem Rebuilt.wellFormed (hdistinct : DistinctNames (outputMetas s.flushed)) :
    WellFormed (outputFiles s.flushed) (outputMetas s.flushed) := by
  obtain ⟨groups, hflushed, hgroups, -⟩ := hdone.outputs_eq
  rw [hflushed] at hdistinct ⊢
  exact outputs_wellFormed hdistinct hgroups (outputs_levelApart hgroups h.scanSources_pairwise)

/-- **View equality needs distinct names.** Of two outputs with one name the first is written over, and
its keys, which no other output holds, are lost. -/
theorem Rebuilt.distinctNames_of_view
    (hrew : ∀ l ∈ liveOf oldVlog [] (scanEntries (scanSources files ms)), Rewritable l)
    (hview : ∀ k, readStoredValue s.log (lookupLevels Table.find (levelsOf (outputFiles s.flushed)
        (outputMetas s.flushed)) k) =
      readStoredValue oldVlog (lookupLevels Table.find (levelsOf files ms) k)) :
    DistinctNames (outputMetas s.flushed) := by
  by_contra hdup
  obtain ⟨as, o, bs, hsplit, hover⟩ := exists_overwritten hdup
  -- a key of the output that is written over
  obtain ⟨groups, hflushed, hgroups, -⟩ := hdone.outputs_eq
  have ho : o ∈ s.flushed := by simp [hsplit]
  obtain ⟨g, hg, ho'⟩ := List.mem_flatten.mp (hflushed ▸ ho)
  obtain ⟨source, -, hfor⟩ := forall₂_exists_left hgroups hg
  obtain ⟨e, he⟩ := List.exists_mem_of_ne_nil _ (hfor.flushed o ho').1
  obtain ⟨v, hv, -⟩ := hdone.carries h hrew (List.mem_flatMap.mpr ⟨o, ho, he⟩)
  have hlost := lookupLevels_overwritten (hsplit ▸ hdone.keys_nodup) hover he
  rw [← hsplit] at hlost
  have hbad := hview e.1
  rw [hlost, hv] at hbad
  simp [readStoredValue] at hbad

/-- **A finished scan leaves a copy of the live entries.** -/
theorem Rebuilt.liveCopy
    (hrew : ∀ l ∈ liveOf oldVlog [] (scanEntries (scanSources files ms)), Rewritable l)
    (hresolves : ∀ k stored, lookupLevels Table.find (levelsOf files ms) k = some stored →
      ∃ r, resolveStoredValue oldVlog stored = .ok r)
    (hplain : ∀ k v, readStoredValue oldVlog (lookupLevels Table.find (levelsOf files ms) k) =
      .ok (some v) → v ≠ tombstoneValue ∧ decodeValueRef v = none)
    (hdistinct : DistinctNames (outputMetas s.flushed)) (hopen : newVlog.closed = false) :
    LiveCopy files ms oldVlog (levelsOf files ms) s.flushed s.log
      (levelsOf (outputFiles s.flushed) (outputMetas s.flushed)) := by
  have hlog : s.log.closed = false := hdone.closed.trans hopen
  have hwf := hdone.wellFormed h hdistinct
  have hkeys := hdone.keys_nodup
  have hdead := fun k => readStoredValue_of_ne (hresolves k)
  refine ⟨hwf, fun k => ?_, fun k => ?_, fun e he => ?_, fun e he ref href => ?_, fun o ho => ?_⟩
  -- the view: an output has what the key meant, and without an output the key meant nothing
  · cases hsel : lookupLevels Table.find (levelsOf (outputFiles s.flushed)
        (outputMetas s.flushed)) k with
    | some stored =>
      obtain ⟨v, hv, hc⟩ := hdone.carries h hrew ((lookupLevels_outputs hwf hkeys).mp hsel)
      have hmeaning : meaning v = some v :=
        if_neg (by simpa [isTombstoneValue] using (hplain k v hv).1)
      rw [hv, readStoredValue, hc.resolveStoredValue hlog, hmeaning]
      rfl
    | none =>
      refine (hdead k fun v hv => ?_).symm
      obtain ⟨stored, hmem⟩ := hdone.exists_output h hv
      rw [(lookupLevels_outputs hwf hkeys).mpr hmem] at hsel
      exact Option.some_ne_none _ hsel
  -- each live key is in the outputs once, a dead one not at all
  · split_ifs with hnone
    · refine List.count_eq_zero.mpr fun hmem => ?_
      obtain ⟨e, he, rfl⟩ := List.mem_map.mp hmem
      obtain ⟨v, hv, -⟩ := hdone.carries h hrew he
      rw [hnone] at hv
      simp at hv
    · obtain ⟨v, hv⟩ : ∃ v, readStoredValue oldVlog
          (lookupLevels Table.find (levelsOf files ms) k) = .ok (some v) := by
        by_contra hno
        exact hnone (hdead k fun v hv => hno ⟨v, hv⟩)
      obtain ⟨stored, hmem⟩ := hdone.exists_output h hv
      exact List.count_eq_one_of_mem hkeys (List.mem_map.mpr ⟨_, hmem, rfl⟩)
  · obtain ⟨v, hv, hc⟩ := hdone.carries h hrew he
    exact hc.ne_tombstoneValue (hplain e.1 v hv).1
  · obtain ⟨v, -, hc⟩ := hdone.carries h hrew he
    exact ⟨v, hc.stored href⟩
  -- an output has the level and the age of the table it was copied from, and keys of its range
  · obtain ⟨groups, hflushed, hgroups, -⟩ := hdone.outputs_eq
    obtain ⟨g, hg, ho'⟩ := List.mem_flatten.mp (hflushed ▸ ho)
    obtain ⟨source, hsource, hfor⟩ := forall₂_exists_left hgroups hg
    obtain ⟨m, hm, rfl⟩ := List.mem_map.mp hsource
    obtain ⟨hlevel, hage⟩ := (hfor.flushed o ho').level_eq
    exact ⟨m, (orderTableMetaForManifest_perm h.distinct).subset hm, hlevel, hage,
      fun e he => hfor.bounds_mem ho' he⟩

end Done

/-- **Value-log GC preserves meaning and leaves only live data, unless two outputs get one name.** The
tables are a well-formed store in the format of the table files, every entry a lookup selects resolves
through the old log, and no live value has the shape of a tombstone or a reference. Then a run that
returns no error leaves a copy of the live entries exactly if the names of the outputs are distinct,
and so for the view alone: if they are not, some live key is lost. Clock readings that do not repeat
give distinct names. -/
theorem rebuildLiveState_liveCopy_iff (h : WellFormed files ms) {levels : List LevelState}
    (hload : loadLevels files ms = some levels)
    (hfits : ∀ m ∈ ms, ∀ e ∈ (tableOf files m).entries.entries, LengthsFit e)
    (hresolves : ∀ k stored, lookupLevels Table.find levels k = some stored →
      ∃ r, resolveStoredValue oldVlog stored = .ok r)
    (hplain : ∀ k v, readStoredValue oldVlog (lookupLevels Table.find levels k) = .ok (some v) →
      v ≠ tombstoneValue ∧ decodeValueRef v = none)
    {c : GcChoices} {newVlog : Log} (hopen : newVlog.closed = false)
    {valueThreshold memtableMaxBytes : ℕ} {s : Rebuild}
    (hrun : rebuildLiveState c valueThreshold memtableMaxBytes oldVlog levels newVlog = .ok s) :
    ((∃ levels', loadLevels (outputFiles s.flushed) (outputMetas s.flushed) = some levels' ∧
        LiveCopy files ms oldVlog levels s.flushed s.log levels') ↔
      DistinctNames (outputMetas s.flushed)) ∧
    ((∃ levels', loadLevels (outputFiles s.flushed) (outputMetas s.flushed) = some levels' ∧
        ∀ k, readStoredValue s.log (lookupLevels Table.find levels' k) =
          readStoredValue oldVlog (lookupLevels Table.find levels k)) ↔
      DistinctNames (outputMetas s.flushed)) ∧
    ((∀ i j name, c.flush i = some name → c.flush j = some name → i = j) →
      DistinctNames (outputMetas s.flushed)) := by
  obtain rfl : levelsOf files ms = levels := Option.some.inj (h.loadLevels_eq ▸ hload)
  -- the scan over the levels is a fold over the tables in the order of the manifest
  rw [rebuildLiveState_eq, flatMap_levelsOf] at hrun
  have hdone := foldlM_rebuildTable hrun
  have hrew := fun l hl => h.rewritable hfits hplain (l := l) hl
  -- with distinct names no output is overwritten, so the tables that load are the outputs
  have hcopy : DistinctNames (outputMetas s.flushed) → ∃ levels',
      loadLevels (outputFiles s.flushed) (outputMetas s.flushed) = some levels' ∧
        LiveCopy files ms oldVlog (levelsOf files ms) s.flushed s.log levels' := by
    intro hdistinct
    have hcopy := hdone.liveCopy h hrew hresolves hplain hdistinct hopen
    exact ⟨_, hcopy.wellFormed.loadLevels_eq, hcopy⟩
  refine ⟨⟨fun ⟨_, _, hlive⟩ => hlive.wellFormed.distinct, hcopy⟩, ⟨?_, fun hdistinct => ?_⟩,
    fun hnames => hdone.distinctNames hnames⟩
  -- outputs always load, but of two with one name a key of the overwritten one is lost
  · rintro ⟨levels', hload', hview⟩
    rw [loadLevels_of_present (outputFiles_present _)] at hload'
    obtain rfl := Option.some.inj hload'
    exact hdone.distinctNames_of_view h hrew hview
  · obtain ⟨levels', hload', hlive⟩ := hcopy hdistinct
    exact ⟨levels', hload', hlive.view_eq⟩

end Live

/-- Two levels: the newer table deletes the first key and adds the second. -/
def sampleMetas : List TableMeta :=
  [⟨sstableID 2, 0, [97], [98], 2⟩, ⟨sstableID 1, 1, [97], [99], 1⟩]

/-- Their files. -/
def sampleFiles : TableFiles :=
  (OrdMap.empty.insert (sstableID 1) ⟨[([97], [120]), ([99], [7])], by decide⟩).insert (sstableID 2)
    ⟨[([97], tombstoneValue), ([98], [1, 2, 3])], by decide⟩

/-- Increasing clock readings, and no failures. -/
def sampleChoices : GcChoices :=
  ⟨fun n => (UInt64.ofNat n + 2, none), fun n => some (sstableID (n + 3)), 0⟩

theorem sampleFiles_wellFormed : WellFormed sampleFiles sampleMetas where
  distinct := by decide
  present := by decide
  describes := by
    simp only [sampleMetas, List.forall_mem_cons, List.not_mem_nil, false_imp_iff, implies_true,
      and_true]
    exact ⟨⟨rfl, by decide, by decide, by decide⟩, ⟨rfl, by decide, by decide, by decide⟩⟩
  disjoint := by
    intro level hl
    by_cases h1 : level = 1
    · subst h1
      simp [sampleMetas]
    · simp [sampleMetas, hl.symm, Ne.symm h1]

/-- A lookup in the sample selects a tombstone or a plain value. -/
theorem sample_select {k stored : Bytes}
    (h : lookupLevels Table.find (levelsOf sampleFiles sampleMetas) k = some stored) :
    stored = tombstoneValue ∨ decodeValueRef stored = none ∧ stored ≠ tombstoneValue := by
  have hall : ∀ e ∈ scanEntries (scanSources sampleFiles sampleMetas), e.2 = tombstoneValue ∨
      decodeValueRef e.2 = none ∧ e.2 ≠ tombstoneValue := by decide +kernel
  rw [sampleFiles_wellFormed.lookupLevels_eq] at h
  exact hall _ (mem_of_getList h)

theorem sample_resolves {log : Log} {k stored : Bytes}
    (h : lookupLevels Table.find (levelsOf sampleFiles sampleMetas) k = some stored) :
    ∃ r, resolveStoredValue log stored = .ok r := by
  rcases sample_select h with rfl | ⟨hd, ht⟩
  · exact ⟨none, resolveStoredValue_tombstoneValue _⟩
  · exact ⟨some stored, by simp [resolveStoredValue, isTombstoneValue, ht, hd]⟩

theorem sample_plain {log : Log} {k v : Bytes}
    (h : readStoredValue log (lookupLevels Table.find (levelsOf sampleFiles sampleMetas) k) =
      .ok (some v)) : v ≠ tombstoneValue ∧ decodeValueRef v = none := by
  cases hsel : lookupLevels Table.find (levelsOf sampleFiles sampleMetas) k with
  | none => simp [hsel, readStoredValue] at h
  | some stored =>
    rw [hsel] at h
    rcases sample_select hsel with rfl | ⟨hd, ht⟩
    · simp [readStoredValue, Except.mapError] at h
    · have hres : resolveStoredValue log stored = .ok (some stored) := by
        simp [resolveStoredValue, isTombstoneValue, ht, hd]
      simp only [readStoredValue, hres, Except.mapError, Except.ok.injEq, Option.some.injEq] at h
      exact h ▸ ⟨ht, hd⟩

theorem sample_fits : ∀ m ∈ sampleMetas, ∀ e ∈ (tableOf sampleFiles m).entries.entries,
    LengthsFit e := by
  unfold LengthsFit
  decide

theorem rebuildLiveState_liveCopy_iff_sample : ∃ s levels',
    rebuildLiveState sampleChoices 2 100 (Log.openEmpty 100 1) (levelsOf sampleFiles sampleMetas)
        (Log.openEmpty 100 1) = .ok s ∧
      loadLevels (outputFiles s.flushed) (outputMetas s.flushed) = some levels' ∧
      LiveCopy sampleFiles sampleMetas (Log.openEmpty 100 1) (levelsOf sampleFiles sampleMetas)
        s.flushed s.log levels' := by
  have hok : (rebuildLiveState sampleChoices 2 100 (Log.openEmpty 100 1)
      (levelsOf sampleFiles sampleMetas) (Log.openEmpty 100 1)).isOk = true := by decide +kernel
  cases hrun : rebuildLiveState sampleChoices 2 100 (Log.openEmpty 100 1)
      (levelsOf sampleFiles sampleMetas) (Log.openEmpty 100 1) with
  | error err => simp [hrun, Except.isOk, Except.toBool] at hok
  | ok s =>
    have hnames : ∀ i j name, sampleChoices.flush i = some name →
        sampleChoices.flush j = some name → i = j := by
      intro i j name hi hj
      have hij := sstableID_injective ((Option.some.inj hi).trans (Option.some.inj hj).symm)
      omega
    obtain ⟨hcopy, -, hclock⟩ := rebuildLiveState_liveCopy_iff sampleFiles_wellFormed
      sampleFiles_wellFormed.loadLevels_eq sample_fits (fun _ _ => sample_resolves)
      (fun _ _ => sample_plain) rfl hrun
    obtain ⟨levels', hload, hlive⟩ := hcopy.mpr (hclock hnames)
    exact ⟨s, levels', rfl, hload, hlive⟩

/-- Both outputs are flushed in one microsecond. -/
def sameMicrosecond : GcChoices := { sampleChoices with flush := fun _ => some (sstableID 3) }

/-- The second output is written over the first, and the live key `98` is gone without an error. -/
theorem same_microsecond_loses_key : ∃ s levels',
    WellFormed sampleFiles sampleMetas ∧
      rebuildLiveState sameMicrosecond 2 100 (Log.openEmpty 100 1)
        (levelsOf sampleFiles sampleMetas) (Log.openEmpty 100 1) = .ok s ∧
      loadLevels (outputFiles s.flushed) (outputMetas s.flushed) = some levels' ∧
      readStoredValue (Log.openEmpty 100 1)
        (lookupLevels Table.find (levelsOf sampleFiles sampleMetas) [98]) = .ok (some [1, 2, 3]) ∧
      readStoredValue s.log (lookupLevels Table.find levels' [98]) = .ok none := by
  have hbefore : lookupLevels Table.find (levelsOf sampleFiles sampleMetas) [98] =
      some [1, 2, 3] := by decide +kernel
  -- the run returns no error, the outputs load, and the lookup finds nothing
  have hafter : (rebuildLiveState sameMicrosecond 2 100 (Log.openEmpty 100 1)
      (levelsOf sampleFiles sampleMetas) (Log.openEmpty 100 1)).toOption.bind (fun s =>
        (loadLevels (outputFiles s.flushed) (outputMetas s.flushed)).map fun levels' =>
          lookupLevels Table.find levels' [98]) = some none := by decide +kernel
  cases hrun : rebuildLiveState sameMicrosecond 2 100 (Log.openEmpty 100 1)
      (levelsOf sampleFiles sampleMetas) (Log.openEmpty 100 1) with
  | error err => simp [hrun, Except.toOption] at hafter
  | ok s =>
    rw [hrun] at hafter
    obtain ⟨levels', hload, hlost⟩ := Option.map_eq_some_iff.mp hafter
    refine ⟨s, levels', sampleFiles_wellFormed, rfl, hload, ?_, ?_⟩
    · rw [hbefore]
      decide +kernel
    · rw [hlost]
      rfl

end Seol
