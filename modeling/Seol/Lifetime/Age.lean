import Seol.Lifetime.Levels

/-!
# The store without its manifest

Reference: `openManifest` and `rebuildManifestStateFromDisk` in `manifest.go`. Without a manifest every
table file goes to level 0 and the files are read from the latest name to the earliest. That is the
order of the lost manifest wherever two tables share a key, as long as no compaction merged an entry
of level 1 under a table of level 0 that it left behind.
-/

namespace Seol

open Common

/-! ## Two orders of the tables -/

/-- Of two tables with a common key, a lookup asks `a` first. -/
def ReadBefore (a b : TableMeta) : Prop :=
  a.level < b.level ∨ a.level = 0 ∧ b.level = 0 ∧ newestFirst a < newestFirst b

/-- A table file with a later timestamp for its name. -/
def NamedAfter (name name' : Bytes) : Prop :=
  ∃ t t' : ℕ, t' < t ∧ name = sstableID t ∧ name' = sstableID t'

theorem NamedAfter.asymm {name name' : Bytes} (h : NamedAfter name name') :
    ¬ NamedAfter name' name := by
  rintro ⟨u, u', hu, rfl, rfl⟩
  obtain ⟨t, t', ht, heq, heq'⟩ := h
  have h₁ := sstableID_injective heq
  have h₂ := sstableID_injective heq'
  omega

/-- The tables have an entry for a common key. -/
def SharesKey (files : TableFiles) (a b : TableMeta) : Prop :=
  ∃ k, (tableOf files a).find k ≠ none ∧ (tableOf files b).find k ≠ none

theorem ReadBefore.irrefl {m : TableMeta} : ¬ ReadBefore m m := by
  rintro (hlt | ⟨-, -, hlt⟩)
  · exact lt_irrefl _ hlt
  · exact lt_irrefl _ hlt

theorem SharesKey.congr {files files' : TableFiles} {a b : TableMeta}
    (h : SharesKey files' a b) (ha : files'.get a.filename = files.get a.filename)
    (hb : files'.get b.filename = files.get b.filename) : SharesKey files a b := by
  obtain ⟨k, hka, hkb⟩ := h
  rw [tableOf, ha] at hka
  rw [tableOf, hb] at hkb
  exact ⟨k, hka, hkb⟩

/-- The order of a manifest is the read order. -/
theorem WellFormed.readBefore {files : TableFiles} {ms : List TableMeta} (h : WellFormed files ms) :
    (orderTableMetaForManifest ms).Pairwise fun a b => SharesKey files a b → ReadBefore a b := by
  have hmem : ∀ level, ∀ m ∈ levelMeta ms level, m ∈ ms ∧ m.level = level := fun level m hm =>
    mem_levelMeta.mp hm
  rw [orderTableMetaForManifest_eq, List.pairwise_flatMap]
  refine ⟨fun level _ => ?_, (levelNumbers_sorted ms).imp fun {n n'} hlt a ha b hb _ => ?_⟩
  · have hsorted : (levelMeta ms level).Pairwise (tableLE level) :=
      List.pairwise_insertionSort _ _
    refine (hsorted.and (levelMeta_nodup h.distinct level)).imp_of_mem ?_
    rintro a b ha hb ⟨hle, hne⟩ ⟨k, hka, hkb⟩
    obtain ⟨ha', hla⟩ := hmem level a ha
    obtain ⟨hb', hlb⟩ := hmem level b hb
    by_cases hl : level = 0
    · subst hl
      refine .inr ⟨hla, hlb, lt_of_le_of_ne (tableLE_zero.mp hle) fun heq => hne ?_⟩
      have hname : a.filename = b.filename := congrArg (fun x => (ofLex x).2) heq
      exact h.distinct.eq ha' hb' hname
    · -- below level 0 no two tables have a common key
      obtain ⟨v, hv⟩ := Option.ne_none_iff_exists'.mp hka
      obtain ⟨w, hw⟩ := Option.ne_none_iff_exists'.mp hkb
      exact absurd (h.unique hl ha' hb' hla hlb hv hw) hne
  · exact .inl (by rwa [(hmem n a ha).2, (hmem n' b hb).2])

/-! ## Which tables are older -/

/-- The compaction takes from level 1 no entry of a key that a table of level 0 keeps. -/
def LeavesApart (dir : Dir) (p : CompactionPlan) : Prop :=
  ∀ ms, dir.manifest = some ms → ∀ m ∈ ms, m.level = 0 → m ∉ p.sourceTables →
    ∀ t ∈ p.targetTables, ¬ SharesKey dir.tables m t

/-- Where two tables share a key, the one that is read first is the later file. -/
structure Aged (s : Tree) (ms : List TableMeta) : Prop where
  stamped : ∀ m ∈ ms, m.createdAt ≤ s.last
  ordered : ∀ a ∈ ms, ∀ b ∈ ms, ReadBefore a b → SharesKey s.dir.tables a b →
    NamedAfter a.filename b.filename

/-- Two outputs of a rewrite share no key. -/
theorem Rebuilt.disjoint {files : TableFiles} {ms : List TableMeta} {oldVlog newVlog : Vlog.Log}
    {c : GcChoices} {r : Rebuild} (h : Rebuilt c oldVlog (scanSources files ms)
      ⟨[], newVlog, OrdMap.empty, 0, []⟩ r) {o o' : GcOutput} (ho : o ∈ r.flushed)
    (ho' : o' ∈ r.flushed) (hne : o ≠ o') : DisjointMaps o.entries.get o'.entries.get := by
  have hkeys := h.keys_nodup
  rw [List.Nodup, List.pairwise_map, outputEntries, List.pairwise_flatMap] at hkeys
  -- the outputs list no key twice, so two of them cannot both have it
  have hpair : r.flushed.Pairwise fun o o' => DisjointMaps o.entries.get o'.entries.get := by
    refine hkeys.2.imp fun {o o'} hapart k => ?_
    by_contra hboth
    rw [not_or] at hboth
    obtain ⟨v, hv⟩ := Option.ne_none_iff_exists'.mp hboth.1
    obtain ⟨w, hw⟩ := Option.ne_none_iff_exists'.mp hboth.2
    exact hapart (k, v) (OrdMap.get_eq_some_iff.mp hv) (k, w) (OrdMap.get_eq_some_iff.mp hw) rfl
  have hsymm : Std.Symm fun o o' : GcOutput => DisjointMaps o.entries.get o'.entries.get :=
    ⟨fun _ _ hd => hd.symm⟩
  exact hpair.forall ho ho' hne

section Steps

variable {s s' : Tree} {ms : List TableMeta} (hs : TreeInv s ms) (ha : Aged s ms)

include hs ha

/-- **An installed table** is read first at level 0 and has the latest name. -/
theorem Aged.install {t : ℕ} {now : ℤ} {entries : OrdMap Bytes Bytes} (ht : s.last < t)
    (htime : t < 2 ^ 63) (htables : s'.dir.tables = s.dir.tables.insert (sstableID t) entries)
    (hlast : s'.last = t) :
    Aged s' (tableMetaFromSST ⟨sstableID t, entries⟩ 0 now :: orderTableMetaForManifest ms) := by
  have hmem : ∀ m, m ∈ orderTableMetaForManifest ms ↔ m ∈ ms := fun m =>
    (orderTableMetaForManifest_perm hs.wellFormed.distinct).mem_iff
  have hget : ∀ m ∈ ms, s'.dir.tables.get m.filename = s.dir.tables.get m.filename := by
    intro m hm
    obtain ⟨t', hle, hname⟩ := hs.named m hm
    have hne : sstableID t ≠ m.filename := fun heq => by
      have := sstableID_injective (heq.trans hname)
      omega
    rw [htables, OrdMap.get_insert, if_neg hne]
  rw [tableMetaFromSST_sstableID htime]
  refine ⟨List.forall_mem_cons.mpr ⟨?_, fun m hm => ?_⟩, ?_⟩
  · rw [hlast]
  · have := ha.stamped m ((hmem m).mp hm)
    omega
  · intro a hma b hmb hread hshare
    rcases List.mem_cons.mp hma with rfl | hma <;> rcases List.mem_cons.mp hmb with rfl | hmb
    · exact absurd hread ReadBefore.irrefl
    · obtain ⟨t', hle, hname⟩ := hs.named b ((hmem b).mp hmb)
      exact ⟨t, t', by omega, rfl, hname⟩
    · -- the new table is newer than any other of level 0
      rcases hread with hlt | ⟨-, -, hlt⟩
      · exact absurd hlt (Nat.not_lt_zero _)
      · have hold := ha.stamped a ((hmem a).mp hma)
        rcases Prod.Lex.toLex_lt_toLex.mp hlt with hlt | ⟨heq, -⟩
        · have hlt' : (t : ℤ) < a.createdAt := hlt
          omega
        · have heq' : a.createdAt = (t : ℤ) := heq
          omega
    · have hma' := (hmem a).mp hma
      have hmb' := (hmem b).mp hmb
      exact ha.ordered a hma' b hmb' hread (hshare.congr (hget a hma') (hget b hmb'))

omit ha in
/-- A table that stays at level 0 has no key of an input: not one of the sources, which are closed
under overlap, and not one of the targets, since the plan leaves it apart. -/
theorem LeavesApart.kept_zero {p : CompactionPlan} {first : ℕ} (hapart : LeavesApart s.dir p)
    (hp : Planned ms p first) {m : TableMeta} (hm : m ∈ ms) (hnot : m ∉ p.inputs)
    (hzero : m.level = 0) {i : TableMeta} (hi : i ∈ p.inputs) {k : Bytes}
    (hk : (tableOf s.dir.tables m).find k ≠ none) : (tableOf s.dir.tables i).find k = none := by
  by_contra hki
  rcases List.mem_append.mp hi with hsrc | htgt
  · have hfirst : first = 0 := Nat.le_zero.mp (hzero ▸ hp.lowest m hm)
    obtain ⟨u, hu⟩ := Option.ne_none_iff_exists'.mp hki
    exact hk (rest_silent hs.wellFormed hp hsrc hu
      (mem_levelMeta.mpr ⟨hm, hzero.trans hfirst.symm⟩)
      fun hin => hnot (List.mem_append_left _ hin))
  · exact hapart ms hs.manifest_eq m hm hzero
      (fun hin => hnot (List.mem_append_left _ hin)) i htgt ⟨k, hk, hki⟩

/-- **The outputs of a compaction** are the latest files, and a table left at level 0 shares no key
with them. -/
theorem Aged.compact {opts : Options} {p : CompactionPlan} {c : Choices} {inputs : List Table}
    {last : ℕ} (hplan : plan ms opts = some p) (hapart : LeavesApart s.dir p)
    (hlater : ∀ t ∈ c.times, s.last < t ∧ t ≤ last) (hle : s.last ≤ last) (htime : last < 2 ^ 63)
    (hr : Replaced s.dir.tables s'.dir.tables ms p (compactionOutputs inputs p c))
    (hlast : s'.last = last) :
    Aged s' (updatedTables ms p (compactionOutputs inputs p c) c.now) := by
  obtain ⟨first, hp⟩ := plan_planned hs.wellFormed.distinct hplan
  have hmem : ∀ m, m ∈ updatedTables ms p (compactionOutputs inputs p c) c.now ↔
      (m ∈ ms ∧ m ∉ p.inputs) ∨ m ∈ outputMeta p (compactionOutputs inputs p c) c.now := fun m => by
    rw [updatedTables, (orderTableMetaForManifest_perm
      (hr.distinctNames hs.wellFormed c.now)).mem_iff, List.mem_append,
      mem_keptTables hs.wellFormed.distinct hp]
  -- an output has a later timestamp than any table before
  have hout : ∀ m ∈ outputMeta p (compactionOutputs inputs p c) c.now,
      m.level = 1 ∧ ∃ t, s.last < t ∧ t ≤ last ∧ m.filename = sstableID t ∧ m.createdAt = t := by
    intro m hm
    obtain ⟨o, ho, rfl⟩ := List.mem_map.mp hm
    obtain ⟨t, ht, heq⟩ := List.mem_map.mp (List.of_mem_zip ho).1
    obtain ⟨hlo, hhi⟩ := hlater t ht
    refine ⟨hp.target_level, t, hlo, hhi, heq.symm, ?_⟩
    rw [tableMetaFromSST, ← heq]
    exact tableCreatedAt_sstableID (hhi.trans_lt htime) c.now
  have hkept : ∀ m ∈ ms, m ∉ p.inputs →
      s'.dir.tables.get m.filename = s.dir.tables.get m.filename := fun m hm hnot =>
    hr.kept m ((mem_keptTables hs.wellFormed.distinct hp).mpr ⟨hm, hnot⟩)
  refine ⟨fun m hm => ?_, fun a hma b hmb hread hshare => ?_⟩
  · rcases (hmem m).mp hm with ⟨hold, -⟩ | hnew
    · have := ha.stamped m hold
      omega
    · obtain ⟨-, t, -, hhi, -, heq⟩ := hout m hnew
      omega
  · rcases (hmem a).mp hma with ⟨hma, hnota⟩ | hma <;>
      rcases (hmem b).mp hmb with ⟨hmb, hnotb⟩ | hmb
    · exact ha.ordered a hma b hmb hread (hshare.congr (hkept a hma hnota) (hkept b hmb hnotb))
    · exfalso
      obtain ⟨hl, -⟩ := hout b hmb
      have hzero : a.level = 0 := by
        rcases hread with hlt | ⟨hzero, -⟩ <;> omega
      -- the common key comes from an input
      obtain ⟨k, hka, hkb⟩ := hshare
      obtain ⟨o, ho, rfl⟩ := List.mem_map.mp hmb
      rw [tableOf, hkept a hma hnota] at hka
      obtain ⟨w, hw⟩ := Option.ne_none_iff_exists'.mp hkb
      have hw' : o.2.get k = some w := by
        have hget := hr.written o ho
        simp only [tableOf, tableMetaFromSST, hget, Option.getD_some, Table.find] at hw
        exact hw
      obtain ⟨i, hi, hki⟩ := hr.key_of_input ho hw'
      exact hki (hapart.kept_zero hs hp hma hnota hzero hi hka)
    · obtain ⟨-, t, hlo, -, hname, -⟩ := hout a hma
      obtain ⟨t', hle', hname'⟩ := hs.named b hmb
      exact ⟨t, t', by omega, hname, hname'⟩
    · obtain ⟨hla, -⟩ := hout a hma
      obtain ⟨hlb, -⟩ := hout b hmb
      rcases hread with hlt | ⟨hzero, -⟩ <;> omega

/-- **After a value-log GC** no two tables share a key. -/
theorem Aged.gc {opts : Options} {c : GcChoices} {r : RewriteState} {oldNow newNow : UInt64}
    {last : ℕ} (hr : rewriteLive s.dir opts c oldNow newNow = .ok r) (hle : s.last ≤ last)
    (hdistinct : DistinctNames (outputMetas r.rebuilt.flushed))
    (htables : ∀ m ∈ outputMetas r.rebuilt.flushed,
      s'.dir.tables.get m.filename = (outputFiles r.rebuilt.flushed).get m.filename)
    (hlast : s'.last = last) :
    Aged s' (orderTableMetaForManifest (outputMetas r.rebuilt.flushed)) := by
  obtain ⟨-, newVlog, hdone⟩ := hs.rebuilt hr
  have hmem : ∀ m, m ∈ orderTableMetaForManifest (outputMetas r.rebuilt.flushed) ↔
      m ∈ outputMetas r.rebuilt.flushed := fun m =>
    (orderTableMetaForManifest_perm hdistinct).mem_iff
  refine ⟨fun m hm => ?_, fun a hma b hmb hread hshare => ?_⟩
  · obtain ⟨o, ho, rfl⟩ := List.mem_map.mp ((hmem m).mp hm)
    obtain ⟨groups, hflushed, hgroups, -⟩ := hdone.outputs_eq
    obtain ⟨g, hg, ho'⟩ := List.mem_flatten.mp (hflushed ▸ ho)
    obtain ⟨source, hsource, hfor⟩ := forall₂_exists_left hgroups hg
    obtain ⟨m, hm, rfl⟩ := List.mem_map.mp hsource
    have := ha.stamped m ((orderTableMetaForManifest_perm hs.wellFormed.distinct).subset hm)
    rw [(hfor.flushed o ho').level_eq.2]
    dsimp only
    omega
  · -- a common key would be twice among the entries of the outputs
    obtain ⟨o, ho, rfl⟩ := List.mem_map.mp ((hmem a).mp hma)
    obtain ⟨o', ho', rfl⟩ := List.mem_map.mp ((hmem b).mp hmb)
    have hne : o ≠ o' := by
      rintro rfl
      exact ReadBefore.irrefl hread
    obtain ⟨k, hka, hkb⟩ := hshare.congr (htables _ ((hmem _).mp hma)) (htables _ ((hmem _).mp hmb))
    rw [tableOf_outputFiles hdistinct ho] at hka
    rw [tableOf_outputFiles hdistinct ho'] at hkb
    rcases hdone.disjoint ho ho' hne k with hnone | hnone
    · exact absurd hnone hka
    · exact absurd hnone hkb

/-- **Every event that leaves the levels apart keeps the order of age.** -/
theorem Aged.step (hlast : s'.last < 2 ^ 63) (h : TreeStep LeavesApart s s') :
    ∃ ms', TreeInv s' ms' ∧ Aged s' ms' := by
  -- each event by its own lemma: only compactions can bring an entry past another of its key
  cases h with
  | install _ _ _ hne ht h =>
    obtain ⟨hinv, htables, heq⟩ := hs.install hne ht h
    exact ⟨_, hinv, ha.install hs ht (heq ▸ hlast) htables heq⟩
  | reopen _ h =>
    obtain ⟨htables, heq⟩ := openTree_eq h
    exact ⟨ms, hs.reopen h, heq ▸ ha.stamped, htables ▸ ha.ordered⟩
  | compact _ _ now _ hplan hallowed hin hcount hremoves hsorted hlater hle h =>
    rw [hs.openManifest_eq now] at hplan h
    obtain ⟨hinv, hr, heq⟩ := hs.compact hplan hin hcount hremoves hsorted hlater hle h
    exact ⟨_, hinv, ha.compact hs hplan hallowed hlater hle (heq ▸ hlast) hr heq⟩
  | gc _ _ _ _ _ _ _ hflush hsorted hlater hused hle hr hlist h =>
    obtain ⟨hinv, hdistinct, htables, heq⟩ := hs.gc hflush hsorted hlater hused hr hlist h
    exact ⟨_, hinv, ha.gc hs hr hle hdistinct htables heq⟩
  | data wals segments => exact ⟨ms, hs.data _ _, ha.stamped, ha.ordered⟩

end Steps

theorem TreeStep.last_le {allowed : Dir → CompactionPlan → Prop} {s s' : Tree}
    (h : TreeStep allowed s s') : s.last ≤ s'.last := by
  cases h with
  | install _ _ _ _ ht h =>
    obtain ⟨levels, -, rfl⟩ := Option.map_eq_some_iff.mp h
    exact ht.le
  | reopen _ h => exact (openTree_eq h).2.ge
  | compact _ _ _ _ _ _ _ _ _ _ _ hle h => exact (openTree_eq h).2 ▸ hle
  | gc _ _ _ _ _ _ _ _ _ _ _ hle _ _ h => exact (openTree_eq h).2 ▸ hle
  | data => exact le_rfl

theorem tree_aged {now : ℤ} {s₀ s : Tree} (h₀ : openTree Dir.empty now 0 = some s₀)
    (hrun : Relation.ReflTransGen (TreeStep LeavesApart) s₀ s) (hlast : s.last < 2 ^ 63) :
    ∃ ms, TreeInv s ms ∧ Aged s ms := by
  induction hrun with
  | refl => exact ⟨[], openTree_empty h₀, by simp, by simp⟩
  | tail _ hstep ih =>
    obtain ⟨ms, hinv, haged⟩ := ih (hstep.last_le.trans_lt hlast)
    exact haged.step hinv hlast hstep

/-! ## The rebuilt manifest -/

section Rebuild

variable {s : Tree} {ms : List TableMeta} (hs : TreeInv s ms) (now : ℤ)

include hs

/-- The rebuilt manifest has the files of the lost one. -/
theorem TreeInv.mem_rebuild (name : Bytes) :
    (∃ m ∈ rebuildManifestStateFromDisk s.dir.tables now, m.filename = name) ↔
      ∃ m ∈ ms, m.filename = name := by
  -- the rebuild reads the files, and every file is in the manifest
  have hfile : (∃ m ∈ rebuildManifestStateFromDisk s.dir.tables now, m.filename = name) ↔
      (s.dir.tables.get name).isSome := by
    rw [Option.isSome_iff_exists]
    constructor
    · rintro ⟨m, hm, rfl⟩
      obtain ⟨e, he, rfl⟩ := List.mem_map.mp hm
      exact ⟨e.2, OrdMap.get_eq_some_iff.mpr (List.mem_reverse.mp he)⟩
    · rintro ⟨entries, hget⟩
      exact ⟨_, List.mem_map_of_mem (List.mem_reverse.mpr (OrdMap.get_eq_some_iff.mp hget)), rfl⟩
  rw [hfile]
  exact ⟨hs.complete name, fun ⟨m, hm, hname⟩ => hname ▸ hs.wellFormed.present m hm⟩

theorem TreeInv.rebuild_wellFormed :
    WellFormed s.dir.tables (rebuildManifestStateFromDisk s.dir.tables now) := by
  have hget : ∀ m ∈ rebuildManifestStateFromDisk s.dir.tables now, ∃ entries,
      s.dir.tables.get m.filename = some entries ∧
        m = tableMetaFromSST ⟨m.filename, entries⟩ 0 now := by
    intro m hm
    obtain ⟨e, he, rfl⟩ := List.mem_map.mp hm
    exact ⟨e.2, OrdMap.get_eq_some_iff.mpr (List.mem_reverse.mp he), rfl⟩
  refine ⟨?_, fun m hm => ?_, fun m hm => ?_, fun level hl => ?_⟩
  · have hnames : (s.dir.tables.entries.map Prod.fst).Nodup :=
      (List.pairwise_map.mpr s.dir.tables.sorted).imp fun hlt => hlt.ne
    rw [DistinctNames, rebuildManifestStateFromDisk, List.map_map]
    rw [← List.nodup_reverse, ← List.map_reverse] at hnames
    exact hnames
  · obtain ⟨entries, heq, -⟩ := hget m hm
    rw [heq]
    rfl
  · obtain ⟨entries, heq, hmeta⟩ := hget m hm
    -- the file is not empty, since the lost manifest described it
    obtain ⟨m', hm', hname⟩ := (hs.mem_rebuild now m.filename).mp ⟨m, hm, rfl⟩
    have hdesc := (hs.wellFormed.describes m' hm').nonempty
    rw [tableOf, hname, heq] at hdesc
    rw [tableOf, heq, hmeta]
    exact ⟨rfl, hdesc, rfl, rfl⟩
  · have hnone : (rebuildManifestStateFromDisk s.dir.tables now).filter (·.level = level) = [] := by
      refine List.filter_eq_nil_iff.mpr fun m hm => ?_
      obtain ⟨entries, -, hmeta⟩ := hget m hm
      have hzero : m.level = 0 := by rw [hmeta]; rfl
      simpa [hzero] using hl.symm
    rw [hnone]
    exact List.Pairwise.nil

/-- The rebuilt manifest is read from the latest name to the earliest. -/
theorem TreeInv.rebuild_ordered (hlast : s.last < 2 ^ 63) {a b : TableMeta}
    (hma : a ∈ rebuildManifestStateFromDisk s.dir.tables now)
    (hmb : b ∈ rebuildManifestStateFromDisk s.dir.tables now) (hread : ReadBefore a b) :
    NamedAfter a.filename b.filename := by
  -- the rebuild puts every table on level 0 and takes its time from the name
  have htime : ∀ m ∈ rebuildManifestStateFromDisk s.dir.tables now, m.level = 0 ∧
      ∃ t : ℕ, m.filename = sstableID t ∧ m.createdAt = t := by
    intro m hm
    obtain ⟨m', hm', hname⟩ := (hs.mem_rebuild now m.filename).mp ⟨m, hm, rfl⟩
    obtain ⟨t, hle, hname'⟩ := hs.named m' hm'
    have heq : m.filename = sstableID t := hname.symm.trans hname'
    obtain ⟨e, -, rfl⟩ := List.mem_map.mp hm
    refine ⟨rfl, t, heq, ?_⟩
    have hpath : e.1 = sstableID t := heq
    rw [tableMetaFromSST, hpath]
    exact tableCreatedAt_sstableID (hle.trans_lt hlast) now
  obtain ⟨hla, t, hname, hcreated⟩ := htime a hma
  obtain ⟨hlb, t', hname', hcreated'⟩ := htime b hmb
  rcases hread with hlt | ⟨-, -, hlt⟩
  · omega
  -- two names with one time would be one name
  · rcases Prod.Lex.toLex_lt_toLex.mp hlt with hlt | ⟨heq, hlt⟩
    · have hlt' : b.createdAt < a.createdAt := hlt
      exact ⟨t, t', by omega, hname, hname'⟩
    · have heq' : a.createdAt = b.createdAt := heq
      have hnames : b.filename < a.filename := hlt
      rw [hname, hname', show t = t' by omega] at hnames
      exact absurd hnames (lt_irrefl _)

end Rebuild

/-- Two manifests of the same files select the same entries if both read later files first. -/
theorem lookupLevels_eq_of_ordered {files : TableFiles} {ms ms' : List TableMeta}
    (h : WellFormed files ms) (h' : WellFormed files ms')
    (hmem : ∀ name, (∃ m ∈ ms, m.filename = name) ↔ ∃ m ∈ ms', m.filename = name)
    (hord : ∀ a ∈ ms, ∀ b ∈ ms, ReadBefore a b → SharesKey files a b →
      NamedAfter a.filename b.filename)
    (hord' : ∀ a ∈ ms', ∀ b ∈ ms', ReadBefore a b → SharesKey files a b →
      NamedAfter a.filename b.filename)
    {read : Table → Bytes → Option Bytes} (hread : Sound read) (k : Bytes) :
    lookupLevels read (levelsOf files ms) k = lookupLevels read (levelsOf files ms') k := by
  let answer (name : Bytes) := read ⟨name, (files.get name).getD OrdMap.empty⟩ k
  have hnames : ∀ {ms : List TableMeta}, WellFormed files ms →
      lookupLevels read (levelsOf files ms) k =
        ((orderTableMetaForManifest ms).map TableMeta.filename).findSome? answer := by
    intro ms h
    rw [h.lookupLevels_order hread, List.findSome?_map]
    rfl
  -- an answer is an entry, so two tables that answer share the key
  have hpair : ∀ {ms : List TableMeta}, WellFormed files ms →
      (∀ a ∈ ms, ∀ b ∈ ms, ReadBefore a b → SharesKey files a b →
        NamedAfter a.filename b.filename) →
      ((orderTableMetaForManifest ms).map TableMeta.filename).Pairwise fun a b =>
        answer a ≠ none → answer b ≠ none → NamedAfter a b := by
    intro ms h hord
    have hperm := orderTableMetaForManifest_perm h.distinct
    rw [List.pairwise_map]
    refine h.readBefore.imp_of_mem fun {a b} hma hmb hrb hansa hansb => ?_
    have hshare : SharesKey files a b :=
      ⟨k, fun hnone => hansa (hread _ _ hnone), fun hnone => hansb (hread _ _ hnone)⟩
    exact hord a (hperm.subset hma) b (hperm.subset hmb) (hrb hshare) hshare
  rw [hnames h, hnames h']
  refine findSome?_eq_of_pairwise (fun _ _ => NamedAfter.asymm) (fun name => ?_) (hpair h hord)
    (hpair h' hord')
  simp only [List.mem_map, (orderTableMetaForManifest_perm h.distinct).mem_iff,
    (orderTableMetaForManifest_perm h'.distinct).mem_iff]
  exact hmem name

/-- **Losing the manifest loses nothing** as long as every compaction takes from level 1 no entry of a
key that a table of level 0 keeps: the levels rebuilt from the files select for every key the entry that
the levels of the lost manifest selected, whether an empty entry counts as an answer or not. -/
theorem lost_manifest_same_view {now : ℤ} {s₀ s : Tree} (h₀ : openTree Dir.empty now 0 = some s₀)
    (hrun : Relation.ReflTransGen (TreeStep LeavesApart) s₀ s) (hlast : s.last < 2 ^ 63)
    (now' : ℤ) : ∃ ms levels levels', s.dir.manifest = some ms ∧
      loadLevels s.dir.tables ms = some levels ∧
      loadLevels s.dir.tables (openManifest { s.dir with manifest := none } now') = some levels' ∧
      ∀ k, lookupLevels Table.find levels' k = lookupLevels Table.find levels k ∧
        lookupLevels Table.get levels' k = lookupLevels Table.get levels k := by
  obtain ⟨ms, hs, haged⟩ := tree_aged h₀ hrun hlast
  have hwf := hs.rebuild_wellFormed now'
  -- both manifests are read in the order of age, which for a key decides the first answer
  have hlookup : ∀ {read : Table → Bytes → Option Bytes}, Sound read → ∀ k,
      lookupLevels read (levelsOf s.dir.tables (rebuildManifestStateFromDisk s.dir.tables now')) k =
        lookupLevels read (levelsOf s.dir.tables ms) k := fun hread k =>
    lookupLevels_eq_of_ordered hwf hs.wellFormed (hs.mem_rebuild now')
      (fun a hma b hmb hrb _ => hs.rebuild_ordered now' hlast hma hmb hrb) haged.ordered hread k
  exact ⟨ms, _, _, hs.manifest_eq, hs.wellFormed.loadLevels_eq, hwf.loadLevels_eq,
    fun k => ⟨hlookup sound_find k, hlookup sound_get k⟩⟩

/-- A compaction that leaves nothing at level 0 leaves the levels apart. -/
theorem leavesApart_of_all {dir : Dir} {p : CompactionPlan} {ms : List TableMeta}
    (hms : dir.manifest = some ms) (h : ∀ m ∈ ms, m.level = 0 → m ∈ p.sourceTables) :
    LeavesApart dir p := by
  intro ms' hms' m hm hl hnot
  rw [hms, Option.some.injEq] at hms'
  exact absurd (h m (hms' ▸ hm) hl) hnot

/-- A table with both keys is compacted, and so is a newer one for the first key, before a newer one for
the second key follows. -/
theorem apart_lifetime : Relation.ReflTransGen (TreeStep LeavesApart) (treeOf [] [] 0)
    (treeOf [(4, merged), (5, newZ)] [metaAt 5 0 [122] [122], metaAt 4 1 [97] [122]] 5) := by
  -- every compaction here takes all tables there are, so it leaves nothing behind on level 0
  have h4 : TreeStep LeavesApart
      (treeOf [(2, bothKeys), (3, newA)] [metaAt 3 0 [97] [97], metaAt 2 1 [97] [122]] 3)
      (treeOf [(4, merged)] [metaAt 4 1 [97] [122]] 4) :=
    .compact ⟨0, 0, 0⟩ ⟨[4], [sstableID 3, sstableID 2], 0⟩ 0 4
      (show _ = some ⟨0, 1, [metaAt 3 0 [97] [97]], [metaAt 2 1 [97] [122]],
        defaultMemtableMaxBytes, true⟩ by decide +kernel) (leavesApart_of_all rfl (by decide))
      (show _ = some [⟨sstableID 3, newA⟩, ⟨sstableID 2, bothKeys⟩] by decide +kernel)
      (by decide +kernel) (by decide +kernel) (by decide) (by decide) (by decide)
      (by decide +kernel)
  have h5 : TreeStep LeavesApart (treeOf [(4, merged)] [metaAt 4 1 [97] [122]] 4)
      (treeOf [(4, merged), (5, newZ)] [metaAt 5 0 [122] [122], metaAt 4 1 [97] [122]] 5) :=
    .install 5 0 newZ (by decide) (by decide) (by decide +kernel)
  exact .tail (.tail (lifetime_start (leavesApart_of_all rfl (by decide))) h4) h5

theorem lost_manifest_same_view_sample :
    let s := treeOf [(4, merged), (5, newZ)] [metaAt 5 0 [122] [122], metaAt 4 1 [97] [122]] 5
    ∃ ms levels levels', s.dir.manifest = some ms ∧ loadLevels s.dir.tables ms = some levels ∧
      loadLevels s.dir.tables (openManifest { s.dir with manifest := none } 0) = some levels' ∧
      ∀ k, lookupLevels Table.find levels' k = lookupLevels Table.find levels k ∧
        lookupLevels Table.get levels' k = lookupLevels Table.get levels k :=
  lost_manifest_same_view (show openTree Dir.empty 0 0 = some (treeOf [] [] 0) by decide +kernel)
    apart_lifetime (by decide) 0

/-- **A merged table shadows a newer one.** At level 0 the table with the second key stays behind while
an older entry of the key is merged into a later file, which is read first once the manifest is lost. -/
theorem lost_manifest_shadows :
    let s := treeOf [(4, newZ), (5, merged)] [metaAt 4 0 [122] [122], metaAt 5 1 [97] [122]] 5
    openTree Dir.empty 0 0 = some (treeOf [] [] 0) ∧
      Relation.ReflTransGen (TreeStep fun _ _ => True) (treeOf [] [] 0) s ∧
      (loadLevels s.dir.tables (openManifest s.dir 0)).map
          (fun levels => lookupLevels Table.get levels [122]) = some (some [2]) ∧
      (loadLevels s.dir.tables (openManifest { s.dir with manifest := none } 0)).map
          (fun levels => lookupLevels Table.get levels [122]) = some (some [1]) ∧
      ∀ log, readStoredValue log (some [2]) = .ok (some [2]) ∧
        readStoredValue log (some [1]) = .ok (some [1]) :=
  ⟨by decide +kernel, sample_lifetime, by decide +kernel, by decide +kernel,
    fun _ => ⟨rfl, rfl⟩⟩

end Seol
