import Seol.Compaction.Merge
import Seol.Manifest

/-!
# Compaction keeps the resolved view

Reference: `leveledCompactionPlanner.Plan` and `replaceCompactedTables` in `compaction.go`. The inputs
of a plan leave the manifest and the merged outputs enter level 1. For every key, what the levels
select afterwards is what they selected before, up to a tombstone that nothing lies below.
-/

namespace Seol

open Common

/-! ## What a plan guarantees -/

/-- What the planner guarantees about a plan on a manifest whose lowest level in use is `first`. -/
structure Planned (ms : List TableMeta) (p : CompactionPlan) (first : ℕ) : Prop where
  lowest : ∀ m ∈ ms, first ≤ m.level
  closed : ClosedSource (levelMeta ms first) p.sourceTables
  target_eq : p.targetTables = (levelMeta ms 1).filter fun t =>
    ¬ (t.largest < (tableMetaBounds p.sourceTables).1 ∨
      (tableMetaBounds p.sourceTables).2 < t.smallest)
  target_level : p.targetLevel = 1
  drop : p.dropTombstones = true → ∀ m ∈ ms, m.level ≤ 1

/-- The overlapping tables of a level, whether or not the level is in use. -/
theorem overlappingTableMeta_eq (ms : List TableMeta) (level : ℕ) (lo hi : Bytes) :
    overlappingTableMeta (groupTableMetaByLevel ms) level lo hi =
      (levelMeta ms level).filter fun t => ¬ (t.largest < lo ∨ hi < t.smallest) := by
  -- the level numbers are distinct, so the first group with the number is that of the level
  have hfind : (groupTableMetaByLevel ms).find? (fun l => l.1 = level) =
      if level ∈ levelNumbers ms then some (level, levelMeta ms level) else none := by
    rw [groupTableMetaByLevel, List.find?_map]
    split_ifs with hmem
    · rw [List.find?_eq_some_iff_append.mpr]
      · rfl
      · obtain ⟨as, bs, hsplit⟩ := List.append_of_mem hmem
        refine ⟨by simp, as, bs, hsplit, fun a ha => ?_⟩
        have hlt := (List.pairwise_append.mp (hsplit ▸ levelNumbers_sorted ms)).2.2 a ha level
          List.mem_cons_self
        simpa using hlt.ne
    · rw [List.find?_eq_none.mpr]
      · rfl
      · intro a ha
        simp only [Function.comp_apply, decide_eq_true_eq]
        rintro rfl
        exact hmem ha
  rw [overlappingTableMeta, hfind]
  by_cases hmem : level ∈ levelNumbers ms
  · rw [if_pos hmem]
  · have hnil : levelMeta ms level = [] := List.eq_nil_iff_forall_not_mem.mpr fun m hm =>
      hmem (mem_levelNumbers.mpr ⟨m, mem_levelMeta.mp hm⟩)
    rw [if_neg hmem, hnil]
    rfl

/-- No table lies deeper than the last level in use. -/
theorem level_le_maxTableLevel {ms : List TableMeta} {m : TableMeta} (hm : m ∈ ms) :
    m.level ≤ maxTableLevel (groupTableMetaByLevel ms) := by
  have hmem : m.level ∈ levelNumbers ms := mem_levelNumbers.mpr ⟨m, hm, rfl⟩
  have hlast : maxTableLevel (groupTableMetaByLevel ms) = ((levelNumbers ms).getLast?).getD 0 := by
    rw [maxTableLevel, groupTableMetaByLevel, List.getLast?_map, Option.map_map]
    cases (levelNumbers ms).getLast? <;> rfl
  rw [hlast]
  -- the numbers ascend, so the last one is the greatest
  rcases List.eq_nil_or_concat' (levelNumbers ms) with hnil | ⟨as, b, hsplit⟩
  · simp [hnil] at hmem
  · have hsorted := levelNumbers_sorted ms
    rw [hsplit] at hmem hsorted ⊢
    rw [List.getLast?_concat, Option.getD_some]
    rcases List.mem_append.mp hmem with hin | hin
    · exact ((List.pairwise_append.mp hsorted).2.2 _ hin b (by simp)).le
    · exact (List.mem_singleton.mp hin).le

/-- **Every plan of the planner has these guarantees.** -/
theorem plan_planned {ms : List TableMeta} (hd : DistinctNames ms) {opts : Options}
    {p : CompactionPlan} (h : plan ms opts = some p) : ∃ first, Planned ms p first := by
  cases hnums : levelNumbers ms with
  | nil => simp [plan, groupTableMetaByLevel, hnums] at h
  | cons first rest =>
    have hgroup : groupTableMetaByLevel ms = (first, levelMeta ms first) ::
        rest.map fun level => (level, levelMeta ms level) := by
      rw [groupTableMetaByLevel, hnums, List.map_cons]
    have hsorted := levelNumbers_sorted ms
    rw [hnums] at hsorted
    have hp := h
    simp only [plan, hgroup] at hp
    rw [← hgroup] at hp
    -- the planner has no plan for a first group without tables
    split_ifs at hp with hempty
    obtain rfl := Option.some.inj hp
    refine ⟨first, ⟨fun m hm => ?_, ?_, overlappingTableMeta_eq ms 1 _ _, rfl, fun hdrop m hm => ?_⟩⟩
    · have hmem : m.level ∈ first :: rest := hnums ▸ mem_levelNumbers.mpr ⟨m, hm, rfl⟩
      rcases List.mem_cons.mp hmem with heq | hin
      · exact heq.ge
      · exact ((List.pairwise_cons.mp hsorted).1 _ hin).le
    -- the names are distinct, so a table is selected when its name is
    · refine selectL0CompactionSource_closed (fun hnil => hempty (by simp [hnil])) ?_
      exact fun a ha b hb => hd.eq (mem_levelMeta.mp ha).1 (mem_levelMeta.mp hb).1
    · have hmax : maxTableLevel (groupTableMetaByLevel ms) ≤ 1 := by simpa using hdrop
      exact (level_le_maxTableLevel hm).trans hmax

namespace Planned

variable {ms : List TableMeta} {p : CompactionPlan} {first : ℕ} (hp : Planned ms p first)

include hp

theorem source_mem {m : TableMeta} (hm : m ∈ p.sourceTables) : m ∈ ms ∧ m.level = first :=
  mem_levelMeta.mp (hp.closed.sublist.subset hm)

theorem target_mem {m : TableMeta} (hm : m ∈ p.targetTables) : m ∈ ms ∧ m.level = 1 := by
  rw [hp.target_eq] at hm
  exact mem_levelMeta.mp (List.mem_of_mem_filter hm)

/-- Targets meet the range of the sources. -/
theorem target_meets {m : TableMeta} (hm : m ∈ p.targetTables) :
    (tableMetaBounds p.sourceTables).1 ≤ m.largest ∧
      m.smallest ≤ (tableMetaBounds p.sourceTables).2 := by
  rw [hp.target_eq] at hm
  simpa using (List.mem_filter.mp hm).2

theorem inputs_subset {m : TableMeta} (hm : m ∈ p.inputs) : m ∈ ms := by
  rcases List.mem_append.mp hm with hm | hm
  · exact (hp.source_mem hm).1
  · exact (hp.target_mem hm).1

/-- A table of level 1 that is no input lies off the range of the sources. -/
theorem kept_off_range {m : TableMeta} (hm : m ∈ ms) (hl : m.level = 1) (hin : m ∉ p.inputs) :
    m.largest < (tableMetaBounds p.sourceTables).1 ∨
      (tableMetaBounds p.sourceTables).2 < m.smallest := by
  by_contra hover
  refine hin (List.mem_append_right _ ?_)
  rw [hp.target_eq]
  exact List.mem_filter.mpr ⟨mem_levelMeta.mpr ⟨hm, hl⟩, by simpa using hover⟩

end Planned

/-! ## When plans are well formed -/

/-- What a plan is meant to be: sources of level 0, targets of level 1, no table in both, and nothing
left outside at these levels that meets the range of the sources. -/
structure WellFormedPlan (ms : List TableMeta) (p : CompactionPlan) : Prop where
  levels : p.sourceLevel = 0 ∧ p.targetLevel = 1
  source_level : ∀ m ∈ p.sourceTables, m.level = p.sourceLevel
  target_level : ∀ m ∈ p.targetTables, m.level = p.targetLevel
  apart : ∀ m ∈ p.sourceTables, ∀ m' ∈ p.targetTables, m.filename ≠ m'.filename
  closed : ∀ m ∈ ms, m.level ≤ 1 → m ∉ p.inputs →
    m.largest < (tableMetaBounds p.sourceTables).1 ∨
      (tableMetaBounds p.sourceTables).2 < m.smallest

/-- What is expected of the planner on a manifest. -/
structure PlansWell (ms : List TableMeta) (opts : Options) : Prop where
  wellFormed : ∀ p, plan ms opts = some p → WellFormedPlan ms p
  idle : (∀ m ∈ ms, m.level ≠ 0) → plan ms opts = none

/-- There is a plan as soon as there is a table. -/
theorem plan_isSome {ms : List TableMeta} (hne : ms ≠ []) (opts : Options) :
    ∃ p, plan ms opts = some p := by
  cases hnums : levelNumbers ms with
  | nil =>
    obtain ⟨m, hm⟩ := List.exists_mem_of_ne_nil ms hne
    have hmem : m.level ∈ levelNumbers ms := mem_levelNumbers.mpr ⟨m, hm, rfl⟩
    simp [hnums] at hmem
  | cons first rest =>
    -- a level that is in use has a table
    obtain ⟨m, hm⟩ : ∃ m, m ∈ levelMeta ms first := by
      have hfirst : first ∈ levelNumbers ms := by simp [hnums]
      obtain ⟨m, hm⟩ := mem_levelNumbers.mp hfirst
      exact ⟨m, mem_levelMeta.mpr hm⟩
    have hfull : (levelMeta ms first).isEmpty = false := by
      rw [List.isEmpty_eq_false_iff]
      exact List.ne_nil_of_mem hm
    simp [plan, groupTableMetaByLevel, hnums, hfull]

theorem plan_sourceLevel {ms : List TableMeta} {opts : Options} {p : CompactionPlan}
    (h : plan ms opts = some p) : p.sourceLevel = 0 := by
  simp only [plan] at h
  split at h
  · simp at h
  · split_ifs at h
    exact (Option.some.inj h) ▸ rfl

/-- **The planner plans well exactly if level 0 is in use**, or nothing is. It takes its sources from
the lowest level in use; without a level 0 these are tables of a deeper level. -/
theorem plans_well_iff {ms : List TableMeta} (hd : DistinctNames ms) (opts : Options) :
    PlansWell ms opts ↔ ms = [] ∨ ∃ m ∈ ms, m.level = 0 := by
  refine ⟨fun h => ?_, fun h => ⟨fun p hplan => ?_, fun hnone => ?_⟩⟩
  · by_contra hno
    obtain ⟨hne, hnone⟩ := not_or.mp hno
    obtain ⟨p, hp⟩ := plan_isSome hne opts
    rw [h.idle fun m hm hl => hnone ⟨m, hm, hl⟩] at hp
    exact absurd hp (by simp)
  · obtain ⟨first, hp⟩ := plan_planned hd hplan
    have hsource := plan_sourceLevel hplan
    -- the lowest level in use is level 0
    have hfirst : first = 0 := by
      rcases h with rfl | ⟨m, hm, hl⟩
      · obtain ⟨m, hm⟩ := List.exists_mem_of_ne_nil _ hp.closed.ne_nil
        exact absurd (hp.source_mem hm).1 (by simp)
      · have hle := hp.lowest m hm
        omega
    subst hfirst
    refine ⟨⟨hsource, hp.target_level⟩, fun m hm => ?_, fun m hm => ?_, fun m hm m' hm' => ?_,
      fun m hm hl hout => ?_⟩
    · rw [hsource]
      exact (hp.source_mem hm).2
    · rw [hp.target_level]
      exact (hp.target_mem hm).2
    · intro hname
      have hsame := hd.eq (hp.source_mem hm).1 (hp.target_mem hm').1 hname
      have hlevel := (hp.source_mem hm).2
      rw [hsame, (hp.target_mem hm').2] at hlevel
      exact absurd hlevel one_ne_zero
    · rcases Nat.le_one_iff_eq_zero_or_eq_one.mp hl with hzero | hone
      · exact hp.closed.closed m (mem_levelMeta.mpr ⟨hm, hzero⟩)
          fun hin => hout (List.mem_append_left _ hin)
      · exact hp.kept_off_range hm hone hout
  · rcases h with rfl | ⟨m, hm, hl⟩
    · rfl
    · exact absurd hl (hnone m hm)

/-- A manifest with both levels. -/
theorem plans_well_iff_two_levels :
    PlansWell [⟨[1], 0, [3], [7], 2⟩, ⟨[2], 1, [5], [9], 1⟩] ⟨0, 0, 0⟩ :=
  (plans_well_iff (by decide) _).mpr (.inr ⟨_, List.mem_cons_self, rfl⟩)

/-- **Without a level 0 the planner plans to compact level 1 into itself.** -/
theorem plan_without_level_zero :
    plan [⟨[1], 1, [3], [7], 2⟩] ⟨0, 0, 0⟩ = some
      { sourceLevel := 0
        targetLevel := 1
        sourceTables := [⟨[1], 1, [3], [7], 2⟩]
        targetTables := [⟨[1], 1, [3], [7], 2⟩]
        targetOutputBytes := defaultMemtableMaxBytes
        dropTombstones := true } := by
  decide +kernel

/-! ## The manifest afterwards -/

/-- The tables `replaceCompactedTables` keeps in the manifest. -/
def keptTables (ms : List TableMeta) (p : CompactionPlan) : List TableMeta :=
  ms.filter fun m => m.filename ∉ p.inputs.map TableMeta.filename

/-- The metadata of the outputs: names as the flushes chose them. -/
def outputMeta (p : CompactionPlan) (outputs : List (Bytes × OrdMap Bytes Bytes)) (now : ℤ) :
    List TableMeta :=
  outputs.map fun o => tableMetaFromSST ⟨o.1, o.2⟩ p.targetLevel now

/-- The tables `replaceCompactedTables` writes to the manifest. -/
def updatedTables (ms : List TableMeta) (p : CompactionPlan)
    (outputs : List (Bytes × OrdMap Bytes Bytes)) (now : ℤ) : List TableMeta :=
  orderTableMetaForManifest (keptTables ms p ++ outputMeta p outputs now)

/-- The files afterwards agree with the manifest afterwards: outputs under fresh distinct names,
kept tables as they were. -/
structure Replaced (files files' : TableFiles) (ms : List TableMeta) (p : CompactionPlan)
    (outputs : List (Bytes × OrdMap Bytes Bytes)) : Prop where
  contents : outputs.map Prod.snd = compactTables (p.inputs.map (tableOf files)) p
  distinct : (outputs.map Prod.fst).Nodup
  fresh : ∀ o ∈ outputs, files.get o.1 = none
  written : ∀ o ∈ outputs, files'.get o.1 = some o.2
  kept : ∀ m ∈ keptTables ms p, files'.get m.filename = files.get m.filename

section Compaction

variable {files files' : TableFiles} {ms : List TableMeta} {p : CompactionPlan} {first : ℕ}
  {outputs : List (Bytes × OrdMap Bytes Bytes)}

theorem mem_keptTables (hd : DistinctNames ms) (hp : Planned ms p first) {m : TableMeta} :
    m ∈ keptTables ms p ↔ m ∈ ms ∧ m ∉ p.inputs := by
  simp only [keptTables, List.mem_filter, decide_eq_true_eq, List.mem_map, not_exists, not_and]
  refine and_congr_right fun hm => ⟨fun h hin => h m hin rfl, fun h m' hin heq => h ?_⟩
  rwa [← hd.eq (hp.inputs_subset hin) hm heq]

/-- An output holds only keys of inputs. -/
theorem Replaced.key_of_input (hr : Replaced files files' ms p outputs)
    {o : Bytes × OrdMap Bytes Bytes} (ho : o ∈ outputs) {k v : Bytes} (hk : o.2.get k = some v) :
    ∃ m ∈ p.inputs, (tableOf files m).find k ≠ none := by
  have hout := compactTables_outputs (p.inputs.map (tableOf files)) p
  rw [← hr.contents] at hout
  -- the key is in some output, so the split stream has it
  have hsome : (outputs.map Prod.snd).findSome? (fun m => m.get k) ≠ none := by
    intro hnone
    have := List.findSome?_eq_none_iff.mp hnone o.2 (List.mem_map_of_mem ho)
    rw [hk] at this
    simp at this
  rw [hout.get_eq] at hsome
  have hhit : firstHit Table.find (p.inputs.map (tableOf files)) k ≠ none := by
    intro hnone
    rw [hnone] at hsome
    exact hsome rfl
  simpa [firstHit] using hhit

/-- **The outputs stand apart from the tables that stay at level 1**: such a table lies on one side of
the sources, and the targets lie on the same side of it as the sources. -/
theorem kept_apart_output (h : WellFormed files ms) (hp : Planned ms p first)
    (hr : Replaced files files' ms p outputs) {m : TableMeta} (hm : m ∈ keptTables ms p)
    (hl : m.level = 1) {o : Bytes × OrdMap Bytes Bytes} (ho : o ∈ outputs) (now : ℤ) :
    Apart m (tableMetaFromSST ⟨o.1, o.2⟩ 1 now) := by
  obtain ⟨hmem, hnot⟩ := (mem_keptTables h.distinct hp).mp hm
  have hne : o.2.entries ≠ [] := by
    have hout := compactTables_outputs (p.inputs.map (tableOf files)) p
    rw [← hr.contents] at hout
    exact hout.nonempty o.2 (List.mem_map_of_mem ho)
  have hdesc : Describes (tableMetaFromSST ⟨o.1, o.2⟩ 1 now) ⟨o.1, o.2⟩ := ⟨rfl, hne, rfl, rfl⟩
  obtain ⟨⟨v, hv⟩, ⟨w, hw⟩⟩ := hdesc.bounds_mem
  obtain ⟨a, ha, hfa⟩ := hr.key_of_input ho hv
  obtain ⟨b, hb, hfb⟩ := hr.key_of_input ho hw
  have hbounds : ∀ i ∈ p.inputs, ∀ k, (tableOf files i).find k ≠ none →
      i.smallest ≤ k ∧ k ≤ i.largest := by
    intro i hi k hk
    obtain ⟨u, hu⟩ := Option.ne_none_iff_exists'.mp hk
    exact (h.describes i (hp.inputs_subset hi)).bounds hu
  -- a target meets the range of the sources and stands apart from the kept table
  have hapart : ∀ i ∈ p.targetTables, Apart m i := by
    intro i hi
    refine (h.disjoint 1 one_ne_zero).forall (List.mem_filter.mpr ⟨hmem, by simpa using hl⟩)
      (List.mem_filter.mpr ⟨(hp.target_mem hi).1, by simpa using (hp.target_mem hi).2⟩) ?_
    rintro rfl
    exact hnot (List.mem_append_right _ hi)
  have hmle := (h.describes m hmem).smallest_le_largest
  rcases hp.kept_off_range hmem hl hnot with hoff | hoff
  · refine Or.inl (lt_of_lt_of_le ?_ (hbounds a ha _ hfa).1)
    rcases List.mem_append.mp ha with hsrc | htgt
    · exact hoff.trans_le (hp.closed.covers a hsrc).1
    · rcases hapart a htgt with hlt | hlt
      · exact hlt
      · exact absurd ((hp.target_meets htgt).1.trans_lt (hlt.trans_le hmle)) hoff.not_gt
  · refine Or.inr (lt_of_le_of_lt (hbounds b hb _ hfb).2 ?_)
    rcases List.mem_append.mp hb with hsrc | htgt
    · exact (hp.closed.covers b hsrc).2.trans_lt hoff
    · rcases hapart b htgt with hlt | hlt
      · exact absurd ((hmle.trans_lt hlt).trans_le (hp.target_meets htgt).2) hoff.not_gt
      · exact hlt

/-- Outputs in the order they are written have ranges in that order. -/
theorem outputs_apart (hr : Replaced files files' ms p outputs) (level : ℕ) (now : ℤ) :
    (outputs.map fun o => tableMetaFromSST ⟨o.1, o.2⟩ level now).Pairwise Apart := by
  have hout := compactTables_outputs (p.inputs.map (tableOf files)) p
  rw [← hr.contents] at hout
  have hsorted := hout.sorted
  rw [List.flatMap_map, KeySorted, List.pairwise_flatMap] at hsorted
  refine List.pairwise_map.mpr (hsorted.2.imp_of_mem fun {a b} ha hb hab => Or.inl ?_)
  -- an output is not empty: its bounds are keys of its own entries
  have hmem : ∀ o ∈ outputs, ∃ v w, (o.2.entries.getLast?.map Prod.fst).getD [] = Prod.fst v ∧
      (o.2.entries.head?.map Prod.fst).getD [] = Prod.fst w ∧ v ∈ o.2.entries ∧
      w ∈ o.2.entries := by
    intro o ho
    have hne := hout.nonempty o.2 (List.mem_map_of_mem ho)
    refine ⟨o.2.entries.getLast hne, o.2.entries.head hne, ?_, ?_, List.getLast_mem hne,
      List.head_mem hne⟩
    · rw [List.getLast?_eq_getLast_of_ne_nil hne]
      rfl
    · rw [List.head?_eq_some_head hne]
      rfl
  obtain ⟨va, -, hva, -, hvam, -⟩ := hmem a ha
  obtain ⟨-, wb, -, hwb, -, hwbm⟩ := hmem b hb
  change (a.2.entries.getLast?.map Prod.fst).getD [] < (b.2.entries.head?.map Prod.fst).getD []
  rw [hva, hwb]
  exact hab va hvam wb hwbm

end Compaction

/-! ## The view afterwards -/

/-- Tables that do not answer may be left out of a search. -/
theorem findSome?_sublist {α β : Type*} {f : α → Option β} {l l' : List α} (hs : l'.Sublist l)
    (hn : l.Nodup) (h : ∀ a ∈ l, a ∉ l' → f a = none) : l.findSome? f = l'.findSome? f := by
  induction hs with
  | slnil => rfl
  -- a table left out is silent, so the search goes on behind it
  | @cons l' l a hs ih =>
    obtain ⟨ha, hn⟩ := List.nodup_cons.mp hn
    rw [List.findSome?_cons, h a List.mem_cons_self fun hin => ha (hs.subset hin)]
    exact ih hn fun b hb => h b (List.mem_cons_of_mem _ hb)
  | @cons_cons l' l a hs ih =>
    obtain ⟨ha, hn⟩ := List.nodup_cons.mp hn
    have hrest := ih hn fun b hb hne => h b (List.mem_cons_of_mem _ hb) fun hin => by
      rcases List.mem_cons.mp hin with rfl | hin
      · exact ha hb
      · exact hne hin
    rw [List.findSome?_cons, List.findSome?_cons, hrest]

theorem levelMeta_nodup {ms : List TableMeta} (hd : DistinctNames ms) (level : ℕ) :
    (levelMeta ms level).Nodup :=
  (List.perm_insertionSort _ _).nodup_iff.mpr (hd.nodup.filter _)

section Compaction

variable {files files' : TableFiles} {ms : List TableMeta} {p : CompactionPlan} {first : ℕ}
  {outputs : List (Bytes × OrdMap Bytes Bytes)}

/-- Below level 0 a level answers with the entry of the one table that has it. -/
theorem WellFormed.levelView_eq_some_iff (h : WellFormed files ms) {level : ℕ} (hl : level ≠ 0)
    {k v : Bytes} : levelView Table.find files ms level k = some v ↔
      ∃ m ∈ ms, m.level = level ∧ (tableOf files m).find k = some v := by
  constructor
  · intro hv
    obtain ⟨t, ht, hfind⟩ := List.exists_of_findSome?_eq_some hv
    obtain ⟨m, hm, rfl⟩ := List.mem_map.mp ht
    exact ⟨m, (mem_levelMeta.mp hm).1, (mem_levelMeta.mp hm).2, hfind⟩
  -- the table with the entry answers, and any table of the level that answers is this one
  · rintro ⟨m, hm, hml, hfind⟩
    cases hv : levelView Table.find files ms level k with
    | none =>
      have hnone := List.findSome?_eq_none_iff.mp hv (tableOf files m)
        (List.mem_map_of_mem (mem_levelMeta.mpr ⟨hm, hml⟩))
      rw [hfind] at hnone
      simp at hnone
    | some w =>
      obtain ⟨t, ht, hfind'⟩ := List.exists_of_findSome?_eq_some hv
      obtain ⟨m', hm', rfl⟩ := List.mem_map.mp ht
      obtain ⟨hm', hml'⟩ := mem_levelMeta.mp hm'
      obtain rfl := h.unique hl hm hm' hml hml' hfind hfind'
      exact hfind'.symm.trans hfind

theorem Replaced.distinctNames (h : WellFormed files ms) (hr : Replaced files files' ms p outputs)
    (now : ℤ) : DistinctNames (keptTables ms p ++ outputMeta p outputs now) := by
  rw [DistinctNames, List.map_append]
  refine List.Nodup.append (h.distinct.sublist List.filter_sublist) ?_ ?_
  · rw [outputMeta, List.map_map]
    exact hr.distinct
  · intro name hkept houtput
    obtain ⟨m, hm, rfl⟩ := List.mem_map.mp hkept
    rw [outputMeta, List.map_map] at houtput
    obtain ⟨o, ho, heq⟩ := List.mem_map.mp houtput
    have hpresent := h.present m (List.mem_of_mem_filter hm)
    rw [← show o.1 = m.filename from heq, hr.fresh o ho] at hpresent
    simp at hpresent

/-- **The manifest afterwards is well formed.** -/
theorem Replaced.wellFormed (h : WellFormed files ms) (hp : Planned ms p first)
    (hr : Replaced files files' ms p outputs) (now : ℤ) :
    WellFormed files' (updatedTables ms p outputs now) := by
  have hout := compactTables_outputs (p.inputs.map (tableOf files)) p
  rw [← hr.contents] at hout
  have hdistinct := hr.distinctNames h now
  have hperm := orderTableMetaForManifest_perm hdistinct
  -- a table of the new manifest was kept or is an output
  have hmem : ∀ m ∈ updatedTables ms p outputs now, m ∈ keptTables ms p ∨
      ∃ o ∈ outputs, tableMetaFromSST ⟨o.1, o.2⟩ p.targetLevel now = m := by
    intro m hm
    rcases List.mem_append.mp (hperm.subset hm) with hm | hm
    · exact Or.inl hm
    · exact Or.inr (List.mem_map.mp hm)
  refine ⟨hdistinct.perm hperm, fun m hm => ?_, fun m hm => ?_, fun level hl => ?_⟩
  · rcases hmem m hm with hm | ⟨o, ho, rfl⟩
    · rw [hr.kept m hm]
      exact h.present m (List.mem_of_mem_filter hm)
    · exact Option.isSome_iff_exists.mpr ⟨o.2, hr.written o ho⟩
  · rcases hmem m hm with hm | ⟨o, ho, rfl⟩
    · rw [show tableOf files' m = tableOf files m by simp [tableOf, hr.kept m hm]]
      exact h.describes m (List.mem_of_mem_filter hm)
    · have htable : tableOf files' (tableMetaFromSST ⟨o.1, o.2⟩ p.targetLevel now) = ⟨o.1, o.2⟩ := by
        simp [tableOf, tableMetaFromSST, hr.written o ho]
      rw [htable]
      exact ⟨rfl, hout.nonempty o.2 (List.mem_map_of_mem ho), rfl, rfl⟩
  -- apart: kept from kept as before, output from output by the cuts, kept from output by the plan
  · refine ((hperm.filter _).pairwise_iff Or.symm).mpr ?_
    rw [List.filter_append, List.pairwise_append]
    refine ⟨?_, ?_, ?_⟩
    · exact (h.disjoint level hl).sublist (List.filter_sublist.filter _)
    · exact (outputs_apart hr p.targetLevel now).sublist List.filter_sublist
    · intro m hm m' hm'
      obtain ⟨hm, hml⟩ := List.mem_filter.mp hm
      obtain ⟨hout', hol⟩ := List.mem_filter.mp hm'
      obtain ⟨o, ho, rfl⟩ := List.mem_map.mp hout'
      have hl1 : p.targetLevel = level := of_decide_eq_true hol
      rw [hp.target_level] at hl1 ⊢
      exact kept_apart_output h hp hr hm (by simpa [hl1] using hml) ho now

/-- Away from level 1 the view afterwards is that of the kept tables. -/
theorem Replaced.levelView_of_ne (h : WellFormed files ms) (hp : Planned ms p first)
    (hr : Replaced files files' ms p outputs) (now : ℤ) {level : ℕ} (hl : level ≠ 1) (k : Bytes) :
    levelView Table.find files' (updatedTables ms p outputs now) level k =
      levelView Table.find files (keptTables ms p) level k := by
  have hdistinct := hr.distinctNames h now
  -- every output goes to the target level, which is level 1
  have hnone : (outputMeta p outputs now).filter (fun m => m.level = level) = [] := by
    refine List.filter_eq_nil_iff.mpr fun m hm => ?_
    obtain ⟨o, -, rfl⟩ := List.mem_map.mp hm
    simpa [tableMetaFromSST, hp.target_level] using hl.symm
  have hmeta : levelMeta (updatedTables ms p outputs now) level =
      levelMeta (keptTables ms p) level := by
    refine (levelMeta_perm hdistinct (orderTableMetaForManifest_perm hdistinct) level).trans ?_
    rw [levelMeta, List.filter_append, hnone, List.append_nil, levelMeta]
  rw [levelView, levelView, hmeta]
  congr 1
  refine List.map_congr_left fun m hm => ?_
  simp [tableOf, hr.kept m (mem_levelMeta.mp hm).1]

/-- At level 1 it is that of the kept tables and the outputs. -/
theorem Replaced.levelView_one (h : WellFormed files ms) (hp : Planned ms p first)
    (hr : Replaced files files' ms p outputs) (now : ℤ) {k v : Bytes} :
    levelView Table.find files' (updatedTables ms p outputs now) 1 k = some v ↔
      (∃ m ∈ keptTables ms p, m.level = 1 ∧ (tableOf files m).find k = some v) ∨
        (firstHit Table.find (p.inputs.map (tableOf files)) k).filter
          (fun v => !(p.dropTombstones && isTombstoneValue v)) = some v := by
  have hout := compactTables_outputs (p.inputs.map (tableOf files)) p
  have hperm := orderTableMetaForManifest_perm (hr.distinctNames h now)
  rw [(hr.wellFormed h hp now).levelView_eq_some_iff one_ne_zero, ← hout.get_eq, ← hr.contents]
  rw [← hr.contents] at hout
  -- at most one output has the key, so the first that answers is the one that has it
  have hone : (∃ o ∈ outputs, o.2.get k = some v) ↔
      ((outputs.map Prod.snd).findSome? fun m => m.get k) = some v := by
    rw [← getList_flatMap]
    constructor
    · rintro ⟨o, ho, hget⟩
      refine getList_of_mem hout.sorted (List.mem_flatMap.mpr ⟨o.2, List.mem_map_of_mem ho, ?_⟩)
      exact OrdMap.get_eq_some_iff.mp hget
    · intro hget
      obtain ⟨c, hc, hin⟩ := List.mem_flatMap.mp (mem_of_getList hget)
      obtain ⟨o, ho, rfl⟩ := List.mem_map.mp hc
      exact ⟨o, ho, OrdMap.get_eq_some_iff.mpr hin⟩
  rw [← hone]
  constructor
  · rintro ⟨m, hm, hml, hfind⟩
    rcases List.mem_append.mp (hperm.subset hm) with hm | hm
    · refine Or.inl ⟨m, hm, hml, ?_⟩
      rwa [tableOf, hr.kept m hm] at hfind
    · obtain ⟨o, ho, rfl⟩ := List.mem_map.mp hm
      refine Or.inr ⟨o, ho, ?_⟩
      simpa [tableOf, tableMetaFromSST, hr.written o ho, Table.find] using hfind
  · rintro (⟨m, hm, hml, hfind⟩ | ⟨o, ho, hget⟩)
    · refine ⟨m, hperm.symm.subset (List.mem_append_left _ hm), hml, ?_⟩
      rwa [tableOf, hr.kept m hm]
    · refine ⟨_, hperm.symm.subset (List.mem_append_right _ (List.mem_map_of_mem ho)),
        hp.target_level, ?_⟩
      simpa [tableOf, tableMetaFromSST, hr.written o ho, Table.find] using hget

/-- A search over the kept tables equals one over all tables where the inputs are silent. -/
theorem levelView_keptTables (h : WellFormed files ms) (hp : Planned ms p first) {k : Bytes}
    {level : ℕ} (hsilent : ∀ m ∈ p.inputs, m.level = level → (tableOf files m).find k = none) :
    levelView Table.find files (keptTables ms p) level k = levelView Table.find files ms level k := by
  rw [levelView, levelView, keptTables, levelMeta_filter h.distinct, firstHit, firstHit,
    List.findSome?_map, List.findSome?_map]
  refine (findSome?_sublist List.filter_sublist (levelMeta_nodup h.distinct level) ?_).symm
  intro m hm hnot
  obtain ⟨hmem, hl⟩ := mem_levelMeta.mp hm
  refine hsilent m ?_ hl
  by_contra hin
  refine hnot (List.mem_filter.mpr ⟨hm, ?_⟩)
  have hkept := (mem_keptTables h.distinct hp).mpr ⟨hmem, hin⟩
  exact (List.mem_filter.mp hkept).2

/-- Where an input answers, no table that stays at level 1 does: it lies off the sources, and a second
table of the level cannot hold the key of a target. -/
theorem kept_one_silent (h : WellFormed files ms) (hp : Planned ms p first) {i : TableMeta}
    (hi : i ∈ p.inputs) {k v : Bytes} (hk : (tableOf files i).find k = some v) {m : TableMeta}
    (hm : m ∈ keptTables ms p) (hl : m.level = 1) : (tableOf files m).find k = none := by
  obtain ⟨hmem, hin⟩ := (mem_keptTables h.distinct hp).mp hm
  -- a source: `m` was not a target, so it lies off the range of the sources
  rcases List.mem_append.mp hi with hsrc | htgt
  · obtain ⟨hlo, hhi⟩ := (h.describes i (hp.inputs_subset hi)).bounds hk
    obtain ⟨hclo, hchi⟩ := hp.closed.covers i hsrc
    refine (h.describes m hmem).find_eq_none ?_
    rcases hp.kept_off_range hmem hl hin with hoff | hoff
    · exact Or.inr (hoff.trans_le (hclo.trans hlo))
    · exact Or.inl ((hhi.trans hchi).trans_lt hoff)
  -- a target is on level 1 itself, where `m` cannot have its key
  · by_contra hne
    obtain ⟨w, hw⟩ := Option.ne_none_iff_exists'.mp hne
    obtain ⟨hti, htl⟩ := hp.target_mem htgt
    exact hin (h.unique one_ne_zero hti hmem htl hl hk hw ▸ hi)

/-- A stored entry that is not a tombstone. -/
def isLive (stored : Bytes) : Bool := !isTombstoneValue stored

/-- If level 0 is silent afterwards and an input answers `v`, the levels answer `v`, or nothing where
`v` is a tombstone. -/
theorem Replaced.after_eq (h : WellFormed files ms) (hp : Planned ms p first)
    (hr : Replaced files files' ms p outputs) (now : ℤ) {k v : Bytes} {r : Option Bytes}
    (hafter : FirstAnswer
      (fun n => levelView Table.find files' (updatedTables ms p outputs now) n k) r)
    (hzero : levelView Table.find files' (updatedTables ms p outputs now) 0 k = none)
    (hhit : firstHit Table.find (p.inputs.map (tableOf files)) k = some v) :
    r.filter isLive = (some v).filter isLive := by
  obtain ⟨t, ht, hfind⟩ := List.exists_of_findSome?_eq_some hhit
  obtain ⟨i, hi, rfl⟩ := List.mem_map.mp ht
  by_cases hdrop : (p.dropTombstones && isTombstoneValue v) = true
  · -- the tombstone was dropped, and no level lies below
    obtain ⟨hd, htomb⟩ := Bool.and_eq_true_iff.mp hdrop
    have hnone : ∀ n, levelView Table.find files' (updatedTables ms p outputs now) n k = none := by
      intro n
      rcases Nat.lt_trichotomy n 1 with hn | rfl | hn
      · obtain rfl : n = 0 := by omega
        exact hzero
      · refine Option.eq_none_iff_forall_ne_some.mpr fun w hw => ?_
        rcases (hr.levelView_one h hp now).mp hw with ⟨m, hm, hl, hmk⟩ | hout
        · rw [kept_one_silent h hp hi hfind hm hl] at hmk
          simp at hmk
        · rw [hhit, Option.filter_some_eq_none.mpr (by simp [hdrop])] at hout
          simp at hout
      · rw [hr.levelView_of_ne h hp now (by omega)]
        refine levelView_eq_none (fun m hm hl => ?_) k
        have := hp.drop hd m (List.mem_of_mem_filter hm)
        omega
    rw [hafter.eq_none hnone]
    exact (Option.filter_some_eq_none.mpr (by simp [isLive, htomb])).symm
  · have hone : levelView Table.find files' (updatedTables ms p outputs now) 1 k = some v := by
      refine (hr.levelView_one h hp now).mpr (Or.inr ?_)
      rw [hhit]
      exact Option.filter_some_pos (by simp [hdrop])
    rw [hafter.eq_some hone fun i hi => Nat.lt_one_iff.mp hi ▸ hzero]

/-- Where a source answers, no other table of its level does. -/
theorem rest_silent (h : WellFormed files ms) (hp : Planned ms p first) {i : TableMeta}
    (hi : i ∈ p.sourceTables) {k u : Bytes} (hu : (tableOf files i).find k = some u) {m : TableMeta}
    (hm : m ∈ levelMeta ms first) (hnot : m ∉ p.sourceTables) : (tableOf files m).find k = none := by
  obtain ⟨hlo, hhi⟩ := (h.describes i (hp.source_mem hi).1).bounds hu
  obtain ⟨hclo, hchi⟩ := hp.closed.covers i hi
  refine (h.describes m (mem_levelMeta.mp hm).1).find_eq_none ?_
  rcases hp.closed.closed m hm hnot with hoff | hoff
  · exact Or.inr (hoff.trans_le (hclo.trans hlo))
  · exact Or.inl ((hhi.trans hchi).trans_lt hoff)

/-- Where a source answers, its entry is the newest one, and level 0 is silent afterwards. -/
theorem Replaced.view_eq_of_source (h : WellFormed files ms) (hp : Planned ms p first)
    (hr : Replaced files files' ms p outputs) (now : ℤ) {k u : Bytes} {r r' : Option Bytes}
    (hbefore : FirstAnswer (fun n => levelView Table.find files ms n k) r)
    (hafter : FirstAnswer
      (fun n => levelView Table.find files' (updatedTables ms p outputs now) n k) r')
    {i : TableMeta} (hi : i ∈ p.sourceTables) (hu : (tableOf files i).find k = some u) :
    r'.filter isLive = r.filter isLive := by
  -- the closure took every table of the level that the key's range touches
  have hsilent : ∀ m ∈ levelMeta ms first, m ∉ p.sourceTables → (tableOf files m).find k = none :=
    fun m hm hnot => rest_silent h hp hi hu hm hnot
  have hfirst : levelView Table.find files ms first k =
      firstHit Table.find (p.sourceTables.map (tableOf files)) k := by
    rw [levelView, firstHit, firstHit, List.findSome?_map, List.findSome?_map]
    exact findSome?_sublist hp.closed.sublist (levelMeta_nodup h.distinct first) hsilent
  obtain ⟨v, hv⟩ : ∃ v, firstHit Table.find (p.sourceTables.map (tableOf files)) k = some v := by
    refine Option.ne_none_iff_exists'.mp fun hnone => ?_
    have hnone := List.findSome?_eq_none_iff.mp hnone _ (List.mem_map_of_mem hi)
    rw [hu] at hnone
    cases hnone
  -- no level lies above `first`, so the sources answer before
  obtain rfl : r = some v := by
    refine hbefore.eq_some (hfirst.trans hv) fun n hn => ?_
    exact levelView_eq_none (fun m hm hl => absurd (hp.lowest m hm) (by omega)) k
  refine hr.after_eq h hp now hafter ?_ ?_
  -- level 0 is silent afterwards: a table kept there is of the level `first`, and not a source
  · rw [hr.levelView_of_ne h hp now zero_ne_one]
    refine List.findSome?_eq_none_iff.mpr fun t ht => ?_
    obtain ⟨m, hm, rfl⟩ := List.mem_map.mp ht
    obtain ⟨hkept, hl⟩ := mem_levelMeta.mp hm
    obtain ⟨hmem, hin⟩ := (mem_keptTables h.distinct hp).mp hkept
    have hlevel : m.level = first := by
      have := hp.lowest m hmem
      omega
    exact hsilent m (mem_levelMeta.mpr ⟨hmem, hlevel⟩) fun hsrc =>
      hin (List.mem_append_left _ hsrc)
  -- in the inputs the sources come before the targets
  · rw [firstHit] at hv ⊢
    rw [CompactionPlan.inputs, List.map_append, List.findSome?_append, hv, Option.some_or]

/-- Where no input has the key, no level changes its answer. -/
theorem Replaced.levelView_of_silent (h : WellFormed files ms) (hp : Planned ms p first)
    (hr : Replaced files files' ms p outputs) (now : ℤ) {k : Bytes}
    (hhit : firstHit Table.find (p.inputs.map (tableOf files)) k = none) (n : ℕ) :
    levelView Table.find files' (updatedTables ms p outputs now) n k =
      levelView Table.find files ms n k := by
  have hsilent : ∀ m ∈ p.inputs, (tableOf files m).find k = none := fun m hm =>
    List.findSome?_eq_none_iff.mp hhit _ (List.mem_map_of_mem hm)
  -- at level 1 the inputs leave and the outputs join, and none of them has the key
  by_cases hn : n = 1
  · subst hn
    refine Option.ext fun v => ?_
    rw [hr.levelView_one h hp now, hhit, h.levelView_eq_some_iff one_ne_zero]
    simp only [Option.filter_none, reduceCtorEq, or_false]
    constructor
    · rintro ⟨m, hm, hl, hfind⟩
      exact ⟨m, List.mem_of_mem_filter hm, hl, hfind⟩
    · rintro ⟨m, hm, hl, hfind⟩
      refine ⟨m, (mem_keptTables h.distinct hp).mpr ⟨hm, fun hin => ?_⟩, hl, hfind⟩
      rw [hsilent m hin] at hfind
      simp at hfind
  · rw [hr.levelView_of_ne h hp now hn]
    exact levelView_keptTables h hp fun m hm _ => hsilent m hm

/-- **Compaction keeps the resolved view.** For every key the levels select the same entry before and
after, tombstones read as absent. -/
theorem Replaced.view_eq (h : WellFormed files ms) (hp : Planned ms p first)
    (hr : Replaced files files' ms p outputs) (now : ℤ) {k : Bytes} {r r' : Option Bytes}
    (hbefore : FirstAnswer (fun n => levelView Table.find files ms n k) r)
    (hafter : FirstAnswer
      (fun n => levelView Table.find files' (updatedTables ms p outputs now) n k) r') :
    r'.filter isLive = r.filter isLive := by
  by_cases hsource : ∃ m ∈ p.sourceTables, (tableOf files m).find k ≠ none
  · obtain ⟨i, hi, hne⟩ := hsource
    obtain ⟨u, hu⟩ := Option.ne_none_iff_exists'.mp hne
    exact hr.view_eq_of_source h hp now hbefore hafter hi hu
  push Not at hsource
  cases hhit : firstHit Table.find (p.inputs.map (tableOf files)) k with
  | none =>
    rw [funext (hr.levelView_of_silent h hp now hhit)] at hafter
    rw [hafter.unique hbefore]
  | some v =>
    -- only a target answers, so the sources are level 0 and what stays there is read first
    obtain ⟨t, ht, hfind⟩ := List.exists_of_findSome?_eq_some hhit
    obtain ⟨i, hi, rfl⟩ := List.mem_map.mp ht
    have htgt : i ∈ p.targetTables := by
      rcases List.mem_append.mp hi with hsrc | htgt
      · rw [hsource i hsrc] at hfind
        simp at hfind
      · exact htgt
    obtain ⟨him, hil⟩ := hp.target_mem htgt
    have hzero : levelView Table.find files' (updatedTables ms p outputs now) 0 k =
        levelView Table.find files ms 0 k := by
      rw [hr.levelView_of_ne h hp now zero_ne_one]
      refine levelView_keptTables h hp fun m hm hl => ?_
      rcases List.mem_append.mp hm with hsrc | htgt
      · exact hsource m hsrc
      · have := (hp.target_mem htgt).2
        omega
    cases h0 : levelView Table.find files ms 0 k with
    | some u =>
      rw [hbefore.eq_some h0 (by simp), hafter.eq_some (hzero.trans h0) (by simp)]
    | none =>
      have hone : levelView Table.find files ms 1 k = some v :=
        (h.levelView_eq_some_iff one_ne_zero).mpr ⟨i, him, hil, hfind⟩
      rw [hbefore.eq_some hone fun n hn => Nat.lt_one_iff.mp hn ▸ h0]
      exact hr.after_eq h hp now hafter (hzero.trans h0) hhit

end Compaction

end Seol
