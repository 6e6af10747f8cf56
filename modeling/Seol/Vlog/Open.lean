import Seol.Vlog.Log

/-!
# Opening a value log

Reference: `Open` and `scanSegment` in `vlog/vlog.go`. Every segment is scanned; a damaged tail is
cut off the newest one and is an error in any other. A log all of whose appends went through
(`LogOK`) is opened as it was left.
-/

namespace Seol.Vlog

open Common

/-- `defaultSegmentMaxBytes`. -/
def defaultSegmentMaxBytes : ℕ := 64 * 2 ^ 20

/-- `scanSegment`: the length of the valid records, and whether anything follows them. -/
def scanSegment (f : Bytes) : ℕ × Bool :=
  (f.length - (scanRecords f).2.length, (scanRecords f).2 ≠ [])

/-- `Open`, on the segments of the directory. -/
def Log.open (segmentMaxBytes : ℤ) (segments : OrdMap UInt64 Bytes) (now : UInt64) :
    Except LogError Log :=
  let limit := if segmentMaxBytes ≤ 0 then defaultSegmentMaxBytes else segmentMaxBytes.toNat
  match segments.entries.getLast? with
  | none => .ok (Log.openEmpty limit now)
  | some newest =>
    if segments.entries.dropLast.any fun e => (scanSegment e.2).2 then .error .invalidTail
    else
      let validSize := (scanSegment newest.2).1
      .ok
        { segmentMaxBytes := limit
          active := ⟨newest.1, validSize⟩
          files := segments.insert newest.1 (newest.2.take validSize)
          closed := false
          active_open := by simp [OrdMap.get_insert] }

/-- A log whose appends all succeeded: every segment is a sequence of records, the active segment is
the newest and is written to its end. -/
structure LogOK (l : Log) : Prop where
  records : ∀ e ∈ l.files.entries, ∃ rs, e.2 = encodeRecords rs ∧ ∀ r ∈ rs, LengthsFit r
  newest : ∀ e ∈ l.files.entries, e.1 ≤ l.active.id
  size_eq : l.active.size = l.activeFile.length

theorem scanSegment_encodeRecords {rs : List (Bytes × Bytes)} (hfit : ∀ r ∈ rs, LengthsFit r) :
    scanSegment (encodeRecords rs) = ((encodeRecords rs).length, false) := by
  have hscan : scanRecords (encodeRecords rs ++ []) = (rs, []) :=
    scanRecords_encodeRecords hfit (by simp)
  rw [List.append_nil] at hscan
  simp [scanSegment, hscan]

theorem Log.activeFile_eq {l : Log} {f : Bytes} (h : l.files.get l.active.id = some f) :
    l.activeFile = f := by
  rw [l.get_activeFile] at h
  exact Option.some.inj h

/-- An active segment that is the newest comes last. -/
theorem Log.entries_eq_of_newest {l : Log} (h : ∀ e ∈ l.files.entries, e.1 ≤ l.active.id) :
    ∃ es, l.files.entries = es ++ [(l.active.id, l.activeFile)] ∧ ∀ e ∈ es, e.1 < l.active.id := by
  obtain ⟨es, rest, hsplit⟩ :=
    List.append_of_mem (OrdMap.get_eq_some_iff.mp l.get_activeFile)
  have hsorted := l.files.sorted
  rw [hsplit] at hsorted
  obtain ⟨-, htail, hlt⟩ := List.pairwise_append.mp hsorted
  -- nothing is newer than the active segment
  obtain rfl : rest = [] := by
    refine List.eq_nil_iff_forall_not_mem.mpr fun e he => ?_
    have hle := h e (by rw [hsplit]; simp [he])
    exact absurd ((List.pairwise_cons.mp htail).1 e he) (not_lt.mpr hle)
  exact ⟨es, hsplit, fun e he => hlt e he _ List.mem_cons_self⟩

theorem logOK_openEmpty (segmentMaxBytes : ℕ) (now : UInt64) :
    LogOK (Log.openEmpty segmentMaxBytes now) := by
  have hmem : ∀ e ∈ (Log.openEmpty segmentMaxBytes now).files.entries,
      e = (nextSegmentID 0 now, []) := by
    intro e he
    rcases mem_insertList he with rfl | he
    · rfl
    · simp [OrdMap.empty] at he
  refine ⟨fun e he => ?_, fun e he => ?_, ?_⟩
  · rw [hmem e he]
    exact ⟨[], rfl, by simp⟩
  · rw [hmem e he]
    exact le_rfl
  · refine (congrArg List.length (Log.activeFile_eq (f := []) ?_)).symm
    simp [Log.openEmpty, OrdMap.get_insert]

/-! ## Reopening -/

/-- The limit `Open` works with. -/
def segmentLimit (segmentMaxBytes : ℤ) : ℕ :=
  if segmentMaxBytes ≤ 0 then defaultSegmentMaxBytes else segmentMaxBytes.toNat

/-- The segments of a directory are whole records. -/
def WholeRecords (segments : OrdMap UInt64 Bytes) : Prop :=
  ∀ e ∈ segments.entries, ∃ rs, e.2 = encodeRecords rs ∧ ∀ r ∈ rs, LengthsFit r

/-- What a log is after `Open`. -/
structure Opened (segmentMaxBytes : ℤ) (segments : OrdMap UInt64 Bytes) (now : UInt64) (l : Log) :
    Prop where
  ok : LogOK l
  opened : l.closed = false
  limit_eq : l.segmentMaxBytes = segmentLimit segmentMaxBytes
  files_eq : segments.entries ≠ [] → l.files = segments
  fresh : segments.entries = [] → l = Log.openEmpty (segmentLimit segmentMaxBytes) now

/-- **Whole records are opened as they are**, and writing goes on at the end of the newest segment. -/
theorem WholeRecords.open {segments : OrdMap UInt64 Bytes} (h : WholeRecords segments)
    (segmentMaxBytes : ℤ) (now : UInt64) :
    ∃ l, Log.open segmentMaxBytes segments now = .ok l ∧
      Opened segmentMaxBytes segments now l := by
  cases hlast : segments.entries.getLast? with
  | none =>
    have hnil := List.getLast?_eq_none_iff.mp hlast
    refine ⟨_, by simp only [Log.open, hlast]; rfl, logOK_openEmpty _ _, rfl, rfl, ?_, fun _ => rfl⟩
    exact fun hne => absurd hnil hne
  | some newest =>
    -- the scan of whole records ends at the end of the file
    have hscan : ∀ e ∈ segments.entries, scanSegment e.2 = (e.2.length, false) := by
      intro e he
      obtain ⟨rs, hrs, hfit⟩ := h e he
      rw [hrs, scanSegment_encodeRecords hfit]
    have hin : newest ∈ segments.entries := List.mem_of_getLast? hlast
    have hget : segments.get newest.1 = some newest.2 := OrdMap.get_eq_some_iff.mpr hin
    have hany : (segments.entries.dropLast.any fun e => (scanSegment e.2).2) = false := by
      rw [List.any_eq_false]
      intro e he
      rw [hscan e (List.mem_of_mem_dropLast he)]
      simp
    have hsame : segments.insert newest.1 (newest.2.take newest.2.length) = segments := by
      rw [List.take_length, OrdMap.insert_eq_self hget]
    have hmax : ∀ e ∈ segments.entries, e.1 ≤ newest.1 := by
      obtain ⟨es, hes⟩ := List.getLast?_eq_some_iff.mp hlast
      have hsorted := segments.sorted
      intro e he
      rw [hes] at hsorted he
      rcases List.mem_append.mp he with he | he
      · exact ((List.pairwise_append.mp hsorted).2.2 e he newest (by simp)).le
      · rw [List.mem_singleton.mp he]
    refine ⟨_, by simp only [Log.open, hlast, hany, Bool.false_eq_true, if_false]; rfl, ?_⟩
    simp only [hscan newest hin, hsame]
    refine ⟨⟨h, hmax, ?_⟩, rfl, rfl, fun _ => rfl, fun hnil => ?_⟩
    · exact (congrArg List.length (Log.activeFile_eq hget)).symm
    · rw [hnil] at hin
      simp at hin

/-- Two sound logs over the same segments write at the same place. -/
theorem LogOK.active_eq {l l' : Log} (h : LogOK l) (h' : LogOK l') (hf : l'.files = l.files) :
    l'.active = l.active := by
  have hmem : (l.active.id, l.activeFile) ∈ l.files.entries :=
    OrdMap.get_eq_some_iff.mp l.get_activeFile
  have hmem' : (l'.active.id, l'.activeFile) ∈ l'.files.entries :=
    OrdMap.get_eq_some_iff.mp l'.get_activeFile
  have hid : l'.active.id = l.active.id :=
    le_antisymm (h.newest _ (hf ▸ hmem')) (h'.newest _ (hf ▸ hmem))
  have hfile : l'.activeFile = l.activeFile := by
    apply Log.activeFile_eq
    rw [hf, hid, l.get_activeFile]
  have hsize : l'.active.size = l.active.size := by rw [h'.size_eq, h.size_eq, hfile]
  cases ha : l.active
  cases ha' : l'.active
  simp_all

/-- **A log without failed appends is opened as it was left**, up to the limit it is opened with. -/
theorem LogOK.open_eq {l : Log} (h : LogOK l) (segmentMaxBytes : ℤ) (now : UInt64) :
    ∃ l', Log.open segmentMaxBytes l.files now = .ok l' ∧ l'.files = l.files ∧
      l'.active = l.active ∧ LogOK l' ∧ l'.closed = false ∧
      l'.segmentMaxBytes = segmentLimit segmentMaxBytes := by
  obtain ⟨l', hopen, hl'⟩ := WholeRecords.open h.records segmentMaxBytes now
  have hne : l.files.entries ≠ [] := by
    have hmem := OrdMap.get_eq_some_iff.mp l.get_activeFile
    exact List.ne_nil_of_mem hmem
  have hfiles := hl'.files_eq hne
  exact ⟨l', hopen, hfiles, h.active_eq hl'.ok hfiles, hl'.ok, hl'.opened, hl'.limit_eq⟩

/-! ## Appending -/

/-- A whole record at the end of the active segment. -/
theorem LogOK.writeRecord {l : Log} (h : LogOK l) {k v : Bytes} (hfit : LengthsFit (k, v))
    (hsize : l.active.size + (encodeRecord k v).length < 2 ^ 63) :
    ∃ ref l', l.writeRecord k v none = (.ok ref, l') ∧ LogOK l' ∧
      l'.segmentMaxBytes = l.segmentMaxBytes ∧ l'.active.id = l.active.id := by
  have hend : writeAt l.activeFile l.active.size (encodeRecord k v) =
      l.activeFile ++ encodeRecord k v := by
    rw [h.size_eq]
    exact writeAt_end _ _
  obtain ⟨rs, hrs, hrsfit⟩ := h.records _ (OrdMap.get_eq_some_iff.mp l.get_activeFile)
  simp only [Log.writeRecord, Option.getD_none, List.take_length]
  rw [if_neg (by omega)]
  refine ⟨_, _, rfl, ⟨fun e he => ?_, fun e he => ?_, ?_⟩, rfl, rfl⟩
  · rcases mem_insertList he with rfl | he
    · refine ⟨rs ++ [(k, v)], ?_, ?_⟩
      · dsimp only at hrs ⊢
        rw [hend, encodeRecords_append, ← hrs]
        simp [encodeRecords]
      · intro r hr
        rcases List.mem_append.mp hr with hr | hr
        · exact hrsfit r hr
        · exact List.mem_singleton.mp hr ▸ hfit
    · exact h.records e he
  · rcases mem_insertList he with rfl | he
    · exact le_rfl
    · exact h.newest e he
  · refine Eq.trans ?_ (congrArg List.length
      (Log.activeFile_eq (f := l.activeFile ++ encodeRecord k v) ?_)).symm
    · rw [List.length_append, ← h.size_eq]
      rfl
    · dsimp only
      rw [OrdMap.get_insert, if_pos rfl, hend]

/-- A rotation at a reading beyond the active id opens an empty newest segment. -/
theorem LogOK.rotate {l : Log} (h : LogOK l) {now : UInt64} (hnow : l.active.id < now) :
    ∃ l', l.rotateSegmentLocked l.active.id now = .ok l' ∧ LogOK l' ∧
      l'.segmentMaxBytes = l.segmentMaxBytes ∧ l'.active = ⟨now, 0⟩ := by
  have hid : nextSegmentID l.active.id now = now := if_neg (not_le.mpr hnow)
  have hfree : l.files.get now = none := by
    refine OrdMap.get_eq_none_iff.mpr fun e he heq => ?_
    exact absurd (h.newest e he) (not_le.mpr (heq ▸ hnow))
  simp only [Log.rotateSegmentLocked, hid, hfree, Option.isSome_none, Bool.false_eq_true, if_false]
  refine ⟨_, rfl, ⟨fun e he => ?_, fun e he => ?_, ?_⟩, rfl, rfl⟩
  · rcases mem_insertList he with rfl | he
    · exact ⟨[], rfl, by simp⟩
    · exact h.records e he
  · rcases mem_insertList he with rfl | he
    · exact le_rfl
    · exact (h.newest e he).trans hnow.le
  · refine (congrArg List.length (Log.activeFile_eq (f := []) ?_)).symm
    dsimp only
    rw [OrdMap.get_insert, if_pos rfl]

/-- A log that is open, sound, and whose limit is a file size. -/
structure LogReady (l : Log) : Prop where
  ok : LogOK l
  opened : l.closed = false
  limit : l.segmentMaxBytes < 2 ^ 63

theorem logReady_openEmpty {segmentMaxBytes : ℕ} (hlimit : segmentMaxBytes < 2 ^ 63) (now : UInt64) :
    LogReady (Log.openEmpty segmentMaxBytes now) := ⟨logOK_openEmpty _ now, rfl, hlimit⟩

/-- **Appending a record that fits its header succeeds** at a reading beyond the active id. -/
theorem LogReady.append {l : Log} (h : LogReady l) {k v : Bytes} (hfit : LengthsFit (k, v))
    {now : UInt64} (hnow : l.active.id < now) :
    ∃ ref l', l.append k v now none = (.ok ref, l') ∧ LogReady l' ∧ l'.active.id ≤ now := by
  have hlen := length_encodeRecord k v
  have hk : k.length < 2 ^ 32 := hfit.1
  have hv : v.length < 2 ^ 32 := hfit.2
  have hlimit := h.limit
  simp only [recordHeaderSize] at hlen
  suffices hs : ∃ ref l', l.append k v now none = (.ok ref, l') ∧ LogOK l' ∧
      l'.segmentMaxBytes = l.segmentMaxBytes ∧ l'.active.id ≤ now by
    obtain ⟨ref, l', happ, hok, hmax, hid⟩ := hs
    exact ⟨ref, l', happ, ⟨hok, (Log.append_stored happ).2, hmax ▸ hlimit⟩, hid⟩
  rw [Log.append, if_neg (by simp only [recordHeaderSize]; omega), if_neg (by simp [h.opened])]
  by_cases hrot : 0 < l.active.size ∧
      l.segmentMaxBytes < l.active.size + (recordHeaderSize + (k.length + v.length))
  · obtain ⟨l₁, hr, hok₁, hmax₁, hact₁⟩ := h.ok.rotate hnow
    obtain ⟨ref, l₂, hw, hok₂, hmax₂, hid₂⟩ := hok₁.writeRecord hfit
      (by rw [hact₁, hlen]; dsimp only; omega)
    rw [if_pos hrot, hr]
    refine ⟨ref, l₂, hw, hok₂, hmax₂.trans hmax₁, ?_⟩
    rw [hid₂, hact₁]
  · obtain ⟨ref, l₁, hw, hok₁, hmax₁, hid₁⟩ := h.ok.writeRecord hfit
      (by simp only [recordHeaderSize] at hrot; omega)
    rw [if_neg hrot]
    exact ⟨ref, l₁, hw, hok₁, hmax₁, hid₁ ▸ hnow.le⟩

end Seol.Vlog
