import Seol.Common.Transition
import Seol.Vlog.Open

/-!
# Histories of a value log

Reference: `Append`, `Close` and `Open` in `vlog/vlog.go`. A history is any sequence of successful
appends, interleaved with closing the log and opening its directory again under the same limit. The
invariant ties the segments on disk to the references that were handed out: every segment is a
sequence of records within the limit or a single record, and every reference names a record that is
still there.
-/

namespace Seol.Vlog

open Common

/-- A value log over its lifetime: the segments of a directory, or an open log. -/
inductive LogState where
  | shut (segments : OrdMap UInt64 Bytes)
  | running (log : Log)

/-- The segments on disk. -/
def LogState.segments : LogState → OrdMap UInt64 Bytes
  | .shut segments => segments
  | .running log => log.files

/-- A successful `Append` and the reference it returned. -/
structure Appended where
  key : Bytes
  value : Bytes
  ref : ValueRef

/-- What happens to a value log. -/
inductive LogEvent where
  | append (a : Appended)
  | close
  | open

/-- One operation that succeeds. The clock may read anything whenever it is asked. -/
inductive LogStep (segmentMaxBytes : ℤ) : LogState → LogEvent → LogState → Prop
  | append {l l' : Log} {a : Appended} {now : UInt64} {fault : Option ℕ}
      (hfit : LengthsFit (a.key, a.value))
      (h : l.append a.key a.value now fault = (.ok a.ref, l')) :
      LogStep segmentMaxBytes (.running l) (.append a) (.running l')
  | close (l : Log) : LogStep segmentMaxBytes (.running l) .close (.shut l.files)
  | open {segments : OrdMap UInt64 Bytes} {now : UInt64} {l : Log}
      (h : Log.open segmentMaxBytes segments now = .ok l) :
      LogStep segmentMaxBytes (.shut segments) .open (.running l)

/-- The appends of a history, in order. -/
def appendsOf (es : List LogEvent) : List Appended :=
  es.filterMap fun
    | .append a => some a
    | _ => none

@[simp] theorem appendsOf_append (es es' : List LogEvent) :
    appendsOf (es ++ es') = appendsOf es ++ appendsOf es' := by
  simp [appendsOf]

@[simp] theorem appendsOf_singleton_append (a : Appended) : appendsOf [.append a] = [a] := rfl

@[simp] theorem appendsOf_singleton_close : appendsOf [.close] = [] := rfl

@[simp] theorem appendsOf_singleton_open : appendsOf [.open] = [] := rfl

/-! ## What an append does to the segments -/

/-- A successful write puts its record at the end of the active segment. -/
theorem Log.writeRecord_ok {l l' : Log} {k v : Bytes} {fault : Option ℕ} {ref : ValueRef}
    (h : l.writeRecord k v fault = (.ok ref, l')) (hsize : l.active.size = l.activeFile.length) :
    ref.segmentID = l.active.id ∧ ref.offset.toNat = l.active.size ∧
      l'.active = ⟨l.active.id, l.active.size + (encodeRecord k v).length⟩ ∧
      l'.files = l.files.insert l.active.id (l.activeFile ++ encodeRecord k v) ∧
      l'.segmentMaxBytes = l.segmentMaxBytes := by
  obtain ⟨hlt, rfl, hactive, hfiles, hmax⟩ := Log.writeRecord_eq h
  refine ⟨rfl, ?_, hactive, ?_, hmax⟩
  · rw [UInt64.toNat_ofNat', Nat.mod_eq_of_lt (by omega)]
  · rw [hfiles, hsize, writeAt_end]

/-- A successful rotation adds an empty segment and makes it active. -/
theorem Log.rotateSegmentLocked_ok {l l' : Log} {lastID now : UInt64}
    (h : l.rotateSegmentLocked lastID now = .ok l') :
    l.files.get (nextSegmentID lastID now) = none ∧ l'.active = ⟨nextSegmentID lastID now, 0⟩ ∧
      l'.files = l.files.insert (nextSegmentID lastID now) [] ∧
      l'.segmentMaxBytes = l.segmentMaxBytes := by
  simp only [Log.rotateSegmentLocked] at h
  split_ifs at h with hex
  obtain rfl := Except.ok.inj h
  exact ⟨by simpa using hex, rfl, rfl, rfl⟩

/-! ## The segments of a history -/

/-- The record of `key` and `value` lies in the segment that `ref` names. -/
structure Filed (segments : OrdMap UInt64 Bytes) (ref : ValueRef) (key value : Bytes) : Prop where
  file : ∃ f, segments.get ref.segmentID = some f ∧
    ref.offset.toNat + (encodeRecord key value).length ≤ f.length ∧
    slice f ref.offset.toNat (encodeRecord key value).length = encodeRecord key value
  offset_lt : ref.offset.toNat < 2 ^ 63
  valueLen_eq : ref.valueLen = UInt32.ofNat value.length
  checksum_eq : ref.checksum = checksumIEEE value

theorem Stored.filed {l : Log} {ref : ValueRef} {key value : Bytes} (h : Stored l ref key value) :
    Filed l.files ref key value := ⟨h.file, h.offset_lt, h.valueLen_eq, h.checksum_eq⟩

/-- No append overwrites a filed record when the active segment is written to its end. -/
theorem Filed.stored {l : Log} {ref : ValueRef} {key value : Bytes}
    (h : Filed l.files ref key value) (hsize : l.active.size = l.activeFile.length) :
    Stored l ref key value := by
  refine ⟨h.file, fun hid => ?_, h.offset_lt, h.valueLen_eq, h.checksum_eq⟩
  obtain ⟨f, hf, hend, -⟩ := h.file
  rw [← hid] at hf
  rw [hsize, Log.activeFile_eq hf]
  exact hend

/-- A segment that the log wrote: a sequence of records within the limit, or a single record. -/
def SegmentOK (limit : ℕ) (f : Bytes) : Prop :=
  ∃ rs, f = encodeRecords rs ∧ (∀ r ∈ rs, LengthsFit r) ∧ (f.length ≤ limit ∨ rs.length = 1)

theorem segmentOK_nil (limit : ℕ) : SegmentOK limit [] := ⟨[], rfl, by simp, .inl (by simp)⟩

/-- The append rule: a record joins an empty segment, or one that stays within the limit. -/
theorem SegmentOK.append {limit : ℕ} {f k v : Bytes} (h : SegmentOK limit f)
    (hfit : LengthsFit (k, v))
    (hroom : f.length = 0 ∨ f.length + (encodeRecord k v).length ≤ limit) :
    SegmentOK limit (f ++ encodeRecord k v) := by
  obtain ⟨rs, rfl, hrs, -⟩ := h
  rcases hroom with hempty | hroom
  · rw [List.eq_nil_of_length_eq_zero hempty]
    exact ⟨[(k, v)], by simp [encodeRecords_singleton], by simpa using hfit, .inr rfl⟩
  · refine ⟨rs ++ [(k, v)], by simp [encodeRecords_append, encodeRecords_singleton], ?_,
      .inl (by simpa using hroom)⟩
    intro r hr
    rcases List.mem_append.mp hr with hr | hr
    · exact hrs r hr
    · exact List.mem_singleton.mp hr ▸ hfit

/-- The segments on disk and the appends that wrote them. -/
structure SegmentsInv (limit : ℕ) (segments : OrdMap UInt64 Bytes) (as : List Appended) :
    Prop where
  segment : ∀ e ∈ segments.entries, SegmentOK limit e.2
  filed : ∀ a ∈ as, LengthsFit (a.key, a.value) ∧ Filed segments a.ref a.key a.value
  occupied : ∀ e ∈ segments.entries, e.2 ≠ [] → ∃ a ∈ as, a.ref.segmentID = e.1

/-- An open log that writes at the end of its active segment, under the given limit. -/
structure RunningInv (limit : ℕ) (l : Log) : Prop where
  opened : l.closed = false
  limit_eq : l.segmentMaxBytes = limit
  size_eq : l.active.size = l.activeFile.length

variable {limit : ℕ} {as : List Appended}

theorem SegmentsInv.activeFile {l : Log} (h : SegmentsInv limit l.files as) :
    SegmentOK limit l.activeFile :=
  h.segment (l.active.id, l.activeFile) (OrdMap.get_eq_some_iff.mp l.get_activeFile)

/-- Records are never empty, so a reference lies before the end of its segment. -/
theorem Filed.offset_lt_length {segments : OrdMap UInt64 Bytes} {ref : ValueRef} {k v f : Bytes}
    (h : Filed segments ref k v) (hf : segments.get ref.segmentID = some f) :
    ref.offset.toNat < f.length := by
  obtain ⟨g, hg, hend, -⟩ := h.file
  obtain rfl := Option.some.inj (hf.symm.trans hg)
  rw [length_encodeRecord] at hend
  simp only [recordHeaderSize] at hend
  omega

/-! ## Steps -/

/-- The segments after a rotation. -/
theorem SegmentsInv.rotate {l l' : Log} {now : UInt64} (h : SegmentsInv limit l.files as)
    (hl : RunningInv limit l) (hr : l.rotateSegmentLocked l.active.id now = .ok l') :
    SegmentsInv limit l'.files as ∧ RunningInv limit l' ∧ l'.activeFile = [] := by
  obtain ⟨-, hactive, hfiles, hmax⟩ := Log.rotateSegmentLocked_ok hr
  have hfile : l'.activeFile = [] := by
    apply Log.activeFile_eq
    rw [hactive, hfiles, OrdMap.get_insert, if_pos rfl]
  refine ⟨⟨fun e he => ?_, fun a ha => ?_, fun e he hne => ?_⟩,
    ⟨(Log.rotateSegmentLocked_closed hr).trans hl.opened, hmax.trans hl.limit_eq, ?_⟩, hfile⟩
  · rw [hfiles] at he
    rcases mem_insertList he with rfl | he
    · exact segmentOK_nil limit
    · exact h.segment e he
  · obtain ⟨hfit, hfiled⟩ := h.filed a ha
    exact ⟨hfit, ((hfiled.stored hl.size_eq).rotate hr).filed⟩
  · rw [hfiles] at he
    rcases mem_insertList he with rfl | he
    · exact absurd rfl hne
    · exact h.occupied e he hne
  · rw [hfile, hactive]
    rfl

/-- The segments after a record was written where it has room. -/
theorem SegmentsInv.write {l l' : Log} {a : Appended} {fault : Option ℕ}
    (h : SegmentsInv limit l.files as) (hl : RunningInv limit l)
    (hfit : LengthsFit (a.key, a.value))
    (hroom : l.active.size = 0 ∨ l.active.size + (encodeRecord a.key a.value).length ≤ limit)
    (hw : l.writeRecord a.key a.value fault = (.ok a.ref, l')) :
    SegmentsInv limit l'.files (as ++ [a]) ∧ RunningInv limit l' := by
  obtain ⟨hid, -, hactive, hfiles, hmax⟩ := Log.writeRecord_ok hw hl.size_eq
  have hclosed : l'.closed = l.closed := by
    rw [← l.writeRecord_closed a.key a.value fault, hw]
  have hfile : l'.activeFile = l.activeFile ++ encodeRecord a.key a.value := by
    apply Log.activeFile_eq
    rw [hactive, hfiles, OrdMap.get_insert, if_pos rfl]
  refine ⟨⟨fun e he => ?_, fun b hb => ?_, fun e he hne => ?_⟩,
    ⟨hclosed.trans hl.opened, hmax.trans hl.limit_eq, ?_⟩⟩
  · rw [hfiles] at he
    rcases mem_insertList he with rfl | he
    · exact h.activeFile.append hfit (hl.size_eq ▸ hroom)
    · exact h.segment e he
  -- records before the new one lie in front of it, or in other segments
  · rcases List.mem_append.mp hb with hb | hb
    · obtain ⟨hfitb, hfiled⟩ := h.filed b hb
      have hstored := (hfiled.stored hl.size_eq).writeRecord a.key a.value fault
      rw [hw] at hstored
      exact ⟨hfitb, hstored.filed⟩
    · obtain rfl := List.mem_singleton.mp hb
      exact ⟨hfit, (Log.writeRecord_stored hw).filed⟩
  · rw [hfiles] at he
    rcases mem_insertList he with rfl | he
    · exact ⟨a, by simp, hid⟩
    · obtain ⟨b, hb, hbid⟩ := h.occupied e he hne
      exact ⟨b, List.mem_append_left _ hb, hbid⟩
  · rw [hfile, hactive, List.length_append, ← hl.size_eq]

/-- **A successful append keeps the segments sound** and adds its record to them. -/
theorem SegmentsInv.append {l l' : Log} {a : Appended} {now : UInt64} {fault : Option ℕ}
    (h : SegmentsInv limit l.files as) (hl : RunningInv limit l)
    (hfit : LengthsFit (a.key, a.value))
    (happ : l.append a.key a.value now fault = (.ok a.ref, l')) :
    SegmentsInv limit l'.files (as ++ [a]) ∧ RunningInv limit l' := by
  rcases (Log.append_cases happ).2 with ⟨hroom, hw⟩ | ⟨-, m, hr, hw⟩
  · exact h.write hl hfit (hl.limit_eq ▸ hroom) hw
  · obtain ⟨hm, hml, hempty⟩ := h.rotate hl hr
    refine hm.write hml hfit (.inl ?_) hw
    rw [hml.size_eq, hempty]
    rfl

theorem SegmentsInv.whole {segments : OrdMap UInt64 Bytes} (h : SegmentsInv limit segments as) :
    WholeRecords segments := by
  intro e he
  obtain ⟨rs, hrs, hfit, -⟩ := h.segment e he
  exact ⟨rs, hrs, hfit⟩

/-- **Segments that the log wrote are opened as they are**, and writing goes on in the newest. -/
theorem SegmentsInv.open {segments : OrdMap UInt64 Bytes} {segmentMaxBytes : ℤ}
    (h : SegmentsInv (segmentLimit segmentMaxBytes) segments as) (now : UInt64) :
    ∃ l, Log.open segmentMaxBytes segments now = .ok l ∧
      SegmentsInv (segmentLimit segmentMaxBytes) l.files as ∧
      RunningInv (segmentLimit segmentMaxBytes) l ∧
      ∀ e ∈ l.files.entries, e.1 ≤ l.active.id := by
  obtain ⟨l, hopen, hl⟩ := h.whole.open segmentMaxBytes now
  refine ⟨l, hopen, ?_, ⟨hl.opened, hl.limit_eq, hl.ok.size_eq⟩, hl.ok.newest⟩
  by_cases hnil : segments.entries = []
  · -- an empty directory: nothing was appended, and one segment is created
    have hmem : ∀ e ∈ l.files.entries, e = (nextSegmentID 0 now, []) := by
      rw [hl.fresh hnil]
      intro e he
      rcases mem_insertList he with rfl | he
      · rfl
      · simp [OrdMap.empty] at he
    refine ⟨fun e he => ?_, fun a ha => ?_, fun e he hne => ?_⟩
    · rw [hmem e he]
      exact segmentOK_nil _
    · obtain ⟨f, hf, -⟩ := (h.filed a ha).2.file
      rw [OrdMap.get_eq_some_iff, hnil] at hf
      simp at hf
    · rw [hmem e he] at hne
      exact absurd rfl hne
  · rw [hl.files_eq hnil]
    exact h

/-! ## The order of references -/

/-- The active segment is the newest one. -/
def Newest (l : Log) : Prop := ∀ e ∈ l.files.entries, e.1 ≤ l.active.id

/-- `a` was stored before `b`: in an older segment, or earlier in the same one. -/
def Earlier (a b : Appended) : Prop :=
  a.ref.segmentID < b.ref.segmentID ∨
    a.ref.segmentID = b.ref.segmentID ∧ a.ref.offset < b.ref.offset

/-- The references stay below the largest segment id, after which ids would start again at zero. -/
def IdsBelow (as : List Appended) : Prop := ∀ a ∈ as, a.ref.segmentID.toNat < 2 ^ 64 - 1

theorem lt_nextSegmentID {lastID : UInt64} (h : lastID.toNat < 2 ^ 64 - 1) (now : UInt64) :
    lastID < nextSegmentID lastID now := by
  unfold nextSegmentID
  split_ifs with hle
  · rw [UInt64.lt_iff_toNat_lt, UInt64.toNat_add, UInt64.toNat_one]
    omega
  · exact not_le.mp hle

theorem Newest.write {l l' : Log} {k v : Bytes} {fault : Option ℕ} {ref : ValueRef}
    (h : Newest l) (hsize : l.active.size = l.activeFile.length)
    (hw : l.writeRecord k v fault = (.ok ref, l')) : Newest l' := by
  obtain ⟨-, -, hactive, hfiles, -⟩ := Log.writeRecord_ok hw hsize
  intro e he
  rw [hactive]
  rw [hfiles] at he
  rcases mem_insertList he with rfl | he
  · exact le_rfl
  · exact h e he

/-- A rotation is asked for when the active segment holds a record, so its id is in use and the
fresh id lies above it. -/
theorem Newest.rotate {l l' : Log} {now : UInt64} (h : Newest l) (hl : RunningInv limit l)
    (hs : SegmentsInv limit l.files as) (hbelow : IdsBelow as) (hpos : 0 < l.active.size)
    (hr : l.rotateSegmentLocked l.active.id now = .ok l') : Newest l' := by
  obtain ⟨-, hactive, hfiles, -⟩ := Log.rotateSegmentLocked_ok hr
  have hne : l.activeFile ≠ [] := by
    intro hnil
    rw [hl.size_eq, hnil] at hpos
    exact absurd hpos (lt_irrefl 0)
  obtain ⟨a, ha, hid⟩ := hs.occupied (l.active.id, l.activeFile)
    (OrdMap.get_eq_some_iff.mp l.get_activeFile) hne
  -- the segment to leave holds a record, whose id is below the greatest one
  have hlt : l.active.id < nextSegmentID l.active.id now := by
    have hlast := hbelow a ha
    rw [hid] at hlast
    exact lt_nextSegmentID hlast now
  intro e he
  rw [hactive]
  rw [hfiles] at he
  rcases mem_insertList he with rfl | he
  · exact le_rfl
  · exact (h e he).trans hlt.le

/-- A record written to the newest segment comes after everything that was stored. -/
theorem Newest.earlier {l l' : Log} {a b : Appended} {fault : Option ℕ} (h : Newest l)
    (hs : SegmentsInv limit l.files as) (hsize : l.active.size = l.activeFile.length)
    (hw : l.writeRecord a.key a.value fault = (.ok a.ref, l')) (hb : b ∈ as) : Earlier b a := by
  obtain ⟨hid, hoffset, -⟩ := Log.writeRecord_ok hw hsize
  have hfiled := (hs.filed b hb).2
  obtain ⟨f, hf, -⟩ := hfiled.file
  have hle : b.ref.segmentID ≤ a.ref.segmentID := hid ▸ h _ (OrdMap.get_eq_some_iff.mp hf)
  rcases hle.lt_or_eq with hlt | heq
  · exact .inl hlt
  · refine .inr ⟨heq, ?_⟩
    have hlast := hfiled.offset_lt_length hf
    rw [heq, hid] at hf
    rw [UInt64.lt_iff_toNat_lt, hoffset, hsize, Log.activeFile_eq hf]
    exact hlast

/-- The references of a history are ordered, and writing goes on in the newest segment. -/
structure OrderInv (st : LogState) (as : List Appended) : Prop where
  ordered : as.Pairwise Earlier
  newest : ∀ l, st = .running l → Newest l

theorem OrderInv.append {l l' : Log} {a : Appended} {now : UInt64} {fault : Option ℕ}
    (h : OrderInv (.running l) as) (hs : SegmentsInv limit l.files as) (hl : RunningInv limit l)
    (hbelow : IdsBelow as) (happ : l.append a.key a.value now fault = (.ok a.ref, l')) :
    OrderInv (.running l') (as ++ [a]) := by
  have hnewest := h.newest l rfl
  -- the log that the record is written to: the given one, or the rotated one
  obtain ⟨m, hm, hml, hms, hw⟩ : ∃ m, Newest m ∧ RunningInv limit m ∧
      SegmentsInv limit m.files as ∧ m.writeRecord a.key a.value fault = (.ok a.ref, l') := by
    rcases (Log.append_cases happ).2 with ⟨-, hw⟩ | ⟨hpos, m, hr, hw⟩
    · exact ⟨l, hnewest, hl, hs, hw⟩
    · obtain ⟨hms, hml, -⟩ := hs.rotate hl hr
      exact ⟨m, hnewest.rotate hl hs hbelow hpos hr, hml, hms, hw⟩
  refine ⟨?_, ?_⟩
  · rw [List.pairwise_append]
    refine ⟨h.ordered, List.pairwise_singleton _ _, fun b hb c hc => ?_⟩
    rw [List.mem_singleton.mp hc]
    exact hm.earlier hms hml.size_eq hw hb
  · rintro _ ⟨rfl⟩
    exact hm.write hml.size_eq hw

/-! ## Whole histories -/

/-- What holds after a history with the appends `as`. -/
structure HistoryInv (limit : ℕ) (st : LogState) (as : List Appended) : Prop where
  segments : SegmentsInv limit st.segments as
  running : ∀ l, st = .running l → RunningInv limit l
  order : IdsBelow as → OrderInv st as

theorem HistoryInv.step {segmentMaxBytes : ℤ} {st st' : LogState} {e : LogEvent}
    {as : List Appended} (h : HistoryInv (segmentLimit segmentMaxBytes) st as)
    (hstep : LogStep segmentMaxBytes st e st') :
    HistoryInv (segmentLimit segmentMaxBytes) st' (as ++ appendsOf [e]) := by
  cases hstep with
  | append hfit happ =>
    have hl := h.running _ rfl
    obtain ⟨hs', hl'⟩ := h.segments.append hl hfit happ
    refine ⟨hs', ?_, fun hbelow => ?_⟩
    · rintro _ ⟨rfl⟩
      exact hl'
    · have hbelow' : IdsBelow as := fun b hb => hbelow b (List.mem_append_left _ hb)
      exact (h.order hbelow').append h.segments hl hbelow' happ
  | close l =>
    rw [appendsOf_singleton_close, List.append_nil]
    exact ⟨h.segments, by simp, fun hbelow => ⟨(h.order hbelow).ordered, by simp⟩⟩
  | «open» hopen =>
    rw [appendsOf_singleton_open, List.append_nil]
    obtain ⟨l, hl, hs', hl', hnewest⟩ := h.segments.open _
    obtain rfl := Except.ok.inj (hopen.symm.trans hl)
    refine ⟨hs', ?_, fun hbelow => ⟨(h.order hbelow).ordered, ?_⟩⟩
    · rintro _ ⟨rfl⟩
      exact hl'
    · rintro _ ⟨rfl⟩
      exact hnewest

theorem HistoryInv.run {segmentMaxBytes : ℤ} {st : LogState} {es : List LogEvent}
    (h : Run (LogStep segmentMaxBytes) (.shut OrdMap.empty) es st) :
    HistoryInv (segmentLimit segmentMaxBytes) st (appendsOf es) := by
  induction h with
  | refl =>
    refine ⟨⟨?_, ?_, ?_⟩, by simp, fun _ => ⟨List.Pairwise.nil, by simp⟩⟩
    · simp [LogState.segments, OrdMap.empty]
    · simp [appendsOf]
    · simp [LogState.segments, OrdMap.empty]
  | tail _ hstep ih =>
    rw [appendsOf_append]
    exact ih.step hstep

/-- The log that reads are served from: the open one, or whatever opening the directory gives. -/
def LogState.Serves (segmentMaxBytes : ℤ) (st : LogState) (l : Log) : Prop :=
  match st with
  | .running l' => l = l'
  | .shut segments => ∃ now, Log.open segmentMaxBytes segments now = .ok l

/-- **References stay valid.** In every history of a log, a directory that was left can be opened;
every reference ever returned is read back by both readers; while ids stay below the largest one,
references are handed out in increasing order of segment and offset; and a segment longer than the
limit is a single record. -/
theorem references_stay_valid {segmentMaxBytes : ℤ} {st : LogState} {es : List LogEvent}
    (h : Run (LogStep segmentMaxBytes) (.shut OrdMap.empty) es st) :
    (∃ l, st.Serves segmentMaxBytes l) ∧
      (∀ l, st.Serves segmentMaxBytes l → ∀ a ∈ appendsOf es,
        l.readValue a.ref = .ok a.value ∧ l.readRecord a.ref = .ok (a.key, a.value)) ∧
      (IdsBelow (appendsOf es) → (appendsOf es).Pairwise Earlier) ∧
      ∀ e ∈ st.segments.entries, e.2.length ≤ segmentLimit segmentMaxBytes ∨
        ∃ key value, e.2 = encodeRecord key value := by
  have hinv := HistoryInv.run h
  -- every log that serves reads holds the segments and writes at the end of the active one
  have hserved : ∀ l, st.Serves segmentMaxBytes l →
      SegmentsInv (segmentLimit segmentMaxBytes) l.files (appendsOf es) ∧
        RunningInv (segmentLimit segmentMaxBytes) l := by
    intro l hl
    cases st with
    | running l' =>
      obtain rfl : l = l' := hl
      exact ⟨hinv.segments, hinv.running l rfl⟩
    | shut segments =>
      obtain ⟨now, hopen⟩ := hl
      obtain ⟨l', hl', hs, hr, -⟩ := hinv.segments.open now
      obtain rfl := Except.ok.inj (hopen.symm.trans hl')
      exact ⟨hs, hr⟩
  refine ⟨?_, fun l hl a ha => ?_, fun hbelow => (hinv.order hbelow).ordered, fun e he => ?_⟩
  · cases st with
    | running l => exact ⟨l, rfl⟩
    | shut segments =>
      obtain ⟨l, hl, -⟩ := hinv.segments.open 0
      exact ⟨l, 0, hl⟩
  · obtain ⟨hs, hr⟩ := hserved l hl
    obtain ⟨hfit, hfiled⟩ := hs.filed a ha
    have hstored := hfiled.stored hr.size_eq
    exact ⟨hstored.readValue hr.opened hfit.1 hfit.2, hstored.readRecord hr.opened hfit.1 hfit.2⟩
  · obtain ⟨rs, hrs, -, hle | hone⟩ := hinv.segments.segment e he
    · exact .inl hle
    · obtain ⟨⟨key, value⟩, rfl⟩ := List.length_eq_one_iff.mp hone
      exact .inr ⟨key, value, hrs.trans (encodeRecords_singleton key value)⟩

/-- One append between two openings of the directory. -/
theorem references_stay_valid_reopened :
    ∃ l, Run (LogStep 0) (.shut OrdMap.empty)
        [.open, .append ⟨[1], [2], ⟨5, 0, 1, checksumIEEE [2]⟩⟩, .close, .open] (.running l) ∧
      l.readRecord ⟨5, 0, 1, checksumIEEE [2]⟩ = .ok ([1], [2]) := by
  obtain ⟨l₁, happ, -⟩ := Log.append_openEmpty (segmentLimit 0) 5 5 (k := [1]) (v := [2]) (by decide)
  have hopen : Run (LogStep 0) (.shut OrdMap.empty) [.open]
      (.running (Log.openEmpty (segmentLimit 0) 5)) := .single (.open rfl)
  have happend := hopen.tail
    (.append (a := ⟨[1], [2], ⟨5, 0, 1, checksumIEEE [2]⟩⟩) ⟨by decide, by decide⟩ happ)
  have hclose := happend.tail (.close l₁)
  obtain ⟨l, now, hl⟩ := (references_stay_valid hclose).1
  have hrun := hclose.tail (.open hl)
  exact ⟨l, hrun, ((references_stay_valid hrun).2.1 l rfl _ (List.mem_singleton_self _)).2⟩

end Seol.Vlog
