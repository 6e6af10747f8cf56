import Seol.Vlog.Open

/-!
# Appends that a stop interrupts

Reference: `Log.Append`, `Open` and `scanSegment` in `vlog/vlog.go`. A process that stops inside `Append`
leaves any number of bytes of the record behind, possibly in a segment that was just created. A record
that is not whole is cut off by the next `Open`; a whole one is kept. Either way the segments are
opened like those of a sound log (`OpensAs`).
-/

namespace Seol.Vlog

open Common

/-- Segments with the same ids that every `Open` turns into the same log. -/
structure OpensAs (segments segments' : OrdMap UInt64 Bytes) : Prop where
  ids_eq : segments.entries.map Prod.fst = segments'.entries.map Prod.fst
  open_eq : ∀ segmentMaxBytes now,
    Log.open segmentMaxBytes segments now = Log.open segmentMaxBytes segments' now

theorem OpensAs.refl (segments : OrdMap UInt64 Bytes) : OpensAs segments segments :=
  ⟨rfl, fun _ _ => rfl⟩

theorem OpensAs.trans {s s' s'' : OrdMap UInt64 Bytes} (h : OpensAs s s') (h' : OpensAs s' s'') :
    OpensAs s s'' :=
  ⟨h.ids_eq.trans h'.ids_eq, fun limit now => (h.open_eq limit now).trans (h'.open_eq limit now)⟩

/-- **A torn record is cut off.** Bytes behind the last record that do not make up a record leave the
log as it was. -/
theorem LogOK.opensAs_torn {l : Log} (h : LogOK l) {t : Bytes} (ht : nextRecord t = .short) :
    OpensAs (l.files.insert l.active.id (l.activeFile ++ t)) l.files := by
  obtain ⟨es, hes, hlt⟩ := Log.entries_eq_of_newest h.newest
  obtain ⟨rs, hrs, hfit⟩ := h.records _ (OrdMap.get_eq_some_iff.mp l.get_activeFile)
  dsimp only at hrs
  have hinsert : (l.files.insert l.active.id (l.activeFile ++ t)).entries =
      es ++ [(l.active.id, l.activeFile ++ t)] := by
    change insertList _ _ l.files.entries = _
    rw [insertList_eq_map l.files.sorted ⟨_, OrdMap.get_eq_some_iff.mp l.get_activeFile, rfl⟩, hes,
      List.map_append, List.map_singleton, if_pos rfl, List.map_congr_left (g := id), List.map_id]
    exact fun e he => if_neg (hlt e he).ne
  -- the scan stops in front of the torn bytes, where the file ended
  have hscan : scanSegment (l.activeFile ++ t) = (l.activeFile.length, decide (t ≠ [])) := by
    rw [scanSegment, hrs, scanRecords_encodeRecords hfit (by simp [ht]), List.length_append,
      Nat.add_sub_cancel]
  have hwhole : scanSegment l.activeFile = (l.activeFile.length, false) := by
    rw [hrs, scanSegment_encodeRecords hfit]
  refine ⟨by rw [hinsert, hes]; simp, fun segmentMaxBytes now => ?_⟩
  simp only [Log.open, hinsert, hes, List.getLast?_concat, List.dropLast_concat, hscan, hwhole,
    List.take_left, List.take_length, OrdMap.insert_insert]

/-- **What an append writes to**: the active segment of a sound log, or a fresh segment behind it. -/
theorem LogReady.append_eq {l : Log} (h : LogReady l) {k v : Bytes} (hfit : LengthsFit (k, v))
    {now : UInt64} (hnow : l.active.id < now) :
    ∃ l₁, LogReady l₁ ∧
      l₁.active.size + (encodeRecord k v).length < 2 ^ 63 ∧
      ∀ fault, l.append k v now fault = l₁.writeRecord k v fault := by
  have hlen := length_encodeRecord k v
  have hk : k.length < 2 ^ 32 := hfit.1
  have hv : v.length < 2 ^ 32 := hfit.2
  have hlimit := h.limit
  simp only [recordHeaderSize] at hlen
  have hsum : ¬ (recordHeaderSize + (k.length + v.length)) % 2 ^ 64 < (k.length + v.length) % 2 ^ 64 := by
    simp only [recordHeaderSize]
    omega
  -- a full segment is left for a fresh one, which takes a record of any length
  by_cases hrot : 0 < l.active.size ∧
      l.segmentMaxBytes < l.active.size + (recordHeaderSize + (k.length + v.length))
  · obtain ⟨l₁, hr, hok₁, hmax₁, hact₁⟩ := h.ok.rotate hnow
    have hclosed : l₁.closed = false := by
      have hopened := h.opened
      simp only [Log.rotateSegmentLocked] at hr
      split_ifs at hr
      rw [← Except.ok.inj hr]
      exact hopened
    refine ⟨l₁, ⟨hok₁, hclosed, hmax₁ ▸ hlimit⟩, by rw [hact₁, hlen]; dsimp only; omega,
      fun fault => ?_⟩
    rw [Log.append, if_neg hsum, if_neg (by simp [h.opened]), if_pos hrot, hr]
  · refine ⟨l, h, by simp only [recordHeaderSize] at hrot; omega, fun fault => ?_⟩
    rw [Log.append, if_neg hsum, if_neg (by simp [h.opened]), if_neg hrot]

/-- What a write leaves in the file, whole or stopped after some bytes. -/
theorem LogReady.writeRecord_files {l : Log} (h : LogReady l) {k v : Bytes}
    (hsize : l.active.size + (encodeRecord k v).length < 2 ^ 63) (fault : Option ℕ) :
    (l.writeRecord k v fault).2.files = l.files.insert l.active.id
      (l.activeFile ++ (encodeRecord k v).take (fault.getD (encodeRecord k v).length)) := by
  have hfile : ∀ data, writeAt l.activeFile l.active.size data = l.activeFile ++ data := by
    intro data
    rw [h.ok.size_eq, writeAt_end]
  cases fault <;>
    simp only [Log.writeRecord, if_neg (not_le.mpr hsize), hfile]

/-- A write that stores no byte changes nothing. -/
theorem Log.writeRecord_zero {l : Log} {k v : Bytes}
    (hsize : l.active.size + (encodeRecord k v).length < 2 ^ 63) :
    (l.writeRecord k v (some 0)).2 = l := by
  have hfile : l.files.insert l.active.id (writeAt l.activeFile l.active.size []) = l.files :=
    OrdMap.insert_eq_self l.get_activeFile
  simp only [Log.writeRecord, if_neg (not_le.mpr hsize), Option.getD_some, List.take_zero,
    Option.isSome_some, if_true, Nat.add_zero, hfile]

/-- **An append that a stop interrupts** leaves segments that are opened like those of an append that
stored nothing, or of one that went through. -/
theorem LogReady.append_interrupted {l : Log} (h : LogReady l) {k v : Bytes}
    (hfit : LengthsFit (k, v)) {now : UInt64} (hnow : l.active.id < now) (n : ℕ) :
    ∃ fault, LogReady (l.append k v now fault).2 ∧
      OpensAs (l.append k v now (some n)).2.files (l.append k v now fault).2.files := by
  obtain ⟨l₁, hready, hsize, happ⟩ := h.append_eq hfit hnow
  by_cases hn : n < (encodeRecord k v).length
  · refine ⟨some 0, ?_⟩
    rw [happ, happ, Log.writeRecord_zero hsize, hready.writeRecord_files hsize]
    exact ⟨hready, hready.ok.opensAs_torn (nextRecord_take_encodeRecord hfit.1 hfit.2 hn)⟩
  · obtain ⟨ref, l', hok, hready', -⟩ := h.append hfit hnow
    refine ⟨none, by rw [hok]; exact hready', ?_⟩
    rw [happ, happ, hready.writeRecord_files hsize, hready.writeRecord_files hsize,
      Option.getD_some, Option.getD_none, List.take_of_length_le (not_lt.mp hn), List.take_length]
    exact .refl _

end Seol.Vlog
