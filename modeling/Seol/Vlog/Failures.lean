import Seol.Vlog.History

/-!
# Failed appends

Reference: `Log.Append` and `Open` in `vlog/vlog.go`. A call of `WriteAt` that fails may have stored some
bytes of the record. `Append` leaves the end of the active segment where it was, so the next record
goes over these bytes, and what it does not cover stays behind it. `Open` cuts such bytes off the
newest segment. A rotation in between seals them in, and `Open` refuses the directory unless they
happen to be whole records.
-/

namespace Seol.Vlog

open Common

/-- A sequence of `Append` calls: what the successful ones returned, and the log after all. -/
def Log.appendAll (l : Log) : List Log.AppendCall → List Appended × Log
  | [] => ([], l)
  | c :: cs =>
    match l.append c.key c.value c.now c.fault with
    | (.ok ref, l') => (⟨c.key, c.value, ref⟩ :: (l'.appendAll cs).1, (l'.appendAll cs).2)
    | (.error _, l') => l'.appendAll cs

/-- The calls on a log over an empty directory, followed by `Close` and `Open`: the directory can be
opened, and every reference that was returned reads back its value. -/
def Recovers (segmentMaxBytes : ℤ) (start : UInt64) (calls : List Log.AppendCall) : Prop :=
  let r := (Log.openEmpty (segmentLimit segmentMaxBytes) start).appendAll calls
  ∀ now, ∃ l, Log.open segmentMaxBytes r.2.files now = .ok l ∧
    ∀ a ∈ r.1, l.readValue a.ref = .ok a.value

/-- What failed writes left behind the last record of the active segment. -/
def Log.torn (l : Log) : Bytes := l.activeFile.drop l.active.size

/-- Whenever a call moves on to a new segment, the bytes that failed writes left in the old one are
whole records, or there are none. -/
def Log.SealsClean : Log → List Log.AppendCall → Prop
  | _, [] => True
  | l, c :: cs =>
    ((l.append c.key c.value c.now c.fault).2.active.id ≠ l.active.id →
        (scanRecords l.torn).2 = []) ∧
      (l.append c.key c.value c.now c.fault).2.SealsClean cs

instance decidableSealsClean (l : Log) (calls : List Log.AppendCall) :
    Decidable (l.SealsClean calls) :=
  match calls with
  | [] => inferInstanceAs (Decidable True)
  | c :: cs =>
    have := decidableSealsClean (l.append c.key c.value c.now c.fault).2 cs
    inferInstanceAs (Decidable (_ ∧ _))

/-! ## The active segment -/

/-- A running log some of whose writes failed: the active segment is the newest one, and holds whole
records up to its size. -/
structure TornInv (l : Log) : Prop where
  opened : l.closed = false
  newest : Newest l
  records : ∃ rs, (∀ r ∈ rs, LengthsFit r) ∧ l.active.size = (encodeRecords rs).length ∧
    l.activeFile = encodeRecords rs ++ l.torn

/-- The sealed segments are whole records. -/
def SealedClean (l : Log) : Prop :=
  ∀ e ∈ l.files.entries, e.1 ≠ l.active.id → (scanRecords e.2).2 = []

theorem tornInv_openEmpty (limit : ℕ) (start : UInt64) :
    TornInv (Log.openEmpty limit start) ∧ SealedClean (Log.openEmpty limit start) := by
  have hok := logOK_openEmpty limit start
  have hfile : (Log.openEmpty limit start).activeFile = [] :=
    Log.activeFile_eq (by simp [Log.openEmpty, OrdMap.get_insert])
  refine ⟨⟨rfl, hok.newest, [], by simp, rfl, by rw [Log.torn, hfile]; rfl⟩, fun e he hne => ?_⟩
  rcases mem_insertList he with rfl | he
  · exact absurd rfl hne
  · simp [OrdMap.empty] at he

section Write

variable {l l' : Log} {k v : Bytes} {fault : Option ℕ}

/-- What a write does, whether it goes through or not: it touches the active segment alone, and moves
its end only behind a whole record. -/
theorem Log.writeRecord_spec (l : Log) (k v : Bytes) (fault : Option ℕ) :
    (l.writeRecord k v fault).2 = l ∨
      ∃ data n, (l.writeRecord k v fault).2.active = ⟨l.active.id, l.active.size + n⟩ ∧
        (l.writeRecord k v fault).2.files =
          l.files.insert l.active.id (writeAt l.activeFile l.active.size data) ∧
        (n = 0 ∨ data = encodeRecord k v ∧ n = data.length) := by
  by_cases hbig : 2 ^ 63 ≤ l.active.size + (encodeRecord k v).length
  · exact Or.inl (by simp only [Log.writeRecord, if_pos hbig])
  · right
    cases fault with
    | none =>
      refine ⟨encodeRecord k v, (encodeRecord k v).length, ?_⟩
      simp only [Log.writeRecord, if_neg hbig]
      simp
    -- a write that fails leaves bytes behind the end, but does not move the end
    | some m =>
      refine ⟨(encodeRecord k v).take m, 0, ?_⟩
      simp only [Log.writeRecord, if_neg hbig]
      simp

/-- A write keeps the records of the active segment. -/
theorem TornInv.writeRecord (h : TornInv l) (hfit : LengthsFit (k, v)) (fault : Option ℕ) :
    TornInv (l.writeRecord k v fault).2 ∧
      (l.writeRecord k v fault).2.active.id = l.active.id ∧
      (SealedClean (l.writeRecord k v fault).2 ↔ SealedClean l) := by
  have hclosed := l.writeRecord_closed k v fault
  rcases l.writeRecord_spec k v fault with hsame | ⟨data, n, hactive, hfiles, hn⟩
  · rw [hsame]
    exact ⟨h, rfl, Iff.rfl⟩
  generalize (l.writeRecord k v fault).2 = l' at hclosed hactive hfiles ⊢
  obtain ⟨rs, hrs, hsize, hsplit⟩ := h.records
  have hid : l'.active.id = l.active.id := by rw [hactive]
  -- the new bytes follow the records that were there
  have hfile : l'.activeFile = encodeRecords rs ++
      (data ++ l.activeFile.drop (l.active.size + data.length)) := by
    have hle : l.active.size ≤ l.activeFile.length := by
      rw [hsplit, List.length_append, ← hsize]
      omega
    apply Log.activeFile_eq
    rw [hid, hfiles, OrdMap.get_insert, if_pos rfl, writeAt_of_le hle, hsize]
    nth_rewrite 1 [hsplit]
    rw [List.take_left]
  refine ⟨⟨hclosed.trans h.opened, fun e he => ?_, ?_⟩, hid, ?_⟩
  · rw [hid]
    rw [hfiles] at he
    rcases mem_insertList he with rfl | he
    · exact le_rfl
    · exact h.newest e he
  · rcases hn with rfl | ⟨rfl, rfl⟩
    · -- the write failed: the end stays where it was
      refine ⟨rs, hrs, by rw [hactive, Nat.add_zero, hsize], ?_⟩
      rw [Log.torn, hactive, Nat.add_zero, hsize, hfile, List.drop_left]
    · refine ⟨rs ++ [(k, v)], ?_, ?_, ?_⟩
      · exact List.forall_mem_append.mpr ⟨hrs, List.forall_mem_singleton.mpr hfit⟩
      · rw [hactive, encodeRecords_append, encodeRecords_singleton, List.length_append, hsize]
      · rw [Log.torn, hactive, hfile, encodeRecords_append, encodeRecords_singleton,
          ← List.append_assoc, hsize, ← List.length_append, List.drop_left]
  · rw [SealedClean, SealedClean, hid, hfiles]
    refine forall_congr' fun e => ⟨fun hall he hne => ?_, fun hall he hne => ?_⟩
    · refine hall ?_ hne
      rw [← OrdMap.get_eq_some_iff, OrdMap.get_insert, if_neg (Ne.symm hne)]
      exact OrdMap.get_eq_some_iff.mpr he
    · rcases mem_insertList he with rfl | he
      · exact absurd rfl hne
      · exact hall he hne

end Write

/-- A rotation seals what the active segment holds. -/
theorem TornInv.rotate {l m : Log} {now : UInt64} (h : TornInv l)
    (hid : l.active.id.toNat < 2 ^ 64 - 1) (hr : l.rotateSegmentLocked l.active.id now = .ok m) :
    TornInv m ∧ m.active.id ≠ l.active.id ∧
      (SealedClean m ↔ SealedClean l ∧ (scanRecords l.torn).2 = []) := by
  obtain ⟨hfree, hactive, hfiles, -⟩ := Log.rotateSegmentLocked_ok hr
  obtain ⟨rs, hrs, hsize, hsplit⟩ := h.records
  have hlt := lt_nextSegmentID hid now
  have hfile : m.activeFile = [] := by
    apply Log.activeFile_eq
    rw [hactive, hfiles, OrdMap.get_insert, if_pos rfl]
  have hscan : (scanRecords l.activeFile).2 = (scanRecords l.torn).2 := by
    rw [hsplit, scanRecords_append hrs]
  refine ⟨⟨(Log.rotateSegmentLocked_closed hr).trans h.opened, fun e he => ?_, ?_⟩, ?_, ?_⟩
  · rw [hactive]
    rw [hfiles] at he
    rcases mem_insertList he with rfl | he
    · exact le_rfl
    · exact (h.newest e he).trans hlt.le
  · exact ⟨[], by simp, by rw [hactive]; rfl, by simp [Log.torn, hfile]⟩
  · rw [hactive]
    exact hlt.ne'
  · -- the sealed segments are those from before and the one that was active
    have hmem : ∀ e, e ∈ m.files.entries ∧ e.1 ≠ m.active.id ↔ e ∈ l.files.entries := by
      intro e
      rw [hfiles, hactive]
      refine ⟨fun ⟨he, hne⟩ => ?_, fun he => ?_⟩
      · exact (mem_insertList he).resolve_left fun heq => hne (by rw [heq])
      · have hne : e.1 ≠ nextSegmentID l.active.id now := ((h.newest e he).trans_lt hlt).ne
        refine ⟨?_, hne⟩
        rw [← OrdMap.get_eq_some_iff, OrdMap.get_insert, if_neg hne.symm]
        exact OrdMap.get_eq_some_iff.mpr he
    have hin := OrdMap.get_eq_some_iff.mp l.get_activeFile
    rw [← hscan]
    constructor
    · intro hall
      have hall' : ∀ e ∈ l.files.entries, (scanRecords e.2).2 = [] := fun e he =>
        hall e ((hmem e).mpr he).1 ((hmem e).mpr he).2
      exact ⟨fun e he _ => hall' e he, hall' _ hin⟩
    · rintro ⟨hsealed, hclean⟩ e he hne
      by_cases heq : e.1 = l.active.id
      · have hget := OrdMap.get_eq_some_iff.mpr ((hmem e).mp ⟨he, hne⟩)
        rw [heq] at hget
        rw [← Log.activeFile_eq hget]
        exact hclean
      · exact hsealed e ((hmem e).mp ⟨he, hne⟩) heq

/-! ## Sequences of calls -/

/-- Segment ids do not run out during the calls. -/
structure IdsLeft (l : Log) (calls : List Log.AppendCall) : Prop where
  active : l.active.id.toNat + calls.length < 2 ^ 64
  clock : ∀ c ∈ calls, c.now.toNat + calls.length < 2 ^ 64

theorem nextSegmentID_le {lastID now : UInt64} {n : ℕ} (hlast : lastID.toNat + 1 ≤ n)
    (hnow : now.toNat ≤ n) : (nextSegmentID lastID now).toNat ≤ n := by
  unfold nextSegmentID
  split_ifs
  · rw [UInt64.toNat_add, UInt64.toNat_one]
    exact (Nat.mod_le _ _).trans hlast
  · exact hnow

/-- **One call.** The records of the active segment are kept, and the sealed segments stay clean
unless the call seals bytes that are no records. -/
theorem TornInv.append {l : Log} {c : Log.AppendCall} {cs : List Log.AppendCall} (h : TornInv l)
    (hfit : LengthsFit (c.key, c.value)) (hids : IdsLeft l (c :: cs)) :
    TornInv (l.append c.key c.value c.now c.fault).2 ∧
      IdsLeft (l.append c.key c.value c.now c.fault).2 cs ∧
      (SealedClean (l.append c.key c.value c.now c.fault).2 ↔ SealedClean l ∧
        ((l.append c.key c.value c.now c.fault).2.active.id ≠ l.active.id →
          (scanRecords l.torn).2 = [])) := by
  have hroom := hids.active
  have hnow := hids.clock c List.mem_cons_self
  have hclock : ∀ d ∈ cs, d.now.toNat + cs.length < 2 ^ 64 := by
    intro d hd
    have hlt := hids.clock d (List.mem_cons_of_mem _ hd)
    rw [List.length_cons] at hlt
    omega
  rw [List.length_cons] at hroom hnow
  have hstay : IdsLeft l cs := ⟨by omega, hclock⟩
  have hsame : SealedClean l ↔ SealedClean l ∧ (l.active.id ≠ l.active.id →
      (scanRecords l.torn).2 = []) := by simp
  simp only [Log.append]
  split_ifs with hlarge hclosed hrot
  · exact ⟨h, hstay, hsame⟩
  · exact ⟨h, hstay, hsame⟩
  · cases hr : l.rotateSegmentLocked l.active.id c.now with
    | error e => exact ⟨h, hstay, hsame⟩
    | ok m =>
      -- a new segment: the old one is sealed with what it holds
      obtain ⟨hm, hne, hsealed⟩ := h.rotate (by omega) hr
      obtain ⟨hw, hid, hclean⟩ := hm.writeRecord hfit c.fault
      have hactive := (Log.rotateSegmentLocked_ok hr).2.1
      refine ⟨hw, ⟨?_, hclock⟩, ?_⟩
      · have hle : (nextSegmentID l.active.id c.now).toNat ≤ 2 ^ 64 - 1 - cs.length :=
          nextSegmentID_le (by omega) (by omega)
        rw [hid, hactive]
        dsimp only
        omega
      · rw [hclean, hsealed, hid]
        simp [hne]
  · obtain ⟨hw, hid, hclean⟩ := h.writeRecord hfit c.fault
    refine ⟨hw, ⟨by rw [hid]; exact hstay.active, hclock⟩, ?_⟩
    rw [hclean, hid]
    exact hsame

/-- **Any sequence of calls.** Every record that was appended stays where its reference says, and the
sealed segments are clean iff the calls sealed no torn bytes. -/
theorem TornInv.appendAll {l : Log} {as : List Appended} {calls : List Log.AppendCall} (h : TornInv l)
    (has : ∀ a ∈ as, LengthsFit (a.key, a.value) ∧ Stored l a.ref a.key a.value)
    (hfit : ∀ c ∈ calls, LengthsFit (c.key, c.value)) (hids : IdsLeft l calls) :
    TornInv (l.appendAll calls).2 ∧
      (∀ a ∈ as ++ (l.appendAll calls).1, LengthsFit (a.key, a.value) ∧
        Stored (l.appendAll calls).2 a.ref a.key a.value) ∧
      (SealedClean (l.appendAll calls).2 ↔ SealedClean l ∧ l.SealsClean calls) := by
  induction calls generalizing l as with
  | nil =>
    refine ⟨h, by simpa [Log.appendAll] using has, ?_⟩
    simp [Log.appendAll, Log.SealsClean]
  | cons c cs ih =>
    obtain ⟨hc, hcs⟩ := List.forall_mem_cons.mp hfit
    obtain ⟨hinv, hids', hclean⟩ := h.append hc hids
    have hkept : ∀ a ∈ as, LengthsFit (a.key, a.value) ∧
        Stored (l.append c.key c.value c.now c.fault).2 a.ref a.key a.value := fun a ha =>
      ⟨(has a ha).1, (has a ha).2.append _ _ _ _⟩
    -- whether the torn bytes of this call are sealed is decided by the calls behind it
    have hall : SealedClean l ∧ l.SealsClean (c :: cs) ↔
        SealedClean (l.append c.key c.value c.now c.fault).2 ∧
          (l.append c.key c.value c.now c.fault).2.SealsClean cs := by
      rw [hclean, Log.SealsClean, and_assoc]
    rw [hall]
    cases happ : l.append c.key c.value c.now c.fault with
    | mk res l' =>
      rw [happ] at hinv hids' hkept
      cases res with
      | error e =>
        simp only [Log.appendAll, happ]
        exact ih hinv hkept hcs hids'
      | ok ref =>
        -- a call that succeeds adds its own record to those that stay readable
        have hnew : ∀ a ∈ as ++ [⟨c.key, c.value, ref⟩],
            LengthsFit (a.key, a.value) ∧ Stored l' a.ref a.key a.value :=
          List.forall_mem_append.mpr ⟨hkept, List.forall_mem_singleton.mpr
            ⟨hc, (Log.append_stored happ).1⟩⟩
        have hrest := ih hinv hnew hcs hids'
        rw [List.append_assoc, List.singleton_append] at hrest
        simpa only [Log.appendAll, happ] using hrest

/-! ## Opening the directory -/

theorem SealedClean.iff_any {l : Log} {es : List (UInt64 × Bytes)}
    (hes : l.files.entries = es ++ [(l.active.id, l.activeFile)])
    (hlt : ∀ e ∈ es, e.1 < l.active.id) :
    SealedClean l ↔ (es.any fun e => (scanSegment e.2).2) = false := by
  rw [SealedClean, hes, List.any_eq_false]
  simp only [scanSegment, decide_eq_true_eq, not_not]
  constructor
  · exact fun h e he => h e (List.mem_append_left _ he) (hlt e he).ne
  · intro h e he hne
    rcases List.mem_append.mp he with he | he
    · exact h e he
    · rw [List.mem_singleton.mp he] at hne
      exact absurd rfl hne

/-- **A sealed segment with torn bytes** makes the directory unusable. -/
theorem TornInv.open_error {l : Log} (h : TornInv l) (hdirty : ¬SealedClean l) (segmentMaxBytes : ℤ)
    (now : UInt64) : Log.open segmentMaxBytes l.files now = .error .invalidTail := by
  obtain ⟨es, hes, hlt⟩ := Log.entries_eq_of_newest h.newest
  rw [SealedClean.iff_any hes hlt, Bool.not_eq_false] at hdirty
  simp only [Log.open, hes, List.getLast?_concat, List.dropLast_concat, hdirty, if_true]

/-- **Torn bytes in the newest segment** are cut off, and every record behind a reference stays. -/
theorem TornInv.open_ok {l : Log} (h : TornInv l) (hclean : SealedClean l) (segmentMaxBytes : ℤ)
    (now : UInt64) :
    ∃ l', Log.open segmentMaxBytes l.files now = .ok l' ∧ l'.closed = false ∧
      ∀ {ref key value}, Stored l ref key value → Stored l' ref key value := by
  obtain ⟨es, hes, hlt⟩ := Log.entries_eq_of_newest h.newest
  rw [SealedClean.iff_any hes hlt] at hclean
  refine ⟨_, by simp only [Log.open, hes, List.getLast?_concat, List.dropLast_concat, hclean,
    Bool.false_eq_true, if_false]; rfl, rfl, fun {ref key value} hstored => ?_⟩
  -- the scan of the active segment gets at least as far as the last record
  have hvalid : l.active.size ≤ (scanSegment l.activeFile).1 ∧
      (scanSegment l.activeFile).1 ≤ l.activeFile.length := by
    obtain ⟨rs, hrs, hsize, hsplit⟩ := h.records
    have htorn := congrArg List.length (scanRecords_spec l.torn).1
    have hlen := congrArg List.length hsplit
    have hscan : (scanRecords l.activeFile).2 = (scanRecords l.torn).2 := by
      rw [hsplit, scanRecords_append hrs]
    rw [List.length_append] at htorn hlen
    rw [scanSegment, hscan]
    dsimp only
    omega
  obtain ⟨f, hf, hend, hrec⟩ := hstored.file
  by_cases hid : l.active.id = ref.segmentID
  · have hle := hstored.sealed hid
    obtain rfl : l.activeFile = f := Log.activeFile_eq (by rw [hid]; exact hf)
    refine ⟨⟨_, by rw [OrdMap.get_insert, if_pos hid], ?_, ?_⟩, fun _ => hle.trans hvalid.1,
      hstored.offset_lt, hstored.valueLen_eq, hstored.checksum_eq⟩
    · rw [List.length_take]
      omega
    · have hcut := slice_slice (b := l.activeFile) (o := 0) (l := (scanSegment l.activeFile).1)
        (hle.trans hvalid.1)
      rw [Nat.zero_add, hrec] at hcut
      exact hcut
  · refine ⟨⟨f, ?_, hend, hrec⟩, fun heq => absurd heq hid, hstored.offset_lt, hstored.valueLen_eq,
      hstored.checksum_eq⟩
    rw [OrdMap.get_insert, if_neg hid]
    exact hf

/-- **Failed appends are harmless iff no rotation seals what they left.** Take any sequence of calls,
any number of which fail after some bytes of their record were stored. `Close` and `Open` succeed and
every returned reference reads back its value, if and only if no call moved on to a new segment while
bytes that are no records lay behind the last record of the old one. Clock readings are nanoseconds
since 1970 in an `int64`. -/
theorem failed_appends_harmless_iff (segmentMaxBytes : ℤ) {start : UInt64}
    {calls : List Log.AppendCall} (hfit : ∀ c ∈ calls, LengthsFit (c.key, c.value))
    (hstart : start.toNat < 2 ^ 63) (hclock : ∀ c ∈ calls, c.now.toNat < 2 ^ 63)
    (hcount : calls.length < 2 ^ 63) :
    Recovers segmentMaxBytes start calls ↔
      (Log.openEmpty (segmentLimit segmentMaxBytes) start).SealsClean calls := by
  obtain ⟨hinv, hclean⟩ := tornInv_openEmpty (segmentLimit segmentMaxBytes) start
  -- readings below `2 ^ 63` leave room for an id above the last one, call after call
  have hids : IdsLeft (Log.openEmpty (segmentLimit segmentMaxBytes) start) calls := by
    refine ⟨?_, fun c hc => ?_⟩
    · have hle : (nextSegmentID 0 start).toNat ≤ 2 ^ 63 := nextSegmentID_le (by decide) hstart.le
      change (nextSegmentID 0 start).toNat + calls.length < 2 ^ 64
      omega
    · have hlt := hclock c hc
      omega
  have hnone : ∀ a ∈ ([] : List Appended), LengthsFit (a.key, a.value) ∧
      Stored (Log.openEmpty (segmentLimit segmentMaxBytes) start) a.ref a.key a.value := by simp
  obtain ⟨hinv', hstored, hiff⟩ := hinv.appendAll hnone hfit hids
  rw [List.nil_append] at hstored
  have hseals : (Log.openEmpty (segmentLimit segmentMaxBytes) start).SealsClean calls ↔
      SealedClean ((Log.openEmpty (segmentLimit segmentMaxBytes) start).appendAll calls).2 := by
    rw [hiff, and_iff_right hclean]
  rw [hseals]
  constructor
  -- a sealed segment with torn bytes fails the opening, whatever the clock says
  · intro hrec
    by_contra hdirty
    obtain ⟨l, hopen, -⟩ := hrec 0
    rw [hinv'.open_error hdirty] at hopen
    exact absurd hopen (by simp)
  · intro hsealed now
    obtain ⟨l, hopen, hopened, hkeep⟩ := hinv'.open_ok hsealed segmentMaxBytes now
    refine ⟨l, hopen, fun a ha => ?_⟩
    obtain ⟨hlen, hin⟩ := hstored a ha
    exact (hkeep hin).readValue hopened hlen.1 hlen.2

/-- Five bytes of a failed record between two others, which the second one goes over. -/
theorem failed_appends_harmless_iff_overwritten :
    Recovers 0 1 [⟨[1], [1], 1, none⟩, ⟨[2], [2], 1, some 5⟩, ⟨[3], [3], 1, none⟩] :=
  (failed_appends_harmless_iff 0 (by simp [LengthsFit]) (by decide) (by decide)
    (by decide)).mpr (by decide +kernel)

/-- The calls of the next theorem under a limit of 40 bytes: the second one stores five bytes of its
record and fails, the third one does not fit the segment. -/
def tornCalls : List Log.AppendCall :=
  [⟨[1], [1], 1, none⟩, ⟨[2], [2], 1, some 5⟩, ⟨[3], List.replicate 20 3, 2, none⟩]

/-- **Torn bytes in a sealed segment.** The first and the third append succeed, but the third one
rotates and seals the five bytes that the second one left; the directory cannot be opened again. -/
theorem torn_append_sealed :
    ((Log.openEmpty (segmentLimit 40) 1).appendAll tornCalls).1.map Appended.ref =
        [⟨1, 0, 1, checksumIEEE [1]⟩, ⟨2, 0, 20, checksumIEEE (List.replicate 20 3)⟩] ∧
      ∀ now, Log.open 40 ((Log.openEmpty (segmentLimit 40) 1).appendAll tornCalls).2.files now =
        .error .invalidTail := by
  refine ⟨by decide +kernel, fun now => ?_⟩
  have hentries : ((Log.openEmpty (segmentLimit 40) 1).appendAll tornCalls).2.files.entries =
      [(1, encodeRecord [1] [1] ++ (encodeRecord [2] [2]).take 5),
        (2, encodeRecord [3] (List.replicate 20 3))] := by decide +kernel
  have htail : (scanSegment (encodeRecord [1] [1] ++ (encodeRecord [2] [2]).take 5)).2 = true := by
    decide +kernel
  simp only [Log.open, hentries, List.getLast?_cons_cons, List.getLast?_singleton,
    List.dropLast_cons_cons, List.dropLast_singleton, List.any_cons, List.any_nil, Bool.or_false,
    htail, if_true]

end Seol.Vlog
