import Seol.Common.Bytes

/-!
# Buffered writing to a file

A writer that collects bytes in a buffer of fixed size in front of an append-only file. A write of
the file may stop early with an error, after which the writer refuses all further work. The contents
of the file followed by the buffer are always what was written so far, up to the point of the error.
-/

namespace Seol.Common

/-- A buffered writer over a file. `failed` is the sticky error. -/
structure BufWriter where
  size : ℕ
  file : Bytes
  buf : Bytes
  failed : Bool
deriving DecidableEq

namespace BufWriter

/-- The bytes the writer is responsible for, in order. -/
def contents (b : BufWriter) : Bytes := b.file ++ b.buf

/-- Write the buffer out. With `fault = some n` the file takes `n` bytes and reports an error; the
rest stays buffered. -/
def flush (b : BufWriter) (fault : Option ℕ) : BufWriter :=
  if b.failed ∨ b.buf = [] then b
  else match fault with
    | none => { b with file := b.file ++ b.buf, buf := [] }
    | some n => { b with file := b.file ++ b.buf.take n, buf := b.buf.drop n, failed := true }

/-- One round of the write loop, for data that does not fit: an empty buffer is bypassed, any other
one is filled and flushed. Returns what is left of the data. -/
def writeRound (b : BufWriter) (p : Bytes) (fault : Option ℕ) : BufWriter × Bytes :=
  if b.buf = [] then
    let n := fault.getD p.length
    ({ b with file := b.file ++ p.take n, failed := fault.isSome }, p.drop n)
  else
    let n := b.size - b.buf.length
    (({ b with buf := b.buf ++ p.take n } : BufWriter).flush fault, p.drop n)

/-- Whether the write loop stops: the data fits the free part of the buffer, or there was an
error. -/
def Settled (b : BufWriter) (p : Bytes) : Prop := b.failed ∨ p.length ≤ b.size - b.buf.length

instance (b : BufWriter) (p : Bytes) : Decidable (b.Settled p) := by
  unfold Settled
  infer_instance

/-- The end of a write: the rest of the data goes to the buffer, unless there was an error. -/
def finish (b : BufWriter) (p : Bytes) : BufWriter :=
  if b.failed then b else { b with buf := b.buf ++ p }

/-- Write `p`, given the outcomes of the writes of the file in order; past the end of the list they
fail with nothing written. The write succeeded exactly when the writer has not failed after it. -/
def write (b : BufWriter) (p : Bytes) : List (Option ℕ) → BufWriter
  | [] => if b.Settled p then b.finish p else (b.writeRound p (some 0)).1
  | fault :: faults =>
    if b.Settled p then b.finish p
    else (b.writeRound p fault).1.write (b.writeRound p fault).2 faults

/-! ## Flushing -/

theorem flush_contents (b : BufWriter) (fault : Option ℕ) :
    (b.flush fault).contents = b.contents := by
  unfold flush
  split_ifs with h
  · rfl
  · cases fault <;> simp [contents]

theorem flush_file_prefix (b : BufWriter) (fault : Option ℕ) :
    b.file <+: (b.flush fault).file := by
  unfold flush
  split_ifs with h
  · exact List.prefix_refl _
  · cases fault <;> exact List.prefix_append _ _

/-- A flush that reports no error leaves nothing in the buffer. -/
theorem flush_buf {b : BufWriter} {fault : Option ℕ} (h : (b.flush fault).failed = false) :
    (b.flush fault).buf = [] := by
  unfold flush at h ⊢
  split_ifs at h ⊢ with hb
  · rcases hb with hb | hb
    · rw [h] at hb
      exact absurd hb Bool.false_ne_true
    · exact hb
  · cases fault with
    | none => rfl
    | some n => simp at h

theorem failed_flush {b : BufWriter} (fault : Option ℕ) (h : b.failed = true) :
    (b.flush fault).failed = true := by
  simp [flush, h]

/-! ## Writing -/

/-- A round moves a part of the data from the caller to the writer. -/
theorem writeRound_contents (b : BufWriter) (p : Bytes) (fault : Option ℕ) :
    ∃ t, p = t ++ (b.writeRound p fault).2 ∧
      (b.writeRound p fault).1.contents = b.contents ++ t := by
  unfold writeRound
  split_ifs with hbuf
  · refine ⟨p.take (fault.getD p.length), (List.take_append_drop _ _).symm, ?_⟩
    simp [contents, hbuf]
  · refine ⟨p.take (b.size - b.buf.length), (List.take_append_drop _ _).symm, ?_⟩
    dsimp only
    rw [flush_contents]
    simp [contents]

theorem writeRound_file_prefix (b : BufWriter) (p : Bytes) (fault : Option ℕ) :
    b.file <+: (b.writeRound p fault).1.file := by
  unfold writeRound
  split_ifs with hbuf
  · exact List.prefix_append _ _
  · exact flush_file_prefix { b with buf := b.buf ++ p.take (b.size - b.buf.length) } fault

/-- A write that fails without being attempted leaves the error behind. -/
theorem writeRound_failed (b : BufWriter) (p : Bytes) (h : b.failed = false) :
    (b.writeRound p (some 0)).1.failed = true := by
  unfold writeRound
  split_ifs with hbuf
  · rfl
  · simp [flush, h, hbuf]

theorem finish_file (b : BufWriter) (p : Bytes) : (b.finish p).file = b.file := by
  unfold finish
  split_ifs <;> rfl

theorem finish_failed (b : BufWriter) (p : Bytes) : (b.finish p).failed = b.failed := by
  unfold finish
  split_ifs <;> rfl

theorem finish_contents (b : BufWriter) (p : Bytes) :
    ∃ t, t <+: p ∧ (b.finish p).contents = b.contents ++ t ∧
      ((b.finish p).failed = false → t = p) := by
  rw [finish_failed]
  unfold finish
  split_ifs with hf
  · exact ⟨[], List.nil_prefix, by simp, fun h => absurd (h.symm.trans hf) Bool.false_ne_true⟩
  · exact ⟨p, List.prefix_refl p, by simp [contents], fun _ => rfl⟩

/-- What a write leaves: the old contents and then a part of the data, all of it unless there was an
error. -/
theorem write_contents (b : BufWriter) (p : Bytes) (faults : List (Option ℕ)) :
    ∃ t, t <+: p ∧ (b.write p faults).contents = b.contents ++ t ∧
      ((b.write p faults).failed = false → t = p) := by
  -- induction on the outcomes of the system calls, one for each round of the loop
  induction faults generalizing b p with
  | nil =>
    unfold write
    split_ifs with hs
    · exact b.finish_contents p
    -- with no outcome left the round fails, so the write is not all there
    · obtain ⟨t, ht, hc⟩ := b.writeRound_contents p (some 0)
      refine ⟨t, ⟨_, ht.symm⟩, hc, fun h => ?_⟩
      have hok : b.failed = false := by
        simp only [Settled, not_or, Bool.not_eq_true] at hs
        exact hs.1
      rw [b.writeRound_failed p hok] at h
      exact absurd h.symm Bool.false_ne_true
  | cons fault faults ih =>
    unfold write
    split_ifs with hs
    · exact b.finish_contents p
    · obtain ⟨t, ht, hc⟩ := b.writeRound_contents p fault
      -- the round keeps `t` of the data, the rest of the call keeps `u`
      obtain ⟨u, hu, hcu, hall⟩ := ih (b.writeRound p fault).1 (b.writeRound p fault).2
      refine ⟨t ++ u, ?_, ?_, fun h => ?_⟩
      · rw [ht]
        exact (List.prefix_append_right_inj t).mpr hu
      · rw [hcu, hc, List.append_assoc]
      · rw [hall h, ← ht]

/-- After an error nothing is taken. -/
theorem write_of_failed {b : BufWriter} (p : Bytes) (faults : List (Option ℕ))
    (h : b.failed = true) : b.write p faults = b := by
  have hs : b.Settled p := .inl h
  cases faults <;> rw [write, if_pos hs, finish, if_pos h]

/-- The error is sticky. -/
theorem failed_write {b : BufWriter} (p : Bytes) (faults : List (Option ℕ))
    (h : b.failed = true) : (b.write p faults).failed = true := by
  rw [write_of_failed p faults h, h]

theorem write_file_prefix (b : BufWriter) (p : Bytes) (faults : List (Option ℕ)) :
    b.file <+: (b.write p faults).file := by
  induction faults generalizing b p with
  | nil =>
    unfold write
    split_ifs
    · rw [finish_file]
    · exact b.writeRound_file_prefix p (some 0)
  | cons fault faults ih =>
    unfold write
    split_ifs
    · rw [finish_file]
    · exact (b.writeRound_file_prefix p fault).trans (ih _ _)

end BufWriter

end Seol.Common
