import Mathlib

/-!
# Byte strings, little-endian integers and flat files

A byte string is a `List UInt8`, ordered lexicographically. `leBytes`/`leNat` are the fixed-width
little-endian codec; `slice`, `readAt` and `writeAt` are the positional accesses of a flat file. The
lemmas say how these operations act on concatenations, which is the form every encoder produces.
-/

namespace Seol.Common

instance linearOrderUInt8 : LinearOrder UInt8 where
  le_refl a := UInt8.le_refl a
  le_trans _ _ _ := UInt8.le_trans
  lt_iff_le_not_ge a b := by
    rw [UInt8.lt_iff_toNat_lt, UInt8.le_iff_toNat_le, UInt8.le_iff_toNat_le]
    omega
  le_antisymm _ _ := UInt8.le_antisymm
  le_total a b := UInt8.le_total a b
  toDecidableLE := inferInstance
  toDecidableLT := inferInstance
  toDecidableEq := inferInstance

instance linearOrderUInt64 : LinearOrder UInt64 where
  le_refl a := UInt64.le_refl a
  le_trans _ _ _ := UInt64.le_trans
  lt_iff_le_not_ge a b := by
    rw [UInt64.lt_iff_toNat_lt, UInt64.le_iff_toNat_le, UInt64.le_iff_toNat_le]
    omega
  le_antisymm _ _ := UInt64.le_antisymm
  le_total a b := UInt64.le_total a b
  toDecidableLE := inferInstance
  toDecidableLT := inferInstance
  toDecidableEq := inferInstance

/-- A byte string. -/
abbrev Bytes := List UInt8

instance lawfulBEqBytes : LawfulBEq Bytes := inferInstance

/-! ## Little-endian integers -/

/-- The `w` little-endian bytes of `n`; higher bytes of `n` are dropped. -/
def leBytes : ℕ → ℕ → Bytes
  | 0, _ => []
  | w + 1, n => UInt8.ofNat n :: leBytes w (n / 256)

/-- The natural number with the given little-endian bytes. -/
def leNat : Bytes → ℕ
  | [] => 0
  | b :: bs => b.toNat + 256 * leNat bs

@[simp] theorem length_leBytes (w n : ℕ) : (leBytes w n).length = w := by
  induction w generalizing n with
  | zero => rfl
  | succ w ih => simp [leBytes, ih]

theorem leNat_append (a b : Bytes) : leNat (a ++ b) = leNat a + 256 ^ a.length * leNat b := by
  induction a with
  | nil => simp [leNat]
  | cons c a ih =>
    rw [List.cons_append, leNat, leNat, ih, List.length_cons, pow_succ]
    ring

@[simp] theorem leNat_replicate_zero (n : ℕ) : leNat (List.replicate n 0) = 0 := by
  induction n with
  | zero => rfl
  | succ n ih => simp [List.replicate_succ, leNat, ih]

/-- Decoding an encoded integer gives it back modulo the field width. -/
theorem leNat_leBytes (w n : ℕ) : leNat (leBytes w n) = n % 256 ^ w := by
  induction w generalizing n with
  | zero => simp [leBytes, leNat, Nat.mod_one]
  | succ w ih =>
    simp only [leBytes, leNat, ih, UInt8.toNat_ofNat', Nat.reducePow]
    rw [pow_succ', Nat.mod_mul]

theorem leNat_leBytes_of_lt {w n : ℕ} (h : n < 256 ^ w) : leNat (leBytes w n) = n := by
  rw [leNat_leBytes, Nat.mod_eq_of_lt h]

theorem leNat_lt (b : Bytes) : leNat b < 256 ^ b.length := by
  induction b with
  | nil => simp [leNat]
  | cons b bs ih =>
    have hb : b.toNat < 256 := b.toNat_lt
    simp only [leNat, List.length_cons, pow_succ']
    omega

/-- Encoding a decoded field gives its bytes back. -/
theorem leBytes_leNat (b : Bytes) : leBytes b.length (leNat b) = b := by
  induction b with
  | nil => rfl
  | cons b bs ih =>
    have hb : b.toNat < 256 := b.toNat_lt
    have hdiv : (b.toNat + 256 * leNat bs) / 256 = leNat bs := by omega
    have hhead : UInt8.ofNat (b.toNat + 256 * leNat bs) = b := by
      apply UInt8.toNat_inj.mp
      rw [UInt8.toNat_ofNat']
      omega
    simp only [leNat, List.length_cons, leBytes, hdiv, hhead, ih]

theorem leBytes_leNat_of_length {b : Bytes} {w : ℕ} (h : b.length = w) :
    leBytes w (leNat b) = b := h ▸ leBytes_leNat b

theorem leNat_lt_of_length {b : Bytes} {w : ℕ} (h : b.length = w) : leNat b < 256 ^ w :=
  h ▸ leNat_lt b

/-! ## Slices -/

/-- The `len` bytes of `b` from `off` on; shorter when `b` ends first. -/
def slice (b : Bytes) (off len : ℕ) : Bytes := (b.drop off).take len

theorem length_slice (b : Bytes) (off len : ℕ) :
    (slice b off len).length = min len (b.length - off) := by
  simp [slice]

theorem length_slice_of_le {b : Bytes} {off len : ℕ} (h : off + len ≤ b.length) :
    (slice b off len).length = len := by
  rw [length_slice]
  omega

/-- The part of a concatenation that starts where its first part ends. -/
theorem slice_append_right (a b : Bytes) (off len : ℕ) (h : off = a.length) :
    slice (a ++ b) off len = b.take len := by
  subst h
  simp [slice]

/-- The middle part of a three-part concatenation. -/
theorem slice_append_mid (a b c : Bytes) (off len : ℕ) (hoff : off = a.length)
    (hlen : len = b.length) : slice (a ++ (b ++ c)) off len = b := by
  subst hlen
  rw [slice_append_right a (b ++ c) off _ hoff, List.take_left]

/-- The first part of a concatenation. -/
theorem slice_append_front (a b : Bytes) (len : ℕ) (hlen : len = a.length) :
    slice (a ++ b) 0 len = a :=
  slice_append_mid [] a b 0 len rfl hlen

/-- A slice that starts after the first part does not see it. -/
theorem slice_append_add (a b : Bytes) (o len n : ℕ) (h : n = a.length + o) :
    slice (a ++ b) n len = slice b o len := by
  subst h
  rw [slice, slice, List.drop_append, List.drop_eq_nil_of_le (Nat.le_add_right _ _),
    Nat.add_sub_cancel_left, List.nil_append]

/-- A slice that ends inside the first part does not see the second. -/
theorem slice_append_left {a b : Bytes} {off len : ℕ} (h : off + len ≤ a.length) :
    slice (a ++ b) off len = slice a off len := by
  simp only [slice]
  rw [List.drop_append_of_le_length (by omega), List.take_append_of_le_length]
  simp only [List.length_drop]
  omega

theorem slice_slice {b : Bytes} {o l o' l' : ℕ} (h : o' + l' ≤ l) :
    slice (slice b o l) o' l' = slice b (o + o') l' := by
  simp only [slice, List.drop_take, List.drop_drop, List.take_take]
  congr 1
  omega

/-- The two parts of a slice, cut at `n`. -/
theorem slice_add (b : Bytes) (off n m : ℕ) :
    slice b off (n + m) = slice b off n ++ slice b (off + n) m := by
  simp only [slice]
  rw [List.take_add, List.drop_drop]

/-! ## Flat files -/

/-- Positional read of exactly `len` bytes; `none` is the end-of-file error. Reading nothing
succeeds at every offset. -/
def readAt (f : Bytes) (off len : ℕ) : Option Bytes :=
  if len = 0 then some [] else if off + len ≤ f.length then some (slice f off len) else none

/-- The most that one call of the system reads; a longer read is made in pieces. -/
def maxRW : ℕ := 2 ^ 30

/-- A positional read that the system refuses, file offsets being `int64`: it starts at a negative
offset, or its first piece reaches `2 ^ 63`. No file is that long, so a read inside a file is not
refused. -/
def ReadRefused (off len : ℕ) : Prop := 2 ^ 63 ≤ off ∨ 0 < len ∧ 2 ^ 63 ≤ off + min len maxRW

instance decidableReadRefused (off len : ℕ) : Decidable (ReadRefused off len) :=
  inferInstanceAs (Decidable (_ ∨ _))

theorem not_readRefused_of_lt {off len : ℕ} (h : off + len < 2 ^ 63) : ¬ReadRefused off len := by
  unfold ReadRefused
  omega

/-- Positional write: bytes between the old end and `off` become zero. -/
def writeAt (f : Bytes) (off : ℕ) (data : Bytes) : Bytes :=
  if data = [] then f
  else (f ++ List.replicate (off - f.length) 0).take off ++ data ++ f.drop (off + data.length)

theorem readAt_eq_slice {f : Bytes} {off len : ℕ} (h : off + len ≤ f.length) :
    readAt f off len = some (slice f off len) := by
  unfold readAt
  by_cases hlen : len = 0
  · simp [hlen, slice]
  · rw [if_neg hlen, if_pos h]

/-- A read that succeeds returns as many bytes as were asked for. -/
theorem length_of_readAt {f b : Bytes} {off len : ℕ} (h : readAt f off len = some b) :
    b.length = len := by
  rw [readAt] at h
  split_ifs at h with hlen hin
  · rw [← Option.some.inj h, hlen, List.length_nil]
  · rw [← Option.some.inj h, length_slice_of_le hin]

/-- A read of two pieces at once is the two reads, one after the other. -/
theorem readAt_add (f : Bytes) (off n m : ℕ) :
    readAt f off (n + m) =
      (readAt f off n).bind fun a => (readAt f (off + n) m).map fun b => a ++ b := by
  by_cases hin : off + (n + m) ≤ f.length
  · rw [readAt_eq_slice hin, readAt_eq_slice (by omega), readAt_eq_slice (by omega), slice_add]
    rfl
  · unfold readAt
    by_cases hn : n = 0
    · subst hn
      by_cases hm : m = 0
      · simp [hm]
      · rw [if_neg (by omega), if_neg hin, if_pos rfl, if_neg hm, if_neg (by omega)]
        rfl
    · rw [if_neg (by omega), if_neg hin, if_neg hn]
      -- the first piece may still lie in the file; the second then does not
      by_cases hm : m = 0
      · rw [if_neg (by omega)]
        rfl
      · rw [if_neg hm, if_neg (show ¬off + n + m ≤ f.length by omega)]
        split_ifs <;> rfl

theorem writeAt_end (f data : Bytes) : writeAt f f.length data = f ++ data := by
  unfold writeAt
  by_cases hd : data = []
  · simp [hd]
  · simp [hd, List.drop_eq_nil_of_le]

/-- A write that starts inside the file replaces what it covers. -/
theorem writeAt_of_le {f : Bytes} {off : ℕ} (h : off ≤ f.length) (data : Bytes) :
    writeAt f off data = f.take off ++ (data ++ f.drop (off + data.length)) := by
  unfold writeAt
  by_cases hd : data = []
  · rw [if_pos hd, hd, List.nil_append, List.length_nil, Nat.add_zero, List.take_append_drop]
  · rw [if_neg hd, List.take_append_of_le_length h, List.append_assoc]

theorem length_writeAt (f data : Bytes) (off : ℕ) (hd : data ≠ []) :
    (writeAt f off data).length = max f.length (off + data.length) := by
  simp only [writeAt, hd, if_false, List.length_append, List.length_take, List.length_replicate,
    List.length_drop]
  omega

/-- The written bytes are read back. -/
theorem slice_writeAt_self (f data : Bytes) (off : ℕ) :
    slice (writeAt f off data) off data.length = data := by
  unfold writeAt
  by_cases hd : data = []
  · simp [hd, slice]
  · have hpre : ((f ++ List.replicate (off - f.length) 0).take off).length = off := by
      simp only [List.length_take, List.length_append, List.length_replicate]
      omega
    rw [if_neg hd, List.append_assoc]
    exact slice_append_mid _ _ _ _ _ hpre.symm rfl

/-- A write at or after the end of a region leaves the region as it was. -/
theorem slice_writeAt_of_le {f data : Bytes} {off o l : ℕ} (hin : o + l ≤ f.length)
    (hle : o + l ≤ off) : slice (writeAt f off data) o l = slice f o l := by
  unfold writeAt
  by_cases hd : data = []
  · simp [hd]
  -- the region lies in the part in front of `off`, which is the old file, padded
  · rw [if_neg hd, List.append_assoc, slice_append_left]
    · simp only [slice, List.drop_take, List.take_take]
      rw [List.drop_append_of_le_length (by omega), List.take_append_of_le_length]
      · congr 1
        omega
      · simp only [List.length_drop]
        omega
    · simp only [List.length_take, List.length_append, List.length_replicate]
      omega

/-- Bytes written behind a gap, and the gap filled in afterwards. -/
theorem writeAt_gap {head body : Bytes} (hhead : head ≠ []) (hbody : body ≠ []) :
    writeAt (writeAt [] head.length body) 0 head = head ++ body := by
  have hgap : writeAt [] head.length body = List.replicate head.length 0 ++ body := by
    simp [writeAt, hbody]
  rw [hgap, writeAt, if_neg hhead, List.take_zero, List.nil_append, Nat.zero_add,
    List.drop_left' List.length_replicate]

end Seol.Common
