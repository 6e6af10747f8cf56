import Seol.Common.Bytes
import Seol.Common.Search

/-!
# Checked accesses

Accesses to slices that stop the program when they go out of range. A computation returns a value, an
error, or `outOfRange`; `Safe` computations never do the last.
-/

namespace Seol.Common

variable {ε : Type} {α β : Type}

/-- How a computation fails: with an error it returns, or by an access out of range. -/
inductive Fault (ε : Type) where
  | error (e : ε)
  | outOfRange
deriving DecidableEq, Repr

/-- The same failure with the error translated. -/
def Fault.map {ε' : Type} (f : ε → ε') : Fault ε → Fault ε'
  | .error e => .error (f e)
  | .outOfRange => .outOfRange

/-- A computation with checked accesses. -/
abbrev Checked (ε α : Type) : Type := Except (Fault ε) α

/-- Two computations in a row succeed when both do. -/
theorem bind_eq_ok {x : Except ε α} {f : α → Except ε β} {b : β} :
    x >>= f = .ok b ↔ ∃ a, x = .ok a ∧ f a = .ok b := by
  cases x with
  | error e => simp [bind, Except.bind]
  | ok a => simp [bind, Except.bind]

theorem toOption_eq_some_iff {x : Except ε α} {a : α} : x.toOption = some a ↔ x = .ok a := by
  cases x with
  | error e => simp [Except.toOption]
  | ok b => simp [Except.toOption]

/-- A loop that succeeds has done each of its rounds. -/
theorem foldlM_induction {f : β → α → Except ε β} {P : List α → β → Prop}
    (hstep : ∀ l a b b', P l b → f b a = .ok b' → P (l ++ [a]) b') {l l' : List α} {b b' : β}
    (hb : P l b) (h : l'.foldlM f b = .ok b') : P (l ++ l') b' := by
  induction l' generalizing l b with
  | nil =>
    cases h
    rwa [List.append_nil]
  | cons a l' ih =>
    rw [List.foldlM_cons] at h
    obtain ⟨b₁, hone, hrest⟩ := bind_eq_ok.mp h
    rw [List.append_cons]
    exact ih (hstep l a b b₁ hb hone) hrest

namespace Checked

/-- Pass the errors of a computation on as errors of another kind. -/
def mapErr {ε' : Type} (f : ε → ε') (x : Checked ε α) : Checked ε' α := x.mapError (Fault.map f)

/-- Return an error. -/
def fail (e : ε) : Checked ε α := .error (.error e)

/-- `l[i]`. -/
def elemAt (l : List α) (i : ℕ) : Checked ε α :=
  match l[i]? with
  | some a => .ok a
  | none => .error .outOfRange

/-- `b[i:]`. -/
def sliceFrom (b : Bytes) (i : ℕ) : Checked ε Bytes :=
  if i ≤ b.length then .ok (b.drop i) else .error .outOfRange

/-- `b[i:j]`. -/
def sliceBetween (b : Bytes) (i j : ℕ) : Checked ε Bytes :=
  if i ≤ j ∧ j ≤ b.length then .ok (slice b i (j - i)) else .error .outOfRange

/-- The little-endian integer in the first `w` bytes. -/
def readLE (w : ℕ) (b : Bytes) : Checked ε ℕ :=
  if w ≤ b.length then .ok (leNat (b.take w)) else .error .outOfRange

/-- The little-endian integer of `w` bytes at offset `i`. -/
def readLEAt (w : ℕ) (b : Bytes) (i : ℕ) : Checked ε ℕ := do
  readLE w (← sliceFrom b i)

/-- No access is out of range. -/
def Safe (x : Checked ε α) : Prop := x ≠ .error .outOfRange

instance (x : Checked ε α) : Decidable x.Safe :=
  match x with
  | .ok _ => .isTrue (by simp [Safe])
  | .error (.error _) => .isTrue (by simp [Safe])
  | .error .outOfRange => .isFalse (by simp [Safe])

@[simp] theorem safe_ok (a : α) : Safe (.ok a : Checked ε α) := by simp [Safe]

@[simp] theorem safe_fail (e : ε) : Safe (fail e : Checked ε α) := by simp [Safe, fail]

theorem Safe.bind {x : Checked ε α} {f : α → Checked ε β} (hx : x.Safe)
    (hf : ∀ a, x = .ok a → (f a).Safe) : Safe (x >>= f) := by
  cases x with
  | ok a => exact hf a rfl
  | error e =>
    cases e with
    | error e => simp [Safe, Bind.bind, Except.bind]
    | outOfRange => exact absurd rfl hx

@[simp] theorem ok_bind (a : α) (f : α → Checked ε β) :
    ((.ok a : Checked ε α) >>= f) = f a := rfl

theorem elemAt_of_lt {l : List α} {i : ℕ} (h : i < l.length) :
    (elemAt l i : Checked ε α) = .ok l[i] := by
  rw [elemAt, List.getElem?_eq_getElem h]

theorem sliceFrom_of_le {b : Bytes} {i : ℕ} (h : i ≤ b.length) :
    (sliceFrom b i : Checked ε Bytes) = .ok (b.drop i) := if_pos h

theorem sliceBetween_of_le {b : Bytes} {i n : ℕ} (h : i + n ≤ b.length) :
    (sliceBetween b i (i + n) : Checked ε Bytes) = .ok (slice b i n) := by
  rw [sliceBetween, if_pos ⟨Nat.le_add_right i n, h⟩, Nat.add_sub_cancel_left]

theorem readLEAt_of_le {w : ℕ} {b : Bytes} {i : ℕ} (h : i + w ≤ b.length) :
    (readLEAt w b i : Checked ε ℕ) = .ok (leNat (slice b i w)) := by
  have hle : w ≤ (b.drop i).length := by
    rw [List.length_drop]
    omega
  rw [readLEAt, sliceFrom_of_le (by omega), ok_bind, readLE, if_pos hle]
  rfl

/-- A read that does not fit is out of range. -/
theorem readLEAt_of_lt {w : ℕ} {b : Bytes} {i : ℕ} (h : b.length < i + w) :
    (readLEAt w b i : Checked ε ℕ) = .error .outOfRange := by
  rw [readLEAt, sliceFrom]
  split_ifs with hi
  · rw [ok_bind, readLE, if_neg]
    rw [List.length_drop]
    omega
  · rfl

/-! ## Binary search -/

/-- One bisection of `[i, j)` for each unit of fuel, with a predicate that may fail. -/
def searchLoop (f : ℕ → Checked ε Bool) : ℕ → ℕ → ℕ → Checked ε ℕ
  | 0, i, _ => .ok i
  | fuel + 1, i, j =>
    if i < j then do
      let h := (i + j) / 2
      if ← f h then searchLoop f fuel i h else searchLoop f fuel (h + 1) j
    else .ok i

/-- `sort.Search` with a predicate that may fail. -/
def search (n : ℕ) (f : ℕ → Checked ε Bool) : Checked ε ℕ := searchLoop f n 0 n

theorem searchLoop_eq {f : ℕ → Checked ε Bool} {g : ℕ → Bool} {n : ℕ}
    (h : ∀ i < n, f i = .ok (g i)) (fuel i j : ℕ) (hj : j ≤ n) :
    searchLoop f fuel i j = .ok (Common.searchLoop g fuel i j) := by
  induction fuel generalizing i j with
  | zero => rfl
  | succ fuel ih =>
    rw [searchLoop, Common.searchLoop]
    by_cases hij : i < j
    · simp only [if_pos hij]
      -- the middle index is below `n`, so the test there does not fault
      rw [h ((i + j) / 2) (by omega), ok_bind]
      cases g ((i + j) / 2) with
      | true => exact ih i _ (by omega)
      | false => exact ih _ j hj
    · rw [if_neg hij, if_neg hij]

/-- The search is the plain one when the predicate does not fail in range. -/
theorem search_eq {f : ℕ → Checked ε Bool} {g : ℕ → Bool} {n : ℕ} (h : ∀ i < n, f i = .ok (g i)) :
    search n f = .ok (Common.search n g) := searchLoop_eq h n 0 n le_rfl

end Checked

end Seol.Common
