import Seol.Common.Bytes

/-!
# Decimal numerals as byte strings

`decimal` prints a natural number as `%d` does, `parseDecimal` reads one back. Numerals of the same
length are ordered as the numbers are; numerals of different lengths are not, `10` sorts before `9`.
-/

namespace Seol.Common

/-- The ASCII digit of a number below ten. -/
def digit (d : ℕ) : UInt8 := UInt8.ofNat (48 + d)

/-- The last `fuel` digits of `n` at most, without leading zeros. -/
def decimalAux : ℕ → ℕ → Bytes
  | 0, _ => []
  | fuel + 1, n => if n < 10 then [digit n] else decimalAux fuel (n / 10) ++ [digit (n % 10)]

/-- The decimal numeral of `n`. -/
def decimal (n : ℕ) : Bytes := decimalAux (n + 1) n

/-- The value of a digit character. -/
def digitValue (c : UInt8) : Option ℕ := if 48 ≤ c ∧ c ≤ 57 then some (c.toNat - 48) else none

/-- Read digits from the left, continuing from `acc`. -/
def parseDigits : ℕ → Bytes → Option ℕ
  | acc, [] => some acc
  | acc, c :: cs => (digitValue c).bind fun d => parseDigits (10 * acc + d) cs

/-- The number a non-empty string of digits denotes. -/
def parseDecimal (b : Bytes) : Option ℕ := if b = [] then none else parseDigits 0 b

theorem decimalAux_fuel {f g n : ℕ} (hf : n < f) (hg : n < g) : decimalAux f n = decimalAux g n := by
  induction f generalizing g n with
  | zero => omega
  | succ f ih =>
    obtain ⟨g, rfl⟩ : ∃ g', g = g' + 1 := ⟨g - 1, by omega⟩
    simp only [decimalAux]
    by_cases hn : n < 10
    · rw [if_pos hn, if_pos hn]
    · rw [if_neg hn, if_neg hn, ih (g := g) (by omega) (by omega)]

theorem decimal_of_lt {n : ℕ} (h : n < 10) : decimal n = [digit n] := by
  rw [decimal, decimalAux, if_pos h]

theorem decimal_of_ge {n : ℕ} (h : 10 ≤ n) : decimal n = decimal (n / 10) ++ [digit (n % 10)] := by
  rw [decimal, decimalAux, if_neg (by omega), decimal, decimalAux_fuel (by omega) (Nat.lt_succ_self _)]

theorem decimal_ne_nil (n : ℕ) : decimal n ≠ [] := by
  by_cases h : n < 10
  · simp [decimal_of_lt h]
  · simp [decimal_of_ge (not_lt.mp h)]

/-! ## Order -/

/-- Strings of one length that differ stay ordered when both are extended. -/
theorem append_lt_append {α : Type*} [LinearOrder α] {a b : List α} (h : a < b)
    (hlen : a.length = b.length) (x y : List α) : a ++ x < b ++ y := by
  induction a generalizing b with
  | nil =>
    cases b with
    | nil => exact absurd h (lt_irrefl _)
    | cons c b => simp at hlen
  | cons c a ih =>
    cases b with
    | nil => simp at hlen
    | cons d b =>
      simp only [List.cons_append, List.cons_lt_cons_iff] at h ⊢
      -- either the first characters differ, or the tails do
      rcases h with hcd | ⟨hcd, hab⟩
      · exact Or.inl hcd
      · exact Or.inr ⟨hcd, ih hab (by simpa using hlen)⟩

theorem digit_lt_digit {c d : ℕ} (hcd : c < d) (hd : d < 10) : digit c < digit d := by
  rw [digit, digit, UInt8.lt_iff_toNat_lt, UInt8.toNat_ofNat', UInt8.toNat_ofNat',
    Nat.mod_eq_of_lt (by omega), Nat.mod_eq_of_lt (by omega)]
  omega

/-- Numerals of one length are ordered like their numbers. -/
theorem decimal_lt_decimal {a b : ℕ} (h : a < b) (hlen : (decimal a).length = (decimal b).length) :
    decimal a < decimal b := by
  induction b using Nat.strong_induction_on generalizing a with
  | _ b ih =>
    by_cases ha : a < 10
    · by_cases hb : b < 10
      · rw [decimal_of_lt ha, decimal_of_lt hb]
        exact List.cons_lt_cons_iff.mpr (Or.inl (digit_lt_digit h hb))
      · rw [decimal_of_lt ha, decimal_of_ge (not_lt.mp hb)] at hlen
        have hpos := List.length_pos_iff.mpr (decimal_ne_nil (b / 10))
        simp only [List.length_append, List.length_singleton] at hlen
        omega
    · have hb : 10 ≤ b := by omega
      rw [decimal_of_ge (not_lt.mp ha), decimal_of_ge hb] at hlen ⊢
      simp only [List.length_append, List.length_singleton, Nat.add_right_cancel_iff] at hlen
      rcases Nat.lt_or_ge (a / 10) (b / 10) with hlt | hge
      · exact append_lt_append (ih (b / 10) (by omega) hlt hlen) hlen _ _
      · -- the same leading digits, so the last one decides
        have heq : a / 10 = b / 10 := by omega
        rw [heq]
        refine List.append_left_lt (List.cons_lt_cons_iff.mpr (Or.inl ?_))
        exact digit_lt_digit (by omega) (Nat.mod_lt _ (by omega))

/-- The numerals of `10^d, …, 10^(d+1) - 1` have `d + 1` digits. -/
theorem length_decimal {d n : ℕ} (hlo : 10 ^ d ≤ n) (hhi : n < 10 ^ (d + 1)) :
    (decimal n).length = d + 1 := by
  induction d generalizing n with
  | zero =>
    rw [decimal_of_lt (by simpa using hhi)]
    rfl
  | succ d ih =>
    have hlo' : 10 ^ d * 10 ≤ n := by rwa [← pow_succ]
    have hpos : 0 < 10 ^ d := by positivity
    rw [decimal_of_ge (by omega), List.length_append, ih (by omega)
      (by rw [Nat.div_lt_iff_lt_mul (by omega), ← pow_succ]; exact hhi)]
    rfl

/-! ## Reading back -/

theorem digitValue_digit {d : ℕ} (h : d < 10) : digitValue (digit d) = some d := by
  have htoNat : (digit d).toNat = 48 + d := by
    rw [digit, UInt8.toNat_ofNat', Nat.mod_eq_of_lt (by omega)]
  have hlo : (48 : UInt8) ≤ digit d := UInt8.le_iff_toNat_le.mpr (by rw [htoNat]; simp)
  have hhi : digit d ≤ (57 : UInt8) := UInt8.le_iff_toNat_le.mpr (by rw [htoNat]; simp; omega)
  rw [digitValue, if_pos ⟨hlo, hhi⟩, htoNat, Nat.add_sub_cancel_left]

theorem parseDigits_append (acc : ℕ) (a b : Bytes) :
    parseDigits acc (a ++ b) = (parseDigits acc a).bind fun n => parseDigits n b := by
  induction a generalizing acc with
  | nil => rfl
  | cons c a ih =>
    simp only [List.cons_append, parseDigits, Option.bind_assoc, ih]

theorem parseDigits_decimal (n : ℕ) : parseDigits 0 (decimal n) = some n := by
  induction n using Nat.strong_induction_on with
  | _ n ih =>
    by_cases hn : n < 10
    · simp [decimal_of_lt hn, parseDigits, digitValue_digit hn]
    · have hd : n % 10 < 10 := Nat.mod_lt _ (by omega)
      rw [decimal_of_ge (not_lt.mp hn), parseDigits_append, ih (n / 10) (by omega)]
      simp only [Option.bind_some, parseDigits, digitValue_digit hd]
      rw [Nat.div_add_mod]

/-- A numeral has only digits. -/
theorem digit_of_mem_decimal {n : ℕ} {c : UInt8} (hc : c ∈ decimal n) : 48 ≤ c ∧ c ≤ 57 := by
  induction n using Nat.strong_induction_on with
  | _ n ih =>
    have hdigit : ∀ d < 10, 48 ≤ digit d ∧ digit d ≤ 57 := by decide
    rcases lt_or_ge n 10 with hn | hn
    · rw [decimal_of_lt hn, List.mem_singleton] at hc
      exact hc ▸ hdigit n hn
    · rw [decimal_of_ge hn, List.mem_append, List.mem_singleton] at hc
      rcases hc with hc | rfl
      · exact ih (n / 10) (by omega) hc
      · exact hdigit _ (by omega)

/-- A printed number is read back. -/
theorem parseDecimal_decimal (n : ℕ) : parseDecimal (decimal n) = some n := by
  rw [parseDecimal, if_neg (decimal_ne_nil n), parseDigits_decimal]

theorem decimal_injective : Function.Injective decimal := by
  intro a b h
  have ha := parseDecimal_decimal a
  rw [h, parseDecimal_decimal] at ha
  exact (Option.some.inj ha).symm

/-! ## Integers -/

/-- The decimal numeral of an integer, with a minus sign where it is negative. -/
def decimalInt (t : ℤ) : Bytes := if t < 0 then 0x2d :: decimal t.natAbs else decimal t.natAbs

theorem decimal_ne_minus (n : ℕ) (digits : Bytes) : decimal n ≠ 0x2d :: digits := by
  intro h
  have hdigit : (0x2d : UInt8) ∈ decimal n := h ▸ List.mem_cons_self
  exact absurd (digit_of_mem_decimal hdigit) (by decide)

theorem decimalInt_injective : Function.Injective decimalInt := by
  intro a b h
  unfold decimalInt at h
  split_ifs at h with ha hb hb
  · have := decimal_injective (List.cons_inj_right _ |>.mp h)
    omega
  · exact absurd h.symm (decimal_ne_minus _ _)
  · exact absurd h (decimal_ne_minus _ _)
  · have := decimal_injective h
    omega

end Seol.Common
