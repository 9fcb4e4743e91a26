import Citadel.Number.Digits
import Citadel.Number.Numeral

/-!
# Decimal notation

The two notations of a decimal fraction `n * 10 ^ (-p)`: fixed, and scientific with an exponent. The
texts are those of the C standard for `%f`, `%e` and `%g`; nothing here refers to how they are
computed.

* `conversionText`: the text of a conversion of `x`.
* `isDecimal_conversionText`: it denotes `x` rounded to nearest, ties to even, at the digit the
  conversion prescribes.
-/

namespace Citadel.Number

open Citadel.Lib.Rounding Citadel.Lib.Positional Nat List

/-! ## Notations -/

/-- The last `p` digits of `n`. -/
def digitText (p n : ℕ) : List UInt8 := (expand 10 p n).map digitChar

/-- A number without leading zeros. -/
def numberText (n : ℕ) : List UInt8 := digitText (log 10 n + 1) n

/-- `p` digits behind a point; the point stands alone only in the alternative form. -/
def fractionText (alt : Bool) (p n : ℕ) : List UInt8 :=
  (if p ≠ 0 ∨ alt = true then ['.'.toUInt8] else []) ++ digitText p n

/-- `n * 10 ^ (-p)` in fixed notation. -/
def fixedText (alt : Bool) (n p : ℕ) : List UInt8 := numberText (n / 10 ^ p) ++ fractionText alt p n

/-- An exponent of at least `k` digits behind its mark. -/
def exponentText (mark : Char) (k : ℕ) (X : ℤ) : List UInt8 :=
  mark.toUInt8 :: (if X < 0 then '-' else '+').toUInt8 ::
    digitText (max k (log 10 X.natAbs + 1)) X.natAbs

/-- `n * 10 ^ (X - p)` with one digit before the point. -/
def scientificText (alt upper : Bool) (n p : ℕ) (X : ℤ) : List UInt8 :=
  digitText 1 (n / 10 ^ p) ++ fractionText alt p n ++ exponentText (if upper then 'E' else 'e') 2 X

/-- `n * 10 ^ (-p)` without the zeros at the end of its fraction. -/
def stripZeros : ℕ → ℕ → ℕ × ℕ
  | n, 0 => (n, 0)
  | n, p + 1 => if n % 10 = 0 then stripZeros (n / 10) p else (n, p + 1)

/-- Trailing zeros stay in the alternative form. -/
def shorten (alt : Bool) (n p : ℕ) : ℕ × ℕ := if alt then (n, p) else stripZeros n p

/-! ## Rounding at a decimal digit -/

/-- The nearest multiple of `10 ^ k`, ties to even. -/
def roundAt (x : ℚ) (k : ℤ) : ℚ := roundEven (x / 10 ^ k) * 10 ^ k

/-- The `p + 1` significant digits of `x` and its exponent once rounded. -/
def scientific (x : ℚ) (p : ℕ) : ℕ × ℤ :=
  if x = 0 then (0, 0)
  else
    let n := roundEven (x / 10 ^ (Int.log 10 x - p))
    if n = 10 ^ (p + 1) then (10 ^ p, Int.log 10 x + 1) else (n, Int.log 10 x)

/-- The precision of `%g`. -/
def significantDigits (p : ℕ) : ℕ := if p ≠ 0 then p else 1

/-- Does `%g` choose fixed notation? -/
def choosesFixed (x : ℚ) (p : ℕ) : Bool :=
  let X := (scientific x (significantDigits p - 1)).2
  (significantDigits p : ℤ) > X ∧ X ≥ -4

/-- The number of fraction digits of `%g` in fixed notation. -/
def fixedDigits (x : ℚ) (p : ℕ) : ℕ :=
  ((significantDigits p : ℤ) - 1 - (scientific x (significantDigits p - 1)).2).toNat

/-- The power of ten of the last digit that a conversion keeps of `x`. -/
def lastDigit (t : Conv) (p : ℕ) (x : ℚ) : ℤ :=
  match t with
  | .f => -p
  | .e => Int.log 10 x - p
  | .g =>
    if choosesFixed x p then -fixedDigits x p else Int.log 10 x - (significantDigits p - 1 : ℕ)
  | .a => 0

/-- The text of a decimal conversion of `x` with precision `p`. -/
def conversionText (t : Conv) (alt upper : Bool) (p : ℕ) (x : ℚ) : List UInt8 :=
  match t with
  | .f => fixedText alt (roundEven (x / 10 ^ (-p : ℤ))) p
  | .e =>
    let r := scientific x p
    scientificText alt upper r.1 p r.2
  | .g =>
    if choosesFixed x p then
      let r := shorten alt (roundEven (x / 10 ^ (-(fixedDigits x p) : ℤ))) (fixedDigits x p)
      fixedText alt r.1 r.2
    else
      let r := scientific x (significantDigits p - 1)
      let s := shorten alt r.1 (significantDigits p - 1)
      scientificText alt upper s.1 s.2 r.2
  | .a => []

/-! ## The digits of a text -/

theorem digitChar_facts {d : ℕ} (h : d < 10) :
    isdigit (digitChar d) = true ∧ (digitChar d).toNat - 48 = d := by
  interval_cases d <;> decide

theorem isdigit_of_mem_digitText {p n : ℕ} : ∀ c ∈ digitText p n, isdigit c = true := by
  intro c hc
  obtain ⟨d, hd, rfl⟩ := mem_map.mp hc
  exact (digitChar_facts (lt_of_mem_expand (by norm_num) hd)).1

theorem length_digitText (p n : ℕ) : (digitText p n).length = p := by
  simp [digitText]

theorem decimalValue_digitText (p n : ℕ) : decimalValue (digitText p n) = n % 10 ^ p := by
  have h : (digitText p n).map (fun c => c.toNat - 48) = expand 10 p n := by
    unfold digitText
    rw [map_map]
    conv_rhs => rw [← map_id (expand 10 p n)]
    exact map_congr_left fun d hd => (digitChar_facts (lt_of_mem_expand (by norm_num) hd)).2
  unfold decimalValue
  rw [h]
  exact horner_expand 10 p n

theorem digitText_add (p q n : ℕ) :
    digitText (p + q) n = digitText p (n / 10 ^ q) ++ digitText q n := by
  unfold digitText
  rw [expand_add, map_append]

/-- Digits with a fraction behind them are the mantissa of the whole number. -/
theorem mantissa_digitText (alt : Bool) {q : ℕ} (hq : q ≠ 0) (p n : ℕ) :
    Mantissa isdigit (digitText q (n / 10 ^ p) ++ fractionText alt p n) (digitText q (n / 10 ^ p))
      (digitText p n) := by
  refine ⟨isdigit_of_mem_digitText, isdigit_of_mem_digitText, .inl fun h => hq ?_, ?_⟩
  · rw [← length_digitText q (n / 10 ^ p), h, length_nil]
  · unfold fractionText
    split_ifs with h
    · exact .inr rfl
    · obtain rfl : p = 0 := by
        by_contra h0
        exact h (.inl h0)
      exact .inl ⟨by simp [digitText], rfl⟩

theorem exponentPart_exponentText {mark mark' : Char} (h : (mark.toUInt8 ||| 32) = mark'.toUInt8)
    (k : ℕ) (X : ℤ) : ExponentPart mark' (exponentText mark k X) X := by
  refine .inr ⟨_, [(if X < 0 then '-' else '+').toUInt8], decide (X < 0), _, h, ?_, ?_,
    isdigit_of_mem_digitText, rfl, ?_⟩
  · by_cases hX : X < 0
    · exact .inr (.inr ⟨by rw [if_pos hX], by simpa using hX⟩)
    · exact .inr (.inl ⟨by rw [if_neg hX], by simpa using hX⟩)
  · intro h
    have := length_digitText (max k (log 10 X.natAbs + 1)) X.natAbs
    rw [h, length_nil] at this
    omega
  · have hlt : X.natAbs < 10 ^ max k (log 10 X.natAbs + 1) :=
      (lt_pow_succ_log_self (by norm_num) _).trans_le
        (Nat.pow_le_pow_right (by norm_num) (le_max_right _ _))
    rw [decimalValue_digitText, mod_eq_of_lt hlt]
    split_ifs with h
    · rw [decide_eq_true_eq] at h
      omega
    · rw [decide_eq_true_eq] at h
      omega

theorem isDecimal_fixedText (alt : Bool) (n p : ℕ) : IsDecimal (fixedText alt n p) n (-p) := by
  have hlt : n < 10 ^ (log 10 (n / 10 ^ p) + 1 + p) := by
    rw [pow_add, ← Nat.div_lt_iff_lt_mul (by positivity)]
    exact lt_pow_succ_log_self (by norm_num) _
  refine ⟨_, [], _, _, 0, mantissa_digitText alt (succ_ne_zero _) p n, .inl ⟨rfl, rfl⟩,
    (append_nil _).symm, ?_, ?_⟩
  · rw [← digitText_add, decimalValue_digitText, mod_eq_of_lt hlt]
  · rw [length_digitText]
    omega

theorem isDecimal_scientificText (alt upper : Bool) {n p : ℕ} (h : n < 10 ^ (p + 1)) (X : ℤ) :
    IsDecimal (scientificText alt upper n p X) n (X - p) := by
  refine ⟨_, _, _, _, X, mantissa_digitText alt one_ne_zero p n,
    exponentPart_exponentText (by rcases upper with _ | _ <;> decide) 2 X, rfl, ?_, ?_⟩
  · rw [← digitText_add, decimalValue_digitText, mod_eq_of_lt (by rwa [Nat.add_comm 1])]
  · rw [length_digitText]

/-! ## What a conversion denotes -/

section Denotes

variable {x : ℚ}

theorem roundAt_zero (k : ℤ) : roundAt 0 k = 0 := by
  unfold roundAt
  rw [zero_div, show (0 : ℚ) = (0 : ℕ) by norm_num, roundEven_natCast, cast_zero, zero_mul]

theorem ten_zpow_log_le (hx : 0 < x) :
    (10 : ℚ) ^ Int.log 10 x ≤ x ∧ x < 10 ^ (Int.log 10 x + 1) := by
  have h1 := Int.zpow_log_le_self (b := 10) (by norm_num) hx
  have h2 := Int.lt_zpow_succ_log_self (b := 10) (by norm_num) x
  exact ⟨by exact_mod_cast h1, by exact_mod_cast h2⟩

theorem scientific_spec (hx : 0 ≤ x) (p : ℕ) : (scientific x p).1 < 10 ^ (p + 1) ∧
    ((scientific x p).1 : ℚ) * 10 ^ ((scientific x p).2 - p) = roundAt x (Int.log 10 x - p) := by
  unfold scientific
  by_cases h0 : x = 0
  · rw [if_pos h0]
    subst h0
    refine ⟨by positivity, ?_⟩
    rw [roundAt_zero, cast_zero, zero_mul]
  · rw [if_neg h0]
    have hpos : 0 < x := lt_of_le_of_ne hx (.symm h0)
    have hle : roundEven (x / 10 ^ (Int.log 10 x - p)) ≤ 10 ^ (p + 1) := by
      refine roundEven_le (by positivity) ?_
      rw [div_le_iff₀ (by positivity)]
      push_cast
      rw [← zpow_natCast, ← zpow_add₀ (by norm_num)]
      refine (ten_zpow_log_le hpos).2.le.trans_eq ?_
      congr 1
      push_cast
      ring
    simp only
    split_ifs with hn
    · refine ⟨Nat.pow_lt_pow_right (by norm_num) (by omega), ?_⟩
      unfold roundAt
      rw [hn]
      push_cast
      rw [← zpow_natCast, ← zpow_natCast, ← zpow_add₀ (by norm_num), ← zpow_add₀ (by norm_num)]
      congr 1
      push_cast
      ring
    · exact ⟨lt_of_le_of_ne hle hn, rfl⟩

/-- Zeros are taken from the end of the fraction and nowhere else, and none is left there. -/
theorem stripZeros_spec (n p : ℕ) : (stripZeros n p).2 ≤ p ∧
    n = (stripZeros n p).1 * 10 ^ (p - (stripZeros n p).2) ∧
    ((stripZeros n p).2 ≠ 0 → (stripZeros n p).1 % 10 ≠ 0) := by
  induction p generalizing n with
  | zero => simp [stripZeros]
  | succ p ih =>
    simp only [stripZeros]
    split_ifs with h
    · obtain ⟨h1, h2, h3⟩ := ih (n / 10)
      refine ⟨by omega, ?_, h3⟩
      rw [succ_sub h1, pow_succ, ← Nat.mul_assoc, ← h2]
      omega
    · exact ⟨le_rfl, by simp, fun _ => h⟩

theorem shorten_spec (alt : Bool) (n p : ℕ) : (shorten alt n p).2 ≤ p ∧
    n = (shorten alt n p).1 * 10 ^ (p - (shorten alt n p).2) := by
  unfold shorten
  split_ifs
  · simp
  · exact ⟨(stripZeros_spec n p).1, (stripZeros_spec n p).2.1⟩

theorem shorten_div (alt : Bool) (n p : ℕ) :
    (shorten alt n p).1 / 10 ^ (shorten alt n p).2 = n / 10 ^ p := by
  obtain ⟨h1, h2⟩ := shorten_spec alt n p
  conv_rhs => rw [h2, show 10 ^ p = 10 ^ (shorten alt n p).2 * 10 ^ (p - (shorten alt n p).2) by
    rw [← pow_add, Nat.add_sub_cancel' h1]]
  rw [Nat.mul_div_mul_right _ _ (by positivity)]

theorem shorten_value (alt : Bool) (n p : ℕ) (X : ℤ) :
    ((shorten alt n p).1 : ℚ) * 10 ^ (X - (shorten alt n p).2) = n * 10 ^ (X - p) := by
  obtain ⟨h1, h2⟩ := shorten_spec alt n p
  conv_rhs => rw [h2]
  push_cast
  rw [mul_assoc, ← zpow_natCast, ← zpow_add₀ (by norm_num)]
  congr 2
  push_cast [h1]
  ring

theorem shorten_lt {alt : Bool} {n p : ℕ} (h : n < 10 ^ (p + 1)) :
    (shorten alt n p).1 < 10 ^ ((shorten alt n p).2 + 1) := by
  obtain ⟨h1, h2⟩ := shorten_spec alt n p
  rw [h2, show p + 1 = (shorten alt n p).2 + 1 + (p - (shorten alt n p).2) by omega, pow_add] at h
  exact Nat.lt_of_mul_lt_mul_right h

/-- **The text of a conversion denotes the rounded value**, at the digit the conversion prescribes.
-/
theorem isDecimal_conversionText {t : Conv} (ht : t ≠ .a) (alt upper : Bool) (p : ℕ) (hx : 0 ≤ x) :
    ∃ n e, IsDecimal (conversionText t alt upper p x) n e ∧
      (n : ℚ) * 10 ^ e = roundAt x (lastDigit t p x) := by
  rcases t with _ | _ | _ | _
  · exact absurd rfl ht
  · obtain ⟨h1, h2⟩ := scientific_spec hx p
    exact ⟨_, _, isDecimal_scientificText alt upper h1 _, h2⟩
  · exact ⟨_, _, isDecimal_fixedText alt _ p, rfl⟩
  · simp only [conversionText, lastDigit]
    split_ifs with h
    · refine ⟨_, _, isDecimal_fixedText alt _ _, ?_⟩
      have hv :=
        shorten_value alt (roundEven (x / 10 ^ (-(fixedDigits x p) : ℤ))) (fixedDigits x p) 0
      rw [zero_sub, zero_sub] at hv
      exact hv
    · obtain ⟨h1, h2⟩ := scientific_spec hx (significantDigits p - 1)
      refine ⟨_, _, isDecimal_scientificText alt upper (shorten_lt h1) _, ?_⟩
      rw [shorten_value, h2]

/-- A value that `p + 1` digits round up to a power of ten is rounded to it by `p` digits too. -/
theorem roundAt_succ {p : ℕ} {k : ℤ} (h : roundEven (x / 10 ^ k) = 10 ^ (p + 1))
    (hx : x ≤ 10 ^ (k + (p + 1))) (h0 : 0 ≤ x) : roundAt x (k + 1) = roundAt x k := by
  have hk : (0 : ℚ) < 10 ^ k := by positivity
  have hk1 : (10 : ℚ) ^ (k + 1) = 10 * 10 ^ k := by
    rw [zpow_add_one₀ (by norm_num)]
    ring
  have hdiv : x / 10 ^ (k + 1) = x / 10 ^ k / 10 := by
    rw [hk1]
    field_simp
  have hnear := abs_le.mp (abs_sub_roundEven_le (div_nonneg h0 hk.le))
  rw [h] at hnear
  push_cast at hnear
  have hpow : (10 : ℚ) ^ (p + 1) = 10 * 10 ^ p := by ring
  have hle : x / 10 ^ (k + 1) ≤ ((10 ^ p : ℕ) : ℚ) := by
    rw [div_le_iff₀ (by positivity)]
    refine hx.trans_eq ?_
    push_cast
    rw [← zpow_natCast, ← zpow_add₀ (by norm_num)]
    congr 1
    ring
  have hround : roundEven (x / 10 ^ (k + 1)) = 10 ^ p := by
    have h1 := roundEven_le (div_nonneg h0 (by positivity)) hle
    have h2 := abs_le.mp (abs_sub_roundEven_le (y := x / 10 ^ (k + 1)) (by positivity))
    refine le_antisymm h1 (not_lt.mp fun hlt => ?_)
    have h3 : (roundEven (x / 10 ^ (k + 1)) : ℚ) + 1 ≤ 10 ^ p := by exact_mod_cast hlt
    rw [hdiv] at h2 h3
    linarith
  unfold roundAt
  rw [hround, h, hk1]
  push_cast
  ring

/-- **Both styles of `%g` keep the same digits**: the value is rounded to `P` significant digits. -/
theorem roundAt_lastDigit (hx : 0 ≤ x) (p : ℕ) :
    roundAt x (lastDigit .g p x) = roundAt x (Int.log 10 x - (significantDigits p - 1 : ℕ)) := by
  rcases hx.eq_or_lt with rfl | hpos
  · rw [roundAt_zero, roundAt_zero]
  simp only [lastDigit]
  split_ifs with hfix
  · have hP : 1 ≤ significantDigits p := by
      unfold significantDigits
      split_ifs <;> omega
    have hf : -(fixedDigits x p : ℤ) =
        (scientific x (significantDigits p - 1)).2 - (significantDigits p - 1 : ℕ) := by
      simp only [choosesFixed, decide_eq_true_eq] at hfix
      unfold fixedDigits
      omega
    rw [hf]
    unfold scientific
    rw [if_neg hpos.ne']
    simp only
    split_ifs with hn
    · rw [add_sub_right_comm]
      refine roundAt_succ hn ?_ hx
      rw [← add_assoc, sub_add_cancel]
      exact (ten_zpow_log_le hpos).2.le
    · rfl
  · rfl

end Denotes

end Citadel.Number
