import Citadel.Number.FormatFp
import Citadel.Number.Read

/-!
# Decimal round trip

Seventeen significant digits separate neighbouring `double` values, so what `%.17g` writes is read
back by `strtod` as the same value.

* `rnd_seventeen`: the value is the nearest one to its seventeen digits.
* `strtod_fmtFp`: writing and reading again.
-/

namespace Citadel.Number

open Citadel.Lib.Rounding Nat Format List

variable {x : ℚ}

/-! ## Seventeen digits -/

theorem rnd_seventeen (h0 : 0 ≤ x) (hx : Ffmt.dbl.format.Representable x) :
    Ffmt.dbl.format.rnd (roundAt x (Int.log 10 x - 16)) = x := by
  rcases h0.eq_or_lt with rfl | hpos
  · rw [roundAt_zero, rnd_zero]
  have hk : (0 : ℚ) < 10 ^ (Int.log 10 x - 16) := by positivity
  have hround : |roundAt x (Int.log 10 x - 16) - x| ≤ 1 / 2 * 10 ^ (Int.log 10 x - 16) := by
    have h := abs_sub_roundEven_le (y := x / 10 ^ (Int.log 10 x - 16)) (by positivity)
    have heq : roundAt x (Int.log 10 x - 16) - x =
        -(x / 10 ^ (Int.log 10 x - 16) - roundEven (x / 10 ^ (Int.log 10 x - 16))) *
          10 ^ (Int.log 10 x - 16) := by
      unfold roundAt
      field_simp
      ring
    rw [heq, abs_mul, abs_neg, abs_of_pos hk]
    exact mul_le_mul_of_nonneg_right h hk.le
  have hlog : (10 : ℚ) ^ (Int.log 10 x - 16) * 10 ^ 16 ≤ x := by
    rw [← zpow_natCast (10 : ℚ) 16, ← zpow_add₀ (by norm_num)]
    refine le_trans (le_of_eq ?_) (ten_zpow_log_le hpos).1
    congr 1
    push_cast
    ring
  refine rnd_eq_of_close hx (mul_nonneg (cast_nonneg _) hk.le) ?_
  -- `2 ^ 53 < 10 ^ 16`
  calc |roundAt x (Int.log 10 x - 16) - x| * 2 * 2 ^ Ffmt.dbl.format.prec
      ≤ 1 / 2 * 10 ^ (Int.log 10 x - 16) * 2 * 2 ^ 53 := by
        show _ * 2 * 2 ^ 53 ≤ _
        gcongr
    _ < 10 ^ (Int.log 10 x - 16) * 10 ^ 16 := by linarith
    _ ≤ x := hlog

/-! ## The length of the text -/

theorem length_fractionText_le (alt : Bool) (p n : ℕ) : (fractionText alt p n).length ≤ p + 1 := by
  unfold fractionText
  rw [length_append, length_digitText]
  split_ifs
  · rw [length_singleton, Nat.add_comm]
  · simp

theorem length_scientificText_le (alt upper : Bool) (n p : ℕ) {X : ℤ} (h : X.natAbs < 10000) :
    (scientificText alt upper n p X).length ≤ p + 8 := by
  have h1 : log 10 X.natAbs < 4 := log_lt_of_lt_pow' (by norm_num) h
  have h2 := length_fractionText_le alt p n
  unfold scientificText exponentText
  simp only [length_append, length_cons, length_digitText]
  omega

theorem length_fixedText_le (alt : Bool) {n p q : ℕ} (h : n / 10 ^ p < 10 ^ (q + 1)) :
    (fixedText alt n p).length ≤ q + p + 2 := by
  have h1 : log 10 (n / 10 ^ p) < q + 1 := log_lt_of_lt_pow' (by omega) h
  have h2 := length_fractionText_le alt p n
  unfold fixedText numberText
  simp only [length_append, length_digitText]
  omega

theorem scientific_exponent_lt (h0 : 0 ≤ x) (hx : Ffmt.dbl.format.Representable x)
    (hmax : x ≤ Ffmt.dbl.format.maxFinite) (p : ℕ) : (scientific x p).2.natAbs < 10000 := by
  rcases h0.eq_or_lt with rfl | hpos
  · simp [scientific]
  have hlo : -1074 ≤ Int.log 10 x := by
    obtain ⟨m, e, he, -, rfl⟩ := hx
    have hm : (1 : ℚ) ≤ m := by
      have : m ≠ 0 := by
        rintro rfl
        simp at hpos
      exact_mod_cast one_le_iff_ne_zero.mpr this
    rw [← Int.zpow_le_iff_le_log (by norm_num) hpos]
    calc ((10 : ℕ) : ℚ) ^ (-1074 : ℤ) ≤ 2 ^ (-1074 : ℤ) := by
          rw [zpow_neg, zpow_neg]
          exact inv_anti₀ (two_zpow_pos 1074)
            (zpow_le_zpow_left₀ (by norm_num) (by norm_num) (by norm_num))
      _ ≤ 2 ^ e := zpow_le_zpow_right₀ one_le_two he
      _ ≤ m * 2 ^ e := le_mul_of_one_le_left (two_zpow_pos e).le hm
  have hhi : Int.log 10 x < 1024 := by
    rw [← Int.lt_zpow_iff_log_lt (by norm_num) hpos]
    calc x < 2 ^ (1024 : ℤ) := hmax.trans_lt maxFinite_lt
      _ ≤ ((10 : ℕ) : ℚ) ^ (1024 : ℤ) :=
          zpow_le_zpow_left₀ (by norm_num) (by norm_num) (by norm_num)
  unfold scientific
  rw [if_neg hpos.ne']
  simp only
  split_ifs <;> simp only <;> omega

theorem length_conversionText_le (h0 : 0 ≤ x) (hx : Ffmt.dbl.format.Representable x)
    (hmax : x ≤ Ffmt.dbl.format.maxFinite) (alt upper : Bool) :
    (conversionText .g alt upper 17 x).length ≤ 60 := by
  simp only [conversionText]
  split_ifs with hfix
  · have hX : fixedDigits x 17 ≤ 20 ∧ (scientific x 16).2 ≤ 16 := by
      simp only [choosesFixed, decide_eq_true_eq] at hfix
      have : significantDigits 17 = 17 := rfl
      unfold fixedDigits
      rw [this] at hfix ⊢
      norm_num at hfix ⊢
      omega
    have hle := (shorten_spec alt (roundEven (x / 10 ^ (-(fixedDigits x 17) : ℤ)))
      (fixedDigits x 17)).1
    refine (length_fixedText_le (q := 17) alt ?_).trans (by omega)
    rw [shorten_div]
    have hlt : x ≤ 10 ^ (17 : ℤ) := by
      rcases h0.eq_or_lt with rfl | hpos
      · positivity
      refine (ten_zpow_log_le hpos).2.le.trans (zpow_le_zpow_right₀ (by norm_num) ?_)
      have := hX.2
      unfold scientific at this
      rw [if_neg hpos.ne'] at this
      simp only at this
      split_ifs at this <;> omega
    generalize fixedDigits x 17 = p
    have hround : roundEven (x / 10 ^ (-p : ℤ)) ≤ 10 ^ (17 + p) := by
      refine roundEven_le (by positivity) ?_
      rw [div_le_iff₀ (by positivity)]
      refine hlt.trans_eq ?_
      push_cast
      rw [pow_add, mul_assoc, zpow_neg, zpow_natCast, mul_inv_cancel₀ (by positivity), mul_one]
      rfl
    calc roundEven (x / 10 ^ (-p : ℤ)) / 10 ^ p ≤ 10 ^ (17 + p) / 10 ^ p :=
      Nat.div_le_div_right hround
      _ = 10 ^ 17 := by rw [pow_add, Nat.mul_div_cancel _ (by positivity)]
      _ < 10 ^ (17 + 1) := by norm_num
  · have hX := scientific_exponent_lt h0 hx hmax (significantDigits 17 - 1)
    have hle := (shorten_spec alt (scientific x (significantDigits 17 - 1)).1
      (significantDigits 17 - 1)).1
    refine (length_scientificText_le alt upper _ _ hX).trans ?_
    have : significantDigits 17 = 17 := rfl
    omega

/-! ## Writing and reading again -/

theorem length_signPart_le (neg : Bool) : (signPart neg {}).length ≤ 1 := by
  rcases neg with _ | _ <;> decide

/-- A numeral is read to its end behind the sign that is written. -/
theorem leads_signPart (neg : Bool) {t : List UInt8} (ht : IsNumeral t) (hlen : t.length ≤ 100) :
    Leads neg (signPart neg {} ++ t) t t := by
  refine ⟨[], _, rfl, ?_, by simp, ?_, prefix_refl _, ht, fun _ h _ => h.length_le⟩
  · have := length_signPart_le neg
    rw [length_append]
    omega
  · rcases neg with _ | _
    · exact .inl ⟨rfl, rfl⟩
    · exact .inr (.inr ⟨rfl, rfl⟩)

/-- **`%.17g` and `strtod` are inverse.** A finite `double` is read back from its text, which is
consumed to its end. -/
theorem strtod_fmtFp (neg : Bool) (h0 : 0 ≤ x) (hx : Ffmt.dbl.format.Representable x)
    (hmax : x ≤ Ffmt.dbl.format.maxFinite) {room : ℕ} (hroom : 64 ≤ room) :
    let s := (fmtFp (LDouble.ofValue (.finite neg x)) 0 17 {} .g room).2
    (strtod s).value = .finite neg x ∧ (strtod s).rest = [] := by
  intro s
  have hy : (LDouble.ofValue (.finite neg x)).value = .finite neg x := by
    rw [value_ofValue_finite neg h0]
    exact round_eq_finite neg h0 (representable_ldbl hx) (hmax.trans (maxFinite_le_ldbl .dbl))
  have hlen := length_conversionText_le h0 hx hmax false false
  obtain ⟨n, e, hdec, hval⟩ := isDecimal_conversionText (t := .g) (by decide) false false 17 h0
  have hs : s = signPart neg {} ++ conversionText .g false false 17 x := by
    show (fmtFp _ 0 17 {} .g room).2 = _
    rw [fmtFp_eq hy 0 (by norm_num) {} (by decide) room, fpField_eq]
    simp only
    have hfit : (signPart neg {}).length + (conversionText .g false false 17 x).length ≤ room := by
      have := length_signPart_le neg
      omega
    rw [if_pos (by rw [Nat.zero_max]; exact hfit)]
    simp [layout, pad]
  obtain ⟨h1, h2⟩ := parse_decimal (leads_signPart neg (.inl ⟨n, e, hdec⟩) (by omega)) hdec .dbl
    (by simp)
  have hrnd : Ffmt.dbl.format.round neg (n * 10 ^ e) = .finite neg x := by
    rw [hval, roundAt_lastDigit h0]
    unfold Format.round
    rw [show ((significantDigits 17 - 1 : ℕ) : ℤ) = 16 from rfl, rnd_seventeen h0 hx,
      if_neg (not_lt.mpr hmax)]
  unfold strtod
  simp only [hs]
  refine ⟨?_, by simpa using h2⟩
  rw [h1, convert_round neg (by positivity), hrnd]

/-- The smallest subnormal number with a minus sign. -/
theorem strtod_fmtFp_subnormal :
    let s := (fmtFp (LDouble.ofValue (.finite true (2 ^ (-1074 : ℤ)))) 0 17 {} .g 100).2
    (strtod s).value = .finite true (2 ^ (-1074 : ℤ)) ∧ (strtod s).rest = [] :=
  strtod_fmtFp true (two_zpow_pos _).le
    ⟨1, -1074, le_rfl, by norm_num [Ffmt.format], by rw [cast_one, one_mul]⟩
    (by
      refine (zpow_le_zpow_right₀ one_le_two (by norm_num : (-1074 : ℤ) ≤ 971)).trans ?_
      show (2 : ℚ) ^ (971 : ℤ) ≤ (2 ^ 53 - 1) * 2 ^ (971 : ℤ)
      exact le_mul_of_one_le_left (two_zpow_pos _).le (by norm_num))
    (by norm_num)

end Citadel.Number
