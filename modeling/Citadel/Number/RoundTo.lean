import Citadel.Number.Strtod

/-!
# The rounding of a quotient

`round_to` is given the integer part `Q` of `x / 2 ^ E` and whether anything is below it.

* `roundTo_eq`: it ends with the significand and the exponent of the rounding of `x`, and knows
  whether the rounding is exact.
* `value_roundTo`: its result is the rounding of `x` to the format.
-/

namespace Citadel.Number

open Citadel.Lib.Rounding Nat Format

/-- A significand and an exponent of the format: normal, or with the least exponent. -/
structure Canonical (F : Format) (keep : ℕ) (E : ℤ) : Prop where
  lt : keep < 2 ^ F.prec
  le : F.emin ≤ E
  normal : E = F.emin ∨ 2 ^ (F.prec - 1) ≤ keep

variable {F : Ffmt} {Q keep : ℕ} {E : ℤ} {x : ℚ}

theorem Canonical.maxFinite_lt_iff (h : Canonical F.format keep E) :
    F.format.maxFinite < keep * 2 ^ E ↔ keep ≠ 0 ∧ E > F.format.emax := by
  constructor
  · intro hlt
    refine ⟨?_, ?_⟩
    · rintro rfl
      rw [cast_zero, zero_mul] at hlt
      exact absurd hlt (not_lt.mpr maxFinite_nonneg)
    · by_contra hc
      exact absurd hlt (not_lt.mpr (mul_le_maxFinite h.lt (not_lt.mp hc)))
  · rintro ⟨-, hgt⟩
    have hk := h.normal.resolve_left (by have := emin_le_emax F; omega)
    refine maxFinite_lt.trans_le ?_
    exact (two_zpow_mono (by omega)).trans (two_zpow_le_mul hk E)

theorem Canonical.value_makeLd (h : Canonical F.format keep E) (hE : keep ≠ 0 → E ≤ F.format.emax)
    (neg : Bool) : (makeLd keep E neg).value = .finite neg (keep * 2 ^ E) := by
  have hp := F.format.two_le_prec
  have h64 := prec_le F
  have hmin := le_emin F
  have hmax := prec_add_emax_le F
  have hle := h.le
  have hsize : keep.size ≤ F.format.prec := size_le.mpr h.lt
  rcases Nat.eq_zero_or_pos keep with rfl | hpos
  · rw [value_makeLd_zero, cast_zero, zero_mul]
  · have hE' := hE hpos.ne'
    refine Number.value_makeLd neg (h.lt.trans_le (Nat.pow_le_pow_right (by norm_num) h64)) ?_
      (by omega)
    have hs0 : 0 < keep.size := size_pos.mpr hpos
    cases F with
    | flt => exact .inr (by have : (-149 : ℤ) ≤ E := hle; omega)
    | dbl => exact .inr (by have : (-1074 : ℤ) ≤ E := hle; omega)
    | ldbl =>
      refine h.normal.imp id fun hn => ?_
      have h1 : 63 < keep.size := lt_size.mpr hn
      have h2 : (-16445 : ℤ) ≤ E := hle
      omega

/-- **The end of `round_to`** makes the datum of the significand and the exponent. -/
theorem Canonical.value_roundEnd (h : Canonical F.format keep E) (inexact neg : Bool) :
    (roundEnd keep E inexact F neg).1.value =
      if F.format.maxFinite < keep * 2 ^ E then .inf neg else .finite neg (keep * 2 ^ E) := by
  unfold roundEnd
  by_cases hbig : keep ≠ 0 ∧ E > F.format.emax
  · rw [if_pos hbig, if_pos (h.maxFinite_lt_iff.mpr hbig)]
    exact value_makeInf neg
  · rw [if_neg hbig, if_neg fun hc => hbig (h.maxFinite_lt_iff.mp hc)]
    exact h.value_makeLd (fun h0 => not_lt.mp fun hc => hbig ⟨h0, hc⟩) neg

/-! ## The bits dropped -/

theorem bitLength_eq (hQ : Q ≠ 0) (h128 : Q < 2 ^ 128) :
    (128 - (if Q >>> 64 ≠ 0 then clzll (Q >>> 64) else 64 + clzll Q : ℕ) : ℤ) = Q.size := by
  have hpos : 0 < Q.size := size_pos.mpr (pos_of_ne_zero hQ)
  have hle : Q.size ≤ 128 := size_le.mpr h128
  rw [shiftRight_eq_div_pow]
  unfold clzll
  split_ifs with h
  · have hs := size_div_two_pow Q 64
    have hd : 0 < (Q / 2 ^ 64).size := size_pos.mpr (pos_of_ne_zero h)
    omega
  · have h1 : Q < 2 ^ 64 := by
      by_contra hc
      exact h (div_pos (not_lt.mp hc) (by positivity)).ne'
    have h2 : Q.size ≤ 64 := size_le.mpr h1
    omega

/-- The exponent of the last bit kept, and the window of the exponent range that holds the number.
-/
theorem round_window (hQ : Q ≠ 0) (hlo : (Q : ℚ) * 2 ^ E ≤ x) (hhi : x < (Q + 1) * 2 ^ E) {e : ℤ}
    (he : e = max F.format.emin (E + Q.size - F.format.prec)) :
    (e = F.format.emin ∨ (2 : ℚ) ^ (e + (F.format.prec - 1)) ≤ x) ∧
      x < 2 ^ (e + F.format.prec) := by
  have hpos : 0 < Q.size := size_pos.mpr (pos_of_ne_zero hQ)
  constructor
  · rcases max_choice F.format.emin (E + Q.size - F.format.prec) with h | h
    · exact .inl (he.trans h)
    · refine .inr (le_trans ?_ hlo)
      have h1 : e + (F.format.prec - 1) = ((Q.size - 1 : ℕ) : ℤ) + E := by omega
      have h2 : 2 ^ (Q.size - 1) ≤ Q := lt_size.mp (by omega)
      rw [h1]
      exact two_zpow_le_mul h2 E
  · have h2 := mul_le_two_zpow (m := Q + 1) (lt_size_self Q) E
    push_cast at h2
    refine (hhi.trans_le h2).trans_le (two_zpow_mono ?_)
    have := le_max_right F.format.emin (E + Q.size - F.format.prec)
    omega

/-- The rounded quotient is the significand, once a carry to a new bit is shifted out. -/
theorem canonical_roundEven {e : ℤ} (he : F.format.emin ≤ e) (hx : 0 < x)
    (hlo : e = F.format.emin ∨ (2 : ℚ) ^ (e + (F.format.prec - 1)) ≤ x)
    (hhi : x < 2 ^ (e + F.format.prec)) {n : ℕ} (hn : roundEven (x / 2 ^ e) = n)
      (inexact neg : Bool) :
    ∃ keep E', (if n >>> F.format.prec ≠ 0 then
        roundEnd ((n >>> 1) % 2 ^ 64) (e + 1) inexact F neg
      else roundEnd (n % 2 ^ 64) e inexact F neg) = roundEnd keep E' inexact F neg ∧
      Canonical F.format keep E' ∧ (keep : ℚ) * 2 ^ E' = F.format.rnd x := by
  -- the kept bits are the significand that the format itself chooses
  obtain ⟨h1, h2, h3, h4⟩ := significand_spec (F := F.format) hx
  have hle := roundEven_quantum_le (F := F.format) hx
  have hlt64 : 2 ^ F.format.prec ≤ 2 ^ 64 := Nat.pow_le_pow_right (by norm_num) (prec_le F)
  have hpow := F.format.two_pow_prec
  refine ⟨_, _, ?_, ⟨h1, h2, h3⟩, h4⟩
  unfold significand
  simp only
  rw [quantum_eq he hx hlo hhi, hn] at hle ⊢
  rw [shiftRight_eq_div_pow, shiftRight_eq_div_pow]
  rcases hle.lt_or_eq with h | rfl
  · rw [if_neg h.ne, div_eq_of_lt h, if_neg (not_not.mpr rfl), mod_eq_of_lt (h.trans_le hlt64)]
  · rw [Nat.div_self (by positivity), if_pos one_ne_zero, if_pos rfl]
    simp only
    rw [hpow, pow_one, Nat.mul_div_cancel _ two_pos, mod_eq_of_lt]
    have : 0 < 2 ^ (F.format.prec - 1) := by positivity
    omega

theorem keep_rem_eq (h128 : Q < 2 ^ 128) (d : ℕ) :
    (if (d : ℤ) ≥ 128 then 0 else Q >>> d) = Q / 2 ^ d ∧
    (if (d : ℤ) ≥ 128 then Q else Q &&& (2 ^ d - 1)) = Q % 2 ^ d := by
  split_ifs with h
  · have hlt : Q < 2 ^ d := h128.trans_le (Nat.pow_le_pow_right (by norm_num) (by omega))
    rw [div_eq_of_lt hlt, mod_eq_of_lt hlt]
    exact ⟨rfl, rfl⟩
  · rw [and_two_pow_sub_one_eq_mod, shiftRight_eq_div_pow]
    exact ⟨rfl, rfl⟩

variable {sticky : Bool}

theorem roundUp_eq (h128 : Q < 2 ^ 128) {d : ℕ} (hd : 0 < d) {y : ℚ} (hlo : (Q : ℚ) ≤ y)
    (hhi : y < Q + 1) (hst : sticky = true ↔ y ≠ Q) :
    roundEven (y / 2 ^ d) = Q / 2 ^ d + (decide ((Q % 2 ^ d ≠ 0 ∨ sticky = true) ∧ (d : ℤ) ≤ 128 ∧
      (Q % 2 ^ d > 2 ^ (d - 1) ∨
        (Q % 2 ^ d = 2 ^ (d - 1) ∧ (sticky = true ∨ Q / 2 ^ d % 2 = 1))))).toNat := by
  have h2 : 2 * 2 ^ (d - 1) = 2 ^ d := by
    rw [← pow_succ']
    congr 1
    omega
  have hhalf : 0 < 2 ^ (d - 1) := by positivity
  have h := roundEven_div hhalf hlo hhi
  rw [h2] at h
  push_cast at h
  rw [h]
  simp only [hst]
  congr 1
  by_cases hup : 2 ^ (d - 1) < Q % 2 ^ d ∨
      Q % 2 ^ d = 2 ^ (d - 1) ∧ (y ≠ Q ∨ Q / 2 ^ d % 2 = 1)
  · have h128' : (d : ℤ) ≤ 128 := by
      by_contra hc
      have h3 : 2 ^ 128 ≤ 2 ^ (d - 1) := Nat.pow_le_pow_right (by norm_num) (by omega)
      have h4 := mod_le Q (2 ^ d)
      omega
    rw [if_pos hup, decide_eq_true]
    · rfl
    · exact ⟨.inl (by omega), h128', hup⟩
  · rw [if_neg hup, decide_eq_false]
    · rfl
    · rintro ⟨-, -, hc⟩
      exact hup hc

section

variable (hQ : Q ≠ 0) (h128 : Q < 2 ^ 128) (hlo : (Q : ℚ) * 2 ^ E ≤ x) (hhi : x < (Q + 1) * 2 ^ E)
  (hst : sticky = true ↔ x ≠ Q * 2 ^ E) (hlong : sticky = true → F.format.prec < Q.size)
  (neg : Bool)
include hQ h128 hlo hhi hst hlong neg

/-- **What `round_to` ends with**: the significand and the exponent of the rounding. -/
theorem roundTo_eq : ∃ keep E' inexact, roundTo Q E sticky F neg = roundEnd keep E' inexact F neg ∧
      Canonical F.format keep E' ∧ (keep : ℚ) * 2 ^ E' = F.format.rnd x ∧
      (inexact = true ↔ F.format.rnd x ≠ x) := by
  have hp := F.format.two_le_prec
  have h64 := prec_le F
  have hE := two_zpow_pos E
  have hx : 0 ≤ x := le_trans (by positivity) hlo
  unfold roundTo
  rw [if_neg hQ]
  simp only [bitLength_eq hQ h128]
  obtain ⟨drop, hdrop⟩ : ∃ drop : ℤ, (if E + ((Q.size : ℤ) - F.format.prec) < F.format.emin
      then F.format.emin - E else (Q.size : ℤ) - F.format.prec) = drop := ⟨_, rfl⟩
  rw [hdrop]
  have he : E + drop = max F.format.emin (E + Q.size - F.format.prec) := by
    rw [← hdrop]
    split_ifs with h
    · rw [max_eq_left (by omega)]
      ring
    · rw [max_eq_right (by omega)]
      ring
  have hmin : F.format.emin ≤ E + drop := he ▸ le_max_left _ _
  have hmax : E + Q.size - F.format.prec ≤ E + drop := he ▸ le_max_right _ _
  obtain ⟨hwlo, hwhi⟩ := round_window (F := F) hQ hlo hhi he
  by_cases hpos : drop > 0
  · rw [if_pos hpos]
    obtain ⟨d, rfl⟩ : ∃ d : ℕ, drop = d := ⟨drop.toNat, by omega⟩
    rw [Int.toNat_natCast]
    obtain ⟨hk, hr⟩ := keep_rem_eq h128 d
    rw [hk, hr]
    have hpd : (0 : ℚ) < 2 ^ d := by positivity
    have hpow : (2 : ℚ) ^ (E + d) = 2 ^ E * 2 ^ d := by rw [zpow_add₀ two_ne_zero, zpow_natCast]
    have hdiv : x / 2 ^ (E + d) = x / 2 ^ E / 2 ^ d := by rw [hpow, div_div]
    have hylo : (Q : ℚ) ≤ x / 2 ^ E := (le_div_iff₀ hE).mpr hlo
    have hyhi : x / 2 ^ E < Q + 1 := (div_lt_iff₀ hE).mpr hhi
    have hyst : sticky = true ↔ x / 2 ^ E ≠ Q := by
      rw [hst, ne_eq, ne_eq, div_eq_iff hE.ne']
    have hn := roundUp_eq h128 (show 0 < d by omega) hylo hyhi hyst
    rw [← hdiv] at hn
    have hx0 : 0 < x := (mul_pos (cast_pos.mpr (pos_of_ne_zero hQ)) hE).trans_le hlo
    obtain ⟨keep, E', heq, hcan, hval⟩ := canonical_roundEven hmin hx0 hwlo hwhi hn
      (sticky || decide (Q % 2 ^ d ≠ 0)) neg
    refine ⟨keep, E', _, heq, hcan, hval, ?_⟩
    rw [Bool.or_eq_true, decide_eq_true_iff, hyst]
    have hrnd := rnd_eq_of_window hmin hx hwlo hwhi
    constructor
    · -- a multiple of the last bit kept would leave nothing behind
      rintro h heq'
      rw [hrnd] at heq'
      generalize roundEven (x / 2 ^ (E + d)) = n at heq'
      rw [hpow] at heq'
      have hy : x / 2 ^ E = ((n * 2 ^ d : ℕ) : ℚ) := by
        rw [div_eq_iff hE.ne', ← heq']
        push_cast
        ring
      have hQn : Q = n * 2 ^ d := by
        rw [hy] at hylo hyhi
        have h1 : Q ≤ n * 2 ^ d := by exact_mod_cast hylo
        have h2 : n * 2 ^ d < Q + 1 := by exact_mod_cast hyhi
        omega
      rcases h with h | h
      · exact h (by rw [hy, hQn])
      · exact h (by rw [hQn, mul_mod_left])
    · intro hne
      by_contra hc
      push Not at hc
      refine hne ?_
      have hy : x / 2 ^ (E + d) = ((Q / 2 ^ d : ℕ) : ℚ) := by
        rw [hdiv, hc.1, div_eq_iff hpd.ne']
        have := div_add_mod Q (2 ^ d)
        rw [hc.2, add_zero, mul_comm] at this
        exact_mod_cast this.symm
      rw [hrnd, hy, roundEven_natCast, ← hy, div_mul_cancel₀]
      exact (two_zpow_pos _).ne'
  · rw [if_neg hpos]
    have hns : sticky = false := by
      by_contra h
      have := hlong (by simpa using h)
      omega
    have hxe : x = Q * 2 ^ E := by
      by_contra h
      rw [hst.mpr h] at hns
      exact Bool.noConfusion hns
    obtain ⟨u, hu⟩ : ∃ u : ℕ, drop = -(u : ℤ) := ⟨(-drop).toNat, by omega⟩
    have hlt : Q * 2 ^ u < 2 ^ F.format.prec := by
      rw [← size_le, ← shiftLeft_eq, size_shiftLeft hQ]
      omega
    have hval : ((Q * 2 ^ u : ℕ) : ℚ) * 2 ^ (E + drop) = x := by
      rw [hxe, hu, zpow_add₀ two_ne_zero, zpow_neg, zpow_natCast]
      push_cast
      field_simp
    have hrep : F.format.rnd x = x :=
      rnd_eq_self hx ⟨Q * 2 ^ u, E + drop, hmin, hlt, hval.symm⟩
    refine ⟨Q * 2 ^ u, E + drop, sticky, ?_, ⟨hlt, hmin, hwlo.imp id fun h => ?_⟩, ?_, ?_⟩
    · rw [hu, neg_neg, Int.toNat_natCast, shiftLeft_eq,
        mod_eq_of_lt (hlt.trans_le (Nat.pow_le_pow_right (by norm_num) h64))]
    · have h1 : ((2 ^ (F.format.prec - 1) : ℕ) : ℚ) * 2 ^ (E + drop) ≤
          ((Q * 2 ^ u : ℕ) : ℚ) * 2 ^ (E + drop) := by
        rw [hval, ← two_zpow_natCast_add]
        exact (two_zpow_mono (by omega)).trans h
      exact_mod_cast le_of_mul_le_mul_right h1 (two_zpow_pos _)
    · rw [hrep, hval]
    · rw [hns, hrep]
      simp

/-- **The result of `round_to` is the rounding of `x`.** -/
theorem value_roundTo : (roundTo Q E sticky F neg).1.value = F.format.round neg x := by
  obtain ⟨keep, E', inexact, he, hc, hval, -⟩ := roundTo_eq hQ h128 hlo hhi hst hlong neg
  rw [he, hc.value_roundEnd, hval]
  rfl

end

end Citadel.Number
