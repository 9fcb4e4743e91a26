import Citadel.Number.Big
import Citadel.Number.RoundTo

/-!
# Decimal significands

`decimal` is given at most 800 digits and a power of ten, and whether nonzero digits were left out.

* `value_decimalBig`: the big-integer path rounds the number the digits stand for. Digits left out
  cannot matter for `float` and `double`, since no midpoint has so many digits
  (`midpoint_above`).
* `value_decimalMiddle`: rounding to 64 bits first changes nothing when the result is no midpoint.
* `value_decimal`: all paths return the number rounded to the format.
-/

namespace Citadel.Number

open Citadel.Lib.Rounding Nat Format

/-- What `decimal` is given: digits without a leading zero and the number `x` they stand for; behind
800 digits further ones may follow. -/
structure Significand (ds : List ℕ) (q : ℤ) (sticky : Bool) (x : ℚ) : Prop where
  digit : ∀ d ∈ ds, d < 10
  lead : ds ≠ [] → 10 ^ (ds.length - 1) ≤ digitsValue ds
  exact : sticky = false → x = digitsValue ds * 10 ^ q
  above : sticky = true → ds ≠ [] ∧ (digitsValue ds : ℚ) * 10 ^ q < x ∧
    ∃ z : ℕ, ds.length + z = maxDigits ∧ x < (digitsValue ds * 10 ^ z + 1) * 10 ^ (q - z)

variable {F : Ffmt} {ds : List ℕ} {q : ℤ} {sticky : Bool} {x : ℚ}

theorem ten_zpow_pos (e : ℤ) : (0 : ℚ) < 10 ^ e := zpow_pos (by norm_num) e

theorem ten_zpow_mono {a b : ℤ} (h : a ≤ b) : (10 : ℚ) ^ a ≤ 10 ^ b :=
  zpow_le_zpow_right₀ (by norm_num) h

theorem ten_zpow_natCast_add (n : ℕ) (e : ℤ) :
    (10 : ℚ) ^ (n + e) = ((10 ^ n : ℕ) : ℚ) * 10 ^ e := by
  rw [zpow_add₀ (by norm_num), zpow_natCast]
  push_cast
  rfl

theorem Significand.le (h : Significand ds q sticky x) : (digitsValue ds : ℚ) * 10 ^ q ≤ x := by
  cases sticky
  · exact (h.exact rfl).ge
  · exact (h.above rfl).2.1.le

theorem Significand.nonneg (h : Significand ds q sticky x) : 0 ≤ x :=
  le_trans (mul_nonneg (cast_nonneg _) (ten_zpow_pos q).le) h.le

theorem Significand.bounds (h : Significand ds q sticky x) (hds : ds ≠ []) :
    (10 : ℚ) ^ (q + ds.length - 1) ≤ x ∧ x < 10 ^ (q + ds.length) := by
  have hq := ten_zpow_pos q
  have hlen : 0 < ds.length := List.length_pos_iff.mpr hds
  have hlt := digitsValue_lt h.digit
  constructor
  · refine le_trans ?_ h.le
    rw [show q + (ds.length : ℤ) - 1 = ((ds.length - 1 : ℕ) : ℤ) + q by omega, ten_zpow_natCast_add]
    exact mul_le_mul_of_nonneg_right (by exact_mod_cast h.lead hds) hq.le
  · cases sticky
    · rw [h.exact rfl, add_comm, ten_zpow_natCast_add]
      exact mul_lt_mul_of_pos_right (by exact_mod_cast hlt) hq
    · obtain ⟨-, -, z, -, hx⟩ := h.above rfl
      refine hx.trans_le ?_
      rw [show q + (ds.length : ℤ) = ((ds.length + z : ℕ) : ℤ) + (q - z) by push_cast; ring,
        ten_zpow_natCast_add]
      refine mul_le_mul_of_nonneg_right ?_ (ten_zpow_pos _).le
      have h1 : (digitsValue ds + 1) * 10 ^ z ≤ 10 ^ ds.length * 10 ^ z :=
        mul_le_mul_right _ hlt
      have h2 : 0 < 10 ^ z := by positivity
      have h3 : digitsValue ds * 10 ^ z + 1 ≤ 10 ^ (ds.length + z) := by
        rw [pow_add]
        rw [add_mul, one_mul] at h1
        omega
      exact_mod_cast h3

/-! ## Overflow and underflow -/

variable {a b n M : ℕ}

/-- `2 ^ 93` is a little below `10 ^ 28`, close enough for the widest of the formats. -/
theorem two_zpow_le_ten_zpow (k r s : ℕ) (ha : a = 93 * k + r) (hb : b = 28 * k + s)
    (h : (2 : ℚ) ^ r ≤ 10 ^ s) : (2 : ℚ) ^ (a : ℤ) ≤ 10 ^ (b : ℤ) := by
  rw [zpow_natCast, zpow_natCast, ha, hb, pow_add, pow_add, pow_mul, pow_mul]
  have hk : ((2 : ℚ) ^ 93) ^ k ≤ (10 ^ 28) ^ k := pow_le_pow_left₀ (by positivity) (by norm_num) k
  exact mul_le_mul hk h (by positivity) (by positivity)

theorem ten_zpow_neg_le (h : (2 : ℚ) ^ (a : ℤ) ≤ 10 ^ (b : ℤ)) :
    (10 : ℚ) ^ (-(b : ℤ)) ≤ 2 ^ (-(a : ℤ)) := by
  rw [zpow_neg, zpow_neg]
  exact inv_anti₀ (two_zpow_pos _) h

theorem dmax_spec (F : Ffmt) : (2 : ℚ) ^ (F.format.prec + F.format.emax) ≤ 10 ^ F.dmax := by
  cases F
  · exact two_zpow_le_ten_zpow (a := 128) (b := 40) 1 35 12 rfl rfl (by norm_num)
  · exact two_zpow_le_ten_zpow (a := 1024) (b := 310) 11 1 2 rfl rfl (by norm_num)
  · exact two_zpow_le_ten_zpow (a := 16384) (b := 4934) 176 16 6 rfl rfl (by norm_num)

theorem dmin_spec (F : Ffmt) : (10 : ℚ) ^ (F.dmin - 1) ≤ 2 ^ (F.format.emin - 1) := by
  cases F
  · exact ten_zpow_neg_le (a := 150) (b := 48)
      (two_zpow_le_ten_zpow 1 57 20 rfl rfl (by norm_num))
  · exact ten_zpow_neg_le (a := 1075) (b := 326)
      (two_zpow_le_ten_zpow 11 52 18 rfl rfl (by norm_num))
  · exact ten_zpow_neg_le (a := 16446) (b := 4954)
      (two_zpow_le_ten_zpow 176 78 26 rfl rfl (by norm_num))

theorem round_overflow (neg : Bool) (h : (2 : ℚ) ^ (F.format.prec + F.format.emax) ≤ x) :
    F.format.round neg x = .inf neg := by
  have hp := F.format.two_le_prec
  have hrep : F.format.Representable (2 ^ (F.format.prec + F.format.emax)) :=
    representable_two_zpow (by have := emin_le_emax F; omega)
  have hx : 0 ≤ x := le_trans (two_zpow_pos _).le h
  unfold Format.round
  rw [if_pos (maxFinite_lt.trans_le (le_rnd hx hrep h))]

theorem round_underflow (neg : Bool) (hx : 0 ≤ x) (h : x < 2 ^ (F.format.emin - 1)) :
    F.format.round neg x = .finite neg 0 := by
  unfold Format.round
  rw [rnd_eq_zero hx h, if_neg (not_lt.mpr maxFinite_nonneg)]

/-! ## The big-integer path -/

/-- The scaling of a quotient of `a` and `b` to `p + 2` or `p + 3` bits. -/
theorem scaled_quotient {p d : ℕ} {e : ℤ} (ha : 0 < a) (hb : 0 < b)
    (he : e = a.size - b.size - p - 2) (hn : n = if e < 0 then a * 2 ^ (-e).toNat else a)
    (hd : d = if e < 0 then b else b * 2 ^ e.toNat) :
    0 < d ∧ ((n / d : ℕ) : ℚ) * 2 ^ e ≤ a / b ∧ (a : ℚ) / b < ((n / d : ℕ) + 1) * 2 ^ e ∧
      (n % d ≠ 0 ↔ (a : ℚ) / b ≠ (n / d : ℕ) * 2 ^ e) ∧
      2 ^ (p + 1) ≤ n / d ∧ n / d < 2 ^ (p + 3) := by
  have hE := two_zpow_pos e
  have hd0 : 0 < d := by
    rw [hd]
    split_ifs
    · exact hb
    · positivity
  have hd' : (0 : ℚ) < d := by exact_mod_cast hd0
  have hratio : (n : ℚ) / d = a / b / 2 ^ e := by
    rw [hn, hd]
    split_ifs with h
    · obtain ⟨j, rfl⟩ : ∃ j : ℕ, e = -(j : ℤ) := ⟨(-e).toNat, by omega⟩
      rw [neg_neg, Int.toNat_natCast, zpow_neg, zpow_natCast]
      push_cast
      field_simp
    · obtain ⟨j, rfl⟩ : ∃ j : ℕ, e = j := ⟨e.toNat, by omega⟩
      rw [Int.toNat_natCast, zpow_natCast]
      push_cast
      field_simp
  have hdm : (n : ℚ) = d * (n / d : ℕ) + (n % d : ℕ) := by
    exact_mod_cast (div_add_mod n d).symm
  have hr : ((n % d : ℕ) : ℚ) < d := by exact_mod_cast mod_lt n hd0
  have hlo : ((n / d : ℕ) : ℚ) ≤ a / b / 2 ^ e := by
    rw [← hratio, le_div_iff₀ hd']
    linarith
  have hhi : (a : ℚ) / b / 2 ^ e < (n / d : ℕ) + 1 := by
    rw [← hratio, div_lt_iff₀ hd']
    linarith
  have hsize : n.size = d.size + (p + 2) := by
    rw [hn, hd]
    split_ifs
    · rw [← shiftLeft_eq, size_shiftLeft ha.ne']
      omega
    · rw [← shiftLeft_eq, size_shiftLeft hb.ne']
      omega
  have hsd : 0 < d.size := size_pos.mpr hd0
  refine ⟨hd0, (le_div_iff₀ hE).mp hlo, (div_lt_iff₀ hE).mp hhi, ?_, ?_, ?_⟩
  · rw [ne_eq, ne_eq, ← div_eq_iff hE.ne', ← hratio, div_eq_iff hd'.ne', not_iff_not]
    constructor
    · intro h0
      rw [h0] at hdm
      rw [hdm]
      push_cast
      ring
    · intro h0
      have : ((n % d : ℕ) : ℚ) = 0 := by linarith
      exact_mod_cast this
  · rw [Nat.le_div_iff_mul_le hd0]
    calc 2 ^ (p + 1) * d ≤ 2 ^ (p + 1) * 2 ^ d.size := Nat.mul_le_mul_left _ (lt_size_self d).le
      _ = 2 ^ (n.size - 1) := by
          rw [← pow_add]
          congr 1
          omega
      _ ≤ n := lt_size.mp (by omega)
  · rw [Nat.div_lt_iff_lt_mul hd0]
    calc n < 2 ^ n.size := lt_size_self n
      _ = 2 ^ (p + 3) * 2 ^ (d.size - 1) := by
          rw [← pow_add]
          congr 1
          omega
      _ ≤ 2 ^ (p + 3) * d := Nat.mul_le_mul_left _ (lt_size.mp (by omega))

/-- The big-integer path hands over the quotient of `digits * 10 ^ q` by a power of two. -/
theorem decimalBig_eq (h : ∀ d ∈ ds, d < 10) (hpos : 0 < digitsValue ds) (q : ℤ) (sticky : Bool)
    (F : Ffmt) (neg : Bool) : ∃ (Q : ℕ) (e : ℤ) (rem : Bool),
    decimalBig ds q sticky F neg = roundTo Q e (sticky || rem) F neg ∧
    Q ≠ 0 ∧ Q < 2 ^ 128 ∧ F.format.prec < Q.size ∧
    (Q : ℚ) * 2 ^ e ≤ digitsValue ds * 10 ^ q ∧ (digitsValue ds : ℚ) * 10 ^ q < (Q + 1) * 2 ^ e ∧
    (rem = true ↔ (digitsValue ds : ℚ) * 10 ^ q ≠ Q * 2 ^ e) := by
  have hnum : bigDigits ds (bigSmall 0) = base.digits (digitsValue ds) := by
    have := bigDigits_eq 0 h
    rwa [digits_zero, zero_mul, zero_add] at this
  obtain ⟨a, b, ha, hb, hab, hna, hdb⟩ : ∃ a b : ℕ, 0 < a ∧ 0 < b ∧
      (a : ℚ) / b = digitsValue ds * 10 ^ q ∧
      (if q ≥ 0 then bigMulpow10 (bigDigits ds (bigSmall 0)) q.toNat
        else bigDigits ds (bigSmall 0)) = base.digits a ∧
      (if q ≥ 0 then bigSmall 1 else bigMulpow10 (bigSmall 1) (-q).toNat) = base.digits b := by
    rw [hnum, bigSmall_eq one_lt_base]
    by_cases hq : q ≥ 0
    · obtain ⟨j, rfl⟩ : ∃ j : ℕ, q = j := ⟨q.toNat, by omega⟩
      refine ⟨digitsValue ds * 10 ^ j, 1, by positivity, one_pos, ?_, ?_, by rw [if_pos hq]⟩
      · rw [zpow_natCast]
        push_cast
        rw [div_one]
      · rw [if_pos hq, Int.toNat_natCast, bigMulpow10_digits]
    · obtain ⟨j, rfl⟩ : ∃ j : ℕ, q = -(j : ℤ) := ⟨(-q).toNat, by omega⟩
      refine ⟨digitsValue ds, 10 ^ j, hpos, by positivity, ?_, by rw [if_neg hq], ?_⟩
      · rw [zpow_neg, zpow_natCast, div_eq_mul_inv]
        push_cast
        rfl
      · rw [if_neg hq, neg_neg, Int.toNat_natCast, bigMulpow10_digits, one_mul]
  unfold decimalBig
  simp only [hna, hdb, bigBits_digits]
  generalize he : (a.size : ℤ) - b.size - F.format.prec - 2 = e
  have hn : (if e < 0 then bigShl (base.digits a) (-e).toNat else base.digits a) =
      base.digits (if e < 0 then a * 2 ^ (-e).toNat else a) := by
    split_ifs
    · exact bigShl_digits a _
    · rfl
  have hd : (if e < 0 then base.digits b else bigShl (base.digits b) e.toNat) =
      base.digits (if e < 0 then b else b * 2 ^ e.toNat) := by
    split_ifs
    · rfl
    · exact bigShl_digits b _
  obtain ⟨hd0, hlo, hhi, hrem, hge, hlt⟩ := scaled_quotient ha hb he.symm rfl rfl
  rw [hn, hd, bigQuotient_digits hd0]
  rw [hab] at hlo hhi hrem
  have hp := prec_le F
  refine ⟨_, e, _, rfl, ?_, ?_, ?_, hlo, hhi, ?_⟩
  · have : 0 < 2 ^ (F.format.prec + 1) := by positivity
    omega
  · exact hlt.trans_le (Nat.pow_le_pow_right (by norm_num) (by omega))
  · exact lt_of_lt_of_le (lt_succ_self _) (lt_size.mpr hge).le
  · rw [← hrem, decide_eq_true_iff, ne_eq, List.length_eq_zero_iff, digits_eq_nil]

/-! ## Digits left out -/

/-- No number of one bit more than `float` or `double` lies strictly between two neighbouring
numbers of 800 digits: it has fewer digits. -/
theorem dyadic_above {T : ℕ} {e : ℤ} (hF : F ≠ .ldbl) (hT : 10 ^ 799 ≤ T)
    (hM : M ≤ 2 * 2 ^ F.format.prec) (he : F.format.emin ≤ e + 1)
    (hlo : (T : ℚ) * 10 ^ (-(n : ℤ)) < M * 2 ^ e) :
    ((T : ℚ) + 1) * 10 ^ (-(n : ℤ)) ≤ M * 2 ^ e := by
  have hn := ten_zpow_pos (-(n : ℤ))
  rcases le_or_gt 0 (e + n) with hint | hint
  · -- the number is a multiple of the last digit
    obtain ⟨j, hj⟩ : ∃ j : ℕ, e + n = j := ⟨(e + n).toNat, by omega⟩
    have hK : (M : ℚ) * 2 ^ e = ((M * 2 ^ j * 5 ^ n : ℕ) : ℚ) * 10 ^ (-(n : ℤ)) := by
      rw [show e = (j : ℤ) + -(n : ℤ) by omega, zpow_add₀ two_ne_zero, zpow_natCast,
        show (10 : ℚ) = 2 * 5 by norm_num, mul_zpow, zpow_neg 5, zpow_natCast 5]
      push_cast
      field_simp
    rw [hK] at hlo ⊢
    have h1 : (T : ℚ) < ((M * 2 ^ j * 5 ^ n : ℕ) : ℚ) := lt_of_mul_lt_mul_right hlo hn.le
    have h2 : T + 1 ≤ M * 2 ^ j * 5 ^ n := by exact_mod_cast h1
    exact mul_le_mul_of_nonneg_right (by exact_mod_cast h2) hn.le
  · -- otherwise it is too small to be above so many digits
    exfalso
    have hsmall : (M : ℚ) * 2 ^ e ≤ ((2 ^ F.format.prec : ℕ) : ℚ) * 2 ^ (-(n : ℤ)) := by
      have h2 : (2 : ℚ) ^ e ≤ 2 ^ (-(n : ℤ) - 1) := zpow_le_zpow_right₀ one_le_two (by omega)
      rw [two_zpow_sub_one (-(n : ℤ))]
      calc (M : ℚ) * 2 ^ e ≤ ((2 * 2 ^ F.format.prec : ℕ) : ℚ) * 2 ^ (-(n : ℤ) - 1) :=
            mul_le_mul (by exact_mod_cast hM) h2 (two_zpow_pos _).le (by positivity)
        _ = _ := by push_cast; ring
    have hbig : ((10 ^ 799 : ℕ) : ℚ) * 10 ^ (-(n : ℤ)) ≤ T * 10 ^ (-(n : ℤ)) :=
      mul_le_mul_of_nonneg_right (by exact_mod_cast hT) hn.le
    have hlt := (hbig.trans_lt hlo).trans_le hsmall
    have hmul : 10 ^ 799 * 2 ^ n < 2 ^ F.format.prec * 10 ^ n := by
      rw [zpow_neg, zpow_neg, zpow_natCast, zpow_natCast, ← div_eq_mul_inv, ← div_eq_mul_inv,
        div_lt_div_iff₀ (by positivity) (by positivity)] at hlt
      exact_mod_cast hlt
    have h5 : 10 ^ 799 < 2 ^ F.format.prec * 5 ^ n := by
      have h10 : 10 ^ n = 5 ^ n * 2 ^ n := by rw [← mul_pow]; norm_num
      rw [h10, ← mul_assoc] at hmul
      exact Nat.lt_of_mul_lt_mul_right hmul
    have hbound : ∀ k p : ℕ, n ≤ k → 2 ^ p * 5 ^ k ≤ 10 ^ 799 → ¬ 10 ^ 799 < 2 ^ p * 5 ^ n := by
      intro k p hk hle hlt
      have := Nat.mul_le_mul_left (2 ^ p) (Nat.pow_le_pow_right (show 0 < 5 by norm_num) hk)
      omega
    cases F with
    | flt =>
      have h1 : (-149 : ℤ) ≤ e + 1 := he
      exact hbound 149 24 (by omega) (by decide +kernel) h5
    | dbl =>
      have h1 : (-1074 : ℤ) ≤ e + 1 := he
      exact hbound 1074 53 (by omega) (by decide +kernel) h5
    | ldbl => exact hF rfl

theorem bounds_of_ne_ldbl (hF : F ≠ .ldbl) :
    F.dmax ≤ 310 ∧ F.format.prec ≤ 63 ∧ -16444 ≤ F.format.emin := by
  cases F
  · decide
  · decide
  · exact absurd rfl hF

/-- The digits kept, filled up to 800, and the next number of 800 digits. -/
theorem Significand.window (h : Significand ds q true x) (hF : F ≠ .ldbl)
    (hmax : q + ds.length ≤ F.dmax) : ∃ T n : ℕ, 10 ^ 799 ≤ T ∧
      (digitsValue ds : ℚ) * 10 ^ q = T * 10 ^ (-(n : ℤ)) ∧ x < (T + 1) * 10 ^ (-(n : ℤ)) := by
  obtain ⟨hds, -, z, hz, hhi⟩ := h.above rfl
  have hlen : 0 < ds.length := List.length_pos_iff.mpr hds
  have hz' : ds.length + z = 800 := hz
  have hdm := (bounds_of_ne_ldbl hF).1
  obtain ⟨n, hn⟩ : ∃ n : ℕ, q - z = -(n : ℤ) := ⟨(z - q).toNat, by omega⟩
  refine ⟨digitsValue ds * 10 ^ z, n, ?_, ?_, ?_⟩
  · calc 10 ^ 799 = 10 ^ (ds.length - 1) * 10 ^ z := by rw [← pow_add]; congr 1; omega
      _ ≤ digitsValue ds * 10 ^ z := mul_le_mul_right _ (h.lead hds)
  · rw [← hn, show q = (z : ℤ) + (q - z) by ring, ten_zpow_natCast_add,
      show (z : ℤ) + (q - z) - z = q - z by ring]
    push_cast
    ring
  · rw [hn] at hhi
    push_cast
    linarith

theorem half_mul_two_zpow (m : ℕ) (e : ℤ) :
    ((m : ℚ) + 1 / 2) * 2 ^ e = ((2 * m + 1 : ℕ) : ℚ) * 2 ^ (e - 1) := by
  rw [two_zpow_sub_one e]
  push_cast
  ring

/-- Numbers above the digits kept and below the next number of 800 digits round alike. -/
theorem Significand.rnd_eq (h : Significand ds q true x) (hF : F ≠ .ldbl)
    (hmax : q + ds.length ≤ F.dmax) {y : ℚ} (hlo : (digitsValue ds : ℚ) * 10 ^ q < y)
      (hyx : y ≤ x) :
    F.format.rnd y = F.format.rnd x := by
  obtain ⟨T, n, hT, hkept, hhi⟩ := h.window hF hmax
  rw [hkept] at hlo
  refine rnd_eq_of_no_midpoint ?_ hyx fun m hm hym => ?_
  · exact le_trans (mul_nonneg (cast_nonneg _) (ten_zpow_pos _).le) hlo.le
  · obtain ⟨m, e, he, hmlt, -, rfl⟩ := hm
    rw [half_mul_two_zpow] at hym ⊢
    exact hhi.trans_le (dyadic_above hF hT (by omega) (by omega) (hlo.trans_le hym))

theorem Significand.not_representable (h : Significand ds q true x) (hF : F ≠ .ldbl)
    (hmax : q + ds.length ≤ F.dmax) {y : ℚ} (hlo : (digitsValue ds : ℚ) * 10 ^ q < y)
      (hyx : y ≤ x) :
    ¬ F.format.Representable y := by
  rintro ⟨m, e, he, hm, rfl⟩
  obtain ⟨T, n, hT, hkept, hhi⟩ := h.window hF hmax
  rw [hkept] at hlo
  exact absurd (hyx.trans_lt hhi) (not_lt.mpr (dyadic_above hF hT (by omega) (by omega) hlo))

section

variable (h : Significand ds q sticky x) (hds : ds ≠ []) (hF : sticky = true → F ≠ .ldbl)
  (hmax : q + ds.length ≤ F.dmax) (neg : Bool)
include h hds hF hmax neg

/-- The big-integer path hands over the quotient of a number that rounds as `x` does. -/
theorem decimalBig_spec :
    ∃ (Q : ℕ) (e : ℤ) (st : Bool) (y : ℚ), decimalBig ds q sticky F neg = roundTo Q e st F neg ∧
      Q ≠ 0 ∧ Q < 2 ^ 128 ∧ (Q : ℚ) * 2 ^ e ≤ y ∧ y < (Q + 1) * 2 ^ e ∧
      (st = true ↔ y ≠ Q * 2 ^ e) ∧ F.format.prec < Q.size ∧ F.format.rnd y = F.format.rnd x ∧
      (F.format.Representable y ↔ F.format.Representable x) := by
  have hpos : 0 < digitsValue ds := lt_of_lt_of_le (by positivity) (h.lead hds)
  obtain ⟨Q, e, rem, heq, hQ, h128, hsize, hlo, hhi, hrem⟩ :=
    decimalBig_eq h.digit hpos q sticky F neg
  cases sticky with
  | false =>
    rw [Bool.false_or] at heq
    rw [← h.exact rfl] at hlo hhi hrem
    exact ⟨Q, e, rem, x, heq, hQ, h128, hlo, hhi, hrem, hsize, rfl, .rfl⟩
  | true =>
    -- any number a little above the digits kept stands for `x`
    have hx := (h.above rfl).2.1
    obtain ⟨y, hylo, hy⟩ := exists_between (lt_min hx hhi)
    have hyx := (hy.trans_le (min_le_left _ _)).le
    refine ⟨Q, e, true, y, heq, hQ, h128, hlo.trans hylo.le, hy.trans_le (min_le_right _ _),
      iff_of_true rfl (hlo.trans_lt hylo).ne', hsize, h.rnd_eq (hF rfl) hmax hylo hyx, ?_⟩
    exact iff_of_false (h.not_representable (hF rfl) hmax hylo hyx)
      (h.not_representable (hF rfl) hmax hx le_rfl)

/-- **The big-integer path rounds the number the digits stand for.** -/
theorem value_decimalBig : (decimalBig ds q sticky F neg).1.value = F.format.round neg x := by
  obtain ⟨Q, e, st, y, heq, hQ, h128, hlo, hhi, hst, hsize, hrnd, -⟩ :=
    decimalBig_spec h hds hF hmax neg
  rw [heq, value_roundTo hQ h128 hlo hhi hst (fun _ => hsize) neg]
  unfold Format.round
  rw [hrnd]

end

/-! ## The fast paths -/

theorem representable_natCast {v : ℕ} (hv : v < 2 ^ F.format.prec) : F.format.Representable v :=
  ⟨v, 0, by cases F <;> decide, hv, by simp⟩

theorem representable_pow10 {k : ℕ} (hk : 5 ^ k < 2 ^ F.format.prec) :
    F.format.Representable (10 ^ k) := by
  refine ⟨5 ^ k, k, ?_, hk, ?_⟩
  · have : F.format.emin ≤ 0 := by cases F <;> decide
    omega
  · rw [zpow_natCast, show (10 : ℚ) = 5 * 2 by norm_num, mul_pow]
    push_cast
    rfl

theorem rnd_pow10 {k : ℕ} (hn : 5 ^ n < 2 ^ F.format.prec) (hk : k ≤ n) :
    F.format.rnd (10 ^ k) = 10 ^ k :=
  rnd_eq_self (by positivity)
    (representable_pow10 ((Nat.pow_le_pow_right (by norm_num) hk).trans_lt hn))

theorem scaled_eq {p10 : ℕ → ℚ} (hp : ∀ k ≤ n, p10 k = 10 ^ k) (v : ℚ) (hlo : -(n : ℤ) ≤ q)
    (hhi : q ≤ n) : scaled v q p10 = v * 10 ^ q := by
  unfold scaled
  split_ifs with h
  · obtain ⟨j, rfl⟩ : ∃ j : ℕ, q = -(j : ℤ) := ⟨(-q).toNat, by omega⟩
    rw [neg_neg, Int.toNat_natCast, hp j (by omega), zpow_neg, zpow_natCast, div_eq_mul_inv]
  · obtain ⟨j, rfl⟩ : ∃ j : ℕ, q = j := ⟨q.toNat, by omega⟩
    rw [Int.toNat_natCast, hp j (by omega), zpow_natCast]

/-- The operands of a fast path are exact, so that its operation is given the exact number. -/
theorem fast_exact {G : Ffmt} (h : ∀ d ∈ ds, d < 10) (hlen : ds.length ≤ a)
    (ha : 10 ^ a ≤ 2 ^ G.format.prec) (hn : 5 ^ n < 2 ^ G.format.prec) (hlo : -(n : ℤ) ≤ q)
    (hhi : q ≤ n) : scaled (G.format.rnd (digitsValue ds)) q (fun k => G.format.rnd (10 ^ k)) =
      digitsValue ds * 10 ^ q := by
  have hv : digitsValue ds < 2 ^ G.format.prec :=
    ((digitsValue_lt h).trans_le (Nat.pow_le_pow_right (by norm_num) hlen)).trans_le ha
  rw [scaled_eq (fun k hk => rnd_pow10 hn hk) _ hlo hhi,
    rnd_eq_self (cast_nonneg _) (representable_natCast hv)]

/-- A number that is normal in the format is a midpoint only if the bits dropped from its 64-bit
significand are one and then zeros. -/
theorem not_midpoint {E : ℤ} (hF : F ≠ .ldbl) (hM : 2 ^ 63 ≤ M) (hM' : M < 2 ^ 64)
    (hlow : M % 2 ^ (64 - F.format.prec) ≠ 2 ^ (64 - F.format.prec - 1))
    (hX : F.format.emin + F.format.prec - 1 ≤ E + 63) : ¬ F.format.Midpoint (M * 2 ^ E) := by
  have hp63 := (bounds_of_ne_ldbl hF).2.1
  rintro ⟨m, e, he, hm, hn, heq⟩
  rw [half_mul_two_zpow] at heq
  -- the significand of a midpoint is odd, so that the one of 64 bits is a multiple of it
  obtain ⟨t, ht⟩ : ∃ t : ℕ, e - 1 = t + E := by
    by_contra hc
    obtain ⟨u, rfl⟩ : ∃ u : ℕ, E = (u + 1 : ℕ) + (e - 1) :=
      ⟨(E - e).toNat, by by_contra hu; exact hc ⟨(e - 1 - E).toNat, by omega⟩⟩
    rw [two_zpow_natCast_add, ← mul_assoc] at heq
    have h : M * 2 ^ (u + 1) = 2 * m + 1 := by
      exact_mod_cast mul_right_cancel₀ (two_zpow_pos _).ne' heq
    rw [pow_succ, ← mul_assoc] at h
    omega
  rw [ht, two_zpow_natCast_add, ← mul_assoc] at heq
  obtain rfl : M = (2 * m + 1) * 2 ^ t := by
    exact_mod_cast mul_right_cancel₀ (two_zpow_pos _).ne' heq
  have hdbl := F.format.two_pow_prec
  have hsize : (2 * m + 1).size + t = 64 := by
    rw [← size_shiftLeft (succ_ne_zero _), shiftLeft_eq]
    exact le_antisymm (size_le.mpr hM') (lt_size.mpr hM)
  have hle : (2 * m + 1).size ≤ F.format.prec + 1 := by
    rw [size_le, pow_succ]
    omega
  have hge : t ≤ 63 - F.format.prec := by
    rcases hn with rfl | hn
    · omega
    · have : F.format.prec < (2 * m + 1).size := by
        rw [lt_size]
        omega
      omega
  refine hlow ?_
  rw [show 64 - F.format.prec = t + 1 by omega, pow_succ, mul_comm, mul_mod_mul_left,
    show (2 * m + 1) % 2 = 1 by omega, mul_one, Nat.add_sub_cancel]

theorem representable_midpoint (hF : F ≠ .ldbl) {h : ℚ} (hm : F.format.Midpoint h) :
    Ffmt.ldbl.format.Representable h := by
  obtain ⟨m, e, he, hlt, -, rfl⟩ := hm
  have hpe := (bounds_of_ne_ldbl hF).2
  refine ⟨2 * m + 1, e - 1, ?_, ?_, ?_⟩
  · have : Ffmt.ldbl.format.emin = -16445 := rfl
    omega
  · have h1 : 2 ^ (F.format.prec + 1) ≤ 2 ^ 64 := Nat.pow_le_pow_right (by norm_num) (by omega)
    have h2 : 2 * m + 1 < 2 ^ (F.format.prec + 1) := by rw [pow_succ]; omega
    exact h2.trans_le h1
  · exact half_mul_two_zpow m e

/-- **Rounding to 64 bits first** changes nothing, unless the result is a midpoint. -/
theorem rnd_rnd_ldbl (hF : F ≠ .ldbl) (hx : 0 ≤ x)
    (hmid : ¬ F.format.Midpoint (Ffmt.ldbl.format.rnd x)) :
    F.format.rnd (Ffmt.ldbl.format.rnd x) = F.format.rnd x := by
  rcases le_total x (Ffmt.ldbl.format.rnd x) with hle | hle
  · refine (rnd_eq_of_no_midpoint hx hle fun h hm hxh => ?_).symm
    refine lt_of_le_of_ne (rnd_le hx (representable_midpoint hF hm) hxh) ?_
    rintro rfl
    exact hmid hm
  · refine rnd_eq_of_no_midpoint rnd_nonneg hle fun h hm hyh => ?_
    by_contra hc
    have := le_rnd hx (representable_midpoint hF hm) (not_lt.mp hc)
    have heq : h = Ffmt.ldbl.format.rnd x := le_antisymm this hyh
    exact hmid (heq ▸ hm)

/-- The bits of a 64-bit result that is far from both ends of the exponent range. -/
theorem middle_bits (hlo : (2 : ℚ) ^ (-90 : ℤ) ≤ x) (hhi : x ≤ 2 ^ (160 : ℤ)) :
    ∃ (M : ℕ) (E : ℤ), 2 ^ 63 ≤ M ∧ M < 2 ^ 64 ∧ (M : ℚ) * 2 ^ E = Ffmt.ldbl.format.rnd x ∧
      Ffmt.ldbl.format.round false x = .finite false (Ffmt.ldbl.format.rnd x) ∧
      (LDouble.ofValue (Ffmt.ldbl.format.round false x)).m.toNat = M ∧
      (((LDouble.ofValue (Ffmt.ldbl.format.round false x)).se &&& 0x7fff).toNat : ℤ) - 16383 =
        E + 63 := by
  have hx : 0 ≤ x := le_trans (two_zpow_pos _).le hlo
  have hylo := le_rnd hx (representable_two_zpow (F := Ffmt.ldbl.format) (by decide)) hlo
  have hyhi := rnd_le hx (representable_two_zpow (F := Ffmt.ldbl.format) (by decide)) hhi
  have hmax : (2 : ℚ) ^ (160 : ℤ) ≤ Ffmt.ldbl.format.maxFinite :=
    two_zpow_le_maxFinite (by decide)
  have hround : Ffmt.ldbl.format.round false x = .finite false (Ffmt.ldbl.format.rnd x) := by
    unfold Format.round
    rw [if_neg (not_lt.mpr (hyhi.trans hmax))]
  have hv := (value_ofValue_round .ldbl false hx).trans hround
  generalize LDouble.ofValue (Ffmt.ldbl.format.round false x) = u at hv
  have hexp : (u.se &&& 0x7fff).toNat = u.exponent := by
    rw [UInt16.toNat_and, show (0x7fff : UInt16).toNat = 2 ^ 15 - 1 from rfl,
      and_two_pow_sub_one_eq_mod]
    rfl
  unfold LDouble.value at hv
  split_ifs at hv with h1 h2 h3 h4
  · -- a subnormal number is far below
    rw [← (Value.finite.inj hv).2] at hylo
    have := lt_of_two_zpow_lt (hylo.trans_lt (mul_lt_two_zpow u.m.toNat_lt _))
    omega
  · refine ⟨u.m.toNat, u.exponent - 16446, not_lt.mp h4, u.m.toNat_lt, (Value.finite.inj hv).2,
      hround, rfl, ?_⟩
    rw [hexp]
    ring

/-- What the middle path looks at: the 64-bit significand and the exponent of the number. -/
theorem decimalMiddle_eq (h : Significand ds q false x) (hds : ds ≠ []) (hlen : ds.length ≤ 19)
    (hlo : -27 ≤ q) (hhi : q ≤ 27) (F : Ffmt) (neg : Bool) : ∃ (M : ℕ) (E : ℤ),
    2 ^ 63 ≤ M ∧ M < 2 ^ 64 ∧ (M : ℚ) * 2 ^ E = Ffmt.ldbl.format.rnd x ∧
    decimalMiddle ds q F neg =
      if M % 2 ^ (64 - F.format.prec) ≠ 2 ^ (64 - F.format.prec - 1) ∧
          E + 63 ≤ F.format.emax + F.format.prec - 1 ∧
          E + 63 ≥ F.format.emin + F.format.prec - 1 then
        let res := F.format.convert (.finite false (Ffmt.ldbl.format.rnd x))
        some (LDouble.ofValue (if neg then res.negate else res))
      else none := by
  obtain ⟨hxlo, hxhi⟩ := h.bounds hds
  have hlen0 : 0 < ds.length := List.length_pos_iff.mpr hds
  have hscaled : scaled (Ffmt.ldbl.format.rnd (digitsValue ds)) q p10l = x := by
    rw [h.exact rfl]
    exact fast_exact (G := .ldbl) (a := 19) (n := 27) h.digit hlen (by decide) (by decide) hlo hhi
  have hx1 : (2 : ℚ) ^ (-90 : ℤ) ≤ x := by
    refine le_trans ?_ ((ten_zpow_mono (show -27 ≤ _ by omega)).trans hxlo)
    norm_num
  have hx2 : x ≤ 2 ^ (160 : ℤ) := by
    refine (hxhi.le.trans (ten_zpow_mono (show _ ≤ 46 by omega))).trans ?_
    norm_num
  obtain ⟨M, E, hM, hM', hval, hfin, hm, hse⟩ := middle_bits hx1 hx2
  refine ⟨M, E, hM, hM', hval, ?_⟩
  unfold decimalMiddle
  simp only [hscaled, hm, hse, and_two_pow_sub_one_eq_mod]
  rw [value_ofValue_round .ldbl false h.nonneg, hfin]

theorem value_decimalMiddle (h : Significand ds q false x) (hds : ds ≠ []) (hF : F ≠ .ldbl)
    (hlen : ds.length ≤ 19) (hlo : -27 ≤ q) (hhi : q ≤ 27) {neg : Bool} {r : LDouble}
    (hr : decimalMiddle ds q F neg = some r) : r.value = F.format.round neg x := by
  have hx : 0 ≤ x := h.nonneg
  obtain ⟨M, E, hM, hM', hval, heq⟩ := decimalMiddle_eq h hds hlen hlo hhi F neg
  rw [heq] at hr
  by_cases hc : M % 2 ^ (64 - F.format.prec) ≠ 2 ^ (64 - F.format.prec - 1) ∧
      E + 63 ≤ F.format.emax + F.format.prec - 1 ∧ E + 63 ≥ F.format.emin + F.format.prec - 1
  · rw [if_pos hc] at hr
    obtain ⟨hlow, -, hX⟩ := hc
    have hmid := not_midpoint (F := F) (E := E) hF hM hM' hlow (by omega)
    rw [hval] at hmid
    have hv : F.format.convert (.finite false (Ffmt.ldbl.format.rnd x)) =
        F.format.round false x := by
      unfold Format.convert Format.round
      simp only [rnd_rnd_ldbl hF hx hmid]
    simp only [hv, negate_round] at hr
    rw [← Option.some.inj hr, value_ofValue_round F neg hx]
  · rw [if_neg hc] at hr
    exact absurd hr (by simp)

/-- The paths of `decimal` and the numbers that take them. -/
theorem decimal_cases (h : Significand ds q sticky x) (F : Ffmt) (neg : Bool) :
    x = 0 ∧ decimal ds q sticky F neg = (makeLd 0 0 neg, false) ∨
    10 ^ F.dmax ≤ x ∧ decimal ds q sticky F neg = (makeInf neg, true) ∨
    (0 < x ∧ x < 10 ^ (F.dmin - 1)) ∧ decimal ds q sticky F neg = (makeLd 0 0 neg, true) ∨
    ds ≠ [] ∧ q + ds.length ≤ F.dmax ∧
    ((F = .dbl ∧ ds.length ≤ 15 ∧ sticky = false ∧ -22 ≤ q ∧ q ≤ 22 ∧
        decimal ds q sticky F neg = (LDouble.ofValue (Ffmt.dbl.format.round neg x), false)) ∨
      (F ≠ .ldbl ∧ ds.length ≤ 19 ∧ sticky = false ∧ -27 ≤ q ∧ q ≤ 27 ∧
        ∃ r, decimalMiddle ds q F neg = some r ∧ decimal ds q sticky F neg = (r, false)) ∨
      ((F ≠ .ldbl → ds.length ≤ 19 → sticky = false → -27 ≤ q → q ≤ 27 →
          decimalMiddle ds q F neg = none) ∧
        decimal ds q sticky F neg = decimalBig ds q sticky F neg)) := by
  unfold decimal
  simp only
  by_cases h0 : ds.length = 0
  · have hnil : ds = [] := List.length_eq_zero_iff.mp h0
    have hs : sticky = false := by
      by_contra hc
      exact (h.above (by simpa using hc)).1 hnil
    refine .inl ⟨?_, if_pos h0⟩
    rw [h.exact hs, hnil]
    simp [digitsValue]
  have hds : ds ≠ [] := fun hc => h0 (List.length_eq_zero_iff.mpr hc)
  obtain ⟨hlo, hhi⟩ := h.bounds hds
  rw [if_neg h0]
  by_cases hmax : q + ds.length > F.dmax
  · exact .inr (.inl ⟨(ten_zpow_mono (by omega)).trans hlo, if_pos hmax⟩)
  rw [if_neg hmax]
  by_cases hmin : q + ds.length < F.dmin
  · refine .inr (.inr (.inl ⟨⟨(ten_zpow_pos _).trans_le hlo, ?_⟩, if_pos hmin⟩))
    exact hhi.trans_le (ten_zpow_mono (by omega))
  rw [if_neg hmin]
  refine .inr (.inr (.inr ⟨hds, not_lt.mp hmax, ?_⟩))
  by_cases hfast : F = .dbl ∧ ds.length ≤ 15 ∧ sticky = false ∧ q ≥ -22 ∧ q ≤ 22
  · rw [if_pos hfast]
    obtain ⟨rfl, hlen, rfl, hq1, hq2⟩ := hfast
    have hscaled : scaled (Ffmt.dbl.format.rnd (digitsValue ds)) q exact10 = x := by
      rw [h.exact rfl]
      exact fast_exact (G := .dbl) (a := 15) (n := 22) h.digit hlen (by decide) (by decide) hq1 hq2
    rw [hscaled, negate_round]
    exact .inl ⟨rfl, hlen, rfl, hq1, hq2, rfl⟩
  rw [if_neg hfast]
  by_cases hmid : F ≠ .ldbl ∧ ds.length ≤ 19 ∧ sticky = false ∧ q ≥ -27 ∧ q ≤ 27
  · rw [if_pos hmid]
    obtain ⟨hF, hlen, hst, hq1, hq2⟩ := hmid
    cases decimalMiddle ds q F neg with
    | some r => exact .inr (.inl ⟨hF, hlen, hst, hq1, hq2, r, rfl, rfl⟩)
    | none => exact .inr (.inr ⟨fun _ _ _ _ _ => rfl, rfl⟩)
  · rw [if_neg hmid]
    exact .inr (.inr ⟨fun h1 h2 h3 h4 h5 => absurd ⟨h1, h2, h3, h4, h5⟩ hmid, rfl⟩)

/-- **All paths of `decimal` return the number rounded to the format.** -/
theorem value_decimal (h : Significand ds q sticky x) (hF : sticky = true → F ≠ .ldbl)
    (neg : Bool) : (decimal ds q sticky F neg).1.value = F.format.round neg x := by
  obtain ⟨hx, he⟩ | ⟨hx, he⟩ | ⟨hx, he⟩ | ⟨hds, hmax, ⟨hF', -, -, -, -, he⟩ |
    ⟨hF', hlen, rfl, hq1, hq2, r, hr, he⟩ | ⟨-, he⟩⟩ := decimal_cases h F neg <;> rw [he]
  · rw [value_makeLd_zero, hx, round_underflow neg le_rfl (two_zpow_pos _)]
  · rw [value_makeInf, round_overflow neg ((dmax_spec F).trans hx)]
  · rw [value_makeLd_zero, round_underflow neg hx.1.le (hx.2.trans_le (dmin_spec F))]
  · rw [hF']
    exact value_ofValue_round .dbl neg h.nonneg
  · exact value_decimalMiddle h hds hF' hlen hq1 hq2 hr
  · exact value_decimalBig h hds hF hmax neg

end Citadel.Number
