import Citadel.Number.ReadHex

/-!
# Range errors of the number routines

`strtod` and its relatives set `errno` to `ERANGE` when the result overflows, and when it is zero or
subnormal and not exact.

* `erange_roundTo`: `round_to` reports exactly the numbers out of range.
* `erange_decimal`: so does `decimal`, except for one interval of `float` numbers that the middle
  path converts to an infinity.
* `erange_iff`: what the three functions report.
-/

namespace Citadel.Number

open Citadel.Lib.Rounding List Nat Format Bool

/-! ## Numbers out of range -/

/-- The rounding of `x` is infinite, or `x` is not exact and its rounding is zero or subnormal. -/
def OutOfRange (F : Format) (x : ℚ) : Prop :=
  F.maxFinite < F.rnd x ∨
    (x ≠ 0 ∧ ¬ F.Representable x ∧ F.rnd x < 2 ^ (F.emin + (F.prec - 1)))

variable {F : Ffmt} {x y : ℚ} {neg : Bool}

theorem representable_iff_rnd (hx : 0 ≤ x) : F.format.Representable x ↔ F.format.rnd x = x :=
  ⟨rnd_eq_self hx, fun h => h ▸ (nearest_rnd hx).representable⟩

theorem representable_maxFinite (F : Ffmt) : F.format.Representable F.format.maxFinite := by
  have h1 : 1 ≤ 2 ^ F.format.prec := Nat.one_le_two_pow
  refine ⟨2 ^ F.format.prec - 1, F.format.emax, emin_le_emax F, by omega, ?_⟩
  unfold maxFinite
  push_cast [h1]
  rfl

theorem outOfRange_iff (hx : 0 ≤ x) : OutOfRange F.format x ↔ F.format.maxFinite < F.format.rnd x ∨
    (F.format.rnd x ≠ x ∧ F.format.rnd x < 2 ^ (F.format.emin + (F.format.prec - 1))) := by
  unfold OutOfRange
  rw [representable_iff_rnd hx]
  refine or_congr_right ⟨fun h => h.2, fun h => ⟨?_, h⟩⟩
  rintro rfl
  exact h.1 rnd_zero

theorem outOfRange_of_inf (h : F.format.round neg x = .inf neg) : OutOfRange F.format x := by
  unfold Format.round at h
  by_contra hc
  rw [if_neg fun hlt => hc (.inl hlt)] at h
  cases h

theorem outOfRange_of_zero (hx : 0 < x) (h : F.format.round neg x = .finite neg 0) :
    OutOfRange F.format x := by
  have h0 : F.format.rnd x = 0 := by
    unfold Format.round at h
    split_ifs at h
    exact (Value.finite.inj h).2
  refine (outOfRange_iff hx.le).mpr (.inr ⟨?_, ?_⟩)
  · rw [h0]
    exact hx.ne
  · rw [h0]
    exact two_zpow_pos _

theorem not_outOfRange (hlo : x = 0 ∨ 2 ^ (F.format.emin + (F.format.prec - 1)) ≤ x)
    (hhi : x ≤ F.format.maxFinite) : ¬ OutOfRange F.format x := by
  have hp := F.format.two_le_prec
  have hx : 0 ≤ x := by
    rcases hlo with rfl | h
    · exact le_rfl
    · exact (two_zpow_pos _).le.trans h
  have hmin : F.format.Representable (2 ^ (F.format.emin + (F.format.prec - 1))) :=
    representable_two_zpow (by omega)
  rw [outOfRange_iff hx]
  rintro (h | ⟨hne, h⟩)
  · exact absurd (rnd_le hx (representable_maxFinite F) hhi) (not_le.mpr h)
  · rcases hlo with rfl | hlo
    · exact hne rnd_zero
    · exact absurd (le_rnd hx hmin hlo) (not_le.mpr h)

theorem SameRange.outOfRange_iff (h : SameRange x y) (F : Ffmt) :
    OutOfRange F.format x ↔ OutOfRange F.format y := by
  rcases h with rfl | ⟨hx, hy⟩ | ⟨⟨hx, hx'⟩, hy, hy'⟩
  · rfl
  · exact iff_of_true (outOfRange_of_inf (round_of_le_pow10 F false hx))
      (outOfRange_of_inf (round_of_le_pow10 F false hy))
  · exact iff_of_true (outOfRange_of_zero hx (round_of_lt_pow10 F false hx.le hx'))
      (outOfRange_of_zero hy (round_of_lt_pow10 F false hy.le hy'))

/-! ## The rounding of a quotient -/

variable {E e : ℤ} {n : ℕ} {w : List UInt8}

theorem Canonical.lt_normal_iff {keep : ℕ} (h : Canonical F.format keep E) :
    (keep : ℚ) * 2 ^ E < 2 ^ (F.format.emin + (F.format.prec - 1)) ↔
      keep >>> (F.format.prec - 1) = 0 := by
  have hp := F.format.two_le_prec
  have hcast : F.format.emin + ((F.format.prec : ℤ) - 1) =
      ((F.format.prec - 1 : ℕ) : ℤ) + F.format.emin := by omega
  rw [hcast, two_zpow_natCast_add, shiftRight_eq_div_pow,
    div_eq_zero_iff_lt (by positivity)]
  constructor
  · intro hlt
    by_contra hc
    have h1 : ((2 ^ (F.format.prec - 1) : ℕ) : ℚ) ≤ keep := by exact_mod_cast not_lt.mp hc
    exact absurd (mul_le_mul h1 (two_zpow_mono h.le) (two_zpow_pos _).le
      (cast_nonneg _)) (not_le.mpr hlt)
  · intro hlt
    rw [h.normal.resolve_right (not_le.mpr hlt)]
    exact mul_lt_mul_of_pos_right (by exact_mod_cast hlt) (two_zpow_pos _)

/-- **The end of `round_to`** reports an overflow, and an inexact number without its leading bit. -/
theorem Canonical.erange_roundEnd {keep : ℕ} (h : Canonical F.format keep E)
    (inexact : Bool) : (roundEnd keep E inexact F neg).2 = true ↔
      F.format.maxFinite < keep * 2 ^ E ∨
        (inexact = true ∧ (keep : ℚ) * 2 ^ E < 2 ^ (F.format.emin + (F.format.prec - 1))) := by
  rw [h.maxFinite_lt_iff, h.lt_normal_iff]
  unfold roundEnd
  split_ifs with hbig
  · exact iff_of_true rfl (.inl hbig)
  · rw [or_iff_right hbig, and_eq_true, decide_eq_true_eq]

/-- **`round_to` reports exactly the numbers out of range.** -/
theorem erange_roundTo {Q : ℕ} (hQ : Q ≠ 0) (h128 : Q < 2 ^ 128) (hlo : (Q : ℚ) * 2 ^ E ≤ x)
    (hhi : x < (Q + 1) * 2 ^ E) {sticky : Bool} (hst : sticky = true ↔ x ≠ Q * 2 ^ E)
    (hlong : sticky = true → F.format.prec < Q.size) :
    (roundTo Q E sticky F neg).2 = true ↔ OutOfRange F.format x := by
  have hx : 0 ≤ x := le_trans (mul_nonneg (cast_nonneg _) (two_zpow_pos _).le) hlo
  obtain ⟨keep, E', inexact, he, hc, hval, hin⟩ := roundTo_eq hQ h128 hlo hhi hst hlong neg
  rw [he, hc.erange_roundEnd, hval, hin, outOfRange_iff hx]

theorem HexScanned.erange {k : ℕ} {st : HexScan} (h : HexScanned n k st) (e : ℤ) :
    (hexResult st (st.e + e) F neg).2 = true ↔ OutOfRange F.format ((n : ℚ) * 2 ^ (e - 4 * k)) := by
  obtain ⟨hlo, hhi, hst⟩ := h.window e
  have hQlt : st.Q < 2 ^ 124 := h.lt.trans_le (Nat.pow_le_pow_right (by norm_num) h.bits_le)
  by_cases hQ : st.Q = 0
  · have hz : (hexResult st (st.e + e) F neg).2 = false := by
      unfold hexResult roundTo
      rw [if_pos hQ, if_pos hQ, decide_eq_false (not_not.mpr hQ)]
      split_ifs <;> rfl
    rw [hz, h.Q_eq_zero hQ, cast_zero, zero_mul]
    exact iff_of_false false_ne_true (not_outOfRange (.inl rfl) maxFinite_nonneg)
  have hpos : (0 : ℚ) < n * 2 ^ (e - 4 * k) := by
    refine lt_of_lt_of_le ?_ hlo
    exact mul_pos (by exact_mod_cast Nat.pos_of_ne_zero hQ) (two_zpow_pos _)
  unfold hexResult
  rw [if_neg hQ]
  split_ifs with h1 h2
  · exact iff_of_true rfl (outOfRange_of_inf ((h.clamped hQ e F neg).1 h1))
  · exact iff_of_true (decide_eq_true hQ)
      (outOfRange_of_zero hpos ((h.clamped hQ e F neg).2 h2))
  · exact erange_roundTo hQ (hQlt.trans (by norm_num)) hlo hhi hst (h.prec_lt_size hQ F)

/-! ## Decimal constants -/

variable {ds : List ℕ} {q : ℤ} {sticky : Bool}

theorem erange_decimalBig (h : Significand ds q sticky x) (hds : ds ≠ [])
    (hF : sticky = true → F ≠ .ldbl) (hmax : q + ds.length ≤ F.dmax) (neg : Bool) :
    (decimalBig ds q sticky F neg).2 = true ↔ OutOfRange F.format x := by
  obtain ⟨Q, e, st, y, heq, hQ, h128, hlo, hhi, hst, hsize, hrnd, hrep⟩ :=
    decimalBig_spec h hds hF hmax neg
  have hzero : y = 0 ↔ x = 0 := by
    have hQ0 : (0 : ℚ) < Q * 2 ^ e :=
      mul_pos (by exact_mod_cast Nat.pos_of_ne_zero hQ) (two_zpow_pos e)
    exact iff_of_false (hQ0.trans_le hlo).ne' ((ten_zpow_pos _).trans_le (h.bounds hds).1).ne'
  rw [heq, erange_roundTo hQ h128 hlo hhi hst fun _ => hsize]
  unfold OutOfRange
  rw [hrnd, hrep, ne_eq, hzero]

/-! ## The middle path -/

/-- The number rounded to 64 bits lies above the midpoint of the largest `float` and `2 ^ 128`. -/
def AboveLastMidpoint (x : ℚ) : Prop :=
  (2 : ℚ) ^ (128 : ℤ) - 2 ^ (103 : ℤ) < Ffmt.ldbl.format.rnd x ∧
    Ffmt.ldbl.format.rnd x < 2 ^ (128 : ℤ)

theorem lastMidpoint_eq :
    (2 : ℚ) ^ (128 : ℤ) - 2 ^ (103 : ℤ) = ((2 ^ 24 - 1 : ℕ) + 1 / 2) * 2 ^ (104 : ℤ) := by
  norm_num

theorem one_le_lastMidpoint : (1 : ℚ) ≤ 2 ^ (128 : ℤ) - 2 ^ (103 : ℤ) := by norm_num

theorem representable_lastMidpoint :
    Ffmt.ldbl.format.Representable ((2 : ℚ) ^ (128 : ℤ) - 2 ^ (103 : ℤ)) :=
  ⟨2 ^ 25 - 1, 103, by decide, by decide, by norm_num⟩

theorem AboveLastMidpoint.bounds (hx : 0 ≤ x) (h : AboveLastMidpoint x) :
    (2 : ℚ) ^ (128 : ℤ) - 2 ^ (103 : ℤ) < x ∧ x < 2 ^ (128 : ℤ) := by
  constructor
  · by_contra hc
    exact absurd (rnd_le hx representable_lastMidpoint (not_lt.mp hc)) (not_le.mpr h.1)
  · by_contra hc
    exact absurd (le_rnd hx (representable_two_zpow (by decide)) (not_lt.mp hc))
      (not_le.mpr h.2)

theorem maxFinite_flt : Ffmt.flt.format.maxFinite = ((2 ^ 24 - 1 : ℕ) : ℚ) * 2 ^ (104 : ℤ) := by
  have h : ((2 ^ 24 - 1 : ℕ) : ℚ) = 2 ^ 24 - 1 := by norm_num
  rw [h]
  rfl

theorem le_of_overflow_flt (hx : 0 ≤ x) (h : Ffmt.flt.format.maxFinite < Ffmt.flt.format.rnd x) :
    (2 : ℚ) ^ (128 : ℤ) - 2 ^ (103 : ℤ) ≤ x := by
  by_contra hc
  rcases le_total x Ffmt.flt.format.maxFinite with hle | hle
  · exact absurd (rnd_le hx (representable_maxFinite .flt) hle) (not_le.mpr h)
  · rw [lastMidpoint_eq] at hc
    rw [maxFinite_flt] at h hle
    have h1 := rnd_of_lt_half (F := Ffmt.flt.format) (e := 104) (k := 2 ^ 24 - 1) (by decide)
      (by decide) (.inr (by decide)) hle (not_le.mp hc)
    rw [h1] at h
    exact lt_irrefl _ h

theorem overflow_flt_of_lt (h : (2 : ℚ) ^ (128 : ℤ) - 2 ^ (103 : ℤ) < x) (h' : x < 2 ^ (128 : ℤ)) :
    Ffmt.flt.format.maxFinite < Ffmt.flt.format.rnd x := by
  have hpow : (2 : ℚ) ^ (128 : ℤ) = ((2 ^ 24 - 1 : ℕ) + 1) * 2 ^ (104 : ℤ) := by norm_num
  rw [lastMidpoint_eq] at h
  rw [hpow] at h'
  rw [rnd_of_half_lt (F := Ffmt.flt.format) (e := 104) (k := 2 ^ 24 - 1) (by decide)
    (by decide) (.inr (by decide)) h h', maxFinite_flt]
  exact mul_lt_mul_of_pos_right (lt_add_one _) (two_zpow_pos _)

theorem lastMidpoint_bits {M : ℕ} (hM : 2 ^ 63 ≤ M) (hM' : M < 2 ^ 64)
    (hlo : (2 : ℚ) ^ (128 : ℤ) - 2 ^ (103 : ℤ) ≤ M * 2 ^ E) :
    ((M : ℚ) * 2 ^ E < 2 ^ (128 : ℤ) ↔ E + 63 ≤ 127) ∧
    (E + 63 ≤ 127 → ((2 : ℚ) ^ (128 : ℤ) - 2 ^ (103 : ℤ) < M * 2 ^ E ↔ M % 2 ^ 40 ≠ 2 ^ 39)) := by
  have hE := two_zpow_pos E
  have hup : (2 : ℚ) ^ (127 : ℤ) ≤ 2 ^ (128 : ℤ) - 2 ^ (103 : ℤ) := by norm_num
  have hE63 := lt_of_two_zpow_lt ((hup.trans hlo).trans_lt (mul_lt_two_zpow hM' E))
  refine ⟨⟨fun h => ?_, fun h => ?_⟩, fun h => ?_⟩
  · have := lt_of_two_zpow_lt ((two_zpow_le_mul hM E).trans_lt h)
    omega
  · exact (mul_lt_two_zpow hM' E).trans_le (two_zpow_mono (by omega))
  · obtain rfl : E = 64 := by omega
    have hmid :
        (2 : ℚ) ^ (128 : ℤ) - 2 ^ (103 : ℤ) = ((2 ^ 64 - 2 ^ 39 : ℕ) : ℚ) * 2 ^ (64 : ℤ) := by
      norm_num
    rw [hmid] at hlo ⊢
    have h1 : 2 ^ 64 - 2 ^ 39 ≤ M := by exact_mod_cast le_of_mul_le_mul_right hlo hE
    rw [mul_lt_mul_iff_left₀ hE, cast_lt]
    omega

/-- **The middle path gives an infinity without a report** exactly above the last midpoint. -/
theorem decimalMiddle_flt (h : Significand ds q false x) (hds : ds ≠ []) (hlen : ds.length ≤ 19)
    (hlo : -27 ≤ q) (hhi : q ≤ 27) (neg : Bool) :
    AboveLastMidpoint x ↔
      (decimalMiddle ds q .flt neg).isSome = true ∧ OutOfRange Ffmt.flt.format x := by
  have hx := h.nonneg
  obtain ⟨M, E, hM, hM', hval, heq⟩ := decimalMiddle_eq h hds hlen hlo hhi .flt neg
  have hsome : (decimalMiddle ds q .flt neg).isSome = true ↔
      M % 2 ^ 40 ≠ 2 ^ 39 ∧ E + 63 ≤ 127 ∧ E + 63 ≥ -126 := by
    rw [heq, Option.isSome_ite]
    rfl
  rw [hsome]
  constructor
  · intro ha
    obtain ⟨hb, hb'⟩ := ha.bounds hx
    rw [AboveLastMidpoint, ← hval] at ha
    obtain ⟨h1, h2⟩ := lastMidpoint_bits hM hM' ha.1.le
    have hE := h1.mp ha.2
    refine ⟨⟨(h2 hE).mp ha.1, hE, ?_⟩, .inl (overflow_flt_of_lt hb hb')⟩
    -- a number of that size is not subnormal
    by_contra hc
    have h3 := (mul_lt_two_zpow hM' E).trans_le (two_zpow_mono (b := 0) (by omega))
    rw [zpow_zero] at h3
    linarith [ha.1, one_le_lastMidpoint]
  · rintro ⟨⟨hlow, hE, hX⟩, hout⟩
    have hover : Ffmt.flt.format.maxFinite < Ffmt.flt.format.rnd x := by
      rcases hout with hout | hout
      · exact hout
      · exfalso
        have hx1 : (2 : ℚ) ^ (-126 : ℤ) ≤ x := by
          have hlen0 : 0 < ds.length := length_pos_iff.mpr hds
          refine le_trans ?_ ((ten_zpow_mono (show -27 ≤ _ by omega)).trans (h.bounds hds).1)
          norm_num
        have h3 := le_rnd (F := Ffmt.flt.format) hx
          (representable_two_zpow (e := -126) (by decide)) hx1
        exact absurd hout.2.2 (not_lt.mpr h3)
    have hmid := le_of_overflow_flt hx hover
    have hmid' := le_rnd hx representable_lastMidpoint hmid
    rw [AboveLastMidpoint, ← hval]
    rw [← hval] at hmid'
    obtain ⟨h1, h2⟩ := lastMidpoint_bits hM hM' hmid'
    exact ⟨(h2 hE).mpr hlow, h1.mpr hE⟩

/-- The middle path takes the number and gives an infinity without a report. -/
def Unreported (F : Ffmt) (ds : List ℕ) (q : ℤ) (sticky : Bool) (x : ℚ) : Prop :=
  F = .flt ∧ ds.length ≤ 19 ∧ sticky = false ∧ q ≤ 27 ∧ AboveLastMidpoint x

theorem Significand.not_outOfRange_dbl (h : Significand ds q sticky x) (hds : ds ≠ [])
    (hlen : ds.length ≤ 19) (hlo : -27 ≤ q) (hhi : q ≤ 27) : ¬ OutOfRange Ffmt.dbl.format x := by
  obtain ⟨hxlo, hxhi⟩ := h.bounds hds
  have hlen0 := length_pos_iff.mpr hds
  have h1 : (2 : ℚ) ^ (-90 : ℤ) ≤ 10 ^ (-27 : ℤ) := by norm_num
  have h2 : (10 : ℚ) ^ (46 : ℤ) ≤ 2 ^ (160 : ℤ) := by norm_num
  refine not_outOfRange (.inr ?_) ?_
  · exact ((two_zpow_mono (by decide)).trans h1).trans ((ten_zpow_mono (by omega)).trans hxlo)
  · exact (hxhi.le.trans (ten_zpow_mono (by omega))).trans
      (h2.trans (two_zpow_le_maxFinite (by decide)))

/-- **What `decimal` reports**: the numbers out of range, unless the middle path misses one. -/
theorem erange_decimal (h : Significand ds q sticky x) (hF : sticky = true → F ≠ .ldbl) :
    ((decimal ds q sticky F neg).2 = true ↔ OutOfRange F.format x) ↔
      ¬ Unreported F ds q sticky x := by
  have hx := h.nonneg
  obtain ⟨hx0, he⟩ | ⟨hle, he⟩ | ⟨⟨hx0, hlt⟩, he⟩ | ⟨hds, hmax, ⟨rfl, hlen, rfl, hq1, hq2, he⟩ |
    ⟨hF', hlen, rfl, hq1, hq2, r, hr, he⟩ | ⟨hnone, he⟩⟩ := decimal_cases h F neg <;> rw [he]
  · refine iff_of_true (iff_of_false false_ne_true ?_) fun hu => ?_
    · exact not_outOfRange (.inl hx0) (hx0.le.trans maxFinite_nonneg)
    · have h1 := (hu.2.2.2.2.bounds hx).1
      rw [hx0] at h1
      linarith
  · refine iff_of_true (iff_of_true rfl ?_) fun hu => ?_
    · exact outOfRange_of_inf (round_overflow neg ((dmax_spec F).trans hle))
    · obtain ⟨rfl, -, -, -, hu⟩ := hu
      have h1 : (2 : ℚ) ^ (128 : ℤ) ≤ 10 ^ Ffmt.flt.dmax := dmax_spec .flt
      exact absurd (h1.trans hle) (not_le.mpr (hu.bounds hx).2)
  · refine iff_of_true (iff_of_true rfl ?_) fun hu => ?_
    · exact outOfRange_of_zero hx0 (round_underflow neg hx (hlt.trans_le (dmin_spec F)))
    · have h1 : (10 : ℚ) ^ (F.dmin - 1) ≤ 10 ^ (0 : ℤ) := ten_zpow_mono (by cases F <;> decide)
      rw [zpow_zero] at h1
      linarith [(hu.2.2.2.2.bounds hx).1]
  · refine iff_of_true (iff_of_false false_ne_true ?_) fun hu => Ffmt.noConfusion hu.1
    exact h.not_outOfRange_dbl hds (by omega) (by omega) (by omega)
  · cases F with
    | ldbl => exact absurd rfl hF'
    | dbl =>
      refine iff_of_true (iff_of_false false_ne_true ?_) fun hu => Ffmt.noConfusion hu.1
      exact h.not_outOfRange_dbl hds hlen hq1 hq2
    | flt =>
      have hu : Unreported .flt ds q false x ↔ AboveLastMidpoint x :=
        ⟨fun hu => hu.2.2.2.2, fun ha => ⟨rfl, hlen, rfl, hq2, ha⟩⟩
      rw [hu, decimalMiddle_flt h hds hlen hq1 hq2 neg, hr]
      simp
  · refine iff_of_true (erange_decimalBig h hds hF hmax neg) ?_
    rintro ⟨rfl, hlen, rfl, hq, ha⟩
    -- a number of nineteen digits and a smaller exponent is less than one
    have hq1 : -27 ≤ q := by
      by_contra hc
      have h1 := (h.bounds hds).2.trans_le (ten_zpow_mono (b := 0) (by omega))
      rw [zpow_zero] at h1
      linarith [(ha.bounds hx).1]
    have hsome := ((decimalMiddle_flt h hds hlen hq1 hq neg).mp ha).1
    rw [hnone (by decide) hlen rfl hq1 hq] at hsome
    exact false_ne_true hsome

/-! ## The strings -/

/-- The constant `w` denotes `x`. -/
def Denotes (w : List UInt8) (x : ℚ) : Prop :=
  (∃ n e, IsDecimal w n e ∧ x = n * 10 ^ e) ∨ ∃ n e, IsHexadecimal w n e ∧ x = n * 2 ^ e

/-- **The overflows that `strtof` does not report.** The constant is decimal; without trailing
zeros its significand has at most 19 digits and its exponent is at most 27; and the number rounded
to 64 bits lies above the midpoint of the largest `float` and `2 ^ 128`. -/
def UnreportedConstant (w : List UInt8) (x : ℚ) : Prop :=
  (∃ n e, IsDecimal w n e) ∧
    (∃ (T : ℕ) (q : ℤ), x = T * 10 ^ q ∧ ¬ 10 ∣ T ∧ T < 10 ^ 19 ∧ q ≤ 27) ∧ AboveLastMidpoint x

theorem mul_pow10_eq {T S : ℕ} {a b : ℤ} (hab : a ≤ b) (h : (T : ℚ) * 10 ^ a = S * 10 ^ b) :
    T = S * 10 ^ (b - a).toNat := by
  obtain ⟨k, rfl⟩ : ∃ k : ℕ, b = k + a := ⟨(b - a).toNat, by omega⟩
  rw [ten_zpow_natCast_add, ← mul_assoc] at h
  rw [add_sub_cancel_right, Int.toNat_natCast]
  exact_mod_cast mul_right_cancel₀ (ten_zpow_pos a).ne' h

theorem ten_dvd_of_lt {T S : ℕ} {a b : ℤ} (hab : a < b) (h : (T : ℚ) * 10 ^ a = S * 10 ^ b) :
    10 ∣ T := by
  rw [mul_pow10_eq hab.le h]
  exact (dvd_pow_self 10 (by omega)).mul_left S

/-- A number out of the way of every format is not near the last midpoint. -/
theorem SameRange.eq_of_above (h : SameRange x y) (hx : 0 ≤ x) (ha : AboveLastMidpoint x) :
    x = y := by
  obtain ⟨h1, h2⟩ := ha.bounds hx
  rcases h with h | ⟨hx', -⟩ | ⟨⟨-, hx'⟩, -⟩
  · exact h
  · have h3 : (2 : ℚ) ^ (128 : ℤ) ≤ 10 ^ (4934 : ℤ) :=
      (dmax_spec .flt).trans (ten_zpow_mono (by decide))
    exact absurd (h3.trans hx') (not_le.mpr h2)
  · have h3 : (10 : ℚ) ^ (-4954 : ℤ) ≤ 2 ^ (128 : ℤ) - 2 ^ (103 : ℤ) := by
      refine le_trans ?_ one_le_lastMidpoint
      rw [← zpow_zero (10 : ℚ)]
      exact ten_zpow_mono (by decide)
    exact absurd (hx'.le.trans h3) (not_le.mpr h1)

theorem SameRange.symm (h : SameRange x y) : SameRange y x :=
  h.imp .symm (.imp .symm .symm)

theorem Handed.not_ten_dvd {e' : ℤ} (h : Handed n e e' ds q sticky) (hds : ds ≠ []) :
    ¬ 10 ∣ digitsValue ds := by
  obtain ⟨u, d, rfl⟩ : ∃ u d, ds = u ++ [d] :=
    ⟨_, _, (dropLast_append_getLast hds).symm⟩
  have hd := h.significand.digit d (mem_append_right _ mem_cons_self)
  have hval : digitsValue (u ++ [d]) = digitsValue u * 10 + d := by
    rw [digitsValue_append]
    simp [digitsValue]
  rw [hval]
  intro hdvd
  have hd0 : d = 0 := by omega
  exact h.last u (by rw [hd0])

/-- What the scanner hands over goes unreported exactly if the constant does. -/
theorem Handed.unreported_iff {e' : ℤ} (hd : IsDecimal w n e) (h : Handed n e e' ds q sticky) :
    Unreported .flt ds q sticky (n * 10 ^ e') ↔ UnreportedConstant w (n * 10 ^ e) := by
  have hx := h.significand.nonneg
  constructor
  · rintro ⟨-, hlen, hst, hq, ha⟩
    have hxe := h.range.eq_of_above hx ha
    have hval := h.significand.exact hst
    rw [← hxe]
    refine ⟨⟨n, e, hd⟩, ⟨digitsValue ds, q, hval, h.not_ten_dvd ?_, ?_, hq⟩, ha⟩
    · rintro rfl
      have h1 := (ha.bounds hx).1
      rw [hval] at h1
      simp only [digitsValue, foldl_nil, cast_zero, zero_mul] at h1
      linarith
    · exact (digitsValue_lt h.significand.digit).trans_le (Nat.pow_le_pow_right (by norm_num) hlen)
  · rintro ⟨-, ⟨T, q', hT, hdvd, hlt, hq'⟩, ha⟩
    have hxe := h.range.symm.eq_of_above (mul_nonneg (cast_nonneg _) (ten_zpow_pos e).le) ha
    rw [hxe] at ha hT
    -- the significand is short, so that no digit was left out
    have hle : e' ≤ q' := by
      by_contra hc
      exact hdvd (ten_dvd_of_lt (not_le.mp hc) hT.symm)
    have hst : sticky = false := by
      refine h.exact ⟨T, (q' - e').toNat, mul_pow10_eq hle hT, hlt.trans_le ?_⟩
      exact Nat.pow_le_pow_right (by norm_num) (by decide)
    have hds : ds ≠ [] := by
      rintro rfl
      have h0 : (n : ℚ) * 10 ^ e' = 0 := by
        rw [h.significand.exact hst]
        simp [digitsValue]
      have h1 := (ha.bounds hx).1
      rw [h0] at h1
      linarith
    have heq : (digitsValue ds : ℚ) * 10 ^ q = T * 10 ^ q' := by rw [← h.significand.exact hst, hT]
    obtain rfl : q = q' := by
      rcases lt_trichotomy q q' with hlt | heq' | hgt
      · exact absurd (ten_dvd_of_lt hlt heq) (h.not_ten_dvd hds)
      · exact heq'
      · exact absurd (ten_dvd_of_lt hgt heq.symm) hdvd
    have hTd := mul_pow10_eq le_rfl heq
    rw [sub_self, Int.toNat_zero, pow_zero, Nat.mul_one] at hTd
    refine ⟨rfl, ?_, hst, hq', ha⟩
    have hlead := (h.significand.lead hds).trans_lt (hTd ▸ hlt)
    have := (Nat.pow_lt_pow_iff_right (show 1 < 10 by norm_num)).mp hlead
    omega

theorem not_isDecimal_of_isHexadecimal {m : ℕ} {f : ℤ}
    (h : IsHexadecimal w n e) : ¬ IsDecimal w m f := by
  obtain ⟨c, wm, we, ip, fp, E, hc, -, -, rfl, -, -⟩ := h
  intro hd
  have hb := hd.decimalByte c (mem_cons_of_mem _ mem_cons_self)
  exact absurd hb (by simp [(byte_facts c).2.2 hc])

/-- What a parse reports: the constants out of range, unless the middle path misses one. -/
theorem erange_parse {t s : List UInt8} (hl : Leads neg s t w) (hd : Denotes w x) (F : Ffmt)
    (hF : F = .ldbl → ∀ n e, IsDecimal w n e → SignificantDigits n maxDigits) :
    ((parse s F).erange = true ↔ OutOfRange F.format x) ↔
      ¬ (F = .flt ∧ UnreportedConstant w x) := by
  rcases hd with ⟨n, e, hd, rfl⟩ | ⟨n, e, hd, rfl⟩
  · obtain ⟨e', ds, q, sticky, rest, hh, -, hparse⟩ := parse_decimal_eq hl hd F
    have hst : sticky = true → F ≠ .ldbl := by
      intro hst hl
      rw [hh.exact (hF hl n e hd)] at hst
      exact Bool.noConfusion hst
    rw [hparse, ← hh.range.outOfRange_iff F, ← hh.unreported_iff hd]
    refine (erange_decimal hh.significand hst).trans (not_congr ?_)
    exact ⟨fun hu => ⟨hu.1, rfl, hu.2⟩, fun hu => ⟨hu.1, hu.2.2⟩⟩
  · obtain ⟨st, k, e', rest, hscan, hrange, -, hparse⟩ := parse_hexadecimal_eq hl hd F
    rw [hparse, ← hrange.outOfRange_iff F]
    refine iff_of_true (hscan.erange e') ?_
    rintro ⟨-, ⟨n', e'', hdec⟩, -⟩
    exact not_isDecimal_of_isHexadecimal hd hdec

/-- **Range errors are exact, except in one interval.** Behind white space `ws` and an optional
sign `sg`, let the longest numeral be a decimal or hexadecimal constant `w` that denotes `x`.
`strtod` reports exactly the numbers out of its range; so does `strtold`, for decimal constants of
at most 800 significant digits; and `strtof` does unless the constant overflows in the middle path.
-/
theorem erange_iff {ws sg t w s : List UInt8} (hs : s = ws ++ (sg ++ t)) (hlen : s.length < 10 ^ 7)
    (hws : ∀ c ∈ ws, isspace c = true) (hsg : SignPart sg neg) (hw : LongestNumeral t w)
    (hd : Denotes w x) :
    ((strtod s).erange = true ↔ OutOfRange Ffmt.dbl.format x) ∧
    ((∀ n e, IsDecimal w n e → SignificantDigits n 800) →
      ((strtold s).erange = true ↔ OutOfRange Ffmt.ldbl.format x)) ∧
    (((strtof s).erange = true ↔ OutOfRange Ffmt.flt.format x) ↔ ¬ UnreportedConstant w x) := by
  have hl : Leads neg s t w := ⟨ws, sg, hs, hlen, hws, hsg, hw⟩
  refine ⟨?_, fun h800 => ?_, ?_⟩
  · refine (erange_parse hl hd .dbl fun h => Ffmt.noConfusion h).mpr ?_
    exact fun h => Ffmt.noConfusion h.1
  · refine (erange_parse hl hd .ldbl fun _ => h800).mpr ?_
    exact fun h => Ffmt.noConfusion h.1
  · refine (erange_parse hl hd .flt fun h => Ffmt.noConfusion h).trans ?_
    exact not_congr (and_iff_right rfl)

/-- The least `double` above zero, halved, and its report. -/
theorem erange_iff_underflow :
    ((strtod (bytes "0x.8p-1074")).erange = true ↔
        OutOfRange Ffmt.dbl.format ((8 : ℕ) * 2 ^ (-1078 : ℤ))) ∧
    ((∀ n e, IsDecimal (bytes "0x.8p-1074") n e → SignificantDigits n 800) →
      ((strtold (bytes "0x.8p-1074")).erange = true ↔
        OutOfRange Ffmt.ldbl.format ((8 : ℕ) * 2 ^ (-1078 : ℤ)))) ∧
    (((strtof (bytes "0x.8p-1074")).erange = true ↔
        OutOfRange Ffmt.flt.format ((8 : ℕ) * 2 ^ (-1078 : ℤ))) ↔
      ¬ UnreportedConstant (bytes "0x.8p-1074") ((8 : ℕ) * 2 ^ (-1078 : ℤ))) :=
  have hd : IsHexadecimal (bytes "0x.8p-1074") 8 (-1078) :=
    ⟨'x'.toUInt8, bytes ".8", bytes "p-1074", [], bytes "8", -1074, by decide,
      ⟨by simp, all_eq_true.mp (by decide), .inr (by decide), .inr (by decide)⟩,
      .inr ⟨'p'.toUInt8, bytes "-", true, bytes "1074", by decide,
        .inr (.inr ⟨by decide, rfl⟩), by decide, all_eq_true.mp (by decide), by decide,
        by decide⟩, by decide, by decide, by decide⟩
  @erange_iff _ false [] [] (bytes "0x.8p-1074") (bytes "0x.8p-1074") _ (by decide) (by decide)
    (by simp) (.inl ⟨rfl, rfl⟩)
    ⟨prefix_refl _, .inr (.inl ⟨8, -1078, hd⟩), fun _ h _ => h.length_le⟩
    (.inr ⟨8, -1078, hd, rfl⟩)

/-- **An overflow of `strtof` without a report.** -/
theorem strtof_overflow_unreported :
    LongestNumeral (bytes "3.402823600000000001e38") (bytes "3.402823600000000001e38") ∧
    Denotes (bytes "3.402823600000000001e38") ((3402823600000000001 : ℕ) * 10 ^ (20 : ℤ)) ∧
    (strtof (bytes "3.402823600000000001e38")).value = .inf false ∧
    ¬ ((strtof (bytes "3.402823600000000001e38")).erange = true ↔
      OutOfRange Ffmt.flt.format ((3402823600000000001 : ℕ) * 10 ^ (20 : ℤ))) := by
  have hd : IsDecimal (bytes "3.402823600000000001e38") 3402823600000000001 20 :=
    ⟨bytes "3.402823600000000001", bytes "e38", bytes "3", bytes "402823600000000001", 38,
      ⟨all_eq_true.mp (by decide), all_eq_true.mp (by decide), .inl (by decide),
        .inr (by decide)⟩,
      .inr ⟨'e'.toUInt8, [], false, bytes "38", by decide, .inl ⟨rfl, rfl⟩, by decide,
        all_eq_true.mp (by decide), by decide, by decide⟩, by decide, by decide, by decide⟩
  have hset : (strtof (bytes "3.402823600000000001e38")).erange = false := by decide +kernel
  refine ⟨⟨prefix_refl _, .inl ⟨_, _, hd⟩, fun _ h _ => h.length_le⟩,
    .inl ⟨_, _, hd, rfl⟩, by decide +kernel, fun h => ?_⟩
  rw [hset] at h
  exact false_ne_true (h.mpr (.inl (by decide +kernel)))

end Citadel.Number
