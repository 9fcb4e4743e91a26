import Citadel.Lib.Positional
import Citadel.Number.Strtod

/-!
# Big integers

Every function on big integers, given the limbs `Nat.digits base n` of a number, computes the limbs
of the number it is meant to compute.

* `bigMuladd_digits`, `bigMulpow10_digits`, `bigShl_digits`, `bigSub_digits`, `bigMul128_digits`,
  `bigDigits_eq`: arithmetic.
* `bigBits_digits`, `bigCmp_digits`, `bigTop_digits`: what is read off from the limbs.
* `bigQuotient_digits`: the estimate of the quotient only undershoots, and the correction ends with
  the quotient and the remainder.
-/

namespace Citadel.Number

open Citadel.Lib.Rounding Citadel.Lib.Limbs List Nat

theorem one_lt_base : 1 < base := by decide

theorem digits_lt (n : ℕ) : ∀ d ∈ base.digits n, d < base := fun _ h =>
  digits_lt_base one_lt_base h

variable {n d : ℕ} {ds : List ℕ}

theorem digits_eq_nil : base.digits n = [] ↔ n = 0 := digits_eq_nil_iff_eq_zero

/-! ## Arithmetic -/

theorem bigSmall_eq {v : ℕ} (h : v < base) : bigSmall v = base.digits v := by
  unfold bigSmall
  split_ifs with h0
  · rw [h0, digits_zero]
  · rw [digits_of_lt base v h0 h]

theorem append_carry {c : ℕ} (hc : c < base) (ds : List ℕ) :
    (if c ≠ 0 then ds ++ [c] else ds) = ds ++ base.digits c := by
  split_ifs with h0
  · rw [digits_of_lt base _ h0 hc]
  · rw [not_not.mp h0, digits_zero, append_nil]

theorem bigMuladd_digits (n : ℕ) {m a : ℕ} (hm : 0 < m) (hmb : m < base) (ha : a ≤ m) :
    bigMuladd (base.digits n) m a = base.digits (n * m + a) := by
  have hc := (mulAdd_carry_le (digits_lt n) ha).trans_lt hmb
  unfold bigMuladd
  rw [← mulAdd_digits one_lt_base hm n a]
  simp only
  rw [mod_eq_of_lt hc, append_carry hc]

theorem bigMulpow10_digits (k : ℕ) :
    ∀ n, bigMulpow10 (base.digits n) k = base.digits (n * 10 ^ k) := by
  induction k using Nat.strong_induction_on with
  | _ k ih =>
    intro n
    rw [bigMulpow10]
    split_ifs with h9 h0
    · rw [bigMuladd_digits n (by norm_num) (by decide) (by omega), ih (k - 9) (by omega), add_zero,
        mul_assoc]
      congr 2
      rw [show (1000000000 : ℕ) = 10 ^ 9 by norm_num, ← pow_add]
      congr 1
      omega
    · have hlt : 10 ^ k < base :=
        lt_of_le_of_lt (Nat.pow_le_pow_right (by norm_num) (show k ≤ 8 by omega)) (by decide)
      rw [bigMuladd_digits n (by positivity) hlt (zero_le _), add_zero]
    · rw [not_not.mp h0, pow_zero, mul_one]

theorem shiftLimbs_eq {s : ℕ} (hs : s ≤ 32) : ∀ {ds : List ℕ} {c : ℕ}, (∀ d ∈ ds, d < base) →
    c < 2 ^ s → shiftLimbs s ds c = mulAdd base (2 ^ s) ds c := by
  intro ds
  induction ds with
  | nil => intro c _ _; rfl
  | cons t ds ih =>
    intro c hd hc
    have ht : t < base := hd t mem_cons_self
    have hb : base = 2 ^ s * 2 ^ (32 - s) := by
      rw [← pow_add, show s + (32 - s) = 32 by omega]
      rfl
    have h1 : t * 2 ^ s + c = c + 2 ^ s * t := by ring
    have hcarry : (t * 2 ^ s + c) / base = t >>> (32 - s) := by
      rw [hb, ← Nat.div_div_eq_div_mul, h1, add_mul_div_left _ _ (by positivity),
        div_eq_of_lt hc, zero_add, shiftRight_eq_div_pow]
    have hlimb : (t * 2 ^ s + c) % base = t <<< s % base ||| c := by
      have h2 : t <<< s % base = 2 ^ s * (t % 2 ^ (32 - s)) := by
        rw [shiftLeft_eq, mul_comm, hb, mul_mod_mul_left]
      rw [h2, ← two_pow_add_eq_or_of_lt hc, h1]
      rw [hb, mod_mul, add_mul_mod_self_left, mod_eq_of_lt hc,
        add_mul_div_left _ _ (by positivity), div_eq_of_lt hc, zero_add, add_comm]
    have hlt : t >>> (32 - s) < 2 ^ s := by
      rw [shiftRight_eq_div_pow, div_lt_iff_lt_mul (by positivity), ← hb]
      exact ht
    simp only [shiftLimbs, mulAdd]
    rw [ih (fun d h => hd d (mem_cons_of_mem _ h)) hlt, hcarry, hlimb]

theorem replicate_append_digits (w : ℕ) (hn : n ≠ 0) :
    List.replicate w 0 ++ base.digits n = base.digits (n * base ^ w) := by
  induction w with
  | zero => simp
  | succ w ih =>
    have hpos : 0 < n * base ^ w := Nat.mul_pos (Nat.pos_of_ne_zero hn) (Nat.pow_pos (by decide))
    have h := digits_add base one_lt_base 0 (n * base ^ w) (by decide) (.inr hpos.ne')
    rw [replicate_succ, cons_append, ih, ← h]
    congr 1
    rw [pow_succ]
    ring

theorem shiftLimbs_digits (n : ℕ) {s : ℕ} (hs : s < 32) :
    (if (shiftLimbs s (base.digits n) 0).2 ≠ 0 then
      (shiftLimbs s (base.digits n) 0).1 ++ [(shiftLimbs s (base.digits n) 0).2]
    else (shiftLimbs s (base.digits n) 0).1) = base.digits (n * 2 ^ s) := by
  have hlt : 2 ^ s < base := Nat.pow_lt_pow_right one_lt_two hs
  have hdig := mulAdd_digits one_lt_base (m := 2 ^ s) (by positivity) n 0
  rw [shiftLimbs_eq hs.le (digits_lt n) (by positivity), ← add_zero (n * 2 ^ s), ← hdig]
  exact append_carry ((mulAdd_carry_le (digits_lt n) (zero_le _)).trans_lt hlt) _

theorem bigShl_digits (n k : ℕ) : bigShl (base.digits n) k = base.digits (n * 2 ^ k) := by
  unfold bigShl
  simp only [digits_eq_nil]
  by_cases h : n = 0 ∨ k = 0
  · rw [if_pos h]
    rcases h with h | h
    · rw [h, zero_mul]
    · rw [h, pow_zero, mul_one]
  · rw [if_neg h]
    push Not at h
    have hk : 2 ^ k = 2 ^ (k % 32) * base ^ (k / 32) := by
      unfold base
      rw [← pow_mul, ← pow_add, mod_add_div]
    rw [shiftLimbs_digits n (mod_lt _ (by norm_num))]
    by_cases hs : k % 32 ≠ 0
    · rw [if_pos hs, replicate_append_digits _ (mul_ne_zero h.1 (by positivity)), hk, mul_assoc]
    · rw [if_neg hs, replicate_append_digits _ h.1, hk, not_not.mp hs, pow_zero, one_mul]

theorem bigSub_digits {m : ℕ} (h : m ≤ n) :
    bigSub (base.digits n) (base.digits m) = base.digits (n - m) :=
  strip_subBorrow one_lt_base h

theorem bigMul128_digits (a m : ℕ) : bigMul128 (base.digits a) m = base.digits (a * m) := by
  have h := mulRows_val one_lt_base (base.digits a) (digits_lt a) (base.digits m)
    (List.replicate (base.digits a).length 0) (digits_lt m) (by simp)
    (fun d hd => by rw [eq_of_mem_replicate hd]; decide)
  unfold bigMul128
  simp only
  rw [← replicate_append_replicate, strip_eq_digits one_lt_base h.1, h.2,
    ofDigits_digits, ofDigits_digits]
  simp [ofDigits_replicate_zero]

/-! ## What is read off from the limbs -/

theorem bigCmp_digits (a b : ℕ) : 0 ≤ bigCmp (base.digits a) (base.digits b) ↔ b ≤ a := by
  unfold bigCmp
  split_ifs with hne hlt
  · have h : a < b := by
      by_contra hc
      have := le_length_digits_le base b a (not_lt.mp hc)
      omega
    simp only [Int.reduceNeg, Left.nonneg_neg_iff]
    omega
  · have h : b < a := by
      by_contra hc
      have := le_length_digits_le base a b (not_lt.mp hc)
      omega
    simp only [zero_le_one, true_iff]
    omega
  · rw [cmpLimbs_spec one_lt_base _ _ (by simpa using hne)
      (fun d hd => digits_lt a d (mem_reverse.mp hd))
      (fun d hd => digits_lt b d (mem_reverse.mp hd)),
      reverse_reverse, reverse_reverse, ofDigits_digits, ofDigits_digits]

theorem bigBits_digits (n : ℕ) : bigBits (base.digits n) = n.size := by
  unfold bigBits
  split_ifs with h
  · have hn : n ≠ 0 := fun h0 => h (digits_eq_nil.mpr h0)
    have hlen : 0 < (base.digits n).length := length_pos_iff.mpr h
    generalize hL : (base.digits n).length - 1 = L at *
    have hlast : (base.digits n).getLastD 0 = n / base ^ L % base := by
      rw [← getD_digits n L one_lt_base, getLastD_eq_getLast?, List.getLast?_eq_getElem?,
        hL, getD_eq_getElem?_getD]
    have hup : n < base ^ L * base := by
      have := lt_base_pow_length_digits (b := base) (m := n) one_lt_base
      rwa [show (base.digits n).length = L + 1 by omega, pow_succ] at this
    have hlow : base ^ L ≤ n := by
      have := base_pow_length_digits_le base n one_lt_base hn
      rw [show (base.digits n).length = L + 1 by omega, pow_succ, mul_comm] at this
      exact le_of_mul_le_mul_left this (by decide)
    have hbL : base ^ L = 2 ^ (32 * L) := by unfold base; rw [← pow_mul]
    have htlt : n / base ^ L < base := Nat.div_lt_of_lt_mul hup
    rw [hlast, mod_eq_of_lt htlt]
    have hs32 : (n / base ^ L).size ≤ 32 := size_le.mpr htlt
    have hspos : 0 < (n / base ^ L).size := size_pos.mpr (div_pos hlow (by rw [hbL]; positivity))
    have hsize := size_div_two_pow n (32 * L)
    rw [← hbL] at hsize
    unfold clz
    omega
  · rw [digits_eq_nil.mp (not_not.mp h), size_zero]
    rfl

theorem take_bits (n : ℕ) {lo j t : ℕ} (h1 : lo ≤ j) (h2 : j ≤ t) (h3 : t ≤ lo + 32) :
    (n / 2 ^ t) <<< (t - j) ||| ((n / 2 ^ lo % base) >>> (j - lo) &&& (2 ^ (t - j) - 1)) =
      n / 2 ^ j := by
  obtain ⟨w, rfl⟩ := Nat.exists_eq_add_of_le h2
  have hj : 2 ^ j = 2 ^ lo * 2 ^ (j - lo) := by rw [← pow_add, show lo + (j - lo) = j by omega]
  have hb : base = 2 ^ (j - lo) * 2 ^ (32 - (j - lo)) := by
    rw [← pow_add, show j - lo + (32 - (j - lo)) = 32 by omega]
    rfl
  have hbits : (n / 2 ^ lo % base) >>> (j - lo) % 2 ^ w = n / 2 ^ j % 2 ^ w := by
    rw [shiftRight_eq_div_pow, hj, ← Nat.div_div_eq_div_mul, hb, mod_mul_right_div_self]
    exact mod_mod_of_dvd _ (pow_dvd_pow 2 (by omega))
  have hlt : n / 2 ^ j % 2 ^ w < 2 ^ w := mod_lt _ (by positivity)
  rw [Nat.add_sub_cancel_left, and_two_pow_sub_one_eq_mod, hbits, shiftLeft_eq, mul_comm,
    ← two_pow_add_eq_or_of_lt hlt, pow_add, ← Nat.div_div_eq_div_mul, div_add_mod]

theorem getD_limb (n : ℕ) {i : ℤ} {lo : ℕ} (h : i * 32 = lo) :
    (base.digits n).getD i.toNat 0 = n / 2 ^ lo % base := by
  rw [getD_digits n _ one_lt_base]
  congr 2
  unfold base
  rw [← pow_mul]
  congr 1
  omega

theorem bigTopLoop_spec (n : ℕ) (nb want : ℤ) : ∀ (fuel t : ℕ), t ≤ fuel → nb - want ≤ t →
    bigTopLoop (base.digits n) nb want fuel (t - 1) (n / 2 ^ t) = n / 2 ^ (nb - want).toNat := by
  intro fuel
  induction fuel with
  | zero =>
    intro t ht hw
    obtain rfl : t = 0 := by omega
    rw [show (nb - want).toNat = 0 by omega]
    rfl
  | succ fuel ih =>
    intro t ht hw
    simp only [bigTopLoop]
    by_cases hc : (t : ℤ) - 1 ≥ 0 ∧ (t : ℤ) - 1 ≥ nb - want
    · rw [if_pos hc]
      obtain ⟨lo, hlo⟩ : ∃ lo : ℕ, ((t : ℤ) - 1) / 32 * 32 = lo := ⟨((t - 1) / 32) * 32, by omega⟩
      rw [getD_limb n hlo, hlo]
      split_ifs with htake
      · -- the rest of the limb holds more bits than are wanted
        obtain ⟨j, hj⟩ : ∃ j : ℕ, nb - want = j := ⟨(nb - want).toNat, by omega⟩
        have hneed : (want - (nb - 1 - ((t : ℤ) - 1))).toNat = t - j := by omega
        have hsh : ((t : ℤ) - 1 - lo + 1 - (want - (nb - 1 - ((t : ℤ) - 1)))).toNat = j - lo := by
          omega
        rw [hneed, hsh, take_bits n (by omega) (by omega) (by omega),
          show (t : ℤ) - 1 - (want - (nb - 1 - ((t : ℤ) - 1))) = (j : ℤ) - 1 by omega]
        exact ih j (by omega) (by omega)
      · have hneed : ((t : ℤ) - 1 - lo + 1).toNat = t - lo := by omega
        have htop := take_bits n (le_refl lo) (show lo ≤ t by omega) (by omega)
        rw [Nat.sub_self, shiftRight_zero] at htop
        rw [hneed, htop, show (t : ℤ) - 1 - ((t : ℤ) - 1 - lo + 1) = (lo : ℤ) - 1 by omega]
        exact ih lo (by omega) (by omega)
    · rw [if_neg hc]
      congr 2
      omega

/-- **The top bits**: the number divided by a power of two and rounded down. -/
theorem bigTop_digits (n : ℕ) (want : ℤ) (hw : 0 ≤ want) :
    (bigTop (base.digits n) want).2 = n.size - want ∧
    ((bigTop (base.digits n) want).1 : ℚ) ≤ n / 2 ^ ((n.size : ℤ) - want) ∧
    n / (2 : ℚ) ^ ((n.size : ℤ) - want) < (bigTop (base.digits n) want).1 + 1 := by
  have hloop := bigTopLoop_spec n n.size want n.size n.size le_rfl (by omega)
  rw [div_eq_of_lt (lt_size_self n)] at hloop
  unfold bigTop
  simp only [bigBits_digits, Int.toNat_natCast]
  rw [hloop]
  refine ⟨trivial, ?_⟩
  split_ifs with h
  · -- fewer bits than wanted: the number is shifted up, which is exact
    obtain ⟨j, hj⟩ : ∃ j : ℕ, (n.size : ℤ) - want = -(j : ℤ) := ⟨(want - n.size).toNat, by omega⟩
    rw [hj, show (-(j : ℤ)).toNat = 0 by omega, show (want - n.size).toNat = j by omega, pow_zero,
      Nat.div_one, shiftLeft_eq, zpow_neg, zpow_natCast, div_inv_eq_mul]
    push_cast
    constructor <;> linarith
  · obtain ⟨j, hj⟩ : ∃ j : ℕ, (n.size : ℤ) - want = j := ⟨((n.size : ℤ) - want).toNat, by omega⟩
    rw [hj, Int.toNat_natCast, zpow_natCast]
    have hpos : (0 : ℚ) < 2 ^ j := by positivity
    constructor
    · rw [le_div_iff₀ hpos]
      exact_mod_cast div_mul_le_self n (2 ^ j)
    · rw [div_lt_iff₀ hpos]
      have := lt_mul_div_succ n (show 0 < 2 ^ j by positivity)
      rw [mul_comm] at this
      exact_mod_cast this

/-! ## The quotient -/

theorem correct_digits (hd : 0 < d) : ∀ (fuel n Q : ℕ), n ≤ fuel →
    correct (base.digits d) fuel (base.digits n) Q = (base.digits (n % d), Q + n / d) := by
  intro fuel
  induction fuel with
  | zero =>
    intro n Q hn
    obtain rfl : n = 0 := by omega
    simp [correct]
  | succ fuel ih =>
    intro n Q hn
    simp only [correct, ge_iff_le, bigCmp_digits]
    split_ifs with h
    · rw [bigSub_digits h, ih (n - d) (Q + 1) (by omega), ← mod_eq_sub_mod h,
        div_eq_sub_div hd h]
      congr 1
      omega
    · rw [mod_eq_of_lt (by omega), div_eq_of_lt (by omega), add_zero]

theorem estimate_le {N D : ℕ} {sn sd : ℤ} (hd : 0 < d) (hN : (N : ℚ) ≤ n / 2 ^ sn)
    (hD : d / (2 : ℚ) ^ sd < D + 1) : ((N / (D + 1) : ℕ) : ℚ) * 2 ^ (sn - sd) ≤ n / d := by
  have hsn := Format.two_zpow_pos sn
  have hsd := Format.two_zpow_pos sd
  have hd' : (0 : ℚ) < d := by exact_mod_cast hd
  have h1 : ((N / (D + 1) : ℕ) : ℚ) * (D + 1) ≤ N := by
    exact_mod_cast div_mul_le_self N (D + 1)
  have h2 : (N : ℚ) * 2 ^ sn ≤ n := (le_div_iff₀ hsn).mp hN
  have h3 : (d : ℚ) < (D + 1) * 2 ^ sd := (div_lt_iff₀ hsd).mp hD
  have h0 : (0 : ℚ) ≤ ((N / (D + 1) : ℕ) : ℚ) := by positivity
  generalize ((N / (D + 1) : ℕ) : ℚ) = q at *
  rw [zpow_sub₀ two_ne_zero, le_div_iff₀ hd', ← mul_div_assoc, div_mul_eq_mul_div,
    div_le_iff₀ hsd]
  calc q * 2 ^ sn * d ≤ q * 2 ^ sn * ((D + 1) * 2 ^ sd) :=
        mul_le_mul_of_nonneg_left h3.le (by positivity)
    _ = q * (D + 1) * 2 ^ sn * 2 ^ sd := by ring
    _ ≤ N * 2 ^ sn * 2 ^ sd := by gcongr
    _ ≤ n * 2 ^ sd := by gcongr

theorem bigQuotient_digits (hd : 0 < d) :
    bigQuotient (base.digits n) (base.digits d) = (base.digits (n % d), n / d) := by
  obtain ⟨hn2, hn, -⟩ := bigTop_digits n 128 (by norm_num)
  obtain ⟨hd2, -, hd1⟩ := bigTop_digits d 64 (by norm_num)
  rw [← hn2] at hn
  rw [← hd2] at hd1
  have hest := estimate_le hd hn hd1
  unfold bigQuotient
  simp only
  generalize bigTop (base.digits n) 128 = N at *
  generalize bigTop (base.digits d) 64 = D at *
  have hd' : (0 : ℚ) < d := by exact_mod_cast hd
  -- the estimate, shifted into place, is an integer that is not above the quotient
  have hle : ∀ Q : ℕ, (Q : ℚ) ≤ n / d → Q ≤ n / d := by
    intro Q hQ
    rw [le_div_iff_mul_le hd]
    exact_mod_cast (le_div_iff₀ hd').mp hQ
  have hQ : (if N.2 - D.2 ≥ 0 then (N.1 / (D.1 + 1)) <<< (N.2 - D.2).toNat % 2 ^ 128
      else (N.1 / (D.1 + 1)) >>> (-(N.2 - D.2)).toNat) ≤ n / d := by
    generalize N.1 / (D.1 + 1) = Q at *
    split_ifs with hsh
    · refine le_trans (mod_le _ _) (hle _ ?_)
      rw [shiftLeft_eq]
      push_cast
      rwa [← zpow_natCast, Int.toNat_of_nonneg hsh]
    · refine hle _ (le_trans ?_ hest)
      obtain ⟨j, hj⟩ : ∃ j : ℕ, N.2 - D.2 = -(j : ℤ) := ⟨(-(N.2 - D.2)).toNat, by omega⟩
      rw [hj, neg_neg, Int.toNat_natCast, shiftRight_eq_div_pow, zpow_neg, zpow_natCast,
        ← div_eq_mul_inv, le_div_iff₀ (by positivity)]
      exact_mod_cast div_mul_le_self Q (2 ^ j)
  generalize (if N.2 - D.2 ≥ 0 then (N.1 / (D.1 + 1)) <<< (N.2 - D.2).toNat % 2 ^ 128
      else (N.1 / (D.1 + 1)) >>> (-(N.2 - D.2)).toNat) = Q at hQ ⊢
  have hQd : d * Q ≤ n := by
    rw [mul_comm]
    exact (le_div_iff_mul_le hd).mp hQ
  rw [bigMul128_digits, bigSub_digits hQd, ofDigits_digits, correct_digits hd _ _ _ le_rfl,
    sub_mul_mod hQd, sub_mul_div]
  congr 1
  omega

/-! ## The digits of the significand -/

theorem digitsValue_append (as bs : List ℕ) :
    digitsValue (as ++ bs) = digitsValue as * 10 ^ bs.length + digitsValue bs :=
  Citadel.Lib.Positional.horner_append as bs

theorem digitsValue_lt (h : ∀ d ∈ ds, d < 10) : digitsValue ds < 10 ^ ds.length :=
  Citadel.Lib.Positional.horner_lt h

theorem bigChunk_eq (n : ℕ) (hlen : ds.length ≤ 9) (h : ∀ d ∈ ds, d < 10) :
    (if base.digits n = [] then bigSmall (digitsValue ds)
    else bigMuladd (base.digits n) (10 ^ ds.length) (digitsValue ds)) =
      base.digits (n * 10 ^ ds.length + digitsValue ds) := by
  have hlt := digitsValue_lt h
  have hpow : 10 ^ ds.length < base :=
    lt_of_le_of_lt (Nat.pow_le_pow_right (by norm_num) hlen) (by decide)
  split_ifs with hn
  · rw [digits_eq_nil.mp hn, zero_mul, zero_add, bigSmall_eq (hlt.trans hpow)]
  · exact bigMuladd_digits n (by positivity) hpow hlt.le

/-- **The digits as a big integer**; a number of leading digits that is zero has no limbs. -/
theorem bigDigits_eq (n : ℕ) (h : ∀ d ∈ ds, d < 10) :
    bigDigits ds (base.digits n) = base.digits (n * 10 ^ ds.length + digitsValue ds) := by
  induction hl : ds.length using Nat.strong_induction_on generalizing ds n with
  | _ l ih =>
    rw [bigDigits]
    by_cases h0 : ds = []
    · rw [dif_pos h0]
      subst h0
      simp [digitsValue, ← hl]
    · rw [dif_neg h0]
      have hlen : 0 < ds.length := length_pos_iff.mpr h0
      simp only
      rw [bigChunk_eq n (by simp) fun d hd => h d (mem_of_mem_take (i := 9) hd),
        ih (ds.drop 9).length (by rw [length_drop]; omega) _
        (fun d hd => h d (mem_of_mem_drop hd)) rfl]
      have happ := digitsValue_append (ds.take 9) (ds.drop 9)
      have hsum : (ds.take 9).length + (ds.drop 9).length = ds.length := by
        rw [← length_append, take_append_drop]
      rw [take_append_drop] at happ
      rw [happ, ← hl, ← hsum, pow_add]
      congr 1
      ring

end Citadel.Number
