import Citadel.Lib.Positional
import Citadel.Number.Printf

/-!
# The decimal digits of a value and their rounding

The expansion of `dec_init` holds every decimal digit of a value, and the rounding state of
`dec_round`, read through `rdig`, gives the digits of the nearest integer, ties to even, of a scaled
value.

* `expands_decInit`: the limbs are the digits of an integer `N` with `m * 2 ^ e = N * 10 ^ k`.
* `rdig_decRound`: after rounding to `K` digits `rdig` reads `roundEven (x * 10 ^ (K - E0))`.
-/

namespace Citadel.Number

open Citadel.Lib.Limbs Citadel.Lib.Rounding Citadel.Lib.Positional Nat

/-! ## The limbs -/

theorem one_lt_LIMB : 1 < LIMB := by decide

theorem bigMul_digits {m : ℕ} (hm : 0 < m) (n : ℕ) :
    bigMul (LIMB.digits n) m = LIMB.digits (n * m) :=
  mulAdd_digits one_lt_LIMB hm n 0

theorem mulPow2_digits (n e : ℕ) : mulPow2 (LIMB.digits n) e = LIMB.digits (n * 2 ^ e) := by
  induction e using Nat.strong_induction_on generalizing n with
  | _ e ih =>
    unfold mulPow2
    split_ifs with h1 h2
    · rw [bigMul_digits (by positivity), ih (e - 29) (by omega), mul_assoc, ← pow_add]
      congr 3
      omega
    · rw [bigMul_digits (by positivity)]
    · rw [not_not.mp h2, pow_zero, mul_one]

theorem mulPow5_digits (n k : ℕ) : mulPow5 (LIMB.digits n) k = LIMB.digits (n * 5 ^ k) := by
  induction k using Nat.strong_induction_on generalizing n with
  | _ k ih =>
    unfold mulPow5
    split_ifs with h
    · rw [bigMul_digits (by norm_num), ih (k - 13) (by omega), mul_assoc,
        show 1220703125 = 5 ^ 13 by norm_num, ← pow_add]
      congr 3
      omega
    · rw [bigMul_digits (by positivity)]

theorem topDigits_eq {x : ℕ} : ∀ {n top : ℕ}, 10 ^ (top - 1) ≤ x → x < 10 ^ (top + n) → 1 ≤ top →
    topDigits x n top = log 10 x + 1 := by
  intro n
  induction n with
  | zero =>
    intro top h1 h2 h3
    have := log_eq_of_pow_le_of_lt_pow h1 (by rwa [Nat.sub_add_cancel h3])
    simp only [topDigits]
    omega
  | succ n ih =>
    intro top h1 h2 h3
    simp only [topDigits]
    split_ifs with h
    · exact ih (by simpa using h) (by rwa [show top + 1 + n = top + (n + 1) by omega]) (by omega)
    · have := log_eq_of_pow_le_of_lt_pow h1 (by
        rw [Nat.sub_add_cancel h3]
        omega)
      omega

theorem limb_digit (N j : ℕ) :
    (LIMB.digits N).getD (j / 9) 0 / 10 ^ (j % 9) % 10 = N / 10 ^ j % 10 := by
  have h9 : j % 9 < 9 := mod_lt _ (by norm_num)
  have h1 : LIMB = 10 ^ (j % 9) * 10 ^ (9 - j % 9) := by
    rw [← pow_add, Nat.add_sub_cancel' h9.le]
    rfl
  have h2 : LIMB ^ (j / 9) * 10 ^ (j % 9) = 10 ^ j := by
    rw [show LIMB = 10 ^ 9 from rfl, ← pow_mul, ← pow_add, div_add_mod]
  rw [getD_digits _ _ one_lt_LIMB, h1, mod_mul_right_div_self, ← h1,
    mod_mod_of_dvd _ (dvd_pow_self 10 (by omega)), Nat.div_div_eq_div_mul, h2]

theorem digits_count {N : ℕ} (hN : N ≠ 0) :
    (topDigits ((LIMB.digits N).getD ((LIMB.digits N).length - 1) 0) 9 1 : ℤ) +
      9 * (((LIMB.digits N).length : ℤ) - 1) = log 10 N + 1 := by
  have hlen : (LIMB.digits N).length = log LIMB N + 1 := length_digits _ _ one_lt_LIMB hN
  have hlt : N < LIMB ^ (log LIMB N + 1) := lt_pow_succ_log_self one_lt_LIMB N
  have hle : LIMB ^ log LIMB N ≤ N := pow_log_le_self _ hN
  have hpos : 0 < LIMB ^ log LIMB N := Nat.pow_pos (by decide)
  have htop : N / LIMB ^ log LIMB N < LIMB := by
    rw [Nat.div_lt_iff_lt_mul hpos, ← pow_succ']
    exact hlt
  rw [getD_digits _ _ one_lt_LIMB, hlen, Nat.add_sub_cancel, mod_eq_of_lt htop,
    topDigits_eq (Nat.div_pos hle hpos)
      (htop.trans (show LIMB < 10 ^ (1 + 9) by decide)) le_rfl]
  have h9 : LIMB ^ log LIMB N = 10 ^ (9 * log LIMB N) := by
    rw [pow_mul]
    rfl
  have hlog : 9 * log LIMB N ≤ log 10 N := le_log_of_pow_le (by norm_num) (h9 ▸ hle)
  rw [h9, log_div_base_pow]
  push_cast [hlog]
  ring

/-! ## The expansion -/

/-- The expansion `d` holds all digits of `x`: those of an integer `N` without a leading zero. -/
structure Expands (d : Dec) (N : ℕ) (x : ℚ) : Prop where
  limbs : d.L = LIMB.digits N
  nd_eq : d.nd = log 10 N + 1
  pos : N ≠ 0
  value : x = N * 10 ^ (d.E0 - d.nd)

theorem ctzll_dvd (m : ℕ) : 2 ^ ctzll m ∣ m :=
  findGreatest_spec (P := fun i => 2 ^ i ∣ m) (zero_le 63) (by simp)

/-- **Every digit of `m * 2 ^ e` is in the expansion.** -/
theorem expands_decInit {m : ℕ} (hm : m ≠ 0) (e : ℤ) :
    ∃ N, Expands (decInit m e) N (m * 2 ^ e) := by
  obtain ⟨q, hq⟩ := ctzll_dvd m
  have hshift : m >>> ctzll m = q := by
    rw [shiftRight_eq_div_pow]
    exact Nat.div_eq_of_eq_mul_right (by positivity) hq
  have hq0 : q ≠ 0 := by
    rintro rfl
    exact hm (by simpa using hq)
  have hval : (m : ℚ) * 2 ^ e = q * 2 ^ (e + ctzll m) := by
    rw [zpow_add₀ two_ne_zero, zpow_natCast]
    conv_lhs => rw [hq]
    push_cast
    ring
  unfold decInit
  simp only [if_neg hm, hshift]
  rw [hval]
  by_cases he : e + ctzll m ≥ 0
  · simp only [if_pos he]
    obtain ⟨k, hk⟩ := Int.eq_ofNat_of_zero_le he
    rw [hk, Int.toNat_natCast, mulPow2_digits]
    have hN : q * 2 ^ k ≠ 0 := mul_ne_zero hq0 (by positivity)
    refine ⟨q * 2 ^ k, rfl, digits_count hN, hN, ?_⟩
    simp
  · simp only [if_neg he]
    obtain ⟨k, hk⟩ : ∃ k : ℕ, e + ctzll m = -(k : ℤ) := ⟨(-(e + ctzll m)).toNat, by omega⟩
    rw [hk, neg_neg, Int.toNat_natCast, mulPow5_digits]
    have hN : q * 5 ^ k ≠ 0 := mul_ne_zero hq0 (by positivity)
    refine ⟨q * 5 ^ k, rfl, digits_count hN, hN, ?_⟩
    simp only [add_sub_cancel_left, zpow_neg, zpow_natCast]
    rw [show (10 : ℚ) = 2 * 5 by norm_num, mul_pow]
    push_cast
    field_simp

theorem length_limbs_le {q b k j : ℕ} (hq : q < 2 ^ 64) (hb : b ≤ 10) (hk : k ≤ 9 * j) :
    (LIMB.digits (q * b ^ k)).length ≤ j + 8 := by
  rw [digits_length_le_iff one_lt_LIMB]
  calc q * b ^ k ≤ q * (10 ^ 9) ^ j := by
        rw [← pow_mul]
        exact Nat.mul_le_mul_left q
          ((Nat.pow_le_pow_left hb k).trans (Nat.pow_le_pow_right (by decide) hk))
    _ < LIMB ^ 8 * LIMB ^ j :=
        Nat.mul_lt_mul_of_pos_right (hq.trans (by decide)) (Nat.pow_pos (by decide))
    _ = LIMB ^ (j + 8) := by rw [← pow_add, add_comm]

/-- The limbs fit into `struct dec`; those on the way are of smaller numbers. -/
theorem length_decInit (y : LDouble) :
    (decInit (ldSplit y).m (ldSplit y).e).L.length ≤ MAX_LIMBS := by
  have hm : (ldSplit y).m < 2 ^ 64 ∧ -16445 ≤ (ldSplit y).e ∧ (ldSplit y).e ≤ 16320 := by
    have hex : (y.se &&& 0x7fff).toNat ≤ 0x7fff := by
      rw [UInt16.toNat_and]
      exact and_le_right
    unfold ldSplit
    dsimp only
    split_ifs <;> exact ⟨y.m.toNat_lt, by dsimp only; omega, by dsimp only; omega⟩
  generalize (ldSplit y).m = m at *
  generalize (ldSplit y).e = e at *
  have htz : ctzll m ≤ 63 := findGreatest_le 63
  have hq : m >>> ctzll m < 2 ^ 64 := (shiftRight_le m _).trans_lt hm.1
  unfold decInit
  split_ifs with h0
  · decide
  · by_cases he : e + ctzll m ≥ 0
    · simp only [if_pos he, mulPow2_digits]
      exact length_limbs_le (j := 16500 / 9) hq (by decide) (by omega)
    · simp only [if_neg he, mulPow5_digits]
      exact length_limbs_le (j := 16500 / 9) hq (by decide) (by omega)

section Expansion

variable {d : Dec} {N : ℕ} {x : ℚ}

theorem Expands.bounds (h : Expands d N x) : 10 ^ (d.nd.toNat - 1) ≤ N ∧ N < 10 ^ d.nd.toNat ∧
    1 ≤ d.nd := by
  have hnd := h.nd_eq
  have h1 : d.nd.toNat = log 10 N + 1 := by omega
  rw [h1]
  exact ⟨pow_log_le_self _ h.pos, lt_pow_succ_log_self (by norm_num) N, by omega⟩

theorem Expands.dig (h : Expands d N x) {i : ℤ} (h0 : 0 ≤ i) (h1 : i < d.nd) :
    dig d i = N / 10 ^ (d.nd - 1 - i).toNat % 10 := by
  unfold Number.dig
  rw [if_neg (by omega), h.limbs]
  exact limb_digit N _

/-! ## Rounding -/

/-- The digits `rdig` reads are those of `R` in units of `10 ^ k`; the first of them counts
`10 ^ (E - 1)`. -/
def Reads (d : Dec) (R : ℕ) (k : ℤ) : Prop :=
  ∀ i : ℤ, rdig d i = if k ≤ d.E - 1 - i then R / 10 ^ (d.E - 1 - i - k).toNat % 10 else 0

variable {K T : ℕ}

theorem Expands.sticky (h : Expands d N x) (hK : (K : ℤ) < d.nd) :
    stickyAfter d K = true ↔ N % 10 ^ (d.nd - 1 - K).toNat ≠ 0 := by
  unfold stickyAfter
  rw [List.any_eq_true, ne_eq, mod_pow_eq_zero_iff]
  push Not
  constructor
  · rintro ⟨k, hk, hd⟩
    have hk : k < (d.nd - (K + 1)).toNat := List.mem_range.mp hk
    refine ⟨(d.nd - 1 - (K + 1 + k)).toNat, by omega, ?_⟩
    rw [← h.dig (by omega) (by omega)]
    simpa using hd
  · rintro ⟨k, hk, hd⟩
    refine ⟨(d.nd - 1 - K - 1 - k).toNat, List.mem_range.mpr (by omega), ?_⟩
    rw [decide_eq_true_eq, h.dig (by omega) (by omega)]
    convert hd using 4
    omega

theorem Expands.dig_div (h : Expands d N x) (hK : (K : ℤ) ≤ d.nd) {i : ℕ} (hi : i < K) :
    Number.dig d i = N / 10 ^ (d.nd - K).toNat / 10 ^ (K - 1 - i) % 10 := by
  rw [h.dig (by omega) (by omega), Nat.div_div_eq_div_mul, ← pow_add]
  congr 3
  omega

theorem lastNotNine_spec (d : Dec) (K : ℕ) :
    (lastNotNine d K = -1 ∧ ∀ i < K, dig d (i : ℕ) = 9) ∨
    ∃ r : ℕ, lastNotNine d K = r ∧ r < K ∧ dig d r ≠ 9 ∧
      ∀ i, r < i → i < K → dig d (i : ℕ) = 9 := by
  induction K with
  | zero => exact .inl ⟨rfl, by simp⟩
  | succ K ih =>
    simp only [lastNotNine]
    split_ifs with h9
    · rcases ih with ⟨h1, h2⟩ | ⟨r, h1, h2, h3, h4⟩
      · refine .inl ⟨h1, fun i hi => ?_⟩
        rcases Nat.lt_succ_iff_lt_or_eq.mp hi with hi | rfl
        · exact h2 i hi
        · exact h9
      · refine .inr ⟨r, h1, by omega, h3, fun i hr hi => ?_⟩
        rcases Nat.lt_succ_iff_lt_or_eq.mp hi with hi | rfl
        · exact h4 i hr hi
        · exact h9
    · exact .inr ⟨K, rfl, by omega, h9, fun i hr hi => by omega⟩

theorem half_iff {h l M : ℕ} (hh : h < 10) (hl : l < M) :
    (5 * M < h * M + l ∨ h * M + l = 5 * M ∧ T % 2 = 1) ↔
      (h > 5 ∨ h = 5 ∧ (l ≠ 0 ∨ T % 2 = 1)) := by
  interval_cases h <;> omega

theorem Expands.roundEven_eq (h : Expands d N x) (hK : (K : ℤ) < d.nd) :
    roundEven (x / 10 ^ (d.E0 - K)) = N / 10 ^ (d.nd - K).toNat +
      if Number.dig d K > 5 ∨ Number.dig d K = 5 ∧
        (stickyAfter d K = true ∨ (K : ℤ) > 0 ∧ Number.dig d (K - 1) % 2 = 1) then 1 else 0 := by
  obtain ⟨j, hj⟩ : ∃ j : ℕ, d.nd - K = j + 1 := ⟨(d.nd - K - 1).toNat, by omega⟩
  have hy : x / 10 ^ (d.E0 - K) = N / ((2 * (5 * 10 ^ j) : ℕ) : ℚ) := by
    have : ((2 * (5 * 10 ^ j) : ℕ) : ℚ) = 10 ^ (d.nd - K) := by
      rw [hj, zpow_add₀ (by norm_num), zpow_natCast]
      push_cast
      ring
    rw [this, h.value, div_eq_div_iff (by positivity) (by positivity), mul_assoc,
      ← zpow_add₀ (by norm_num)]
    congr 2
    ring
  have hpow : 2 * (5 * 10 ^ j) = 10 ^ (j + 1) := by ring
  rw [hy, roundEven_div (by positivity) le_rfl (by linarith), hpow]
  have hnd : (d.nd - K).toNat = j + 1 := by omega
  have hnd1 : (d.nd - 1 - K).toNat = j := by omega
  have hst := h.sticky hK
  rw [hnd1] at hst
  rw [hnd, h.dig (by omega) hK, hnd1]
  congr 1
  have hodd : ((K : ℤ) > 0 ∧ Number.dig d (K - 1) % 2 = 1) ↔ N / 10 ^ (j + 1) % 2 = 1 := by
    rcases Nat.eq_zero_or_pos K with rfl | hpos
    · have : N < 10 ^ (j + 1) := by
        have := h.bounds.2.1
        rwa [show d.nd.toNat = j + 1 by omega] at this
      rw [div_eq_of_lt this]
      simp
    · rw [h.dig (by omega) (by omega), show (d.nd - 1 - (K - 1)).toNat = j + 1 by omega,
        mod_mod_of_dvd _ (by norm_num : 2 ∣ 10)]
      exact and_iff_right (by omega)
  have hrem : N % 10 ^ (j + 1) = N / 10 ^ j % 10 * 10 ^ j + N % 10 ^ j := by
    rw [mod_pow_succ]
    ring
  have := half_iff (T := N / 10 ^ (j + 1)) (mod_lt (N / 10 ^ j) (by norm_num : 10 > 0))
    (mod_lt N (by positivity : 10 ^ j > 0))
  simp only [hodd, hst, hrem, ne_eq, not_true_eq_false, false_or]
  rw [if_congr this rfl rfl]

theorem reads_of {R : ℕ} (hlt : R < 10 ^ K)
    (hin : ∀ i < K, rdig d (i : ℕ) = R / 10 ^ (K - 1 - i) % 10)
    (hout : ∀ i : ℤ, i < 0 ∨ K ≤ i → rdig d i = 0) : Reads d R (d.E - K) := by
  intro i
  split_ifs with hi
  · rcases lt_or_ge i 0 with h0 | h0
    · have hle : 10 ^ K ≤ 10 ^ (d.E - 1 - i - (d.E - K)).toNat :=
        Nat.pow_le_pow_right (by norm_num) (by omega)
      rw [hout i (.inl h0), div_eq_of_lt (hlt.trans_le hle)]
    · obtain ⟨n, rfl⟩ := Int.eq_ofNat_of_zero_le h0
      rw [hin n (by omega)]
      congr 3
      omega
  · exact hout i (.inr (by omega))

theorem rdig_kept (d : Dec) (K i : ℤ) :
    rdig { d with K := K, r := -1, carry := false, E := d.E0 } i =
      if 0 ≤ i ∧ i < K then dig d i else 0 := by
  unfold rdig
  simp only [Bool.false_eq_true, if_false]
  by_cases hi : 0 ≤ i ∧ i < K
  · rw [if_neg (by omega), if_neg (by omega), if_pos hi]
    rfl
  · rw [if_pos (by omega), if_neg hi]

theorem reads_kept (hlt : T < 10 ^ K) (hdig : ∀ i < K, dig d (i : ℕ) = T / 10 ^ (K - 1 - i) % 10) :
    Reads { d with K := K, r := -1, carry := false, E := d.E0 } T (d.E0 - K) := by
  refine reads_of hlt (fun i hi => ?_) (fun i hi => ?_)
  · rw [rdig_kept, if_pos (by omega), hdig i hi]
  · rw [rdig_kept, if_neg (by omega)]

theorem Expands.reads_all (h : Expands d N x) (hK : d.nd ≤ K) :
    Reads (decRound d K) (roundEven (x / 10 ^ (d.E0 - K))) (d.E0 - K) ∧
      (decRound d K).E = d.E0 ∧ roundEven (x / 10 ^ (d.E0 - K)) < 10 ^ K ∧
      10 ^ (K - 1) ≤ roundEven (x / 10 ^ (d.E0 - K)) := by
  obtain ⟨hlo, hhi, h1⟩ := h.bounds
  obtain ⟨z, hz⟩ : ∃ z : ℕ, (K : ℤ) = d.nd + z := ⟨(K - d.nd).toNat, by omega⟩
  have hR : roundEven (x / 10 ^ (d.E0 - K)) = N * 10 ^ z := by
    rw [← roundEven_natCast (N * 10 ^ z), h.value, div_eq_mul_inv, ← zpow_neg, mul_assoc,
      ← zpow_add₀ (by norm_num), show d.E0 - d.nd + -(d.E0 - K) = z by omega]
    push_cast
    rfl
  have hKz : K = d.nd.toNat + z := by omega
  have hlt : N * 10 ^ z < 10 ^ K := by
    rw [hKz, pow_add]
    exact mul_lt_mul_of_pos_right hhi (by positivity)
  have heq : decRound d K = { d with K := K, r := -1, carry := false, E := d.E0 } := by
    unfold decRound
    simp only [ge_iff_le, if_pos hK]
  rw [hR, heq]
  refine ⟨reads_kept hlt fun i hi => ?_, rfl, hlt, ?_⟩
  · by_cases hi' : (i : ℤ) < d.nd
    · rw [h.dig (by omega) hi', show K - 1 - i = z + (d.nd - 1 - i).toNat by omega, pow_add,
        ← Nat.div_div_eq_div_mul, Nat.mul_div_cancel _ (by positivity)]
    · obtain ⟨y, rfl⟩ : ∃ y, z = K - 1 - i + (1 + y) := ⟨z - (K - i), by omega⟩
      unfold Number.dig
      rw [if_pos (by omega), pow_add, ← mul_assoc, mul_comm N, mul_assoc,
        Nat.mul_div_cancel_left _ (by positivity), pow_add, pow_one,
        show N * (10 * 10 ^ y) = 10 * (N * 10 ^ y) by ring, mul_mod_right]
  · rw [show K - 1 = d.nd.toNat - 1 + z by omega, pow_add]
    exact mul_le_mul_right _ hlo

theorem Expands.div_bounds (h : Expands d N x) (hK : (K : ℤ) < d.nd) :
    N / 10 ^ (d.nd - K).toNat < 10 ^ K ∧ (0 < K → 10 ^ (K - 1) ≤ N / 10 ^ (d.nd - K).toNat) := by
  obtain ⟨hlo, hhi, h1⟩ := h.bounds
  constructor
  · rw [div_lt_iff_lt_mul (by positivity), ← pow_add]
    rwa [show K + (d.nd - K).toNat = d.nd.toNat by omega]
  · intro hpos
    rw [le_div_iff_mul_le (by positivity), ← pow_add]
    rwa [show K - 1 + (d.nd - K).toNat = d.nd.toNat - 1 by omega]

theorem lastNotNine_state (d : Dec) (E K' r : ℤ) (c : Bool) (K : ℕ) :
    lastNotNine { d with E := E, K := K', r := r, carry := c } K = lastNotNine d K := by
  induction K with
  | zero => rfl
  | succ K ih =>
    simp only [lastNotNine]
    rw [ih]
    rfl

theorem decRound_of_lt (hK : (K : ℤ) < d.nd) : decRound d K =
      if dig d K > 5 ∨ dig d K = 5 ∧
        (stickyAfter d K = true ∨ (K : ℤ) > 0 ∧ dig d (K - 1) % 2 = 1) then
        if lastNotNine d K < 0 then { d with K := K, r := -1, carry := true, E := d.E0 + 1 }
        else { d with K := K, r := lastNotNine d K, carry := false, E := d.E0 }
      else { d with K := K, r := -1, carry := false, E := d.E0 } := by
  unfold decRound
  simp only [ge_iff_le]
  rw [if_neg (by omega), if_neg (by omega)]
  simp only [Int.toNat_natCast, lastNotNine_state, Bool.not_eq_true', decide_eq_false_iff_not,
    ite_not]
  rfl

theorem reads_carry (d : Dec) (K : ℕ) :
    Reads { d with K := K, r := -1, carry := true, E := d.E0 + 1 } (10 ^ K) (d.E0 - K) := by
  have hlt : 10 ^ K < 10 ^ (K + 1) := Nat.pow_lt_pow_right (by norm_num) (by omega)
  have h := reads_of (d := { d with K := K, r := -1, carry := true, E := d.E0 + 1 }) hlt
    (fun i hi => ?_) (fun i hi => ?_)
  · rwa [show (d.E0 + 1 : ℤ) - (K + 1 : ℕ) = d.E0 - K by omega] at h
  · unfold rdig
    rw [if_pos rfl, Nat.pow_div (by omega) (by norm_num),
      show K - (K + 1 - 1 - i) = i by omega]
    rcases i with _ | i
    · rfl
    · rw [if_neg (by omega), pow_succ, mul_mod_left]
  · unfold rdig
    rw [if_pos rfl, if_neg (by omega)]

theorem reads_succ {r : ℕ} (hlt : T < 10 ^ K)
    (hdig : ∀ i < K, dig d (i : ℕ) = T / 10 ^ (K - 1 - i) % 10) (hr : r < K) (hr9 : dig d r ≠ 9)
    (h9 : ∀ i, r < i → i < K → dig d (i : ℕ) = 9) :
    T + 1 < 10 ^ K ∧
      Reads { d with K := K, r := r, carry := false, E := d.E0 } (T + 1) (d.E0 - K) := by
  have hmod : T % 10 ^ (K - 1 - r) = 10 ^ (K - 1 - r) - 1 := by
    refine mod_pow_of_largest (by norm_num) fun k hk => ?_
    have := hdig (K - 1 - k) (by omega)
    rw [h9 _ (by omega) (by omega), show K - 1 - (K - 1 - k) = k by omega] at this
    exact this.symm
  have hsucc := div_pow_succ_mod (by norm_num : 1 < 10) hmod (by rwa [← hdig r hr])
  have hlt1 : T + 1 < 10 ^ K := by
    refine lt_of_le_of_ne hlt fun heq => ?_
    have := hsucc (K - 1 - r)
    rw [heq, Nat.pow_div (by omega) (by norm_num), show K - (K - 1 - r) = r + 1 by omega, pow_succ,
      mul_mod_left, if_neg (lt_irrefl _), if_pos rfl] at this
    omega
  refine ⟨hlt1, reads_of hlt1 (fun i hi => ?_) (fun i hi => ?_)⟩
  · rw [hsucc]
    unfold rdig
    simp only [Bool.false_eq_true, if_false]
    rw [if_neg (by omega)]
    rcases lt_trichotomy i r with hir | rfl | hir
    · rw [if_neg (by omega), if_neg (by omega), if_neg (by omega)]
      exact hdig i hi
    · rw [if_pos (by omega), if_pos rfl, if_neg (lt_irrefl _), if_pos rfl, ← hdig i hi]
      rfl
    · rw [if_pos (by omega), if_neg (by omega), if_pos (by omega)]
  · unfold rdig
    simp only [Bool.false_eq_true, if_false]
    rw [if_pos (by omega)]

/-- **The rounded digits.** After rounding to `K` digits, `rdig` reads the nearest integer of the
value in units of `10 ^ (E0 - K)`, ties to even. It has `K` digits, or it is `10 ^ K` and the
exponent has grown. -/
theorem Expands.reads (h : Expands d N x) (K : ℕ) :
    Reads (decRound d K) (roundEven (x / 10 ^ (d.E0 - K))) (d.E0 - K) ∧
      (((decRound d K).E = d.E0 ∧ roundEven (x / 10 ^ (d.E0 - K)) < 10 ^ K ∧
        (0 < K → 10 ^ (K - 1) ≤ roundEven (x / 10 ^ (d.E0 - K)))) ∨
      ((decRound d K).E = d.E0 + 1 ∧ roundEven (x / 10 ^ (d.E0 - K)) = 10 ^ K)) := by
  rcases le_or_gt d.nd K with hK | hK
  · obtain ⟨h1, h2, h3, h4⟩ := h.reads_all hK
    exact ⟨h1, .inl ⟨h2, h3, fun _ => h4⟩⟩
  obtain ⟨hlt, hge⟩ := h.div_bounds hK
  have hdig := fun i hi => h.dig_div hK.le (i := i) hi
  rw [h.roundEven_eq hK, decRound_of_lt hK]
  generalize N / 10 ^ (d.nd - K).toNat = T at hlt hge hdig
  split_ifs with hup hr
  · obtain ⟨-, h9⟩ : _ ∧ ∀ i < K, Number.dig d (i : ℕ) = 9 := by
      rcases lastNotNine_spec d K with h9 | ⟨r, hr', -⟩
      · exact h9
      · omega
    have hT : T + 1 = 10 ^ K := by
      have := mod_pow_of_largest (n := T) (by norm_num : 0 < 10) (t := K) fun k hk => by
        have := hdig (K - 1 - k) (by omega)
        rw [h9 _ (by omega), show K - 1 - (K - 1 - k) = k by omega] at this
        exact this.symm
      rw [mod_eq_of_lt hlt] at this
      have : 0 < 10 ^ K := by positivity
      omega
    rw [hT]
    exact ⟨reads_carry d K, .inr ⟨rfl, rfl⟩⟩
  · obtain ⟨r, hr', hrK, hr9, h9⟩ : ∃ r : ℕ, lastNotNine d K = r ∧ r < K ∧ Number.dig d r ≠ 9 ∧
        ∀ i, r < i → i < K → Number.dig d (i : ℕ) = 9 := by
      rcases lastNotNine_spec d K with ⟨hr', -⟩ | hr'
      · omega
      · exact hr'
    obtain ⟨hlt1, hreads⟩ := reads_succ hlt hdig hrK hr9 h9
    rw [hr']
    exact ⟨hreads, .inl ⟨rfl, hlt1, fun h0 => (hge h0).trans (le_succ T)⟩⟩
  · exact ⟨reads_kept hlt hdig, .inl ⟨rfl, hlt, hge⟩⟩

/-! ## Values that round to zero -/

theorem reads_of_zero (h : ∀ i, rdig d i = 0) (k : ℤ) : Reads d 0 k := by
  intro i
  rw [h, Nat.zero_div, zero_mod, ite_self]

theorem reads_neg (d : Dec) {K : ℤ} (hK : K < 0) (k : ℤ) :
    Reads (decRound d K) 0 k ∧ (decRound d K).E = d.E0 := by
  have heq : decRound d K = { d with K := K, r := -1, carry := false, E := d.E0 } := by
    unfold decRound
    simp only [if_pos hK, ite_self]
  rw [heq]
  refine ⟨reads_of_zero (fun i => ?_) k, rfl⟩
  rw [rdig_kept, if_neg (by omega)]

theorem reads_zero (e K k : ℤ) : Reads (decRound (decInit 0 e) K) 0 k ∧
    (decRound (decInit 0 e) K).E = 1 := by
  have hd : ∀ i, dig (decInit 0 e) i = 0 := by
    intro i
    unfold dig decInit
    rw [if_pos rfl]
    split_ifs with h
    · rfl
    · simp only at h
      obtain rfl : i = 0 := by omega
      rfl
  have heq : decRound (decInit 0 e) K =
      { decInit 0 e with K := K, r := -1, carry := false, E := (decInit 0 e).E0 } := by
    unfold decRound
    simp only
    rw [show dig { decInit 0 e with K := K, r := -1, carry := false, E := (decInit 0 e).E0 } K = 0
      from hd K]
    simp
  rw [heq]
  refine ⟨reads_of_zero (fun i => ?_) k, rfl⟩
  rw [rdig_kept, hd, ite_self]

end Expansion

end Citadel.Number
