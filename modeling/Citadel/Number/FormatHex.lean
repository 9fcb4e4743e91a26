import Citadel.Number.ReadHex
import Citadel.Number.RoundTrip

/-!
# Hexadecimal output

`%a` writes a leading one, `p` hexadecimal fraction digits and a binary exponent.

* `hexRound_spec`: the rounding to `p` digits.
* `fmtHex_eq`: the text, and the number it denotes.
* `fmtHex_exact`: rounding at the `p`-th digit, and the round trip without a precision.
-/

namespace Citadel.Number

open Citadel.Lib.Rounding Citadel.Lib.Positional List Nat Format

/-! ## Notation -/

/-- The last `p` hexadecimal digits of `n`. -/
def hexDigitText (upper : Bool) (p n : ℕ) : List UInt8 := (expand 16 p n).map (hexChar upper)

/-- `p` hexadecimal digits behind a point; the point stands alone only in the alternative form. -/
def hexFractionText (alt upper : Bool) (p n : ℕ) : List UInt8 :=
  (if p ≠ 0 ∨ alt = true then ['.'.toUInt8] else []) ++ hexDigitText upper p n

/-- What introduces a hexadecimal constant. -/
def hexMark (upper : Bool) : List UInt8 := ['0'.toUInt8, (if upper then 'X' else 'x').toUInt8]

/-- `n * 2 ^ (X - 4 * p)` with one digit before the point, behind the mark. -/
def hexadecimalText (alt upper : Bool) (n p : ℕ) (X : ℤ) : List UInt8 :=
  hexDigitText upper 1 (n / 16 ^ p) ++ hexFractionText alt upper p n ++
    exponentText (if upper then 'P' else 'p') 1 X

/-- The nearest multiple of `2 ^ k`, ties to even. -/
def roundAtBit (x : ℚ) (k : ℤ) : ℚ := roundEven (x / 2 ^ k) * 2 ^ k

theorem hexChar_facts (upper : Bool) {d : ℕ} (h : d < 16) :
    isxdigit (hexChar upper d) = true ∧ hexDigit (hexChar upper d) = some d := by
  rcases upper with _ | _ <;> interval_cases d <;> decide

variable {p n frac q : ℕ} {x : ℚ}

theorem isxdigit_of_mem {upper : Bool} : ∀ c ∈ hexDigitText upper p n, isxdigit c = true := by
  intro c hc
  obtain ⟨d, hd, rfl⟩ := mem_map.mp hc
  exact (hexChar_facts upper (lt_of_mem_expand (by norm_num) hd)).1

theorem length_hexDigitText (upper : Bool) (p n : ℕ) : (hexDigitText upper p n).length = p := by
  simp [hexDigitText]

theorem hexDigitText_add (upper : Bool) (p q n : ℕ) :
    hexDigitText upper (p + q) n = hexDigitText upper p (n / 16 ^ q) ++ hexDigitText upper q n := by
  unfold hexDigitText
  rw [expand_add, map_append]

theorem hexValue_hexDigitText (upper : Bool) (p n : ℕ) :
    hexValue (hexDigitText upper p n) = n % 16 ^ p := by
  rw [← horner_expand]
  unfold hexValue hexDigitText horner
  rw [foldl_map]
  refine foldl_ext _ _ _ fun v d hd => ?_
  rw [(hexChar_facts upper (lt_of_mem_expand (by norm_num) hd)).2]
  rfl

/-- **Hexadecimal notation denotes its number**, also with zeros behind the mark. -/
theorem isHexadecimal_hexadecimalText (alt upper : Bool) (h : n < 16 ^ (p + 1)) (X : ℤ) (z : ℕ) :
    IsHexadecimal (hexMark upper ++ (pad '0' z ++ hexadecimalText alt upper n p X)) n
      (X - 4 * p) := by
  have hexp : ExponentPart 'p' (exponentText (if upper then 'P' else 'p') 1 X) X :=
    exponentPart_exponentText (by rcases upper with _ | _ <;> decide) 1 X
  refine ⟨(if upper then 'X' else 'x').toUInt8,
    pad '0' z ++ (hexDigitText upper 1 (n / 16 ^ p) ++ hexFractionText alt upper p n), _,
    pad '0' z ++ hexDigitText upper 1 (n / 16 ^ p), hexDigitText upper p n, X, ?_,
    ⟨?_, isxdigit_of_mem, .inl ?_, ?_⟩, hexp, ?_, ?_, ?_⟩
  · rcases upper with _ | _ <;> decide
  · refine forall_mem_append.mpr ⟨fun c hc => ?_, isxdigit_of_mem⟩
    rw [eq_of_mem_replicate hc]
    decide
  · intro h0
    have := congrArg List.length h0
    rw [length_append, length_hexDigitText] at this
    simp at this
  · unfold hexFractionText
    split_ifs with hp
    · exact .inr (by simp)
    · obtain rfl : p = 0 := by
        by_contra h0
        exact hp (.inl h0)
      exact .inl ⟨by simp [hexDigitText], rfl⟩
  · simp [hexMark, hexadecimalText]
  · rw [append_assoc, pad, hexValue_replicate, ← hexDigitText_add, hexValue_hexDigitText,
      mod_eq_of_lt (by rwa [Nat.add_comm 1])]
  · rw [length_hexDigitText]

/-! ## Rounding -/

theorem hexUp_iff {d : ℕ} (hd : 64 - 4 * p = d + 1) (hf : frac < 2 ^ 64) :
    (frac % 2 ^ (d + 1) * 2 ^ (4 * p) > 2 ^ 63 ∨ frac % 2 ^ (d + 1) * 2 ^ (4 * p) = 2 ^ 63 ∧
        (if p ≠ 0 then frac / 2 ^ (d + 1) else 1) % 2 = 1) ↔
      (2 ^ d < (2 ^ 64 + frac) % 2 ^ (d + 1) ∨ (2 ^ 64 + frac) % 2 ^ (d + 1) = 2 ^ d ∧
        (2 ^ 64 + frac) / 2 ^ (d + 1) % 2 = 1) := by
  have h64 : 2 ^ 64 = 2 ^ (d + 1) * 2 ^ (4 * p) := by
    rw [← pow_add]
    congr 1
    omega
  have h63 : 2 ^ 63 = 2 ^ d * 2 ^ (4 * p) := by
    rw [← pow_add]
    congr 1
    omega
  have hpos : 0 < 2 ^ (4 * p) := by positivity
  have hparity : (if p ≠ 0 then frac / 2 ^ (d + 1) else 1) % 2 =
      (2 ^ 64 + frac) / 2 ^ (d + 1) % 2 := by
    rw [h64, mul_add_div (by positivity)]
    split_ifs with hp
    · obtain ⟨q, rfl⟩ := exists_eq_succ_of_ne_zero hp
      rw [show 2 ^ (4 * q.succ) = 2 * 2 ^ (4 * q + 3) by rw [← pow_succ']; congr 1,
        mul_add_mod]
    · obtain rfl : p = 0 := not_not.mp hp
      rw [div_eq_of_lt (a := frac) (by rwa [show d + 1 = 64 by omega])]
      rfl
  rw [hparity, h63, gt_iff_lt, Nat.mul_lt_mul_right hpos, Nat.mul_left_inj hpos.ne']
  conv_rhs => rw [h64, mul_add_mod, ← h64]

/-- **Rounding to `p` digits.** The fraction `1.frac` becomes a multiple of the last digit; a carry
goes into the exponent. -/
theorem hexRound_spec (hp : p < 16) (hf : frac < 2 ^ 64) (X : ℤ) :
    ∃ N frac' c : ℕ, hexRound p 1 frac X = (1, frac', X + c) ∧ frac' < 2 ^ 64 ∧
      N * 16 ^ (16 - p) = 2 ^ 64 + frac' ∧
      roundEven (((2 ^ 64 + frac : ℕ) : ℚ) / ((16 ^ (16 - p) : ℕ) : ℚ)) = N * 2 ^ c := by
  obtain ⟨d, hd⟩ : ∃ d, 64 - 4 * p = d + 1 := ⟨63 - 4 * p, by omega⟩
  have h16 : 16 ^ (16 - p) = 2 ^ (d + 1) := by
    rw [show 16 = 2 ^ 4 by norm_num, ← pow_mul]
    congr 1
    omega
  have h64 : 2 ^ 64 = 2 ^ (d + 1) * 2 ^ (4 * p) := by
    rw [← pow_add]
    congr 1
    omega
  have hkeep : (if d + 1 = 64 then 0 else frac >>> (d + 1)) = frac / 2 ^ (d + 1) := by
    split_ifs with h
    · rw [h, div_eq_of_lt hf]
    · exact shiftRight_eq_div_pow _ _
  have hrem : (if d + 1 = 64 then frac else (frac <<< (64 - (d + 1))) % 2 ^ 64) =
      frac % 2 ^ (d + 1) * 2 ^ (4 * p) := by
    split_ifs with h
    · rw [h, mod_eq_of_lt hf, show 4 * p = 0 by omega, pow_zero, Nat.mul_one]
    · rw [shiftLeft_eq, show 64 - (d + 1) = 4 * p by omega, h64, mul_mod_mul_right]
  have hlt : frac / 2 ^ (d + 1) < 2 ^ (4 * p) := by
    rw [Nat.div_lt_iff_lt_mul (by positivity), Nat.mul_comm, ← h64]
    exact hf
  have hround := roundEven_div (Q := 2 ^ 64 + frac) (H := 2 ^ d) (y := ((2 ^ 64 + frac : ℕ) : ℚ))
    (by positivity) le_rfl (by linarith)
  rw [← pow_succ'] at hround
  simp only [ne_eq, not_true_eq_false, false_or] at hround
  rw [if_congr (hexUp_iff hd hf).symm rfl rfl, h64, mul_add_div (by positivity)] at hround
  rw [h16, h64]
  have hshift : ∀ k, k < 2 ^ (4 * p) →
      (if d + 1 = 64 then 0 else (k <<< (d + 1)) % 2 ^ 64) = 2 ^ (d + 1) * k ∧
        2 ^ (d + 1) * k < 2 ^ (d + 1) * 2 ^ (4 * p) := by
    intro k hk
    have hlt' : 2 ^ (d + 1) * k < 2 ^ (d + 1) * 2 ^ (4 * p) :=
      Nat.mul_lt_mul_of_pos_left hk (by positivity)
    refine ⟨?_, hlt'⟩
    split_ifs with h
    · rw [show 4 * p = 0 by omega, pow_zero, lt_one_iff] at hk
      rw [hk, Nat.mul_zero]
    · rw [shiftLeft_eq, Nat.mul_comm, mod_eq_of_lt (h64 ▸ hlt')]
  unfold hexRound
  simp only [hd, hkeep, hrem]
  by_cases hup : frac % 2 ^ (d + 1) * 2 ^ (4 * p) > 2 ^ 63 ∨
      frac % 2 ^ (d + 1) * 2 ^ (4 * p) = 2 ^ 63 ∧
        (if p ≠ 0 then frac / 2 ^ (d + 1) else 1) % 2 = 1
  · rw [if_pos hup] at hround
    simp only [hup, decide_true, if_true, Bool.true_and, decide_eq_true_eq]
    generalize frac / 2 ^ (d + 1) = keep at *
    have hwrap : (p = 0 ∨ (keep + 1) >>> (4 * p) ≠ 0) ↔ keep + 1 = 2 ^ (4 * p) := by
      rw [shiftRight_eq_div_pow, ne_eq, Nat.div_eq_zero_iff]
      constructor
      · rintro (rfl | h)
        · rw [Nat.mul_zero, pow_zero] at hlt ⊢
          omega
        · omega
      · intro h
        omega
    by_cases hw : keep + 1 = 2 ^ (4 * p)
    · obtain ⟨h1, -⟩ := hshift 0 (by positivity)
      rw [if_pos (hwrap.mpr hw), if_pos (hwrap.mpr hw), h1]
      refine ⟨2 ^ (4 * p), 2 ^ (d + 1) * 0, 1, by simp, by positivity, by ring, ?_⟩
      rw [hround]
      omega
    · obtain ⟨h1, h2⟩ := hshift (keep + 1) (by omega)
      rw [if_neg fun h => hw (hwrap.mp h), if_neg fun h => hw (hwrap.mp h), h1]
      refine ⟨2 ^ (4 * p) + (keep + 1), 2 ^ (d + 1) * (keep + 1), 0, by simp, h2, by ring, ?_⟩
      rw [hround, pow_zero, Nat.mul_one, Nat.add_assoc]
  · rw [if_neg hup] at hround
    simp only [hup, decide_false, Bool.false_eq_true, if_false, Bool.false_and]
    obtain ⟨h1, h2⟩ := hshift _ hlt
    rw [h1]
    refine ⟨2 ^ (4 * p) + frac / 2 ^ (d + 1), _, 0, by simp, h2, by ring, ?_⟩
    rw [hround, pow_zero, Nat.mul_one, Nat.add_zero]

/-! ## The text of a rounded fraction -/

section Body

variable {lead frac n q : ℕ}

theorem div_pow_eq (hS : n * 16 ^ (16 - q) = (lead * 2 ^ 64 + frac) * 16 ^ (q - 16)) {t : ℕ}
    (hq : t ≤ q) (ht : t ≤ 16) : n / 16 ^ (q - t) = (lead * 2 ^ 64 + frac) / 16 ^ (16 - t) := by
  rcases le_total q 16 with h | h
  · rw [Nat.sub_eq_zero_of_le h, pow_zero, Nat.mul_one] at hS
    rw [← hS, show 16 - t = (q - t) + (16 - q) by omega, pow_add,
      Nat.mul_div_mul_right _ _ (by positivity)]
  · rw [Nat.sub_eq_zero_of_le h, pow_zero, Nat.mul_one] at hS
    rw [hS, show q - t = (16 - t) + (q - 16) by omega, pow_add,
      Nat.mul_div_mul_right _ _ (by positivity)]

theorem lead_eq (hf : frac < 2 ^ 64)
    (hS : n * 16 ^ (16 - q) = (lead * 2 ^ 64 + frac) * 16 ^ (q - 16)) : n / 16 ^ q = lead := by
  have h := div_pow_eq hS (Nat.zero_le q) (Nat.zero_le 16)
  rw [Nat.sub_zero, Nat.sub_zero] at h
  rw [h, show 16 ^ 16 = 2 ^ 64 by norm_num, Nat.mul_comm, mul_add_div (by norm_num),
    div_eq_of_lt hf, Nat.add_zero]

theorem fracDigit_eq {i : ℕ} (hi : i < 16) :
    (frac >>> (60 - 4 * i)) % 16 = (lead * 2 ^ 64 + frac) / 16 ^ (16 - (i + 1)) % 16 := by
  have h1 : lead * 2 ^ 64 = 16 ^ (15 - i) * (16 * (lead * 16 ^ i)) := by
    rw [show (2 : ℕ) ^ 64 = 16 ^ (15 - i) * 16 ^ i * 16 by
      rw [← pow_add, ← pow_succ, show 15 - i + i + 1 = 16 by omega]; norm_num]
    ring
  rw [show 16 - (i + 1) = 15 - i by omega, h1, mul_add_div (by positivity), mul_add_mod,
    shiftRight_eq_div_pow, show 60 - 4 * i = 4 * (15 - i) by omega, pow_mul,
    show (2 : ℕ) ^ 4 = 16 by norm_num]

theorem hexDigits_eq (upper : Bool)
    (hS : n * 16 ^ (16 - q) = (lead * 2 ^ 64 + frac) * 16 ^ (q - 16)) :
    (List.range (if q < 16 then q else 16)).map
        (fun i => hexChar upper ((frac >>> (60 - 4 * i)) % 16)) ++
      pad '0' (q - if q < 16 then q else 16) = hexDigitText upper q n := by
  have hmap : ∀ r, r ≤ q → r ≤ 16 → (List.range r).map
      (fun i => hexChar upper ((frac >>> (60 - 4 * i)) % 16)) =
        hexDigitText upper r (n / 16 ^ (q - r)) := by
    intro r hr hr'
    unfold hexDigitText expand
    rw [map_map]
    refine map_congr_left fun i hi => ?_
    have hi : i < r := mem_range.mp hi
    rw [Function.comp, Nat.div_div_eq_div_mul, ← pow_add, show q - r + (r - 1 - i) = q - (i + 1) by
      omega, div_pow_eq hS (by omega) (by omega), fracDigit_eq (by omega)]
  split_ifs with h
  · rw [hmap q le_rfl h.le, Nat.sub_self, pow_zero, Nat.div_one]
    simp [pad]
  · obtain ⟨z, rfl⟩ : ∃ z, q = 16 + z := ⟨q - 16, by omega⟩
    rw [hmap 16 (by omega) le_rfl, Nat.add_sub_cancel_left, hexDigitText_add]
    congr 1
    have hn : n = (lead * 2 ^ 64 + frac) * 16 ^ z := by
      rw [← Nat.add_sub_cancel_left (n := 16) (m := z), ← hS, Nat.sub_eq_zero_of_le (by omega)]
      simp
    unfold hexDigitText pad
    rw [hn, expand_mul_pow (by norm_num), map_replicate]
    rcases upper with _ | _ <;> rfl

end Body

/-! ## The field -/

theorem hexLength_spec (frac : ℕ) {nd : ℕ} (hnd : nd ≤ 16) (h : frac % 16 ^ (16 - nd) = 0) :
    hexLength frac nd ≤ nd ∧ frac % 16 ^ (16 - hexLength frac nd) = 0 := by
  induction nd with
  | zero => exact ⟨le_rfl, h⟩
  | succ nd ih =>
    simp only [hexLength]
    split_ifs with h0
    · obtain ⟨h1, h2⟩ := ih (by omega) (by
        rw [show 16 - nd = 16 - (nd + 1) + 1 by omega, mod_pow_succ, h]
        rw [shiftRight_eq_div_pow, show 64 - 4 * (nd + 1) = 4 * (16 - (nd + 1)) by omega, pow_mul,
          show (2 : ℕ) ^ 4 = 16 by norm_num] at h0
        rw [h0, Nat.mul_zero])
      exact ⟨by omega, h2⟩
    · exact ⟨le_rfl, h⟩

/-- The normalised significand of a value: `x = 1.frac * 2 ^ X`. -/
theorem normalise {m : ℕ} (hm0 : m ≠ 0) (hm : m < 2 ^ 64) (e : ℤ) :
    ∃ frac < 2 ^ 64, (m <<< clzll m) % 2 ^ 64 ≠ 0 ∧
      (((m <<< clzll m) % 2 ^ 64) <<< 1) % 2 ^ 64 = frac ∧
      (m : ℚ) * 2 ^ e = ((2 ^ 64 + frac : ℕ) : ℚ) * 2 ^ (e + 63 - clzll m - 64) := by
  obtain ⟨h63, h64⟩ := clzll_bounds hm0 hm
  have hval : (m : ℚ) * 2 ^ e = ((m * 2 ^ clzll m : ℕ) : ℚ) * 2 ^ (e - clzll m) := by
    push_cast
    rw [mul_assoc, ← zpow_natCast, ← zpow_add₀ two_ne_zero]
    congr 2
    ring
  rw [shiftLeft_eq, mod_eq_of_lt h64, hval]
  generalize m * 2 ^ clzll m = m' at h63 h64
  refine ⟨2 * m' - 2 ^ 64, by omega, by omega, ?_, ?_⟩
  · rw [shiftLeft_eq]
    omega
  · rw [show 2 ^ 64 + (2 * m' - 2 ^ 64) = 2 * m' by omega]
    rw [show e + 63 - clzll m - 64 = e - clzll m - 1 by ring, zpow_sub_one₀ two_ne_zero]
    push_cast
    ring

theorem log_two_eq {Q : ℕ} {X : ℤ} (hx : x = Q * 2 ^ (X - 64)) (hlo : 2 ^ 64 ≤ Q)
    (hhi : Q < 2 ^ 65) : Int.log 2 x = X := by
  have h1 := two_zpow_le_mul hlo (X - 64)
  have h2 := mul_lt_two_zpow hhi (X - 64)
  rw [← hx] at h1 h2
  have hx0 := (two_zpow_pos _).trans_le h1
  have h3 := (Int.zpow_le_iff_le_log one_lt_two hx0).mp h1
  have h4 := (Int.lt_zpow_iff_log_lt one_lt_two hx0).mp h2
  omega

theorem hexText_eq {lead : ℕ} (fl : Flags) (hl : lead < 16) (hf : frac < 2 ^ 64)
    (hS : n * 16 ^ (16 - q) = (lead * 2 ^ 64 + frac) * 16 ^ (q - 16)) (X : ℤ) :
    (hexChar fl.upper lead :: ((if q ≠ 0 ∨ fl.alt = true then ['.'.toUInt8] else []) ++
        (List.range (if q < 16 then q else 16)).map
          fun i => hexChar fl.upper ((frac >>> (60 - 4 * i)) % 16))) ++
      pad '0' (q - if q < 16 then q else 16) ++ expStr X (if fl.upper then 'P' else 'p') 1 =
      hexadecimalText fl.alt fl.upper n q X := by
  unfold hexadecimalText hexFractionText
  rw [expStr_eq, ← hexDigits_eq fl.upper hS, lead_eq hf hS,
    show hexDigitText fl.upper 1 lead = [hexChar fl.upper lead] by
      simp [hexDigitText, expand, mod_eq_of_lt hl]]
  simp only [cons_append, nil_append, append_assoc]

theorem scale_eq (hq : q ≤ 16) (X : ℤ) :
    ((16 ^ (16 - q) : ℕ) : ℚ) * 2 ^ (X - 64) = 2 ^ (X - 4 * q) :=
  (two_zpow_hex (by omega)).symm

/-- **The text of `%a`.** There are `q` fraction digits behind a leading one (or zero for zero).
With a precision `q` is the precision, and the text denotes the value rounded at its last digit;
without one it denotes the value. -/
theorem fmtHex_eq {v : Ldparts} (hm : v.m < 2 ^ 64) (w : ℕ) (p : ℤ) (fl : Flags) (pre : List UInt8)
    (room : ℕ) : ∃ (n q : ℕ) (X : ℤ),
    fmtHex v w p fl pre room =
      fpField fl w room (pre ++ hexMark fl.upper) (hexadecimalText fl.alt fl.upper n q X) ∧
    n / 16 ^ q = (if v.m = 0 then 0 else 1) ∧ (v.m = 0 → X = 0) ∧
    (0 ≤ p → (q : ℤ) = p ∧
      (n : ℚ) * 2 ^ (X - 4 * q) = roundAtBit (v.m * 2 ^ v.e)
      (Int.log 2 ((v.m : ℚ) * 2 ^ v.e) - 4 * q)) ∧
    (p < 0 → q ≤ 16 ∧ (n : ℚ) * 2 ^ (X - 4 * q) = v.m * 2 ^ v.e) := by
  by_cases hm0 : v.m = 0
  · -- zero
    have hr : (if p ≥ 0 ∧ p < 16 then hexRound p.toNat 0 0 0 else (0, 0, 0)) = (0, 0, (0 : ℤ)) := by
      simp [hexRound]
    refine ⟨0, if p < 0 then hexLength 0 16 else p.toNat, 0, ?_, by simp [hm0], fun _ => rfl,
      fun hp => ?_, fun hp => ?_⟩
    · unfold fmtHex
      simp only [hm0, ne_eq, not_true_eq_false, if_false, zero_shiftLeft, zero_mod, hr]
      rw [hexText_eq (n := 0) fl (by norm_num) (by norm_num) (by simp)]
      rfl
    · rw [if_neg (by omega), hm0]
      refine ⟨by omega, ?_⟩
      have h0 := roundEven_natCast 0
      rw [cast_zero] at h0
      unfold roundAtBit
      rw [cast_zero, zero_mul, zero_mul, zero_div, h0, cast_zero, zero_mul]
    · rw [if_pos hp, hm0]
      exact ⟨(hexLength_spec 0 le_rfl (by simp)).1, by simp⟩
  · obtain ⟨frac, hf, hne, hfrac, hx⟩ := normalise hm0 hm v.e
    have hlog : Int.log 2 ((v.m : ℚ) * 2 ^ v.e) = v.e + 63 - clzll v.m :=
      log_two_eq hx (by omega) (by omega)
    rw [hlog, hx]
    have hstart : ∀ (q frac' n : ℕ) (X' : ℤ),
        (if p ≥ 0 ∧ p < 16 then hexRound p.toNat 1 frac (v.e + 63 - clzll v.m)
          else (1, frac, v.e + 63 - clzll v.m)) = (1, frac', X') →
        (if p < 0 then hexLength frac' 16 else p.toNat) = q → frac' < 2 ^ 64 →
        n * 16 ^ (16 - q) = (1 * 2 ^ 64 + frac') * 16 ^ (q - 16) →
        fmtHex v w p fl pre room =
          fpField fl w room (pre ++ hexMark fl.upper) (hexadecimalText fl.alt fl.upper n q X') := by
      intro q frac' n X' hr hq hf' hS
      unfold fmtHex
      simp only [hm0, ne_eq, not_false_eq_true, if_true, hne, hfrac, hr, hq]
      rw [hexText_eq fl (by norm_num) hf' hS]
      rfl
    generalize v.e + 63 - clzll v.m = X at *
    rcases lt_or_ge p 0 with hp | hp
    · -- all digits up to the last that is not zero
      obtain ⟨hq, hmod⟩ := hexLength_spec frac le_rfl (by simp [mod_one])
      generalize hqq : hexLength frac 16 = q at hq hmod
      have hn : (2 ^ 64 + frac) / 16 ^ (16 - q) * 16 ^ (16 - q) = 2 ^ 64 + frac := by
        refine Nat.div_mul_cancel ((Nat.dvd_add_right ?_).mpr (dvd_of_mod_eq_zero hmod))
        rw [show 2 ^ 64 = 16 ^ 16 by norm_num]
        exact pow_dvd_pow 16 (by omega)
      have hS : (2 ^ 64 + frac) / 16 ^ (16 - q) * 16 ^ (16 - q) =
          (1 * 2 ^ 64 + frac) * 16 ^ (q - 16) := by
        rw [hn, Nat.sub_eq_zero_of_le hq, pow_zero, Nat.one_mul, Nat.mul_one]
      refine ⟨(2 ^ 64 + frac) / 16 ^ (16 - q), q, X, hstart q frac _ X (if_neg (by omega))
        (by rw [if_pos hp, hqq]) hf hS, by rw [lead_eq hf hS, if_neg hm0], fun h => absurd h hm0,
        fun h => by omega,
        fun _ => ⟨hq, ?_⟩⟩
      rw [← scale_eq hq, ← mul_assoc, ← cast_mul, hn]
    obtain ⟨q, rfl⟩ := Int.eq_ofNat_of_zero_le hp
    rcases lt_or_ge q 16 with hq | hq
    · obtain ⟨N, frac', c, hround, hf', hN, hval⟩ := hexRound_spec hq hf X
      have hS : N * 16 ^ (16 - q) = (1 * 2 ^ 64 + frac') * 16 ^ (q - 16) := by
        rw [hN, Nat.sub_eq_zero_of_le hq.le, pow_zero, Nat.one_mul, Nat.mul_one]
      refine ⟨N, q, X + c, hstart q frac' N (X + c) ?_ (by simp) hf' hS,
        by rw [lead_eq hf' hS, if_neg hm0], fun h => absurd h hm0, fun _ => ⟨rfl, ?_⟩,
        fun h => by omega⟩
      · rw [if_pos ⟨hp, by omega⟩, Int.toNat_natCast, hround]
      · have hdiv : ((2 ^ 64 + frac : ℕ) : ℚ) * 2 ^ (X - 64) / 2 ^ (X - 4 * q) =
            ((2 ^ 64 + frac : ℕ) : ℚ) / ((16 ^ (16 - q) : ℕ) : ℚ) := by
          rw [← scale_eq hq.le, mul_div_mul_right _ _ (two_zpow_pos _).ne']
        unfold roundAtBit
        rw [hdiv, hval, cast_mul, mul_assoc, ← two_zpow_natCast_add]
        congr 2
        ring
    · -- more digits than the value has
      have hunit := two_zpow_hex (a := X - 64) (b := X - 4 * q) (q := q - 16) (by omega)
      have hS : (2 ^ 64 + frac) * 16 ^ (q - 16) * 16 ^ (16 - q) =
          (1 * 2 ^ 64 + frac) * 16 ^ (q - 16) := by
        rw [Nat.sub_eq_zero_of_le hq, pow_zero, Nat.one_mul, Nat.mul_one]
      refine ⟨(2 ^ 64 + frac) * 16 ^ (q - 16), q, X,
        hstart q frac _ X (if_neg (by omega)) (by simp) hf hS, by rw [lead_eq hf hS, if_neg hm0],
        fun h => absurd h hm0, fun _ => ⟨rfl, ?_⟩,
        fun h => by omega⟩
      unfold roundAtBit
      rw [hunit, ← mul_assoc, ← cast_mul, mul_div_cancel_right₀ _ (two_zpow_pos _).ne',
        roundEven_natCast]

theorem lt_pow_of_div {b : Prop} [Decidable b] (h : n / 16 ^ q = if b then 0 else 1) :
    n < 16 ^ (q + 1) := by
  rw [pow_succ', ← Nat.div_lt_iff_lt_mul (by positivity), h]
  split_ifs <;> norm_num

theorem finite_representable {y : LDouble} {neg : Bool} (hy : y.value = .finite neg x) :
    0 ≤ x ∧ Ffmt.ldbl.format.Representable x ∧ x ≤ Ffmt.ldbl.format.maxFinite := by
  obtain ⟨-, -, -, hx, hm, he, he'⟩ := ldSplit_finite hy
  rw [hx]
  exact ⟨by positivity, ⟨_, _, he', hm, rfl⟩, mul_le_maxFinite (F := Ffmt.ldbl.format) hm he⟩

theorem length_hexFractionText_le (alt upper : Bool) (p n : ℕ) :
    (hexFractionText alt upper p n).length ≤ p + 1 := by
  unfold hexFractionText
  rw [length_append, length_hexDigitText]
  split_ifs
  · rw [length_singleton, Nat.add_comm]
  · simp

theorem exponent_bounds {m : ℕ} {e X : ℤ} (hm : m < 2 ^ 64) (hm0 : m ≠ 0) (hlo : 16 ^ q ≤ n)
    (hhi : n < 2 * 16 ^ q) (hval : (n : ℚ) * 2 ^ (X - 4 * q) = m * 2 ^ e) :
    X < 64 + e ∧ e < X + 1 := by
  have hpos := two_zpow_pos (X - 4 * q)
  have hpow := two_zpow_hex (a := X) (b := X - 4 * q) (q := q) (by omega)
  constructor
  · apply lt_of_two_zpow_lt
    calc (2 : ℚ) ^ X ≤ n * 2 ^ (X - 4 * q) := by
          rw [hpow]
          exact mul_le_mul_of_nonneg_right (by exact_mod_cast hlo) hpos.le
      _ = m * 2 ^ e := hval
      _ < 2 ^ (64 + e) := mul_lt_two_zpow hm e
  · apply lt_of_two_zpow_lt
    have h1 : (1 : ℚ) ≤ m := by exact_mod_cast one_le_iff_ne_zero.mpr hm0
    calc (2 : ℚ) ^ e ≤ m * 2 ^ e := le_mul_of_one_le_left (two_zpow_pos e).le h1
      _ = n * 2 ^ (X - 4 * q) := hval.symm
      _ < ((2 * 16 ^ q : ℕ) : ℚ) * 2 ^ (X - 4 * q) :=
          mul_lt_mul_of_pos_right (by exact_mod_cast hhi) hpos
      _ = 2 ^ (X + 1) := by
          rw [zpow_add_one₀ two_ne_zero, hpow]
          push_cast
          ring

/-- The text without a precision: a short constant that denotes the value. -/
theorem fmtFp_hex {y : LDouble} {neg : Bool} (hy : y.value = .finite neg x) {room : ℕ}
    (hroom : 64 ≤ room) : ∃ t n e, (fmtFp y 0 (-1) {} .a room).2 = signPart neg {} ++ t ∧
      IsHexadecimal t n e ∧ (n : ℚ) * 2 ^ e = x ∧ t.length ≤ 60 := by
  obtain ⟨hneg, hinf, hnan, hx, hm, he, he'⟩ := ldSplit_finite hy
  obtain ⟨n, q, X, htext, hlead, hX0, -, hexact⟩ :=
    fmtHex_eq hm 0 (-1) {} (signPart (ldSplit y).neg {}) room
  obtain ⟨hq, hval⟩ := hexact (by norm_num)
  have hX : X.natAbs < 100000 := by
    by_cases hm0 : (ldSplit y).m = 0
    · rw [hX0 hm0]
      norm_num
    · rw [if_neg hm0] at hlead
      have hpos : 0 < 16 ^ q := by positivity
      have hn := (Nat.div_eq_iff hpos).mp hlead
      have := exponent_bounds hm hm0 (by omega) (by omega) hval
      omega
  have hlog : log 10 X.natAbs < 5 := log_lt_of_lt_pow' (by norm_num) hX
  have hlen : (hexadecimalText false false n q X).length ≤ 30 := by
    have hfrac := length_hexFractionText_le false false q n
    unfold hexadecimalText exponentText
    simp only [length_append, length_cons, length_hexDigitText, length_digitText]
    omega
  refine ⟨hexMark false ++ (pad '0' 0 ++ hexadecimalText false false n q X), n, _, ?_,
    isHexadecimal_hexadecimalText false false (lt_pow_of_div hlead) X 0, hval.trans hx.symm, ?_⟩
  · have hfit : ((signPart neg {}) ++ hexMark false).length +
        (hexadecimalText false false n q X).length ≤ room := by
      have := length_signPart_le neg
      rw [length_append]
      show _ + 2 + _ ≤ room
      omega
    unfold fmtFp
    simp only [hinf, hnan, Bool.or_self, Bool.false_eq_true, if_false]
    rw [htext, fpField_eq, hneg]
    simp only
    rw [if_pos (by rw [Nat.zero_max]; exact hfit)]
    simp [layout, pad]
  · rw [length_append, length_append]
    show 2 + (0 + _) ≤ 60
    omega

/-- **Hexadecimal output.** Without a precision `strtold` reads a finite value back from its text,
and so does `strtod` if the value is a `double`; both consume the text to its end. With a precision
`p`, the field is a sign and a hexadecimal constant between blanks; the constant denotes the value
rounded to nearest, ties to even, at its `p`-th fraction digit. -/
theorem fmtHex_exact {y : LDouble} {neg : Bool} {x : ℚ} (hy : y.value = .finite neg x) :
    (∀ room, 64 ≤ room → (strtold (fmtFp y 0 (-1) {} .a room).2).value.value = .finite neg x ∧
      (strtold (fmtFp y 0 (-1) {} .a room).2).rest = []) ∧
    (Ffmt.dbl.format.Representable x → x ≤ Ffmt.dbl.format.maxFinite → ∀ room, 64 ≤ room →
      (strtod (fmtFp y 0 (-1) {} .a room).2).value = .finite neg x ∧
        (strtod (fmtFp y 0 (-1) {} .a room).2).rest = []) ∧
    ∀ (p w : ℕ) (fl : Flags) (room : ℕ), ∃ (n : ℕ) (X : ℤ) (l z r : ℕ),
      let body := hexadecimalText fl.alt fl.upper n p X
      let text := layout fl w (signPart neg fl ++ hexMark fl.upper) body
      let len := max w ((signPart neg fl ++ hexMark fl.upper).length + body.length)
      fmtFp y w p fl .a room = (len, if len ≤ room then text else []) ∧
        text = pad ' ' l ++ signPart neg fl ++ (hexMark fl.upper ++ (pad '0' z ++ body)) ++
          pad ' ' r ∧
        IsHexadecimal (hexMark fl.upper ++ (pad '0' z ++ body)) n (X - 4 * p) ∧
        (n : ℚ) * 2 ^ (X - 4 * p) = roundAtBit x (Int.log 2 x - 4 * p) := by
  obtain ⟨hx0, hrep, hmax⟩ := finite_representable hy
  have hparse : ∀ (F : Ffmt) (room : ℕ), 64 ≤ room →
      (parse (fmtFp y 0 (-1) {} .a room).2 F).value.value = F.format.round neg x ∧
        (parse (fmtFp y 0 (-1) {} .a room).2 F).rest = [] := by
    intro F room hroom
    obtain ⟨t, n, e, hs, ht, hval, hlen⟩ := fmtFp_hex hy hroom
    obtain ⟨h1, h2⟩ :=
      parse_hexadecimal (leads_signPart neg (.inr (.inl ⟨n, e, ht⟩)) (by omega)) ht F
    rw [hval] at h1
    rw [hs]
    exact ⟨h1, by simpa using h2⟩
  refine ⟨fun room hroom => ?_, fun hd hdmax room hroom => ?_, fun p w fl room => ?_⟩
  · obtain ⟨h1, h2⟩ := hparse .ldbl room hroom
    unfold strtold
    rw [h1, round_eq_finite neg hx0 hrep hmax]
    exact ⟨rfl, h2⟩
  · obtain ⟨h1, h2⟩ := hparse .dbl room hroom
    unfold strtod
    simp only
    rw [h1, convert_round neg hx0, round_eq_finite neg hx0 hd hdmax]
    exact ⟨rfl, h2⟩
  · obtain ⟨hneg, hinf, hnan, hx, hm, -, -⟩ := ldSplit_finite hy
    obtain ⟨n, q, X, htext, hlead, -, hexact, -⟩ :=
      fmtHex_eq hm w p fl (signPart (ldSplit y).neg fl) room
    obtain ⟨hq, hval⟩ := hexact (by omega)
    obtain rfl : q = p := by exact_mod_cast hq
    rw [hneg] at htext
    have hfield : fmtFp y w q fl .a room = fpField fl w room (signPart neg fl ++ hexMark fl.upper)
        (hexadecimalText fl.alt fl.upper n q X) := by
      unfold fmtFp
      simp only [hinf, hnan, hneg, Bool.or_self, Bool.false_eq_true, if_false]
      exact htext
    obtain ⟨l, z, r, hlayout⟩ := layout_eq fl w (signPart neg fl ++ hexMark fl.upper)
      (hexadecimalText fl.alt fl.upper n q X)
    refine ⟨n, X, l, z, r, by rw [hfield, fpField_eq], ?_,
      isHexadecimal_hexadecimalText fl.alt fl.upper (lt_pow_of_div hlead) X z, ?_⟩
    · rw [hlayout]
      simp only [append_assoc]
    · rw [hval, hx]

/-- Three quarters of the way from one to two, with one digit and without a precision. -/
theorem fmtHex_exact_seven_quarters :
    (∀ room, 64 ≤ room →
        (strtold (fmtFp ⟨0xe000000000000000, 0x3fff⟩ 0 (-1) {} .a room).2).value.value =
        .finite false (7 / 4) ∧
      (strtold (fmtFp ⟨0xe000000000000000, 0x3fff⟩ 0 (-1) {} .a room).2).rest = []) ∧
    ∃ (n : ℕ) (X : ℤ), (n : ℚ) * 2 ^ (X - 4 * (1 : ℕ)) =
      roundAtBit (7 / 4) (Int.log 2 (7 / 4 : ℚ) - 4 * (1 : ℕ)) :=
  have hy :
      (LDouble.mk 0xe000000000000000 0x3fff).value = .finite false (7 / 4) := by decide +kernel
  have h := fmtHex_exact hy
  have ⟨n, X, _, _, _, _, _, _, hval⟩ := h.2.2 1 0 {} 100
  ⟨h.1, n, X, hval⟩

end Citadel.Number
