import Citadel.Number.DecimalText

/-!
# Decimal output is exact

The texts that `fmt_fp` computes from the rounding state are the decimal notations of the rounded
value.

* `fmtE_eq`, `fmtF_eq`: the two styles, read off the state.
* `fmtFp_exact`: the field of a conversion of a finite value.
-/

namespace Citadel.Number

open Citadel.Lib.Rounding Citadel.Lib.Positional List

/-! ## Texts from digits -/

variable {p n : ℕ} {f : ℕ → ℕ}

theorem map_digit (h : ∀ i < p, f i = n / 10 ^ (p - 1 - i) % 10) :
    (List.range p).map (fun i => digitChar (f i)) = digitText p n := by
  unfold digitText expand
  rw [map_map]
  exact map_congr_left fun i hi => by rw [h i (mem_range.mp hi), Function.comp]

theorem digitText_one (n : ℕ) : digitText 1 n = [digitChar (n % 10)] := by
  simp [digitText, expand]

theorem numberText_of_lt (h : n < 10) : numberText n = [digitChar n] := by
  unfold numberText
  rw [Nat.log_of_lt h, digitText_one, Nat.mod_eq_of_lt h]

theorem numberText_eq (n : ℕ) (h : 10 ≤ n) :
    numberText n = numberText (n / 10) ++ [digitChar (n % 10)] := by
  have h1 : Nat.log 10 n = Nat.log 10 (n / 10) + 1 := by
    have := Nat.log_pos (by norm_num : 1 < 10) h
    rw [Nat.log_div_base]
    omega
  unfold numberText
  rw [h1, digitText_add, pow_one, digitText_one]

theorem expDigits_eq (ux : ℕ) (acc : List UInt8) : expDigits ux acc = numberText ux ++ acc := by
  induction ux using Nat.strong_induction_on generalizing acc with
  | _ ux ih =>
    unfold expDigits
    split_ifs with h
    · have hlt : ux < 10 := by omega
      rw [numberText_of_lt hlt, Nat.mod_eq_of_lt hlt]
      rfl
    · rw [ih (ux / 10) (by omega), numberText_eq ux (by omega), append_assoc]
      rfl

theorem zeros_append_numberText (z n : ℕ) :
    pad '0' z ++ numberText n = digitText (z + (Nat.log 10 n + 1)) n := by
  rw [digitText_add, Nat.div_eq_of_lt (Nat.lt_pow_succ_log_self (by norm_num) n)]
  unfold numberText pad
  rw [show digitText z 0 = List.replicate z '0'.toUInt8 by
    have h := expand_mul_pow (b := 10) (by norm_num) z 0
    rw [Nat.zero_mul] at h
    unfold digitText
    rw [h, map_replicate]
    rfl]

theorem expStr_eq (X : ℤ) (mark : Char) (k : ℕ) : expStr X mark k = exponentText mark k X := by
  unfold expStr exponentText
  simp only
  rw [expDigits_eq, append_nil, zeros_append_numberText]
  congr 4
  unfold numberText
  rw [length_digitText]
  omega

theorem stripFrac_eq (h : ∀ i, 1 ≤ i → i ≤ p → f i = n / 10 ^ (p - i) % 10) :
    stripFrac f p = (stripZeros n p).2 ∧ ∀ i, 1 ≤ i → i ≤ (stripZeros n p).2 →
        f i = (stripZeros n p).1 / 10 ^ ((stripZeros n p).2 - i) % 10 := by
  induction p generalizing n with
  | zero => exact ⟨rfl, fun i h1 h2 => absurd h2 (by simp [stripZeros]; omega)⟩
  | succ p ih =>
    have hlast := h (p + 1) (by omega) le_rfl
    rw [Nat.sub_self, pow_zero, Nat.div_one] at hlast
    simp only [stripFrac, stripZeros]
    rw [hlast]
    split_ifs with h0
    · refine ih fun i h1 h2 => ?_
      rw [h i h1 (by omega), Nat.div_div_eq_div_mul, ← pow_succ',
        show p - i + 1 = p + 1 - i by omega]
    · exact ⟨rfl, fun i h1 h2 => h i h1 h2⟩

theorem fraction_eq (fl : Flags) (strip : Bool)
    (h : ∀ i, 1 ≤ i → i ≤ p → f i = n / 10 ^ (p - i) % 10) :
    fraction fl (if strip then stripFrac f p else p) f =
      fractionText fl.alt (shorten (!strip) n p).2 (shorten (!strip) n p).1 := by
  obtain ⟨q, m, hq, hm, hf⟩ : ∃ q m, (if strip then stripFrac f p else p) = q ∧
      shorten (!strip) n p = (m, q) ∧ ∀ i, 1 ≤ i → i ≤ q → f i = m / 10 ^ (q - i) % 10 := by
    rcases strip with _ | _
    · exact ⟨p, n, rfl, rfl, h⟩
    · obtain ⟨h1, h2⟩ := stripFrac_eq h
      exact ⟨(stripZeros n p).2, (stripZeros n p).1, h1, rfl, h2⟩
  rw [hq, hm]
  unfold fraction fractionText
  congr 1
  refine map_digit fun i hi => ?_
  rw [hf (i + 1) (by omega) (by omega)]
  congr 3
  omega

/-! ## Scientific style -/

section Styles

variable {d : Dec} {N : ℕ} {x : ℚ}

theorem Expands.x_pos (h : Expands d N x) : 0 < x := by
  have : 0 < N := Nat.pos_of_ne_zero h.pos
  rw [h.value]
  positivity

theorem Expands.log_eq (h : Expands d N x) : Int.log 10 x = d.E0 - 1 := by
  obtain ⟨hlo, hhi, h1⟩ := h.bounds
  have h2 : ((10 : ℕ) : ℚ) ^ (d.E0 - 1) ≤ x := by
    rw [h.value, show d.E0 - 1 = ((d.nd.toNat - 1 : ℕ) : ℤ) + (d.E0 - d.nd) by omega,
      zpow_add₀ (by norm_num), zpow_natCast]
    push_cast
    gcongr
    exact_mod_cast hlo
  have h3 : x < ((10 : ℕ) : ℚ) ^ d.E0 := by
    rw [h.value]
    conv_rhs => rw [show d.E0 = ((d.nd.toNat : ℕ) : ℤ) + (d.E0 - d.nd) by omega,
      zpow_add₀ (by norm_num), zpow_natCast]
    push_cast
    gcongr
    exact_mod_cast hhi
  rw [Int.zpow_le_iff_le_log (by norm_num) h.x_pos] at h2
  rw [Int.lt_zpow_iff_log_lt (by norm_num) h.x_pos] at h3
  omega

theorem Expands.scientific (h : Expands d N x) (p : ℕ) :
    (decRound d (p + 1 : ℕ)).E - 1 = (scientific x p).2 ∧ ∀ i : ℕ, i ≤ p →
      rdig (decRound d (p + 1 : ℕ)) i = (Number.scientific x p).1 / 10 ^ (p - i) % 10 := by
  obtain ⟨hreads, hE⟩ := h.reads (p + 1)
  have hk : d.E0 - (p + 1 : ℕ) = Int.log 10 x - p := by
    rw [h.log_eq]
    omega
  unfold Number.scientific
  rw [if_neg h.x_pos.ne']
  simp only
  rw [hk] at hreads hE
  rcases hE with ⟨hE, hlt, -⟩ | ⟨hE, heq⟩
  · rw [if_neg hlt.ne, h.log_eq]
    refine ⟨by rw [hE], fun i hi => ?_⟩
    rw [hreads i, h.log_eq, if_pos (by omega)]
    congr 3
    omega
  · rw [if_pos heq, h.log_eq]
    refine ⟨by rw [hE]; ring, fun i hi => ?_⟩
    rw [hreads i, heq, if_pos (by rw [h.log_eq]; omega), h.log_eq,
      show (10 : ℕ) ^ (p + 1) = 10 * 10 ^ p by ring,
      show ((decRound d (p + 1 : ℕ)).E - 1 - i - (d.E0 - 1 - p)).toNat = 1 + (p - i) by omega,
      pow_add, pow_one, Nat.mul_div_mul_left _ _ (by norm_num)]

theorem scientific_state (m : ℕ) (e : ℤ) (p : ℕ) :
    (if decide (m = 0) = true then 0 else (decRound (decInit m e) (p + 1)).E - 1) =
        (scientific (m * 2 ^ e) p).2 ∧
      ∀ i : ℕ, i ≤ p → rdig (decRound (decInit m e) (p + 1)) i =
        (scientific (m * 2 ^ e) p).1 / 10 ^ (p - i) % 10 := by
  by_cases hm : m = 0
  · subst hm
    obtain ⟨hreads, -⟩ := reads_zero e (p + 1) 0
    rw [Nat.cast_zero, zero_mul]
    refine ⟨rfl, fun i _ => ?_⟩
    rw [hreads i, Nat.zero_div, Nat.zero_mod, ite_self]
    simp [scientific]
  · obtain ⟨N, hN⟩ := expands_decInit hm e
    rw [if_neg (by simpa using hm)]
    exact hN.scientific p

theorem fmtE_eq (m : ℕ) (e : ℤ) (strip : Bool) (p : ℕ) (fl : Flags) :
    fmtE (decInit m e) (decide (m = 0)) strip p fl =
      scientificText fl.alt fl.upper (shorten (!strip) (scientific (m * 2 ^ e) p).1 p).1
        (shorten (!strip) (scientific (m * 2 ^ e) p).1 p).2 (scientific (m * 2 ^ e) p).2 := by
  obtain ⟨hX, hdig⟩ := scientific_state m e p
  generalize scientific (m * 2 ^ e) p = r at hX hdig
  unfold fmtE scientificText
  simp only [Int.toNat_natCast]
  rw [hX, expStr_eq, fraction_eq fl strip fun i _ hi => hdig i hi, digitText_one, shorten_div]
  have := hdig 0 (Nat.zero_le p)
  rw [Nat.cast_zero] at this
  rw [this, Nat.sub_zero]
  rfl

/-! ## Fixed style -/

variable {p : ℕ}

theorem Reads.integer (h : Reads d n (-p))
    (hE : d.E = Nat.log 10 (n / 10 ^ p) + 1 ∨ d.E ≤ 0 ∧ n < 10 ^ p) :
    (if d.E > 0 then (List.range d.E.toNat).map fun i : ℕ => digitChar (rdig d i)
      else [digitChar 0]) = numberText (n / 10 ^ p) := by
  rcases hE with hE | ⟨hE, hlt⟩
  · rw [if_pos (by omega)]
    unfold numberText
    rw [show Nat.log 10 (n / 10 ^ p) + 1 = d.E.toNat by omega]
    refine map_digit fun i hi => ?_
    rw [h i, if_pos (by omega), Nat.div_div_eq_div_mul, ← pow_add]
    congr 3
    omega
  · rw [if_neg (by omega), Nat.div_eq_of_lt hlt, numberText_of_lt (by norm_num)]

theorem Expands.fixed (h : Expands d N x) {K : ℕ} (hK : (K : ℤ) = d.E0 + p) :
    Reads (decRound d K) (roundEven (x / 10 ^ (-p : ℤ))) (-p) ∧
      ((decRound d K).E = Nat.log 10 (roundEven (x / 10 ^ (-p : ℤ)) / 10 ^ p) + 1 ∨
        (decRound d K).E ≤ 0 ∧ roundEven (x / 10 ^ (-p : ℤ)) < 10 ^ p) := by
  obtain ⟨hreads, hE⟩ := h.reads K
  rw [show d.E0 - K = -(p : ℤ) by omega] at hreads hE
  refine ⟨hreads, ?_⟩
  generalize roundEven (x / 10 ^ (-p : ℤ)) = n at hE
  rcases hE with ⟨hE, hlt, hge⟩ | ⟨hE, rfl⟩
  · rcases lt_or_ge 0 d.E0 with h0 | h0
    · left
      have : Nat.log 10 (n / 10 ^ p) = d.E0.toNat - 1 := by
        refine Nat.log_eq_of_pow_le_of_lt_pow ?_ ?_
        · rw [Nat.le_div_iff_mul_le (by positivity), ← pow_add]
          convert hge (by omega) using 2
          omega
        · rw [Nat.div_lt_iff_lt_mul (by positivity), ← pow_add]
          convert hlt using 2
          omega
      omega
    · right
      exact ⟨by omega, hlt.trans_le (Nat.pow_le_pow_right (by norm_num) (by omega))⟩
  · rcases lt_or_ge d.E0 0 with h0 | h0
    · right
      exact ⟨by omega, Nat.pow_lt_pow_right (by norm_num) (by omega)⟩
    · left
      rw [Nat.pow_div (by omega) (by norm_num), Nat.log_pow (by norm_num)]
      omega

theorem roundEven_of_lt {y : ℚ} (h0 : 0 ≤ y) (h1 : y < 1 / 2) : roundEven y = 0 := by
  have := roundEven_add 0 h0 (by linarith)
  rwa [Nat.cast_zero, zero_add, if_pos h1] at this

theorem fixed_state (m : ℕ) (e : ℤ) (hp : (decInit m e).E0 + p ≤ INT_MAX) {d' : Dec}
    (hd' : d' = if decide (m = 0) = true ∨ (decInit m e).E0 + p < 0 then decRound (decInit m e) (-1)
      else decRound (decInit m e)
        (if (decInit m e).E0 + p > INT_MAX then INT_MAX else (decInit m e).E0 + p)) :
    Reads d' (roundEven (m * 2 ^ e / 10 ^ (-p : ℤ))) (-p) ∧
      (d'.E = Nat.log 10 (roundEven (m * 2 ^ e / 10 ^ (-p : ℤ)) / 10 ^ p) + 1 ∨
        d'.E ≤ 0 ∧ roundEven (m * 2 ^ e / 10 ^ (-p : ℤ)) < 10 ^ p) := by
  subst hd'
  by_cases hm : m = 0
  · subst hm
    obtain ⟨hreads, hE⟩ := reads_zero e (-1) (-p)
    rw [if_pos (.inl (decide_eq_true rfl)), Nat.cast_zero, zero_mul, zero_div,
      roundEven_of_lt le_rfl (by norm_num)]
    refine ⟨hreads, .inl ?_⟩
    rw [hE, Nat.zero_div, Nat.log_zero_right]
    rfl
  · obtain ⟨N, hN⟩ := expands_decInit hm e
    by_cases h0 : (decInit m e).E0 + p < 0
    · rw [if_pos (.inr h0)]
      obtain ⟨hreads, hE⟩ := reads_neg (decInit m e) (by norm_num : (-1 : ℤ) < 0) (-p)
      have hsmall : roundEven (m * 2 ^ e / 10 ^ (-p : ℤ)) = 0 := by
        refine roundEven_of_lt (by positivity) ?_
        have hlt := (ten_zpow_log_le hN.x_pos).2
        rw [hN.log_eq, sub_add_cancel] at hlt
        rw [div_lt_iff₀ (by positivity)]
        calc (m : ℚ) * 2 ^ e < 10 ^ (decInit m e).E0 := hlt
          _ ≤ 10 ^ (-p - 1 : ℤ) := zpow_le_zpow_right₀ (by norm_num) (by omega)
          _ = 1 / 10 * 10 ^ (-p : ℤ) := by rw [zpow_sub₀ (by norm_num)]; ring
          _ ≤ 1 / 2 * 10 ^ (-p : ℤ) := by gcongr; norm_num
      rw [hsmall]
      exact ⟨hreads, .inr ⟨by omega, by positivity⟩⟩
    · obtain ⟨K, hK⟩ := Int.eq_ofNat_of_zero_le (not_lt.mp h0)
      rw [if_neg (by simpa [hm] using h0), if_neg (by omega), hK]
      exact hN.fixed hK.symm

theorem fmtF_eq (m : ℕ) (e : ℤ) (strip : Bool) (hp : (decInit m e).E0 + p ≤ INT_MAX) (fl : Flags) :
    fmtF (decInit m e) (decide (m = 0)) strip p fl =
      fixedText fl.alt (shorten (!strip) (roundEven (m * 2 ^ e / 10 ^ (-p : ℤ))) p).1
        (shorten (!strip) (roundEven (m * 2 ^ e / 10 ^ (-p : ℤ))) p).2 := by
  obtain ⟨hreads, hE⟩ := fixed_state m e hp rfl
  unfold fmtF fixedText
  simp only [Int.toNat_natCast]
  generalize roundEven (m * 2 ^ e / 10 ^ (-p : ℤ)) = n at hreads hE
  rw [hreads.integer hE, shorten_div, fraction_eq fl strip fun i h1 hi => ?_]
  rw [hreads, if_pos (by omega)]
  congr 3
  omega

end Styles

/-! ## Rounding again -/

theorem decRound_state (d : Dec) (K : ℤ) :
    (decRound d K).L = d.L ∧ (decRound d K).nd = d.nd ∧ (decRound d K).E0 = d.E0 := by
  unfold decRound
  simp only
  split_ifs <;> exact ⟨rfl, rfl, rfl⟩

theorem decRound_decRound (d : Dec) (K K' : ℤ) : decRound (decRound d K) K' = decRound d K' := by
  obtain ⟨hL, hnd, hE0⟩ := decRound_state d K
  unfold decRound at hL hnd hE0 ⊢
  simp only at hL hnd hE0 ⊢
  rw [hL, hnd, hE0]

theorem fmtE_decRound (d : Dec) (K : ℤ) (zero strip : Bool) (p : ℤ) (fl : Flags) :
    fmtE (decRound d K) zero strip p fl = fmtE d zero strip p fl := by
  unfold fmtE
  rw [decRound_decRound]

theorem fmtF_decRound (d : Dec) (K : ℤ) (zero strip : Bool) (p : ℤ) (fl : Flags) :
    fmtF (decRound d K) zero strip p fl = fmtF d zero strip p fl := by
  unfold fmtF
  rw [decRound_decRound, decRound_decRound, (decRound_state d K).2.2]

/-! ## The field -/

theorem ldSplit_fields (y : LDouble) : decide (y.se >>> 15 ≠ 0) = y.sign ∧
    (y.se &&& 0x7fff).toNat = y.exponent ∧ (y.m >>> 63 = 0 ↔ y.m.toNat < 2 ^ 63) := by
  have hse : y.se.toNat < 2 ^ 16 := y.se.toNat_lt
  have hm : y.m.toNat < 2 ^ 64 := y.m.toNat_lt
  refine ⟨?_, ?_, ?_⟩
  · have h1 : (y.se >>> 15).toNat = y.se.toNat / 2 ^ 15 := by
      rw [UInt16.toNat_shiftRight, Nat.shiftRight_eq_div_pow]
      rfl
    unfold LDouble.sign
    rw [Nat.testBit_eq_decide_div_mod_eq, decide_eq_decide, ne_eq, ← UInt16.toNat_inj, h1]
    have h2 : y.se.toNat / 2 ^ 15 < 2 := by omega
    show ¬ y.se.toNat / 2 ^ 15 = 0 ↔ _
    omega
  · rw [UInt16.toNat_and]
    exact Nat.and_two_pow_sub_one_eq_mod _ 15
  · have h1 : (y.m >>> 63).toNat = y.m.toNat / 2 ^ 63 := by
      rw [UInt64.toNat_shiftRight, Nat.shiftRight_eq_div_pow]
      rfl
    rw [← UInt64.toNat_inj, h1]
    show y.m.toNat / 2 ^ 63 = 0 ↔ _
    omega

theorem ldSplit_finite {y : LDouble} {neg : Bool} {x : ℚ} (h : y.value = .finite neg x) :
    (ldSplit y).neg = neg ∧ (ldSplit y).inf = false ∧ (ldSplit y).nan = false ∧
      x = (ldSplit y).m * 2 ^ (ldSplit y).e ∧ (ldSplit y).m < 2 ^ 64 ∧ (ldSplit y).e ≤ 16320 ∧
      -16445 ≤ (ldSplit y).e := by
  obtain ⟨hsign, hex, hbit⟩ := ldSplit_fields y
  have hexlt : y.exponent < 2 ^ 15 := Nat.mod_lt _ (by norm_num)
  have hm : y.m.toNat < 2 ^ 64 := y.m.toNat_lt
  unfold LDouble.value at h
  unfold ldSplit
  simp only [hex, hbit, hsign]
  split_ifs at h ⊢ with h1 h2 h3 h4
  · cases h
    exact ⟨rfl, rfl, rfl, rfl, hm, by norm_num, by norm_num⟩
  · cases h
    refine ⟨rfl, rfl, rfl, ?_, hm, by simp only; omega, by simp only; omega⟩
    simp only
    congr 2
    ring

theorem E0_le {m : ℕ} {e : ℤ} (hm : m < 2 ^ 64) (he : e ≤ 16320) : (decInit m e).E0 ≤ 16385 := by
  by_cases h0 : m = 0
  · subst h0
    exact (by norm_num : (1 : ℤ) ≤ 16385)
  · obtain ⟨N, hN⟩ := expands_decInit h0 e
    by_contra hE
    have hlog := (ten_zpow_log_le hN.x_pos).1
    rw [hN.log_eq] at hlog
    have h1 : (10 : ℚ) ^ (16385 : ℤ) ≤ 10 ^ ((decInit m e).E0 - 1) :=
      zpow_le_zpow_right₀ (by norm_num) (by omega)
    have h2 : (m : ℚ) * 2 ^ e < 2 ^ (16385 : ℤ) :=
      (Format.mul_lt_two_zpow hm e).trans_le (Format.two_zpow_mono (by omega))
    have h3 : (2 : ℚ) ^ (16385 : ℤ) ≤ 10 ^ (16385 : ℤ) :=
      zpow_le_zpow_left₀ (by norm_num) (by norm_num) (by norm_num)
    exact absurd (h1.trans hlog) (not_le.mpr (h2.trans_le h3))

/-- A sign and a number in a field of width `w`: filled up with blanks on either side, or with zeros
behind the sign. -/
def layout (fl : Flags) (w : ℕ) (sign body : List UInt8) : List UInt8 :=
  let fill := w - (sign.length + body.length)
  if fl.left then sign ++ body ++ pad ' ' fill
  else if fl.zero then sign ++ pad '0' fill ++ body
  else pad ' ' fill ++ sign ++ body

theorem fpField_eq (fl : Flags) (w room : ℕ) (sign body : List UInt8) :
    fpField fl w room sign body = (max w (sign.length + body.length),
      if max w (sign.length + body.length) ≤ room then layout fl w sign body else []) := by
  have hfill : (if w > sign.length + body.length then w - (sign.length + body.length) else 0) =
      w - (sign.length + body.length) := by
    split_ifs <;> omega
  have hlen : sign.length + body.length + (w - (sign.length + body.length)) =
      max w (sign.length + body.length) := by
    omega
  unfold fpField layout
  simp only [hfill, hlen]
  by_cases hroom : max w (sign.length + body.length) ≤ room
  · rw [if_neg (by omega), if_pos hroom]
    rcases fl with ⟨_ | _, _, _, _, _ | _, _⟩ <;> simp
  · rw [if_pos (by omega), if_neg hroom]

/-- A field is a sign and a number between blanks; the number may begin with zeros. -/
theorem layout_eq (fl : Flags) (w : ℕ) (sign body : List UInt8) : ∃ l z r,
    layout fl w sign body = pad ' ' l ++ sign ++ (pad '0' z ++ body) ++ pad ' ' r := by
  unfold layout
  simp only
  split_ifs
  · exact ⟨0, 0, w - (sign.length + body.length), by simp [pad]⟩
  · exact ⟨0, w - (sign.length + body.length), 0, by simp [pad]⟩
  · exact ⟨w - (sign.length + body.length), 0, 0, by simp [pad]⟩

theorem IsDecimal.zeros {w : List UInt8} {e : ℤ} (h : IsDecimal w n e) (z : ℕ) :
    IsDecimal (pad '0' z ++ w) n e := by
  obtain ⟨wm, we, ip, fp, x, ⟨hip, hfp, hne, hwm⟩, hwe, rfl, hn, he⟩ := h
  have hz : ∀ c ∈ pad '0' z, isdigit c = true := by
    intro c hc
    rw [eq_of_mem_replicate hc]
    rfl
  refine ⟨pad '0' z ++ wm, we, pad '0' z ++ ip, fp, x, ⟨?_, hfp, ?_, ?_⟩, hwe, ?_, ?_, he⟩
  · exact forall_mem_append.mpr ⟨hz, hip⟩
  · rcases hne with hne | hne
    · exact .inl (by simp [hne])
    · exact .inr hne
  · rcases hwm with ⟨rfl, rfl⟩ | rfl
    · exact .inl ⟨rfl, rfl⟩
    · exact .inr (by rw [append_assoc])
  · rw [append_assoc]
  · rw [hn, append_assoc]
    induction z with
    | zero => rfl
    | succ z ih =>
      refine (ih ?_).trans rfl
      exact fun c hc => hz c (mem_cons_of_mem _ hc)

theorem fmtFp_eq {y : LDouble} {neg : Bool} {x : ℚ} (hy : y.value = .finite neg x) (w : ℕ) {p : ℤ}
    (hp : p ≤ 10 ^ 9) (fl : Flags) {t : Conv} (ht : t ≠ .a) (room : ℕ) :
    fmtFp y w p fl t room = fpField fl w room (signPart neg fl)
      (conversionText t fl.alt fl.upper (if p < 0 then 6 else p).toNat x) := by
  obtain ⟨hneg, hinf, hnan, hx, hm, he, -⟩ := ldSplit_finite hy
  have hE0 := E0_le hm he
  unfold fmtFp
  simp only [hneg, hinf, hnan, Bool.or_self, Bool.false_eq_true, if_false]
  generalize (ldSplit y).m = m at *
  generalize (ldSplit y).e = e at *
  obtain ⟨q, hq⟩ : ∃ q : ℕ, (if p < 0 then 6 else p) = (q : ℤ) :=
    ⟨(if p < 0 then 6 else p).toNat, by split_ifs <;> omega⟩
  have hq9 : (q : ℤ) ≤ 10 ^ 9 := by
    rw [← hq]
    split_ifs
    · norm_num
    · exact hp
  rw [hq, Int.toNat_natCast]
  rcases t with _ | _ | _ | _
  · exact absurd rfl ht
  · simp only
    rw [fmtE_eq, ← hx]
    rfl
  · simp only
    rw [fmtF_eq _ _ _ (by unfold INT_MAX; omega), ← hx]
    rfl
  · have hP : (if (q : ℤ) ≠ 0 then (q : ℤ) else 1) = ((significantDigits q - 1 : ℕ) : ℤ) + 1 ∧
        (significantDigits q : ℤ) = ((significantDigits q - 1 : ℕ) : ℤ) + 1 ∧
        (significantDigits q : ℤ) ≤ 10 ^ 9 := by
      unfold significantDigits
      split_ifs <;> omega
    obtain ⟨hP, hs, hs9⟩ := hP
    obtain ⟨hX, -⟩ := scientific_state m e (significantDigits q - 1)
    have hch : choosesFixed x q = true ↔
        ((significantDigits q - 1 : ℕ) : ℤ) + 1 > (scientific x (significantDigits q - 1)).2 ∧
          (scientific x (significantDigits q - 1)).2 ≥ -4 := by
      simp only [choosesFixed, hs, decide_eq_true_eq]
    simp only [conversionText]
    rw [hP, hX, fmtE_decRound, fmtF_decRound, ← hx]
    by_cases hfix : choosesFixed x q = true
    · have hfd : ((significantDigits q - 1 : ℕ) : ℤ) + 1 - 1 -
          (scientific x (significantDigits q - 1)).2 = (fixedDigits x q : ℕ) := by
        have := hch.mp hfix
        unfold fixedDigits
        omega
      have hfd9 : (fixedDigits x q : ℤ) ≤ 10 ^ 9 + 3 := by
        have := hch.mp hfix
        omega
      rw [if_pos (hch.mp hfix), if_pos hfix, hfd, fmtF_eq _ _ _ (by unfold INT_MAX; omega), ← hx,
        Bool.not_not]
    · rw [if_neg (fun h => hfix (hch.mpr h)), if_neg hfix, add_sub_cancel_right, fmtE_eq, ← hx,
        Bool.not_not]

/-- **Decimal output is exact.** For a finite value `x`, every precision up to `10 ^ 9` (a negative
one stands for the default of six), every width and all flags, the field is a sign and a number
between blanks. The number is a decimal constant that denotes `x` rounded to nearest, ties to even,
at the digit the conversion prescribes, in the notation of the conversion. -/
theorem fmtFp_exact {y : LDouble} {neg : Bool} {x : ℚ} (hy : y.value = .finite neg x)
    (w : ℕ) {p : ℤ}
    (hp : p ≤ 10 ^ 9) (fl : Flags) {t : Conv} (ht : t ≠ .a) (room : ℕ) :
    let q := (if p < 0 then 6 else p).toNat
    let body := conversionText t fl.alt fl.upper q x
    let len := max w ((signPart neg fl).length + body.length)
    fmtFp y w p fl t room = (len, if len ≤ room then layout fl w (signPart neg fl) body else []) ∧
      ∃ l z r n e,
        layout fl w (signPart neg fl) body =
          pad ' ' l ++ signPart neg fl ++ (pad '0' z ++ body) ++ pad ' ' r ∧
        IsDecimal (pad '0' z ++ body) n e ∧ (n : ℚ) * 10 ^ e = roundAt x (lastDigit t q x) := by
  intro q body len
  have hx : 0 ≤ x := by
    rw [(ldSplit_finite hy).2.2.2.1]
    positivity
  obtain ⟨n, e, hdec, hval⟩ := isDecimal_conversionText ht fl.alt fl.upper q hx
  obtain ⟨l, z, r, hlayout⟩ := layout_eq fl w (signPart neg fl) body
  exact ⟨by rw [fmtFp_eq hy w hp fl ht room, fpField_eq], l, z, r, n, e, hlayout,
    hdec.zeros z, hval⟩

/-- A half, with no fraction digits, in a field of width five that is filled with zeros. -/
theorem fmtFp_exact_half :
    let body := conversionText .f false false 0 (1 / 2)
    fmtFp ⟨0x8000000000000000, 0xbffe⟩ 5 0 { zero := true } .f 100 =
        (max 5 (1 + body.length),
          if max 5 (1 + body.length) ≤ 100 then
            layout { zero := true } 5 ['-'.toUInt8] body else []) ∧
      ∃ l z r n e,
        layout { zero := true } 5 ['-'.toUInt8] body =
          pad ' ' l ++ ['-'.toUInt8] ++ (pad '0' z ++ body) ++ pad ' ' r ∧
        IsDecimal (pad '0' z ++ body) n e ∧
        (n : ℚ) * 10 ^ e = roundAt (1 / 2) (lastDigit .f 0 (1 / 2)) :=
  have hy : (LDouble.mk 0x8000000000000000 0xbffe).value = .finite true (1 / 2) := by decide +kernel
  fmtFp_exact hy 5 (p := 0) (by norm_num) { zero := true } (t := .f) (by decide) 100

end Citadel.Number
