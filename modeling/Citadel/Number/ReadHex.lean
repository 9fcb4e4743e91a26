import Citadel.Number.Read

/-!
# Hexadecimal constants

The scanner keeps 124 significant bits of a hexadecimal constant and remembers whether anything
behind them was not zero.

* `HexScanned.digit`, `hexLoop_mantissa`: what the scanner knows after any number of digits.
* `parse_hexadecimal`: a hexadecimal constant is correctly rounded.
* `strtod_hexadecimal`: in a string of any length exactly if the digits of the exponent behind the
  ninth do not matter.
-/

namespace Citadel.Number

open Citadel.Lib.Rounding Citadel.Lib.Byte Citadel.Lib.Positional List Nat Format

/-! ## Digits -/

variable {c : UInt8} {w u : List UInt8} {n k : ℕ} {st : HexScan}

theorem hexByte_facts : ∀ c : UInt8, (isxdigit c = true →
    (hexDigit c).isSome = true ∧ (hexDigit c).getD 0 < 16 ∧ c ≠ '.'.toUInt8) ∧
    (isxdigit c = false → hexDigit c = none) ∧
    ((c ||| 32) = 'p'.toUInt8 → isxdigit c = false ∧ c ≠ '.'.toUInt8) :=
  forall_byte (by decide +kernel)

theorem hexDigit_facts (h : isxdigit c = true) :
    ∃ d < 16, hexDigit c = some d ∧ c ≠ '.'.toUInt8 := by
  have hP := (hexByte_facts c).1 h
  obtain ⟨d, hd⟩ := Option.isSome_iff_exists.mp hP.1
  rw [hd] at hP
  exact ⟨d, hP.2.1, hd, hP.2.2⟩

theorem hexValue_eq (w : List UInt8) :
    hexValue w = horner 16 (w.map fun c => (hexDigit c).getD 0) := by
  rw [horner, foldl_map]
  rfl

theorem hexValue_append (a b : List UInt8) :
    hexValue (a ++ b) = hexValue a * 16 ^ b.length + hexValue b := by
  simp only [hexValue_eq, map_append, horner_append, length_map]

theorem hexValue_replicate (z : ℕ) (w : List UInt8) :
    hexValue (List.replicate z '0'.toUInt8 ++ w) = hexValue w := by
  induction z with
  | zero => rfl
  | succ z ih => exact ih

theorem hexValue_lt (h : ∀ c ∈ w, isxdigit c = true) : hexValue w < 16 ^ w.length := by
  rw [hexValue_eq, ← length_map (fun c => (hexDigit c).getD 0)]
  refine horner_lt fun d hd => ?_
  obtain ⟨c, hc, rfl⟩ := mem_map.mp hd
  exact ((hexByte_facts c).1 (h c hc)).2.1

/-! ## The scanner -/

/-- After the digits of `n`, the last `k` of them behind the point: `Q` holds the first digits, `D`
more were dropped with the value `r`. -/
structure HexScanned (n k : ℕ) (st : HexScan) : Prop where
  bits_le : st.bits ≤ 124
  dvd_bits : 4 ∣ st.bits
  lt : st.Q < 2 ^ st.bits
  le : st.Q ≠ 0 → 2 ^ st.bits ≤ 16 * st.Q
  zero : st.Q = 0 → st.bits = 0
  kept : ∃ D r : ℕ, n = st.Q * 16 ^ D + r ∧ r < 16 ^ D ∧ (st.sticky = true ↔ r ≠ 0) ∧
    st.e = 4 * D - 4 * k ∧ (D ≠ 0 → st.bits = 124)

theorem hexScanned_init : HexScanned 0 0 {} :=
  ⟨by decide, by decide, by decide, fun h => absurd rfl h, fun _ => rfl,
    0, 0, rfl, by decide, by decide, rfl, fun h => absurd rfl h⟩

theorem HexScanned.digit {d : ℕ} (h : HexScanned n k st) (hd : d < 16) :
    HexScanned (n * 16 + d) (k + if st.dot then 1 else 0) (st.digit d) := by
  obtain ⟨hle, hdvd, hlt, hge, hz, D, r, hn, hr, hst, he, hD⟩ := h
  have he' : (if st.dot = true then st.e - 4 else st.e) =
      4 * (D : ℤ) - 4 * ((k + if st.dot = true then 1 else 0 : ℕ) : ℤ) := by
    split_ifs <;> push_cast <;> omega
  have hall : st.bits < 124 → D = 0 ∧ r = 0 := by
    intro h1
    obtain rfl : D = 0 := by
      by_contra hD0
      exact h1.ne (hD hD0)
    exact ⟨rfl, by simpa using hr⟩
  unfold HexScan.digit
  by_cases h0 : st.Q = 0 ∧ d = 0
  · -- a leading zero
    rw [if_pos h0]
    obtain ⟨rfl, rfl⟩ := hall (by rw [hz h0.1]; decide)
    refine ⟨hle, hdvd, hlt, hge, hz, 0, 0, ?_, by simp, hst, he', fun h => absurd rfl h⟩
    rw [hn, h0.1, h0.2]
    rfl
  rw [if_neg h0]
  by_cases h1 : st.bits < 124
  · -- a digit that is kept
    rw [if_pos h1]
    obtain ⟨rfl, rfl⟩ := hall h1
    have hn' : n = st.Q := by rw [hn, pow_zero, Nat.mul_one, Nat.add_zero]
    have hQ : st.Q < 2 ^ 120 :=
      hlt.trans_le (Nat.pow_le_pow_right (by norm_num) (by omega))
    have hQ' : (st.Q <<< 4) % 2 ^ 128 ||| d = st.Q * 16 + d := by
      rw [mod_eq_of_lt (by rw [shiftLeft_eq]; omega),
        ← shiftLeft_add_eq_or_of_lt (by norm_num; exact hd), shiftLeft_eq]
    have hpow : 2 ^ (st.bits + 4) = 2 ^ st.bits * 16 := by ring
    refine ⟨by simp only; omega, by simp only; omega, ?_, ?_, ?_, 0, 0, ?_, by simp, hst, he',
      fun h => absurd rfl h⟩
    · simp only
      rw [hQ', hpow]
      omega
    · simp only
      rw [hQ', hpow]
      intro hne
      by_cases hQ0 : st.Q = 0
      · rw [hz hQ0]
        omega
      · have := hge hQ0
        omega
    · simp only
      rw [hQ']
      omega
    · simp only
      rw [hQ', hn']
      simp
  · -- a digit that is dropped
    rw [if_neg h1]
    have hb : st.bits = 124 := by omega
    refine ⟨hle, hdvd, hlt, hge, hz, D + 1, r * 16 + d, ?_, ?_, ?_, ?_, fun _ => hb⟩
    · rw [hn, pow_succ]
      ring
    · rw [pow_succ]
      omega
    · simp only [Bool.or_eq_true, hst, decide_eq_true_eq]
      omega
    · simp only
      split_ifs at he' ⊢ <;> push_cast at he' ⊢ <;> omega

theorem hexLoop_mantissa : MantissaLoop isxdigit HexScan.dot
    (fun ds k st => HexScanned (hexValue ds) k st) hexLoop where
  next {ds k st c} hi hc := by
    obtain ⟨d, hd, hcd, hdot⟩ := hexDigit_facts hc
    refine ⟨st.digit d, fun u => by rw [hexLoop, if_neg fun h => hdot h.1, hcd], ?_, ?_⟩
    · unfold HexScan.digit
      split_ifs <;> rfl
    · rw [hexValue_append]
      simpa [hexValue, hcd] using hi.digit hd
  point {ds k st} hi hdot := ⟨{ st with dot := true }, fun u => by rw [hexLoop, if_pos ⟨rfl, hdot⟩],
    rfl, { hi with }⟩
  stop {st u} h := by
    rcases u with _ | ⟨c, r⟩
    · rfl
    · obtain ⟨h1, h2⟩ := h c r rfl
      rw [hexLoop, if_neg fun hc => h2 hc.2 hc.1, (hexByte_facts c).2.1 h1]

/-! ## From the scanner to the number -/

variable {F : Ffmt} {neg : Bool}

theorem format_bounds (F : Ffmt) : (F.format.prec : ℤ) + F.format.emax ≤ 16384 ∧
    -16445 ≤ F.format.emin ∧ F.format.prec ≤ 64 := by
  rcases F with _ | _ | _ <;> decide

theorem round_of_large {x : ℚ} {y : ℤ} (hy : 16384 ≤ y) (hx : (2 : ℚ) ^ y ≤ x) :
    F.format.round neg x = .inf neg := by
  refine round_overflow neg ((two_zpow_mono ?_).trans hx)
  exact (format_bounds F).1.trans hy

theorem round_of_small {x : ℚ} {y : ℤ} (hy : y ≤ -16446) (h0 : 0 ≤ x) (hx : x < (2 : ℚ) ^ y) :
    F.format.round neg x = .finite neg 0 := by
  refine round_underflow neg h0 (hx.trans_le (two_zpow_mono ?_))
  have := (format_bounds F).2.1
  omega

theorem sameRange_saturated_hex {l : ℕ} (hn : n < 16 ^ l) (hl : l ≤ 10000000)
    (hk : k ≤ 10000000) (E : ℤ) :
    SameRange ((n : ℚ) * 2 ^ (readExponent E - 4 * k)) (n * 2 ^ (E - 4 * k)) := by
  rcases Nat.eq_zero_or_pos n with rfl | hpos
  · exact .inl (by simp)
  have hn1 : (1 : ℚ) ≤ n := by exact_mod_cast hpos
  have hpow : ∀ j : ℕ, (10 : ℚ) ^ j ≤ 2 ^ (4 * j) := by
    intro j
    rw [pow_mul]
    exact pow_le_pow_left₀ (by norm_num) (by norm_num) j
  have hbig : (10 : ℚ) ^ (4934 : ℤ) ≤ 2 ^ (20000 : ℤ) :=
    (show (10 : ℚ) ^ (4934 : ℤ) ≤ 2 ^ ((4 * 4934 : ℕ) : ℤ) from hpow 4934).trans
      (two_zpow_mono (by decide))
  have hsmall : (2 : ℚ) ^ (-20000 : ℤ) ≤ 10 ^ (-4954 : ℤ) := by
    rw [zpow_neg, zpow_neg]
    refine inv_anti₀ (ten_zpow_pos _) ?_
    exact (show (10 : ℚ) ^ (4954 : ℤ) ≤ 2 ^ ((4 * 4954 : ℕ) : ℤ) from hpow 4954).trans
      (two_zpow_mono (by decide))
  refine sameRange_readExponent (f := fun y => n * 2 ^ (y - 4 * k)) E (fun y hy => ?_) fun y hy =>
    ⟨?_, ?_⟩
  · exact (hbig.trans (two_zpow_mono (by omega))).trans
      (le_mul_of_one_le_left (two_zpow_pos _).le hn1)
  · exact mul_pos (by linarith) (two_zpow_pos _)
  · have h1 : n < 2 ^ (4 * l) := by
      rw [pow_mul]
      exact hn
    exact (mul_lt_two_zpow h1 _).trans_le ((two_zpow_mono (by omega)).trans hsmall)

theorem two_zpow_hex {a b : ℤ} {q : ℕ} (h : a = 4 * q + b) :
    (2 : ℚ) ^ a = ((16 ^ q : ℕ) : ℚ) * 2 ^ b := by
  rw [h, show (4 * q + b : ℤ) = ((4 * q : ℕ) : ℤ) + b by push_cast; rfl,
    two_zpow_natCast_add, pow_mul]
  norm_num

section

variable (h : HexScanned n k st)
include h

/-- What the scanner found lies within one unit of its last bit. -/
theorem HexScanned.window (x : ℤ) : (st.Q : ℚ) * 2 ^ (st.e + x) ≤ n * 2 ^ (x - 4 * k) ∧
      (n : ℚ) * 2 ^ (x - 4 * k) < (st.Q + 1) * 2 ^ (st.e + x) ∧
      (st.sticky = true ↔ (n : ℚ) * 2 ^ (x - 4 * k) ≠ st.Q * 2 ^ (st.e + x)) := by
  obtain ⟨D, r, hn, hr, hst, he, -⟩ := h.kept
  have hpow := two_zpow_hex (a := st.e + x) (b := x - 4 * k) (q := D) (by omega)
  have hpos := two_zpow_pos (x - 4 * k)
  have hr' : (r : ℚ) < ((16 ^ D : ℕ) : ℚ) := by exact_mod_cast hr
  have hn' : (n : ℚ) = st.Q * ((16 ^ D : ℕ) : ℚ) + r := by exact_mod_cast hn
  rw [hpow, hn']
  generalize ((16 ^ D : ℕ) : ℚ) = B at hr'
  generalize (2 : ℚ) ^ (x - 4 * k) = p at hpos
  refine ⟨by nlinarith, by nlinarith, ?_⟩
  rw [hst]
  have hz : ((st.Q : ℚ) * B + r) * p ≠ st.Q * (B * p) ↔ (r : ℚ) ≠ 0 := by
    rw [not_iff_not, ← mul_assoc, mul_left_inj' hpos.ne']
    constructor
    · intro h
      linarith
    · intro h
      linarith
  rw [hz, cast_ne_zero]

theorem HexScanned.Q_eq_zero (hQ : st.Q = 0) : n = 0 := by
  obtain ⟨D, r, hn, hr, -, -, hD⟩ := h.kept
  have hb := h.zero hQ
  obtain rfl : D = 0 := by
    by_contra hD0
    have := hD hD0
    omega
  have : r = 0 := by simpa using hr
  rw [hn, hQ, this]
  rfl

theorem HexScanned.prec_lt_size (hQ : st.Q ≠ 0)
    (F : Ffmt) (hs : st.sticky = true) : F.format.prec < st.Q.size := by
  obtain ⟨D, r, -, hr, hst, -, hD⟩ := h.kept
  have hb : st.bits = 124 := by
    refine hD fun hD0 => hst.mp hs ?_
    rw [hD0] at hr
    simpa using hr
  have hge := h.le hQ
  have hlt : 2 ^ 64 ≤ st.Q := by
    rw [hb] at hge
    omega
  exact (format_bounds F).2.2.trans_lt (lt_size.mpr hlt)

/-- The end of the hexadecimal branch: the value and whether `errno` is set. -/
def hexResult (st : HexScan) (e : ℤ) (F : Ffmt) (neg : Bool) : LDouble × Bool :=
  if e > 100000 then (if st.Q = 0 then (makeLd 0 0 neg, false) else (makeInf neg, true))
  else if e < -100000 then (makeLd 0 0 neg, decide (st.Q ≠ 0))
  else roundTo st.Q e st.sticky F neg

/-- A number beyond the clamps of the exponent is out of range. -/
theorem HexScanned.clamped (hQ : st.Q ≠ 0) (x : ℤ) (F : Ffmt) (neg : Bool) :
    (st.e + x > 100000 → F.format.round neg (n * 2 ^ (x - 4 * k)) = .inf neg) ∧
    (st.e + x < -100000 → F.format.round neg (n * 2 ^ (x - 4 * k)) = .finite neg 0) := by
  obtain ⟨hlo, hhi, -⟩ := h.window x
  have hQlt : st.Q < 2 ^ 124 := h.lt.trans_le (Nat.pow_le_pow_right (by norm_num) h.bits_le)
  have hQ1 : (1 : ℚ) ≤ st.Q := by exact_mod_cast one_le_iff_ne_zero.mpr hQ
  have hpos := two_zpow_pos (st.e + x)
  constructor
  · intro h1
    exact round_of_large (y := st.e + x) (by omega)
      ((le_mul_of_one_le_left hpos.le hQ1).trans hlo)
  · intro h2
    refine round_of_small (y := ((124 : ℕ) : ℤ) + (st.e + x)) (by omega)
      (mul_nonneg (cast_nonneg _) (two_zpow_pos _).le) (hhi.trans_le ?_)
    exact_mod_cast mul_le_two_zpow (m := st.Q + 1) hQlt (st.e + x)

/-- **The end of the hexadecimal branch rounds the scanned number.** -/
theorem HexScanned.value (x : ℤ) :
    (hexResult st (st.e + x) F neg).1.value = F.format.round neg (n * 2 ^ (x - 4 * k)) := by
  obtain ⟨hlo, hhi, hst⟩ := h.window x
  have hQlt : st.Q < 2 ^ 124 := h.lt.trans_le (Nat.pow_le_pow_right (by norm_num) h.bits_le)
  unfold hexResult
  by_cases hQ : st.Q = 0
  · have hz : roundTo st.Q (st.e + x) st.sticky F neg = (makeLd 0 0 neg, false) := by
      unfold roundTo
      rw [if_pos hQ]
    rw [if_pos hQ, hz, h.Q_eq_zero hQ, cast_zero, zero_mul,
      round_underflow neg le_rfl (two_zpow_pos _)]
    split_ifs <;> exact value_makeLd_zero 0 neg
  rw [if_neg hQ]
  split_ifs with h1 h2
  · rw [value_makeInf, (h.clamped hQ x F neg).1 h1]
  · rw [value_makeLd_zero, (h.clamped hQ x F neg).2 h2]
  · exact value_roundTo hQ (hQlt.trans (by norm_num)) hlo hhi hst (h.prec_lt_size hQ F) neg

end

theorem hexStart_of_mantissa {wm ip fp : List UInt8} (hc : (c ||| 32) = 'x'.toUInt8)
    (hm : Mantissa isxdigit wm ip fp) : hexStart ('0'.toUInt8 :: c :: (wm ++ u)) = true := by
  obtain ⟨hip, hfp, hne, hwm⟩ := hm
  unfold hexStart
  rcases ip with _ | ⟨a, ip⟩
  · rcases hwm with ⟨rfl, rfl⟩ | rfl
    · simp at hne
    · rcases fp with _ | ⟨b, fp⟩
      · simp at hne
      · simp [hc, hfp b mem_cons_self]
  · have ha := hip a mem_cons_self
    rcases hwm with ⟨rfl, rfl⟩ | rfl <;> simp [hc, ha]

/-- **The scan of a string whose longest numeral is hexadecimal.** -/
theorem parse_hexadecimal_scan {ws sg t wm we ip fp : List UInt8} {E : ℤ}
    (hws : ∀ c ∈ ws, isspace c = true) (hsg : SignPart sg neg) (hc : (c ||| 32) = 'x'.toUInt8)
    (hm : Mantissa isxdigit wm ip fp) (he : ExponentPart 'p' we E)
    (hw : LongestNumeral t ('0'.toUInt8 :: c :: (wm ++ we))) (F : Ffmt) :
    ∃ (st : HexScan) (rest : List UInt8), HexScanned (hexValue (ip ++ fp)) fp.length st ∧
      '0'.toUInt8 :: c :: (wm ++ we) ++ rest = t ∧
      parse (ws ++ (sg ++ t)) F = { value := (hexResult st (st.e + readExponent E) F neg).1
                                    erange := (hexResult st (st.e + readExponent E) F neg).2
                                    rest := rest } := by
  obtain ⟨rest, rfl⟩ := hw.1
  have ht :
      '0'.toUInt8 :: c :: (wm ++ we) ++ rest = '0'.toUInt8 :: (c :: (wm ++ (we ++ rest))) := by
    simp
  have hskip := skip_eq hws hsg ht (.inl (by decide))
  have hword := ciPrefix_eq_zero (c := '0'.toUInt8) (u := c :: (wm ++ (we ++ rest)))
    (.inl (by decide))
  have hstop := LongestNumeral.stops_hexadecimal (t := wm ++ we ++ rest) hw hc
  obtain ⟨hu, h0, h1⟩ := hstop.scan rfl hm he fun c => (hexByte_facts c).2.2
  obtain ⟨st, hloop, hscan⟩ := hexLoop_mantissa.mantissa hexScanned_init rfl hm hu
  have hexp := exponentPart_eq (by decide) rest he h0 h1
  refine ⟨st, rest, hscan, rfl, ?_⟩
  unfold parse
  simp only
  rw [hskip]
  simp only
  rw [ht, if_neg (by simp [hword.1]), if_neg (by simp [hword.2]),
    if_pos (hexStart_of_mantissa hc hm)]
  unfold parseHex hexResult
  simp only [drop_succ_cons, drop_zero, hloop, hexp]
  split_ifs <;> rfl

theorem parse_hexadecimal_eq {t s : List UInt8} {e : ℤ} (hl : Leads neg s t w)
    (hd : IsHexadecimal w n e) (F : Ffmt) :
    ∃ (st : HexScan) (k : ℕ) (x : ℤ) (rest : List UInt8), HexScanned n k st ∧
      SameRange ((n : ℚ) * 2 ^ (x - 4 * k)) (n * 2 ^ e) ∧ w ++ rest = t ∧
      parse s F = { value := (hexResult st (st.e + x) F neg).1
                    erange := (hexResult st (st.e + x) F neg).2
                    rest := rest } := by
  obtain ⟨ws, sg, rfl, hlen, hws, hsg, hw⟩ := hl
  obtain ⟨c, wm, we, ip, fp, E, hc, hm, he, rfl, rfl, rfl⟩ := hd
  obtain ⟨st, rest, hscan, rfl, hparse⟩ := parse_hexadecimal_scan hws hsg hc hm he hw F
  have hlen' : fp.length ≤ 10000000 ∧ (ip ++ fp).length ≤ 10000000 := by
    have h2 := hm.length_le
    simp only [length_append, length_cons] at h2 hlen ⊢
    omega
  have hnlt := hexValue_lt (forall_mem_append.mpr ⟨hm.1, hm.2.1⟩)
  exact ⟨st, fp.length, _, rest, hscan, sameRange_saturated_hex hnlt hlen'.2 hlen'.1 E, rfl, hparse⟩

/-- **The parse of a string whose longest numeral is hexadecimal.** -/
theorem parse_hexadecimal {t s : List UInt8} {e : ℤ} (hl : Leads neg s t w)
    (hd : IsHexadecimal w n e) (F : Ffmt) :
    (parse s F).value.value = F.format.round neg (n * 2 ^ e) ∧ w ++ (parse s F).rest = t := by
  obtain ⟨st, k, x, rest, hscan, hrange, hrest, hparse⟩ := parse_hexadecimal_eq hl hd F
  rw [hparse]
  refine ⟨?_, hrest⟩
  rw [hscan.value x, hrange.round_eq]

/-- The digits of the exponent behind the ninth do not matter for the number `n * 2 ^ (E - 4 * k)`:
there are none, or it is zero, or it is too large or too small with them and without them. -/
def ReadsEnough (F : Ffmt) (neg : Bool) (n k : ℕ) (E : ℤ) : Prop :=
  n = 0 ∨ E.natAbs < 10 ^ 9 ∨ ∃ v, (v = .inf neg ∨ v = .finite neg 0) ∧
    ∀ e ∈ [readExponent E, E], F.format.round neg (n * 2 ^ (e - 4 * k)) = v

/-- Of an exponent of ten digits nine make such a difference that one of the two numbers is out of
range. -/
theorem round_readExponent_iff {E : ℤ} :
    F.format.round neg (n * 2 ^ (readExponent E - 4 * k)) =
      F.format.round neg (n * 2 ^ (E - 4 * k)) ↔ ReadsEnough F neg n k E := by
  constructor
  · intro heq
    by_cases hn : n = 0
    · exact .inl hn
    have hlo := Nat.pow_log_le_self 2 hn
    have hhi := Nat.lt_pow_succ_log_self one_lt_two n
    generalize Nat.log 2 n = b at hlo hhi
    have hlarge : ∀ e : ℤ, 16384 ≤ b + (e - 4 * k) →
        F.format.round neg (n * 2 ^ (e - 4 * k)) = .inf neg :=
      fun e he => round_of_large he (two_zpow_le_mul hlo _)
    have hsmall : ∀ e : ℤ, ((b + 1 : ℕ) : ℤ) + (e - 4 * k) ≤ -16446 →
        F.format.round neg (n * 2 ^ (e - 4 * k)) = .finite neg 0 := fun e he =>
      round_of_small he (mul_nonneg (cast_nonneg _) (two_zpow_pos _).le) (mul_lt_two_zpow hhi _)
    have hout : ∀ v, F.format.round neg (n * 2 ^ (E - 4 * k)) = v →
        ∀ e ∈ [readExponent E, E], F.format.round neg (n * 2 ^ (e - 4 * k)) = v :=
      fun v hv => forall_mem_cons.mpr ⟨heq.trans hv, forall_mem_singleton.mpr hv⟩
    rcases readExponent_cases E with ⟨hE, -⟩ | hfar
    · exact .inr (.inl hE)
    by_cases h1 : 16384 ≤ b + (E - 4 * k) ∨ 16384 ≤ b + (readExponent E - 4 * k)
    · refine .inr (.inr ⟨_, .inl rfl, hout _ ?_⟩)
      exact h1.elim (hlarge E) fun h => heq.symm.trans (hlarge _ h)
    · refine .inr (.inr ⟨_, .inr rfl, hout _ ?_⟩)
      by_cases h2 : ((b + 1 : ℕ) : ℤ) + (E - 4 * k) ≤ -16446
      · exact hsmall E h2
      · exact heq.symm.trans (hsmall _ (by omega))
  · rintro (rfl | hE | ⟨v, -, hv⟩)
    · simp
    · rcases readExponent_cases E with ⟨-, h⟩ | hfar | hfar
      · rw [h]
      · omega
      · omega
    · rw [hv _ mem_cons_self, hv E (mem_cons_of_mem _ mem_cons_self)]

/-- **Hexadecimal constants are correctly rounded**, exactly if the digits of the exponent behind
the ninth do not matter, as in all strings of fewer than `10 ^ 7` bytes: behind white space `ws` and
an optional sign `sg`, let the longest numeral be a hexadecimal constant with the digits `ip` before
the point, `fp` behind it and the exponent `E`. -/
theorem strtod_hexadecimal {ws sg t wm we ip fp s : List UInt8} {neg : Bool} {c : UInt8} {n k : ℕ}
    {E : ℤ} (hs : s = ws ++ (sg ++ t)) (hws : ∀ c ∈ ws, isspace c = true) (hsg : SignPart sg neg)
    (hc : (c ||| 32) = 'x'.toUInt8) (hm : Mantissa isxdigit wm ip fp) (he : ExponentPart 'p' we E)
    (hw : LongestNumeral t ('0'.toUInt8 :: c :: (wm ++ we))) (hn : hexValue (ip ++ fp) = n)
    (hk : fp.length = k) :
    ((Ffmt.dbl.format.Rounds neg (n * 2 ^ (E - 4 * k)) (strtod s).value ↔
      ReadsEnough .dbl neg n k E) ∧
        (Ffmt.flt.format.Rounds neg (n * 2 ^ (E - 4 * k)) (strtof s).value ↔
        ReadsEnough .flt neg n k E) ∧
      (Ffmt.ldbl.format.Rounds neg (n * 2 ^ (E - 4 * k)) (strtold s).value.value ↔
        ReadsEnough .ldbl neg n k E)) ∧
    (∀ p ∈ [(strtod s).rest, (strtof s).rest, (strtold s).rest],
      '0'.toUInt8 :: c :: (wm ++ we) ++ p = t) ∧
    (s.length < 10 ^ 7 → ∀ F, ReadsEnough F neg n k E) := by
  have hx : ∀ e : ℤ, (0 : ℚ) ≤ n * 2 ^ (e - 4 * k) := fun e =>
    mul_nonneg (cast_nonneg _) (two_zpow_pos _).le
  have hparse : ∀ F, (parse s F).value.value =
      F.format.round neg (n * 2 ^ (readExponent E - 4 * k)) ∧
      '0'.toUInt8 :: c :: (wm ++ we) ++ (parse s F).rest = t := by
    intro F
    obtain ⟨st, rest, hscan, hrest, hp⟩ := parse_hexadecimal_scan hws hsg hc hm he hw F
    rw [hs, hp]
    exact ⟨by rw [← hn, ← hk]; exact hscan.value _, hrest⟩
  have hiff : ∀ F v, v = F.format.round neg (n * 2 ^ (readExponent E - 4 * k)) →
      (F.format.Rounds neg (n * 2 ^ (E - 4 * k)) v ↔ ReadsEnough F neg n k E) := by
    intro F v hv
    rw [← round_readExponent_iff, ← hv]
    exact ⟨fun h => h.eq_round (hx E), fun h => h ▸ rounds_round neg (hx E)⟩
  refine ⟨⟨hiff .dbl _ ?_, hiff .flt _ ?_, hiff .ldbl _ (hparse .ldbl).1⟩, ?_, fun hlen F => ?_⟩
  · exact (congrArg _ (hparse .dbl).1).trans (convert_round neg (hx _))
  · exact (congrArg _ (hparse .flt).1).trans (convert_round neg (hx _))
  · simp only [forall_mem_cons]
    exact ⟨(hparse .dbl).2, (hparse .flt).2, (hparse .ldbl).2, forall_mem_nil _⟩
  · rw [← round_readExponent_iff, ← (hparse F).1, ← hn, ← hk]
    exact (parse_hexadecimal ⟨ws, sg, hs, hlen, hws, hsg, hw⟩
      ⟨c, wm, we, ip, fp, E, hc, hm, he, rfl, rfl, rfl⟩ F).1

theorem strtod_hexadecimal_half :
    Ffmt.dbl.format.Rounds true ((1 : ℕ) * 2 ^ (-1 - 4 * (0 : ℕ) : ℤ))
      (strtod (bytes " -0x1p-1")).value ∧
    Ffmt.flt.format.Rounds true ((1 : ℕ) * 2 ^ (-1 - 4 * (0 : ℕ) : ℤ))
      (strtof (bytes " -0x1p-1")).value ∧
    Ffmt.ldbl.format.Rounds true ((1 : ℕ) * 2 ^ (-1 - 4 * (0 : ℕ) : ℤ))
      (strtold (bytes " -0x1p-1")).value.value :=
  have hm : Mantissa isxdigit (bytes "1") (bytes "1") [] :=
    ⟨all_eq_true.mp (by decide), by simp, .inl (by decide), .inl ⟨by decide, rfl⟩⟩
  have he : ExponentPart 'p' (bytes "p-1") (-1) :=
    .inr ⟨'p'.toUInt8, bytes "-", true, bytes "1", by decide, .inr (.inr ⟨by decide, rfl⟩),
      by decide, all_eq_true.mp (by decide), by decide, by decide⟩
  have hd : IsHexadecimal (bytes "0x1p-1") 1 (-1) :=
    ⟨'x'.toUInt8, _, _, _, _, _, by decide, hm, he, by decide, by decide, by decide⟩
  have h := @strtod_hexadecimal (bytes " ") (bytes "-") (bytes "0x1p-1") (bytes "1") (bytes "p-1")
    (bytes "1") [] _ true 'x'.toUInt8 1 0 (-1) rfl (all_eq_true.mp (by decide))
    (.inr (.inr ⟨by decide, rfl⟩)) (by decide) hm he
    ⟨prefix_refl _, .inr (.inl ⟨1, -1, hd⟩), fun _ h _ => h.length_le⟩ (by decide) rfl
  ⟨h.1.1.mpr (.inr (.inl (by decide))), h.1.2.1.mpr (.inr (.inl (by decide))),
    h.1.2.2.mpr (.inr (.inl (by decide)))⟩

/-- A one behind 24999999 zeros of the fraction, with the exponent `10 ^ 9`, of which nine digits
are read: the constant is `2 ^ 900000000`, and `strtod` returns one. -/
theorem strtod_hexadecimal_long :
    let fp := List.replicate 24999999 '0'.toUInt8 ++ bytes "1"
    let w := '0'.toUInt8 :: 'x'.toUInt8 :: ('0'.toUInt8 :: '.'.toUInt8 :: fp ++ bytes "p1000000000")
    LongestNumeral w w ∧ IsHexadecimal w 1 900000000 ∧ (strtod w).value = .finite false 1 ∧
      ¬ Ffmt.dbl.format.Rounds false (1 * 2 ^ (900000000 : ℤ)) (strtod w).value := by
  generalize hz : 24999999 = z
  intro fp w
  have hm : Mantissa isxdigit ('0'.toUInt8 :: '.'.toUInt8 :: fp) (bytes "0") fp := by
    refine ⟨all_eq_true.mp (by decide),
      forall_mem_append.mpr ⟨fun c hc => ?_, all_eq_true.mp (by decide)⟩, .inl (by decide),
      .inr rfl⟩
    rw [eq_of_mem_replicate hc]
    decide
  have hlen : fp.length = 25000000 := by
    rw [length_append, length_replicate, ← hz]
    rfl
  have hval : hexValue (bytes "0" ++ fp) = 1 := by
    rw [← append_assoc, show bytes "0" ++ List.replicate z '0'.toUInt8 =
      List.replicate (z + 1) '0'.toUInt8 from rfl, hexValue_replicate]
    decide
  have he : ExponentPart 'p' (bytes "p1000000000") 1000000000 :=
    .inr ⟨'p'.toUInt8, [], false, bytes "1000000000", by decide, .inl ⟨rfl, rfl⟩, by decide,
      all_eq_true.mp (by decide), by decide, by decide⟩
  have hd : IsHexadecimal w 1 900000000 :=
    ⟨'x'.toUInt8, _, _, _, fp, _, by decide, hm, he, rfl, hval.symm, by rw [hlen]; norm_num⟩
  have hw : LongestNumeral w w :=
    ⟨prefix_refl _, .inr (.inl ⟨1, _, hd⟩), fun _ h _ => h.length_le⟩
  obtain ⟨st, rest, hscan, -, hparse⟩ := parse_hexadecimal_scan (forall_mem_nil _)
    (.inl ⟨rfl, rfl⟩ : SignPart [] false) (by decide) hm he hw .dbl
  have hread : readExponent 1000000000 = 100000000 := by norm_num [readExponent, leadingNine]
  have hone : (strtod w).value = .finite false 1 := by
    have hv : (parse w .dbl).value.value = Ffmt.dbl.format.round false 1 := by
      rw [nil_append, nil_append] at hparse
      rw [hparse, hscan.value, hval, hlen, hread]
      norm_num
    change Ffmt.dbl.format.convert (parse w .dbl).value.value = _
    rw [hv, convert_round false zero_le_one]
    exact round_eq_finite false zero_le_one (representable_two_zpow (e := 0) (by decide))
      (two_zpow_le_maxFinite (e := 0) (by decide))
  refine ⟨hw, hd, hone, ?_⟩
  rw [hone, one_mul]
  rintro ⟨y, hy, hv⟩
  have hxy := hy.nearest _ (representable_two_zpow (e := 900000000) (by decide))
  rw [sub_self, abs_zero, abs_nonpos_iff, sub_eq_zero] at hxy
  split_ifs at hv
  rw [← (Value.finite.inj hv).2] at hxy
  exact (one_lt_zpow₀ one_lt_two (by norm_num)).ne' hxy

end Citadel.Number
