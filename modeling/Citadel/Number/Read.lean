import Citadel.Number.Decimal
import Citadel.Number.Numeral

/-!
# Reading a decimal constant

The loop over the digits keeps the first 800 significant ones and remembers whether a nonzero digit
was left out; exponents saturate far outside the range of the formats.

* `Scanned.digit`: what one digit does to the state of the loop.
* `decLoop_mantissa`, `exponentPart_eq`: the scanner stops at the end of the longest numeral.
* `strtod_correctly_rounded`: decimal constants are correctly rounded.
-/

namespace Citadel.Number

open Citadel.Lib.Rounding Citadel.Lib.Byte List Nat

/-! ## The digits -/

/-- The state of the loop after digits that spell `n`, `k` of them behind the point: the digits kept
are those of `n` except its last `j`, and `j` is not zero only when 800 digits are kept. -/
structure Scanned (n k : ℕ) (st : DecScan) : Prop where
  small : ∀ d ∈ st.digits, d < 10
  lead : st.digits ≠ [] → 10 ^ (st.digits.length - 1) ≤ digitsValue st.digits.reverse
  kept : ∃ j r : ℕ, n = digitsValue st.digits.reverse * 10 ^ j + r ∧ r < 10 ^ j ∧
    (st.sticky = true ↔ r ≠ 0) ∧ st.q = j - k ∧ (j ≠ 0 → st.digits.length = maxDigits)
  len : st.digits.length ≤ maxDigits

theorem scanned_init : Scanned 0 0 {} :=
  ⟨by simp, by simp, ⟨0, 0, by simp [digitsValue], by simp, by simp, by simp, by simp⟩, by simp⟩

theorem digitsValue_reverse_cons (d : ℕ) (ds : List ℕ) :
    digitsValue (d :: ds).reverse = digitsValue ds.reverse * 10 + d := by
  rw [reverse_cons, digitsValue_append]
  simp [digitsValue]

variable {n k : ℕ} {st : DecScan} {w ds u sg ws t : List UInt8} {neg : Bool} {x : ℚ}

theorem Scanned.digit (h : Scanned n k st) {d : ℕ} (hd : d < 10) :
    Scanned (n * 10 + d) (k + if st.dot then 1 else 0) (st.digit d) := by
  obtain ⟨hsmall, hlead, ⟨j, r, hn, hr, hst, hq, hj⟩, hlen⟩ := h
  have hfrac : ((k + if st.dot then 1 else 0 : ℕ) : ℤ) = k + if st.dot then 1 else 0 := by
    split_ifs <;> simp
  have hall : st.digits.length < maxDigits → j = 0 ∧ r = 0 := by
    intro hlt
    obtain rfl : j = 0 := by
      by_contra hc
      exact hlt.ne (hj hc)
    exact ⟨rfl, by simpa using hr⟩
  unfold DecScan.digit
  by_cases h0 : d = 0 ∧ st.digits.length = 0
  · -- a leading zero
    obtain ⟨rfl, rfl⟩ := hall (by rw [h0.2]; decide)
    rw [if_pos h0]
    refine ⟨hsmall, hlead, ⟨0, 0, ?_, by simp, hst, ?_, by simp⟩, hlen⟩
    · have hnil : st.digits = [] := length_eq_zero_iff.mp h0.2
      rw [hn, h0.1, hnil]
      simp [digitsValue]
    · rw [hfrac]
      simp only
      split_ifs <;> omega
  rw [if_neg h0]
  by_cases hmax : st.digits.length < maxDigits
  · -- the digit is kept
    obtain ⟨rfl, rfl⟩ := hall hmax
    rw [if_pos hmax]
    refine ⟨?_, ?_, ⟨0, 0, ?_, by simp, hst, ?_, by simp⟩, ?_⟩
    · exact forall_mem_cons.mpr ⟨hd, hsmall⟩
    · intro _
      simp only [length_cons, Nat.add_sub_cancel]
      rw [digitsValue_reverse_cons]
      by_cases hnil : st.digits = []
      · have hd0 : d ≠ 0 := fun hc => h0 ⟨hc, by simp [hnil]⟩
        rw [hnil]
        simp only [length_nil, pow_zero]
        omega
      · have h1 := hlead hnil
        have h2 : st.digits.length = st.digits.length - 1 + 1 := by
          have := length_pos_iff.mpr hnil
          omega
        rw [h2, pow_succ]
        omega
    · simp only [digitsValue_reverse_cons, hn]
      ring
    · rw [hfrac]
      simp only
      split_ifs <;> omega
    · simp only [length_cons]
      omega
  · -- the digit is left out
    rw [if_neg hmax]
    have hlen' : st.digits.length = maxDigits := by omega
    refine ⟨hsmall, hlead, ⟨j + 1, r * 10 + d, ?_, ?_, ?_, ?_, fun _ => hlen'⟩, hlen⟩
    · simp only [hn, pow_succ]
      ring
    · rw [pow_succ]
      omega
    · simp only [Bool.or_eq_true, decide_eq_true_iff, hst]
      omega
    · rw [hfrac]
      simp only
      split_ifs <;> push_cast <;> omega

theorem digit_dot (st : DecScan) (d : ℕ) : (st.digit d).dot = st.dot ∧ (st.digit d).any = true := by
  unfold DecScan.digit
  split_ifs <;> exact ⟨rfl, rfl⟩

theorem decimalValue_append (a b : List UInt8) :
    decimalValue (a ++ b) = decimalValue a * 10 ^ b.length + decimalValue b := by
  unfold decimalValue
  rw [map_append, digitsValue_append, length_map]

theorem decimalValue_cons (c : UInt8) (w : List UInt8) :
    decimalValue (c :: w) = (c.toNat - 48) * 10 ^ w.length + decimalValue w := by
  rw [← singleton_append, decimalValue_append]
  simp [decimalValue, digitsValue]

theorem decimalValue_lt (h : ∀ c ∈ w, isdigit c = true) : decimalValue w < 10 ^ w.length := by
  have h1 : ∀ d ∈ w.map fun c => c.toNat - 48, d < 10 := by
    rintro d hd
    obtain ⟨c, hc, rfl⟩ := mem_map.mp hd
    have := isdigit_iff.mp (h c hc)
    omega
  have h2 := digitsValue_lt h1
  rwa [length_map] at h2

/-! ## The scanner -/

/-- A loop over the digits of a mantissa: `Inv ds k st` holds after the digits `ds`, the last `k` of
them behind the point. -/
structure MantissaLoop {σ : Type} (digit : UInt8 → Bool) (dot : σ → Bool)
    (Inv : List UInt8 → ℕ → σ → Prop) (loop : List UInt8 → σ → σ × List UInt8) : Prop where
  next : ∀ {ds k st c}, Inv ds k st → digit c = true → ∃ st', (∀ u, loop (c :: u) st = loop u st') ∧
    dot st' = dot st ∧ Inv (ds ++ [c]) (k + if dot st then 1 else 0) st'
  point : ∀ {ds k st}, Inv ds k st → dot st = false →
    ∃ st', (∀ u, loop ('.'.toUInt8 :: u) st = loop u st') ∧ dot st' = true ∧ Inv ds k st'
  stop : ∀ {st u}, (∀ c r, u = c :: r → digit c = false ∧ (dot st = false → c ≠ '.'.toUInt8)) →
    loop u st = (st, u)

section

variable {σ : Type} {digit : UInt8 → Bool} {dot : σ → Bool} {Inv : List UInt8 → ℕ → σ → Prop}
  {loop : List UInt8 → σ → σ × List UInt8}

theorem MantissaLoop.run (h : MantissaLoop digit dot Inv loop) (hds : ∀ c ∈ ds, digit c = true) :
    ∀ {pre k st}, Inv pre k st → ∃ st', (∀ u, loop (ds ++ u) st = loop u st') ∧
      dot st' = dot st ∧ Inv (pre ++ ds) (k + if dot st then ds.length else 0) st' := by
  induction ds with
  | nil =>
    intro pre k st hi
    exact ⟨st, fun _ => rfl, rfl, by simpa using hi⟩
  | cons c ds ih =>
    intro pre k st hi
    obtain ⟨st₁, h1, hd1, hi1⟩ := h.next hi (hds c mem_cons_self)
    obtain ⟨st₂, h2, hd2, hi2⟩ := ih (fun x hx => hds x (mem_cons_of_mem _ hx)) hi1
    refine ⟨st₂, fun u => by rw [cons_append, h1, h2], hd2.trans hd1, ?_⟩
    rw [append_assoc, singleton_append, hd1] at hi2
    convert hi2 using 1
    rw [length_cons]
    split_ifs <;> omega

theorem MantissaLoop.mantissa (h : MantissaLoop digit dot Inv loop) {st : σ} (hi : Inv [] 0 st)
    (hdot : dot st = false) {wm ip fp : List UInt8} (hm : Mantissa digit wm ip fp)
    (hu : ∀ c r, u = c :: r → digit c = false ∧ (wm = ip → c ≠ '.'.toUInt8)) :
    ∃ st', loop (wm ++ u) st = (st', u) ∧ Inv (ip ++ fp) fp.length st' := by
  obtain ⟨hip, hfp, -, hwm⟩ := hm
  obtain ⟨st₁, h1, hd1, hi1⟩ := h.run hip hi
  simp only [hdot, nil_append, Bool.false_eq_true, if_false, Nat.add_zero] at hd1 hi1
  rcases hwm with ⟨rfl, rfl⟩ | rfl
  · refine ⟨st₁, ?_, by rwa [append_nil]⟩
    rw [h1]
    exact h.stop fun c r hc => ⟨(hu c r hc).1, fun _ => (hu c r hc).2 rfl⟩
  · obtain ⟨st₂, h2, hd2, hi2⟩ := h.point hi1 hd1
    obtain ⟨st₃, h3, hd3, hi3⟩ := h.run hfp hi2
    refine ⟨st₃, ?_, by simpa [hd2] using hi3⟩
    rw [append_assoc, cons_append, h1, h2, h3]
    refine h.stop fun c r hc => ⟨(hu c r hc).1, fun hd => ?_⟩
    rw [hd3, hd2] at hd
    cases hd

end

theorem decLoop_mantissa : MantissaLoop isdigit DecScan.dot
    (fun ds k st => (st.any = true ↔ ds ≠ []) ∧ Scanned (decimalValue ds) k st) decLoop where
  next {ds k st c} hi hc := by
    have hv := isdigit_iff.mp hc
    have hstep := hi.2.digit (d := c.toNat - 48) (by omega)
    refine ⟨st.digit (c.toNat - 48), fun u => ?_, (digit_dot st _).1, by simp [digit_dot], ?_⟩
    · rw [decLoop, if_neg fun h => (digit_facts hc).2.2.1 h.1, if_pos hc]
    · rw [decimalValue_append]
      simpa [decimalValue, digitsValue] using hstep
  point {ds k st} hi hdot := ⟨{ st with dot := true }, fun u => by rw [decLoop, if_pos ⟨rfl, hdot⟩],
    rfl, hi.1, { hi.2 with }⟩
  stop {st u} h := by
    cases u with
    | nil => rfl
    | cons c r =>
      obtain ⟨h1, h2⟩ := h c r rfl
      rw [decLoop, if_neg fun hc => h2 hc.2 hc.1, if_neg (by simp [h1])]

/-- The first nine digits of a number. -/
def leadingNine (m : ℕ) : ℕ := m / 10 ^ (Nat.log 10 m - 8)

theorem leadingNine_of_lt {m : ℕ} (h : m < 10 ^ 9) : leadingNine m = m := by
  have hlog : Nat.log 10 m ≤ 8 := by
    rcases Nat.eq_zero_or_pos m with rfl | hm
    · simp
    · exact Nat.lt_succ_iff.mp (Nat.log_lt_of_lt_pow hm.ne' h)
  rw [leadingNine, Nat.sub_eq_zero_of_le hlog, pow_zero, Nat.div_one]

theorem le_leadingNine {m : ℕ} (h : 10 ^ 8 ≤ m) : 10 ^ 8 ≤ leadingNine m := by
  have hlog : 8 ≤ Nat.log 10 m := Nat.le_log_of_pow_le (by norm_num) h
  rw [leadingNine, Nat.le_div_iff_mul_le (by positivity), ← pow_add, Nat.add_sub_cancel' hlog]
  exact Nat.pow_log_le_self 10 (by omega)

theorem leadingNine_digit (m : ℕ) {d : ℕ} (hd : d < 10) : leadingNine (m * 10 + d) =
    if leadingNine m < 10 ^ 8 then leadingNine m * 10 + d else leadingNine m := by
  rcases Nat.lt_or_ge m (10 ^ 8) with h | h
  · rw [leadingNine_of_lt (by omega), leadingNine_of_lt (by omega), if_pos h]
  · have hlog : Nat.log 10 (m * 10 + d) = Nat.log 10 m + 1 := by
      rw [Nat.log_eq_iff (by simp)]
      have h1 := Nat.pow_log_le_self 10 (show m ≠ 0 by omega)
      have h2 := Nat.lt_pow_succ_log_self (show 1 < 10 by norm_num) m
      rw [Nat.succ_eq_add_one] at h2
      constructor
      · rw [pow_succ]
        omega
      · rw [pow_succ _ (_ + 1)]
        omega
    have h8 : 8 ≤ Nat.log 10 m := Nat.le_log_of_pow_le (by norm_num) h
    rw [if_neg (not_lt.mpr (le_leadingNine h)), leadingNine, leadingNine, hlog,
      show Nat.log 10 m + 1 - 8 = 1 + (Nat.log 10 m - 8) by omega, pow_add,
      ← Nat.div_div_eq_div_mul]
    congr 1
    omega

theorem leadingNine_le {m : ℕ} (h : 10 ^ 9 ≤ m) : 10 * leadingNine m ≤ m := by
  have hlog : 9 ≤ Nat.log 10 m := Nat.le_log_of_pow_le (by norm_num) h
  obtain ⟨j, hj⟩ : ∃ j, Nat.log 10 m - 8 = j + 1 := ⟨_, (Nat.succ_pred_eq_of_pos (by omega)).symm⟩
  rw [leadingNine, hj, pow_succ, ← Nat.div_div_eq_div_mul]
  have := Nat.div_le_self m (10 ^ j)
  omega

/-- The exponent that is read where `E` is written. -/
def readExponent (E : ℤ) : ℤ := E.sign * leadingNine E.natAbs

theorem readExponent_natCast (m : ℕ) : readExponent m = leadingNine m := by
  rcases Nat.eq_zero_or_pos m with rfl | h
  · simp [readExponent, leadingNine]
  · rw [readExponent, Int.sign_eq_one_of_pos (by omega), one_mul, Int.natAbs_natCast]

theorem readExponent_neg (E : ℤ) : readExponent (-E) = -readExponent E := by
  simp [readExponent]

theorem readExponent_cases (E : ℤ) : (E.natAbs < 10 ^ 9 ∧ readExponent E = E) ∨
    (10 ^ 9 ≤ E ∧ 10 ^ 8 ≤ readExponent E ∧ 10 * readExponent E ≤ E) ∨
    (10 ^ 9 ≤ -E ∧ 10 ^ 8 ≤ -readExponent E ∧ 10 * -readExponent E ≤ -E) := by
  unfold readExponent
  rcases Nat.lt_or_ge E.natAbs (10 ^ 9) with h | h
  · rw [leadingNine_of_lt h, Int.sign_mul_natAbs]
    exact .inl ⟨h, rfl⟩
  · have h1 := le_leadingNine (show 10 ^ 8 ≤ E.natAbs by omega)
    have h2 := leadingNine_le h
    rcases Int.le_total 0 E with h0 | h0
    · rw [Int.sign_eq_one_of_pos (by omega)]
      exact .inr (.inl (by omega))
    · rw [Int.sign_eq_neg_one_of_neg (by omega)]
      exact .inr (.inr (by omega))
theorem expLoop_eq (hds : ∀ c ∈ ds, isdigit c = true)
    (hu : ∀ c r, u = c :: r → isdigit c = false) : ∀ m : ℕ,
    expLoop (ds ++ u) (leadingNine m) =
      ((leadingNine (m * 10 ^ ds.length + decimalValue ds) : ℤ), u) := by
  induction ds with
  | nil =>
    intro m
    cases u with
    | nil => simp [expLoop, decimalValue, digitsValue]
    | cons c r =>
      rw [nil_append, expLoop, if_neg (by simp [hu c r rfl])]
      simp [decimalValue, digitsValue]
  | cons c ds ih =>
    intro m
    have hc := hds c mem_cons_self
    have hcv := isdigit_iff.mp hc
    have hstep : (if (leadingNine m : ℤ) < 100000000 then
        (leadingNine m : ℤ) * 10 + ((c.toNat : ℤ) - 48) else leadingNine m) =
          leadingNine (m * 10 + (c.toNat - 48)) := by
      rw [leadingNine_digit m (by omega)]
      split_ifs <;> omega
    have hvalue : m * 10 ^ (c :: ds).length + decimalValue (c :: ds) =
        (m * 10 + (c.toNat - 48)) * 10 ^ ds.length + decimalValue ds := by
      rw [decimalValue_cons, length_cons, pow_succ]
      ring
    rw [cons_append, expLoop, if_pos hc, hstep, hvalue]
    exact ih (fun y hy => hds y (mem_cons_of_mem _ hy)) _

theorem skipSign_eq (hsg : SignPart sg neg)
    (hu : peek u ≠ '+'.toUInt8 ∧ peek u ≠ '-'.toUInt8) : skipSign (sg ++ u) = (neg, u) := by
  rcases hsg with ⟨rfl, rfl⟩ | ⟨rfl, rfl⟩ | ⟨rfl, rfl⟩
  · rw [nil_append]
    unfold skipSign
    rw [if_neg (by simp [hu.1, hu.2])]
  · rfl
  · rfl

theorem exponentPart_eq {mark : Char} (hmark : (peek [] ||| 32) ≠ mark.toUInt8) {we : List UInt8}
    (rest : List UInt8) {E : ℤ} (he : ExponentPart mark we E)
    (h0 : we = [] → ∀ c sg neg d r, (c ||| 32) = mark.toUInt8 → SignPart sg neg →
      isdigit d = true → rest ≠ c :: (sg ++ d :: r))
    (h1 : we ≠ [] → ∀ c r, rest = c :: r → isdigit c = false) :
    exponentPart mark (we ++ rest) = (readExponent E, rest) := by
  rcases he with ⟨rfl, rfl⟩ | ⟨m, sg, neg, ds, hm, hsg, hne, hds, rfl, rfl⟩
  · change _ = (0, rest)
    rw [nil_append]
    unfold exponentPart
    by_cases hc : (peek rest ||| 32) = mark.toUInt8
    · rw [if_pos hc]
      by_cases hd : isdigit (peek (skipSign rest.tail).2) = true
      swap
      · simp only [if_neg hd]
      exfalso
      cases rest with
      | nil => exact absurd hc hmark
      | cons c r =>
        -- behind the mark, an optional sign and a digit
        have hsplit : ∃ sg neg, SignPart sg neg ∧ r = sg ++ (skipSign r).2 := by
          unfold skipSign
          cases r with
          | nil => exact ⟨[], false, .inl ⟨rfl, rfl⟩, rfl⟩
          | cons a r =>
            by_cases hp : a = '+'.toUInt8
            · exact ⟨['+'.toUInt8], false, .inr (.inl ⟨rfl, rfl⟩), by simp [peek, hp]⟩
            · by_cases hmi : a = '-'.toUInt8
              · exact ⟨['-'.toUInt8], true, .inr (.inr ⟨rfl, rfl⟩), by simp [peek, hmi]⟩
              · exact ⟨[], false, .inl ⟨rfl, rfl⟩, by simp [peek, hp, hmi]⟩
        obtain ⟨sg, neg, hsg, hr⟩ := hsplit
        cases hs : (skipSign r).2 with
        | nil =>
          rw [tail_cons, hs] at hd
          exact absurd hd (by decide)
        | cons d r' =>
          rw [tail_cons, hs] at hd
          rw [hs] at hr
          exact h0 rfl c sg neg d r' hc hsg hd (by rw [hr])
    · rw [if_neg hc]
  · obtain ⟨d, ds', rfl⟩ := exists_cons_of_ne_nil hne
    have hd := hds d mem_cons_self
    have hdf := digit_facts hd
    have hx := expLoop_eq hds (h1 (by simp)) 0
    rw [zero_mul, zero_add, leadingNine_of_lt (by norm_num), Nat.cast_zero] at hx
    have hskip : skipSign (sg ++ (d :: ds' ++ rest)) = (neg, d :: ds' ++ rest) :=
      skipSign_eq hsg ⟨hdf.1, hdf.2.1⟩
    unfold exponentPart
    rw [cons_append, append_assoc]
    have hpeek : (peek (m :: (sg ++ (d :: ds' ++ rest))) ||| 32) = mark.toUInt8 := hm
    rw [if_pos hpeek]
    simp only [tail_cons, hskip]
    rw [if_pos (show isdigit (peek (d :: ds' ++ rest)) = true from hd), hx]
    cases neg
    · simp [readExponent_natCast]
    · simp [readExponent_neg, readExponent_natCast]

/-! ## From the scanner to the number -/

theorem dropZeros_eq (ds : List ℕ) (q : ℤ) :
    ∃ (z : ℕ) (ds' : List ℕ), dropZeros ds q = (ds', q + z) ∧ ds = List.replicate z 0 ++ ds' ∧
      ∀ u, ds' ≠ 0 :: u := by
  induction ds generalizing q with
  | nil => exact ⟨0, [], by simp [dropZeros], rfl, by simp⟩
  | cons d ds ih =>
    by_cases hd : d = 0
    · subst hd
      obtain ⟨z, ds', h1, h2, h3⟩ := ih (q + 1)
      refine ⟨z + 1, ds', ?_, ?_, h3⟩
      · rw [dropZeros, h1]
        push_cast
        congr 1
        ring
      · rw [h2, replicate_succ, cons_append]
    · refine ⟨0, d :: ds, ?_, rfl, by simp [hd]⟩
      rw [dropZeros]
      · simp
      · rintro ds' h
        exact hd (List.cons.inj h).1

theorem digitsValue_replicate (z : ℕ) : digitsValue (List.replicate z 0) = 0 := by
  induction z with
  | zero => rfl
  | succ z ih =>
    rw [replicate_succ', digitsValue_append, ih]
    rfl

/-- What the scanner leaves is what `decimal` is given. -/
theorem Scanned.significand (h : Scanned n k st) (x : ℤ) :
    Significand (dropZeros st.digits (st.q + x)).1.reverse (dropZeros st.digits (st.q + x)).2
      st.sticky (n * 10 ^ (x - k)) := by
  obtain ⟨j, r, hn, hr, hst, hq, hj⟩ := h.kept
  obtain ⟨z, ds', hdz, hds, -⟩ := dropZeros_eq st.digits (st.q + x)
  rw [hdz]
  simp only
  have hval : digitsValue st.digits.reverse = digitsValue ds'.reverse * 10 ^ z := by
    rw [hds, reverse_append, digitsValue_append, reverse_replicate,
      digitsValue_replicate, length_replicate, add_zero]
  have hlen : st.digits.length = ds'.length + z := by
    rw [hds, length_append, length_replicate, add_comm]
  have hx : (10 : ℚ) ^ (x - k) = 10 ^ (st.q + x + z - z - j) := by congr 1; rw [hq]; ring
  have hpow : (10 : ℚ) ^ (st.q + x + z) = 10 ^ z * 10 ^ j * 10 ^ (x - k) := by
    rw [hx, ← zpow_natCast, ← zpow_natCast, ← zpow_add₀ (by norm_num), ← zpow_add₀ (by norm_num)]
    congr 1
    ring
  have hpow' : (10 : ℚ) ^ (st.q + x + z - z) = 10 ^ j * 10 ^ (x - k) := by
    rw [hx, ← zpow_natCast, ← zpow_add₀ (by norm_num)]
    congr 1
    ring
  have hpos := ten_zpow_pos (x - k)
  rw [hval] at hn
  have hnq : (n : ℚ) = digitsValue ds'.reverse * 10 ^ z * 10 ^ j + r := by exact_mod_cast hn
  refine ⟨?_, ?_, ?_, ?_⟩
  · intro d hd
    refine h.small d ?_
    rw [hds]
    exact mem_append_right _ (mem_reverse.mp hd)
  · intro hne
    have hne' : ds' ≠ [] := fun hc => hne (by rw [hc, reverse_nil])
    have hpos' := length_pos_iff.mpr hne'
    have h1 := h.lead (by rw [hds]; simp [hne'])
    rw [hval, hlen, show ds'.length + z - 1 = ds'.length - 1 + z by omega, pow_add] at h1
    rw [length_reverse]
    exact Nat.le_of_mul_le_mul_right h1 (by positivity)
  · intro hs
    have hr0 : r = 0 := by
      by_contra hc
      rw [hst.mpr hc] at hs
      exact Bool.noConfusion hs
    rw [hnq, hpow, hr0]
    push_cast
    ring
  · intro hs
    have hr0 : r ≠ 0 := hst.mp hs
    have hj0 : j ≠ 0 := by
      rintro rfl
      simp at hr
      exact hr0 hr
    have h800 := hj hj0
    have hne : st.digits ≠ [] := by
      intro hc
      rw [hc] at h800
      exact absurd h800 (by decide)
    have hrpos : (0 : ℚ) < r := by exact_mod_cast Nat.pos_of_ne_zero hr0
    have hrlt : (r : ℚ) < 10 ^ j := by exact_mod_cast hr
    refine ⟨?_, ?_, z, ?_, ?_⟩
    · intro hc
      have h1 := h.lead hne
      rw [hval, hc] at h1
      simp [digitsValue] at h1
    · rw [hnq, hpow]
      nlinarith
    · rw [length_reverse, ← hlen, h800]
    · rw [hnq, hpow']
      nlinarith

theorem Scanned.not_sticky (h : Scanned n k st)
    (hd : SignificantDigits n maxDigits) : st.sticky = false := by
  obtain ⟨j, r, hn, hr, hst, -, hj⟩ := h.kept
  obtain ⟨T, z, hT, hlt⟩ := hd
  by_contra hc
  have hr0 : r ≠ 0 := hst.mp (by simpa using hc)
  have hj0 : j ≠ 0 := by
    rintro rfl
    simp at hr
    exact hr0 hr
  have h800 := hj hj0
  have hlead := h.lead (by intro hc; rw [hc] at h800; exact absurd h800 (by decide))
  rw [h800] at hlead
  obtain ⟨m, hm⟩ : ∃ m, maxDigits = m + 1 := ⟨799, rfl⟩
  rw [hm, Nat.add_sub_cancel] at hlead
  rw [hm] at hlt
  -- the digits kept reach at least as far as the significant ones
  have hjz : j ≤ z := by
    by_contra hlt'
    have h1 : 10 ^ m * 10 ^ j ≤ n := by
      rw [hn]
      exact (Nat.mul_le_mul_right _ hlead).trans (Nat.le_add_right _ _)
    have h2 : n < 10 ^ (m + 1) * 10 ^ z := by
      rw [hT]
      exact Nat.mul_lt_mul_of_pos_right hlt (by positivity)
    rw [← pow_add] at h1 h2
    have := (Nat.pow_lt_pow_iff_right (show 1 < 10 by norm_num)).mp (h1.trans_lt h2)
    omega
  have hdvd : 10 ^ j ∣ n := by
    rw [hT]
    exact (pow_dvd_pow 10 hjz).mul_left T
  have hmod : n % 10 ^ j = r := by
    rw [hn, Nat.add_comm, add_mul_mod_self_right, mod_eq_of_lt hr]
  exact hr0 (hmod ▸ mod_eq_zero_of_dvd hdvd)

/-- Two magnitudes that are the same, or both beyond the range of every format. -/
def SameRange (x y : ℚ) : Prop :=
  x = y ∨ ((10 : ℚ) ^ (4934 : ℤ) ≤ x ∧ (10 : ℚ) ^ (4934 : ℤ) ≤ y) ∨
    ((0 < x ∧ x < 10 ^ (-4954 : ℤ)) ∧ 0 < y ∧ y < 10 ^ (-4954 : ℤ))

/-- The exponent read is the one written, unless both are far out of range. -/
theorem sameRange_readExponent {f : ℤ → ℚ} (E : ℤ)
    (hover : ∀ y, 100000000 ≤ y → (10 : ℚ) ^ (4934 : ℤ) ≤ f y)
    (hunder : ∀ y, 100000000 ≤ -y → 0 < f y ∧ f y < 10 ^ (-4954 : ℤ)) :
    SameRange (f (readExponent E)) (f E) := by
  rcases readExponent_cases E with ⟨-, h⟩ | ⟨h1, h2, -⟩ | ⟨h1, h2, -⟩
  · exact .inl (by rw [h])
  · exact .inr (.inl ⟨hover _ h2, hover E (by omega)⟩)
  · exact .inr (.inr ⟨hunder _ h2, hunder E (by omega)⟩)

theorem sameRange_saturated {l : ℕ} (hn : n < 10 ^ l) (hl : l ≤ 10000000) (hk : k ≤ 10000000)
    (E : ℤ) : SameRange ((n : ℚ) * 10 ^ (readExponent E - k)) (n * 10 ^ (E - k)) := by
  rcases Nat.eq_zero_or_pos n with rfl | hpos
  · exact .inl (by simp)
  have hn1 : (1 : ℚ) ≤ n := by exact_mod_cast hpos
  refine sameRange_readExponent (f := fun y => n * 10 ^ (y - k)) E (fun y hy => ?_) fun y hy =>
    ⟨?_, ?_⟩
  · exact (ten_zpow_mono (by omega)).trans (le_mul_of_one_le_left (ten_zpow_pos _).le hn1)
  · exact mul_pos (by linarith) (ten_zpow_pos _)
  · have h1 : (10 : ℚ) ^ ((l : ℤ) + (y - k)) ≤ 10 ^ (-4954 : ℤ) := ten_zpow_mono (by omega)
    refine lt_of_lt_of_le ?_ h1
    rw [ten_zpow_natCast_add]
    exact mul_lt_mul_of_pos_right (by exact_mod_cast hn) (ten_zpow_pos _)

theorem round_of_le_pow10 (F : Ffmt) (neg : Bool) (h : (10 : ℚ) ^ (4934 : ℤ) ≤ x) :
    F.format.round neg x = .inf neg := by
  refine round_overflow neg ((dmax_spec F).trans (le_trans ?_ h))
  exact ten_zpow_mono (by cases F <;> decide)

theorem round_of_lt_pow10 (F : Ffmt) (neg : Bool) (hx : 0 ≤ x)
    (h : x < (10 : ℚ) ^ (-4954 : ℤ)) : F.format.round neg x = .finite neg 0 := by
  refine round_underflow neg hx (h.trans_le (le_trans ?_ (dmin_spec F)))
  exact ten_zpow_mono (by cases F <;> decide)

theorem SameRange.round_eq {y : ℚ} (h : SameRange x y) (F : Ffmt) (neg : Bool) :
    F.format.round neg x = F.format.round neg y := by
  rcases h with rfl | ⟨hx, hy⟩ | ⟨⟨hx, hx'⟩, hy, hy'⟩
  · rfl
  · rw [round_of_le_pow10 F neg hx, round_of_le_pow10 F neg hy]
  · rw [round_of_lt_pow10 F neg hx.le hx', round_of_lt_pow10 F neg hy.le hy']

/-! ## The parser -/

theorem ciPrefix_eq_zero {c : UInt8} (h : isdigit c = true ∨ c = '.'.toUInt8) :
    ciPrefix (c :: u) "inf" = 0 ∧ ciPrefix (c :: u) "nan" = 0 := by
  have hP : (c ||| 32) ≠ 'i'.toUInt8 ∧ (c ||| 32) ≠ 'n'.toUInt8 := by
    rcases h with h | rfl
    · rw [(digit_facts h).2.2.2.2]
      constructor <;> rintro rfl <;> exact absurd h (by decide)
    · decide
  exact ⟨if_pos hP.1, if_pos hP.2⟩

theorem skip_eq {c : UInt8}
    (hws : ∀ c ∈ ws, isspace c = true) (hsg : SignPart sg neg) (ht : t = c :: u)
    (hc : isdigit c = true ∨ c = '.'.toUInt8) :
    skipSign ((ws ++ (sg ++ t)).dropWhile isspace) = (neg, t) := by
  have hP : isspace c = false ∧ c ≠ '+'.toUInt8 ∧ c ≠ '-'.toUInt8 := by
    rcases hc with hc | rfl
    · exact ⟨(digit_facts hc).2.2.2.1, (digit_facts hc).1, (digit_facts hc).2.1⟩
    · decide
  have hdrop : (sg ++ t).dropWhile isspace = sg ++ t := by
    rcases hsg with ⟨rfl, -⟩ | ⟨rfl, -⟩ | ⟨rfl, -⟩
    · rw [nil_append, ht, dropWhile_cons_of_neg (by simp [hP.1])]
    · rfl
    · rfl
  rw [dropWhile_append_of_pos hws, hdrop, skipSign_eq hsg]
  rw [ht]
  exact hP.2

/-- What the scanner hands over for a constant that denotes `n * 10 ^ e`: digits without a trailing
zero that stand for `n * 10 ^ e'`. -/
structure Handed (n : ℕ) (e e' : ℤ) (ds : List ℕ) (q : ℤ) (sticky : Bool) : Prop where
  significand : Significand ds q sticky (n * 10 ^ e')
  exact : SignificantDigits n maxDigits → sticky = false
  last : ∀ u, ds ≠ u ++ [0]
  range : SameRange ((n : ℚ) * 10 ^ e') (n * 10 ^ e)

/-- Behind white space and a sign, the longest numeral of the string `s` is `w`, at the beginning of
`t`. -/
def Leads (neg : Bool) (s t w : List UInt8) : Prop :=
  ∃ ws sg, s = ws ++ (sg ++ t) ∧ s.length < 10 ^ 7 ∧ (∀ c ∈ ws, isspace c = true) ∧
    SignPart sg neg ∧ LongestNumeral t w

/-- **The scan of a string whose longest numeral is decimal**: what `decimal` is given and what is
left. -/
theorem parse_decimal_eq {s : List UInt8} {e : ℤ} (hl : Leads neg s t w) (hd : IsDecimal w n e)
    (F : Ffmt) :
    ∃ e' ds q sticky rest, Handed n e e' ds q sticky ∧ w ++ rest = t ∧
      parse s F = { value := (decimal ds q sticky F neg).1
                    erange := (decimal ds q sticky F neg).2
                    rest := rest } := by
  obtain ⟨ws, sg, hs, hlen, hws, hsg, hw⟩ := hl
  obtain ⟨c, w', hcw, hc⟩ := hd.head
  obtain ⟨rest, hrest⟩ := hw.1
  have hhex := hw.not_hexStart hd
  obtain ⟨wm, we, ip, fp, E, hm, he, hwe, hn, hE⟩ := hd
  have ht : t = c :: (w' ++ rest) := by rw [← hrest, hcw, cons_append]
  have hskip := skip_eq hws hsg ht hc
  have hword := ciPrefix_eq_zero (u := w' ++ rest) hc
  rw [← ht] at hword
  -- the scanner stops where the numeral ends
  subst hwe
  obtain ⟨hu, h0, h1⟩ := hw.stops_decimal.scan hrest.symm hm he fun c => (byte_facts c).2.1
  obtain ⟨st, hloop, hany, hscan⟩ := decLoop_mantissa.mantissa ⟨by simp, scanned_init⟩ rfl hm hu
  have hne : ip ++ fp ≠ [] := by simpa [or_iff_not_imp_left] using hm.2.2.1
  have hexp := exponentPart_eq (by decide) rest he h0 h1
  rw [← hn] at hscan
  -- the numeral is short enough for its exponent to saturate
  have hfp : fp.length ≤ 10000000 ∧ (ip ++ fp).length < 10000000 := by
    have h2 := hm.length_le
    have h3 : wm.length ≤ s.length := by
      rw [hs, ← hrest]
      simp only [length_append]
      omega
    rw [length_append] at h2 ⊢
    omega
  have hnlt : n < 10 ^ (ip ++ fp).length := by
    rw [hn]
    exact decimalValue_lt (forall_mem_append.mpr ⟨hm.1, hm.2.1⟩)
  refine ⟨readExponent E - fp.length, (dropZeros st.digits (st.q + readExponent E)).1.reverse,
    (dropZeros st.digits (st.q + readExponent E)).2, st.sticky, rest,
    ⟨hscan.significand _, hscan.not_sticky, fun u hu => ?_, ?_⟩, hrest, ?_⟩
  · obtain ⟨z, ds', hdz, -, hhead⟩ := dropZeros_eq st.digits (st.q + readExponent E)
    rw [hdz, reverse_eq_append_iff] at hu
    exact hhead _ hu
  · rw [hE]
    exact sameRange_saturated hnlt hfp.2.le hfp.1 E
  · have htw : t = wm ++ (we ++ rest) := by rw [← hrest, append_assoc]
    unfold parse
    simp only
    rw [hs, hskip]
    simp only
    rw [if_neg (by simp [hword.1]), if_neg (by simp [hword.2]), if_neg (by simp [hhex])]
    unfold parseDec
    simp only
    rw [htw, hloop]
    simp only
    rw [if_neg (by simp [hany.mpr hne]), hexp]

/-- **The parse of a string whose longest numeral is decimal.** -/
theorem parse_decimal {s : List UInt8} {e : ℤ} (hl : Leads neg s t w) (hd : IsDecimal w n e)
    (F : Ffmt) (hF : F = .ldbl → SignificantDigits n maxDigits) :
    (parse s F).value.value = F.format.round neg (n * 10 ^ e) ∧ w ++ (parse s F).rest = t := by
  obtain ⟨e', ds, q, sticky, rest, hh, hrest, hparse⟩ := parse_decimal_eq hl hd F
  rw [hparse]
  refine ⟨?_, hrest⟩
  rw [value_decimal hh.significand (fun hst hl => ?_) neg, hh.range.round_eq]
  rw [hh.exact (hF hl)] at hst
  exact Bool.noConfusion hst

/-- **Decimal constants are correctly rounded.** Behind white space `ws` and an optional sign `sg`,
let the longest numeral be a decimal constant `w` that denotes `n * 10 ^ e`. `strtod` and `strtof`
return the nearest datum of their format, ties to even, and leave what follows the constant; so does
`strtold` when `n` has at most 800 significant digits. -/
theorem strtod_correctly_rounded {ws sg t w s : List UInt8} {neg : Bool} {n : ℕ} {e : ℤ}
    (hs : s = ws ++ (sg ++ t)) (hlen : s.length < 10 ^ 7) (hws : ∀ c ∈ ws, isspace c = true)
    (hsg : SignPart sg neg) (hw : LongestNumeral t w) (hd : IsDecimal w n e) :
    (Ffmt.dbl.format.Rounds neg (n * 10 ^ e) (strtod s).value ∧ w ++ (strtod s).rest = t) ∧
    (Ffmt.flt.format.Rounds neg (n * 10 ^ e) (strtof s).value ∧ w ++ (strtof s).rest = t) ∧
    (SignificantDigits n 800 →
      Ffmt.ldbl.format.Rounds neg (n * 10 ^ e) (strtold s).value.value ∧
        w ++ (strtold s).rest = t) := by
  have hl : Leads neg s t w := ⟨ws, sg, hs, hlen, hws, hsg, hw⟩
  have hx : (0 : ℚ) ≤ n * 10 ^ e := mul_nonneg (cast_nonneg _) (ten_zpow_pos e).le
  refine ⟨?_, ?_, fun h800 => ?_⟩
  · obtain ⟨h1, h2⟩ := parse_decimal hl hd .dbl (by simp)
    exact ⟨Format.rounds_convert hx h1, h2⟩
  · obtain ⟨h1, h2⟩ := parse_decimal hl hd .flt (by simp)
    exact ⟨Format.rounds_convert hx h1, h2⟩
  · obtain ⟨h1, h2⟩ := parse_decimal hl hd .ldbl (fun _ => h800)
    refine ⟨?_, h2⟩
    unfold strtold
    rw [h1]
    exact Format.rounds_round neg hx

/-- A tenth with a minus sign, behind a space. -/
theorem strtod_correctly_rounded_tenth :
    (Ffmt.dbl.format.Rounds true ((1 : ℕ) * 10 ^ (-1 : ℤ)) (strtod (bytes " -0.1")).value ∧
      bytes "0.1" ++ (strtod (bytes " -0.1")).rest = bytes "0.1") ∧
    (Ffmt.flt.format.Rounds true ((1 : ℕ) * 10 ^ (-1 : ℤ)) (strtof (bytes " -0.1")).value ∧
      bytes "0.1" ++ (strtof (bytes " -0.1")).rest = bytes "0.1") ∧
    (SignificantDigits 1 800 →
      Ffmt.ldbl.format.Rounds true ((1 : ℕ) * 10 ^ (-1 : ℤ)) (strtold (bytes " -0.1")).value.value ∧
        bytes "0.1" ++ (strtold (bytes " -0.1")).rest = bytes "0.1") :=
  have hd : IsDecimal (bytes "0.1") 1 (-1) :=
    ⟨bytes "0.1", [], bytes "0", bytes "1", 0, ⟨all_eq_true.mp (by decide),
      all_eq_true.mp (by decide), .inl (by decide), .inr (by decide)⟩, .inl ⟨rfl, rfl⟩,
      by decide, by decide, by decide⟩
  @strtod_correctly_rounded (bytes " ") (bytes "-") (bytes "0.1") (bytes "0.1") _ _ _ _
    (by decide) (by decide) (all_eq_true.mp (by decide)) (.inr (.inr ⟨by decide, rfl⟩))
    ⟨prefix_refl _, .inl ⟨1, -1, hd⟩, fun _ h _ => h.length_le⟩ hd

end Citadel.Number
