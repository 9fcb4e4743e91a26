import Citadel.Lib.Byte
import Citadel.Number.Strtod

/-!
# Numerals

The texts that denote a number for the parsing routines: decimal and hexadecimal constants with an
optional exponent, infinities and not-a-numbers. `LongestNumeral s w` says that `w` is the longest
numeral a string begins with.

* `IsDecimal w n e`: the decimal constant `w` denotes `n * 10 ^ e`.
* `IsHexadecimal w n e`: the hexadecimal constant `w` denotes `n * 2 ^ e`.
* `Stops.scan`, `LongestNumeral.not_hexStart`: what cannot follow the longest numeral.
-/

namespace Citadel.Number

open Citadel.Lib.Byte List

/-! ## The grammar -/

def decimalValue (w : List UInt8) : ℕ := digitsValue (w.map fun c => c.toNat - 48)

def hexValue (w : List UInt8) : ℕ := w.foldl (fun v c => v * 16 + (hexDigit c).getD 0) 0

/-- An optional sign, and whether it is a minus. -/
def SignPart (w : List UInt8) (neg : Bool) : Prop :=
  (w = [] ∧ neg = false) ∨ (w = ['+'.toUInt8] ∧ neg = false) ∨ (w = ['-'.toUInt8] ∧ neg = true)

/-- An optional exponent behind `mark` in either case, and its value. -/
def ExponentPart (mark : Char) (w : List UInt8) (n : ℤ) : Prop :=
  (w = [] ∧ n = 0) ∨ ∃ c sg neg ds, (c ||| 32) = mark.toUInt8 ∧ SignPart sg neg ∧ ds ≠ [] ∧
    (∀ d ∈ ds, isdigit d = true) ∧ w = c :: (sg ++ ds) ∧
    n = if neg then -(decimalValue ds : ℤ) else decimalValue ds

/-- Digits of a kind with at most one point: the digits before it and those behind it. -/
def Mantissa (digit : UInt8 → Bool) (w ip fp : List UInt8) : Prop :=
  (∀ c ∈ ip, digit c = true) ∧ (∀ c ∈ fp, digit c = true) ∧ (ip ≠ [] ∨ fp ≠ []) ∧
    ((w = ip ∧ fp = []) ∨ w = ip ++ '.'.toUInt8 :: fp)

/-- A decimal constant that denotes `n * 10 ^ e`. -/
def IsDecimal (w : List UInt8) (n : ℕ) (e : ℤ) : Prop :=
  ∃ wm we ip fp x, Mantissa isdigit wm ip fp ∧ ExponentPart 'e' we x ∧ w = wm ++ we ∧
    n = decimalValue (ip ++ fp) ∧ e = x - fp.length

/-- A hexadecimal constant that denotes `n * 2 ^ e`. -/
def IsHexadecimal (w : List UInt8) (n : ℕ) (e : ℤ) : Prop :=
  ∃ c wm we ip fp x, (c ||| 32) = 'x'.toUInt8 ∧ Mantissa isxdigit wm ip fp ∧
    ExponentPart 'p' we x ∧ w = '0'.toUInt8 :: c :: (wm ++ we) ∧
    n = hexValue (ip ++ fp) ∧ e = x - 4 * fp.length

/-- A word with its letters in either case. -/
def IsWord (word : String) (w : List UInt8) : Prop := w.map (· ||| 32) = bytes word

/-- `inf` or `infinity`. -/
def IsInf (w : List UInt8) : Prop := IsWord "inf" w ∨ IsWord "infinity" w

/-- `nan`, perhaps with letters, digits and underscores in parentheses. -/
def IsNan (w : List UInt8) : Prop :=
  ∃ a b, w = a ++ b ∧ IsWord "nan" a ∧ (b = [] ∨ ∃ m, b = '('.toUInt8 :: (m ++ [')'.toUInt8]) ∧
    ∀ c ∈ m, (isalnum c || c = '_'.toUInt8) = true)

/-- A text that denotes a number. -/
def IsNumeral (w : List UInt8) : Prop :=
  (∃ n e, IsDecimal w n e) ∨ (∃ n e, IsHexadecimal w n e) ∨ IsInf w ∨ IsNan w

/-- The longest numeral that a string begins with. -/
def LongestNumeral (s w : List UInt8) : Prop :=
  w <+: s ∧ IsNumeral w ∧ ∀ w', w' <+: s → IsNumeral w' → w'.length ≤ w.length

/-- The significand has at most `d` significant digits. -/
def SignificantDigits (n d : ℕ) : Prop := ∃ T z, n = T * 10 ^ z ∧ T < 10 ^ d

/-! ## Characters -/

variable {c : UInt8} {w r : List UInt8} {neg : Bool} {e : ℤ}

theorem isdigit_iff : isdigit c = true ↔ 48 ≤ c.toNat ∧ c.toNat < 58 := by
  simp [isdigit]

/-- The characters of a decimal constant. -/
def decimalByte (c : UInt8) : Bool :=
  isdigit c || (c = '.'.toUInt8) || ((c ||| 32) = 'e'.toUInt8) || (c = '+'.toUInt8) ||
    (c = '-'.toUInt8)

/-- A digit is neither a sign nor a point nor a space, and the case bit of a letter changes nothing
in it; neither mark of an exponent is a digit or a point, and `x` is in no decimal constant. -/
theorem byte_facts : ∀ c : UInt8, (isdigit c = true → c ≠ '+'.toUInt8 ∧ c ≠ '-'.toUInt8 ∧
    c ≠ '.'.toUInt8 ∧ isspace c = false ∧ (c ||| 32) = c) ∧
    ((c ||| 32) = 'e'.toUInt8 → isdigit c = false ∧ c ≠ '.'.toUInt8) ∧
    ((c ||| 32) = 'x'.toUInt8 → decimalByte c = false) :=
  forall_byte (by decide +kernel)

theorem digit_facts (h : isdigit c = true) : c ≠ '+'.toUInt8 ∧ c ≠ '-'.toUInt8 ∧
    c ≠ '.'.toUInt8 ∧ isspace c = false ∧ (c ||| 32) = c :=
  (byte_facts c).1 h

theorem decimalByte_of_isdigit (h : isdigit c = true) : decimalByte c = true := by
  simp [decimalByte, h]

theorem decimalByte_of_mem_sign (h : SignPart w neg) : ∀ c ∈ w, decimalByte c = true := by
  rintro c hc
  rcases h with ⟨rfl, -⟩ | ⟨rfl, -⟩ | ⟨rfl, -⟩
  · exact absurd hc (by simp)
  · rw [mem_singleton.mp hc]
    decide
  · rw [mem_singleton.mp hc]
    decide

theorem IsDecimal.decimalByte {n : ℕ} (h : IsDecimal w n e) : ∀ c ∈ w, decimalByte c = true := by
  obtain ⟨wm, we, ip, fp, x, ⟨hip, hfp, -, hwm⟩, hwe, rfl, -, -⟩ := h
  intro c hc
  rcases mem_append.mp hc with hc | hc
  · rcases hwm with ⟨rfl, -⟩ | rfl
    · exact decimalByte_of_isdigit (hip c hc)
    · rcases mem_append.mp hc with hc | hc
      · exact decimalByte_of_isdigit (hip c hc)
      · rcases mem_cons.mp hc with rfl | hc
        · decide
        · exact decimalByte_of_isdigit (hfp c hc)
  · rcases hwe with ⟨rfl, -⟩ | ⟨m, sg, neg, ds, hm, hsg, -, hds, rfl, -⟩
    · exact absurd hc (by simp)
    · rcases mem_cons.mp hc with rfl | hc
      · simp [Number.decimalByte, hm]
      · rcases mem_append.mp hc with hc | hc
        · exact decimalByte_of_mem_sign hsg c hc
        · exact decimalByte_of_isdigit (hds c hc)

theorem IsDecimal.head {n : ℕ} (h : IsDecimal w n e) :
    ∃ c w', w = c :: w' ∧ (isdigit c = true ∨ c = '.'.toUInt8) := by
  obtain ⟨wm, we, ip, fp, x, ⟨hip, hfp, hne, hwm⟩, -, rfl, -, -⟩ := h
  cases ip with
  | cons c ip =>
    refine ⟨c, ?_⟩
    rcases hwm with ⟨rfl, -⟩ | rfl
    · exact ⟨_, rfl, .inl (hip c mem_cons_self)⟩
    · exact ⟨_, rfl, .inl (hip c mem_cons_self)⟩
  | nil =>
    rcases hwm with ⟨rfl, rfl⟩ | rfl
    · exact absurd hne (by simp)
    · exact ⟨_, _, rfl, .inr rfl⟩

/-! ## What cannot follow the longest numeral -/

variable {t rest wm we ip fp : List UInt8} {n : ℕ} {x : ℤ} {digit : UInt8 → Bool} {mark : Char}

/-- Digits of a kind with at most one point, and an optional exponent. -/
def IsConstant (digit : UInt8 → Bool) (mark : Char) (w : List UInt8) : Prop :=
  ∃ wm we ip fp x, Mantissa digit wm ip fp ∧ ExponentPart mark we x ∧ w = wm ++ we

/-- The string `t` begins with `w`, and no longer constant begins with `w` there. -/
def Stops (digit : UInt8 → Bool) (mark : Char) (t w : List UInt8) : Prop :=
  ∀ u v, t = w ++ (u ++ v) → u ≠ [] → ¬ IsConstant digit mark (w ++ u)

theorem Mantissa.length_le (h : Mantissa digit wm ip fp) : (ip ++ fp).length ≤ wm.length := by
  rcases h.2.2.2 with ⟨rfl, rfl⟩ | rfl
  · simp
  · simp

theorem LongestNumeral.not_longer {u v : List UInt8}
    (h : LongestNumeral t w) (ht : t = w ++ (u ++ v))
    (hu : u ≠ []) : ¬ IsNumeral (w ++ u) := by
  rintro hd
  have h1 := h.2.2 (w ++ u) ⟨v, by rw [ht, append_assoc]⟩ hd
  have := length_pos_iff.mpr hu
  rw [length_append] at h1
  omega

theorem LongestNumeral.stops_decimal (h : LongestNumeral t w) : Stops isdigit 'e' t w := by
  rintro u v ht hu ⟨wm, we, ip, fp, x, hm, he, hw⟩
  exact h.not_longer ht hu (.inl ⟨_, _, wm, we, ip, fp, x, hm, he, hw, rfl, rfl⟩)

theorem LongestNumeral.stops_hexadecimal
    (h : LongestNumeral ('0'.toUInt8 :: c :: t) ('0'.toUInt8 :: c :: w))
    (hc : (c ||| 32) = 'x'.toUInt8) : Stops isxdigit 'p' t w := by
  rintro u v ht hu ⟨wm, we, ip, fp, x, hm, he, hw⟩
  refine h.not_longer (u := u) (v := v) (by rw [ht]; rfl) hu (.inr (.inl ?_))
  refine ⟨_, _, c, wm, we, ip, fp, x, hc, hm, he, ?_, rfl, rfl⟩
  rw [← hw]
  rfl

theorem forall_mem_append_singleton {ds : List UInt8} (h : ∀ d ∈ ds, digit d = true)
    (hc : digit c = true) : ∀ d ∈ ds ++ [c], digit d = true := by
  simpa [or_imp, forall_and] using ⟨h, hc⟩

theorem Stops.mantissa (h : Stops digit mark t wm) (ht : t = wm ++ rest)
    (hm : Mantissa digit wm ip fp) (hr : rest = c :: r) :
    digit c = false ∧ (wm = ip → c ≠ '.'.toUInt8) := by
  obtain ⟨hip, hfp, hne, hwm⟩ := hm
  have hno : ¬ IsConstant digit mark (wm ++ [c]) :=
    h [c] r (by rw [ht, hr]; rfl) (by simp)
  constructor
  · by_contra hc
    have hd : digit c = true := by simpa using hc
    refine hno ?_
    rcases hwm with ⟨rfl, rfl⟩ | rfl
    · exact ⟨wm ++ [c], [], wm ++ [c], [], 0, ⟨forall_mem_append_singleton hip hd, hfp,
        .inl (by simp), .inl ⟨rfl, rfl⟩⟩, .inl ⟨rfl, rfl⟩, by simp⟩
    · exact ⟨ip ++ '.'.toUInt8 :: (fp ++ [c]), [], ip, fp ++ [c], 0,
        ⟨hip, forall_mem_append_singleton hfp hd, .inr (by simp), .inr rfl⟩,
        .inl ⟨rfl, rfl⟩, by simp⟩
  · rintro rfl rfl
    refine hno ?_
    have hfp0 : fp = [] := by
      rcases hwm with ⟨-, h⟩ | h
      · exact h
      · have := congrArg List.length h
        simp at this
    subst hfp0
    exact ⟨wm ++ ['.'.toUInt8], [], wm, [], 0, ⟨hip, by simp, hne, .inr rfl⟩,
      .inl ⟨rfl, rfl⟩, by simp⟩

theorem Stops.no_exponent (h : Stops digit mark t wm) (ht : t = wm ++ rest)
    (hm : Mantissa digit wm ip fp) {d : UInt8} {sg : List UInt8}
    (hc : (c ||| 32) = mark.toUInt8) (hsg : SignPart sg neg) (hd : isdigit d = true) :
    rest ≠ c :: (sg ++ d :: r) := by
  rintro rfl
  refine h (c :: (sg ++ [d])) r (by rw [ht]; simp) (by simp) ?_
  refine ⟨wm, c :: (sg ++ [d]), ip, fp, _, hm, .inr ⟨c, sg, neg, [d], hc, hsg, by simp, ?_,
    rfl, rfl⟩, rfl⟩
  simpa using hd

theorem Stops.exponent {sg ds : List UInt8} {m : UInt8}
    (h : Stops digit mark t (wm ++ m :: (sg ++ ds))) (ht : t = wm ++ m :: (sg ++ ds) ++ rest)
    (hm : Mantissa digit wm ip fp) (hmark : (m ||| 32) = mark.toUInt8) (hsg : SignPart sg neg)
    (hds : ∀ d ∈ ds, isdigit d = true) (hr : rest = c :: r) : isdigit c = false := by
  by_contra hc
  have hd : isdigit c = true := by simpa using hc
  refine h [c] r (by rw [ht, hr]; rfl) (by simp) ?_
  exact ⟨wm, m :: (sg ++ (ds ++ [c])), ip, fp, _, hm, .inr ⟨m, sg, neg, ds ++ [c], hmark, hsg,
    by simp, forall_mem_append_singleton hds hd, rfl, rfl⟩, by simp⟩

/-- **Where a scanner stops**: behind the mantissa, and behind the exponent if there is one. -/
theorem Stops.scan (h : Stops digit mark t (wm ++ we)) (ht : t = wm ++ we ++ rest)
    (hm : Mantissa digit wm ip fp) (he : ExponentPart mark we x)
    (hmark : ∀ c : UInt8, (c ||| 32) = mark.toUInt8 → digit c = false ∧ c ≠ '.'.toUInt8) :
    (∀ d r, we ++ rest = d :: r → digit d = false ∧ (wm = ip → d ≠ '.'.toUInt8)) ∧
    (we = [] → ∀ c sg neg d r, (c ||| 32) = mark.toUInt8 → SignPart sg neg →
      isdigit d = true → rest ≠ c :: (sg ++ d :: r)) ∧
    (we ≠ [] → ∀ c r, rest = c :: r → isdigit c = false) := by
  refine ⟨?_, ?_, ?_⟩
  · intro d r hdr
    rcases he with ⟨rfl, -⟩ | ⟨m, sg, neg, ds, hm', -, -, -, rfl, -⟩
    · rw [append_nil] at h ht
      exact h.mantissa ht hm hdr
    · rw [← (List.cons.inj hdr).1]
      exact ⟨(hmark m hm').1, fun _ => (hmark m hm').2⟩
  · rintro rfl c sg neg d r hc hsg hd
    rw [append_nil] at h ht
    exact h.no_exponent ht hm hc hsg hd
  · intro hne d r hdr
    rcases he with ⟨h0, -⟩ | ⟨m, sg, neg, ds, hm', hsg, -, hds, rfl, -⟩
    · exact absurd h0 hne
    · exact h.exponent ht hm hm' hsg hds hdr

/-- The string goes on with a hexadecimal constant of three or four characters. -/
theorem exists_hexadecimal (h : hexStart t = true) : ∃ c0 c1 t' w', t = c0 :: c1 :: t' ∧
    (c1 ||| 32) = 'x'.toUInt8 ∧ w' <+: t ∧ 3 ≤ w'.length ∧ ∃ n e, IsHexadecimal w' n e := by
  unfold hexStart at h
  simp only [Bool.and_eq_true, Bool.or_eq_true, decide_eq_true_iff] at h
  obtain ⟨⟨h0, h1⟩, h2⟩ := h
  match t, h0, h1, h2 with
  | [_, _], _, _, h2 =>
    exact absurd h2 (show ¬ (isxdigit 0 = true ∨ (0 : UInt8) = '.'.toUInt8 ∧ isxdigit 0 = true) by
      decide)
  | c0 :: c1 :: c2 :: t', h0, h1, h2 =>
    obtain rfl : c0 = '0'.toUInt8 := h0
    rcases h2 with h2 | ⟨h2, h3⟩
    · refine ⟨_, c1, _, ['0'.toUInt8, c1, c2], rfl, h1, ⟨t', rfl⟩, by simp, _, _, c1, [c2],
        [], [c2], [], 0, h1, ⟨?_, by simp, .inl (by simp), .inl ⟨rfl, rfl⟩⟩, .inl ⟨rfl, rfl⟩, rfl,
        rfl, rfl⟩
      simpa using h2
    · match t', h3 with
      | [], h3 => exact absurd h3 (show ¬ isxdigit 0 = true by decide)
      | c3 :: t'', h3 =>
        obtain rfl : c2 = '.'.toUInt8 := h2
        refine ⟨_, c1, _, ['0'.toUInt8, c1, '.'.toUInt8, c3], rfl, h1, ⟨t'', rfl⟩, by simp, _,
          _, c1, ['.'.toUInt8, c3], [], [], [c3], 0, h1, ⟨by simp, ?_, .inr (by simp), .inr rfl⟩,
          .inl ⟨rfl, rfl⟩, rfl, rfl, rfl⟩
        simpa using h3

theorem LongestNumeral.not_hexStart (h : LongestNumeral t w)
    (hw : IsDecimal w n e) : hexStart t = false := by
  by_contra hc
  obtain ⟨c0, c1, t', w', rfl, hx, hpre, hlen, hhex⟩ := exists_hexadecimal (by simpa using hc)
  have h1 := h.2.2 w' hpre (.inr (.inl hhex))
  obtain ⟨r, hr⟩ := h.1
  match w, h1, hr with
  | a :: b :: w, _, hr =>
    simp only [cons_append, List.cons.injEq] at hr
    have hb := hw.decimalByte b (by simp)
    rw [hr.2.1] at hb
    exact absurd hb (by simp [(byte_facts c1).2.2 hx])
  | [], h1, _ | [_], h1, _ => exact absurd (hlen.trans h1) (by simp)

end Citadel.Number
