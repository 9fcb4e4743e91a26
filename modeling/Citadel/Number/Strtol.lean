import Citadel.Number.Strtod

/-!
# Integers as text

`strtox` of `src/strtol.c`, through which the functions of the `strtol` family go, and `fmt_u` of
`src/vfprintf.c`. The accumulator is a number below `2 ^ 64`; the end pointer is the part of the
string it points to.

* `strtoul_fmtU`: an unsigned number that was printed in base 10 is read back.
-/

namespace Citadel.Number

open Nat List

/-! ## Parsing -/

def digitVal (c : UInt8) : ℕ :=
  if c - 48 < 10 then (c - 48).toNat
  else if (c ||| 32) - 97 < 26 then ((c ||| 32) - 97).toNat + 10
  else 99

/-- The digit loop: the accumulator, whether it overflowed, and the rest. -/
def accumulate (base : ℕ) : List UInt8 → ℕ → Bool → ℕ × Bool × List UInt8
  | [], acc, ovf => (acc, ovf, [])
  | c :: s, acc, ovf =>
    if digitVal c < base then
      if 2 ^ 64 ≤ acc * base then accumulate base s (acc * base % 2 ^ 64) true
      else if 2 ^ 64 ≤ acc * base + digitVal c then
        accumulate base s ((acc * base + digitVal c) % 2 ^ 64) true
      else accumulate base s (acc * base + digitVal c) ovf
    else (acc, ovf, c :: s)

inductive Errno where
  | EINVAL
  | ERANGE
deriving DecidableEq, Repr

/-- The value of an `unsigned long long`, the end pointer and `errno`, if it is set. -/
structure IntParsed where
  value : ℕ
  rest : List UInt8
  errno : Option Errno
deriving DecidableEq, Repr

/-- The base, once a leading `0x` or `0` is seen. -/
def baseOf (s : List UInt8) (base : ℕ) : ℕ × List UInt8 :=
  if (base = 0 ∨ base = 16) ∧ peek s = '0'.toUInt8 ∧ (peek s.tail ||| 32) = 'x'.toUInt8 ∧
      digitVal (peek (s.drop 2)) < 16 then (16, s.drop 2)
  else if base = 0 then (if peek s = '0'.toUInt8 then 8 else 10, s)
  else (base, s)

def strtox (s0 : List UInt8) (base : ℤ) (isSigned : Bool) (max : ℕ) : IntParsed :=
  if base < 0 ∨ base = 1 ∨ base > 36 then ⟨0, s0, some .EINVAL⟩
  else
    let (neg, s) := skipSign (s0.dropWhile isspace)
    let (base, start) := baseOf s base.toNat
    let (acc, ovf, s) := accumulate base start 0 false
    if s.length = start.length then ⟨0, s0, none⟩
    else if isSigned then
      let lim := if neg then max + 1 else max
      if ovf ∨ acc > lim then ⟨if neg then 2 ^ 64 - max - 1 else max, s, some .ERANGE⟩
      else ⟨if neg then (2 ^ 64 - acc) % 2 ^ 64 else acc, s, none⟩
    else if ovf ∨ acc > max then ⟨max, s, some .ERANGE⟩
    else ⟨if neg then (2 ^ 64 - acc) % 2 ^ 64 else acc, s, none⟩

def strtoul (s : List UInt8) (base : ℤ) : IntParsed := strtox s base false (2 ^ 64 - 1)

/-! ## Printing -/

/-- `digits[d]` -/
def digitOf (upper : Bool) (d : ℕ) : UInt8 :=
  (bytes (if upper then "0123456789ABCDEF" else "0123456789abcdef")).getD d 0

/-- The loop of `fmt_u`, in which a number has at most `n` digits. -/
def fmtULoop (base : ℕ) (upper : Bool) : ℕ → ℕ → List UInt8 → List UInt8
  | 0, _, out => out
  | n + 1, x, out =>
    if x / base = 0 then digitOf upper (x % base) :: out
    else fmtULoop base upper n (x / base) (digitOf upper (x % base) :: out)

/-- `fmt_u`; a number of 64 bits has no more digits than bits. -/
def fmtU (x base : ℕ) (upper : Bool) : List UInt8 := fmtULoop base upper 64 x []

/-! ## Reading a number that was printed -/

variable {upper : Bool} {d base : ℕ}

theorem digitVal_digitOf (h : d < 16) : digitVal (digitOf upper d) = d := by
  have : ∀ u : Bool, ∀ d : Fin 16, digitVal (digitOf u d) = d := by decide
  exact this upper ⟨d, h⟩

theorem accumulate_digit {acc : ℕ} (hb : base ≤ 16) (hd : d < base)
    (hroom : acc * base + d < 2 ^ 64) (s : List UInt8) (ovf : Bool) :
    accumulate base (digitOf upper d :: s) acc ovf = accumulate base s (acc * base + d) ovf := by
  have hval : digitVal (digitOf upper d) = d := digitVal_digitOf (by omega)
  rw [accumulate, hval, if_pos hd, if_neg (by omega), if_neg (by omega)]

theorem accumulate_fmtULoop (hb : 1 < base) (hb' : base ≤ 16) (t : List UInt8)
    (ovf : Bool) : ∀ (n x : ℕ), x < base ^ n → x < 2 ^ 64 → ∀ out : List UInt8,
      accumulate base (fmtULoop base upper n x out ++ t) 0 ovf = accumulate base (out ++ t) x ovf
  | 0, x, hx, _, out => by
    obtain rfl : x = 0 := by simpa using hx
    rfl
  | n + 1, x, hx, hx64, out => by
    have hmod : x % base < base := mod_lt x (by omega)
    have hsum : x / base * base + x % base = x := div_add_mod' x base
    rw [fmtULoop]
    by_cases h0 : x / base = 0
    · rw [h0, Nat.zero_mul, Nat.zero_add] at hsum
      rw [if_pos h0, cons_append, accumulate_digit hb' hmod (by omega), Nat.zero_mul, Nat.zero_add,
        hsum]
    · rw [if_neg h0, accumulate_fmtULoop hb hb' t ovf n (x / base)
          (Nat.div_lt_of_lt_mul (by rwa [← pow_succ'])) ((Nat.div_le_self x base).trans_lt hx64),
        cons_append, accumulate_digit hb' hmod (by omega), hsum]

theorem fmtULoop_head (upper : Bool) (hb : 1 < base) : ∀ (n x : ℕ) (out : List UInt8),
    ∃ d l, d < base ∧ fmtULoop base upper (n + 1) x out = digitOf upper d :: (l ++ out)
  | 0, x, out => by
    refine ⟨x % base, [], mod_lt x (by omega), ?_⟩
    rw [fmtULoop, fmtULoop]
    split_ifs
    · rfl
    · rfl
  | n + 1, x, out => by
    rw [fmtULoop]
    by_cases h0 : x / base = 0
    · exact ⟨x % base, [], mod_lt x (by omega), if_pos h0⟩
    · obtain ⟨d, l, hd, hl⟩ := fmtULoop_head upper hb n (x / base) (digitOf upper (x % base) :: out)
      exact ⟨d, l ++ [digitOf upper (x % base)], hd, by
        rw [if_neg h0, hl, append_assoc, singleton_append]⟩

theorem digitOf_plain (h : d < 10) : isdigit (digitOf false d) = true ∧
    isspace (digitOf false d) = false ∧ digitOf false d ≠ '+'.toUInt8 ∧
    digitOf false d ≠ '-'.toUInt8 := by
  have : ∀ d : Fin 10, isdigit (digitOf false d) = true ∧ isspace (digitOf false d) = false ∧
    digitOf false d ≠ '+'.toUInt8 ∧ digitOf false d ≠ '-'.toUInt8 := by decide
  exact this ⟨d, h⟩

theorem strtoul_digits {c : UInt8} {s t : List UInt8} {x : ℕ} (hspace : isspace c = false)
    (hplus : c ≠ '+'.toUInt8) (hminus : c ≠ '-'.toUInt8) (hacc : accumulate 10 (c :: s) 0 false =
      (x, false, t)) (hlen : t.length ≤ s.length) (hx : x < 2 ^ 64) :
    strtoul (c :: s) 10 = ⟨x, t, none⟩ := by
  have hdrop : (c :: s).dropWhile isspace = c :: s := dropWhile_cons_of_neg (by rw [hspace]; decide)
  have hsign : skipSign (c :: s) = (false, c :: s) := if_neg (not_or.mpr ⟨hplus, hminus⟩)
  have hbase : baseOf (c :: s) (10 : ℤ).toNat = (10, c :: s) := by
    rw [show (10 : ℤ).toNat = 10 from rfl, baseOf, if_neg (by omega), if_neg (by omega)]
  have hread : ¬ t.length = (c :: s).length := by
    rw [length_cons]
    omega
  have hovf : ¬ (False ∨ x > 2 ^ 64 - 1) := not_or.mpr ⟨not_false, by omega⟩
  rw [strtoul, strtox, if_neg (by omega)]
  simp only [hdrop, hsign, hbase, hacc, hread, if_false, Bool.false_eq_true, hovf]

theorem strtoul_fmtU {x : ℕ} (hx : x < 2 ^ 64) {t : List UInt8} (ht : 10 ≤ digitVal (peek t)) :
    strtoul (fmtU x 10 false ++ t) 10 = ⟨x, t, none⟩ := by
  obtain ⟨d, l, hd, hl⟩ := fmtULoop_head false (show 1 < 10 by decide) 63 x []
  obtain ⟨-, hspace, hplus, hminus⟩ := digitOf_plain hd
  have hacc : accumulate 10 (fmtU x 10 false ++ t) 0 false = (x, false, t) := by
    rw [fmtU, accumulate_fmtULoop (by decide) (by decide) t false 64 x
      (hx.trans (Nat.pow_lt_pow_left (by decide) (by decide))) hx]
    cases t with
    | nil => rfl
    | cons c t => exact if_neg (not_lt.mpr ht)
  have hcons : fmtU x 10 false ++ t = digitOf false d :: (l ++ t) := by
    rw [fmtU, hl, append_nil, cons_append]
  rw [hcons] at hacc ⊢
  refine strtoul_digits hspace hplus hminus hacc ?_ hx
  rw [length_append]
  exact Nat.le_add_left _ _

theorem isdigit_peek_fmtU (x : ℕ) (t : List UInt8) :
    isdigit (peek (fmtU x 10 false ++ t)) = true := by
  obtain ⟨d, l, hd, hl⟩ := fmtULoop_head false (show 1 < 10 by decide) 63 x []
  rw [fmtU, hl]
  exact (digitOf_plain hd).1

end Citadel.Number
