import Citadel.Lib.Limbs
import Citadel.Number.LongDouble

/-!
# The model of `strtod.c`

Floating-point parsing: `strtod`, `strtof`, `strtold` and `atof`. A string is the list of its bytes
before the terminating zero; the end pointer is the part of the string it points to. Next to its
value each function returns whether it sets `errno` to `ERANGE`.

Big integers are lists of 32-bit limbs, the least significant first. The arithmetic on `double` and
`long double` in the fast paths is exact arithmetic followed by one rounding to the format.
-/

namespace Citadel.Number

open Citadel.Lib.Rounding Citadel.Lib.Limbs

def maxDigits : ℕ := 800

/-! ## Result assembly -/

/-- The end of `round_to`: overflow, then underflow. -/
def roundEnd (keep : ℕ) (E : ℤ) (inexact : Bool) (F : Ffmt) (neg : Bool) : LDouble × Bool :=
  if keep ≠ 0 ∧ E > F.format.emax then (makeInf neg, true)
  else (makeLd keep E neg, inexact && decide (keep >>> (F.format.prec - 1) = 0))

/-- Round `Q * 2 ^ E`, plus a sticky amount below the last bit of `Q`, to the format. -/
def roundTo (Q : ℕ) (E : ℤ) (sticky : Bool) (F : Ffmt) (neg : Bool) : LDouble × Bool :=
  if Q = 0 then (makeLd 0 0 neg, false)
  else
    let bl : ℤ := 128 - (if Q >>> 64 ≠ 0 then clzll (Q >>> 64) else 64 + clzll Q : ℕ)
    let drop := bl - F.format.prec
    let drop := if E + drop < F.format.emin then F.format.emin - E else drop
    if drop > 0 then
      let d := drop.toNat
      let k := if drop ≥ 128 then 0 else Q >>> d
      let rem := if drop ≥ 128 then Q else Q &&& (2 ^ d - 1)
      let half := 2 ^ (d - 1)
      let up := decide ((rem ≠ 0 ∨ sticky = true) ∧ drop ≤ 128 ∧
        (rem > half ∨ (rem = half ∧ (sticky = true ∨ k % 2 = 1))))
      let k := k + up.toNat
      let E := E + drop
      let inexact := sticky || decide (rem ≠ 0)
      -- carry to a new bit
      if k >>> F.format.prec ≠ 0 then roundEnd ((k >>> 1) % 2 ^ 64) (E + 1) inexact F neg
      else roundEnd (k % 2 ^ 64) E inexact F neg
    else roundEnd ((Q <<< (-drop).toNat) % 2 ^ 64) (E + drop) sticky F neg

/-! ## Big integers -/

/-- A big integer: its limbs, the least significant first. -/
abbrev Big := List ℕ

def base : ℕ := 2 ^ 32

def bigSmall (v : ℕ) : Big := if v = 0 then [] else [v]

def bigMuladd (b : Big) (m a : ℕ) : Big :=
  let r := mulAdd base m b a
  if r.2 ≠ 0 then r.1 ++ [r.2 % base] else r.1

def bigMulpow10 (b : Big) (k : ℕ) : Big :=
  if 9 ≤ k then bigMulpow10 (bigMuladd b 1000000000 0) (k - 9)
  else if k ≠ 0 then bigMuladd b (10 ^ k) 0
  else b

/-- The bit shift of `big_shl`, limb by limb: the limbs and the bits shifted out. -/
def shiftLimbs (s : ℕ) : Big → ℕ → Big × ℕ
  | [], c => ([], c)
  | t :: ds, c =>
    let r := shiftLimbs s ds (t >>> (32 - s))
    (((t <<< s) % base ||| c) :: r.1, r.2)

def bigShl (b : Big) (k : ℕ) : Big :=
  if b = [] ∨ k = 0 then b
  else
    let w := k / 32
    let s := k % 32
    let b :=
      if s ≠ 0 then
        let r := shiftLimbs s b 0
        if r.2 ≠ 0 then r.1 ++ [r.2] else r.1
      else b
    List.replicate w 0 ++ b

/-- `__builtin_clz` of a limb that is not zero. -/
def clz (x : ℕ) : ℕ := 32 - x.size

def bigBits (b : Big) : ℤ :=
  if b ≠ [] then 32 * ((b.length : ℤ) - 1) + 32 - clz (b.getLastD 0) else 0

def bigCmp (a b : Big) : ℤ :=
  if a.length ≠ b.length then (if a.length < b.length then -1 else 1)
  else cmpLimbs a.reverse b.reverse

def bigSub (a b : Big) : Big := strip (subBorrow base a b 0)

/-- The loop of `big_top`, from the bit `bit` down; each round takes at least one bit. -/
def bigTopLoop (b : Big) (nb want : ℤ) : ℕ → ℤ → ℕ → ℕ
  | 0, _, r => r
  | fuel + 1, bit, r =>
    if bit ≥ 0 ∧ bit ≥ nb - want then
      let limb := bit / 32
      let lo := limb * 32
      let take := bit - lo + 1
      let need := want - (nb - 1 - bit)
      let v := b.getD limb.toNat 0
      if take > need then
        bigTopLoop b nb want fuel (bit - need)
          (r <<< need.toNat ||| (v >>> (take - need).toNat &&& (2 ^ need.toNat - 1)))
      else
        bigTopLoop b nb want fuel (bit - take) (r <<< take.toNat ||| (v &&& (2 ^ take.toNat - 1)))
    else r

/-- The top `want` bits of `b` as an integer, and `bits b - want`. -/
def bigTop (b : Big) (want : ℤ) : ℕ × ℤ :=
  let nb := bigBits b
  let r := bigTopLoop b nb want nb.toNat (nb - 1) 0
  (if nb < want then r <<< (want - nb).toNat else r, nb - want)

def bigMul128 (a : Big) (m : ℕ) : Big :=
  let md := Nat.digits base m
  strip (mulRows base a md (List.replicate (a.length + md.length) 0))

/-! ## Decimal -/

/-- The number spelt by decimal digits, the most significant first. -/
def digitsValue (digits : List ℕ) : ℕ := digits.foldl (fun v d => v * 10 + d) 0

def exact10 (k : ℕ) : ℚ := Ffmt.dbl.format.rnd (10 ^ k)

def p10l (k : ℕ) : ℚ := Ffmt.ldbl.format.rnd (10 ^ k)

/-- The digits as a big integer, nine at a time. -/
def bigDigits (digits : List ℕ) (num : Big) : Big :=
  if h : digits = [] then num
  else
    let chunk := digitsValue (digits.take 9)
    let mul := 10 ^ (digits.take 9).length
    bigDigits (digits.drop 9) (if num = [] then bigSmall chunk else bigMuladd num mul chunk)
termination_by digits.length
decreasing_by
  rw [List.length_drop]
  have := List.length_pos_iff.mpr h
  omega

/-- The loop that corrects the quotient upwards: the remainder and the quotient. -/
def correct (den : Big) : ℕ → Big → ℕ → Big × ℕ
  | 0, num, Q => (num, Q)
  | fuel + 1, num, Q =>
    if bigCmp num den ≥ 0 then correct den fuel (bigSub num den) (Q + 1) else (num, Q)

/-- Remainder and quotient of `num` by `den`: an estimate from the top bits with a divisor rounded
up, then a correction. The value of the numerator bounds the number of corrections. -/
def bigQuotient (num den : Big) : Big × ℕ :=
  let N := bigTop num 128
  let D := bigTop den 64
  let Q := N.1 / (D.1 + 1)
  let sh := N.2 - D.2
  let Q := if sh ≥ 0 then (Q <<< sh.toNat) % 2 ^ 128 else Q >>> (-sh).toNat
  let num := bigSub num (bigMul128 den Q)
  correct den (Nat.ofDigits base num) num Q

/-- The big-integer path of `decimal`. -/
def decimalBig (digits : List ℕ) (q : ℤ) (sticky : Bool) (F : Ffmt) (neg : Bool) :
    LDouble × Bool :=
  let num := bigDigits digits (bigSmall 0)
  let den := bigSmall 1
  let num := if q ≥ 0 then bigMulpow10 num q.toNat else num
  let den := if q ≥ 0 then den else bigMulpow10 den (-q).toNat
  let e := bigBits num - bigBits den - F.format.prec - 2
  let num := if e < 0 then bigShl num (-e).toNat else num
  let den := if e < 0 then den else bigShl den e.toNat
  let r := bigQuotient num den
  roundTo r.2 e (sticky || decide (r.1.length ≠ 0)) F neg

/-- The product or quotient by a power of ten that the fast paths round. -/
def scaled (v : ℚ) (q : ℤ) (p10 : ℕ → ℚ) : ℚ :=
  if q < 0 then v / p10 (-q).toNat else v * p10 q.toNat

/-- The result of the middle path, unless the 64-bit result is on a halfway point or out of range.
-/
def decimalMiddle (digits : List ℕ) (q : ℤ) (F : Ffmt) (neg : Bool) : Option LDouble :=
  let v := digitsValue digits
  let r := LDouble.ofValue
    (Ffmt.ldbl.format.round false (scaled (Ffmt.ldbl.format.rnd v) q p10l))
  let drop := 64 - F.format.prec
  let low := r.m.toNat &&& (2 ^ drop - 1)
  let X : ℤ := ((r.se &&& 0x7fff).toNat : ℤ) - 16383
  let maxX := F.format.emax + F.format.prec - 1
  let minX := F.format.emin + F.format.prec - 1
  if low ≠ 2 ^ (drop - 1) ∧ X ≤ maxX ∧ X ≥ minX then
    let res := F.format.convert r.value
    some (LDouble.ofValue (if neg then res.negate else res))
  else none

/-- `digits * 10 ^ q` in the format; the digits have no leading zero. -/
def decimal (digits : List ℕ) (q : ℤ) (sticky : Bool) (F : Ffmt) (neg : Bool) : LDouble × Bool :=
  let nd := digits.length
  if nd = 0 then (makeLd 0 0 neg, false)
  else if q + nd > F.dmax then (makeInf neg, true)
  else if q + nd < F.dmin then (makeLd 0 0 neg, true)
  else if F = .dbl ∧ nd ≤ 15 ∧ sticky = false ∧ q ≥ -22 ∧ q ≤ 22 then
    let d := Ffmt.dbl.format.rnd (digitsValue digits)
    let r := Ffmt.dbl.format.round false (scaled d q exact10)
    (LDouble.ofValue (if neg then r.negate else r), false)
  else if F ≠ .ldbl ∧ nd ≤ 19 ∧ sticky = false ∧ q ≥ -27 ∧ q ≤ 27 then
    match decimalMiddle digits q F neg with
    | some r => (r, false)
    | none => decimalBig digits q sticky F neg
  else decimalBig digits q sticky F neg

/-! ## The parser -/

def isspace (c : UInt8) : Bool := c = ' '.toUInt8 ∨ 9 ≤ c.toNat ∧ c.toNat < 14

def isdigit (c : UInt8) : Bool := 48 ≤ c.toNat ∧ c.toNat < 58

def isalpha (c : UInt8) : Bool := 97 ≤ (c ||| 32).toNat ∧ (c ||| 32).toNat < 123

def isalnum (c : UInt8) : Bool := isalpha c || isdigit c

def isxdigit (c : UInt8) : Bool :=
  isdigit c || decide (97 ≤ (c ||| 32).toNat ∧ (c ||| 32).toNat < 103)

/-- The byte a pointer points to: the terminating zero at the end of the string. -/
def peek (s : List UInt8) : UInt8 := s.headD 0

/-- The bytes of a word of the source. -/
def bytes (w : String) : List UInt8 := w.toList.map Char.toUInt8

/-- The loop of `ci_prefix` with `i` letters compared. -/
def ciLoop : List UInt8 → List UInt8 → ℕ → ℕ
  | _, [], i => i
  | s, w :: word, i => if (peek s ||| 32) ≠ w then 0 else ciLoop s.tail word (i + 1)

def ciPrefix (s : List UInt8) (word : String) : ℕ := ciLoop s (bytes word) 0

def skipSign (s : List UInt8) : Bool × List UInt8 :=
  if peek s = '+'.toUInt8 ∨ peek s = '-'.toUInt8 then (decide (peek s = '-'.toUInt8), s.tail)
  else (false, s)

/-- The digits of an exponent, which saturates. -/
def expLoop : List UInt8 → ℤ → ℤ × List UInt8
  | [], x => (x, [])
  | c :: s, x =>
    if isdigit c then expLoop s (if x < 100000000 then x * 10 + ((c.toNat : ℤ) - 48) else x)
    else (x, c :: s)

/-- The exponent part behind `mark`, if there is one. -/
def exponentPart (mark : Char) (s : List UInt8) : ℤ × List UInt8 :=
  if (peek s ||| 32) = mark.toUInt8 then
    let p := skipSign s.tail
    if isdigit (peek p.2) then
      let r := expLoop p.2 0
      (if p.1 then -r.1 else r.1, r.2)
    else (0, s)
  else (0, s)

/-- What a parse returns: the value, whether `errno` is set, and what `*end` points to. -/
structure Parsed where
  value : LDouble
  erange : Bool
  rest : List UInt8

def parseInf (neg : Bool) (s : List UInt8) : Parsed :=
  let s := s.drop (ciPrefix s "inf")
  { value := makeInf neg, erange := false, rest := s.drop (ciPrefix s "inity") }

def parseNan (neg : Bool) (s : List UInt8) : Parsed :=
  let s := s.drop (ciPrefix s "nan")
  let p := s.tail.dropWhile fun c => isalnum c || c = '_'.toUInt8
  let s := if peek s = '('.toUInt8 ∧ peek p = ')'.toUInt8 then p.tail else s
  { value := makeNan neg, erange := false, rest := s }

structure HexScan where
  Q : ℕ := 0
  bits : ℕ := 0
  sticky : Bool := false
  dot : Bool := false
  e : ℤ := 0

def hexDigit (c : UInt8) : Option ℕ :=
  if isdigit c then some (c.toNat - 48)
  else if 97 ≤ (c ||| 32).toNat ∧ (c ||| 32).toNat < 103 then some ((c ||| 32).toNat - 97 + 10)
  else none

/-- One hexadecimal digit; 124 significant bits are kept, the rest is sticky. -/
def HexScan.digit (st : HexScan) (d : ℕ) : HexScan :=
  if st.Q = 0 ∧ d = 0 then { st with e := if st.dot then st.e - 4 else st.e }
  else if st.bits < 124 then
    { st with Q := (st.Q <<< 4) % 2 ^ 128 ||| d, bits := st.bits + 4
              e := if st.dot then st.e - 4 else st.e }
  else
    { st with sticky := st.sticky || decide (d ≠ 0)
              e := if st.dot then st.e else st.e + 4 }

def hexLoop : List UInt8 → HexScan → HexScan × List UInt8
  | [], st => (st, [])
  | c :: s, st =>
    if c = '.'.toUInt8 ∧ st.dot = false then hexLoop s { st with dot := true }
    else
      match hexDigit c with
      | some d => hexLoop s (st.digit d)
      | none => (st, c :: s)

/-- The hexadecimal branch of `parse`, behind the `0x`. -/
def parseHex (neg : Bool) (s : List UInt8) (F : Ffmt) : Parsed :=
  let r := hexLoop s {}
  let st := r.1
  let x := exponentPart 'p' r.2
  let e := st.e + x.1
  if e > 100000 then
    if st.Q = 0 then { value := makeLd 0 0 neg, erange := false, rest := x.2 }
    else { value := makeInf neg, erange := true, rest := x.2 }
  else if e < -100000 then
    { value := makeLd 0 0 neg, erange := decide (st.Q ≠ 0), rest := x.2 }
  else
    let v := roundTo st.Q e st.sticky F neg
    { value := v.1, erange := v.2, rest := x.2 }

/-- The state of the decimal loop; the digits kept, the last one first. -/
structure DecScan where
  digits : List ℕ := []
  sticky : Bool := false
  dot : Bool := false
  any : Bool := false
  q : ℤ := 0

def DecScan.digit (st : DecScan) (d : ℕ) : DecScan :=
  if d = 0 ∧ st.digits.length = 0 then
    { st with any := true, q := if st.dot then st.q - 1 else st.q }
  else if st.digits.length < maxDigits then
    { st with any := true, digits := d :: st.digits, q := if st.dot then st.q - 1 else st.q }
  else
    { st with any := true, sticky := st.sticky || decide (d ≠ 0)
              q := if st.dot then st.q else st.q + 1 }

def decLoop : List UInt8 → DecScan → DecScan × List UInt8
  | [], st => (st, [])
  | c :: s, st =>
    if c = '.'.toUInt8 ∧ st.dot = false then decLoop s { st with dot := true }
    else if isdigit c then decLoop s (st.digit (c.toNat - 48))
    else (st, c :: s)

/-- Trailing zeros of the significand are dropped; the last digit is first. -/
def dropZeros : List ℕ → ℤ → List ℕ × ℤ
  | 0 :: ds, q => dropZeros ds (q + 1)
  | ds, q => (ds, q)

/-- The decimal branch of `parse`; `s0` is the whole string. -/
def parseDec (s0 : List UInt8) (neg : Bool) (s : List UInt8) (F : Ffmt) : Parsed :=
  let r := decLoop s {}
  let st := r.1
  if st.any = false then { value := makeLd 0 0 false, erange := false, rest := s0 }
  else
    let x := exponentPart 'e' r.2
    let z := dropZeros st.digits (st.q + x.1)
    let v := decimal z.1.reverse z.2 st.sticky F neg
    { value := v.1, erange := v.2, rest := x.2 }

/-- The string goes on as a hexadecimal constant: `0x` and a hexadecimal digit, perhaps behind a
point. -/
def hexStart (s : List UInt8) : Bool :=
  s.getD 0 0 = '0'.toUInt8 && (s.getD 1 0 ||| 32) = 'x'.toUInt8 &&
    (isxdigit (s.getD 2 0) || (decide (s.getD 2 0 = '.'.toUInt8) && isxdigit (s.getD 3 0)))

def parse (s0 : List UInt8) (F : Ffmt) : Parsed :=
  let r := skipSign (s0.dropWhile isspace)
  let neg := r.1
  let s := r.2
  if ciPrefix s "inf" ≠ 0 then parseInf neg s
  else if ciPrefix s "nan" ≠ 0 then parseNan neg s
  else if hexStart s then parseHex neg (s.drop 2) F
  else parseDec s0 neg s F

/-- `strtold`: the bits, `errno` and the end. -/
def strtold (s : List UInt8) : Parsed := parse s .ldbl

/-- What `strtod` and `strtof` return. -/
structure Narrowed where
  value : Value
  erange : Bool
  rest : List UInt8

def strtod (s : List UInt8) : Narrowed :=
  let r := parse s .dbl
  { value := Ffmt.dbl.format.convert r.value.value, erange := r.erange, rest := r.rest }

def strtof (s : List UInt8) : Narrowed :=
  let r := parse s .flt
  { value := Ffmt.flt.format.convert r.value.value, erange := r.erange, rest := r.rest }

def atof (s : List UInt8) : Value := (strtod s).value

end Citadel.Number
