import Citadel.Number.Strtod

/-!
# The model of floating-point output in `vfprintf.c`

The conversions `%e`, `%f`, `%g` and `%a`. A conversion returns the length of its field and the
bytes it writes, in order; the blocks in which they reach the stream are left out.

A value is expanded to all its decimal digits in limbs of nine digits (`Dec`). Rounding never
changes the limbs: it is the state `K`, `r`, `carry`, through which `rdig` reads the digits.
-/

namespace Citadel.Number

open Citadel.Lib.Limbs Nat

structure Flags where
  left : Bool := false
  plus : Bool := false
  space : Bool := false
  alt : Bool := false
  zero : Bool := false
  upper : Bool := false

/-- The conversions; upper-case forms set `Flags.upper`. -/
inductive Conv where
  | a
  | e
  | f
  | g
deriving DecidableEq

def INT_MAX : ℤ := 2147483647

def pad (c : Char) (n : ℕ) : List UInt8 := List.replicate n c.toUInt8

def emitField (fl : Flags) (w : ℕ) (pre : List UInt8) (zeros : ℕ) (body : List UInt8) :
    List UInt8 :=
  let len := pre.length + zeros + body.length
  let fill := if w > len then w - len else 0
  (if !fl.left && !fl.zero then pad ' ' fill else []) ++ pre ++
    (if !fl.left && fl.zero then pad '0' fill else []) ++ pad '0' zeros ++ body ++
    (if fl.left then pad ' ' fill else [])

/-! ## The decimal expansion -/

def LIMB : ℕ := 1000000000

def MAX_LIMBS : ℕ := 16500 / 9 + 8

/-- The digits of a value and the state of its rounding. -/
structure Dec where
  L : List ℕ
  nd : ℤ
  E0 : ℤ
  E : ℤ
  K : ℤ
  r : ℤ
  carry : Bool

def bigMul (L : List ℕ) (m : ℕ) : List ℕ :=
  let r := mulAdd LIMB m L 0
  -- the rest of the carry becomes new limbs
  r.1 ++ digits LIMB r.2

/-- `__builtin_ctzll` of a number that is not zero. -/
def ctzll (m : ℕ) : ℕ := findGreatest (fun i => 2 ^ i ∣ m) 63

def mulPow2 (L : List ℕ) (e : ℕ) : List ℕ :=
  if 29 ≤ e then mulPow2 (bigMul L (2 ^ 29)) (e - 29)
  else if e ≠ 0 then bigMul L (2 ^ e)
  else L

def mulPow5 (L : List ℕ) (k : ℕ) : List ℕ :=
  if 13 ≤ k then mulPow5 (bigMul L 1220703125) (k - 13) else bigMul L (5 ^ k)

/-- The number of decimal digits of the top limb; `n` more may be found. -/
def topDigits (x : ℕ) : ℕ → ℕ → ℕ
  | 0, top => top
  | n + 1, top => if x ≥ 10 ^ top then topDigits x n (top + 1) else top

/-- The expansion of `m * 2 ^ e`. -/
def decInit (m : ℕ) (e : ℤ) : Dec :=
  if m = 0 then
    { L := [0], nd := 1, E0 := 1, E := 1, K := INT_MAX, r := -1, carry := false }
  else
    let tz := ctzll m
    let m := m >>> tz
    let e := e + tz
    let L := digits LIMB m
    let dexp := if e ≥ 0 then 0 else e
    let L := if e ≥ 0 then mulPow2 L e.toNat else mulPow5 L (-e).toNat
    let nd : ℤ := topDigits (L.getD (L.length - 1) 0) 9 1 + 9 * ((L.length : ℤ) - 1)
    { L := L, nd := nd, E0 := nd + dexp, E := nd + dexp, K := INT_MAX, r := -1, carry := false }

def dig (d : Dec) (i : ℤ) : ℕ :=
  if i < 0 ∨ i ≥ d.nd then 0
  else
    let j := (d.nd - 1 - i).toNat
    d.L.getD (j / 9) 0 / 10 ^ (j % 9) % 10

/-- Is any digit behind the index `i` not zero? -/
def stickyAfter (d : Dec) (i : ℤ) : Bool :=
  (List.range (d.nd - (i + 1)).toNat).any fun k : ℕ => dig d (i + 1 + k) ≠ 0

/-- The last of the first `i` digits that is not a nine. -/
def lastNotNine (d : Dec) : ℕ → ℤ
  | 0 => -1
  | i + 1 => if dig d i = 9 then lastNotNine d i else i

/-- Keep `K` significant digits. -/
def decRound (d : Dec) (K : ℤ) : Dec :=
  let d := { d with K := K, r := -1, carry := false, E := d.E0 }
  if K ≥ d.nd then d
  else if K < 0 then d
  else
    let h := dig d K
    let up := decide (h > 5 ∨ (h = 5 ∧ (stickyAfter d K = true ∨ (K > 0 ∧ dig d (K - 1) % 2 = 1))))
    if !up then d
    else
      let i := lastNotNine d K.toNat
      if i < 0 then { d with carry := true, E := d.E + 1 } else { d with r := i }

/-- Digit `i` of the rounded value. -/
def rdig (d : Dec) (i : ℤ) : ℕ :=
  if d.carry then (if i = 0 then 1 else 0)
  else if i < 0 ∨ i ≥ d.K then 0
  else if d.r ≥ 0 ∧ i ≥ d.r then (if i = d.r then dig d i + 1 else 0)
  else dig d i

/-! ## The parts of a field -/

/-- What `ld_split` finds: the value is `m * 2 ^ e`. -/
structure Ldparts where
  m : ℕ
  e : ℤ := 0
  neg : Bool
  inf : Bool := false
  nan : Bool := false

def ldSplit (y : LDouble) : Ldparts :=
  let ex := (y.se &&& 0x7fff).toNat
  let p : Ldparts := { m := y.m.toNat, neg := y.se >>> 15 ≠ 0 }
  if ex = 0x7fff then
    if y.m <<< 1 ≠ 0 then { p with nan := true } else { p with inf := true }
  else if ex = 0 then { p with e := 1 - 16383 - 63 }
  else if y.m >>> 63 = 0 then { p with nan := true, e := (ex : ℤ) - 16383 - 63 }
  else { p with e := (ex : ℤ) - 16383 - 63 }

def digitChar (d : ℕ) : UInt8 := UInt8.ofNat (48 + d)

/-- The digits of `ux`, in front of those already written. -/
def expDigits (ux : ℕ) (acc : List UInt8) : List UInt8 :=
  if ux / 10 = 0 then digitChar (ux % 10) :: acc
  else expDigits (ux / 10) (digitChar (ux % 10) :: acc)

/-- The exponent `x` behind `letter`, with at least `minDigits` digits. -/
def expStr (x : ℤ) (letter : Char) (minDigits : ℕ) : List UInt8 :=
  let ds := expDigits x.natAbs []
  letter.toUInt8 :: (if x < 0 then '-' else '+').toUInt8 :: (pad '0' (minDigits - ds.length) ++ ds)

/-- The sign of a field. -/
def signPart (neg : Bool) (fl : Flags) : List UInt8 :=
  if neg then ['-'.toUInt8] else if fl.plus then ['+'.toUInt8]
  else if fl.space then [' '.toUInt8] else []

/-- Padding around a sign and a body: blanks in front, or zeros behind the sign, or blanks behind.
The length, and the bytes if there is room for them. -/
def fpField (fl : Flags) (w room : ℕ) (pre body : List UInt8) : ℕ × List UInt8 :=
  let len := pre.length + body.length
  let fill := if w > len then w - len else 0
  if len + fill > room then (len + fill, [])
  else
    (len + fill, (if !(fl.left || fl.zero) then pad ' ' fill else []) ++ pre ++
      (if fl.zero && !fl.left then pad '0' fill else []) ++ body ++
      (if fl.left then pad ' ' fill else []))

/-! ## `%a` -/

def hexChar (upper : Bool) (d : ℕ) : UInt8 :=
  (bytes (if upper then "0123456789ABCDEF" else "0123456789abcdef")).getD d 0

/-- Rounding to `p` hexadecimal digits: the leading digit, the fraction and the exponent. -/
def hexRound (p : ℕ) (lead frac : ℕ) (X : ℤ) : ℕ × ℕ × ℤ :=
  let drop := 64 - 4 * p
  let keep := if drop = 64 then 0 else frac >>> drop
  let rem := if drop = 64 then frac else (frac <<< (64 - drop)) % 2 ^ 64
  let half := 2 ^ 63
  let up := decide (rem > half ∨ (rem = half ∧ (if p ≠ 0 then keep else lead) % 2 = 1))
  let keep := if up then keep + 1 else keep
  let wrap := up && decide (p = 0 ∨ keep >>> (4 * p) ≠ 0)
  let keep := if wrap then 0 else keep
  let lead := if wrap then lead + 1 else lead
  let X := if lead = 2 then X + 1 else X
  let lead := if lead = 2 then 1 else lead
  (lead, if drop = 64 then 0 else (keep <<< drop) % 2 ^ 64, X)

/-- The number of hexadecimal digits of a fraction up to the last that is not zero. -/
def hexLength (frac : ℕ) : ℕ → ℕ
  | 0 => 0
  | nd + 1 => if (frac >>> (64 - 4 * (nd + 1))) % 16 = 0 then hexLength frac nd else nd + 1

def fmtHex (v : Ldparts) (w : ℕ) (p : ℤ) (fl : Flags) (pre : List UInt8) (room : ℕ) :
    ℕ × List UInt8 :=
  let s := clzll v.m
  let m := if v.m ≠ 0 then (v.m <<< s) % 2 ^ 64 else v.m
  let X := if v.m ≠ 0 then v.e + 63 - s else 0
  let frac := (m <<< 1) % 2 ^ 64
  let lead := if m ≠ 0 then 1 else 0
  let r := if p ≥ 0 ∧ p < 16 then hexRound p.toNat lead frac X else (lead, frac, X)
  let p := if p < 0 then hexLength r.2.1 16 else p.toNat
  let ndig := if p < 16 then p else 16
  let body := hexChar fl.upper r.1 :: ((if p ≠ 0 ∨ fl.alt = true then ['.'.toUInt8] else []) ++
    (List.range ndig).map fun i => hexChar fl.upper ((r.2.1 >>> (60 - 4 * i)) % 16))
  let es := expStr (if m ≠ 0 then r.2.2 else 0) (if fl.upper then 'P' else 'p') 1
  let pfx := pre ++ ['0'.toUInt8, (if fl.upper then 'X' else 'x').toUInt8]
  fpField fl w room pfx (body ++ pad '0' (p - ndig) ++ es)

/-! ## `%e`, `%f` and `%g` -/

/-- The number of fraction digits once trailing zeros are dropped; `digit i` is fraction digit `i`.
-/
def stripFrac (digit : ℕ → ℕ) : ℕ → ℕ
  | 0 => 0
  | nfrac + 1 => if digit (nfrac + 1) = 0 then stripFrac digit nfrac else nfrac + 1

/-- The fraction of a field, behind a point if there is a fraction or the flag `#`. -/
def fraction (fl : Flags) (nfrac : ℕ) (digit : ℕ → ℕ) : List UInt8 :=
  (if nfrac ≠ 0 ∨ fl.alt = true then ['.'.toUInt8] else []) ++
    (List.range nfrac).map fun i => digitChar (digit (i + 1))

def fmtE (d : Dec) (zero strip : Bool) (p : ℤ) (fl : Flags) : List UInt8 :=
  let d := decRound d (p + 1)
  let X := if zero then 0 else d.E - 1
  let digit := fun i : ℕ => rdig d i
  let nfrac := if strip then stripFrac digit p.toNat else p.toNat
  digitChar (rdig d 0) :: (fraction fl nfrac digit ++ expStr X (if fl.upper then 'E' else 'e') 2)

def fmtF (d : Dec) (zero strip : Bool) (p : ℤ) (fl : Flags) : List UInt8 :=
  let d :=
    if zero = true ∨ d.E0 + p < 0 then decRound d (-1)
    else decRound d (if d.E0 + p > INT_MAX then INT_MAX else d.E0 + p)
  let E := d.E
  let digit := fun i : ℕ => rdig d (E + i - 1)
  let nfrac := if strip then stripFrac digit p.toNat else p.toNat
  (if E > 0 then (List.range E.toNat).map fun i : ℕ => digitChar (rdig d i) else [digitChar 0]) ++
    fraction fl nfrac digit

/-- A floating-point conversion: the length of the field, and its bytes if there is room. -/
def fmtFp (y : LDouble) (w : ℕ) (p : ℤ) (fl : Flags) (t : Conv) (room : ℕ) : ℕ × List UInt8 :=
  let v := ldSplit y
  let pre := signPart v.neg fl
  if v.inf || v.nan then
    let s :=
      if v.nan then (if fl.upper then "NAN" else "nan") else if fl.upper then "INF" else "inf"
    let n := if w > pre.length + 3 then w else pre.length + 3
    (n, if n ≤ room then
      emitField { fl with zero := false } w pre 0 (bytes s) else [])
  else
    let q := if p < 0 then 6 else p
    let d := decInit v.m v.e
    let zero := decide (v.m = 0)
    match t with
    | .a => fmtHex v w p fl pre room
    | .e => fpField fl w room pre (fmtE d zero false q fl)
    | .f => fpField fl w room pre (fmtF d zero false q fl)
    | .g =>
      let P := if q ≠ 0 then q else 1
      let d := decRound d P
      let X := if zero then 0 else d.E - 1
      if P > X ∧ X ≥ -4 then fpField fl w room pre (fmtF d zero (!fl.alt) (P - 1 - X) fl)
      else fpField fl w room pre (fmtE d zero (!fl.alt) (P - 1) fl)

end Citadel.Number
