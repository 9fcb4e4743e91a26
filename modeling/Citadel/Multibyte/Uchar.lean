import Citadel.Multibyte.Convert

/-!
# The model of `uchar.c`

The conversions between multibyte characters and `char32_t`, `char16_t` and `char8_t`. What is
pending is kept in the `mbstate_t`: a bit of `__n` tells what it is. The destination of `c32rtomb`,
`c16rtomb` and `c8rtomb` is given by whether there is one; without it the call ends the conversion.
-/

namespace Citadel.Multibyte

open Citadel.Lib.Decoder

/-- A low surrogate still to be returned by `mbrtoc16`. -/
def PEND_LOW : ℕ := 0x80000000
/-- A high surrogate given to `c16rtomb`. -/
def PEND_HIGH : ℕ := 0x40000000
/-- Bytes still to be returned by `mbrtoc8`. -/
def PEND_C8OUT : ℕ := 0x20000000
/-- Bytes given to `c8rtomb`. -/
def PEND_C8IN : ℕ := 0x10000000

/-- What `mbrtoc16` and the like return: a count, `(size_t)-1`, `(size_t)-2`, or `(size_t)-3` for a
unit of the character before. -/
inductive URet where
  | count (r : ℕ)
  | ilseq
  | incomplete
  | stored
deriving DecidableEq

/-- The value returned, the unit stored, and the state. -/
structure UOutcome (α : Type) where
  ret : URet
  c : Option α
  st : Mbstate
deriving DecidableEq

/-- What was written and returned (`none` is `(size_t)-1`), and the state. -/
structure Wrote where
  ret : Option ℕ
  out : List UInt8
  st : Mbstate
deriving DecidableEq

/-- The result of `mbrtowc` passed on. -/
def passOn {α : Type} (r : Outcome) : UOutcome α :=
  match r.ret with
  | .count k => ⟨.count k, none, r.st⟩
  | .ilseq => ⟨.ilseq, none, r.st⟩
  | .incomplete => ⟨.incomplete, none, r.st⟩

/-- The result of `wcrtomb` passed on; without a destination it writes to a buffer. -/
def writeOn (dst : Bool) (c : ℕ) (st : Mbstate) : Wrote :=
  match wcrtomb c with
  | none => ⟨none, [], st⟩
  | some b => ⟨some b.length, if dst then b else [], st⟩

def mbrtoc32 (s : List UInt8) (st : Mbstate) : UOutcome UInt32 :=
  let r := mbrtowc (some s) st
  match r.ret with
  | .count k => ⟨.count k, r.wc.map UInt32.ofNat, r.st⟩
  | _ => passOn r

def c32rtomb (dst : Bool) (c : UInt32) (st : Mbstate) : Wrote :=
  if c.toNat > 0x10ffff ∨ (0xd800 ≤ c.toNat ∧ c.toNat ≤ 0xdfff) then ⟨none, [], st⟩
  else writeOn dst (if dst then c.toNat else 0) st

def mbrtoc16 (s : List UInt8) (st : Mbstate) : UOutcome UInt16 :=
  if st.n &&& PEND_LOW ≠ 0 then ⟨.stored, some (UInt16.ofNat st.st), .init⟩
  else
    let r := mbrtowc (some s) st
    match r.ret with
    | .count k =>
      let wc := r.wc.getD 0
      if wc ≥ 0x10000 then
        let v := wc - 0x10000
        ⟨.count k, some (UInt16.ofNat (0xd800 ||| v >>> 10)), ⟨0xdc00 ||| (v &&& 0x3ff), PEND_LOW⟩⟩
      else ⟨.count k, some (UInt16.ofNat wc), r.st⟩
    | _ => passOn r

def c16rtomb (dst : Bool) (c : UInt16) (st : Mbstate) : Wrote :=
  let c := if dst then c.toNat else 0
  if st.n &&& PEND_HIGH ≠ 0 then
    if c < 0xdc00 ∨ c > 0xdfff then ⟨none, [], .init⟩
    else writeOn dst (0x10000 + (st.st - 0xd800) <<< 10 + (c - 0xdc00)) .init
  else if 0xd800 ≤ c ∧ c ≤ 0xdbff then ⟨some 0, [], ⟨c, PEND_HIGH⟩⟩
  else if 0xdc00 ≤ c ∧ c ≤ 0xdfff then ⟨none, [], st⟩
  else writeOn dst c st

/-- Bytes in one number, the first one lowest. -/
def pack : List UInt8 → ℕ
  | [] => 0
  | b :: bs => pack bs <<< 8 ||| b.toNat

def mbrtoc8 (s : List UInt8) (st : Mbstate) : UOutcome UInt8 :=
  if st.n &&& PEND_C8OUT ≠ 0 then
    let k := (st.n &&& 3) - 1
    ⟨.stored, some (UInt8.ofNat (st.st &&& 0xff)),
      if k ≠ 0 then ⟨st.st >>> 8, PEND_C8OUT ||| k⟩ else .init⟩
  else
    let r := mbrtowc (some s) st
    match r.ret with
    | .count k =>
      let b := (wcrtomb (r.wc.getD 0)).getD []
      ⟨.count k, b.head?,
        if b.length > 1 then ⟨pack b.tail, PEND_C8OUT ||| (b.length - 1)⟩ else r.st⟩
    | _ => passOn r

/-- The length of a character by its first byte. -/
def c8Length (b : UInt8) : ℕ := if b < 0xe0 then 2 else if b < 0xf0 then 3 else 4

def c8rtomb (dst : Bool) (c : UInt8) (st : Mbstate) : Wrote :=
  if !dst then
    if st.n &&& PEND_C8IN ≠ 0 then ⟨none, [], .init⟩ else ⟨some 1, [], .init⟩
  else
    let got := if st.n &&& PEND_C8IN ≠ 0 then st.n &&& 3 else 0
    if got = 0 then
      if c < 0x80 then ⟨some 1, [c], st⟩
      else if c < 0xc2 ∨ c > 0xf4 then ⟨none, [], st⟩
      else ⟨some 0, [], ⟨c.toNat, PEND_C8IN ||| 1⟩⟩
    else
      let b := (List.range got).map (fun i => UInt8.ofNat (st.st >>> (8 * i))) ++ [c]
      let need := c8Length (b.headD 0)
      if (mbrtowc (some b) .init).ret = .ilseq then ⟨none, [], .init⟩
      else if got + 1 < need then
        ⟨some 0, [], ⟨st.st ||| c.toNat <<< (8 * got), PEND_C8IN ||| (got + 1)⟩⟩
      else ⟨some need, b.take need, .init⟩

/-! ## Callers -/

/-- A caller converts a piece: it calls until the piece is used up, each time with what is left of
it. A null character, for which `0` is returned, is one byte. -/
def unitsLoop {α : Type} (f : List UInt8 → Mbstate → UOutcome α) :
    ℕ → Mbstate → List UInt8 → Option (List α × Mbstate)
  | 0, _, _ => none
  | fuel + 1, st, s =>
    let r := f s st
    match r.ret with
    | .incomplete => some ([], r.st)
    | .ilseq => none
    | .stored => (unitsLoop f fuel r.st s).map fun t => (r.c.toList ++ t.1, t.2)
    | .count k => (unitsLoop f fuel r.st (s.drop (max k 1))).map fun t => (r.c.toList ++ t.1, t.2)

/-- The pieces one after the other, with one state. No piece takes more than four calls for a byte.
-/
def units {α : Type} (f : List UInt8 → Mbstate → UOutcome α) :
    Mbstate → List (List UInt8) → Option (List α × Mbstate)
  | st, [] => some ([], st)
  | st, p :: ps => do
    let (us, st) ← unitsLoop f (4 * p.length + 4) st p
    let (us', st) ← units f st ps
    some (us ++ us', st)

/-- What a call with one unit does. -/
def Wrote.fed (r : Wrote) : Fed Mbstate (List UInt8) :=
  match r.ret with
  | none => .bad
  | some 0 => .more r.st
  | some _ => .emit r.out r.st

/-- The units one after the other, with one state: what is written, and the state at the end or the
place of the unit that was refused. -/
def feedUnits {α : Type} (g : Bool → α → Mbstate → Wrote) (st : Mbstate) (us : List α) :
    List (List UInt8) × (Mbstate ⊕ ℕ) :=
  feedAll (fun st u => (g true u st).fed) st us

end Citadel.Multibyte
