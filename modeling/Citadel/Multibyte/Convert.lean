import Citadel.Lib.Decoder

/-!
# Multibyte conversion

The conversions of `multibyte.c` between multibyte and wide strings. The only encoding is UTF-8.

Strings are lists without their terminator; a wide character is the number that `wchar_t` holds when
read as unsigned. `mbrtowc` sees the `n` bytes it may read, `mbsrtowcs` hands it four bytes of a
string with its terminator. A call that returns `(size_t)-1` has set `errno` to `EILSEQ`.
-/

namespace Citadel.Multibyte

open Citadel.Lib.Decoder

/-! ## One character -/

/-- `mbstate_t`: the code point so far, and the number of continuation bytes that are still needed,
with the lead byte above it while the second byte is pending. -/
structure Mbstate where
  st : ℕ
  n : ℕ
deriving DecidableEq

def Mbstate.init : Mbstate := ⟨0, 0⟩

/-- What a conversion of one character returns: a count, `ILSEQ` or `INCOMPLETE`. -/
inductive Ret where
  | count (r : ℕ)
  | ilseq
  | incomplete
deriving DecidableEq

/-- The outcome of `mbrtowc`: the value returned, the wide character stored, the state, and the
number `i` of bytes that were looked at. -/
structure Outcome where
  ret : Ret
  wc : Option ℕ
  st : Mbstate
  i : ℕ
deriving DecidableEq

/-- Bounds for the second byte of a sequence, by lead byte. -/
def secondOk (lead b : ℕ) : Prop :=
  if lead = 0xe0 then 0xa0 ≤ b ∧ b ≤ 0xbf
  else if lead = 0xed then 0x80 ≤ b ∧ b ≤ 0x9f
  else if lead = 0xf0 then 0x90 ≤ b ∧ b ≤ 0xbf
  else if lead = 0xf4 then 0x80 ≤ b ∧ b ≤ 0x8f
  else 0x80 ≤ b ∧ b ≤ 0xbf

instance (lead b : ℕ) : Decidable (secondOk lead b) := inferInstanceAs (Decidable (ite _ _ _))

/-- The test of a continuation byte in the loop of `mbrtowc`. -/
def nextOk (lead b : ℕ) : Prop := if lead ≠ 0 then secondOk lead b else b &&& 0xc0 = 0x80

instance (lead b : ℕ) : Decidable (nextOk lead b) := inferInstanceAs (Decidable (ite _ _ _))

/-- A lead byte that is not ASCII: the bits it gives and the number of bytes that have to follow. -/
def leadByte (b : ℕ) : Option (ℕ × ℕ) :=
  if 0xc2 ≤ b ∧ b ≤ 0xdf then some (b &&& 0x1f, 1)
  else if 0xe0 ≤ b ∧ b ≤ 0xef then some (b &&& 0x0f, 2)
  else if 0xf0 ≤ b ∧ b ≤ 0xf4 then some (b &&& 0x07, 3)
  else none

def mbrtowcLoop : List UInt8 → (c need lead i : ℕ) → Outcome
  | _, c, 0, _, i => ⟨.count i, some c, .init, i⟩
  | [], c, need + 1, lead, i => ⟨.incomplete, none, ⟨c, (need + 1) ||| lead <<< 8⟩, i⟩
  | b :: s, c, need + 1, lead, i =>
    if nextOk lead b.toNat then mbrtowcLoop s (c <<< 6 ||| (b.toNat &&& 0x3f)) need 0 (i + 1)
    else ⟨.ilseq, none, .init, i + 1⟩

/-- `mbrtowc`; without a source it resets the state. -/
def mbrtowc (src : Option (List UInt8)) (st : Mbstate) : Outcome :=
  match src with
  | none => ⟨if st.n ≠ 0 then .ilseq else .count 0, none, .init, 0⟩
  | some [] => ⟨.incomplete, none, st, 0⟩
  | some (b :: s) =>
    if st.n &&& 7 = 0 then
      if b.toNat < 0x80 then ⟨.count (if b ≠ 0 then 1 else 0), some b.toNat, st, 1⟩
      else
        match leadByte b.toNat with
        | none => ⟨.ilseq, none, .init, 1⟩
        | some (c, need) => mbrtowcLoop s c need b.toNat 1
    else mbrtowcLoop (b :: s) st.st (st.n &&& 7) (st.n >>> 8) 0

/-- `wcrtomb`; `none` is `ILSEQ`. -/
def wcrtomb (c : ℕ) : Option (List UInt8) :=
  if c < 0x80 then some [c.toUInt8]
  else if c < 0x800 then some [(0xc0 ||| c >>> 6).toUInt8, (0x80 ||| (c &&& 0x3f)).toUInt8]
  else if c < 0x10000 then
    if 0xd800 ≤ c ∧ c - 0xd800 < 0x800 then none
    else some [(0xe0 ||| c >>> 12).toUInt8, (0x80 ||| (c >>> 6 &&& 0x3f)).toUInt8,
      (0x80 ||| (c &&& 0x3f)).toUInt8]
  else if c < 0x110000 then
    some [(0xf0 ||| c >>> 18).toUInt8, (0x80 ||| (c >>> 12 &&& 0x3f)).toUInt8,
      (0x80 ||| (c >>> 6 &&& 0x3f)).toUInt8, (0x80 ||| (c &&& 0x3f)).toUInt8]
  else none

/-! ## Strings -/

/-- The outcome of a conversion of strings: the count returned (`none` is `ILSEQ`), what was stored,
and the source pointer as the string it points to (`none` is the null pointer). -/
structure Converted (α β : Type) where
  ret : Option ℕ
  out : List β
  src : Option (List α)
deriving DecidableEq

/-- The loop of `mbsrtowcs`. `room` is the size of the destination, `none` without a destination,
and `src` the string at the start of the call. -/
def mbsrtowcsLoop (room : Option ℕ) (src : List UInt8) :
    ℕ → List UInt8 → ℕ → List ℕ → Mbstate → Converted UInt8 ℕ × Mbstate
  | 0, s, _, ws, st => (⟨none, ws, some s⟩, st)
  | fuel + 1, s, cnt, ws, st =>
    if room.all (cnt < ·) then
      let r := mbrtowc (some ((s ++ [0]).take 4)) st
      match r.ret with
      | .count k =>
        let c := r.wc.getD 0
        let ws := if room.isSome then ws ++ [c] else ws
        if c = 0 then (⟨some cnt, ws, if room.isSome then none else some src⟩, r.st)
        else mbsrtowcsLoop room src fuel (s.drop k) (cnt + 1) ws r.st
      | _ => (⟨none, ws, some (if room.isSome then s else src)⟩, r.st)
    else (⟨some cnt, ws, some s⟩, st)

def mbsrtowcs (room : Option ℕ) (s : List UInt8) (st : Mbstate) : Converted UInt8 ℕ × Mbstate :=
  mbsrtowcsLoop room s (s.length + 1) s 0 [] st

def wcsrtombsLoop (room : Option ℕ) (src : List ℕ) :
    List ℕ → ℕ → List UInt8 → Converted ℕ UInt8
  | [], cnt, s =>
    -- the terminator
    if room.any (· < cnt + 1) then ⟨some cnt, s, some []⟩
    else if room.isSome then ⟨some cnt, s ++ [0], none⟩
    else ⟨some cnt, s, some src⟩
  | c :: w, cnt, s =>
    match wcrtomb c with
    | none => ⟨none, s, some (if room.isSome then c :: w else src)⟩
    | some b =>
      if room.any (· < cnt + b.length) then ⟨some cnt, s, some (c :: w)⟩
      else wcsrtombsLoop room src w (cnt + b.length) (if room.isSome then s ++ b else s)

def wcsrtombs (room : Option ℕ) (w : List ℕ) : Converted ℕ UInt8 := wcsrtombsLoop room w w 0 []

/-! ## A caller that decodes in pieces -/

/-- A caller decodes a piece: it calls `mbrtowc` until the piece is used up. It gets the characters
and the state at the end, or the place of the byte at which `mbrtowc` failed. -/
def decodeLoop : ℕ → Mbstate → List UInt8 → List ℕ × (Mbstate ⊕ ℕ)
  | _, st, [] => ([], .inl st)
  | 0, st, _ :: _ => ([], .inl st)
  | fuel + 1, st, b :: s =>
    let r := mbrtowc (some (b :: s)) st
    match r.ret with
    | .count k =>
      let t := decodeLoop fuel r.st ((b :: s).drop k)
      (r.wc.getD 0 :: t.1, later k t.2)
    | .incomplete => ([], .inl r.st)
    | .ilseq => ([], .inr (r.i - 1))

def decodePiece (st : Mbstate) (s : List UInt8) : List ℕ × (Mbstate ⊕ ℕ) := decodeLoop s.length st s

/-- The pieces one after the other, with one state. -/
def decode (st : Mbstate) (ps : List (List UInt8)) : List ℕ × (Mbstate ⊕ ℕ) :=
  feedPieces decodePiece st ps

end Citadel.Multibyte
