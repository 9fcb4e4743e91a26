import Mathlib.Data.List.Basic

/-!
# `iconv`: decoding, encoding and the conversion loop

The converter of `src/iconv.c`. A conversion descriptor (`Cd`) keeps the two encodings, the flags
and what is known of byte-order marks. `decode` and `encode` return what the C functions return
through their result and their output arguments, and the changed descriptor; code points and bytes
are taken apart with the shifts and masks of the source.
-/

namespace Citadel.Iconv

/-- The supported encodings, in the order of the source. -/
inductive Enc where
  | utf8 | ascii | latin1 | latin9 | cp1252
  | utf16 | utf16le | utf16be | ucs2 | ucs2le | ucs2be
  | utf32 | utf32le | utf32be | ucs4 | ucs4le | wchar
deriving DecidableEq

structure Cd where
  source : Enc
  target : Enc
  translit : Bool
  ignore : Bool
  /-- UTF-16/32 input found big-endian by its BOM. -/
  inBe : Bool
  inBomDone : Bool
  outBomDone : Bool

/-- The descriptor that `iconv_open` makes. -/
def iconvOpen (target source : Enc) (translit ignore : Bool) : Cd :=
  ⟨source, target, translit, ignore, false, false, false⟩

def cp1252Hi : List ℕ :=
  [0x20ac, 0, 0x201a, 0x0192, 0x201e, 0x2026, 0x2020, 0x2021, 0x02c6, 0x2030, 0x0160, 0x2039,
   0x0152, 0, 0x017d, 0, 0, 0x2018, 0x2019, 0x201c, 0x201d, 0x2022, 0x2013, 0x2014, 0x02dc, 0x2122,
   0x0161, 0x203a, 0x0153, 0, 0x017e, 0x0178]

def latin9Table : List (ℕ × ℕ) :=
  [(0xa4, 0x20ac), (0xa6, 0x0160), (0xa8, 0x0161), (0xb4, 0x017d), (0xb8, 0x017e), (0xbc, 0x0152),
    (0xbd, 0x0153), (0xbe, 0x0178)]

def byte (v : ℕ) : UInt8 := UInt8.ofNat v

/-! ## Decoding -/

/-- The result of `decode`: a character with the bytes used, a consumed BOM with no character,
illegal or incomplete input. -/
inductive Dec where
  | char (used u : ℕ)
  | bom
  | illegal
  | incomplete

/-- The continuation bytes of a UTF-8 character of `k` bytes, `j` of them still to come. -/
def utf8Loop (k : ℕ) : ℕ → ℕ → List UInt8 → Dec
  | 0, v, _ =>
    if (k = 3 ∧ v < 0x800) ∨ (k = 4 ∧ (v < 0x10000 ∨ 0x10ffff < v)) ∨ (0xd800 ≤ v ∧ v ≤ 0xdfff)
    then .illegal else .char k v
  | _ + 1, _, [] => .incomplete
  | j + 1, v, b :: s =>
    if b.toNat &&& 0xc0 ≠ 0x80 then .illegal else utf8Loop k j (v <<< 6 ||| (b.toNat &&& 0x3f)) s

/-- The length of a UTF-8 character by its first byte, `0` for none. -/
def utf8Length (b : ℕ) : ℕ :=
  if b ≥ 0xf0 then 4 else if b ≥ 0xe0 then 3 else if b ≥ 0xc2 then 2 else 0

/-- `case UTF8` of `decode`, after the first byte. -/
def decodeUtf8 (b : ℕ) (s : List UInt8) : Dec :=
  if b < 0x80 then .char 1 b
  else if utf8Length b = 0 ∨ b > 0xf4 then .illegal
  else utf8Loop (utf8Length b) (utf8Length b - 1) (b &&& (0x7f >>> utf8Length b)) s

def get16 (p0 p1 : UInt8) (le : Bool) : ℕ :=
  if le then p0.toNat ||| p1.toNat <<< 8 else p0.toNat <<< 8 ||| p1.toNat

def get32 (p0 p1 p2 p3 : UInt8) (le : Bool) : ℕ :=
  if le then p0.toNat ||| p1.toNat <<< 8 ||| p2.toNat <<< 16 ||| p3.toNat <<< 24
  else p0.toNat <<< 24 ||| p1.toNat <<< 16 ||| p2.toNat <<< 8 ||| p3.toNat

def Enc.isUcs2 : Enc → Bool
  | .ucs2 | .ucs2le | .ucs2be => true
  | _ => false

/-- The 16-bit case of `decode` after the first unit `u`; `s` follows it. -/
def decodeUnit16 (e : Enc) (le : Bool) (u : ℕ) (s : List UInt8) : Dec :=
  if e.isUcs2 then if 0xd800 ≤ u ∧ u ≤ 0xdfff then .illegal else .char 2 u
  else if 0xdc00 ≤ u ∧ u ≤ 0xdfff then .illegal
  else if 0xd800 ≤ u ∧ u ≤ 0xdbff then
    match s with
    | b2 :: b3 :: _ =>
      let l := get16 b2 b3 le
      if l < 0xdc00 ∨ 0xdfff < l then .illegal
      else .char 4 (0x10000 + (u - 0xd800) <<< 10 + (l - 0xdc00))
    | _ => .incomplete
  else .char 2 u

/-- The search for a BOM at the start of UTF-16 or UTF-32 input (`e`): the first unit `u` is one,
read with the order assumed so far or the other way round (`swapped`), or `d` is decoded from it. -/
def sniff (c : Cd) (e : Enc) (swapped u : ℕ) (d : Dec) : Dec × Cd :=
  if c.source = e ∧ !c.inBomDone then
    let c := { c with inBomDone := true }
    if u = 0xfeff then (.bom, c)
    else if u = swapped then (.bom, { c with inBe := true })
    else (d, c)
  else (d, c)

/-- Whether 16-bit units are little-endian; without a BOM, UTF-16 is taken to be. -/
def littleEndian16 (c : Cd) : Bool :=
  c.source = .utf16le ∨ c.source = .ucs2le ∨ c.source = .ucs2 ∨ (c.source = .utf16 ∧ !c.inBe)

def decode16 (c : Cd) : List UInt8 → Dec × Cd
  | b0 :: b1 :: s =>
    let le := littleEndian16 c
    let u := get16 b0 b1 le
    sniff c .utf16 0xfffe u (decodeUnit16 c.source le u s)
  | _ => (.incomplete, c)

def littleEndian32 (c : Cd) : Bool :=
  c.source = .utf32le ∨ c.source = .ucs4le ∨ c.source = .wchar ∨ (c.source = .utf32 ∧ !c.inBe)

def decode32 (c : Cd) : List UInt8 → Dec × Cd
  | b0 :: b1 :: b2 :: b3 :: _ =>
    let u := get32 b0 b1 b2 b3 (littleEndian32 c)
    sniff c .utf32 0xfffe0000 u
      (if 0x10ffff < u ∨ (0xd800 ≤ u ∧ u ≤ 0xdfff) then .illegal else .char 4 u)
  | _ => (.incomplete, c)

def decodeByte (e : Enc) (b : ℕ) : Dec :=
  match e with
  | .ascii => if b > 0x7f then .illegal else .char 1 b
  | .latin1 => .char 1 b
  | .latin9 => .char 1 (latin9Table.foldl (fun u p => if p.1 = b then p.2 else u) b)
  | _ =>
    if 0x80 ≤ b ∧ b < 0xa0 then
      if cp1252Hi.getD (b - 0x80) 0 = 0 then .illegal else .char 1 (cp1252Hi.getD (b - 0x80) 0)
    else .char 1 b

/-- `decode` of an input that is not empty. -/
def decode (c : Cd) : List UInt8 → Dec × Cd
  | [] => (.incomplete, c)
  | b :: s =>
    match c.source with
    | .utf8 => (decodeUtf8 b.toNat s, c)
    | .ascii | .latin1 | .latin9 | .cp1252 => (decodeByte c.source b.toNat, c)
    | .utf16 | .utf16le | .utf16be | .ucs2 | .ucs2le | .ucs2be => decode16 c (b :: s)
    | .utf32 | .utf32le | .utf32be | .ucs4 | .ucs4le | .wchar => decode32 c (b :: s)

/-! ## Encoding -/

/-- The result of `encode`: the bytes written, not representable, or no room. -/
inductive EncResult where
  | bytes (b : List UInt8)
  | unrepresentable
  | noRoom

/-- The loop of the UTF-8 case: the last `j` bytes of `u` and then the first one. -/
def utf8Bytes (k : ℕ) : ℕ → ℕ → List UInt8 → List UInt8
  | 0, u, acc => byte (0xf00 >>> k ||| u) :: acc
  | j + 1, u, acc => utf8Bytes k j (u >>> 6) (byte (0x80 ||| (u &&& 0x3f)) :: acc)

def put16 (v : ℕ) (le : Bool) : List UInt8 :=
  if le then [byte v, byte (v >>> 8)] else [byte (v >>> 8), byte v]

def put32 (v : ℕ) (le : Bool) : List UInt8 :=
  if le then [byte v, byte (v >>> 8), byte (v >>> 16), byte (v >>> 24)]
  else [byte (v >>> 24), byte (v >>> 16), byte (v >>> 8), byte v]

/-- The byte of a character in a single-byte charset. -/
def encodeByte (e : Enc) (u : ℕ) : Option ℕ :=
  match e with
  | .ascii => if u < 0x80 then some u else none
  | .latin1 => if u < 0x100 then some u else none
  | .latin9 =>
    latin9Table.foldl (fun b p =>
      let b := if p.1 = u then none else b
      if p.2 = u then some p.1 else b) (if u < 0x100 then some u else none)
  | _ =>
    (List.range 32).foldl (fun b i =>
      if cp1252Hi.getD i 0 ≠ 0 ∧ cp1252Hi.getD i 0 = u then some (0x80 + i) else b)
      (if u < 0x80 ∨ (0xa0 ≤ u ∧ u < 0x100) then some u else none)

def encodeUtf8 (c : Cd) (u n : ℕ) : EncResult × Cd :=
  if u < 0x80 then if n < 1 then (.noRoom, c) else (.bytes [byte u], c)
  else
    let k := if u < 0x800 then 2 else if u < 0x10000 then 3 else 4
    if n < k then (.noRoom, c) else (.bytes (utf8Bytes k (k - 1) u []), c)

def encodeSingle (c : Cd) (u n : ℕ) : EncResult × Cd :=
  match encodeByte c.target u with
  | none => (.unrepresentable, c)
  | some b => if n < 1 then (.noRoom, c) else (.bytes [byte b], c)

def encode16 (c : Cd) (u n : ℕ) : EncResult × Cd :=
  let le := c.target ≠ .utf16be ∧ c.target ≠ .ucs2be
  let bom := if c.target = .utf16 ∧ !c.outBomDone then 2 else 0
  if c.target.isUcs2 ∧ u > 0xffff then (.unrepresentable, c)
  else
    let k := if u > 0xffff then 4 else 2
    if n < k + bom then (.noRoom, c)
    else
      let b := if k = 2 then put16 u le
        else put16 (0xd800 ||| (u - 0x10000) >>> 10) le ++
          put16 (0xdc00 ||| (u - 0x10000) &&& 0x3ff) le
      if bom ≠ 0 then (.bytes (put16 0xfeff le ++ b), { c with outBomDone := true })
      else (.bytes b, c)

def encode32 (c : Cd) (u n : ℕ) : EncResult × Cd :=
  let le := c.target ≠ .utf32be ∧ c.target ≠ .ucs4
  let bom := if c.target = .utf32 ∧ !c.outBomDone then 4 else 0
  if n < 4 + bom then (.noRoom, c)
  else if bom ≠ 0 then (.bytes (put32 0xfeff le ++ put32 u le), { c with outBomDone := true })
  else (.bytes (put32 u le), c)

/-- `encode` with room for `n` bytes. -/
def encode (c : Cd) (u n : ℕ) : EncResult × Cd :=
  match c.target with
  | .utf8 => encodeUtf8 c u n
  | .ascii | .latin1 | .latin9 | .cp1252 => encodeSingle c u n
  | .utf16 | .utf16le | .utf16be | .ucs2 | .ucs2le | .ucs2be => encode16 c u n
  | .utf32 | .utf32le | .utf32be | .ucs4 | .ucs4le | .wchar => encode32 c u n

def tr : List (ℕ × String) :=
  [(0x00a0, " "), (0x00a9, "(C)"), (0x00ab, "<<"), (0x00ad, "-"), (0x00ae, "(R)"),
    (0x00b5, "u"), (0x00b7, "."), (0x00bb, ">>"), (0x00bc, " 1/4 "), (0x00bd, " 1/2 "),
    (0x00be, " 3/4 "), (0x00c6, "AE"), (0x00d7, "x"), (0x00df, "ss"), (0x00e6, "ae"),
    (0x0152, "OE"), (0x0153, "oe"), (0x2002, " "), (0x2003, " "), (0x2009, " "),
    (0x2010, "-"), (0x2011, "-"), (0x2012, "-"), (0x2013, "-"), (0x2014, "-"),
    (0x2018, "'"), (0x2019, "'"), (0x201a, ","), (0x201c, "\""), (0x201d, "\""),
    (0x201e, ",,"), (0x2022, "o"), (0x2026, "..."), (0x2039, "<"), (0x203a, ">"),
    (0x20ac, "EUR"), (0x2122, "(TM)"), (0x2190, "<-"), (0x2192, "->"), (0x2212, "-")]

/-- The characters that replace `u`. -/
def replacement (u : ℕ) : List ℕ :=
  (tr.foldl (fun rep p => if p.1 = u then p.2 else rep) "?").toList.map Char.toNat

/-- The loop of `translit` over the replacement; `used` are the bytes written so far. -/
def translitLoop (c : Cd) (n : ℕ) : List ℕ → List UInt8 → EncResult × Cd
  | [], used => (.bytes used, c)
  | p :: rep, used =>
    match encode c p (n - used.length) with
    | (.bytes b, c) => translitLoop c n rep (used ++ b)
    | (r, c) => (r, c)

/-- `translit`: all or nothing. -/
def translit (c : Cd) (u n : ℕ) : EncResult × Cd :=
  match translitLoop c n (replacement u) [] with
  | (.bytes b, c') => (.bytes b, c')
  | (.noRoom, _) => (.noRoom, c)
  | (.unrepresentable, _) => encode c 0x3f n

/-! ## The conversion loop -/

/-- What `iconv` returns: the number of irreversible conversions, or `-1` with `errno`. -/
inductive Ret where
  | done (irreversible : ℕ)
  | einval
  | eilseq
  | e2big
deriving DecidableEq

/-- The descriptor and the result after a call, the bytes it wrote and the input it left. -/
structure Result where
  cd : Cd
  ret : Ret
  out : List UInt8
  left : List UInt8

/-- The length of a byte-order mark: `c->from >= UTF32 ? 4 : 2`. -/
def bomLength : Enc → ℕ
  | .utf32 | .utf32le | .utf32be | .ucs4 | .ucs4le | .wchar => 4
  | _ => 2

/-- The loop of `iconv`: the input left, the room left and the bytes written so far. Every round
takes at least one byte. -/
def iconvLoop : ℕ → Cd → List UInt8 → ℕ → List UInt8 → ℕ → Bool → Result
  | 0, c, s, _, out, irreversible, ignored =>
    ⟨c, if ignored then .eilseq else .done irreversible, out, s⟩
  | rounds + 1, c, s, room, out, irreversible, ignored =>
    if s = [] then ⟨c, if ignored then .eilseq else .done irreversible, out, s⟩
    else
      match decode c s with
      | (.incomplete, c) => ⟨c, .einval, out, s⟩
      | (.illegal, c) =>
        if c.ignore then iconvLoop rounds c (s.drop 1) room out irreversible true
        else ⟨c, .eilseq, out, s⟩
      | (.bom, c) => iconvLoop rounds c (s.drop (bomLength c.source)) room out irreversible ignored
      | (.char k u, c) =>
        match encode c u room with
        | (.bytes b, c) =>
          iconvLoop rounds c (s.drop k) (room - b.length) (out ++ b) irreversible ignored
        | (.noRoom, c) => ⟨c, .e2big, out, s⟩
        | (.unrepresentable, c) =>
          if c.translit then
            match translit c u room with
            | (.bytes b, c) =>
              iconvLoop rounds c (s.drop k) (room - b.length) (out ++ b) (irreversible + 1) ignored
            | (.noRoom, c) => ⟨c, .e2big, out, s⟩
            -- `?` is in every charset
            | (.unrepresentable, c) => ⟨c, .eilseq, out, s⟩
          else if c.ignore then iconvLoop rounds c (s.drop k) room out (irreversible + 1) true
          else ⟨c, .eilseq, out, s⟩

/-- `iconv` with room for `room` bytes; without an input it resets the descriptor. -/
def iconv (c : Cd) (input : Option (List UInt8)) (room : ℕ) : Result :=
  match input with
  | none => ⟨{ c with inBomDone := false, inBe := false, outBomDone := false }, .done 0, [], []⟩
  | some s => iconvLoop s.length c s room [] 0 false

end Citadel.Iconv
