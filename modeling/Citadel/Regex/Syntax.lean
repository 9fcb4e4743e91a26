import Mathlib.Algebra.Ring.Nat

/-!
# Patterns: the parser of `regex.c`

A pattern is the list of its bytes before the terminating zero. The parser builds a tree; the
source keeps its nodes in a table and refers to them by index, here a node holds its children. The
wide-character functions of the C library are a parameter.

A recursion of the source is a recursion on a bound that the pattern never reaches; a parse that
reached it would fail with `stuck`.
-/

namespace Citadel.Regex

/-- The wide-character functions; a class is a number, 0 for a name that is none. -/
structure Wide where
  wctype : List UInt8 → ℕ
  iswctype : ℕ → ℕ → Bool
  iswalnum : ℕ → Bool
  towlower : ℕ → ℕ
  towupper : ℕ → ℕ

/-- `BAD`: with a byte added, the code of a byte that is no character. -/
def bad : ℕ := 0x200000

/-! ## UTF-8 -/

def byte (s : List UInt8) (i : ℕ) : ℕ := (s.getD i 0).toNat

/-- The loop of `dec` over the continuation bytes, from the byte `i` on. -/
def decLoop (s : List UInt8) : ℕ → ℕ → ℕ → Option ℕ
  | 0, _, v => some v
  | k + 1, i, v =>
    if byte s i &&& 0xc0 ≠ 0x80 then none else decLoop s k (i + 1) (v <<< 6 ||| byte s i &&& 0x3f)

/-- The character a string of `len` bytes begins with, and its length. -/
def dec (s : List UInt8) (len : ℕ) : ℕ × ℕ :=
  let b := byte s 0
  if b < 0x80 then (b, 1)
  else
    let n := if b ≥ 0xf0 then 4 else if b ≥ 0xe0 then 3 else if b ≥ 0xc2 then 2 else 0
    if n = 0 ∨ b > 0xf4 ∨ n > len then (bad + b, 1)
    else
      match decLoop s (n - 1) 1 (b &&& 0x7f >>> n) with
      | none => (bad + b, 1)
      | some v =>
        if (n = 3 ∧ v < 0x800) ∨ (n = 4 ∧ (v < 0x10000 ∨ v > 0x10ffff)) ∨
            (v ≥ 0xd800 ∧ v ≤ 0xdfff) then (bad + b, 1)
        else (v, n)

/-! ## The tree -/

/-- The assertions `A_BOL` and so on. -/
inductive Assertion where
  | bol
  | eol
  | wordb
  | nwordb
  | wbeg
  | wend
  | bufbeg
  | bufend
deriving DecidableEq, Repr

/-- A node: `N_EMPTY` and so on. A repetition without an upper bound has none. -/
inductive Node where
  | empty
  | char (c : ℕ)
  | any
  | set (idx : ℕ)
  | assert (kind : Assertion)
  | cat (a b : Node)
  | alt (a b : Node)
  | rep (a : Node) (mn : ℕ) (mx : Option ℕ)
  | group (a : Node) (n : ℕ)
  | bref (n : ℕ)
deriving DecidableEq, Repr

/-- A bracket expression: `struct set`. The bit map of the characters below 256 is a number. -/
structure CharSet where
  neg : Bool := false
  bm : ℕ := 0
  r : List (ℕ × ℕ) := []
  cls : List ℕ := []
deriving DecidableEq, Repr

inductive Err where
  | badpat
  | ecollate
  | ectype
  | eescape
  | esubreg
  | ebrack
  | eparen
  | ebrace
  | badbr
  | erange
  | espace
  | badrpt
  | stuck
deriving DecidableEq, Repr

structure Flags where
  extended : Bool := false
  icase : Bool := false
  newline : Bool := false
  nosub : Bool := false
deriving DecidableEq, Repr

/-- `struct parser`, with the part of the program that the parser fills. -/
structure Parser where
  s : List UInt8
  ere : Bool
  icase : Bool
  pos : ℕ := 0
  nn : ℕ := 0
  sets : List CharSet := []
  nsub : ℕ := 0
  closed : ℕ := 0
  depth : ℕ := 0
  backrefs : Bool := false
deriving DecidableEq, Repr

abbrev Parsed := Except Err (Node × Parser)

/-- A node is made, unless the table is full. -/
def mknode (ps : Parser) (n : Node) : Parsed :=
  if ps.nn ≥ 2 ^ 20 then .error .espace else .ok (n, { ps with nn := ps.nn + 1 })

namespace Parser

/-- The byte `off` bytes ahead. -/
def peek (ps : Parser) (off : ℕ) : Option UInt8 := ps.s[ps.pos + off]?

/-- The byte `off` bytes ahead is `c`. -/
def sees (ps : Parser) (off : ℕ) (c : Char) : Bool := ps.peek off == some c.toUInt8

def seesDigit (ps : Parser) (off : ℕ) : Bool :=
  (ps.peek off).any fun c => 48 ≤ c.toNat ∧ c.toNat ≤ 57

def skip (ps : Parser) (n : ℕ) : Parser := { ps with pos := ps.pos + n }

/-- The number of bytes not read yet. -/
def left (ps : Parser) : ℕ := ps.s.length - ps.pos

end Parser

def getcPat (ps : Parser) : ℕ × Parser :=
  let d := dec (ps.s.drop ps.pos) (ps.s.length - ps.pos)
  (d.1, ps.skip d.2)

/-! ## Bracket expressions -/

/-- The characters `lo` to `hi`: those below 256 in the bit map, the others as a range. -/
def setAdd (s : CharSet) (lo hi : ℕ) : CharSet :=
  let bm := (List.range' lo (min (hi + 1) 256 - lo)).foldl (fun bm i => bm ||| 1 <<< i) s.bm
  if lo ≤ hi ∧ 256 ≤ hi then { s with bm := bm, r := s.r ++ [(max lo 256, hi)] }
  else { s with bm := bm }

def inSetRaw (W : Wide) (s : CharSet) (c : ℕ) : Bool :=
  (c < 256 && s.bm.testBit c) || s.r.any (fun x => c ≥ x.1 && c ≤ x.2) ||
    s.cls.any fun t => W.iswctype c t

/-- One element of a bracket expression: a character, `[.c.]` or `[=c=]`. -/
def bracketChar (ps : Parser) : Except Err (ℕ × Parser) :=
  if ps.sees 0 '[' && (ps.sees 1 '.' || ps.sees 1 '=') then
    let kind := ps.peek 1
    let ps := ps.skip 2
    if ps.pos ≥ ps.s.length then .error .ebrack
    else
      let (c, ps) := getcPat ps
      if ps.peek 0 ≠ kind ∨ ps.sees 1 ']' = false then
        .error (if ps.pos ≥ ps.s.length then .ebrack else .ecollate)
      else .ok (c, ps.skip 2)
  else .ok (getcPat ps)

/-- The place of the first `:]`. -/
def classEnd : List UInt8 → Option ℕ
  | a :: b :: r =>
    if a = ':'.toUInt8 ∧ b = ']'.toUInt8 then some 0 else (classEnd (b :: r)).map (· + 1)
  | _ => none

/-- The bytes of a word of the source. -/
def bytes (w : String) : List UInt8 := w.toList.map Char.toUInt8

/-- A class name, behind the `[:`. -/
def bracketClass (W : Wide) (ps : Parser) (s : CharSet) : Except Err (CharSet × Parser) :=
  let start := ps.pos + 2
  match classEnd (ps.s.drop start) with
  | none => .error .ebrack
  | some e =>
    if e ≥ 16 then .error .ectype
    else
      let name := (ps.s.drop start).take e
      let t := W.wctype name
      if t = 0 ∨ s.cls.length = 16 then .error .ectype
      else
        let t := if ps.icase && (name == bytes "upper" || name == bytes "lower") then
            W.wctype (bytes "alpha")
          else t
        .ok ({ s with cls := s.cls ++ [t] }, { ps with pos := start + e + 2 })

/-- The other cases of the letters of a range. -/
def addCases (W : Wide) (s : CharSet) (lo hi : ℕ) : CharSet :=
  (List.range' lo (min (hi + 1 - lo) 0x3000)).foldl (fun s c =>
    let s := if W.towlower c ≠ c then setAdd s (W.towlower c) (W.towlower c) else s
    if W.towupper c ≠ c then setAdd s (W.towupper c) (W.towupper c) else s) s

/-- The end of a range behind `lo`, or `lo` itself. -/
def bracketRange (ps : Parser) (lo : ℕ) : Except Err (ℕ × Parser) :=
  if ps.sees 0 '-' && !ps.sees 1 ']' && (ps.peek 1).isSome then
    let ps := ps.skip 1
    if ps.sees 0 '[' && ps.sees 1 ':' then .error .erange
    else do
      let (hi, ps) ← bracketChar ps
      if hi < lo ∨ lo ≥ bad ∨ hi ≥ bad then .error .erange else .ok (hi, ps)
  else .ok (lo, ps)

def bracketLoop (W : Wide) : ℕ → Parser → CharSet → Bool → Except Err (CharSet × Parser)
  | 0, _, _, _ => .error .stuck
  | fuel + 1, ps, s, first =>
    if ps.pos ≥ ps.s.length then .error .ebrack
    else if ps.sees 0 ']' && !first then .ok (s, ps.skip 1)
    else if ps.sees 0 '[' && ps.sees 1 ':' then do
      let (s, ps) ← bracketClass W ps s
      bracketLoop W fuel ps s false
    else do
      let (lo, ps) ← bracketChar ps
      let (hi, ps) ← bracketRange ps lo
      let s := setAdd s lo hi
      bracketLoop W fuel ps (if ps.icase then addCases W s lo hi else s) false

/-- A new set is entered in the table. -/
def newset (ps : Parser) (s : CharSet) : Parsed :=
  mknode { ps with sets := ps.sets ++ [s] } (.set ps.sets.length)

def parseBracket (W : Wide) (ps : Parser) : Parsed := do
  let neg := ps.sees 0 '^'
  let ps := if neg then ps.skip 1 else ps
  let (s, ps) ← bracketLoop W (ps.left + 1) ps { neg := neg } true
  newset ps s

/-- A set of a single class, for `\w`, `\s` and their negations. -/
def classSet (W : Wide) (ps : Parser) (cls : String) (neg underscore : Bool) : Parsed :=
  let s : CharSet := { neg := neg, cls := [W.wctype (bytes cls)] }
  newset ps (if underscore then setAdd s '_'.toNat '_'.toNat else s)

/-! ## Atoms -/

def atAlt (ps : Parser) : Bool :=
  if ps.ere then ps.sees 0 '|' else ps.sees 0 '\\' && ps.sees 1 '|'

def atClose (ps : Parser) : Bool :=
  if ps.ere then ps.sees 0 ')' && 0 < ps.depth else ps.sees 0 '\\' && ps.sees 1 ')'

/-- The start of an expression, of a subexpression or of an alternative. -/
def atStart (ps : Parser) (atomStart : ℕ) : Bool :=
  let c := fun k (x : Char) => ps.s[atomStart - k]? == some x.toUInt8
  if atomStart = 0 then true
  else if ps.ere then c 1 '(' || c 1 '|'
  else 2 ≤ atomStart && c 2 '\\' && (c 1 '(' || c 1 '|')

/-- A group behind its opening parenthesis; `alt` parses its inside. -/
def parseGroup (alt : Parser → Parsed) (ps : Parser) : Parsed := do
  let n := ps.nsub + 1
  let ps := { ps with nsub := n, depth := ps.depth + 1 }
  let (a, ps) ← if atClose ps then mknode ps .empty else alt ps
  let ps := { ps with depth := ps.depth - 1 }
  if ps.ere then
    if ps.sees 0 ')' = false then .error .eparen
    else
      let ps := ps.skip 1
      mknode { ps with closed := if n < 64 then ps.closed ||| 1 <<< n else ps.closed } (.group a n)
  else
    if (ps.sees 0 '\\' && ps.sees 1 ')') = false then .error .eparen
    else
      let ps := ps.skip 2
      mknode { ps with closed := if n < 64 then ps.closed ||| 1 <<< n else ps.closed } (.group a n)

/-- The assertion or the class behind a backslash. -/
def escapeNode (W : Wide) (ps : Parser) (e : UInt8) : Option (Parsed) :=
  if e = '<'.toUInt8 then some (mknode ps (.assert .wbeg))
  else if e = '>'.toUInt8 then some (mknode ps (.assert .wend))
  else if e = 'b'.toUInt8 then some (mknode ps (.assert .wordb))
  else if e = 'B'.toUInt8 then some (mknode ps (.assert .nwordb))
  else if e = '`'.toUInt8 then some (mknode ps (.assert .bufbeg))
  else if e = '\''.toUInt8 then some (mknode ps (.assert .bufend))
  else if e = 'w'.toUInt8 then some (classSet W ps "alnum" false true)
  else if e = 'W'.toUInt8 then some (classSet W ps "alnum" true true)
  else if e = 's'.toUInt8 then some (classSet W ps "space" false false)
  else if e = 'S'.toUInt8 then some (classSet W ps "space" true false)
  else none

def literal (W : Wide) (ps : Parser) : Parsed :=
  let (c, ps) := getcPat ps
  mknode ps (.char (if ps.icase && c < bad then W.towlower c else c))

/-- A back-reference to the group `n`. -/
def parseBref (ps : Parser) (n : ℕ) : Parsed :=
  let ps := ps.skip 1
  if n > ps.nsub ∨ ps.closed.testBit n = false then .error .esubreg
  else mknode { ps with backrefs := true } (.bref n)

/-- What follows a backslash. -/
def parseEscape (W : Wide) (alt : Parser → Parsed) (ps : Parser) : Parsed :=
  let ps := ps.skip 1
  match ps.peek 0 with
  | none => .error .eescape
  | some e =>
    if !ps.ere && e = '('.toUInt8 then parseGroup alt (ps.skip 1)
    else if !ps.ere && e = ')'.toUInt8 then .error .eparen
    else if !ps.ere && e = '\x7b'.toUInt8 then .error .badrpt
    else if '1'.toUInt8 ≤ e && e ≤ '9'.toUInt8 then parseBref ps (e.toNat - 48)
    else
      match escapeNode W (ps.skip 1) e with
      | some r => r
      | none =>
        let (c, ps) := getcPat ps
        mknode ps (.char (if ps.icase then W.towlower c else c))

/-- What an atom begins with when it is no special character. -/
def parsePlain (W : Wide) (alt : Parser → Parsed) (ps : Parser) : Parsed :=
  if ps.sees 0 '.' then mknode (ps.skip 1) .any
  else if ps.sees 0 '[' then parseBracket W (ps.skip 1)
  else if ps.sees 0 '\\' then parseEscape W alt ps
  else literal W ps

def parseAtom (W : Wide) (alt : Parser → Parsed) (ps : Parser) : Parsed :=
  if ps.ere then
    if ps.sees 0 '(' then parseGroup alt (ps.skip 1)
    else if ps.sees 0 '*' || ps.sees 0 '+' || ps.sees 0 '?' then .error .badrpt
    else if ps.sees 0 '\x7b' && ps.seesDigit 1 then .error .badrpt
    else if ps.sees 0 '^' then mknode (ps.skip 1) (.assert .bol)
    else if ps.sees 0 '$' then mknode (ps.skip 1) (.assert .eol)
    else parsePlain W alt ps
  else
    if ps.sees 0 '^' && atStart ps ps.pos then mknode (ps.skip 1) (.assert .bol)
    else if ps.sees 0 '$' && (decide (ps.pos + 1 = ps.s.length) ||
        (ps.sees 1 '\\' && (ps.sees 2 ')' || ps.sees 2 '|'))) then
      mknode (ps.skip 1) (.assert .eol)
    else if ps.sees 0 '*' then mknode (ps.skip 1) (.char '*'.toNat)
    else parsePlain W alt ps

/-! ## Repetitions -/

def reDupMax : ℕ := 0x7fff

/-- The digits of a bound, which saturates: the bound, how many digits and the rest. -/
def boundLoop : ℕ → Parser → ℕ → ℕ → ℕ × ℕ × Parser
  | 0, ps, m, digits => (m, digits, ps)
  | fuel + 1, ps, m, digits =>
    if ps.seesDigit 0 then
      let m := m * 10 + (((ps.peek 0).getD 0).toNat - 48)
      boundLoop fuel (ps.skip 1) (if m > reDupMax then reDupMax + 1 else m) (digits + 1)
    else (m, digits, ps)

def parseBound (ps : Parser) : ℕ × ℕ × Parser := boundLoop ps.left ps 0 0

/-- The bounds behind an opening brace. -/
def parseInterval (ps : Parser) : Except Err ((ℕ × Option ℕ) × Parser) :=
  let (m, digits, ps) := parseBound ps
  if digits = 0 ∧ (ps.ere = false ∨ ps.sees 0 ',' = false) then
    .error (if ps.pos ≥ ps.s.length then .ebrace else .badbr)
  else
    let (n, ps) : Option ℕ × Parser :=
      if ps.sees 0 ',' then
        let ps := ps.skip 1
        if ps.seesDigit 0 then
          let (n, _, ps) := parseBound ps
          (some n, ps)
        else (none, ps)
      else (some m, ps)
    if (if ps.ere then ps.sees 0 '\x7d' else ps.sees 0 '\\' && ps.sees 1 '\x7d') = false then
      .error (if ps.pos ≥ ps.s.length then .ebrace else .badbr)
    else
      let ps := ps.skip (if ps.ere then 1 else 2)
      if m > reDupMax ∨ n.any (· > reDupMax) ∨ n.any (· < m) then .error .badbr
      else .ok ((m, n), ps)

/-- The repetition a pattern goes on with, if there is one. -/
def parseOperator (ps : Parser) : Except Err (Option ((ℕ × Option ℕ) × Parser)) :=
  if ps.sees 0 '*' then .ok (some ((0, none), ps.skip 1))
  else if ps.ere && ps.sees 0 '+' then .ok (some ((1, none), ps.skip 1))
  else if ps.ere && ps.sees 0 '?' then .ok (some ((0, some 1), ps.skip 1))
  else if ps.ere && ps.sees 0 '\x7b' && (ps.seesDigit 1 || ps.sees 1 ',') then
    (parseInterval (ps.skip 1)).map some
  else if !ps.ere && ps.sees 0 '\\' && ps.sees 1 '+' then .ok (some ((1, none), ps.skip 2))
  else if !ps.ere && ps.sees 0 '\\' && ps.sees 1 '?' then .ok (some ((0, some 1), ps.skip 2))
  else if !ps.ere && ps.sees 0 '\\' && ps.sees 1 '\x7b' then
    (parseInterval (ps.skip 2)).map some
  else .ok none

def repeatLoop : ℕ → Parser → Node → Parsed
  | 0, _, _ => .error .stuck
  | fuel + 1, ps, a => do
    match ← parseOperator ps with
    | none => .ok (a, ps)
    | some ((mn, mx), ps') =>
      if !ps.ere && a = .assert .bol then
        -- `^*`: the star is an ordinary character
        if ps.sees 0 '*' = false then .ok (a, { ps' with pos := ps'.pos - 2 })
        else do
          let (lit, ps') ← mknode ps' (.char '*'.toNat)
          mknode ps' (.cat a lit)
      else if ps.ere && (a matches .assert _) then .error .badrpt
      else do
        let (a, ps') ← mknode ps' (.rep a mn mx)
        repeatLoop fuel ps' a

def parseRepeat (W : Wide) (alt : Parser → Parsed) (ps : Parser) : Parsed := do
  let (a, ps) ← parseAtom W alt ps
  repeatLoop (ps.left + 1) ps a

/-! ## Sequences and alternatives -/

def catLoop (W : Wide) (alt : Parser → Parsed) : ℕ → Parser → Node → Parsed
  | 0, _, _ => .error .stuck
  | fuel + 1, ps, seq =>
    if ps.pos < ps.s.length && !atAlt ps && !atClose ps then do
      let (a, ps) ← parseRepeat W alt ps
      if seq = .empty then catLoop W alt fuel ps a
      else do
        let (seq, ps) ← mknode ps (.cat seq a)
        catLoop W alt fuel ps seq
    else .ok (seq, ps)

def parseCat (W : Wide) (alt : Parser → Parsed) (ps : Parser) : Parsed := do
  let (seq, ps) ← mknode ps .empty
  catLoop W alt (ps.left + 1) ps seq

def altLoop (W : Wide) (alt : Parser → Parsed) : ℕ → Parser → Node → Parsed
  | 0, _, _ => .error .stuck
  | fuel + 1, ps, l =>
    if atAlt ps then do
      let (r, ps) ← parseCat W alt (ps.skip (if ps.ere then 1 else 2))
      let (l, ps) ← mknode ps (.alt l r)
      altLoop W alt fuel ps l
    else .ok (l, ps)

/-- `parse_alt`, with a bound on the depth of the groups. -/
def parseAlt (W : Wide) : ℕ → Parser → Parsed
  | 0, _ => .error .stuck
  | depth + 1, ps => do
    let (l, ps) ← parseCat W (parseAlt W depth) ps
    altLoop W (parseAlt W depth) (ps.left + 1) ps l

end Citadel.Regex
