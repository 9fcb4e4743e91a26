import Citadel.Ctype

/-!
# `fnmatch.c`

Strings are the lists of their bytes before the terminating zero, pointers into them are indices.
What `fnmatch` has still to match of the pattern is a list.

The loop of `fnmatch` is `step`, taken again and again. `run` bounds the number of rounds; the
bound of `fnmatch` is never reached.
-/

namespace Citadel.Fnmatch

open Ctype

/-- The flags `FNM_PATHNAME` and so on. -/
structure Flags where
  pathname : Bool := false
  noescape : Bool := false
  period : Bool := false
  leadingDir : Bool := false
  casefold : Bool := false
deriving DecidableEq, Repr

variable (flags : Flags)

def fold (c : UInt8) : UInt32 := if flags.casefold then tolower c.toUInt32 else c.toUInt32

/-! ## Bracket expressions -/

/-- The bytes of a word of the source. -/
def bytes (w : String) : List UInt8 := w.toList.map Char.toUInt8

/-- The table of `in_class`. -/
def classes : List (List UInt8 × (UInt32 → Bool)) :=
  [(bytes "alnum", isalnum), (bytes "alpha", isalpha), (bytes "blank", isblank),
    (bytes "cntrl", iscntrl), (bytes "digit", isdigit), (bytes "graph", isgraph),
    (bytes "lower", islower), (bytes "print", isprint), (bytes "punct", ispunct),
    (bytes "space", isspace), (bytes "upper", isupper), (bytes "xdigit", isxdigit)]

def inClass (name : List UInt8) : Option (UInt32 → Bool) :=
  (classes.find? fun x => x.1 == name).map (·.2)

/-- An element of a bracket expression: `[.x.]` or `[=x=]`, `[:name:]`, a range or a character. -/
inductive Elem where
  | symbol (name : List UInt8)
  | cls (f : UInt32 → Bool)
  | range (lo hi : UInt8)
  | char (c : UInt8)

/-- The test of `bracket` for an element. -/
def Elem.has (c : UInt8) : Elem → Bool
  | .symbol name => name.length == 1 && fold flags (name.headD 0) == fold flags c
  | .cls f =>
    let c := c.toUInt32
    f c || (flags.casefold && isalpha c && f (if isupper c then tolower c else toupper c))
  | .range lo hi =>
    (lo ≤ c && c ≤ hi) ||
      (flags.casefold && fold flags lo ≤ fold flags c && fold flags c ≤ fold flags hi) ||
      (flags.casefold && lo.toUInt32 ≤ toupper c.toUInt32 && toupper c.toUInt32 ≤ hi.toUInt32)
  | .char x => fold flags x == fold flags c

/-- `strstr` for the two bytes `a` and `b`: how many bytes stand before them. -/
def strstr (a b : UInt8) : List UInt8 → Option ℕ
  | x :: y :: p => if x = a ∧ y = b then some 0 else (strstr a b (y :: p)).map (· + 1)
  | _ => none

def sees (p : List UInt8) (i : ℕ) (c : Char) : Bool := p[i]? == some c.toUInt8

/-- The backslash at `i` that escapes the next byte is skipped. -/
def skipEscape (p : List UInt8) (i : ℕ) : ℕ :=
  if sees p i '\\' && !flags.noescape && (p[i + 1]?).isSome then i + 1 else i

/-- The element that `p` begins with, and how many bytes it has behind the first one; none if it is
malformed. -/
def bracketElem (p : List UInt8) : Option (Elem × ℕ) :=
  if sees p 0 '[' && (sees p 1 '.' || sees p 1 '=') then
    (strstr (p.getD 1 0) ']'.toUInt8 (p.drop 2)).map fun e => (.symbol ((p.drop 2).take e), e + 3)
  else if sees p 0 '[' && sees p 1 ':' then do
    let e ← strstr ':'.toUInt8 ']'.toUInt8 (p.drop 2)
    let f ← inClass ((p.drop 2).take e)
    some (.cls f, e + 3)
  else
    let i := skipEscape flags p 0
    let lo := p.getD i 0
    if sees p (i + 1) '-' && (p[i + 2]?).isSome && !sees p (i + 2) ']' then
      let j := skipEscape flags p (i + 2)
      some (.range lo (p.getD j 0), j)
    else some (.char lo, i)

/-- What `bracket` returns: 1 or 0 with the place behind the bracket, -1 or -2. -/
inductive BracketResult where
  | closed (r : Bool) (q : ℕ)
  | unclosed
  | malformed
deriving DecidableEq, Repr

/-- The loop of `bracket`, at the place `q`. -/
def bracketLoop (c : UInt8) (neg : Bool) (p : List UInt8) (q : ℕ) (first hit : Bool) :
    BracketResult :=
  if q < p.length then
    if !first && sees p q ']' then .closed (hit != neg) (q + 1)
    else
      match bracketElem flags (p.drop q) with
      | none => .malformed
      | some (e, k) => bracketLoop c neg p (q + k + 1) false (hit || e.has flags c)
  else .unclosed
termination_by p.length - q

def bracket (p : List UInt8) (c : UInt8) : BracketResult :=
  let neg := sees p 0 '!' || sees p 0 '^'
  bracketLoop flags c neg p (if neg then 1 else 0) true false

/-! ## The matcher -/

section Matcher

variable (str : List UInt8)

def leadingDot (x : ℕ) : Bool :=
  flags.period && sees str x '.' && (x == 0 || (flags.pathname && sees str (x - 1) '/'))

/-- The slash that nothing but a slash matches. -/
def slash (x : ℕ) : Bool := flags.pathname && sees str x '/'

/-- How the `switch` ends. -/
inductive Outcome where
  | next (p : List UInt8) (s : ℕ)
  | star (p : List UInt8)
  | backtrack
  | ret (r : ℕ)
deriving DecidableEq, Repr

/-- The code at `literal`, for the byte `c` of the pattern. -/
def literal (c : UInt8) (p : List UInt8) (s : ℕ) : Outcome :=
  match str[s]? with
  | none => .backtrack
  | some x => if fold flags c ≠ fold flags x then .backtrack else .next p (s + 1)

/-- The `switch` at an opening bracket, where `p` is what follows it. -/
def caseBracket (p : List UInt8) (s : ℕ) : Outcome :=
  match str[s]? with
  | none => .backtrack
  | some x =>
    if slash flags str s then .backtrack
    else
      match bracket flags p x with
      | .malformed => .ret 1
      | .unclosed => literal flags str '['.toUInt8 p s
      | .closed false _ => .backtrack
      | .closed true q => .next (p.drop q) (s + 1)

def switch (p : List UInt8) (s : ℕ) : Outcome :=
  match p with
  | [] =>
    if s ≥ str.length ∨ (flags.leadingDir && sees str s '/') then .ret 0 else .backtrack
  | c :: p =>
    if c = '*'.toUInt8 then .star (p.dropWhile (· = '*'.toUInt8))
    else if c = '?'.toUInt8 then
      if s ≥ str.length ∨ slash flags str s then .backtrack else .next p (s + 1)
    else if c = '['.toUInt8 then caseBracket flags str p s
    else if c = '\\'.toUInt8 ∧ flags.noescape = false then
      match p with
      | [] => .ret 1
      | c :: p => literal flags str c p s
    else literal flags str c p s

/-- One round of the loop: the test for a leading period, and the `switch`. -/
def round (p : List UInt8) (s : ℕ) : Outcome :=
  if leadingDot flags str s && !sees p 0 '.' &&
      !(sees p 0 '\\' && !flags.noescape && sees p 1 '.') && !p.isEmpty then .backtrack
  else switch flags str p s

/-- The variables of the loop; `star` is `star_p` and `star_s`. -/
structure State where
  p : List UInt8
  s : ℕ
  star : Option (List UInt8 × ℕ) := none
deriving DecidableEq, Repr

def backtrack (st : State) : State ⊕ ℕ :=
  match st.star with
  | none => .inr 1
  | some (q, j) =>
    if j ≥ str.length ∨ slash flags str j ∨ leadingDot flags str j then .inr 1
    else .inl ⟨q, j + 1, some (q, j + 1)⟩

def step (st : State) : State ⊕ ℕ :=
  match round flags str st.p st.s with
  | .next p s => .inl { st with p := p, s := s }
  | .star p => .inl ⟨p, st.s, some (p, st.s)⟩
  | .backtrack => backtrack flags str st
  | .ret r => .inr r

/-- At most `fuel` rounds. -/
def run : ℕ → State → Option ℕ
  | 0, _ => none
  | fuel + 1, st =>
    match step flags str st with
    | .inl st => run fuel st
    | .inr r => some r

end Matcher

def fnmatch (pat str : List UInt8) : Option ℕ :=
  run flags str ((str.length + 2) * (pat.length + 1)) ⟨pat, 0, none⟩

end Citadel.Fnmatch
