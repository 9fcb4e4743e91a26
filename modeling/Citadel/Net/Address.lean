import Mathlib.Data.UInt
import Mathlib.Data.Nat.Digits.Defs

/-!
# Internet addresses and their text forms

The address conversions of `src/socket.c` and the way `src/netdb.c` recognises a numeric host.

A string is the list of its bytes without the terminating NUL; reading at its end gives `0`. A
parser returns what it has not read. Where the source counts characters with a pointer that moves at
least one byte a round, the loop is given a bound that is never used up.
-/

namespace Citadel.Net

/-! ## Characters -/

def dot : UInt8 := 46
def colon : UInt8 := 58
def space : UInt8 := 32
def percent : UInt8 := 37

/-- `*s`. -/
def cur (s : List UInt8) : UInt8 := s.headD 0

/-- `(unsigned)c - '0' < 10`. -/
def isDigit (c : UInt8) : Bool := 48 ≤ c ∧ c ≤ 57

/-- The value of a digit in base 16, `99` if it is none. -/
def hexVal (c : UInt8) : ℕ :=
  if isDigit c then c.toNat - 48
  else if 97 ≤ c ||| 32 ∧ c ||| 32 ≤ 102 then (c ||| 32).toNat - 97 + 10
  else 99

/-- `%u` and `%x`: a number in base 10 or 16. -/
def numText (base n : ℕ) : List UInt8 := (Nat.toDigits base n).map fun c => c.toNat.toUInt8

/-! ## Text to binary -/

/-- The digit loop of `pton4`, with at most `n` digits to go. -/
def pton4Digits : ℕ → ℕ → List UInt8 → ℕ × List UInt8
  | 0, v, s => (v, s)
  | n + 1, v, s =>
    if isDigit (cur s) then pton4Digits n (v * 10 + ((cur s).toNat - 48)) s.tail else (v, s)

/-- One part of a dotted quad. -/
def pton4Part (s : List UInt8) : Option (ℕ × List UInt8) :=
  if !isDigit (cur s) then none
  else if cur s = 48 ∧ isDigit (cur s.tail) then none
  else
    let (v, s) := pton4Digits 3 0 s
    if isDigit (cur s) ∨ v > 255 then none else some (v, s)

/-- `pton4` for the last `n` parts: their values, and the text that follows. -/
def pton4Loop : ℕ → List UInt8 → Option (List ℕ × List UInt8)
  | 0, s => some ([], s)
  | n + 1, s =>
    match pton4Part s with
    | none => none
    | some (v, s) =>
      if n = 0 then some ([v], s)
      else if cur s = dot then (pton4Loop n s.tail).map fun (vs, s) => (v :: vs, s)
      else none

def pton4 (s : List UInt8) : Option (List ℕ × List UInt8) := pton4Loop 4 s

/-- The digit loop of `pton6`, with at most `n` digits to go: the value, the number of digits and
the rest. -/
def pton6Digits : ℕ → ℕ → ℕ → List UInt8 → ℕ × ℕ × List UInt8
  | 0, v, d, s => (v, d, s)
  | n + 1, v, d, s =>
    if hexVal (cur s) < 16 then pton6Digits n (v * 16 + hexVal (cur s)) (d + 1) s.tail
    else (v, d, s)

/-- The loop of `pton6`, with the groups read so far and the place of the gap. -/
def pton6Loop : ℕ → List UInt8 → List ℕ → Option ℕ → Option (List ℕ × Option ℕ)
  | 0, _, _, _ => none
  | fuel + 1, s, g, gap =>
    if s = [] then some (g, gap)
    else if cur s = colon then
      if gap.isSome then none
      else if s.tail = [] then some (g, some g.length)
      else pton6Loop fuel s.tail g (some g.length)
    else if g.length = 8 then none
    else if cur (s.dropWhile isDigit) = dot then
      -- an IPv4 address in the last 32 bits
      match pton4 s with
      | some ([a, b, c, d], []) =>
        if g.length > 6 then none else some (g ++ [a * 256 + b, c * 256 + d], gap)
      | _ => none
    else
      match pton6Digits 5 0 0 s with
      | (v, d, s) =>
        if d = 0 ∨ d > 4 then none
        else if cur s = colon then
          if s.tail = [] then none else pton6Loop fuel s.tail (g ++ [v]) gap
        else if s ≠ [] then none
        else pton6Loop fuel s (g ++ [v]) gap

/-- The last loop of `pton6`, for the groups from `i` on: the groups `g` that are left, with `fill`
zeros at the gap. -/
def fillLoop (gap : Option ℕ) (fill : ℕ) : ℕ → ℕ → List ℕ → List ℕ
  | 0, _, _ => []
  | n + 1, i, g =>
    match gap with
    | some k =>
      if k ≤ i ∧ i < k + fill then 0 :: fillLoop gap fill n (i + 1) g
      else g.headD 0 :: fillLoop gap fill n (i + 1) g.tail
    | none => g.headD 0 :: fillLoop gap fill n (i + 1) g.tail

def groupBytes (g : List ℕ) : List UInt8 := g.flatMap fun v => [(v >>> 8).toUInt8, v.toUInt8]

/-- The groups that `pton6` reads; `none` if it returns 0. -/
def pton6Groups (s : List UInt8) : Option (List ℕ) :=
  if cur s = colon ∧ cur s.tail ≠ colon then none
  else
    match pton6Loop (s.length + 1) (if cur s = colon then s.tail else s) [] none with
    | none => none
    | some (g, none) => if g.length ≠ 8 then none else some (fillLoop none 0 8 0 g)
    | some (g, some k) =>
      if g.length = 8 then none else some (fillLoop (some k) (8 - g.length) 8 0 g)

def pton6 (s : List UInt8) : Option (List UInt8) := (pton6Groups s).map groupBytes

inductive Family
  | unspec
  | inet
  | inet6
  | other
  deriving DecidableEq

def EAFNOSUPPORT : ℤ := 97
def ENOSPC : ℤ := 28

def INET_ADDRSTRLEN : ℕ := 16
def INET6_ADDRSTRLEN : ℕ := 46
def IF_NAMESIZE : ℕ := 16

/-- `inet_pton`: the return value and the bytes stored. -/
def inetPton (af : Family) (s : List UInt8) : ℤ × Option (List UInt8) :=
  match af with
  | .inet =>
    match pton4 s with
    | some (v, []) => (1, some (v.map Nat.toUInt8))
    | _ => (0, none)
  | .inet6 =>
    match pton6 s with
    | some b => (1, some b)
    | none => (0, none)
  | .unspec | .other => (-1, none)

/-! ## The classic IPv4 notation -/

/-- The digit loop of `inet_aton`; the third component tells whether there was a digit. -/
def atonDigits (base : ℕ) : ℕ → Bool → List UInt8 → Option (ℕ × Bool × List UInt8)
  | v, any, [] => some (v, any, [])
  | v, any, c :: s =>
    if hexVal c < base then
      if v * base + hexVal c > 0xffffffff then none
      else atonDigits base (v * base + hexVal c) true s
    else some (v, any, c :: s)

/-- One part: the value and the rest. -/
def atonPart (s : List UInt8) : Option (ℕ × List UInt8) :=
  if !isDigit (cur s) then none
  else
    let base := if cur s = 48 then if cur s.tail ||| 32 = 120 then 16 else 8 else 10
    match atonDigits base 0 false (if base = 16 then s.drop 2 else s) with
    | none => none
    | some (v, any, s) => if any = false ∧ base ≠ 8 then none else some (v, s)

/-- The loop over at most `n` parts. -/
def atonParts : ℕ → List UInt8 → Option (List ℕ × List UInt8)
  | 0, s => some ([], s)
  | n + 1, s =>
    match atonPart s with
    | none => none
    | some (v, s) =>
      if cur s = dot ∧ n ≠ 0 then (atonParts n s.tail).map fun (vs, s) => (v :: vs, s)
      else some ([v], s)

/-- The address that one to four parts stand for. -/
def atonValue : List ℕ → Option ℕ
  | [a] => some a
  | [a, b] => if a > 255 ∨ b > 0xffffff then none else some (a <<< 24 ||| b)
  | [a, b, c] =>
    if a > 255 ∨ b > 255 ∨ c > 0xffff then none else some (a <<< 24 ||| b <<< 16 ||| c)
  | [a, b, c, d] =>
    if a > 255 ∨ b > 255 ∨ c > 255 ∨ d > 255 then none
    else some (a <<< 24 ||| b <<< 16 ||| c <<< 8 ||| d)
  | _ => none

/-- `inet_aton`: the address in host order; `none` if it returns 0. -/
def inetAton (s : List UInt8) : Option ℕ :=
  match atonParts 4 s with
  | none => none
  | some (v, s) => if s ≠ [] ∧ cur s ≠ space then none else atonValue v

/-! ## Binary to text -/

def quadText (a b c d : UInt8) : List UInt8 :=
  numText 10 a.toNat ++ dot :: (numText 10 b.toNat ++ dot :: (numText 10 c.toNat ++
    dot :: numText 10 d.toNat))

def groupsOf : List UInt8 → List ℕ
  | a :: b :: l => (a.toNat <<< 8 ||| b.toNat) :: groupsOf l
  | _ => []

/-- The search for the longest run of zero groups from `i` on: its start and length. -/
def findRun (g : List ℕ) : ℕ → ℕ → Option ℕ → ℕ → Option ℕ × ℕ
  | 0, _, best, blen => (best, blen)
  | fuel + 1, i, best, blen =>
    if 8 ≤ i then (best, blen)
    else if g.getD i 0 ≠ 0 then findRun g fuel (i + 1) best blen
    else
      let j := i + ((g.drop i).takeWhile (· = 0)).length
      if j - i > blen then findRun g fuel j (some i) (j - i) else findRun g fuel j best blen

/-- The loop that prints the groups from `i` on, without those of the run `best`. -/
def printGroups (g : List ℕ) (best : Option ℕ) (blen : ℕ) : ℕ → ℕ → List UInt8
  | 0, _ => []
  | fuel + 1, i =>
    if 8 ≤ i then []
    else if best = some i then
      (if i = 0 then [colon, colon] else [colon]) ++ printGroups g best blen fuel (i + blen)
    else
      numText 16 (g.getD i 0) ++
        ((if i < 7 then [colon] else []) ++ printGroups g best blen fuel (i + 1))

/-- The IPv4-mapped and IPv4-compatible addresses, which are printed with a dotted quad. -/
def hasQuad (g : List ℕ) : Bool :=
  g.take 5 = [0, 0, 0, 0, 0] ∧ (g.getD 5 0 = 0xffff ∨ g.getD 5 0 = 0 ∧ g.getD 6 0 ≠ 0)

def text6 (a : List UInt8) : List UInt8 :=
  let g := groupsOf a
  if hasQuad g then
    colon :: colon :: ((if g.getD 5 0 ≠ 0 then [102, 102, 102, 102, colon] else []) ++
      quadText (a.getD 12 0) (a.getD 13 0) (a.getD 14 0) (a.getD 15 0))
  else
    match findRun g 8 0 none 1 with
    | (best, blen) => printGroups g best blen 8 0

/-- `inet_ntop` with a buffer of `len` bytes: the text, or the error. -/
def inetNtop (af : Family) (a : List UInt8) (len : ℕ) : Except ℤ (List UInt8) :=
  match af with
  | .unspec | .other => .error EAFNOSUPPORT
  | .inet =>
    let t := quadText (a.getD 0 0) (a.getD 1 0) (a.getD 2 0) (a.getD 3 0)
    if t.length ≥ len then .error ENOSPC else .ok t
  | .inet6 => if (text6 a).length ≥ len then .error ENOSPC else .ok (text6 a)

/-! ## Numeric hosts -/

structure DnsAddr where
  family : Family
  addr : List UInt8
  scope : ℕ

/-- What `numeric_host` asks others about a scope. -/
structure Scopes where
  /-- `strtoul` in base 10: the value and what it has not read. -/
  strtoul : List UInt8 → ℕ × List UInt8
  ifNametoindex : List UInt8 → ℕ

/-- The result of `numeric_host`: 0, 1 with the address, or -1. -/
inductive HostKind
  | name
  | numeric (a : DnsAddr)
  | invalid

/-- The four bytes of an address in host order, in network order. -/
def networkOrder (a : ℕ) : List UInt8 :=
  [(a >>> 24).toUInt8, (a >>> 16).toUInt8, (a >>> 8).toUInt8, a.toUInt8]

def numericHost (env : Scopes) (host : List UInt8) : HostKind :=
  match inetAton host with
  | some a => .numeric ⟨.inet, networkOrder a, 0⟩
  | none =>
    if host.length ≥ INET6_ADDRSTRLEN + IF_NAMESIZE + 2 then .name
    else
      match pton6 (host.takeWhile (· ≠ percent)) with
      | none => .name
      | some addr =>
        match host.dropWhile (· ≠ percent) with
        | [] => .numeric ⟨.inet6, addr, 0⟩
        | _ :: scope =>
          let (id, e) := env.strtoul scope
          let id := if e ≠ [] ∨ scope = [] then env.ifNametoindex scope else id
          if id = 0 ∨ id > 0xffffffff then .invalid else .numeric ⟨.inet6, addr, id⟩

def AI_NUMERICHOST : ℕ := 0x04
def AI_V4MAPPED : ℕ := 0x08

def EAI_NONAME : ℤ := -2
def EAI_ADDRFAMILY : ℤ := -9

/-- The addresses that `getaddrinfo` finds for a host, before it selects and orders them; `lookup`
is `__lookup_name`. -/
def getaddrinfoHost (env : Scopes) (lookup : List UInt8 → Family → Except ℤ (List DnsAddr))
    (flags : ℕ) (family : Family) (host : List UInt8) : Except ℤ (List DnsAddr) :=
  match numericHost env host with
  | .invalid => .error EAI_NONAME
  | .numeric a =>
    if family = .inet ∧ a.family = .inet6 then .error EAI_ADDRFAMILY
    else if family = .inet6 ∧ a.family = .inet ∧ flags &&& AI_V4MAPPED = 0 then
      .error EAI_ADDRFAMILY
    else .ok [a]
  | .name =>
    if flags &&& AI_NUMERICHOST ≠ 0 then .error EAI_NONAME
    else lookup host (if family = .inet6 ∧ flags &&& AI_V4MAPPED ≠ 0 then .unspec else family)

end Citadel.Net
