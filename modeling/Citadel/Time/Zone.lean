import Citadel.Time.Civil

/-!
# Time zones and local time

The rules of the POSIX `TZ` strings of `tz.c` (`parse_posix`, `rule_time`, `rule_lookup`), and
`localtime_r` and `mktime` of `timeconv.c`, which use the zone through `__tz_lookup` only. Strings
are lists of bytes without the terminator. A function is `none` if a signed operation overflows, as
in `Citadel.Time.Civil`.
-/

namespace Citadel.Time

open Citadel.Lib.CInt

/-! ## POSIX TZ strings -/

/-- `rule_date.kind`: a Julian day without leap days, a day of the year, or month, week and day. -/
inductive DateKind where
  | J | D | M
deriving DecidableEq

structure RuleDate where
  kind : DateKind
  n : ℤ
  m : ℤ
  w : ℤ
  d : ℤ
  secs : ℤ
deriving DecidableEq

structure PosixRule where
  std : List UInt8
  dst : List UInt8
  stdOff : ℤ
  dstOff : ℤ
  hasDst : Bool
  start : RuleDate
  stop : RuleDate
deriving DecidableEq

/-- A loop of `parse_name`: the bytes that satisfy `ok`, at most 15 of them. -/
def nameLoop (ok : UInt8 → Bool) : List UInt8 → List UInt8 → Option (List UInt8 × List UInt8)
  | out, [] => some (out, [])
  | out, c :: s =>
    if ok c then if out.length + 1 ≥ 16 then none else nameLoop ok (out ++ [c]) s
    else some (out, c :: s)

def isLetter (c : UInt8) : Bool := 97 ≤ c ||| 32 && c ||| 32 ≤ 122

/-- The name in angle brackets, or the letters. -/
def parseQuoted (s : List UInt8) : Option (List UInt8 × List UInt8) :=
  if s.headD 0 = 60 then do
    let (out, s) ← nameLoop (· != 62) [] s.tail
    if s.headD 0 = 62 then pure (out, s.tail) else none
  else nameLoop isLetter [] s

/-- `parse_name`: the name and the rest of the string. -/
def parseName (s : List UInt8) : Option (List UInt8 × List UInt8) := do
  let (out, s) ← parseQuoted s
  if out.length < 3 then none else pure (out, s)

def isDigit (c : UInt8) : Bool := 48 ≤ c && c ≤ 57

/-- The loops over digits, which stop when the number has reached `lim`. -/
def digitLoop (lim : ℤ) : ℤ → List UInt8 → ℤ × List UInt8
  | n, [] => (n, [])
  | n, c :: s =>
    if isDigit c ∧ n < lim then digitLoop lim (n * 10 + (c.toNat - 48)) s else (n, c :: s)

def parsePart (s : List UInt8) : Option (ℤ × List UInt8) :=
  if isDigit (s.headD 0) then some (digitLoop 100 0 s) else none

/-- Minutes and seconds of `parse_hms`. -/
def parseMinSec (s : List UInt8) : Option (ℤ × ℤ × List UInt8) :=
  if s.headD 0 = 58 then do
    let (m, s) ← parsePart s.tail
    if s.headD 0 = 58 then do
      let (sec, s) ← parsePart s.tail
      pure (m, sec, s)
    else pure (m, 0, s)
  else some (0, 0, s)

def parseHms (s : List UInt8) : Option (ℤ × List UInt8) := do
  let sign : ℤ := if s.headD 0 = 45 then -1 else 1
  let s := if s.headD 0 = 43 ∨ s.headD 0 = 45 then s.tail else s
  if ¬ isDigit (s.headD 0) then none
  else
    let (h, s) := digitLoop 1000 0 s
    let (m, sec, s) ← parseMinSec s
    if h > 167 ∨ m > 59 ∨ sec > 59 then none
    else pure ((h * 3600 + m * 60 + sec) * sign, s)

def parseNum (lo hi : ℤ) (s : List UInt8) : Option (ℤ × List UInt8) :=
  if ¬ isDigit (s.headD 0) then none
  else
    let (n, s) := digitLoop (hi + 1) 0 s
    if n < lo ∨ n > hi then none else some (n, s)

/-- `parse_date` up to the time of day, which is 02:00 by default. -/
def parseDay (s : List UInt8) : Option (RuleDate × List UInt8) :=
  if s.headD 0 = 74 then do
    let (n, s) ← parseNum 1 365 s.tail
    pure (⟨.J, n, 0, 0, 0, 7200⟩, s)
  else if s.headD 0 = 77 then do
    let (m, s) ← parseNum 1 12 s.tail
    if s.headD 0 ≠ 46 then none
    else
      let (w, s) ← parseNum 1 5 s.tail
      if s.headD 0 ≠ 46 then none
      else
        let (d, s) ← parseNum 0 6 s.tail
        pure (⟨.M, 0, m, w, d, 7200⟩, s)
  else do
    let (n, s) ← parseNum 0 365 s
    pure (⟨.D, n, 0, 0, 0, 7200⟩, s)

def parseDate (s : List UInt8) : Option (RuleDate × List UInt8) := do
  let (d, s) ← parseDay s
  if s.headD 0 = 47 then do
    let (secs, s) ← parseHms s.tail
    pure ({ d with secs := secs }, s)
  else pure (d, s)

/-- An offset of `parse_posix`, at most a day in either direction. -/
def parseOffset (s : List UInt8) : Option (ℤ × List UInt8) := do
  let (off, s) ← parseHms s
  if off > 24 * 3600 ∨ off < -24 * 3600 then none else pure (off, s)

/-- The offset of DST, by default an hour more than that of standard time. -/
def parseDstOffset (stdOff : ℤ) (s : List UInt8) : Option (ℤ × List UInt8) :=
  if s ≠ [] ∧ s.headD 0 ≠ 44 then do
    let (off, s) ← parseOffset s
    pure (-off, s)
  else some (stdOff + 3600, s)

/-- The dates of `parse_posix`; without any, the rules of the US. -/
def parseDates (s : List UInt8) : Option (RuleDate × RuleDate × List UInt8) :=
  if s.headD 0 = 44 then do
    let (start, s) ← parseDate s.tail
    if s.headD 0 ≠ 44 then none
    else
      let (stop, s) ← parseDate s.tail
      pure (start, stop, s)
  else some (⟨.M, 0, 3, 2, 0, 7200⟩, ⟨.M, 0, 11, 1, 0, 7200⟩, s)

def parsePosix (s : List UInt8) : Option PosixRule := do
  let (std, s) ← parseName s
  let (off, s) ← parseOffset s
  if s = [] then pure ⟨std, [], -off, 0, false, ⟨.M, 0, 0, 0, 0, 0⟩, ⟨.M, 0, 0, 0, 0, 0⟩⟩
  else
    let (dst, s) ← parseName s
    let (dstOff, s) ← parseDstOffset (-off) s
    let (start, stop, s) ← parseDates s
    if s ≠ [] then none else pure ⟨std, dst, -off, dstOff, true, start, stop⟩

/-! ## Rules -/

/-- A local time type: `off`, `isdst` and `name` as `__tz_lookup` gives them. -/
structure LocalType where
  off : ℤ
  isdst : ℤ
  name : List UInt8
deriving DecidableEq

def mlen : List ℤ := [31, 28, 31, 30, 31, 30, 31, 31, 30, 31, 30, 31]

/-- The loop of `rule_time` that steps back by weeks. -/
def weekLoop (len : ℤ) : ℕ → ℤ → Option ℤ
  | 0, _ => none
  | fuel + 1, mday => if mday > len then do weekLoop len fuel (← cint (mday - 7)) else some mday

/-- The day of the year of a rule of kind `M`. -/
def ruleWeekday (year : ℤ) (d : RuleDate) : Option ℤ := do
  let first ← daysFromCivil year d.m 1
  let jan1 ← daysFromCivil year 1 1
  let wdFirst ← cint ((← llong ((← llong (first.tmod 7 + 7)) + 4)).tmod 7)
  let delta := (← cint ((← cint (d.d - wdFirst)) + 7)).tmod 7
  let mday ← cint ((← cint (1 + delta)) + (← cint (7 * (← cint (d.w - 1)))))
  let len ← cint (mlen.getD (d.m - 1).toNat 0 + if d.m = 2 ∧ isLeap year then 1 else 0)
  let mday ← weekLoop len 8 mday
  llong ((← llong ((← llong (first - jan1)) + mday)) - 1)

def ruleTime (year : ℤ) (d : RuleDate) : Option ℤ := do
  let day ← match d.kind with
    | .J => do llong ((← cint (d.n - 1)) + if isLeap year ∧ d.n ≥ 60 then 1 else 0)
    | .D => pure d.n
    | .M => ruleWeekday year d
  llong ((← llong (day * 86400)) + d.secs)

def yearUp (days : ℤ) : ℕ → ℤ → Option ℤ
  | 0, _ => none
  | fuel + 1, y => do
    let next ← llong (y + 1)
    if (← daysFromCivil next 1 1) ≤ days then yearUp days fuel next else pure y

def yearDown (days : ℤ) : ℕ → ℤ → Option ℤ
  | 0, _ => none
  | fuel + 1, y => do
    if (← daysFromCivil y 1 1) > days then yearDown days fuel (← llong (y - 1)) else pure y

/-- The year of a day. -/
def ruleYear (days : ℤ) : Option ℤ := do
  let scaled ← llong (days * 400)
  let q := (← choose (0 ≤ days) (some scaled) (llong (scaled - 146096))).tdiv 146097
  let y ← yearUp days 8 (← llong (1970 + q))
  yearDown days 8 y

/-- The test of `rule_lookup`; rule transitions start in 1970. -/
def inDst (year t start stop : ℤ) : Prop :=
  if year < 1970 then start > stop
  else if start < stop then t ≥ start ∧ t < stop
  else ¬ (t ≥ stop ∧ t < start)

instance (year t start stop : ℤ) : Decidable (inDst year t start stop) :=
  inferInstanceAs (Decidable (ite _ _ _))

def ruleLookup (r : PosixRule) (t : ℤ) : Option LocalType :=
  if ¬ r.hasDst then some ⟨r.stdOff, 0, r.std⟩
  else do
    let s ← llong (t + r.stdOff)
    let days ← llong (s.tdiv 86400 - if s.tmod 86400 < 0 then 1 else 0)
    let year ← ruleYear days
    let y := if year < 1970 then 1970 else year
    let y0 ← llong ((← daysFromCivil y 1 1) * 86400)
    let start ← llong ((← llong (y0 + (← ruleTime y r.start))) - r.stdOff)
    let stop ← llong ((← llong (y0 + (← ruleTime y r.stop))) - r.dstOff)
    pure (if inDst year t start stop then ⟨r.dstOff, 1, r.dst⟩ else ⟨r.stdOff, 0, r.std⟩)

/-! ## Local time -/

section Local

variable (lookup : ℤ → Option LocalType)

def localtimeR (t : ℤ) : Option (Except Errno Tm) :=
  if t < -2 ^ 60 ∨ t > 2 ^ 60 then some (.error .EOVERFLOW)
  else do
    let l ← lookup t
    match ← secsToTm (← llong (t + l.off)) with
    | .error e => pure (.error e)
    | .ok f => pure (.ok { f with isdst := l.isdst, gmtoff := l.off, zone := l.name })

/-- The loop of `mktime` that collects the types in effect within two days. -/
def nearTypes (L : ℤ) : List ℤ → List (ℤ × ℤ) → Option (List (ℤ × ℤ))
  | [], ty => some ty
  | k :: ks, ty => do
    let l ← lookup (← llong (L + (← llong (k * 86400))))
    nearTypes L ks (if (l.off, l.isdst) ∈ ty then ty else ty ++ [(l.off, l.isdst)])

/-- The loop of `mktime` over the types of the wanted kind; `found` is 1 with some type of that kind
and 2 with a consistent one. -/
def seekType (L want : ℤ) : List (ℤ × ℤ) → ℤ → ℕ → Option (ℤ × ℕ)
  | [], off, found => some (off, found)
  | (o, dst) :: ty, off, found =>
    if found < 2 then
      if dst ≠ want then seekType L want ty off found
      else do
        let l ← lookup (← llong (L - o))
        if l.off = o ∨ found = 0 then seekType L want ty o (if l.off = o then 2 else 1)
        else seekType L want ty off found
    else some (off, found)

/-- `find_kind`: the loop over the distances `d` and the two directions. -/
def findKind (t want : ℤ) : List ℤ → Option (Option ℤ)
  | [] => some none
  | d :: ds => do
    let l ← lookup (← llong (t + (← llong (-1 * d))))
    if l.isdst = want then pure (some l.off)
    else
      let l ← lookup (← llong (t + (← llong (1 * d))))
      if l.isdst = want then pure (some l.off) else findKind t want ds

/-- The distances that `find_kind` probes: up to 366 days in steps of 15. -/
def probes : List ℤ := (List.range 25).map fun i : ℕ => i * (15 * 86400)

/-- The offset that `mktime` reads the time with, if `tm_isdst` is not negative. -/
def wantedOffset (L want : ℤ) (ty : List (ℤ × ℤ)) : Option ℤ := do
  let (off, found) ← seekType lookup L want ty (ty.headD (0, 0)).1 0
  if found ≠ 0 then pure off
  else
    let l ← lookup (← llong (L - (ty.headD (0, 0)).1))
    match ← findKind lookup (← llong (L - l.off)) want probes with
    | some off => pure off
    | none => llong (l.off + (if want ≠ 0 then 3600 else -3600) * (if l.isdst = want then 0 else 1))

/-- The loop of `mktime` that prefers a consistent standard-time reading. -/
def bestType (L : ℤ) : List (ℤ × ℤ) → Option (ℤ × ℤ) → Option (Option (ℤ × ℤ))
  | [], best => some best
  | (o, dst) :: ty, best => do
    let l ← lookup (← llong (L - o))
    if l.off ≠ o then bestType L ty best
    else
      match best with
      | none => bestType L ty (some (o, dst))
      | some b => bestType L ty (if b.2 ≠ 0 ∧ dst = 0 then some (o, dst) else some b)

/-- The offset that `mktime` reads the time with, if `tm_isdst` is negative. -/
def anyOffset (L : ℤ) (ty : List (ℤ × ℤ)) : Option ℤ := do
  match ← bestType lookup L ty none with
  | some b => pure b.1
  | none =>
    -- in a gap, the smallest offset
    pure (ty.tail.foldl (fun best x => if x.1 < best.1 then x else best) (ty.headD (0, 0))).1

/-- The offset that `mktime` reads the time with. -/
def readOffset (L isdst : ℤ) (ty : List (ℤ × ℤ)) : Option ℤ :=
  if isdst ≥ 0 then wantedOffset lookup L (if isdst > 0 then 1 else 0) ty else anyOffset lookup L ty

/-- `mktime`: the time, and the struct as it is left. -/
def mktime (tm : Tm) : Option (Except Errno (ℤ × Tm)) := do
  match ← tmToSecs tm with
  | none => pure (.error .EOVERFLOW)
  | some L =>
    let ty ← nearTypes lookup L [-2, -1, 0, 1, 2] []
    let off ← readOffset lookup L tm.isdst ty
    let tt ← llong (L - off)
    match ← localtimeR lookup tt with
    | .error _ => pure (.error .EOVERFLOW)
    | .ok n => pure (.ok (tt, n))

end Local

end Citadel.Time
