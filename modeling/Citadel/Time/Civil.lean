import Citadel.Lib.CInt

/-!
# Broken-down time in UTC

`__is_leap` and `__days_from_civil` of `tz.c`, and `secs_to_tm`, `gmtime_r`, `tm_to_secs` and
`timegm` of `timeconv.c`. Times are of type `long long`; a function is `none` if one of its signed
operations overflows. Divisions by a positive constant cannot.
-/

namespace Citadel.Time

open Citadel.Lib.CInt

inductive Errno where
  | EOVERFLOW
deriving DecidableEq

/-- The fields of `struct tm` that `secs_to_tm` fills. -/
@[ext] structure Fields where
  sec : ℤ
  min : ℤ
  hour : ℤ
  mday : ℤ
  mon : ℤ
  year : ℤ
  wday : ℤ
  yday : ℤ
deriving DecidableEq

structure Tm extends Fields where
  isdst : ℤ
  gmtoff : ℤ
  zone : List UInt8
deriving DecidableEq

def INT_MAX : ℤ := 2147483647

def INT_MIN : ℤ := -2147483648

def isLeap (y : ℤ) : Prop := (y.tmod 4 = 0 ∧ y.tmod 100 ≠ 0) ∨ y.tmod 400 = 0

instance (y : ℤ) : Decidable (isLeap y) := inferInstanceAs (Decidable (_ ∨ _))

/-- `__days_from_civil`; the month and the day are unsigned. -/
def daysFromCivil (y m d : ℤ) : Option ℤ := do
  let y ← llong (y - if m ≤ 2 then 1 else 0)
  let era := (← choose (0 ≤ y) (some y) (llong (y - 399))).tdiv 400
  let yoe := uint (← llong (y - (← llong (era * 400))))
  let doy := uint (uint (153 * uint (m + if m > 2 then -3 else 9) + 2) / 5 + d - 1)
  let doe := uint (yoe * 365 + yoe / 4 - yoe / 100 + doy)
  llong ((← llong ((← llong (era * 146097)) + doe)) - 719468)

/-- The part of `secs_to_tm` that finds the date: year, month and day. -/
def civilFromDays (days : ℤ) : Option (ℤ × ℤ × ℤ) := do
  let z ← llong (days + 719468)
  let era := (← choose (0 ≤ z) (some z) (llong (z - 146096))).tdiv 146097
  let doe := uint (← llong (z - (← llong (era * 146097))))
  let yoe := uint (doe - doe / 1460 + doe / 36524 - doe / 146096) / 365
  let y ← llong (yoe + (← llong (era * 400)))
  let doy := uint (doe - uint (365 * yoe + yoe / 4 - yoe / 100))
  let mp := uint (5 * doy + 2) / 153
  let d := uint (doy - uint (153 * mp + 2) / 5 + 1)
  let m := uint (if mp < 10 then mp + 3 else mp - 9)
  let y ← llong (y + if m ≤ 2 then 1 else 0)
  pure (y, m, d)

/-- The part of `secs_to_tm` that checks the year and fills the fields. -/
def fillFields (y m d days rem : ℤ) : Option (Except Errno Fields) := do
  let year ← llong (y - 1900)
  if year > INT_MAX ∨ year < INT_MIN then pure (.error .EOVERFLOW)
  else
    let jan1 ← daysFromCivil y 1 1
    pure (.ok {
      year := ← cint year
      mon := ← cint ((← cint m) - 1)
      mday := ← cint d
      yday := ← cint (← llong (days - jan1))
      wday := ← cint ((← llong (days.tmod 7 + 11)).tmod 7) -- 1970-01-01: Thursday
      hour := ← cint (rem.tdiv 3600)
      min := ← cint ((rem.tdiv 60).tmod 60)
      sec := ← cint (rem.tmod 60) })

def secsToTm (t : ℤ) : Option (Except Errno Fields) := do
  let rem ← choose (t.tmod 86400 < 0) (llong (t.tmod 86400 + 86400)) (some (t.tmod 86400))
  let days ← choose (t.tmod 86400 < 0) (llong (t.tdiv 86400 - 1)) (some (t.tdiv 86400))
  let (y, m, d) ← civilFromDays days
  fillFields y m d days rem

def gmtimeR (t : ℤ) : Option (Except Errno Tm) := do
  match ← secsToTm t with
  | .error e => pure (.error e)
  | .ok f => pure (.ok { f with isdst := 0, gmtoff := 0, zone := [71, 77, 84] })

/-- `tm_to_secs`: the fields as seconds since the epoch; `none` inside if the year is out of range.
-/
def tmToSecs (tm : Tm) : Option (Option ℤ) := do
  let y ← llong ((← llong (tm.year + 1900)) + tm.mon.tdiv 12)
  let mon ← choose (tm.mon.tmod 12 < 0) (llong (tm.mon.tmod 12 + 12)) (some (tm.mon.tmod 12))
  let y ← choose (tm.mon.tmod 12 < 0) (llong (y - 1)) (some y)
  if y > 2 ^ 40 ∨ y < -2 ^ 40 then pure none
  else
    let days ← daysFromCivil y (uint (mon + 1)) 1
    let t ← llong ((← llong ((← llong (days + tm.mday)) - 1)) * 86400)
    let s ← llong ((← llong ((← llong (tm.hour * 3600)) + (← llong (tm.min * 60)))) + tm.sec)
    pure (some (← llong (t + s)))

/-- `timegm`: the time, and the struct as it is left. -/
def timegm (tm : Tm) : Option (Except Errno (ℤ × Tm)) := do
  match ← tmToSecs tm with
  | none => pure (.error .EOVERFLOW)
  | some t =>
    match ← gmtimeR t with
    | .error _ => pure (.error .EOVERFLOW)
    | .ok n => pure (.ok (t, n))

end Citadel.Time
