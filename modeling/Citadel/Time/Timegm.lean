import Citadel.Time.Gmtime

/-!
# `timegm` on any fields

The six fields that `timegm` reads may have any value of type `int`.

* `timegm_normalises`: the time is the linear formula of the fields, and the struct is rewritten to
  the only fields in range that stand for it; if their year does not fit, the call fails.
-/

namespace Citadel.Time

open Citadel.Lib.CInt Citadel.Lib.Calendar

/-- A call of `timegm`: what it returns, and what the struct holds after it. -/
def timegmCall (tm : Tm) : Option (Except Errno ℤ × Tm) := do
  match ← timegm tm with
  | .error e => pure (.error e, tm)
  | .ok (t, n) => pure (.ok t, n)

/-- Every field is in its range, and the days of the week and of the year are those of the date. -/
structure InRange (f : Fields) : Prop where
  sec : 0 ≤ f.sec ∧ f.sec < 60
  min : 0 ≤ f.min ∧ f.min < 60
  hour : 0 ≤ f.hour ∧ f.hour < 24
  mon : 0 ≤ f.mon ∧ f.mon < 12
  mday : 1 ≤ f.mday ∧ f.mday ≤ monthLength (f.year + 1900) (f.mon.toNat + 1)
  yday : f.yday = monthStart (f.year + 1900) (f.mon.toNat + 1) + f.mday - 1
  wday : f.wday = (yearStart (f.year + 1900) + f.yday + 4) % 7

theorem inRange_breakDown (date : Date) {s : ℤ} (hs : 0 ≤ s ∧ s < 86400) :
    InRange (breakDown date s) := by
  have h1 := date.month_pos
  have h2 := date.month_le
  have hy : (breakDown date s).year + 1900 = date.year := Int.sub_add_cancel _ _
  have hm : (breakDown date s).mon.toNat + 1 = date.month := by
    simp only [breakDown]
    omega
  refine ⟨?_, ?_, ?_, ?_, ?_, ?_, ?_⟩
  · simp only [breakDown]
    omega
  · simp only [breakDown]
    omega
  · simp only [breakDown]
    omega
  · simp only [breakDown]
    omega
  · rw [hy, hm]
    exact ⟨date.day_pos, date.day_le⟩
  · rw [hy, hm]
    rfl
  · rw [hy]
    rfl

theorem InRange.exists_date {f : Fields} (h : InRange f) :
    ∃ (date : Date) (s : ℤ), (0 ≤ s ∧ s < 86400) ∧ f = breakDown date s := by
  have hsec := h.sec
  have hmin := h.min
  have hhour := h.hour
  have hmon := h.mon
  refine ⟨⟨f.year + 1900, f.mon.toNat + 1, f.mday, by omega, by omega, h.mday.1, h.mday.2⟩,
    f.hour * 3600 + f.min * 60 + f.sec, by omega, ?_⟩
  have hw := h.wday
  rw [h.yday] at hw
  ext
  · simp only [breakDown]
    omega
  · simp only [breakDown]
    omega
  · simp only [breakDown]
    omega
  · rfl
  · simp only [breakDown]
    omega
  · simp only [breakDown]
    omega
  · exact hw
  · exact h.yday

theorem InRange.eq_breakDown {f : Fields} (h : InRange f) {date : Date} {s : ℤ}
    (hs : 0 ≤ s ∧ s < 86400) (heq : linearSecs f = date.dayNumber * 86400 + s) :
    f = breakDown date s := by
  obtain ⟨date', s', hs', rfl⟩ := h.exists_date
  rw [linearSecs_breakDown] at heq
  rw [Date.dayNumber_injective (show date'.dayNumber = date.dayNumber by omega),
    show s' = s by omega]

theorem IntFields.linearSecs_bounds {f : Fields} (h : IntFields f) :
    -2 ^ 63 ≤ linearSecs f ∧ linearSecs f < 2 ^ 63 := by
  have hdays := h.days_bounds
  simp only [IntFields, INT_MIN, INT_MAX, List.forall_mem_cons] at h
  unfold linearSecs
  omega

/-- **`timegm` normalises its fields.** -/
theorem timegm_normalises {tm : Tm} (h : IntFields tm.toFields) :
    ∃ date : Date, date.dayNumber = linearSecs tm.toFields / 86400 ∧
      (YearFits date → ∃ n : Tm, timegmCall tm = some (.ok (linearSecs tm.toFields), n) ∧
        InRange n.toFields ∧ linearSecs n.toFields = linearSecs tm.toFields ∧
        (∀ f, InRange f → linearSecs f = linearSecs tm.toFields → f = n.toFields) ∧
        timegmCall n = some (.ok (linearSecs tm.toFields), n)) ∧
      (¬ YearFits date → timegmCall tm = some (.error .EOVERFLOW, tm)) := by
  have hsecs := tmToSecs_linear h
  obtain ⟨date, hnum, hgm⟩ := gmtimeR_eq h.linearSecs_bounds
  refine ⟨date, hnum, fun hy => ?_, fun hy => ?_⟩
  · obtain ⟨s, hs⟩ : ∃ s, s = linearSecs tm.toFields % 86400 := ⟨_, rfl⟩
    have hs0 : 0 ≤ s ∧ s < 86400 := by omega
    have ht : linearSecs tm.toFields = date.dayNumber * 86400 + s := by omega
    obtain ⟨n, hn, hgm⟩ : ∃ n : Tm, n.toFields = breakDown date s ∧
        gmtimeR (linearSecs tm.toFields) = some (.ok n) := by
      rw [if_pos hy, ← hs] at hgm
      exact ⟨_, rfl, hgm⟩
    refine ⟨n, ?_, hn ▸ inRange_breakDown date hs0, ?_, fun f hf heq => ?_, ?_⟩
    · simp only [timegmCall, timegm, hsecs, hgm, some_bind]
      rfl
    · rw [hn, linearSecs_breakDown, ht]
    · rw [hn]
      exact hf.eq_breakDown hs0 (heq.trans ht)
    · simp only [timegmCall, timegm, tmToSecs_eq hs0 hy hn, ← ht, hgm, some_bind]
      rfl
  · rw [if_neg hy] at hgm
    simp only [timegmCall, timegm, hsecs, hgm, some_bind]
    rfl

/-- The month 14 of the year 2020 with the day 0 is the last of February 2021. -/
theorem timegm_normalises_month : IntFields ⟨0, 0, 0, 0, 14, 120, 0, 0⟩ ∧
    ∃ n : Tm, timegmCall ⟨⟨0, 0, 0, 0, 14, 120, 0, 0⟩, 0, 0, []⟩ = some (.ok 1614470400, n) ∧
      n.toFields = ⟨0, 0, 0, 28, 1, 121, 0, 58⟩ := by
  have hi : IntFields ⟨0, 0, 0, 0, 14, 120, 0, 0⟩ := by decide
  have ht : linearSecs ⟨0, 0, 0, 0, 14, 120, 0, 0⟩ = 1614470400 := by
    rw [linearSecs, yearStart_eq]
    decide
  refine ⟨hi, ?_⟩
  obtain ⟨date, hnum, hok, -⟩ := @timegm_normalises ⟨⟨0, 0, 0, 0, 14, 120, 0, 0⟩, 0, 0, []⟩ hi
  rw [ht] at hnum hok
  obtain rfl : date = ⟨2021, 2, 28, by decide, by decide, by decide, by decide⟩ :=
    Date.dayNumber_injective (hnum.trans (by rw [Date.dayNumber, yearStart_eq]; decide))
  obtain ⟨n, hcall, -, -, huniq, -⟩ := hok (by decide)
  refine ⟨n, hcall, (huniq _ ?_ ?_).symm⟩
  · refine ⟨by decide, by decide, by decide, by decide, by decide, by decide, ?_⟩
    rw [yearStart_eq]
    decide
  · rw [linearSecs, yearStart_eq]
    decide

end Citadel.Time
