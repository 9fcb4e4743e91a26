import Citadel.Lib.Calendar
import Citadel.Time.Civil

/-!
# UTC conversion and the calendar

The closed formulas of `__days_from_civil` and `secs_to_tm` against the Gregorian calendar, which
counts days. Both formulas let the year begin in March, so that the leap day is its last day.

* `daysFromCivil_eq`, `civilFromDays_eq`: days and dates.
* `secsToTm_eq`, `tmToSecs_eq`: times and broken-down times.
* `gmtime_timegm`: `gmtime_r` and `timegm` are inverse to each other.
-/

namespace Citadel.Time

open Citadel.Lib.CInt Citadel.Lib.Calendar Int Prod

theorem isLeap_iff (y : ℤ) : isLeap y ↔ IsLeap y := by
  unfold isLeap IsLeap
  rw [tmod_eq, tmod_eq, tmod_eq]
  split_ifs <;> omega

/-! ## From dates to days -/

variable {y doe c q r doy : ℤ} {date : Date}

theorem daysFromCivil_eq {d : ℤ} {m : ℕ} (hy : -2 ^ 41 ≤ y ∧ y ≤ 2 ^ 41) (h1 : 1 ≤ m) (h12 : m ≤ 12)
    (hd : 1 ≤ d ∧ d < 2 ^ 31) :
    daysFromCivil y m d = some (yearStart y + monthStart y m + d - 1) := by
  -- the year that begins in March, and the months from March on
  obtain ⟨y', hy'⟩ : ∃ y', y' = y - if (m : ℤ) ≤ 2 then 1 else 0 := ⟨_, rfl⟩
  obtain ⟨k, hk⟩ : ∃ k : ℤ, k = m + if (m : ℤ) > 2 then -3 else 9 := ⟨_, rfl⟩
  have hyr : -2 ^ 42 ≤ y' ∧ y' ≤ 2 ^ 42 := by rw [hy']; split_ifs <;> omega
  have hkr : 0 ≤ k ∧ k ≤ 11 := by rw [hk]; split_ifs <;> omega
  have hstart : yearStart y + monthStart y m =
      365 * y' + leaps y' + (153 * k + 2) / 5 - 719468 := by
    rw [yearStart_eq, monthStart_eq y h1 (by omega)]
    by_cases hm : (m : ℤ) ≤ 2
    · rw [if_pos hm] at hy'
      rw [if_neg (by omega)] at hk
      rw [if_pos (by omega), hy']
      omega
    · rw [if_neg hm, sub_zero] at hy'
      rw [if_pos (by omega), ← sub_eq_add_neg] at hk
      rw [if_neg (by omega), ← hk, hy', leaps_sub_one]
      split_ifs <;> omega
  have hera : (if 0 ≤ y' then y' else y' - 399).tdiv 400 = y' / 400 :=
    tdiv_floor y' (b := 400) (by decide)
  have hyoe : uint (y' - y' / 400 * 400) = y' % 400 := by rw [uint_eq (by omega)]; omega
  have hdoy : uint (uint (153 * uint k + 2) / 5 + d - 1) = (153 * k + 2) / 5 + d - 1 := by
    rw [uint_eq (x := k) (by omega), uint_eq (x := 153 * k + 2) (by omega), uint_eq (by omega)]
  unfold daysFromCivil
  rw [← hy', ← hk, llong_bind (by omega), choose_bind (fun _ => rfl) (fun _ => llong_eq (by omega))]
  simp only [hera]
  rw [llong_bind (by omega), llong_bind (by omega)]
  simp only [hyoe, hdoy]
  rw [uint_eq (by omega), llong_bind (by omega), llong_bind (by omega), llong_eq (by omega), hstart,
    leaps_eq]
  congr 1
  omega

theorem daysFromCivil_jan1 (hy : -2 ^ 41 ≤ y ∧ y ≤ 2 ^ 41) :
    daysFromCivil y 1 1 = some (yearStart y) := by
  have h := daysFromCivil_eq (m := 1) (d := 1) hy (by decide) (by decide) (by decide)
  rw [show monthStart y 1 = 0 from rfl, Int.add_zero, Int.add_sub_cancel] at h
  exact h

/-! ## From days to dates -/

/-- The last day of a year that begins in March: only the last of four years has 366 days, in the
last four of a century only if the century is the last of the era. -/
def LastDay (c q r doy : ℤ) : Prop := doy = 365 ∧ r = 3 ∧ (q ≤ 23 ∨ q = 24 ∧ c = 3)

/-- **The year of the era and its day**, as `civilFromDays` computes them. -/
theorem year_of_era {yoe : ℤ} (h0 : 0 ≤ doe) (h1 : doe < 146097)
    (hy : yoe = (doe - doe / 1460 + doe / 36524 - doe / 146096) / 365)
    (hd : doy = doe - (365 * yoe + yoe / 4 - yoe / 100)) :
    ∃ c q r, yoe = 100 * c + 4 * q + r ∧ (0 ≤ c ∧ c ≤ 3) ∧ (0 ≤ q ∧ q ≤ 24) ∧ (0 ≤ r ∧ r ≤ 3) ∧
      0 ≤ doy ∧ (doy ≤ 364 ∨ LastDay c q r doy) := by
  unfold LastDay
  rcases (by omega : doe = 146096 ∨ doe < 146096) with rfl | h
  · exact ⟨3, 24, 3, by omega, by omega, by omega, by omega, by omega, by omega⟩
  -- the century `c`, the cycle `q` of four years in it and the year `r` of the cycle
  obtain ⟨c, f, hf, hc, hf0⟩ : ∃ c f, doe = 36524 * c + f ∧ (0 ≤ c ∧ c ≤ 3) ∧ 0 ≤ f ∧ f < 36524 :=
    ⟨doe / 36524, doe % 36524, by omega, by omega, by omega⟩
  obtain ⟨q, r, hqr, hr⟩ : ∃ q r, yoe = 100 * c + 4 * q + r ∧ 0 ≤ r ∧ r ≤ 3 :=
    ⟨(yoe - 100 * c) / 4, (yoe - 100 * c) % 4, by omega, by omega⟩
  have hcyc : 4 * q + r = (f - (24 * c + f) / 1460) / 365 := by omega
  clear hy
  have hq : 0 ≤ q ∧ q ≤ 24 := by omega
  have h4 : yoe / 4 = 25 * c + q := by omega
  have h100 : yoe / 100 = c := by omega
  have hdoy : doy = f - (1461 * q + 365 * r) := by omega
  clear hd h0 h1 h hf h4 h100
  refine ⟨c, q, r, hqr, hc, hq, hr, by omega, ?_⟩
  by_cases h364 : doy ≤ 364
  · exact .inl h364
  -- a day 365 before the last year of the cycle would begin the next year
  obtain rfl : r = 3 := by
    by_contra hne
    have : (24 * c + f) / 1460 = q := by omega
    omega
  exact .inr (by omega)

theorem LastDay.isLeap (h : LastDay c q r doy) (hq : 0 ≤ q) (era : ℤ) :
    IsLeap (100 * c + 4 * q + r + era * 400 + 1) := by
  obtain ⟨-, rfl, hq' | ⟨rfl, rfl⟩⟩ := h
  · refine .inl ⟨emod_eq_zero_of_dvd ⟨25 * c + q + 1 + 100 * era, by omega⟩, ?_⟩
    rw [show 100 * c + 4 * q + 3 + era * 400 + 1 = 4 * (q + 1) + 100 * (c + 4 * era) by omega,
      add_mul_emod_self_left, emod_eq_of_lt (by omega) (by omega)]
    omega
  · exact .inr (emod_eq_zero_of_dvd ⟨era + 1, by omega⟩)

theorem exists_date {mp : ℤ} (hmp : mp = (5 * doy + 2) / 153) (h0 : 0 ≤ doy) (h1 : doy ≤ 365)
    (hleap : doy = 365 → IsLeap (y + 1)) :
    ∃ date : Date, date.year = y + (if (date.month : ℤ) ≤ 2 then 1 else 0) ∧
      (date.month : ℤ) = (if mp < 10 then mp + 3 else mp - 9) ∧
      date.day = doy - (153 * mp + 2) / 5 + 1 ∧
      date.dayNumber = 365 * y + leaps y - 719468 + doy := by
  have hr : 0 ≤ mp ∧ mp ≤ 11 := by omega
  by_cases hm : mp < 10
  · obtain ⟨n, hn⟩ := eq_ofNat_of_zero_le (show 0 ≤ mp + 3 by omega)
    have hlen : monthLength y n = (153 * (mp + 1) + 2) / 5 - (153 * mp + 2) / 5 := by
      have h := monthStart_succ y (show 1 ≤ n by omega)
      rw [monthStart_eq y (m := n) (by omega) (by omega),
        monthStart_eq y (m := n + 1) (by omega) (by omega), if_neg (show ¬ n + 1 ≤ 2 by omega),
        if_neg (show ¬ n ≤ 2 by omega)] at h
      rw [Nat.cast_succ, ← hn, show mp + 3 + 1 - 3 = mp + 1 by omega, Int.add_sub_cancel] at h
      by_cases hl : IsLeap y
      · rw [if_pos hl] at h
        omega
      · rw [if_neg hl] at h
        omega
    refine ⟨⟨y, n, doy - (153 * mp + 2) / 5 + 1, by omega, by omega, by omega, by omega⟩, ?_⟩
    dsimp only [Date.dayNumber, Date.yearDay]
    rw [yearStart_eq, monthStart_eq y (by omega) (by omega), if_neg (show ¬ n ≤ 2 by omega),
      if_neg (show ¬ (n : ℤ) ≤ 2 by omega), if_pos hm, ← hn]
    refine ⟨by omega, rfl, rfl, ?_⟩
    rw [leaps_sub_one, Int.add_sub_cancel]
    split_ifs <;> omega
  · obtain ⟨n, hn⟩ := eq_ofNat_of_zero_le (show 0 ≤ mp - 9 by omega)
    have hday : doy - (153 * mp + 2) / 5 + 1 ≤ monthLength (y + 1) n := by
      unfold monthLength
      by_cases h : n = 2
      · rw [if_pos h]
        by_cases hl : IsLeap (y + 1)
        · rw [if_pos hl]
          omega
        · have := mt hleap hl
          rw [if_neg hl]
          omega
      · rw [if_neg h, if_neg (by omega)]
        omega
    refine ⟨⟨y + 1, n, doy - (153 * mp + 2) / 5 + 1, by omega, by omega, by omega, hday⟩, ?_⟩
    dsimp only [Date.dayNumber, Date.yearDay]
    rw [yearStart_eq, monthStart_eq _ (by omega) (by omega), if_pos (show n ≤ 2 by omega),
      if_pos (show (n : ℤ) ≤ 2 by omega), if_neg hm, ← hn, Int.add_sub_cancel]
    refine ⟨rfl, rfl, rfl, ?_⟩
    omega

theorem civilFromDays_run {days era yoe : ℤ} (hera : -2 ^ 40 ≤ era ∧ era ≤ 2 ^ 40)
    (hz : days + 719468 = era * 146097 + doe) (hdoe : 0 ≤ doe ∧ doe < 146097)
    (hyoe : uint (doe - doe / 1460 + doe / 36524 - doe / 146096) / 365 = yoe)
    (hy : 0 ≤ yoe ∧ yoe ≤ 399) (hdoy : doy = doe - (365 * yoe + yoe / 4 - yoe / 100))
    (h0 : 0 ≤ doy ∧ doy ≤ 365) {mp m d : ℤ} (hmp : mp = (5 * doy + 2) / 153)
    (hm : m = if mp < 10 then mp + 3 else mp - 9) (hd : d = doy - (153 * mp + 2) / 5 + 1) :
    civilFromDays days = some (yoe + era * 400 + (if m ≤ 2 then 1 else 0), m, d) := by
  have hdiv : (if 0 ≤ era * 146097 + doe then era * 146097 + doe
      else era * 146097 + doe - 146096).tdiv 146097 = era :=
    (tdiv_floor _ (b := 146097) (by decide)).trans (by omega)
  have hdoe' : uint (era * 146097 + doe - era * 146097) = doe := by rw [uint_eq (by omega)]; omega
  have hdoy' : uint (doe - uint (365 * yoe + yoe / 4 - yoe / 100)) = doy := by
    rw [uint_eq (x := 365 * yoe + yoe / 4 - yoe / 100) (by omega), uint_eq (by omega), hdoy]
  have hmp' : uint (5 * doy + 2) / 153 = mp := by rw [uint_eq (by omega), hmp]
  have hr : 0 ≤ mp ∧ mp ≤ 11 := by omega
  have hd' : uint (doy - uint (153 * mp + 2) / 5 + 1) = d := by
    rw [uint_eq (x := 153 * mp + 2) (by omega), uint_eq (by omega), hd]
  have hm' : uint (if mp < 10 then mp + 3 else mp - 9) = m := by
    rw [← hm, uint_eq]
    rw [hm]
    split_ifs <;> omega
  clear hmp hd hm hdoy
  unfold civilFromDays
  rw [hz, llong_bind (by omega), choose_bind (fun _ => rfl) (fun _ => llong_eq (by omega))]
  simp only [hdiv]
  rw [llong_bind (by omega), llong_bind (by omega), llong_bind (by omega)]
  simp only [hdoe', hyoe]
  rw [llong_bind (by omega)]
  simp only [hdoy', hmp', hd', hm']
  rw [llong_bind (by split_ifs <;> omega)]
  rfl

theorem civilFromDays_eq (days : ℤ) (h : -2 ^ 50 ≤ days ∧ days ≤ 2 ^ 50) :
    ∃ date : Date, civilFromDays days = some (date.year, (date.month : ℤ), date.day) ∧
      date.dayNumber = days := by
  obtain ⟨era, hera⟩ : ∃ era, era = (days + 719468) / 146097 := ⟨_, rfl⟩
  obtain ⟨doe, hdoe⟩ : ∃ doe, doe = (days + 719468) % 146097 := ⟨_, rfl⟩
  have hz : days + 719468 = era * 146097 + doe := by omega
  have hr : 0 ≤ doe ∧ doe < 146097 := by omega
  have her : -2 ^ 40 ≤ era ∧ era ≤ 2 ^ 40 := by omega
  clear hera hdoe
  obtain ⟨yoe, hy⟩ : ∃ yoe, yoe = (doe - doe / 1460 + doe / 36524 - doe / 146096) / 365 := ⟨_, rfl⟩
  obtain ⟨doy, hdoy'⟩ : ∃ doy, doy = doe - (365 * yoe + yoe / 4 - yoe / 100) := ⟨_, rfl⟩
  obtain ⟨c, q, r, hcqr, hc, hq, hr4, hdoy, hlast⟩ := year_of_era hr.1 hr.2 hy hdoy'
  have hyoe : uint (doe - doe / 1460 + doe / 36524 - doe / 146096) / 365 = yoe := by
    rw [uint_eq (by omega), hy]
  clear hy
  have hdoy365 : doy ≤ 365 := by
    rcases hlast with h | ⟨h, -⟩ <;> omega
  obtain ⟨date, hyear, hmonth, hday, hnum⟩ :=
    exists_date (y := yoe + era * 400) rfl hdoy hdoy365 (by
    intro h
    rw [hcqr]
    exact (hlast.resolve_left (by omega)).isLeap hq.1 era)
  refine ⟨date, ?_, ?_⟩
  · rw [civilFromDays_run her hz hr hyoe (by omega) hdoy' ⟨hdoy, hdoy365⟩ rfl hmonth hday, hyear]
  · have hdiv : (yoe + era * 400) / 400 = era := by omega
    have hmod : (yoe + era * 400) % 400 = yoe := by omega
    rw [hnum, leaps_eq, hdiv, hmod]
    omega

/-! ## Times -/

/-- The broken-down time at second `s` of a date. -/
def breakDown (date : Date) (s : ℤ) : Fields where
  sec := s % 60
  min := s / 60 % 60
  hour := s / 3600
  mday := date.day
  mon := date.month - 1
  year := date.year - 1900
  wday := (date.dayNumber + 4) % 7
  yday := date.yearDay

def YearFits (date : Date) : Prop := INT_MIN ≤ date.year - 1900 ∧ date.year - 1900 ≤ INT_MAX

instance (date : Date) : Decidable (YearFits date) := inferInstanceAs (Decidable (_ ∧ _))

theorem year_bound (h : -2 ^ 47 ≤ date.dayNumber ∧ date.dayNumber ≤ 2 ^ 47) :
    -2 ^ 40 ≤ date.year ∧ date.year ≤ 2 ^ 40 := by
  have h0 := date.yearDay_nonneg
  have h1 := date.yearDay_le
  have h2 := leaps_bounds (date.year - 1)
  unfold Date.dayNumber at h
  rw [yearStart_eq] at h
  omega

theorem fillFields_eq {s : ℤ} (hs : 0 ≤ s ∧ s < 86400)
    (hy : -2 ^ 40 ≤ date.year ∧ date.year ≤ 2 ^ 40) :
    fillFields date.year date.month date.day date.dayNumber s =
      some (if YearFits date then .ok (breakDown date s) else .error .EOVERFLOW) := by
  have hfits : (date.year - 1900 > INT_MAX ∨ date.year - 1900 < INT_MIN) ↔ ¬ YearFits date := by
    unfold YearFits
    omega
  unfold fillFields
  rw [llong_bind (by omega)]
  by_cases hyear : YearFits date
  · have hyday : date.dayNumber - yearStart date.year = date.yearDay := by
      unfold Date.dayNumber
      omega
    have hmod7 : -7 < date.dayNumber.tmod 7 ∧ date.dayNumber.tmod 7 < 7 := by
      rw [tmod_eq]
      split_ifs <;> omega
    have hwday : (date.dayNumber.tmod 7 + 11).tmod 7 = (date.dayNumber + 4) % 7 := by
      rw [tmod_eq, tmod_eq]
      split_ifs <;> omega
    have h1 := date.day_pos
    have h31 := date.day_le_31
    have h2 := date.month_pos
    have h3 := date.month_le
    have h4 := date.yearDay_nonneg
    have h5 := date.yearDay_le
    rw [if_neg (by rw [hfits]; exact not_not_intro hyear), if_pos hyear,
      daysFromCivil_jan1 (by omega), some_bind]
    unfold YearFits INT_MIN INT_MAX at hyear
    rw [cint_bind (by omega), cint_bind (by omega), cint_bind (by omega), cint_bind (by omega),
      hyday, llong_bind (by omega), cint_bind (by omega), llong_bind (by omega), hwday,
      cint_bind (by omega),
      tdiv_eq_ediv_of_nonneg hs.1, tdiv_eq_ediv_of_nonneg hs.1,
      tmod_eq_emod_of_nonneg hs.1, tmod_eq_emod_of_nonneg (by omega), cint_bind (by omega),
      cint_bind (by omega), cint_bind (by omega)]
    rfl
  · rw [if_pos (hfits.mpr hyear), if_neg hyear]
    rfl

theorem secsToTm_eq {t : ℤ} (ht : -2 ^ 63 ≤ t ∧ t < 2 ^ 63) :
    ∃ date : Date, date.dayNumber = t / 86400 ∧ secsToTm t =
      some (if YearFits date then .ok (breakDown date (t % 86400)) else .error .EOVERFLOW) := by
  have hrem : (if t.tmod 86400 < 0 then t.tmod 86400 + 86400 else t.tmod 86400) = t % 86400 := by
    rw [tmod_eq]
    split_ifs <;> omega
  have hdays : (if t.tmod 86400 < 0 then t.tdiv 86400 - 1 else t.tdiv 86400) = t / 86400 := by
    rw [tmod_eq, tdiv_eq]
    split_ifs <;> omega
  have hmod : -86400 < t.tmod 86400 ∧ t.tmod 86400 < 86400 := by
    rw [tmod_eq]
    split_ifs <;> omega
  have hdiv : -2 ^ 62 ≤ t.tdiv 86400 ∧ t.tdiv 86400 ≤ 2 ^ 62 := by
    rw [tdiv_eq]
    split_ifs <;> omega
  obtain ⟨date, hciv, hnum⟩ := civilFromDays_eq (t / 86400) (by omega)
  refine ⟨date, hnum, ?_⟩
  unfold secsToTm
  rw [choose_bind (fun _ => llong_eq (by omega)) (fun _ => rfl),
    choose_bind (fun _ => llong_eq (by omega)) (fun _ => rfl)]
  simp only [hrem, hdays, hciv, some_bind]
  rw [← hnum]
  exact fillFields_eq (by omega) (year_bound (by omega))

/-- The six fields that `timegm` reads hold values of type `int`. -/
def IntFields (f : Fields) : Prop :=
  ∀ x ∈ [f.sec, f.min, f.hour, f.mday, f.mon, f.year], INT_MIN ≤ x ∧ x ≤ INT_MAX

instance (f : Fields) : Decidable (IntFields f) := inferInstanceAs (Decidable (∀ _ ∈ _, _))

/-- The year and the month, counted from 1, with whole years of months carried into the year. -/
def carried (f : Fields) : ℤ × ℕ := (f.year + 1900 + f.mon / 12, (f.mon % 12).toNat + 1)

/-- The seconds that the fields stand for: the first day of the month, and from it so many days,
hours, minutes and seconds. -/
def linearSecs (f : Fields) : ℤ :=
  (yearStart (carried f).1 + monthStart (carried f).1 (carried f).2 + (f.mday - 1)) * 86400 +
    f.hour * 3600 + f.min * 60 + f.sec

theorem IntFields.carried_bounds {f : Fields} (h : IntFields f) :
    (-2 ^ 33 ≤ (carried f).1 ∧ (carried f).1 ≤ 2 ^ 33) ∧ 1 ≤ (carried f).2 ∧
      (carried f).2 ≤ 12 := by
  have hy := h f.year (by simp)
  have hm := h f.mon (by simp)
  unfold INT_MIN INT_MAX at hy hm
  unfold carried
  omega

theorem IntFields.days_bounds {f : Fields} (h : IntFields f) :
    -2 ^ 43 ≤ yearStart (carried f).1 + monthStart (carried f).1 (carried f).2 ∧
      yearStart (carried f).1 + monthStart (carried f).1 (carried f).2 ≤ 2 ^ 43 := by
  obtain ⟨hy, h1, h12⟩ := h.carried_bounds
  have hb := leaps_bounds ((carried f).1 - 1)
  have h0 := monthStart_mono (carried f).1 h1
  have h13 := monthStart_mono (carried f).1 (show (carried f).2 ≤ 13 by omega)
  rw [show monthStart (carried f).1 1 = 0 from rfl] at h0
  rw [monthStart_thirteen, yearLength] at h13
  rw [yearStart_eq]
  split_ifs at h13 <;> omega

/-- **The seconds of any fields**: no operation of `tm_to_secs` overflows. -/
theorem tmToSecs_linear {tm : Tm} (h : IntFields tm.toFields) :
    tmToSecs tm = some (some (linearSecs tm.toFields)) := by
  obtain ⟨hy, h1, h12⟩ := h.carried_bounds
  obtain ⟨y, m, hc⟩ : ∃ y m, carried tm.toFields = (y, m) := ⟨_, _, rfl⟩
  have hy' : tm.year + 1900 + tm.mon / 12 = y := congrArg fst hc
  have hm' : (tm.mon % 12).toNat + 1 = m := congrArg snd hc
  have hfield := h
  simp only [IntFields, INT_MIN, INT_MAX, List.forall_mem_cons] at hfield
  obtain ⟨hsec, hmin, hhour, hmday, hmon, hyear, -⟩ := hfield
  have hdiv : tm.mon.tdiv 12 = if tm.mon.tmod 12 < 0 then tm.mon / 12 + 1 else tm.mon / 12 := by
    rw [tdiv_eq, tmod_eq]
    split_ifs <;> omega
  have hmod : (if tm.mon.tmod 12 < 0 then tm.mon.tmod 12 + 12 else tm.mon.tmod 12) = m - 1 := by
    rw [tmod_eq]
    split_ifs <;> omega
  have hrange : -12 < tm.mon.tmod 12 ∧ tm.mon.tmod 12 < 12 := by
    rw [tmod_eq]
    split_ifs <;> omega
  have hcarry : (if tm.mon.tmod 12 < 0 then tm.year + 1900 + tm.mon.tdiv 12 - 1
      else tm.year + 1900 + tm.mon.tdiv 12) = y := by
    rw [hdiv]
    split_ifs <;> omega
  have hmonth : uint ((m : ℤ) - 1 + 1) = m := by rw [sub_add_cancel, uint_eq (by omega)]
  have hdays := h.days_bounds
  simp only [hc] at hy h1 h12 hdays
  unfold tmToSecs
  rw [llong_bind (by omega), llong_bind (by rw [hdiv]; split_ifs <;> omega),
    choose_bind (fun _ => llong_eq (by omega)) (fun _ => rfl), hmod,
    choose_bind (fun _ => llong_eq (by rw [hdiv]; split_ifs; omega)) (fun _ => rfl), hcarry,
    if_neg (by omega), hmonth, daysFromCivil_eq (by omega) h1 h12 (by decide), some_bind,
    Int.add_sub_cancel, llong_bind (by omega), llong_bind (by omega), llong_bind (by omega),
    llong_bind (by omega), llong_bind (by omega), llong_bind (by omega), llong_bind (by omega),
    llong_bind (by omega)]
  simp only [linearSecs, hc]
  refine congrArg (fun x => some (some x)) ?_
  omega

theorem linearSecs_breakDown (date : Date) (s : ℤ) :
    linearSecs (breakDown date s) = date.dayNumber * 86400 + s := by
  have h1 := date.month_pos
  have h2 := date.month_le
  have hc : carried (breakDown date s) = (date.year, date.month) := by
    simp only [carried, breakDown, mk.injEq]
    omega
  rw [linearSecs, hc]
  simp only [breakDown, Date.dayNumber, Date.yearDay]
  omega

theorem intFields_breakDown {s : ℤ} (hs : 0 ≤ s ∧ s < 86400) (hy : YearFits date) :
    IntFields (breakDown date s) := by
  have h1 := date.month_pos
  have h2 := date.month_le
  have h3 := date.day_pos
  have h4 := date.day_le_31
  unfold YearFits at hy
  simp only [IntFields, breakDown, INT_MIN, INT_MAX, List.forall_mem_cons] at hy ⊢
  refine ⟨by omega, by omega, by omega, by omega, by omega, hy, by simp⟩

theorem tmToSecs_eq {tm : Tm} {s : ℤ} (hs : 0 ≤ s ∧ s < 86400) (hy : YearFits date)
    (h : tm.toFields = breakDown date s) :
    tmToSecs tm = some (some (date.dayNumber * 86400 + s)) := by
  rw [tmToSecs_linear (h ▸ intFields_breakDown hs hy), h, linearSecs_breakDown]

theorem gmtimeR_eq {t : ℤ} (ht : -2 ^ 63 ≤ t ∧ t < 2 ^ 63) :
    ∃ date : Date, date.dayNumber = t / 86400 ∧ gmtimeR t =
      some (if YearFits date then
        .ok { breakDown date (t % 86400) with isdst := 0, gmtoff := 0, zone := [71, 77, 84] }
        else .error .EOVERFLOW) := by
  obtain ⟨date, hnum, hsecs⟩ := secsToTm_eq ht
  refine ⟨date, hnum, ?_⟩
  unfold gmtimeR
  rw [hsecs, some_bind]
  by_cases hy : YearFits date
  · rw [if_pos hy, if_pos hy]
    rfl
  · rw [if_neg hy, if_neg hy]
    rfl

/-- **UTC conversion.** Every time has one date. If its year fits, `gmtime_r` gives the date, the
time of the day, the day of the week and the day of the year, and `timegm` gives the time back with
the same struct; otherwise it fails. Every date whose year fits is reached, at every second of the
day. No operation overflows. -/
theorem gmtime_timegm :
    (∀ t : ℤ, -2 ^ 63 ≤ t ∧ t < 2 ^ 63 →
      ∃ date : Date, date.dayNumber = t / 86400 ∧
        (∀ date' : Date, date'.dayNumber = t / 86400 → date' = date) ∧
        (INT_MIN ≤ date.year - 1900 ∧ date.year - 1900 ≤ INT_MAX → ∃ tm : Tm,
          gmtimeR t = some (.ok tm) ∧
          tm.year = date.year - 1900 ∧ tm.mon = date.month - 1 ∧ tm.mday = date.day ∧
          tm.yday = t / 86400 - yearStart date.year ∧
          (0 ≤ tm.yday ∧ tm.yday < yearLength date.year) ∧
          tm.wday = (t / 86400 + 4) % 7 ∧
          tm.hour * 3600 + tm.min * 60 + tm.sec = t % 86400 ∧
          (0 ≤ tm.hour ∧ tm.hour < 24) ∧ (0 ≤ tm.min ∧ tm.min < 60) ∧ (0 ≤ tm.sec ∧ tm.sec < 60) ∧
          timegm tm = some (.ok (t, tm))) ∧
        (¬ (INT_MIN ≤ date.year - 1900 ∧ date.year - 1900 ≤ INT_MAX) →
          gmtimeR t = some (.error .EOVERFLOW))) ∧
    ∀ (date : Date) (s : ℤ), INT_MIN ≤ date.year - 1900 ∧ date.year - 1900 ≤ INT_MAX →
      0 ≤ s ∧ s < 86400 → ∃ t : ℤ, (-2 ^ 63 ≤ t ∧ t < 2 ^ 63) ∧ t / 86400 = date.dayNumber ∧
        t % 86400 = s := by
  constructor
  · intro t ht
    obtain ⟨date, hnum, hgm⟩ := gmtimeR_eq ht
    refine ⟨date, hnum, fun date' h => Date.dayNumber_injective (h.trans hnum.symm), ?_, ?_⟩
    · intro hy
      rw [if_pos (show YearFits date from hy)] at hgm
      have hs : 0 ≤ t % 86400 ∧ t % 86400 < 86400 := by omega
      refine ⟨_, hgm, rfl, rfl, rfl, ?_, ⟨date.yearDay_nonneg, date.yearDay_lt⟩, ?_, ?_, ?_, ?_,
        ?_, ?_⟩
      · rw [← hnum]
        simp only [breakDown, Date.dayNumber]
        omega
      · rw [← hnum]
        rfl
      · simp only [breakDown]
        omega
      · simp only [breakDown]
        omega
      · simp only [breakDown]
        omega
      · simp only [breakDown]
        omega
      · unfold timegm
        rw [tmToSecs_eq hs hy rfl, some_bind]
        have ht' : date.dayNumber * 86400 + t % 86400 = t := by omega
        simp only [ht', hgm]
        rfl
    · intro hy
      rw [hgm, if_neg (show ¬ YearFits date from hy)]
  · intro date s hy hs
    have h0 := date.yearDay_nonneg
    have h1 := date.yearDay_le
    have h2 := leaps_bounds (date.year - 1)
    have hnum : date.dayNumber = yearStart date.year + date.yearDay := rfl
    rw [yearStart_eq] at hnum
    unfold INT_MIN INT_MAX at hy
    exact ⟨date.dayNumber * 86400 + s, by omega, by omega, by omega⟩

/-- The leap day of the year 2000, and a second before the year 1970. -/
theorem gmtime_timegm_leap_day :
    (∃ tm : Tm, gmtimeR 951782400 = some (.ok tm) ∧ tm.year = 100 ∧ tm.mon = 1 ∧ tm.mday = 29 ∧
      timegm tm = some (.ok (951782400, tm))) ∧
    ∃ tm : Tm, gmtimeR (-1) = some (.ok tm) ∧ tm.year = 69 ∧ tm.mon = 11 ∧ tm.mday = 31 ∧
      timegm tm = some (.ok (-1, tm)) := by
  constructor
  · obtain ⟨date, -, huniq, h, -⟩ := gmtime_timegm.1 951782400 (by decide)
    obtain rfl := huniq ⟨2000, 2, 29, by decide, by decide, by decide, by decide⟩
      (by rw [Date.dayNumber, yearStart_eq]; decide)
    obtain ⟨tm, hgm, hy, hm, hd, -, -, -, -, -, -, -, hback⟩ := h (by decide)
    exact ⟨tm, hgm, hy, hm, hd, hback⟩
  · obtain ⟨date, -, huniq, h, -⟩ := gmtime_timegm.1 (-1) (by decide)
    obtain rfl := huniq ⟨1969, 12, 31, by decide, by decide, by decide, by decide⟩
      (by rw [Date.dayNumber, yearStart_eq]; decide)
    obtain ⟨tm, hgm, hy, hm, hd, -, -, -, -, -, -, -, hback⟩ := h (by decide)
    exact ⟨tm, hgm, hy, hm, hd, hback⟩

end Citadel.Time
