import Citadel.Time.Gmtime
import Citadel.Time.Zone

/-!
# POSIX rules

What `parse_posix` accepts is within bounds (`parsePosix_ok`), and at a time that is not close to
the ends of its type `rule_lookup` does not overflow: it gives one of the two types of the rule
(`ruleLookup_eq`).
-/

namespace Citadel.Time

open Citadel.Lib.CInt Citadel.Lib.Calendar Option

/-! ## The bounds of a rule -/

/-- The bounds of a date: `parse_date` checks them. -/
structure RuleDate.Ok (d : RuleDate) : Prop where
  n : 0 ≤ d.n ∧ d.n ≤ 365
  m : d.kind = .M → 1 ≤ d.m ∧ d.m ≤ 12
  w : d.kind = .M → 1 ≤ d.w ∧ d.w ≤ 5
  secs : -604799 ≤ d.secs ∧ d.secs ≤ 604799
  d : d.kind = .M → 0 ≤ d.d ∧ d.d ≤ 6

/-- The bounds of a rule: offsets of at most a day, or 25 hours for DST by default. -/
structure PosixRule.Ok (r : PosixRule) : Prop where
  stdOff : -86400 ≤ r.stdOff ∧ r.stdOff ≤ 86400
  dstOff : -86400 ≤ r.dstOff ∧ r.dstOff ≤ 90000
  start : r.hasDst → r.start.Ok
  stop : r.hasDst → r.stop.Ok

variable {n v days y : ℤ} {s s' : List UInt8} {d : RuleDate} {r : PosixRule} {fuel : ℕ}

theorem digitLoop_nonneg (lim : ℤ) (s : List UInt8) (hn : 0 ≤ n) : 0 ≤ (digitLoop lim n s).1 := by
  fun_induction digitLoop lim n s with
  | case1 | case3 => exact hn
  | case2 n c s h ih =>
    have hc : 48 ≤ c.toNat := by
      have h1 := h.1
      rw [isDigit, Bool.and_eq_true, decide_eq_true_eq] at h1
      exact UInt8.le_iff_toNat_le.mp h1.1
    exact ih (by omega)

theorem parsePart_nonneg (h : parsePart s = some (n, s')) : 0 ≤ n := by
  unfold parsePart at h
  split_ifs at h with hd
  have := digitLoop_nonneg 100 s le_rfl
  rwa [some.inj h] at this

theorem parseMinSec_nonneg {m sec : ℤ} (h : parseMinSec s = some (m, sec, s')) :
    0 ≤ m ∧ 0 ≤ sec := by
  unfold parseMinSec at h
  split_ifs at h with h1
  · obtain ⟨⟨m', t⟩, hm, h⟩ := bind_eq_some_iff.mp h
    have hm0 := parsePart_nonneg hm
    dsimp only at h
    split_ifs at h with h2
    · obtain ⟨⟨sec', t'⟩, hs, h⟩ := bind_eq_some_iff.mp h
      cases h
      exact ⟨hm0, parsePart_nonneg hs⟩
    · cases h
      exact ⟨hm0, le_rfl⟩
  · cases h
    exact ⟨le_rfl, le_rfl⟩

theorem parseHms_bound (h : parseHms s = some (v, s')) : -604799 ≤ v ∧ v ≤ 604799 := by
  unfold parseHms at h
  dsimp only at h
  generalize (if s.headD 0 = 43 ∨ s.headD 0 = 45 then s.tail else s) = u at h
  by_cases hd : isDigit (u.headD 0) = true
  · rw [if_neg (not_not_intro hd)] at h
    have hh := digitLoop_nonneg 1000 u le_rfl
    obtain ⟨⟨m, sec, t⟩, hms, h⟩ := bind_eq_some_iff.mp h
    obtain ⟨hm, hsec⟩ := parseMinSec_nonneg hms
    dsimp only at h
    split_ifs at h with h1 h2
    · cases h
      omega
    · cases h
      omega
  · rw [if_pos hd] at h
    cases h

theorem parseOffset_bound (h : parseOffset s = some (v, s')) : -86400 ≤ v ∧ v ≤ 86400 := by
  obtain ⟨⟨off, t⟩, -, h⟩ := bind_eq_some_iff.mp h
  dsimp only at h
  split_ifs at h with h1
  cases h
  omega

theorem parseNum_bound {lo hi : ℤ} (h : parseNum lo hi s = some (n, s')) : lo ≤ n ∧ n ≤ hi := by
  unfold parseNum at h
  dsimp only at h
  split_ifs at h with h1 h2
  cases h
  omega

theorem parseDay_ok (h : parseDay s = some (d, s')) : d.Ok := by
  unfold parseDay at h
  split_ifs at h with h1 h2
  · obtain ⟨⟨n, t⟩, hn, h⟩ := bind_eq_some_iff.mp h
    have := parseNum_bound hn
    cases h
    exact ⟨by dsimp only; omega, nofun, nofun, by dsimp only; decide, nofun⟩
  · obtain ⟨⟨m, t⟩, hm, h⟩ := bind_eq_some_iff.mp h
    dsimp only at h
    split_ifs at h with h3
    obtain ⟨⟨w, t'⟩, hw, h⟩ := bind_eq_some_iff.mp h
    dsimp only at h
    split_ifs at h with h4
    obtain ⟨⟨d', t''⟩, hd, h⟩ := bind_eq_some_iff.mp h
    cases h
    exact ⟨by dsimp only; decide, fun _ => parseNum_bound hm, fun _ => parseNum_bound hw,
      by dsimp only; decide, fun _ => parseNum_bound hd⟩
  · obtain ⟨⟨n, t⟩, hn, h⟩ := bind_eq_some_iff.mp h
    have := parseNum_bound hn
    cases h
    exact ⟨by dsimp only; omega, nofun, nofun, by dsimp only; decide, nofun⟩

theorem parseDate_ok (h : parseDate s = some (d, s')) : d.Ok := by
  obtain ⟨⟨d', t⟩, hday, h⟩ := bind_eq_some_iff.mp h
  have hok := parseDay_ok hday
  dsimp only at h
  split_ifs at h with h1
  · obtain ⟨⟨secs, t'⟩, hsecs, h⟩ := bind_eq_some_iff.mp h
    cases h
    exact ⟨hok.n, hok.m, hok.w, parseHms_bound hsecs, hok.d⟩
  · cases h
    exact hok

theorem parseDates_ok {start stop : RuleDate}
    (h : parseDates s = some (start, stop, s')) : start.Ok ∧ stop.Ok := by
  unfold parseDates at h
  split_ifs at h with h1
  · obtain ⟨⟨d, t⟩, hd, h⟩ := bind_eq_some_iff.mp h
    dsimp only at h
    split_ifs at h with h2
    obtain ⟨⟨d', t'⟩, hd', h⟩ := bind_eq_some_iff.mp h
    cases h
    exact ⟨parseDate_ok hd, parseDate_ok hd'⟩
  · cases h
    exact ⟨⟨by decide, by decide, by decide, by decide, by decide⟩,
      ⟨by decide, by decide, by decide, by decide, by decide⟩⟩

theorem parseDstOffset_bound {off : ℤ} (hoff : -86400 ≤ off ∧ off ≤ 86400)
    (h : parseDstOffset off s = some (v, s')) : -86400 ≤ v ∧ v ≤ 90000 := by
  unfold parseDstOffset at h
  split_ifs at h with h1
  · obtain ⟨⟨o, t⟩, ho, h⟩ := bind_eq_some_iff.mp h
    have := parseOffset_bound ho
    cases h
    omega
  · cases h
    omega

theorem parsePosix_ok (h : parsePosix s = some r) : r.Ok := by
  obtain ⟨⟨std, t⟩, -, h⟩ := bind_eq_some_iff.mp h
  obtain ⟨⟨off, t'⟩, hoff, h⟩ := bind_eq_some_iff.mp h
  have hstd := parseOffset_bound hoff
  dsimp only at h
  split_ifs at h with h1
  · cases h
    exact ⟨by dsimp only; omega, by dsimp only; decide, nofun, nofun⟩
  · obtain ⟨⟨dst, u⟩, -, h⟩ := bind_eq_some_iff.mp h
    obtain ⟨⟨dstOff, u'⟩, hdst, h⟩ := bind_eq_some_iff.mp h
    obtain ⟨⟨start, stop, u''⟩, hdates, h⟩ := bind_eq_some_iff.mp h
    obtain ⟨hstart, hstop⟩ := parseDates_ok hdates
    dsimp only at h
    split_ifs at h with h2
    cases h
    exact ⟨by dsimp only; omega, parseDstOffset_bound (by omega) hdst, fun _ => hstart,
      fun _ => hstop⟩

/-! ## Years -/

/-- The first estimate of the year is off by one at most. -/
theorem yearStart_estimate (h : y = 1970 + days * 400 / 146097) :
    yearStart (y - 1) ≤ days ∧ days < yearStart (y + 2) := by
  have h1 := leaps_bounds (y - 1 - 1)
  have h2 := leaps_bounds (y + 2 - 1)
  rw [yearStart_eq, yearStart_eq]
  omega

theorem yearUp_eq (hy : -2 ^ 40 ≤ y ∧ y ≤ 2 ^ 40) (h : days < yearStart (y + 2)) :
    yearUp days (fuel + 2) y = some (if yearStart (y + 1) ≤ days then y + 1 else y) := by
  rw [yearUp, llong_bind (by omega), daysFromCivil_jan1 (by omega), some_bind]
  by_cases h1 : yearStart (y + 1) ≤ days
  · rw [if_pos h1, if_pos h1, yearUp, llong_bind (by omega), daysFromCivil_jan1 (by omega),
      some_bind, if_neg (by rw [Int.add_assoc]; exact Int.not_le.mpr h)]
    rfl
  · rw [if_neg h1, if_neg h1]
    rfl

theorem yearDown_eq (hy : -2 ^ 40 ≤ y ∧ y ≤ 2 ^ 40) (h : yearStart (y - 1) ≤ days) :
    yearDown days (fuel + 2) y = some (if yearStart y > days then y - 1 else y) := by
  rw [yearDown, daysFromCivil_jan1 (by omega), some_bind]
  by_cases h1 : yearStart y > days
  · rw [if_pos h1, if_pos h1, llong_bind (by omega), yearDown, daysFromCivil_jan1 (by omega),
      some_bind, if_neg (by omega)]
    rfl
  · rw [if_neg h1, if_neg h1]
    rfl

theorem ruleYear_eq (days : ℤ) (h : -2 ^ 47 ≤ days ∧ days ≤ 2 ^ 47) :
    ∃ y, ruleYear days = some y ∧ yearStart y ≤ days ∧ days < yearStart (y + 1) ∧
      -2 ^ 40 ≤ y ∧ y ≤ 2 ^ 40 := by
  have hq :
      (if 0 ≤ days then days * 400 else days * 400 - 146096).tdiv 146097 = days * 400 / 146097 := by
    have := tdiv_floor (days * 400) (b := 146097) (by decide)
    by_cases hd : 0 ≤ days
    · rw [if_pos (by omega)] at this
      rw [if_pos hd, this]
    · rw [if_neg (by omega)] at this
      rw [if_neg hd]
      exact this
  obtain ⟨y, hy⟩ : ∃ y, y = 1970 + days * 400 / 146097 := ⟨_, rfl⟩
  obtain ⟨hlo, hhi⟩ := yearStart_estimate hy
  have hyr : -2 ^ 39 ≤ y ∧ y ≤ 2 ^ 39 := by omega
  unfold ruleYear
  rw [llong_bind (by omega), choose_bind (fun _ => rfl) (fun _ => llong_eq (by omega)), hq,
    llong_bind (by omega), ← hy, yearUp_eq (by omega) hhi, some_bind]
  by_cases h1 : yearStart (y + 1) ≤ days
  · refine ⟨y + 1, ?_, h1, by rwa [Int.add_assoc], by omega, by omega⟩
    have := yearStart_lt (show y < y + 1 by omega)
    have := yearLength_pos y
    rw [if_pos h1, yearDown_eq (by omega) (by rw [Int.add_sub_cancel]; omega), if_neg (by omega)]
  · rw [if_neg h1, yearDown_eq (by omega) hlo]
    by_cases h2 : yearStart y > days
    · refine ⟨y - 1, ?_, hlo, by rwa [Int.sub_add_cancel], by omega, by omega⟩
      rw [if_pos h2]
    · refine ⟨y, ?_, by omega, by omega, by omega, by omega⟩
      rw [if_neg h2]

/-! ## Dates -/

/-- One step back is enough, as no month is shorter than four weeks. -/
theorem weekLoop_eq {len mday : ℤ} (hlen : 28 ≤ len) (h : 1 ≤ mday ∧ mday ≤ 35) :
    weekLoop len (fuel + 2) mday = some (if mday > len then mday - 7 else mday) := by
  rw [weekLoop]
  by_cases h1 : mday > len
  · rw [if_pos h1, if_pos h1, cint_bind (by omega), weekLoop, if_neg (by omega)]
  · rw [if_neg h1, if_neg h1]

theorem mlen_eq (y : ℤ) {m : ℕ} (h1 : 1 ≤ m) (h12 : m ≤ 12) :
    mlen.getD ((m : ℤ) - 1).toNat 0 + (if (m : ℤ) = 2 ∧ isLeap y then 1 else 0) =
      monthLength y m := by
  simp only [isLeap_iff]
  by_cases hy : IsLeap y
  · interval_cases m <;> simp [mlen, monthLength, hy]
  · interval_cases m <;> simp [mlen, monthLength, hy]

theorem monthLength_bounds (y : ℤ) (m : ℕ) : 28 ≤ monthLength y m ∧ monthLength y m ≤ 31 := by
  unfold monthLength
  split_ifs <;> omega

theorem monthStart_bounds (y : ℤ) {m : ℕ} (h1 : 1 ≤ m) (h12 : m ≤ 12) :
    0 ≤ monthStart y m ∧ monthStart y m ≤ 335 := by
  rw [monthStart_eq y h1 (by omega)]
  split_ifs <;> omega

/-- The day of the week, from Sunday as 0. -/
def weekday (days : ℤ) : ℤ := (days + 4) % 7

/-- The date is `k` days after the first of January of the year `y`. A Julian day does not count
the 29th of February; week 5 of a month is the last one with that day of the week. -/
def RuleDate.OnDay (d : RuleDate) (y k : ℤ) : Prop :=
  match d.kind with
  | .J => k = d.n - 1 + if IsLeap y ∧ d.n ≥ 60 then 1 else 0
  | .D => k = d.n
  | .M => ∃ mday : ℤ, 1 ≤ mday ∧ mday ≤ monthLength y d.m.toNat ∧
      k = monthStart y d.m.toNat + mday - 1 ∧ weekday (yearStart y + k) = d.d ∧
      if d.w = 5 then monthLength y d.m.toNat < mday + 7
      else 7 * (d.w - 1) < mday ∧ mday ≤ 7 * d.w

theorem RuleDate.OnDay.bounds {k : ℤ} (hd : d.Ok) (h : d.OnDay y k) : -1 ≤ k ∧ k ≤ 366 := by
  have hn := hd.n
  unfold RuleDate.OnDay at h
  cases hk : d.kind with
  | J =>
    simp only [hk] at h
    split_ifs at h <;> omega
  | D =>
    simp only [hk] at h
    omega
  | M =>
    simp only [hk] at h
    obtain ⟨mday, h1, h2, h3, -⟩ := h
    have hm := hd.m hk
    have := monthStart_bounds y (m := d.m.toNat) (by omega) (by omega)
    have := monthLength_bounds y d.m.toNat
    omega

section

variable (hy : -2 ^ 40 ≤ y ∧ y ≤ 2 ^ 40) (hd : d.Ok)
include hy hd

theorem ruleWeekday_eq (hk : d.kind = .M) : ∃ v, ruleWeekday y d = some v ∧ d.OnDay y v := by
  have hm := hd.m hk
  have hw := hd.w hk
  have hdd := hd.d hk
  obtain ⟨m, hm'⟩ := Int.eq_ofNat_of_zero_le (show 0 ≤ d.m by omega)
  rw [hm'] at hm
  obtain ⟨hms0, hms1⟩ := monthStart_bounds y (m := m) (by omega) (by omega)
  obtain ⟨hl0, hl1⟩ := monthLength_bounds y m
  obtain ⟨first, hfirst⟩ : ∃ first, first = yearStart y + monthStart y m := ⟨_, rfl⟩
  have hcivil : daysFromCivil y m 1 = some first := by
    rw [daysFromCivil_eq (by omega) (by omega) (by omega) (by decide), hfirst, Int.add_sub_cancel]
  have h7 : -7 < first.tmod 7 ∧ first.tmod 7 < 7 := by
    rw [tmod_eq]
    split_ifs <;> omega
  obtain ⟨wd, hwd⟩ : ∃ wd, wd = (first.tmod 7 + 7 + 4).tmod 7 := ⟨_, rfl⟩
  have hwd' : wd = (first + 4) % 7 := by
    rw [hwd, tmod_eq, if_pos (by omega), tmod_eq]
    split_ifs <;> omega
  obtain ⟨delta, hdelta⟩ : ∃ delta, delta = (d.d - wd + 7).tmod 7 := ⟨_, rfl⟩
  have hdelta' : delta = (d.d - wd + 7) % 7 := by
    rw [hdelta, tmod_eq, if_pos (by omega)]
  unfold ruleWeekday
  rw [hm', hcivil, some_bind, daysFromCivil_jan1 (by omega), some_bind]
  rw [mlen_eq y (by omega) (by omega)]
  rw [llong_bind (by omega), llong_bind (by omega), ← hwd, cint_bind (by omega),
    cint_bind (by omega), cint_bind (by omega), ← hdelta, cint_bind (by omega),
    cint_bind (by omega), cint_bind (by omega),
    cint_bind (by omega), cint_bind (by omega), weekLoop_eq (by omega) (by omega), some_bind]
  obtain ⟨mday, hmday⟩ : ∃ mday, mday = if 1 + delta + 7 * (d.w - 1) > monthLength y m then
      1 + delta + 7 * (d.w - 1) - 7 else 1 + delta + 7 * (d.w - 1) := ⟨_, rfl⟩
  have hmday' : 1 ≤ mday ∧ mday ≤ monthLength y m ∧ (mday - 1 - delta) % 7 = 0 ∧
      if d.w = 5 then monthLength y m < mday + 7 else 7 * (d.w - 1) < mday ∧ mday ≤ 7 * d.w := by
    rw [hmday]
    split_ifs <;> omega
  obtain ⟨h1, h2, h3, h4⟩ := hmday'
  rw [← hmday, llong_bind (by omega), llong_bind (by omega), llong_eq (by omega)]
  refine ⟨_, rfl, ?_⟩
  unfold RuleDate.OnDay
  simp only [hk]
  rw [hm', Int.toNat_natCast]
  refine ⟨mday, h1, h2, by omega, ?_, h4⟩
  unfold weekday
  omega

/-- **`rule_time`**: the seconds from the beginning of the year to the date. -/
theorem ruleTime_eq : ∃ k, d.OnDay y k ∧ ruleTime y d = some (k * 86400 + d.secs) := by
  have hn := hd.n
  have hsecs := hd.secs
  have hend : ∀ day, -1 ≤ day → day ≤ 366 →
      (llong (day * 86400) >>= fun x => llong (x + d.secs)) = some (day * 86400 + d.secs) := by
    intro day h0 h1
    rw [llong_bind (by omega), llong_eq (by omega)]
  unfold ruleTime
  cases hk : d.kind with
  | J =>
    simp only [isLeap_iff]
    obtain ⟨leap, hleap⟩ : ∃ leap : ℤ, leap = if IsLeap y ∧ d.n ≥ 60 then 1 else 0 := ⟨_, rfl⟩
    have hleap' : 0 ≤ leap ∧ leap ≤ 1 := by rw [hleap]; split_ifs <;> decide
    refine ⟨d.n - 1 + leap, ?_, ?_⟩
    · simp only [RuleDate.OnDay, hk, hleap]
    · rw [← hleap, cint_bind (by omega), llong_bind (by omega)]
      exact hend _ (by omega) (by omega)
  | D => exact ⟨d.n, by simp only [RuleDate.OnDay, hk], hend d.n (by omega) (by omega)⟩
  | M =>
    obtain ⟨v, hv, hon⟩ := ruleWeekday_eq hy hd hk
    have hb := hon.bounds hd
    refine ⟨v, hon, ?_⟩
    dsimp only
    rw [hv, some_bind]
    exact hend v hb.1 hb.2

theorem ruleTime_bound : ∃ v, ruleTime y d = some v ∧ -2 ^ 30 ≤ v ∧ v ≤ 2 ^ 30 := by
  obtain ⟨k, hon, hk⟩ := ruleTime_eq hy hd
  have := hon.bounds hd
  have := hd.secs
  exact ⟨_, hk, by omega, by omega⟩

end

/-! ## Types -/

def PosixRule.stdType (r : PosixRule) : LocalType := ⟨r.stdOff, 0, r.std⟩

def PosixRule.dstType (r : PosixRule) : LocalType := ⟨r.dstOff, 1, r.dst⟩

/-- **What `rule_lookup` computes**: the year of the time in standard time, and the two transitions
of this year, in sums that can overflow. -/
theorem ruleLookup_sums (hr : r.Ok) (hdst : r.hasDst) {t : ℤ}
    (ht : 2 ^ 31 - 2 ^ 63 ≤ t ∧ t + r.stdOff < 2 ^ 63) :
    ∃ y y' a b : ℤ, yearStart y ≤ (t + r.stdOff) / 86400 ∧
      (t + r.stdOff) / 86400 < yearStart (y + 1) ∧ y' = (if y < 1970 then 1970 else y) ∧
      (-2 ^ 40 ≤ y' ∧ y' ≤ 2 ^ 40) ∧ 2 ^ 31 - 2 ^ 63 - 2 ^ 26 ≤ yearStart y' * 86400 ∧
      ruleTime y' r.start = some a ∧ ruleTime y' r.stop = some b ∧ ruleLookup r t = (do
        let u ← llong (yearStart y' * 86400 + a)
        let start ← llong (u - r.stdOff)
        let v ← llong (yearStart y' * 86400 + b)
        let stop ← llong (v - r.dstOff)
        pure (if inDst y t start stop then r.dstType else r.stdType)) := by
  have hstd := hr.stdOff
  have hfloor : (t + r.stdOff).tdiv 86400 - (if (t + r.stdOff).tmod 86400 < 0 then 1 else 0) =
      (t + r.stdOff) / 86400 := by
    rw [tdiv_eq, tmod_eq]
    split_ifs <;> omega
  obtain ⟨days, hdays⟩ : ∃ days, days = (t + r.stdOff) / 86400 := ⟨_, rfl⟩
  have hbound : 2 ^ 31 - 2 ^ 63 - 2 ^ 18 ≤ days * 86400 ∧ days * 86400 < 2 ^ 63 := by omega
  obtain ⟨y, hyear, hlo, hhi, hy⟩ := ruleYear_eq days (by omega)
  obtain ⟨y', hy'⟩ : ∃ y', y' = if y < 1970 then 1970 else y := ⟨_, rfl⟩
  have hyr : -2 ^ 40 ≤ y' ∧ y' ≤ 2 ^ 40 := by rw [hy']; split_ifs <;> omega
  have hys : 2 ^ 31 - 2 ^ 63 - 2 ^ 26 ≤ yearStart y' * 86400 ∧ yearStart y' * 86400 < 2 ^ 63 := by
    rw [hy']
    split_ifs
    · rw [yearStart_eq]
      decide
    · have := yearStart_succ y
      unfold yearLength at this
      split_ifs at this <;> omega
  obtain ⟨a, ha, -⟩ := ruleTime_bound hyr (hr.start hdst)
  obtain ⟨b, hb, -⟩ := ruleTime_bound hyr (hr.stop hdst)
  refine ⟨y, y', a, b, hdays ▸ hlo, hdays ▸ hhi, hy', hyr, hys.1, ha, hb, ?_⟩
  unfold ruleLookup
  rw [if_neg (not_not_intro hdst), llong_bind (by omega), hfloor, ← hdays]
  clear hfloor hdays
  rw [llong_bind (by omega), hyear, some_bind]
  dsimp only
  rw [← hy', daysFromCivil_jan1 (by omega), some_bind, llong_bind (by omega)]
  simp only [ha, hb, some_bind]
  rfl

/-- At a time that is not close to the ends of its type nothing overflows. -/
theorem ruleLookup_run (hr : r.Ok) (hdst : r.hasDst) {t : ℤ}
    (ht : 2 ^ 31 - 2 ^ 63 ≤ t ∧ t ≤ 2 ^ 63 - 2 ^ 31) :
    ∃ y y' a b : ℤ, yearStart y ≤ (t + r.stdOff) / 86400 ∧
      (t + r.stdOff) / 86400 < yearStart (y + 1) ∧ y' = (if y < 1970 then 1970 else y) ∧
      ruleTime y' r.start = some a ∧ ruleTime y' r.stop = some b ∧
      ruleLookup r t = some (if inDst y t (yearStart y' * 86400 + a - r.stdOff)
        (yearStart y' * 86400 + b - r.dstOff) then r.dstType else r.stdType) := by
  have hstd := hr.stdOff
  have hoff := hr.dstOff
  obtain ⟨y, y', a, b, hlo, hhi, hy', hyr, hys, ha, hb, h⟩ :=
    ruleLookup_sums hr hdst (t := t) (by omega)
  obtain ⟨a', ha', ha''⟩ := ruleTime_bound hyr (hr.start hdst)
  obtain ⟨b', hb', hb''⟩ := ruleTime_bound hyr (hr.stop hdst)
  cases ha.symm.trans ha'
  cases hb.symm.trans hb'
  have hys' : yearStart y' * 86400 ≤ 2 ^ 63 - 2 ^ 31 + 2 ^ 18 := by
    rw [hy']
    split_ifs
    · rw [yearStart_eq]
      decide
    · omega
  refine ⟨y, y', a, b, hlo, hhi, hy', ha, hb, ?_⟩
  rw [h, llong_bind (by omega), llong_bind (by omega), llong_bind (by omega), llong_bind (by omega)]
  rfl

theorem ruleLookup_eq (hr : r.Ok) {t : ℤ} (ht : -2 ^ 61 ≤ t ∧ t ≤ 2 ^ 61) :
    ruleLookup r t = some r.stdType ∨ ruleLookup r t = some r.dstType := by
  by_cases hdst : r.hasDst
  · obtain ⟨y, y', a, b, -, -, -, -, -, h⟩ := ruleLookup_run hr hdst (t := t) (by omega)
    rw [h]
    exact (ite_eq_or_eq _ _ _).symm.imp (congrArg some ·) (congrArg some ·)
  · left
    unfold ruleLookup
    rw [if_pos hdst]
    rfl

end Citadel.Time
