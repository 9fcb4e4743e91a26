import Citadel.Time.Gmtime

/-!
# ISO weeks

`iso_week` of `timeconv.c`, and the week dates of ISO 8601: a week runs from Monday to Sunday and
belongs to the year of its Thursday, whose weeks are numbered by their Thursdays.

* `isoWeek_correct`: the year and week that `iso_week` finds are the only ones of the date; the
  weeks of a year are 52 or 53, and from one day to the next the week stays, is followed by the next
  one, or the last of a year by the first of the next year.
-/

namespace Citadel.Time

open Citadel.Lib.CInt Citadel.Lib.Calendar Int

/-- `iso_week`: the week, and the year it belongs to. -/
def isoWeek (f : Fields) : Option (ℤ × ℤ) := do
  let y ← llong (f.year + 1900)
  let wday := (← cint (f.wday + 6)).tmod 7 -- Monday = 0
  let week := (← cint ((← cint (f.yday - wday)) + 10)).tdiv 7
  if week < 1 then
    let y ← llong (y - 1)
    let prevLen ← cint (365 + if isLeap y then 1 else 0)
    let n ← cint ((← cint ((← cint (f.yday + prevLen)) - wday)) + 10)
    pure (n.tdiv 7, y)
  else if week = 53 then
    let len ← cint (365 + if isLeap y then 1 else 0)
    let n ← cint ((← cint (f.yday - wday)) + 3)
    if n ≥ len then pure (1, ← llong (y + 1)) else pure (week, y)
  else pure (week, y)

/-! ## Week dates -/

/-- The Thursdays of a year; the day 0 is a Thursday. -/
def nthThursday (y w : ℤ) : ℤ := yearStart y + -yearStart y % 7 + 7 * (w - 1)

/-- The day `n` lies in the week `w` of the year `y`. -/
def InWeek (y w n : ℤ) : Prop :=
  1 ≤ w ∧ nthThursday y w < yearStart (y + 1) ∧ nthThursday y w - 3 ≤ n ∧ n ≤ nthThursday y w + 3

/-- The Thursday of the week of a day. -/
def thursday (n : ℤ) : ℤ := n - (n + 3) % 7 + 3

variable {y w n : ℤ}

theorem inWeek_iff : InWeek y w n ↔ yearStart y ≤ thursday n ∧ thursday n < yearStart (y + 1) ∧
    w = (thursday n - yearStart y) / 7 + 1 := by
  unfold InWeek nthThursday thursday
  omega

/-- A day lies in the year whose first day is the last that is not after it. -/
theorem year_unique {y y' t : ℤ} (h : yearStart y ≤ t ∧ t < yearStart (y + 1))
    (h' : yearStart y' ≤ t ∧ t < yearStart (y' + 1)) : y = y' := by
  rw [yearStart_succ] at h h'
  by_contra hne
  rcases Int.lt_or_gt_of_ne hne with hlt | hlt
  · have := yearStart_lt hlt
    omega
  · have := yearStart_lt hlt
    omega

theorem InWeek.unique {y' w' : ℤ} (h : InWeek y w n) (h' : InWeek y' w' n) : y = y' ∧ w = w' := by
  obtain ⟨h1, h2, rfl⟩ := inWeek_iff.mp h
  obtain ⟨h1', h2', rfl⟩ := inWeek_iff.mp h'
  obtain rfl := year_unique ⟨h1, h2⟩ ⟨h1', h2'⟩
  exact ⟨rfl, rfl⟩

theorem yearLength_cases (y : ℤ) : yearLength y = 365 ∨ yearLength y = 366 := by
  unfold yearLength
  split_ifs
  · exact .inr rfl
  · exact .inl rfl

theorem exists_inWeek (y w : ℤ) :
    (∃ n, InWeek y w n) ↔ 1 ≤ w ∧ (w ≤ 52 ∨ w = 53 ∧ nthThursday y 53 < yearStart (y + 1)) := by
  have hlen := yearLength_cases y
  have hsucc := yearStart_succ y
  unfold InWeek
  constructor
  · rintro ⟨n, h1, h2, -⟩
    refine ⟨h1, ?_⟩
    by_cases hw : w = 53
    · exact .inr ⟨hw, hw ▸ h2⟩
    · unfold nthThursday at h2
      omega
  · rintro ⟨h1, h2⟩
    refine ⟨nthThursday y w, h1, ?_, by omega, by omega⟩
    rcases h2 with h2 | ⟨rfl, h2⟩
    · unfold nthThursday
      omega
    · exact h2

theorem InWeek.next {y' w' : ℤ} (h : InWeek y w n) (h' : InWeek y' w' (n + 1)) :
    (y' = y ∧ (w' = w ∨ w' = w + 1)) ∨
      (y' = y + 1 ∧ w' = 1 ∧ (w = 52 ∨ w = 53) ∧ ¬ ∃ m, InWeek y (w + 1) m) := by
  have hlen := yearLength_cases y
  have hsucc := yearStart_succ y
  have hsucc' := yearStart_succ (y + 1)
  have hpos := yearLength_cases (y + 1)
  obtain ⟨h1, h2, hw⟩ := inWeek_iff.mp h
  obtain ⟨h1', h2', hw'⟩ := inWeek_iff.mp h'
  have hstep : thursday (n + 1) = thursday n ∨ thursday (n + 1) = thursday n + 7 := by
    unfold thursday
    omega
  by_cases hin : thursday (n + 1) < yearStart (y + 1)
  · obtain rfl := year_unique ⟨h1', h2'⟩ ⟨by omega, hin⟩
    exact .inl ⟨rfl, by omega⟩
  · obtain rfl : y' = y + 1 := year_unique ⟨h1', h2'⟩ ⟨by omega, by omega⟩
    refine .inr ⟨rfl, by omega, by omega, ?_⟩
    rintro ⟨m, hm⟩
    obtain ⟨h3, h4, h5⟩ := inWeek_iff.mp hm
    unfold thursday at *
    omega

/-! ## The code -/

/-- A struct whose year, day of the year and day of the week are those of a date. -/
structure OfDate (f : Fields) (date : Date) : Prop where
  fits : YearFits date
  year : f.year = date.year - 1900
  yday : f.yday = date.yearDay
  wday : f.wday = (date.dayNumber + 4) % 7

theorem length_eq (y : ℤ) : (365 + if isLeap y then 1 else 0) = yearLength y := by
  simp only [isLeap_iff, yearLength]
  split_ifs <;> rfl

theorem isoWeek_inWeek {f : Fields} {date : Date} (h : OfDate f date) :
    ∃ w y, isoWeek f = some (w, y) ∧ InWeek y w date.dayNumber := by
  obtain ⟨hfit, hyear, hyday, hwday⟩ := h
  have h0 := date.yearDay_nonneg
  have h1 := date.yearDay_lt
  have hlen := yearLength_cases date.year
  have hprev := yearLength_cases (date.year - 1)
  have hs := yearStart_succ date.year
  have hs' := yearStart_succ (date.year - 1)
  have hs'' := yearStart_succ (date.year + 1)
  have hnext := yearLength_cases (date.year + 1)
  rw [Int.sub_add_cancel] at hs'
  unfold YearFits INT_MIN INT_MAX at hfit
  have hmon : (f.wday + 6).tmod 7 = (date.dayNumber + 3) % 7 := by
    rw [hwday, tmod_eq_emod_of_nonneg (by omega)]
    omega
  -- the day of the year of the Thursday
  obtain ⟨k, hk⟩ : ∃ k, k = date.yearDay - (date.dayNumber + 3) % 7 + 3 := ⟨_, rfl⟩
  have hth : thursday date.dayNumber = yearStart date.year + k := by
    unfold thursday Date.dayNumber at *
    omega
  unfold isoWeek
  rw [hyear, Int.sub_add_cancel, llong_bind (by omega), cint_bind (by omega), hmon, hyday,
    cint_bind (by omega), cint_bind (by omega),
    show date.yearDay - (date.dayNumber + 3) % 7 + 10 = k + 7 by omega,
    tdiv_eq_ediv_of_nonneg (by omega)]
  by_cases hk0 : (k + 7) / 7 < 1
  · rw [if_pos hk0, llong_bind (by omega), length_eq, cint_bind (by omega), cint_bind (by omega),
      cint_bind (by omega), cint_bind (by omega), tdiv_eq_ediv_of_nonneg (by omega)]
    refine ⟨_, _, rfl, inWeek_iff.mpr ?_⟩
    rw [hth, Int.sub_add_cancel]
    omega
  rw [if_neg hk0]
  by_cases hk53 : (k + 7) / 7 = 53
  · rw [if_pos hk53, length_eq, cint_bind (by omega), cint_bind (by omega),
      cint_bind (by omega), ← hk]
    by_cases hend : k ≥ yearLength date.year
    · rw [if_pos hend, llong_bind (by omega)]
      refine ⟨_, _, rfl, inWeek_iff.mpr ?_⟩
      rw [hth]
      omega
    · rw [if_neg hend]
      refine ⟨_, _, rfl, inWeek_iff.mpr ?_⟩
      rw [hth]
      omega
  · rw [if_neg hk53]
    refine ⟨_, _, rfl, inWeek_iff.mpr ?_⟩
    rw [hth]
    omega

/-- **ISO week numbering is right** for every date. -/
theorem isoWeek_correct {f : Fields} {date : Date} (h : OfDate f date) :
    ∃ w y, isoWeek f = some (w, y) ∧ InWeek y w date.dayNumber ∧
      (∀ y' w', InWeek y' w' date.dayNumber → y' = y ∧ w' = w) ∧
      (∀ w', (∃ n, InWeek y w' n) ↔
        1 ≤ w' ∧ (w' ≤ 52 ∨ w' = 53 ∧ nthThursday y 53 < yearStart (y + 1))) ∧
      ∀ f' date', OfDate f' date' → date'.dayNumber = date.dayNumber + 1 →
        ∃ w' y', isoWeek f' = some (w', y') ∧ ((y' = y ∧ (w' = w ∨ w' = w + 1)) ∨
          (y' = y + 1 ∧ w' = 1 ∧ (w = 52 ∨ w = 53) ∧ ¬ ∃ n, InWeek y (w + 1) n)) := by
  obtain ⟨w, y, hcall, hin⟩ := isoWeek_inWeek h
  refine ⟨w, y, hcall, hin, fun y' w' h' => h'.unique hin, exists_inWeek y, ?_⟩
  intro f' date' h' hnext
  obtain ⟨w', y', hcall', hin'⟩ := isoWeek_inWeek h'
  exact ⟨w', y', hcall', hin.next (hnext ▸ hin')⟩

/-- January 1st of 2021, a Friday, lies in the last week of 2020. -/
theorem isoWeek_correct_friday :
    OfDate ⟨0, 0, 0, 1, 0, 121, 5, 0⟩ ⟨2021, 1, 1, by decide, by decide, by decide, by decide⟩ ∧
      isoWeek ⟨0, 0, 0, 1, 0, 121, 5, 0⟩ = some (53, 2020) := by
  have h : OfDate ⟨0, 0, 0, 1, 0, 121, 5, 0⟩
      ⟨2021, 1, 1, by decide, by decide, by decide, by decide⟩ := by
    refine ⟨by decide, by decide, by decide, ?_⟩
    rw [Date.dayNumber, yearStart_eq]
    decide
  refine ⟨h, ?_⟩
  obtain ⟨w, y, hcall, -, huniq, -⟩ := isoWeek_correct h
  obtain ⟨rfl, rfl⟩ := huniq 2020 53 (by
    unfold InWeek nthThursday
    rw [Date.dayNumber, yearStart_eq, yearStart_eq, yearStart_eq]
    decide)
  exact hcall

end Citadel.Time
