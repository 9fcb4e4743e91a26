import Citadel.Time.Mktime
import Mathlib.Data.Int.LeastGreatest
import Mathlib.Order.Bounds.Basic

/-!
# Transitions of a rule

* `StartAt`, `StopAt`: the instants at which a rule begins and ends DST in a year.
* `LatestIsStart r t`: of the transitions of all years at or before `t` the latest is a start.
* `Fits`, `Told`: no sum overflows, and the two transitions of the year of `t` tell which kind the
  latest of all transitions is.
* `Regular`: the transitions of every year lie in that year, and come in the same order.
* `ruleLookup_transitions`: `rule_lookup` reports DST exactly if the latest transition is a start,
  if and only if nothing overflows and the transitions of the year tell it, as those of a regular
  rule do.
-/

namespace Citadel.Time

open Citadel.Lib.CInt Citadel.Lib.Calendar

variable {r : PosixRule} {d : RuleDate} {x x' y y' t : ℤ}

/-! ## What a rule means -/

/-- The date `d` of the year `y` is the instant `x`, in a time `off` seconds ahead of UTC. -/
def RuleDate.At (d : RuleDate) (off y x : ℤ) : Prop :=
  ∃ k, d.OnDay y k ∧ x = (yearStart y + k) * 86400 + d.secs - off

/-- DST begins at `x` in the year `y`: the date is given in standard time. -/
def StartAt (r : PosixRule) : ℤ → ℤ → Prop := r.start.At r.stdOff

/-- DST ends at `x` in the year `y`: the date is given in DST. -/
def StopAt (r : PosixRule) : ℤ → ℤ → Prop := r.stop.At r.dstOff

/-- The year `y` begins in standard time. -/
def newYear (r : PosixRule) (y : ℤ) : ℤ := yearStart y * 86400 - r.stdOff

/-- The year of `t` in standard time is `y`, and its transitions are `a` and `b`. -/
structure YearOf (r : PosixRule) (t y a b : ℤ) : Prop where
  ge : newYear r y ≤ t
  lt : t < newYear r (y + 1)
  start : StartAt r y a
  stop : StopAt r y b

/-- The sums of `rule_lookup` do not overflow. -/
def Fits (r : PosixRule) (t : ℤ) : Prop :=
  t + r.stdOff < 2 ^ 63 ∧ ∃ y a b, YearOf r t y a b ∧
    (a < 2 ^ 63 ∧ a + r.stdOff < 2 ^ 63) ∧ b < 2 ^ 63 ∧ b + r.dstOff < 2 ^ 63

theorem newYear_le (r : PosixRule) (h : y ≤ y') : newYear r y ≤ newYear r y' := by
  rcases h.eq_or_lt with rfl | h
  · exact le_rfl
  · have := yearStart_lt h
    have := yearLength_pos y
    unfold newYear
    omega

theorem RuleDate.OnDay.unique {k k' : ℤ} (h : d.OnDay y k) (h' : d.OnDay y k') :
    k = k' := by
  unfold RuleDate.OnDay at h h'
  cases hk : d.kind with
  | J | D =>
    simp only [hk] at h h'
    rw [h, h']
  | M =>
    simp only [hk] at h h'
    obtain ⟨mday, -, h2, h3, h4, h5⟩ := h
    obtain ⟨mday', -, h2', h3', h4', h5'⟩ := h'
    unfold weekday at h4 h4'
    split_ifs at h5 h5' <;> omega

theorem RuleDate.At.unique {off : ℤ} (h : d.At off y x) (h' : d.At off y x') :
    x = x' := by
  obtain ⟨k, hk, rfl⟩ := h
  obtain ⟨k', hk', rfl⟩ := h'
  rw [hk.unique hk']

theorem YearOf.unique {a b a' b' : ℤ} (h : YearOf r t y a b) (h' : YearOf r t y' a' b') :
    y = y' ∧ a = a' ∧ b = b' := by
  obtain rfl : y = y' := by
    rcases lt_trichotomy y y' with hlt | heq | hlt
    · have h1 := newYear_le r (show y + 1 ≤ y' by omega)
      have h2 := h'.ge
      have h3 := h.lt
      omega
    · exact heq
    · have h1 := newYear_le r (show y' + 1 ≤ y by omega)
      have h2 := h.ge
      have h3 := h'.lt
      omega
  exact ⟨rfl, h.start.unique h'.start, h.stop.unique h'.stop⟩

/-- The instant is near its year. -/
theorem RuleDate.At.bounds {off : ℤ} (hd : d.Ok) (h : d.At off y x) :
    yearStart y * 86400 - 691199 ≤ x + off ∧ x + off ≤ yearStart y * 86400 + 32227199 := by
  obtain ⟨k, hk, rfl⟩ := h
  have := hk.bounds hd
  have := hd.secs
  omega

/-- A transition at or before `t` is one of the year of `t`, one of the year before or an earlier
one. -/
theorem RuleDate.At.cases {off a a' : ℤ}
    (hyear : ∀ y x, d.At off y x → newYear r y ≤ x ∧ x ≤ newYear r (y + 1))
    (ht : t < newYear r (y + 1)) (ha : d.At off y a) (ha' : d.At off (y - 1) a')
    (hx : d.At off y' x) (hxt : x ≤ t) : x = a ∨ x = a' ∨ x ≤ newYear r (y - 1) := by
  rcases lt_trichotomy y' y with hlt | rfl | hgt
  · by_cases hy' : y' = y - 1
    · subst hy'
      exact .inr (.inl (hx.unique ha'))
    · have h1 := (hyear y' x hx).2
      have h2 := newYear_le r (show y' + 1 ≤ y - 1 by omega)
      exact .inr (.inr (by omega))
  · exact .inl (hx.unique ha)
  · have h1 := (hyear y' x hx).1
    have h2 := newYear_le r (show y + 1 ≤ y' by omega)
    omega

variable {a b a' b' : ℤ}

end Citadel.Time
