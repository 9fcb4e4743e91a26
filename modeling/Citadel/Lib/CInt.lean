import Mathlib.Algebra.Order.Group.Int
import Mathlib.Data.Option.Basic

/-!
# Integer arithmetic of C

A signed operation whose exact result does not fit its type has no meaning: `llong` and `cint` give
the result of such an operation, or `none`. A computation written with them is `some` of its value
exactly if none of its operations overflows. Unsigned arithmetic wraps around (`uint`), and signed
division truncates (`Int.tdiv`, `Int.tmod`).
-/

namespace Citadel.Lib.CInt

open Int

def llong (x : ℤ) : Option ℤ := if -2 ^ 63 ≤ x ∧ x < 2 ^ 63 then some x else none

def cint (x : ℤ) : Option ℤ := if -2 ^ 31 ≤ x ∧ x < 2 ^ 31 then some x else none

def uint (x : ℤ) : ℤ := x % 2 ^ 32

variable {x : ℤ} {α : Type}

theorem llong_eq (h : -2 ^ 63 ≤ x ∧ x < 2 ^ 63) : llong x = some x := if_pos h

theorem uint_eq (h : 0 ≤ x ∧ x < 2 ^ 32) : uint x = x := emod_eq_of_lt h.1 h.2

theorem some_bind {β : Type} (x : β) (f : β → Option α) : (some x >>= f) = f x := rfl

theorem llong_bind (h : -2 ^ 63 ≤ x ∧ x < 2 ^ 63) (f : ℤ → Option α) : (llong x >>= f) = f x := by
  rw [llong_eq h]
  rfl

theorem cint_bind (h : -2 ^ 31 ≤ x ∧ x < 2 ^ 31) (f : ℤ → Option α) : (cint x >>= f) = f x := by
  rw [cint, if_pos h]
  rfl

/-- The conditional operator, one of whose branches may overflow. -/
def choose (c : Prop) [Decidable c] (a b : Option ℤ) : Option ℤ := if c then a else b

theorem choose_bind {c : Prop} [Decidable c] {a b : Option ℤ} {y : ℤ}
    (ha : c → a = some x) (hb : ¬ c → b = some y) (f : ℤ → Option α) :
    (choose c a b >>= f) = f (if c then x else y) := by
  unfold choose
  by_cases hc : c
  · rw [if_pos hc, if_pos hc, ha hc]
    rfl
  · rw [if_neg hc, if_neg hc, hb hc]
    rfl

theorem tdiv_eq (a b : ℤ) :
    a.tdiv b = if 0 ≤ a then a / b else -(-a / b) := by
  by_cases ha : 0 ≤ a
  · rw [if_pos ha, tdiv_eq_ediv_of_nonneg ha]
  · rw [if_neg ha, ← tdiv_eq_ediv_of_nonneg (by omega : 0 ≤ -a), Int.neg_tdiv, Int.neg_neg]

theorem tmod_eq (a b : ℤ) :
    a.tmod b = if 0 ≤ a then a % b else -(-a % b) := by
  by_cases ha : 0 ≤ a
  · rw [if_pos ha, tmod_eq_emod_of_nonneg ha]
  · rw [if_neg ha, ← tmod_eq_emod_of_nonneg (by omega : 0 ≤ -a), neg_tmod, Int.neg_neg]

theorem tdiv_floor (a : ℤ) {b : ℤ} (hb : 0 < b) :
    (if 0 ≤ a then a else a - (b - 1)).tdiv b = a / b := by
  by_cases ha : 0 ≤ a
  · rw [if_pos ha, tdiv_eq_ediv_of_nonneg ha]
  · rw [if_neg ha, tdiv_eq, if_neg (by omega)]
    have h1 := emod_nonneg (-(a - (b - 1))) (Int.ne_of_gt hb)
    have h2 := emod_lt_of_pos (-(a - (b - 1))) hb
    have h3 := mul_ediv_add_emod (-(a - (b - 1))) b
    rw [eq_comm, ediv_eq_iff_of_pos hb, Int.neg_mul, Int.mul_comm]
    omega

end Citadel.Lib.CInt
