import Citadel.Lib.Rounding
import Mathlib.Data.Nat.Bitwise
import Mathlib.Data.Nat.Size

/-!
# The floating-point formats

The three formats of the number routines and the bits of the 64-bit-mantissa `long double`: a
significand `m` with an explicit leading bit and a word `se` of sign and exponent.

* `value_makeLd`: `make_ld` builds the bits of `M * 2 ^ E`.
* `value_ofValue`: the conversion of a datum of a narrower format is exact.
-/

namespace Citadel.Number

open Citadel.Lib.Rounding Nat Format

/-- The format descriptors `F_FLT`, `F_DBL` and `F_LDBL`. -/
inductive Ffmt where
  | flt
  | dbl
  | ldbl
deriving DecidableEq

namespace Ffmt

/-- The members `p`, `emin` and `emax` of a descriptor. -/
def format : Ffmt → Format
  | flt => ⟨24, -149, 104, by decide⟩
  | dbl => ⟨53, -1074, 971, by decide⟩
  | ldbl => ⟨64, -16445, 16320, by decide⟩

/-- Values of at least `10 ^ dmax` overflow. -/
def dmax : Ffmt → ℤ
  | flt => 40
  | dbl => 310
  | ldbl => 4934

/-- Values below `10 ^ dmin` underflow to zero. -/
def dmin : Ffmt → ℤ
  | flt => -47
  | dbl => -325
  | ldbl => -4953

end Ffmt

/-- The bits of a `long double`. -/
structure LDouble where
  m : UInt64
  se : UInt16
deriving DecidableEq

/-- `__builtin_clzll` of a number that is not zero. -/
def clzll (x : ℕ) : ℕ := 64 - x.size

/-- `M * 2 ^ E` as a `long double`. -/
def makeLd (M : ℕ) (E : ℤ) (neg : Bool) : LDouble :=
  let u : LDouble :=
    if M ≠ 0 then
      let s := clzll M
      let field := E - s + 63 + 16383
      if field ≥ 1 then { m := UInt64.ofNat (M <<< s), se := UInt16.ofNat field.toNat }
      else { m := UInt64.ofNat M, se := 0 }
    else { m := 0, se := 0 }
  if neg then { u with se := u.se ||| 0x8000 } else u

def makeInf (neg : Bool) : LDouble :=
  { m := UInt64.ofNat (1 <<< 63), se := 0x7fff ||| (if neg then 0x8000 else 0) }

def makeNan (neg : Bool) : LDouble :=
  { m := UInt64.ofNat (3 <<< 62), se := 0x7fff ||| (if neg then 0x8000 else 0) }

namespace LDouble

def exponent (x : LDouble) : ℕ := x.se.toNat % 2 ^ 15

def sign (x : LDouble) : Bool := x.se.toNat.testBit 15

/-- What the bits stand for. A significand without its leading bit is not a number, except with the
exponent field of the subnormal numbers. -/
def value (x : LDouble) : Value :=
  if x.exponent = 0x7fff then
    if x.m.toNat % 2 ^ 63 ≠ 0 then .nan x.sign else .inf x.sign
  else if x.exponent = 0 then .finite x.sign (x.m.toNat * 2 ^ (-16445 : ℤ))
  else if x.m.toNat < 2 ^ 63 then .nan x.sign
  else .finite x.sign (x.m.toNat * 2 ^ ((x.exponent : ℤ) - 16446))

/-- The bits of a datum, rounded to the format. -/
def ofValue : Value → LDouble
  | .finite neg x =>
    if Ffmt.ldbl.format.maxFinite < Ffmt.ldbl.format.rnd x then makeInf neg
    else
      let r := Ffmt.ldbl.format.significand x
      makeLd r.1 r.2 neg
  | .inf neg => makeInf neg
  | .nan neg => makeNan neg

end LDouble

/-! ## The bits and their value -/

theorem toNat_or_sign {f : ℕ} (h : f < 2 ^ 15) :
    (UInt16.ofNat f ||| 0x8000).toNat = 2 ^ 15 + f := by
  have h1 := two_pow_add_eq_or_of_lt h 1
  rw [Nat.mul_one, lor_comm] at h1
  rw [UInt16.toNat_or, UInt16.toNat_ofNat', mod_eq_of_lt (by omega), h1]
  rfl

theorem sign_exponent {f : ℕ} (h : f < 2 ^ 15) (neg : Bool) (m : UInt64) :
    (LDouble.mk m (if neg then UInt16.ofNat f ||| 0x8000 else UInt16.ofNat f)).exponent = f ∧
    (LDouble.mk m (if neg then UInt16.ofNat f ||| 0x8000 else UInt16.ofNat f)).sign = neg := by
  unfold LDouble.exponent LDouble.sign
  cases neg
  · simp only [Bool.false_eq_true, if_false]
    rw [UInt16.toNat_ofNat', mod_eq_of_lt (show f < 2 ^ 16 by omega), mod_eq_of_lt h]
    exact ⟨rfl, testBit_lt_two_pow h⟩
  · simp only [if_true]
    rw [toNat_or_sign h, add_mod_left, mod_eq_of_lt h, testBit_two_pow_add_eq,
      testBit_lt_two_pow h]
    exact ⟨rfl, rfl⟩

theorem makeLd_eq (M : ℕ) (E : ℤ) (neg : Bool) : ∃ (m : UInt64) (f : ℕ),
    makeLd M E neg = ⟨m, if neg then UInt16.ofNat f ||| 0x8000 else UInt16.ofNat f⟩ ∧
    ((M = 0 ∧ m = 0 ∧ f = 0) ∨
      (M ≠ 0 ∧ 1 ≤ E - clzll M + 63 + 16383 ∧ m = UInt64.ofNat (M <<< clzll M) ∧
        f = (E - clzll M + 63 + 16383).toNat) ∨
      (M ≠ 0 ∧ E - clzll M + 63 + 16383 < 1 ∧ m = UInt64.ofNat M ∧ f = 0)) := by
  by_cases h0 : M = 0
  · refine ⟨0, 0, ?_, .inl ⟨h0, rfl, rfl⟩⟩
    cases neg <;> simp [makeLd, h0]
  · by_cases h1 : 1 ≤ E - clzll M + 63 + 16383
    · refine ⟨_, _, ?_, .inr (.inl ⟨h0, h1, rfl, rfl⟩)⟩
      cases neg <;> simp [makeLd, h0, h1]
    · refine ⟨_, _, ?_, .inr (.inr ⟨h0, by omega, rfl, rfl⟩)⟩
      cases neg <;> simp [makeLd, h0, h1]

theorem clzll_bounds {M : ℕ} (h0 : M ≠ 0) (hM : M < 2 ^ 64) :
    2 ^ 63 ≤ M * 2 ^ clzll M ∧ M * 2 ^ clzll M < 2 ^ 64 := by
  have hsize : (M * 2 ^ clzll M).size = 64 := by
    have := size_le.mpr hM
    rw [← shiftLeft_eq, size_shiftLeft h0]
    unfold clzll
    omega
  exact ⟨lt_size.mp (by omega), size_le.mp hsize.le⟩

theorem size_div_two_pow (n k : ℕ) : (n / 2 ^ k).size = n.size - k := by
  refine eq_of_forall_ge_iff fun c => ?_
  rw [size_le, Nat.div_lt_iff_lt_mul (by positivity), ← pow_add, ← size_le, tsub_le_iff_right]

theorem value_makeLd_zero (E : ℤ) (neg : Bool) : (makeLd 0 E neg).value = .finite neg 0 := by
  obtain ⟨m, f, he, ⟨-, rfl, rfl⟩ | ⟨h, -⟩ | ⟨h, -⟩⟩ := makeLd_eq 0 E neg
  · obtain ⟨hx, hsg⟩ := sign_exponent (f := 0) (by decide) neg 0
    rw [he]
    unfold LDouble.value
    rw [hx, hsg]
    simp
  · exact absurd rfl h
  · exact absurd rfl h

/-- **`make_ld` builds the bits of `M * 2 ^ E`**, when the leading bit is in range and a number too
small to be normal has the least exponent. -/
theorem value_makeLd {M : ℕ} {E : ℤ} (neg : Bool) (hM : M < 2 ^ 64)
    (hlo : E = -16445 ∨ -16381 ≤ E + M.size) (hhi : E + M.size ≤ 16384) :
    (makeLd M E neg).value = .finite neg (M * 2 ^ E) := by
  have hs := size_le.mpr hM
  have hc : (clzll M : ℤ) = 64 - M.size := by unfold clzll; omega
  obtain ⟨m, f, he, h⟩ := makeLd_eq M E neg
  rcases h with ⟨rfl, -, -⟩ | ⟨h0, h1, rfl, hf⟩ | ⟨h0, h1, rfl, rfl⟩
  · rw [value_makeLd_zero, cast_zero, zero_mul]
  all_goals
    rw [he]
    unfold LDouble.value
  · obtain ⟨hx, hsg⟩ := sign_exponent (f := f) (by omega) neg (UInt64.ofNat (M <<< clzll M))
    obtain ⟨hm2, hm1⟩ := clzll_bounds h0 hM
    have hm : (UInt64.ofNat (M <<< clzll M)).toNat = M * 2 ^ clzll M := by
      rw [UInt64.toNat_ofNat', shiftLeft_eq, mod_eq_of_lt hm1]
    rw [hx, hsg, if_neg (by omega), if_neg (by omega), hm, if_neg (by omega)]
    congr 1
    rw [hf, Int.toNat_of_nonneg (by omega)]
    have h4 : E = (clzll M : ℤ) + (E - clzll M + 63 + 16383 - 16446) := by ring
    conv_rhs => rw [h4, two_zpow_natCast_add]
    push_cast
    ring
  · obtain ⟨hx, hsg⟩ := sign_exponent (f := 0) (by decide) neg (UInt64.ofNat M)
    have hE : E = -16445 := hlo.resolve_right (by omega)
    rw [hx, hsg, if_neg (by decide), if_pos rfl, UInt64.toNat_ofNat', mod_eq_of_lt hM, hE]

theorem value_makeInf (neg : Bool) : (makeInf neg).value = .inf neg := by
  cases neg <;> decide

theorem value_ofValue_finite (neg : Bool) {x : ℚ} (hx : 0 ≤ x) :
    (LDouble.ofValue (.finite neg x)).value = Ffmt.ldbl.format.round neg x := by
  simp only [LDouble.ofValue, Format.round]
  split_ifs with hmax
  · exact value_makeInf neg
  · rcases hx.eq_or_lt with rfl | hpos
    · have h1 : (Ffmt.ldbl.format.significand 0).1 = 0 := by decide +kernel
      simp only [h1, Format.rnd_zero, value_makeLd_zero]
    · obtain ⟨hM, he, hn, hval⟩ := Format.significand_spec (F := Ffmt.ldbl.format) hpos
      rw [← hval] at hmax ⊢
      generalize Ffmt.ldbl.format.significand x = r at *
      have hlt : (r.1 : ℚ) * 2 ^ r.2 < 2 ^ (16384 : ℤ) :=
        lt_of_le_of_lt (not_lt.mp hmax) maxFinite_lt
      refine value_makeLd neg hM ?_ ?_
      · refine hn.imp id fun h => ?_
        have h1 : 63 < r.1.size := lt_size.mpr h
        have h2 : (-16445 : ℤ) ≤ r.2 := he
        omega
      · rcases Nat.eq_zero_or_pos r.1 with h0 | h0
        · have h1 : r.2 = -16445 := hn.resolve_right (by rw [h0]; decide)
          rw [h0, h1]
          decide
        · have h1 : 2 ^ (r.1.size - 1) ≤ r.1 := lt_size.mp (by have := size_pos.mpr h0; omega)
          have h2 := lt_of_two_zpow_lt ((two_zpow_le_mul h1 r.2).trans_lt hlt)
          omega

/-! ## The formats among each other -/

theorem prec_le (F : Ffmt) : F.format.prec ≤ 64 := by cases F <;> decide

theorem le_emin (F : Ffmt) : -16445 ≤ F.format.emin := by cases F <;> decide

theorem emin_le_emax (F : Ffmt) : F.format.emin ≤ F.format.emax := by cases F <;> decide

theorem prec_add_emax_le (F : Ffmt) : F.format.prec + F.format.emax ≤ 16384 := by
  cases F <;> decide

theorem representable_ldbl {F : Ffmt} {z : ℚ} (h : F.format.Representable z) :
    Ffmt.ldbl.format.Representable z := by
  obtain ⟨m, e, he, hm, rfl⟩ := h
  exact ⟨m, e, (le_emin F).trans he,
    hm.trans_le (Nat.pow_le_pow_right (by norm_num) (prec_le F)), rfl⟩

theorem maxFinite_le_ldbl (F : Ffmt) : F.format.maxFinite ≤ Ffmt.ldbl.format.maxFinite := by
  cases F <;> decide +kernel

theorem value_ofValue_round (F : Ffmt) (neg : Bool) {x : ℚ} (hx : 0 ≤ x) :
    (LDouble.ofValue (F.format.round neg x)).value = F.format.round neg x := by
  unfold Format.round
  split_ifs with h
  · exact value_makeInf neg
  · rw [value_ofValue_finite neg rnd_nonneg]
    exact round_eq_finite neg rnd_nonneg
      (representable_ldbl (nearest_rnd hx).representable)
      ((not_lt.mp h).trans (maxFinite_le_ldbl F))

end Citadel.Number
