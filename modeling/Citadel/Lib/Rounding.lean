import Mathlib.Data.Int.Log
import Mathlib.Data.Rat.Floor
import Mathlib.Tactic

/-!
# Rounding to nearest, ties to even

`roundEven y` is the integer nearest to the non-negative rational `y`, the even one of two. A binary
format keeps `prec` bits of significand and no bit below `2 ^ emin`; `F.rnd x` is the rounding of
`x` to it with no bound on large exponents, a multiple of the quantum `2 ^ F.quantum x`.

* `nearest_rnd`: `F.rnd x` is a nearest number of the format, and the even one of two.
* `rnd_eq_of_window`: the rounding read off from a quantum and the quotient by it.
* `rnd_eq_of_no_midpoint`: two numbers with no midpoint between them round alike.
* `round`: the rounding with its sign, an infinity when it is above the largest number.
-/

namespace Citadel.Lib.Rounding

open Nat

/-! ## To an integer -/

/-- The integer nearest to `y`, the even one of two that are equally near. -/
def roundEven (y : ℚ) : ℕ :=
  if y - ⌊y⌋₊ < 1 / 2 then ⌊y⌋₊ else if 1 / 2 < y - ⌊y⌋₊ then ⌊y⌋₊ + 1 else ⌊y⌋₊ + ⌊y⌋₊ % 2

theorem roundEven_add (k : ℕ) {f : ℚ} (h0 : 0 ≤ f) (h1 : f < 1) :
    roundEven (k + f) = if f < 1 / 2 then k else if 1 / 2 < f then k + 1 else k + k % 2 := by
  have hk : ⌊(k : ℚ) + f⌋₊ = k := by
    rw [floor_eq_iff (by positivity)]
    constructor <;> linarith
  unfold roundEven
  rw [hk, add_sub_cancel_left]

theorem roundEven_natCast (k : ℕ) : roundEven k = k := by
  have h := roundEven_add k (le_refl (0 : ℚ)) one_pos
  rw [add_zero, if_pos (by norm_num)] at h
  exact h

variable {y : ℚ} {n : ℕ}

theorem exists_floor_add (h : 0 ≤ y) : ∃ (k : ℕ) (f : ℚ), 0 ≤ f ∧ f < 1 ∧ y = k + f :=
  ⟨⌊y⌋₊, y - ⌊y⌋₊, by linarith [floor_le h], by linarith [lt_floor_add_one y], by ring⟩

theorem roundEven_cases (h : 0 ≤ y) : (∃ f, 0 ≤ f ∧ f < 1 / 2 ∧ y = roundEven y + f) ∨
    (∃ f, 0 < f ∧ f < 1 / 2 ∧ y = roundEven y - f) ∨
    (Even (roundEven y) ∧ (y = roundEven y + 1 / 2 ∨ y = roundEven y - 1 / 2)) := by
  obtain ⟨k, f, h0, h1, rfl⟩ := exists_floor_add h
  rw [roundEven_add k h0 h1]
  split_ifs with hlt hgt
  · exact .inl ⟨f, h0, hlt, rfl⟩
  · refine .inr (.inl ⟨1 - f, by linarith, by linarith, ?_⟩)
    push_cast
    ring
  · have hf : f = 1 / 2 := le_antisymm (not_lt.mp hgt) (not_lt.mp hlt)
    refine .inr (.inr ?_)
    rcases mod_two_eq_zero_or_one k with hk | hk
    · rw [hk]
      exact ⟨even_iff.mpr hk, .inl (by rw [hf]; push_cast; ring)⟩
    · rw [hk]
      exact ⟨even_iff.mpr (by omega), .inr (by rw [hf]; push_cast; ring)⟩

theorem abs_sub_roundEven_le (h : 0 ≤ y) : |y - roundEven y| ≤ 1 / 2 := by
  rcases roundEven_cases h with ⟨f, h0, h1, hy⟩ | ⟨f, h0, h1, hy⟩ | ⟨-, hy | hy⟩ <;>
    · rw [abs_le]
      constructor <;> linarith

theorem one_le_abs_sub {m : ℕ} (h : m ≠ n) : (1 : ℚ) ≤ |(m : ℚ) - n| := by
  have h1 : (1 : ℤ) ≤ |(m : ℤ) - n| := Int.one_le_abs (by omega)
  exact_mod_cast h1

theorem roundEven_nearest (h : 0 ≤ y) (n : ℕ) : |y - roundEven y| ≤ |y - n| := by
  by_cases hn : n = roundEven y
  · rw [hn]
  · have h1 := abs_sub_roundEven_le h
    have h2 := one_le_abs_sub hn
    have h3 := abs_sub_le (n : ℚ) y (roundEven y)
    rw [abs_sub_comm (n : ℚ) y] at h3
    linarith

theorem le_of_nearest {r z : ℚ} (h : |y - r| ≤ |y - z|) (hz : y ≤ z) : r ≤ z := by
  by_contra hc
  rw [abs_of_nonpos (by linarith), abs_of_nonpos (by linarith)] at h
  linarith

theorem ge_of_nearest {r z : ℚ} (h : |y - r| ≤ |y - z|) (hz : z ≤ y) : z ≤ r := by
  by_contra hc
  rw [abs_of_nonneg (by linarith), abs_of_nonneg (by linarith)] at h
  linarith

theorem even_of_tie (h : 0 ≤ y) (hn : n ≠ roundEven y)
    (htie : |y - n| = |y - roundEven y|) : Even (roundEven y) := by
  have h2 := one_le_abs_sub hn
  have h3 := abs_sub_le (n : ℚ) y (roundEven y)
  rw [abs_sub_comm (n : ℚ) y] at h3
  rcases roundEven_cases h with ⟨f, h0, h1, hy⟩ | ⟨f, h0, h1, hy⟩ | ⟨he, -⟩
  · have : |y - roundEven y| < 1 / 2 := by rw [abs_lt]; constructor <;> linarith
    linarith
  · have : |y - roundEven y| < 1 / 2 := by rw [abs_lt]; constructor <;> linarith
    linarith
  · exact he

theorem roundEven_le (h : 0 ≤ y) (hn : y ≤ n) : roundEven y ≤ n := by
  exact_mod_cast le_of_nearest (roundEven_nearest h n) hn

theorem le_roundEven (hn : (n : ℚ) ≤ y) : n ≤ roundEven y := by
  exact_mod_cast ge_of_nearest (roundEven_nearest ((cast_nonneg n).trans hn) n) hn

/-- **The rounding of a quotient by an even number** `2 * H`, from the integer part `Q` of the
dividend and whether anything is below it. -/
theorem roundEven_div {Q H : ℕ} (hH : 0 < H) (hlo : (Q : ℚ) ≤ y) (hhi : y < Q + 1) :
    roundEven (y / (2 * H : ℕ)) = Q / (2 * H) +
      if H < Q % (2 * H) ∨ Q % (2 * H) = H ∧ (y ≠ Q ∨ Q / (2 * H) % 2 = 1) then 1 else 0 := by
  have hD : (0 : ℚ) < (2 * H : ℕ) := by positivity
  have hlt := mod_lt Q (show 0 < 2 * H by omega)
  have hQ : (Q : ℚ) = (2 * H : ℕ) * (Q / (2 * H) : ℕ) + (Q % (2 * H) : ℕ) := by
    exact_mod_cast (div_add_mod Q (2 * H)).symm
  generalize Q / (2 * H) = k at hQ ⊢
  generalize Q % (2 * H) = r at hQ hlt ⊢
  have hy : y / (2 * H : ℕ) = k + (y - Q + r) / (2 * H : ℕ) := by
    field_simp
    linarith
  have hr : (r : ℚ) + 1 ≤ (2 * H : ℕ) := by exact_mod_cast hlt
  have hhalf : ((2 * H : ℕ) : ℚ) = 2 * H := by push_cast; ring
  rw [hy, roundEven_add k (div_nonneg (by linarith [show (0 : ℚ) ≤ r from cast_nonneg r]) hD.le)
    ((div_lt_one hD).mpr (by linarith))]
  rcases lt_trichotomy r H with h | h | h
  · have h1 : (r : ℚ) + 1 ≤ H := by exact_mod_cast h
    rw [if_pos ((div_lt_iff₀ hD).mpr (by linarith)), if_neg (by omega), Nat.add_zero]
  · subst h
    rw [if_neg (not_lt.mpr ((le_div_iff₀ hD).mpr (by linarith)))]
    by_cases hyQ : y = Q
    · rw [if_neg (not_lt.mpr ((div_le_iff₀ hD).mpr (by linarith)))]
      rcases mod_two_eq_zero_or_one k with hk | hk
      · rw [hk, if_neg (by simp [hyQ])]
      · rw [hk, if_pos (by simp)]
    · have hlt' : (Q : ℚ) < y := lt_of_le_of_ne hlo (.symm hyQ)
      rw [if_pos ((lt_div_iff₀ hD).mpr (by linarith)), if_pos (by simp [hyQ])]
  · have h1 : (H : ℚ) + 1 ≤ r := by exact_mod_cast h
    rw [if_neg (not_lt.mpr ((le_div_iff₀ hD).mpr (by linarith))),
      if_pos ((lt_div_iff₀ hD).mpr (by linarith)), if_pos (.inl h)]

/-! ## To a binary format -/

/-- A binary format: the bits of its significands, the exponent of the last bit of its subnormal
numbers and that of its largest numbers. -/
structure Format where
  prec : ℕ
  emin : ℤ
  emax : ℤ
  two_le_prec : 2 ≤ prec

namespace Format

variable (F : Format)

/-- The numbers of the format, were there no bound on large exponents. -/
def Representable (z : ℚ) : Prop :=
  ∃ (m : ℕ) (e : ℤ), F.emin ≤ e ∧ m < 2 ^ F.prec ∧ z = m * 2 ^ e

def EvenSignificand (z : ℚ) : Prop :=
  ∃ (m : ℕ) (e : ℤ), F.emin ≤ e ∧ m < 2 ^ F.prec ∧ Even m ∧ z = m * 2 ^ e

/-- Halfway between two neighbouring numbers of the format. -/
def Midpoint (h : ℚ) : Prop :=
  ∃ (m : ℕ) (e : ℤ), F.emin ≤ e ∧ m < 2 ^ F.prec ∧ (e = F.emin ∨ 2 ^ (F.prec - 1) ≤ m) ∧
    h = (m + 1 / 2) * 2 ^ e

/-- `y` is the number of the format nearest to `x`, and the even one if there are two. -/
structure Nearest (x y : ℚ) : Prop where
  representable : F.Representable y
  nearest : ∀ z, F.Representable z → |x - y| ≤ |x - z|
  even : ∀ z, F.Representable z → z ≠ y → |x - z| = |x - y| → F.EvenSignificand y

/-- The exponent of the last bit kept of `x`. -/
def quantum (x : ℚ) : ℤ := max F.emin (Int.log 2 x - (F.prec - 1))

/-- The number of the format nearest to `x`. -/
def rnd (x : ℚ) : ℚ := roundEven (x / 2 ^ F.quantum x) * 2 ^ F.quantum x

def maxFinite : ℚ := (2 ^ F.prec - 1) * 2 ^ F.emax

variable {F} {x y z : ℚ} {e : ℤ} {k : ℕ}

theorem two_zpow_pos (e : ℤ) : (0 : ℚ) < 2 ^ e := zpow_pos two_pos e

theorem two_zpow_sub_one (e : ℤ) : (2 : ℚ) ^ e = 2 * 2 ^ (e - 1) := by
  rw [← zpow_one_add₀ two_ne_zero]
  congr 1
  ring

theorem two_zpow_natCast_add (n : ℕ) (e : ℤ) : (2 : ℚ) ^ (n + e) = ((2 ^ n : ℕ) : ℚ) * 2 ^ e := by
  rw [zpow_add₀ two_ne_zero, zpow_natCast]
  push_cast
  rfl

theorem two_zpow_mono {a b : ℤ} (h : a ≤ b) : (2 : ℚ) ^ a ≤ 2 ^ b :=
  zpow_le_zpow_right₀ one_le_two h

theorem lt_of_two_zpow_lt {a b : ℤ} (h : (2 : ℚ) ^ a < 2 ^ b) : a < b :=
  (zpow_lt_zpow_iff_right₀ one_lt_two).mp h

section Bits

variable {n m : ℕ}

theorem two_zpow_le_mul (h : 2 ^ n ≤ m) (e : ℤ) : (2 : ℚ) ^ (n + e) ≤ m * 2 ^ e := by
  rw [two_zpow_natCast_add]
  exact mul_le_mul_of_nonneg_right (by exact_mod_cast h) (two_zpow_pos e).le

theorem mul_le_two_zpow (h : m ≤ 2 ^ n) (e : ℤ) : (m : ℚ) * 2 ^ e ≤ 2 ^ (n + e) := by
  rw [two_zpow_natCast_add]
  exact mul_le_mul_of_nonneg_right (by exact_mod_cast h) (two_zpow_pos e).le

theorem mul_lt_two_zpow (h : m < 2 ^ n) (e : ℤ) : (m : ℚ) * 2 ^ e < 2 ^ (n + e) := by
  rw [two_zpow_natCast_add]
  exact mul_lt_mul_of_pos_right (by exact_mod_cast h) (two_zpow_pos e)

end Bits

theorem two_pow_prec (F : Format) : 2 ^ F.prec = 2 ^ (F.prec - 1) * 2 := by
  rw [← pow_succ, Nat.sub_add_cancel (one_le_two.trans F.two_le_prec)]

theorem carry_mul (F : Format) (e : ℤ) :
    ((2 ^ F.prec : ℕ) : ℚ) * 2 ^ e = ((2 ^ (F.prec - 1) : ℕ) : ℚ) * 2 ^ (e + 1) := by
  rw [F.two_pow_prec, zpow_add_one₀ two_ne_zero]
  push_cast
  ring

theorem representable_two_zpow (he : F.emin ≤ e) : F.Representable (2 ^ e) :=
  ⟨1, e, he, Nat.one_lt_two_pow (by have := F.two_le_prec; omega), by simp⟩

theorem rnd_zero : F.rnd 0 = 0 := by
  have h := roundEven_natCast 0
  rw [cast_zero] at h
  unfold rnd
  rw [zero_div, h]
  simp

theorem quantum_eq (he : F.emin ≤ e) (hx : 0 < x)
    (hlo : e = F.emin ∨ (2 : ℚ) ^ (e + (F.prec - 1)) ≤ x) (hhi : x < 2 ^ (e + F.prec)) :
    F.quantum x = e := by
  have h1 : Int.log 2 x < e + F.prec := by
    rw [← Int.lt_zpow_iff_log_lt one_lt_two hx]
    exact_mod_cast hhi
  unfold quantum
  rcases hlo with rfl | hlo
  · exact max_eq_left (by omega)
  · have h2 : e + (F.prec - 1) ≤ Int.log 2 x := by
      rw [← Int.zpow_le_iff_le_log one_lt_two hx]
      exact_mod_cast hlo
    rw [max_eq_right (by omega)]
    omega

theorem quantum_window (hx : 0 < x) : F.emin ≤ F.quantum x ∧
    (F.quantum x = F.emin ∨ (2 : ℚ) ^ (F.quantum x + (F.prec - 1)) ≤ x) ∧
    x < 2 ^ (F.quantum x + F.prec) := by
  have hlt : x < (2 : ℚ) ^ (Int.log 2 x + 1) := by
    exact_mod_cast Int.lt_zpow_succ_log_self one_lt_two x
  have hle : (2 : ℚ) ^ Int.log 2 x ≤ x := by
    exact_mod_cast Int.zpow_log_le_self one_lt_two hx
  unfold quantum
  refine ⟨le_max_left _ _, ?_, ?_⟩
  · rcases max_choice F.emin (Int.log 2 x - (F.prec - 1)) with h | h
    · exact .inl h
    · rw [h, sub_add_cancel]
      exact .inr hle
  · refine hlt.trans_le (zpow_le_zpow_right₀ one_le_two ?_)
    have := le_max_right F.emin (Int.log 2 x - (F.prec - 1))
    omega

/-- **The rounding read off from a window** of the exponent range that holds the number. -/
theorem rnd_eq_of_window (he : F.emin ≤ e) (hx : 0 ≤ x)
    (hlo : e = F.emin ∨ (2 : ℚ) ^ (e + (F.prec - 1)) ≤ x) (hhi : x < 2 ^ (e + F.prec)) :
    F.rnd x = roundEven (x / 2 ^ e) * 2 ^ e := by
  rcases hx.eq_or_lt with rfl | hpos
  · have h := roundEven_natCast 0
    rw [cast_zero] at h
    rw [rnd_zero, zero_div, h]
    simp
  · unfold rnd
    rw [quantum_eq he hpos hlo hhi]

theorem window_of_floor (hk : k < 2 ^ F.prec) (hn : e = F.emin ∨ 2 ^ (F.prec - 1) ≤ k)
    (hlo : (k : ℚ) * 2 ^ e ≤ x) (hhi : x < (k + 1) * 2 ^ e) :
    (e = F.emin ∨ (2 : ℚ) ^ (e + (F.prec - 1)) ≤ x) ∧ x < 2 ^ (e + F.prec) := by
  have hp := F.two_le_prec
  constructor
  · refine hn.imp id fun h => le_trans ?_ hlo
    exact (two_zpow_mono (by omega)).trans (two_zpow_le_mul h e)
  · have hle := mul_le_two_zpow (m := k + 1) hk e
    rw [add_comm e]
    push_cast at hle
    exact hhi.trans_le hle

section

variable (he : F.emin ≤ e) (hk : k < 2 ^ F.prec) (hn : e = F.emin ∨ 2 ^ (F.prec - 1) ≤ k)
include he hk hn

theorem rnd_eq_of_floor {f : ℚ} (h0 : 0 ≤ f) (h1 : f < 1) : F.rnd ((k + f) * 2 ^ e) =
      (if f < 1 / 2 then k else if 1 / 2 < f then k + 1 else k + k % 2 : ℕ) * 2 ^ e := by
  have hpos := two_zpow_pos e
  have hlo : (k : ℚ) * 2 ^ e ≤ (k + f) * 2 ^ e := by nlinarith
  have hhi : (k + f) * 2 ^ e < (k + 1) * (2 : ℚ) ^ e := by nlinarith
  obtain ⟨h2, h3⟩ := window_of_floor hk hn hlo hhi
  rw [rnd_eq_of_window he (le_trans (by positivity) hlo) h2 h3,
    mul_div_assoc, div_self hpos.ne', mul_one, roundEven_add k h0 h1]

theorem rnd_of_lt_half (hlo : (k : ℚ) * 2 ^ e ≤ x)
    (hhi : x < (k + 1 / 2) * 2 ^ e) : F.rnd x = k * 2 ^ e := by
  have hpos := two_zpow_pos e
  have h1 : (k : ℚ) ≤ x / 2 ^ e := (le_div_iff₀ hpos).mpr hlo
  have h2 : x / 2 ^ e < k + 1 / 2 := (div_lt_iff₀ hpos).mpr hhi
  have h := rnd_eq_of_floor he hk hn (f := x / 2 ^ e - k) (by linarith) (by linarith)
  rw [if_pos (by linarith), add_sub_cancel, div_mul_cancel₀ _ hpos.ne'] at h
  exact h

theorem rnd_of_half_lt (hlo : ((k : ℚ) + 1 / 2) * 2 ^ e < x)
    (hhi : x < (k + 1) * 2 ^ e) : F.rnd x = (k + 1) * 2 ^ e := by
  have hpos := two_zpow_pos e
  have h1 : (k : ℚ) + 1 / 2 < x / 2 ^ e := (lt_div_iff₀ hpos).mpr hlo
  have h2 : x / 2 ^ e < k + 1 := (div_lt_iff₀ hpos).mpr hhi
  have h := rnd_eq_of_floor he hk hn (f := x / 2 ^ e - k) (by linarith) (by linarith)
  rw [if_neg (by linarith), if_pos (by linarith), add_sub_cancel,
    div_mul_cancel₀ _ hpos.ne'] at h
  push_cast at h
  exact h

end

/-! ## The nearest number -/

theorem representable_mul (he : F.emin ≤ e) (hk : k ≤ 2 ^ F.prec) :
    F.Representable (k * 2 ^ e) := by
  have hp := F.two_le_prec
  rcases hk.lt_or_eq with h | h
  · exact ⟨k, e, he, h, rfl⟩
  · refine ⟨2 ^ (F.prec - 1), e + 1, by omega, Nat.pow_lt_pow_right one_lt_two (by omega), ?_⟩
    rw [h, F.carry_mul]

theorem evenSignificand_mul (he : F.emin ≤ e) (hk : k ≤ 2 ^ F.prec) (hev : Even k) :
    F.EvenSignificand (k * 2 ^ e) := by
  have hp := F.two_le_prec
  rcases hk.lt_or_eq with h | h
  · exact ⟨k, e, he, h, hev, rfl⟩
  · refine ⟨2 ^ (F.prec - 1), e + 1, by omega, Nat.pow_lt_pow_right one_lt_two (by omega),
      (even_pow.mpr ⟨even_two, by omega⟩), ?_⟩
    rw [h, F.carry_mul]

/-- Any number of the format is a multiple of a given quantum or below the window of the quantum. -/
theorem Representable.cases (h : F.Representable z) (e : ℤ) :
    (∃ j : ℕ, z = j * 2 ^ e) ∨ (F.emin < e ∧ z < 2 ^ (e + (F.prec - 1))) := by
  obtain ⟨m, f, hf, hm, rfl⟩ := h
  rcases le_or_gt e f with hef | hef
  · refine .inl ⟨m * 2 ^ (f - e).toNat, ?_⟩
    have h1 : f = ((f - e).toNat : ℤ) + e := by omega
    rw [h1, two_zpow_natCast_add]
    have h2 : (((f - e).toNat : ℤ) + e - e).toNat = (f - e).toNat := by omega
    rw [h2]
    push_cast
    ring
  · refine .inr ⟨by omega, ?_⟩
    exact (mul_lt_two_zpow hm f).trans_le (two_zpow_mono (by omega))

theorem roundEven_quantum_le (hx : 0 < x) : roundEven (x / 2 ^ F.quantum x) ≤ 2 ^ F.prec := by
  obtain ⟨-, -, h⟩ := quantum_window (F := F) hx
  have hpos := two_zpow_pos (F.quantum x)
  refine roundEven_le (by positivity) ?_
  rw [div_le_iff₀ hpos, ← two_zpow_natCast_add, add_comm]
  exact h.le

theorem abs_sub_mul_zpow (x n : ℚ) (e : ℤ) : |x - n * 2 ^ e| = |x / 2 ^ e - n| * 2 ^ e := by
  have hpos := two_zpow_pos e
  rw [← abs_of_pos hpos, ← abs_mul, abs_of_pos hpos, sub_mul, div_mul_cancel₀ _ hpos.ne']

/-- **The rounding is the nearest number of the format**, and the even one if there are two. -/
theorem nearest_rnd (hx : 0 ≤ x) : F.Nearest x (F.rnd x) := by
  have hp := F.two_le_prec
  rcases hx.eq_or_lt with rfl | hpos
  · rw [rnd_zero]
    refine ⟨⟨0, F.emin, le_rfl, by positivity, by simp⟩, fun z _ => by simp, fun z _ hz h => ?_⟩
    simp only [zero_sub, abs_neg, sub_zero, abs_zero, abs_eq_zero] at h
    exact absurd h hz
  · obtain ⟨he, hlo, hhi⟩ := quantum_window (F := F) hpos
    have hq := two_zpow_pos (F.quantum x)
    have hle := roundEven_quantum_le (F := F) hpos
    have h0 : 0 ≤ x / 2 ^ F.quantum x := by positivity
    -- below the window, its first number is nearer
    have hbelow : ∀ z, F.emin < F.quantum x → z < (2 : ℚ) ^ (F.quantum x + (F.prec - 1)) →
        |x - F.rnd x| < |x - z| := by
      intro z h1 h2
      have hb := hlo.resolve_left (by omega)
      have h3 : (2 : ℚ) ^ (F.quantum x + (F.prec - 1)) =
          ((2 ^ (F.prec - 1) : ℕ) : ℚ) * 2 ^ F.quantum x := by
        rw [← two_zpow_natCast_add]
        congr 1
        omega
      have h4 : |x - F.rnd x| ≤ |x - 2 ^ (F.quantum x + (F.prec - 1))| := by
        rw [h3]
        unfold rnd
        rw [abs_sub_mul_zpow, abs_sub_mul_zpow]
        exact mul_le_mul_of_nonneg_right (roundEven_nearest h0 _) hq.le
      rw [abs_of_nonneg (by linarith : (0 : ℚ) ≤ x - 2 ^ (F.quantum x + (F.prec - 1)))] at h4
      rw [abs_of_pos (by linarith : 0 < x - z)]
      linarith
    refine ⟨representable_mul he hle, fun z hz => ?_, fun z hz hne htie => ?_⟩
    · rcases hz.cases (F.quantum x) with ⟨j, rfl⟩ | ⟨h1, h2⟩
      · unfold rnd
        rw [abs_sub_mul_zpow, abs_sub_mul_zpow]
        exact mul_le_mul_of_nonneg_right (roundEven_nearest h0 j) hq.le
      · exact (hbelow z h1 h2).le
    · rcases hz.cases (F.quantum x) with ⟨j, rfl⟩ | ⟨h1, h2⟩
      · unfold rnd at hne htie
        rw [abs_sub_mul_zpow, abs_sub_mul_zpow] at htie
        refine evenSignificand_mul he hle (even_of_tie h0 (n := j) ?_ ?_)
        · rintro rfl
          exact hne rfl
        · exact mul_right_cancel₀ hq.ne' htie
      · exact absurd htie (hbelow z h1 h2).ne'

theorem rnd_le (hx : 0 ≤ x) (hz : F.Representable z) (h : x ≤ z) : F.rnd x ≤ z :=
  le_of_nearest ((nearest_rnd hx).nearest z hz) h

theorem le_rnd (hx : 0 ≤ x) (hz : F.Representable z) (h : z ≤ x) : z ≤ F.rnd x :=
  ge_of_nearest ((nearest_rnd hx).nearest z hz) h

theorem rnd_mono (hx : 0 ≤ x) (hxy : x ≤ y) : F.rnd x ≤ F.rnd y := by
  rcases hxy.eq_or_lt with rfl | hlt
  · exact le_rfl
  have hnx := nearest_rnd (F := F) hx
  have hny := nearest_rnd (F := F) (hx.trans hxy)
  by_contra hc
  have h1 : y < F.rnd x := not_le.mp fun h => hc (ge_of_nearest (hny.nearest _ hnx.representable) h)
  have h2 : F.rnd y < x := not_le.mp fun h => hc (le_of_nearest (hnx.nearest _ hny.representable) h)
  have h3 := hnx.nearest _ hny.representable
  have h4 := hny.nearest _ hnx.representable
  rw [abs_of_neg (by linarith), abs_of_pos (by linarith)] at h3
  rw [abs_of_pos (by linarith), abs_of_neg (by linarith)] at h4
  linarith

theorem rnd_eq_self (hx : 0 ≤ x) (h : F.Representable x) : F.rnd x = x :=
  le_antisymm (rnd_le hx h le_rfl) (le_rnd hx h le_rfl)

theorem rnd_nonneg : 0 ≤ F.rnd x := mul_nonneg (cast_nonneg _) (two_zpow_pos _).le

theorem Representable.gap (hy : F.Representable y) (hz : F.Representable z) (hyz : y < z) :
    z ≤ (z - y) * 2 ^ F.prec := by
  obtain ⟨j, f, -, hj, rfl⟩ := hy
  obtain ⟨m, e, -, hm, rfl⟩ := hz
  -- both are multiples of the smaller unit, and one of them fewer than `2 ^ prec` of it
  obtain ⟨J, M, g, hJ, hM, hP⟩ : ∃ (J M : ℕ) (g : ℤ), (j : ℚ) * 2 ^ f = J * 2 ^ g ∧
      (m : ℚ) * 2 ^ e = M * 2 ^ g ∧ (M < 2 ^ F.prec ∨ J < 2 ^ F.prec) := by
    rcases le_total e f with h | h
    · obtain ⟨d, rfl⟩ : ∃ d : ℕ, f = d + e := ⟨(f - e).toNat, by omega⟩
      refine ⟨j * 2 ^ d, m, e, ?_, rfl, .inl hm⟩
      rw [two_zpow_natCast_add, cast_mul, mul_assoc]
    · obtain ⟨d, rfl⟩ : ∃ d : ℕ, e = d + f := ⟨(e - f).toNat, by omega⟩
      refine ⟨j, m * 2 ^ d, f, rfl, ?_, .inr hj⟩
      rw [two_zpow_natCast_add, cast_mul, mul_assoc]
  have hpos := two_zpow_pos g
  rw [hJ, hM] at hyz ⊢
  have hlt : (J : ℚ) + 1 ≤ M := by
    have : J < M := by exact_mod_cast lt_of_mul_lt_mul_right hyz hpos.le
    exact_mod_cast this
  rw [← sub_mul, mul_right_comm]
  refine mul_le_mul_of_nonneg_right ?_ hpos.le
  rcases hP with h | h
  · have : (M : ℚ) + 1 ≤ 2 ^ F.prec := by exact_mod_cast h
    nlinarith
  · have : (J : ℚ) + 1 ≤ 2 ^ F.prec := by exact_mod_cast h
    nlinarith

/-- **A number of the format is recovered from anything close to it.** -/
theorem rnd_eq_of_close (hx : F.Representable x) (hy : 0 ≤ y)
    (h : |y - x| * 2 * 2 ^ F.prec < x) : F.rnd y = x := by
  have hnear := (nearest_rnd (F := F) hy).nearest x hx
  have hrep := (nearest_rnd (F := F) hy).representable
  have hdist : |F.rnd y - x| ≤ |y - x| * 2 := by
    calc |F.rnd y - x| = |(y - x) - (y - F.rnd y)| := by ring_nf
      _ ≤ |y - x| + |y - F.rnd y| := abs_sub _ _
      _ ≤ |y - x| * 2 := by linarith
  have hp : (0 : ℚ) < 2 ^ F.prec := by positivity
  by_contra hne
  rcases lt_or_gt_of_ne hne with hlt | hlt
  · have hgap := hrep.gap hx hlt
    rw [abs_sub_comm, abs_of_pos (sub_pos.mpr hlt)] at hdist
    nlinarith
  · have hgap := hx.gap hrep hlt
    rw [abs_of_pos (sub_pos.mpr hlt)] at hdist
    nlinarith

theorem rnd_eq_zero (hx : 0 ≤ x) (h : x < 2 ^ (F.emin - 1)) : F.rnd x = 0 := by
  have h2 := two_zpow_sub_one F.emin
  have h3 := rnd_of_lt_half (F := F) (e := F.emin) (k := 0) le_rfl (by positivity) (.inl rfl)
    (by simpa using hx) (by push_cast; linarith)
  simpa using h3

end Format

/-- A floating-point datum: a sign and a magnitude, an infinity or not a number. -/
inductive Value where
  | finite (neg : Bool) (mag : ℚ)
  | inf (neg : Bool)
  | nan (neg : Bool)
deriving DecidableEq

def Value.negate : Value → Value
  | finite neg x => finite (!neg) x
  | inf neg => inf (!neg)
  | nan neg => nan (!neg)

namespace Format

variable (F : Format)

/-- The datum of the format for the magnitude `x`: its rounding, or an infinity when the rounding is
above the largest number. -/
def round (neg : Bool) (x : ℚ) : Value :=
  if F.maxFinite < F.rnd x then .inf neg else .finite neg (F.rnd x)

/-- The rounding as a significand below `2 ^ prec` and an exponent. -/
def significand (x : ℚ) : ℕ × ℤ :=
  let e := F.quantum x
  let n := roundEven (x / 2 ^ e)
  if n = 2 ^ F.prec then (2 ^ (F.prec - 1), e + 1) else (n, e)

/-- The conversion of a datum to the format. -/
def convert : Value → Value
  | .finite neg x => F.round neg x
  | v => v

/-- `v` is the datum nearest to the magnitude `x` with the sign `neg`, ties to even: an infinity
when the nearest number of the unbounded format is above the largest number. -/
def Rounds (neg : Bool) (x : ℚ) (v : Value) : Prop :=
  ∃ y, F.Nearest x y ∧ v = if F.maxFinite < y then .inf neg else .finite neg y

variable {F} {x : ℚ}

theorem rounds_round (neg : Bool) (hx : 0 ≤ x) : F.Rounds neg x (F.round neg x) :=
  ⟨F.rnd x, nearest_rnd hx, rfl⟩

theorem maxFinite_lt : F.maxFinite < 2 ^ (F.prec + F.emax) := by
  unfold maxFinite
  rw [two_zpow_natCast_add]
  push_cast
  exact mul_lt_mul_of_pos_right (by linarith) (two_zpow_pos _)

theorem two_zpow_le_maxFinite (h : e ≤ F.emax) : 2 ^ e ≤ F.maxFinite := by
  have hp : (2 : ℚ) ≤ 2 ^ F.prec := le_self_pow₀ one_le_two (by have := F.two_le_prec; omega)
  exact (zpow_le_zpow_right₀ one_le_two h).trans
    (le_mul_of_one_le_left (two_zpow_pos _).le (by linarith))

theorem mul_le_maxFinite {k : ℕ} (hk : k < 2 ^ F.prec) (he : e ≤ F.emax) :
    (k : ℚ) * 2 ^ e ≤ F.maxFinite := by
  have h1 : (k : ℚ) + 1 ≤ 2 ^ F.prec := by exact_mod_cast hk
  have h2 : (k : ℚ) ≤ 2 ^ F.prec - 1 := by linarith
  exact mul_le_mul h2 (two_zpow_mono he) (two_zpow_pos e).le ((cast_nonneg k).trans h2)

theorem maxFinite_nonneg : 0 ≤ F.maxFinite :=
  (two_zpow_pos _).le.trans (two_zpow_le_maxFinite le_rfl)

theorem significand_spec (hx : 0 < x) : (F.significand x).1 < 2 ^ F.prec ∧
    F.emin ≤ (F.significand x).2 ∧
    ((F.significand x).2 = F.emin ∨ 2 ^ (F.prec - 1) ≤ (F.significand x).1) ∧
    ((F.significand x).1 : ℚ) * 2 ^ (F.significand x).2 = F.rnd x := by
  have hp := F.two_le_prec
  obtain ⟨he, hlo, -⟩ := quantum_window (F := F) hx
  have hle := roundEven_quantum_le (F := F) hx
  have hq := two_zpow_pos (F.quantum x)
  simp only [significand]
  split_ifs with h
  · refine ⟨Nat.pow_lt_pow_right one_lt_two (by omega), by omega, .inr le_rfl, ?_⟩
    unfold rnd
    rw [h, F.carry_mul]
  · refine ⟨lt_of_le_of_ne hle h, he, hlo.imp id fun hlo => ?_, rfl⟩
    refine le_roundEven ((le_div_iff₀ hq).mpr ?_)
    rw [← two_zpow_natCast_add]
    exact (two_zpow_mono (by omega)).trans hlo

/-- **Two numbers with no midpoint between them round alike.** -/
theorem rnd_eq_of_no_midpoint (hx : 0 ≤ x) (hxy : x ≤ y)
    (hmid : ∀ h, F.Midpoint h → x ≤ h → y < h) : F.rnd x = F.rnd y := by
  rcases hx.eq_or_lt with rfl | hpos
  · -- the first midpoint is half the least number
    have hm : F.Midpoint ((0 + 1 / 2) * 2 ^ F.emin) :=
      ⟨0, F.emin, le_rfl, by positivity, .inl rfl, by push_cast; ring⟩
    have h1 := hmid _ hm (by positivity)
    have h2 := two_zpow_sub_one F.emin
    rw [rnd_zero, rnd_eq_zero hxy (by linarith)]
  · obtain ⟨hk, he, hn, hrnd⟩ := significand_spec (F := F) hpos
    generalize (F.significand x).1 = k, (F.significand x).2 = e at hk he hn hrnd
    have hq := two_zpow_pos e
    -- the midpoint above the rounded number is not below `x`
    have hle : x ≤ (k + 1 / 2) * 2 ^ e := by
      by_contra hc
      rcases lt_or_ge x ((k + 1) * 2 ^ e) with h | h
      · rw [rnd_of_half_lt he hk hn (not_le.mp hc) h] at hrnd
        linarith
      · have hrep := representable_mul (F := F) he (succ_le_of_lt hk)
        have := le_rnd hx hrep (by push_cast; exact h)
        push_cast at this
        linarith
    have hy := hmid _ ⟨k, e, he, hk, hn, rfl⟩ hle
    rcases le_or_gt ((k : ℚ) * 2 ^ e) y with h | h
    · rw [← hrnd, rnd_of_lt_half he hk hn h hy]
    · refine le_antisymm (rnd_mono hx hxy) ?_
      rw [← hrnd]
      exact rnd_le (hx.trans hxy) ⟨k, e, he, hk, rfl⟩ h.le

theorem negate_round (neg : Bool) :
    (if neg then (F.round false x).negate else F.round false x) = F.round neg x := by
  unfold round
  cases neg
  · rfl
  · by_cases h : F.maxFinite < F.rnd x
    · simp [h, Value.negate]
    · simp [h, Value.negate]

theorem round_eq_finite (neg : Bool) (hx : 0 ≤ x) (h : F.Representable x) (hmax : x ≤ F.maxFinite) :
    F.round neg x = .finite neg x := by
  unfold round
  rw [rnd_eq_self hx h, if_neg (not_lt.mpr hmax)]

theorem convert_round (neg : Bool) (hx : 0 ≤ x) : F.convert (F.round neg x) = F.round neg x := by
  unfold round
  split_ifs with h
  · rfl
  · exact round_eq_finite neg rnd_nonneg (nearest_rnd hx).representable (not_lt.mp h)

theorem rounds_convert {v : Value} (hx : 0 ≤ x) {neg : Bool} (h : v = F.round neg x) :
    F.Rounds neg x (F.convert v) := by
  rw [h, convert_round neg hx]
  exact rounds_round neg hx

/-- There is one nearest number: of two even ones, neither is a neighbour of the other. -/
theorem Nearest.le (h : F.Nearest x y) (h' : F.Nearest x z) : z ≤ y := by
  by_contra hlt
  rw [not_le] at hlt
  have habs : |x - z| = |x - y| :=
    le_antisymm (h'.nearest y h.representable) (h.nearest z h'.representable)
  have hx : x = (y + z) / 2 := by
    rcases abs_eq_abs.mp habs with h1 | h1 <;> linarith
  have hno : ∀ v, F.Representable v → y < v → ¬ v < z := by
    intro v hv h1 h2
    have hv' := h.nearest v hv
    have : |x - v| < (z - y) / 2 := abs_lt.mpr ⟨by linarith, by linarith⟩
    rw [abs_of_pos (show 0 < x - y by linarith)] at hv'
    linarith
  obtain ⟨m, e, he, hm, hev, rfl⟩ := h.even z h'.representable hlt.ne' habs
  obtain ⟨m', e', he', hm', hev', rfl⟩ := h'.even _ h.representable hlt.ne habs.symm
  have hscale : ∀ {m : ℕ} {e e' : ℤ}, Even m → e' ≤ e →
      ∃ a : ℕ, Even a ∧ (m : ℚ) * 2 ^ e = a * 2 ^ e' := by
    intro m e e' hm he
    obtain ⟨j, rfl⟩ : ∃ j : ℕ, e = j + e' := ⟨(e - e').toNat, by omega⟩
    refine ⟨m * 2 ^ j, hm.mul_right _, ?_⟩
    rw [two_zpow_natCast_add]
    push_cast
    ring
  rcases le_total e e' with hee | hee
  · obtain ⟨b, hb, heq⟩ := hscale hev' hee
    rw [heq] at hlt hno
    have hmb : m < b := by exact_mod_cast lt_of_mul_lt_mul_right hlt (two_zpow_pos e).le
    have hmb' : m + 1 < b := by
      obtain ⟨i, rfl⟩ := hev
      obtain ⟨j, rfl⟩ := hb
      omega
    refine hno _ (representable_mul he (succ_le_of_lt hm)) ?_ ?_
    · exact mul_lt_mul_of_pos_right (by exact_mod_cast lt_succ_self m) (two_zpow_pos e)
    · exact mul_lt_mul_of_pos_right (by exact_mod_cast hmb') (two_zpow_pos e)
  · obtain ⟨a, ha, heq⟩ := hscale hev hee
    rw [heq] at hlt hno
    have ham : a < m' := by exact_mod_cast lt_of_mul_lt_mul_right hlt (two_zpow_pos e').le
    have ham' : a + 1 < m' := by
      obtain ⟨i, rfl⟩ := ha
      obtain ⟨j, rfl⟩ := hev'
      omega
    refine hno _ (representable_mul he' (ham'.trans hm').le) ?_ ?_
    · exact mul_lt_mul_of_pos_right (by exact_mod_cast lt_succ_self a) (two_zpow_pos e')
    · exact mul_lt_mul_of_pos_right (by exact_mod_cast ham') (two_zpow_pos e')

/-- The rounded value is the only one. -/
theorem Rounds.eq_round {neg : Bool} {v : Value} (hx : 0 ≤ x) (h : F.Rounds neg x v) :
    v = F.round neg x := by
  obtain ⟨y, hy, rfl⟩ := h
  have hr := nearest_rnd (F := F) hx
  rw [le_antisymm (hr.le hy) (hy.le hr)]
  rfl

end Format

end Citadel.Lib.Rounding
