import Mathlib.Tactic

/-!
# Eight-bit lanes of a number

A number below `256 ^ n` is `n` bytes side by side. The test for a zero among them subtracts one
from each at once; a borrow only starts at a zero, so the lowest zero byte is always seen.

* `hasZero_ofDigits`: the test answers for the bytes.
* `xor_ofDigits`: exclusive or acts on each byte.
-/

namespace Citadel.Lib.Lanes

open List Nat

/-- One in each of `n` bytes. -/
def ones : ℕ → ℕ
  | 0 => 0
  | n + 1 => 1 + 256 * ones n

/-- `(x - ones) & ~x & highs` on `n` bytes. -/
def hasZero (n x : ℕ) : ℕ := (256 ^ n - ones n + x) % 256 ^ n &&& (256 ^ n - 1 - x) &&& ones n * 128

theorem ones_lt (n : ℕ) : ones n < 256 ^ n := by
  induction n with
  | zero => decide
  | succ n ih =>
    rw [ones, pow_succ]
    omega

variable {n b c x y : ℕ} {ds : List ℕ}

theorem hasZero_byte (hb : b < 256) : (b + 255) % 256 &&& (255 - b) &&& 128 ≠ 0 ↔ b = 0 := by
  revert b
  decide +kernel

/-- The lowest byte is seen if it is zero; if not, nothing is borrowed from the others. -/
theorem hasZero_cons (hb : b < 256) (hy : y < 256 ^ n) :
    hasZero (n + 1) (b + 256 * y) ≠ 0 ↔ b = 0 ∨ hasZero n y ≠ 0 := by
  have hlt := ones_lt n
  have hmod : hasZero (n + 1) (b + 256 * y) % 2 ^ 8 = (b + 255) % 256 &&& (255 - b) &&& 128 := by
    unfold hasZero
    rw [and_mod_two_pow, and_mod_two_pow, ones, pow_succ', show (2 : ℕ) ^ 8 = 256 from rfl,
      mod_mul_right_mod]
    congr 2 <;> omega
  have hdiv : b ≠ 0 → hasZero (n + 1) (b + 256 * y) / 2 ^ 8 = hasZero n y := by
    intro h0
    unfold hasZero
    rw [and_div_two_pow, and_div_two_pow, ones, pow_succ', show (2 : ℕ) ^ 8 = 256 from rfl,
      mod_mul_right_div_self]
    congr 2
    · congr 1
      omega
    · omega
    · omega
  have hsplit : hasZero (n + 1) (b + 256 * y) ≠ 0 ↔ hasZero (n + 1) (b + 256 * y) % 2 ^ 8 ≠ 0 ∨
      hasZero (n + 1) (b + 256 * y) / 2 ^ 8 ≠ 0 := by
    omega
  rw [hsplit, hmod, hasZero_byte hb]
  by_cases h0 : b = 0
  · simp [h0]
  · rw [hdiv h0]

theorem hasZero_ofDigits (h : ∀ d ∈ ds, d < 256) :
    hasZero ds.length (ofDigits 256 ds) ≠ 0 ↔ 0 ∈ ds := by
  induction ds with
  | nil => simp [hasZero]
  | cons d ds ih =>
    obtain ⟨hd, hds⟩ := forall_mem_cons.mp h
    rw [length_cons, ofDigits_cons, hasZero_cons hd (ofDigits_lt_base_pow_length (by norm_num) hds),
      ih hds, mem_cons, eq_comm]

theorem xor_ofDigits (hc : c < 256) (h : ∀ d ∈ ds, d < 256) :
    ofDigits 256 ds ^^^ ones ds.length * c = ofDigits 256 (ds.map (· ^^^ c)) := by
  induction ds with
  | nil => simp [ones]
  | cons d ds ih =>
    obtain ⟨hd, hds⟩ := forall_mem_cons.mp h
    rw [map_cons, ofDigits_cons, ofDigits_cons, ← ih hds, length_cons, ones,
      show (1 + 256 * ones ds.length) * c = c + 256 * (ones ds.length * c) by ring]
    generalize ofDigits 256 ds = x, ones ds.length * c = y
    have hsplit := mod_add_div ((d + 256 * x) ^^^ (c + 256 * y)) (2 ^ 8)
    rw [xor_mod_two_pow, xor_div_two_pow, show (d + 256 * x) % 2 ^ 8 = d by omega,
      show (c + 256 * y) % 2 ^ 8 = c by omega, show (d + 256 * x) / 2 ^ 8 = x by omega,
      show (c + 256 * y) / 2 ^ 8 = y by omega] at hsplit
    exact hsplit.symm

end Citadel.Lib.Lanes
