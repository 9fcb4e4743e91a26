import Mathlib.Tactic

/-!
# Positional expansions of fixed length

`expand b p n` lists the last `p` digits of `n` in base `b`, most significant first, and `horner b`
reads such a list back.

* `expand_add`: an expansion splits at any place.
* `horner_expand`: reading back an expansion.
* `mod_pow_eq_zero_iff`, `mod_pow_of_largest`: numbers that end in zeros or in the largest digit.
* `div_pow_succ_mod`: the digits of a successor, from the lowest digit that does not overflow.
-/

namespace Citadel.Lib.Positional

open List

variable {b p q n : ℕ}

/-- The last `p` digits of `n`, most significant first. -/
def expand (b p n : ℕ) : List ℕ := (List.range p).map fun i => n / b ^ (p - 1 - i) % b

/-- The number with the given digits. -/
def horner (b : ℕ) (ds : List ℕ) : ℕ := ds.foldl (fun v d => v * b + d) 0

@[simp] theorem expand_zero : expand b 0 n = [] := rfl

@[simp] theorem length_expand : (expand b p n).length = p := by
  simp [expand]

theorem expand_succ (b p n : ℕ) : expand b (p + 1) n = expand b p (n / b) ++ [n % b] := by
  unfold expand
  rw [range_succ, map_append, map_singleton]
  congr 1
  · refine map_congr_left fun i hi => ?_
    have hi : i < p := mem_range.mp hi
    rw [Nat.div_div_eq_div_mul, ← pow_succ', show p - 1 - i + 1 = p + 1 - 1 - i by omega]
  · simp

theorem expand_add (b p q n : ℕ) : expand b (p + q) n = expand b p (n / b ^ q) ++ expand b q n := by
  induction q generalizing n with
  | zero => simp
  | succ q ih =>
    rw [← Nat.add_assoc, expand_succ, ih, expand_succ, Nat.div_div_eq_div_mul, ← pow_succ',
      append_assoc]

theorem expand_mul_pow (hb : 0 < b) (p n : ℕ) : expand b p (n * b ^ p) = List.replicate p 0 := by
  induction p with
  | zero => rfl
  | succ p ih =>
    rw [expand_succ, pow_succ, ← Nat.mul_assoc, Nat.mul_div_cancel _ hb, ih, Nat.mul_mod_left,
      replicate_succ']

theorem lt_of_mem_expand (hb : 0 < b) {d : ℕ} (h : d ∈ expand b p n) : d < b := by
  obtain ⟨i, -, rfl⟩ := mem_map.mp h
  exact Nat.mod_lt _ hb

theorem horner_expand (b p n : ℕ) : horner b (expand b p n) = n % b ^ p := by
  induction p generalizing n with
  | zero => simp [horner, Nat.mod_one]
  | succ p ih =>
    unfold horner at ih ⊢
    rw [expand_succ, foldl_append, ih, foldl_cons, foldl_nil, pow_succ',
      Nat.mod_mul, Nat.mul_comm, Nat.add_comm]

theorem foldl_eq_horner (ds : List ℕ) (v : ℕ) :
    ds.foldl (fun v d => v * b + d) v = v * b ^ ds.length + horner b ds := by
  induction ds generalizing v with
  | nil => simp [horner]
  | cons d ds ih =>
    rw [horner, foldl_cons, foldl_cons, ih, ih (0 * b + d), length_cons, pow_succ]
    ring

theorem horner_append (ds es : List ℕ) :
    horner b (ds ++ es) = horner b ds * b ^ es.length + horner b es := by
  rw [← foldl_eq_horner, horner, foldl_append, horner]

theorem horner_cons (d : ℕ) (ds : List ℕ) :
    horner b (d :: ds) = d * b ^ ds.length + horner b ds := by
  rw [← foldl_eq_horner, horner, foldl_cons, Nat.zero_mul, Nat.zero_add]

theorem horner_lt {ds : List ℕ} (h : ∀ d ∈ ds, d < b) : horner b ds < b ^ ds.length := by
  induction ds with
  | nil => simp [horner]
  | cons d ds ih =>
    obtain ⟨h1, h2⟩ := forall_mem_cons.mp h
    have h3 := Nat.mul_le_mul_right (b ^ ds.length) (Nat.succ_le_of_lt h1)
    have h4 := ih h2
    rw [Nat.succ_mul] at h3
    rw [horner_cons, length_cons, pow_succ']
    omega

theorem mod_pow_eq_zero_iff (b n t : ℕ) : n % b ^ t = 0 ↔ ∀ k < t, n / b ^ k % b = 0 := by
  induction t with
  | zero => simp [Nat.mod_one]
  | succ t ih =>
    rw [Nat.mod_pow_succ, Nat.add_eq_zero_iff, ih]
    constructor
    · rintro ⟨h1, h2⟩ k hk
      rcases Nat.lt_succ_iff_lt_or_eq.mp hk with hk | rfl
      · exact h1 k hk
      · rcases Nat.mul_eq_zero.mp h2 with h | h
        · obtain rfl : b = 0 := (Nat.pow_eq_zero.mp h).1
          simp [(Nat.pow_eq_zero.mp h).2]
        · exact h
    · intro h
      exact ⟨fun k hk => h k (by omega), by rw [h t (by omega), Nat.mul_zero]⟩

/-! ## The digits of a successor -/

theorem mod_pow_of_largest (hb : 0 < b) {t : ℕ} (h : ∀ k < t, n / b ^ k % b = b - 1) :
    n % b ^ t = b ^ t - 1 := by
  induction t with
  | zero => simp [Nat.mod_one]
  | succ t ih =>
    have h1 : 0 < b ^ t := Nat.pow_pos hb
    have h2 : b ^ t * b = b ^ t * (b - 1) + b ^ t := by
      rw [← Nat.mul_succ, Nat.succ_eq_add_one, Nat.sub_add_cancel hb]
    rw [Nat.mod_pow_succ, ih fun k hk => h k (by omega), h t (by omega), pow_succ]
    omega

/-- If the `j` lowest digits of `n` are the largest possible, then `n + 1` ends in `j` zeros and
counts one more in front of them. -/
theorem succ_eq_of_mod {j : ℕ} (h : n % b ^ j = b ^ j - 1) (hb : 0 < b) :
    n + 1 = (n / b ^ j + 1) * b ^ j := by
  have h1 := Nat.div_add_mod n (b ^ j)
  have h2 : 0 < b ^ j := Nat.pow_pos hb
  rw [h] at h1
  rw [Nat.add_mul, Nat.one_mul, Nat.mul_comm]
  omega

/-- **The digits of a successor**: zeros below the lowest digit `j` that does not overflow, one more
at `j`, and the old digits above. -/
theorem div_pow_succ_mod (hb : 1 < b) {j : ℕ} (h : n % b ^ j = b ^ j - 1)
    (hj : n / b ^ j % b ≠ b - 1) (i : ℕ) :
    (n + 1) / b ^ i % b =
      if i < j then 0 else if i = j then n / b ^ j % b + 1 else n / b ^ i % b := by
  have hpos : 0 < b ^ j := Nat.pow_pos (by omega)
  have hlt : n / b ^ j % b < b := Nat.mod_lt _ (by omega)
  -- the digit at `j` does not overflow
  have hstep : (n / b ^ j + 1) % b = n / b ^ j % b + 1 ∧ (n / b ^ j + 1) / b = n / b ^ j / b := by
    have h1 := Nat.div_add_mod (n / b ^ j) b
    have h2 : n / b ^ j + 1 = (n / b ^ j % b + 1) + b * (n / b ^ j / b) := by omega
    rw [h2, Nat.add_mul_mod_self_left, Nat.add_mul_div_left _ _ (by omega),
      Nat.mod_eq_of_lt (by omega), Nat.div_eq_of_lt (a := n / b ^ j % b + 1) (by omega)]
    simp
  rw [succ_eq_of_mod h (by omega)]
  rcases lt_trichotomy i j with hij | rfl | hij
  · rw [if_pos hij]
    obtain ⟨k, rfl⟩ : ∃ k, j = i + 1 + k := ⟨j - (i + 1), by omega⟩
    rw [show (n / b ^ (i + 1 + k) + 1) * b ^ (i + 1 + k) =
      b ^ i * (b * ((n / b ^ (i + 1 + k) + 1) * b ^ k)) by ring,
      Nat.mul_div_cancel_left _ (Nat.pow_pos (by omega)), Nat.mul_mod_right]
  · rw [if_neg (lt_irrefl _), if_pos rfl, Nat.mul_div_cancel _ hpos]
    exact hstep.1
  · rw [if_neg (by omega), if_neg (by omega)]
    obtain ⟨k, rfl⟩ : ∃ k, i = j + (1 + k) := ⟨i - (j + 1), by omega⟩
    rw [pow_add b j, ← Nat.div_div_eq_div_mul, Nat.mul_div_cancel _ hpos, pow_add, pow_one,
      ← Nat.div_div_eq_div_mul, hstep.2, ← Nat.div_div_eq_div_mul, ← Nat.div_div_eq_div_mul]

end Citadel.Lib.Positional
