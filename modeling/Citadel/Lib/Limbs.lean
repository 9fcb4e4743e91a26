import Mathlib.Tactic

/-!
# Arithmetic on limbs

A natural number is the list of its digits in a base `B`, least significant first, as `Nat.digits B`
gives it. The loops of multiple-precision arithmetic run over such lists with a carry.

* `mulAdd_digits`: multiplication by one limb and addition of another.
* `mulRows_val`: schoolbook multiplication.
* `strip_subBorrow`: subtraction with a borrow.
* `cmpLimbs_spec`: comparison from the most significant limb down.
-/

namespace Citadel.Lib.Limbs

open List Nat

variable {B : ℕ}

/-! ## Multiplication by a limb -/

/-- One pass that multiplies by `m` and adds `c`: the limbs and the last carry. -/
def mulAdd (B m : ℕ) : List ℕ → ℕ → List ℕ × ℕ
  | [], c => ([], c)
  | d :: ds, c =>
    let t := d * m + c
    let r := mulAdd B m ds (t / B)
    (t % B :: r.1, r.2)

variable {m : ℕ}

/-- **The pass and its carry are the digits of `n * m + c`.** -/
theorem mulAdd_digits (hB : 1 < B) (hm : 0 < m) (n c : ℕ) :
    (mulAdd B m (B.digits n) c).1 ++ B.digits (mulAdd B m (B.digits n) c).2 =
      B.digits (n * m + c) := by
  induction n using Nat.strong_induction_on generalizing c with
  | _ n ih =>
    rcases Nat.eq_zero_or_pos n with rfl | hn
    · simp [mulAdd]
    · have hlt : n / B < n := div_lt_self hn hB
      have hsplit : n * m + c = (n % B * m + c) + B * (n / B * m) := by
        conv_lhs => rw [← mod_add_div n B]
        ring
      have hpos : 0 < n * m + c := by positivity
      rw [digits_def' hB hn, digits_def' hB hpos]
      simp only [mulAdd, cons_append]
      rw [ih (n / B) hlt, hsplit, add_mul_mod_self_left, add_mul_div_left _ _ (by omega),
        add_comm (n / B * m)]

theorem mulAdd_carry_le : ∀ {ds : List ℕ} {c : ℕ}, (∀ d ∈ ds, d < B) → c ≤ m →
    (mulAdd B m ds c).2 ≤ m := by
  intro ds
  induction ds with
  | nil => intro c _ hc; exact hc
  | cons d ds ih =>
    intro c hd hc
    refine ih (fun x hx => hd x (mem_cons_of_mem _ hx)) ?_
    have h1 : d + 1 ≤ B := hd d mem_cons_self
    refine Nat.div_le_of_le_mul ?_
    have h2 : (d + 1) * m ≤ B * m := Nat.mul_le_mul_right m h1
    rw [add_mul, one_mul] at h2
    omega

/-! ## Schoolbook multiplication -/

/-- One row: `as * m` is added to the limbs `rs`, and the carry is stored in the limb after them. -/
def mulRow (B m : ℕ) : List ℕ → List ℕ → ℕ → List ℕ
  | a :: as, r :: rs, c =>
    let t := a * m + r + c
    t % B :: mulRow B m as rs (t / B)
  | [], _ :: rs, c => c % B :: rs
  | _, [], _ => []

/-- All rows, each one limb further than the last. -/
def mulRows (B : ℕ) (as : List ℕ) : List ℕ → List ℕ → List ℕ
  | [], rs => rs
  | m :: ms, rs =>
    match mulRow B m as rs 0 with
    | [] => []
    | x :: xs => x :: mulRows B as ms xs

theorem mulRow_spec (hB : 1 < B) (hm : m < B) : ∀ (as lo hi : List ℕ) (c : ℕ),
    lo.length = as.length → (∀ d ∈ as, d < B) → (∀ d ∈ lo, d < B) → c < B →
    ∃ out : List ℕ, mulRow B m as (lo ++ 0 :: hi) c = out ++ hi ∧ out.length = as.length + 1 ∧
      (∀ d ∈ out, d < B) ∧ ofDigits B out = ofDigits B as * m + ofDigits B lo + c := by
  intro as
  induction as with
  | nil =>
    intro lo hi c hl _ _ hc
    obtain rfl : lo = [] := length_eq_zero_iff.mp hl
    refine ⟨[c], by simp [mulRow, mod_eq_of_lt hc], rfl, by simpa using hc, by simp⟩
  | cons a as ih =>
    intro lo hi c hl ha hlo hc
    obtain ⟨r, lo, rfl⟩ := exists_cons_of_length_eq_add_one hl
    have h1 : a < B := ha a mem_cons_self
    have h2 : r < B := hlo r mem_cons_self
    have hcarry : (a * m + r + c) / B < B := by
      rw [div_lt_iff_lt_mul (by omega)]
      have : a * m ≤ (B - 1) * (B - 1) := Nat.mul_le_mul (by omega) (by omega)
      have h3 : (B - 1) * (B - 1) + 2 * (B - 1) + 1 = B * B := by
        obtain ⟨b, rfl⟩ : ∃ b, B = b + 1 := ⟨B - 1, by omega⟩
        simp only [Nat.add_sub_cancel]
        ring
      omega
    obtain ⟨out, hrow, hlen, hlt, hval⟩ := ih lo hi ((a * m + r + c) / B) (by simpa using hl)
      (fun d hd => ha d (mem_cons_of_mem _ hd))
      (fun d hd => hlo d (mem_cons_of_mem _ hd)) hcarry
    refine ⟨(a * m + r + c) % B :: out, ?_, by simp [hlen], ?_, ?_⟩
    · simp only [cons_append, mulRow]
      rw [hrow]
    · exact forall_mem_cons.mpr ⟨mod_lt _ (by omega), hlt⟩
    · have hdm := mod_add_div (a * m + r + c) B
      simp only [ofDigits_cons, hval]
      nlinarith

theorem mulRows_val (hB : 1 < B) (as : List ℕ) (ha : ∀ d ∈ as, d < B) : ∀ (ms lo : List ℕ),
    (∀ d ∈ ms, d < B) → lo.length = as.length → (∀ d ∈ lo, d < B) →
    (∀ d ∈ mulRows B as ms (lo ++ List.replicate ms.length 0), d < B) ∧
    ofDigits B (mulRows B as ms (lo ++ List.replicate ms.length 0)) =
      ofDigits B as * ofDigits B ms + ofDigits B lo := by
  intro ms
  induction ms with
  | nil =>
    intro lo _ _ hlo
    simpa [mulRows] using hlo
  | cons m ms ih =>
    intro lo hms hl hlo
    obtain ⟨out, hrow, hlen, hlt, hval⟩ := mulRow_spec hB (hms m mem_cons_self) as lo
      (List.replicate ms.length 0) 0 hl ha hlo (by omega)
    obtain ⟨x, xs, rfl⟩ := exists_cons_of_length_eq_add_one hlen
    obtain ⟨h1, h2⟩ := ih xs (fun d hd => hms d (mem_cons_of_mem _ hd)) (by simpa using hlen)
      (fun d hd => hlt d (mem_cons_of_mem _ hd))
    have heq : mulRows B as (m :: ms) (lo ++ List.replicate (m :: ms).length 0) =
        x :: mulRows B as ms (xs ++ List.replicate ms.length 0) := by
      simp only [length_cons, replicate_succ, mulRows]
      rw [hrow]
      rfl
    rw [heq]
    refine ⟨?_, ?_⟩
    · exact forall_mem_cons.mpr ⟨hlt _ mem_cons_self, h1⟩
    · simp only [ofDigits_cons] at hval ⊢
      rw [h2]
      nlinarith

/-! ## Subtraction -/

/-- One pass that subtracts with a borrow; missing limbs of the subtrahend count as zero. -/
def subBorrow (B : ℕ) : List ℕ → List ℕ → ℤ → List ℕ
  | [], _, _ => []
  | a :: as, bs, c =>
    let t := (a : ℤ) - bs.headD 0 + c
    (t % B).toNat :: subBorrow B as bs.tail (t / B)

/-- Leading zero limbs are dropped. -/
def strip : List ℕ → List ℕ
  | [] => []
  | d :: ds =>
    match strip ds with
    | [] => if d = 0 then [] else [d]
    | ds' => d :: ds'

theorem strip_eq_digits (hB : 1 < B) : ∀ {ds : List ℕ}, (∀ d ∈ ds, d < B) →
    strip ds = B.digits (ofDigits B ds) := by
  intro ds
  induction ds with
  | nil => intro _; simp [strip]
  | cons d ds ih =>
    intro h
    have h1 := ih fun x hx => h x (mem_cons_of_mem _ hx)
    have hd := h d mem_cons_self
    simp only [strip, ofDigits_cons]
    rw [h1]
    rcases Nat.eq_zero_or_pos (ofDigits B ds) with h0 | h0
    · rw [h0, digits_zero, mul_zero, add_zero]
      split_ifs with hz
      · rw [hz, digits_zero]
      · rw [digits_of_lt B d hz hd]
    · rw [digits_add B hB d _ hd (.inr (by omega))]
      have hne : B.digits (ofDigits B ds) ≠ [] := by
        rw [digits_ne_nil_iff_ne_zero]
        omega
      split
      · exact absurd ‹_› hne
      · rfl

theorem length_subBorrow : ∀ (as bs : List ℕ) (c : ℤ),
    (subBorrow B as bs c).length = as.length := by
  intro as
  induction as with
  | nil => intro bs c; rfl
  | cons a as ih => intro bs c; simp [subBorrow, ih]

theorem subBorrow_lt (hB : 1 < B) :
    ∀ (as bs : List ℕ) (c : ℤ), ∀ d ∈ subBorrow B as bs c, d < B := by
  intro as
  induction as with
  | nil => intro bs c d hd; simp [subBorrow] at hd
  | cons a as ih =>
    intro bs c d hd
    simp only [subBorrow, mem_cons] at hd
    rcases hd with rfl | hd
    · have hpos : (0 : ℤ) < B := by omega
      have := Int.emod_lt_of_pos ((a : ℤ) - bs.headD 0 + c) hpos
      omega
    · exact ih _ _ d hd

theorem subBorrow_val (hB : 1 < B) : ∀ (as bs : List ℕ) (c : ℤ), bs.length ≤ as.length →
    ∃ j : ℤ, ((ofDigits B (subBorrow B as bs c) : ℕ) : ℤ) =
      (ofDigits B as : ℕ) - (ofDigits B bs : ℕ) + c + j * (B ^ as.length : ℕ) := by
  intro as
  induction as with
  | nil =>
    intro bs c hl
    obtain rfl : bs = [] := length_eq_zero_iff.mp (le_zero.mp hl)
    refine ⟨-c, ?_⟩
    simp only [subBorrow, ofDigits_nil, length_nil, pow_zero]
    omega
  | cons a as ih =>
    intro bs c hl
    have hpos : (0 : ℤ) < B := by omega
    have hbs : ofDigits B bs = bs.headD 0 + B * ofDigits B bs.tail := by
      cases bs with
      | nil => rfl
      | cons b bs => exact ofDigits_cons
    obtain ⟨j, hj⟩ := ih bs.tail (((a : ℤ) - bs.headD 0 + c) / B) (by simp at hl ⊢; omega)
    have hmod := Int.emod_nonneg ((a : ℤ) - bs.headD 0 + c) hpos.ne'
    have hdm := Int.emod_add_mul_ediv ((a : ℤ) - bs.headD 0 + c) B
    refine ⟨j, ?_⟩
    rw [hbs]
    simp only [subBorrow, ofDigits_cons, length_cons, cast_add, cast_mul, pow_succ]
    rw [hj, Int.toNat_of_nonneg hmod]
    linear_combination hdm

theorem strip_subBorrow (hB : 1 < B) {n : ℕ} (h : m ≤ n) :
    strip (subBorrow B (B.digits n) (B.digits m) 0) = B.digits (n - m) := by
  have hlt := subBorrow_lt hB (B.digits n) (B.digits m) 0
  obtain ⟨j, hj⟩ := subBorrow_val hB (B.digits n) (B.digits m) 0 (le_length_digits_le B m n h)
  have hup := ofDigits_lt_base_pow_length hB hlt
  have hn := lt_base_pow_length_digits (b := B) (m := n) hB
  rw [length_subBorrow] at hup
  rw [ofDigits_digits, ofDigits_digits, add_zero] at hj
  rw [strip_eq_digits hB hlt]
  generalize ofDigits B (subBorrow B (B.digits n) (B.digits m) 0) = v at hj hup ⊢
  generalize B ^ (B.digits n).length = P at hj hup hn
  have hj0 : j = 0 := by
    rcases lt_trichotomy j 0 with hneg | h0 | hpos
    · have : j * (P : ℤ) ≤ (-1) * P := mul_le_mul_of_nonneg_right (by omega) (by omega)
      omega
    · exact h0
    · have : 1 * (P : ℤ) ≤ j * P := mul_le_mul_of_nonneg_right (by omega) (by omega)
      omega
  rw [hj0, zero_mul] at hj
  rw [show v = n - m by omega]

/-! ## Comparison -/

/-- Comparison of limbs, the most significant first. -/
def cmpLimbs : List ℕ → List ℕ → ℤ
  | a :: as, b :: bs => if a ≠ b then (if a < b then -1 else 1) else cmpLimbs as bs
  | _, _ => 0

theorem cmpLimbs_spec (hB : 1 < B) : ∀ (as bs : List ℕ), as.length = bs.length →
    (∀ d ∈ as, d < B) → (∀ d ∈ bs, d < B) →
    (0 ≤ cmpLimbs as bs ↔ ofDigits B bs.reverse ≤ ofDigits B as.reverse) := by
  intro as
  induction as with
  | nil =>
    intro bs hl _ _
    obtain rfl : bs = [] := length_eq_zero_iff.mp hl.symm
    simp [cmpLimbs]
  | cons a as ih =>
    intro bs hl ha hb
    obtain ⟨b, bs, rfl⟩ := exists_cons_of_length_eq_add_one hl.symm
    have hl' : as.length = bs.length := by simpa using hl
    have ih' := ih bs hl' (fun d hd => ha d (mem_cons_of_mem _ hd))
      (fun d hd => hb d (mem_cons_of_mem _ hd))
    have hA := ofDigits_lt_base_pow_length (b := B) (l := as.reverse) hB
      (fun d hd => ha d (mem_cons_of_mem _ (mem_reverse.mp hd)))
    have hB' := ofDigits_lt_base_pow_length (b := B) (l := bs.reverse) hB
      (fun d hd => hb d (mem_cons_of_mem _ (mem_reverse.mp hd)))
    simp only [reverse_cons, ofDigits_append, ofDigits_singleton, cmpLimbs,
      length_reverse, hl'] at hA hB' ⊢
    have key : ∀ x y : ℕ, x < y → B ^ bs.length * x + B ^ bs.length ≤ B ^ bs.length * y := by
      intro x y hxy
      rw [← mul_succ]
      exact mul_le_mul_left _ hxy
    rcases lt_trichotomy a b with h | h | h
    · rw [if_pos h.ne, if_pos h]
      have := key a b h
      constructor
      · intro h0
        norm_num at h0
      · intro h0
        omega
    · subst h
      rw [if_neg (by simp), ih']
      omega
    · rw [if_pos h.ne', if_neg (by omega)]
      have := key b a h
      constructor
      · intro _
        omega
      · intro _
        norm_num

end Citadel.Lib.Limbs
