import Mathlib.Algebra.Order.BigOperators.Group.List
import Mathlib.Algebra.Order.Ring.Int
import Mathlib.Data.List.Nodup

/-!
# Sums of weights over a part of a list

`weight l P w` is the sum of the weights `w` of the elements of `l` that satisfy `P`.

* `weight_update`: what a change of the weight of one element does.
* `weight_filter`: elements without weight can be left out.
-/

namespace Citadel.Lib.Weight

open List

variable {α : Type*}

open Classical in
/-- The sum of the weights of the elements that satisfy `P`. -/
noncomputable def weight (l : List α) (P : α → Prop) (w : α → ℤ) : ℤ :=
  (l.map fun a => if P a then w a else 0).sum

variable {l : List α} {P P' : α → Prop} {w w' : α → ℤ}

open Classical in
theorem weight_cons (a : α) : weight (a :: l) P w = (if P a then w a else 0) + weight l P w := rfl

theorem weight_append (m : List α) : weight (l ++ m) P w = weight l P w + weight m P w := by
  unfold weight
  rw [map_append, sum_append]

open Classical in
theorem weight_congr (hP : ∀ a ∈ l, P a ↔ P' a) (hw : ∀ a ∈ l, w a = w' a) :
    weight l P w = weight l P' w' := by
  exact congrArg List.sum (map_congr_left fun a ha => if_congr (hP a ha) (hw a ha) rfl)

open Classical in
theorem weight_eq_zero (h : ∀ a ∈ l, P a → w a = 0) : weight l P w = 0 := by
  refine sum_eq_zero fun x hx => ?_
  obtain ⟨a, ha, rfl⟩ := mem_map.mp hx
  exact ite_eq_right_iff.mpr (h a ha)

theorem weight_nonneg (h : ∀ a ∈ l, 0 ≤ w a) : 0 ≤ weight l P w := by
  refine sum_nonneg fun x hx => ?_
  obtain ⟨a, ha, rfl⟩ := mem_map.mp hx
  split_ifs
  · exact h a ha
  · exact le_rfl

theorem le_weight (h : ∀ a ∈ l, 0 ≤ w a) {a : α} (ha : a ∈ l) (hP : P a) : w a ≤ weight l P w := by
  obtain ⟨u, v, rfl⟩ := append_of_mem ha
  have hu : 0 ≤ weight u P w := weight_nonneg fun b hb => h b (mem_append_left _ hb)
  have hv : 0 ≤ weight v P w := weight_nonneg fun b hb =>
    h b (mem_append_right _ (mem_cons_of_mem a hb))
  rw [weight_append, weight_cons, if_pos hP]
  omega

theorem weight_mono (h : ∀ a ∈ l, 0 ≤ w a) (hP : ∀ a, P a → P' a) :
    weight l P w ≤ weight l P' w := by
  refine sum_le_sum fun a ha => ?_
  by_cases hPa : P a
  · rw [if_pos hPa, if_pos (hP a hPa)]
  · rw [if_neg hPa]
    split_ifs
    · exact h a ha
    · exact le_rfl

theorem weight_filter (p : α → Bool) (h : ∀ a ∈ l, p a = false → w a = 0) :
    weight (l.filter p) P w = weight l P w := by
  induction l with
  | nil => rfl
  | cons a l ih =>
    have ih' := ih fun b hb => h b (mem_cons_of_mem a hb)
    cases hp : p a with
    | true => rw [filter_cons_of_pos hp, weight_cons, weight_cons, ih']
    | false =>
      rw [filter_cons_of_neg (by rw [hp]; exact Bool.false_ne_true), ih', weight_cons,
        h a mem_cons_self hp]
      simp

open Classical in
theorem weight_update [DecidableEq α] (hl : l.Nodup) {a : α} (ha : a ∈ l) (k : ℤ) :
    weight l P (fun b => if b = a then w b + k else w b) = weight l P w + if P a then k else 0 := by
  obtain ⟨u, v, rfl⟩ := append_of_mem ha
  have hnd := nodup_append.mp hl
  have hu : ∀ b ∈ u, b ≠ a := fun b hb => hnd.2.2 b hb a mem_cons_self
  have hv : ∀ b ∈ v, b ≠ a := fun b hb h => (nodup_cons.mp hnd.2.1).1 (h ▸ hb)
  have hwu : weight u P (fun b => if b = a then w b + k else w b) = weight u P w :=
    weight_congr (fun _ _ => .rfl) fun b hb => if_neg (hu b hb)
  have hwv : weight v P (fun b => if b = a then w b + k else w b) = weight v P w :=
    weight_congr (fun _ _ => .rfl) fun b hb => if_neg (hv b hb)
  rw [weight_append, weight_append, weight_cons, weight_cons, if_pos rfl, hwu, hwv]
  split_ifs <;> omega

end Citadel.Lib.Weight
