import Mathlib.Data.List.Basic
import Mathlib.Logic.Function.Basic

/-!
# Windows of a memory

A memory is a function from addresses to values. `window M a b` lists its values at the addresses
`a ≤ i < b`, `fill M p l` is the memory after the list `l` has been copied to the address `p`.

* `window_append`: adjacent windows.
* `window_fill`: what was copied is read back.
* `window_fill_of_disjoint`: a window before or after the copied region is unchanged.
-/

namespace Citadel.Lib.Window

open Function List

variable {α : Type*}

/-- The values at the addresses from `a` up to `b`. -/
def window (M : ℕ → α) (a b : ℕ) : List α := (range' a (b - a)).map M

/-- The memory after `l` has been copied to the address `p`. -/
def fill (M : ℕ → α) (p : ℕ) (l : List α) : ℕ → α :=
  fun i => if p ≤ i then (l[i - p]?).getD (M i) else M i

variable {M : ℕ → α} {a b c p : ℕ} {l : List α}

@[simp] theorem length_window : (window M a b).length = b - a := by simp [window]

@[simp] theorem window_self : window M a a = [] := by simp [window]

theorem window_append (hab : a ≤ b) (hbc : b ≤ c) :
    window M a c = window M a b ++ window M b c := by
  rw [window, window, window, ← map_append]
  congr 1
  have h := range'_append_1 (s := a) (m := b - a) (n := c - b)
  rw [show a + (b - a) = b by omega, show b - a + (c - b) = c - a by omega] at h
  exact h.symm

theorem window_succ (h : a < b) : window M a b = M a :: window M (a + 1) b := by
  rw [window_append (Nat.le_succ a) h]
  simp [window]

theorem window_take (k : ℕ) (h : a + k ≤ b) : (window M a b).take k = window M a (a + k) := by
  rw [window_append (Nat.le_add_right a k) h, take_left' (by simp)]

theorem window_drop (k : ℕ) (h : a + k ≤ b) : (window M a b).drop k = window M (a + k) b := by
  rw [window_append (Nat.le_add_right a k) h, drop_left' (by simp)]

theorem window_congr {N : ℕ → α} (h : ∀ i, a ≤ i → i < b → M i = N i) :
    window M a b = window N a b := by
  refine map_congr_left fun i hi => ?_
  rw [mem_range'_1] at hi
  exact h i hi.1 (by omega)

theorem fill_outside {i : ℕ} (h : i < p ∨ p + l.length ≤ i) : fill M p l i = M i := by
  unfold fill
  split_ifs with hp
  · rw [getElem?_eq_none (by omega), Option.getD_none]
  · rfl

theorem window_fill_of_disjoint (h : b ≤ p ∨ p + l.length ≤ a) :
    window (fill M p l) a b = window M a b :=
  window_congr fun i hai hib => fill_outside (by omega)

theorem fill_of_mem {i : ℕ} (hp : p ≤ i) (h : i - p < l.length) : fill M p l i = l[i - p] := by
  rw [fill, if_pos hp, getElem?_eq_getElem h, Option.getD_some]

theorem fill_fill {l' : List α} :
    fill (fill M p l) (p + l.length) l' = fill M p (l ++ l') := by
  funext i
  by_cases hp : p ≤ i
  · rw [fill, fill, fill, if_pos hp, if_pos hp, getElem?_append]
    split_ifs with h h' h'
    · omega
    · rw [getElem?_eq_none (l := l) (by omega), Option.getD_none,
        show i - (p + l.length) = i - p - l.length by omega]
    · rw [getElem?_eq_getElem h', Option.getD_some]
    · omega
  · rw [fill_outside (by omega), fill_outside (by omega), fill_outside (by omega)]

theorem window_fill : window (fill M p l) p (p + l.length) = l := by
  refine ext_getElem (by simp) fun i h1 h2 => ?_
  simp [window, fill, h2]

theorem fill_singleton (M : ℕ → α) (p : ℕ) (x : α) : fill M p [x] = update M p x := by
  funext i
  unfold fill
  by_cases h : i = p
  · subst h
    simp
  · rw [update_of_ne h]
    split_ifs
    · rw [getElem?_eq_none (by simp only [length_singleton]; omega), Option.getD_none]
    · rfl

theorem window_fill_append (h : a ≤ p) :
    window (fill M p l) a (p + l.length) = window M a p ++ l := by
  rw [window_append h (Nat.le_add_right p _), window_fill,
    window_fill_of_disjoint (.inl (Nat.le_refl p))]

theorem window_update_append (M : ℕ → α) (h : a ≤ p) (x : α) :
    window (update M p x) a (p + 1) = window M a p ++ [x] := by
  rw [← fill_singleton]
  exact window_fill_append h

end Citadel.Lib.Window
