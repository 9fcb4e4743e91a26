import Mathlib.Data.List.Perm.Basic
import Mathlib.Data.List.Nodup
import Mathlib.Logic.Equiv.Basic
import Mathlib.Order.Nat

/-!
# Sorting in place

An array is a function on places. A sorting program exchanges values of a range of places.

* `Shuffle lo hi a b`: `b` is `a` with the values of `[lo, hi)` rearranged.
* `SortedOn`, `SortedExcept`: a range in order, and a range in order but for one value that is too
  far right.
* `Parted`: a range split at a pivot.
* `HeapFrom`, `HeapExcept`: a heap, and a heap but for one value that may be too small.
* `Drained`: a heap with the larger values in order behind it.
-/

namespace Citadel.Lib.Sorting

open List Nat

variable {α : Type*} {lo hi lo' hi' i j k n p r x : ℕ} {a b c : ℕ → α}

/-! ## Rearrangements -/

/-- `b` is `a` with the values of `[lo, hi)` rearranged. -/
def Shuffle (lo hi : ℕ) (a b : ℕ → α) : Prop :=
  ∃ σ : Equiv.Perm ℕ, (∀ k, k < lo ∨ hi ≤ k → σ k = k) ∧ ∀ k, b k = a (σ k)

theorem Shuffle.refl (lo hi : ℕ) (a : ℕ → α) : Shuffle lo hi a a :=
  ⟨.refl ℕ, fun _ _ => rfl, fun _ => rfl⟩

section

variable (h : Shuffle lo hi a b)
include h

theorem Shuffle.trans (h' : Shuffle lo hi b c) : Shuffle lo hi a c := by
  obtain ⟨σ, hσ, hb⟩ := h
  obtain ⟨τ, hτ, hc⟩ := h'
  refine ⟨τ.trans σ, fun k hk => ?_, fun k => ?_⟩
  · rw [Equiv.trans_apply, hτ k hk, hσ k hk]
  · rw [Equiv.trans_apply, hc k, hb (τ k)]

theorem Shuffle.mono (hlo : lo' ≤ lo) (hhi : hi ≤ hi') : Shuffle lo' hi' a b := by
  obtain ⟨σ, hσ, hb⟩ := h
  exact ⟨σ, fun k hk => hσ k (by omega), hb⟩

theorem Shuffle.outside (hk : k < lo ∨ hi ≤ k) : b k = a k := by
  obtain ⟨σ, hσ, hb⟩ := h
  rw [hb k, hσ k hk]

theorem Shuffle.inside (hlo : lo ≤ k) (hhi : k < hi) : ∃ l, lo ≤ l ∧ l < hi ∧ b k = a l := by
  obtain ⟨σ, hσ, hb⟩ := h
  by_cases hl : lo ≤ σ k ∧ σ k < hi
  · exact ⟨σ k, hl.1, hl.2, hb k⟩
  · have hfix : σ k = k := σ.injective (hσ (σ k) (by omega))
    omega

theorem Shuffle.forall_mem {P : α → Prop}
    (ha : ∀ k, lo ≤ k → k < hi → P (a k)) : ∀ k, lo ≤ k → k < hi → P (b k) := by
  intro k hlo hhi
  obtain ⟨l, hl, hl', he⟩ := h.inside hlo hhi
  exact he ▸ ha l hl hl'

end

theorem Shuffle.swap (hi₁ : lo ≤ i) (hi₂ : i < hi) (hj₁ : lo ≤ j) (hj₂ : j < hi)
    (hb : ∀ k, b k = a (Equiv.swap i j k)) : Shuffle lo hi a b :=
  ⟨Equiv.swap i j, fun k hk => Equiv.swap_apply_of_ne_of_ne (by omega) (by omega), hb⟩

theorem of_swap (hb : ∀ k, b k = a (Equiv.swap i j k)) :
    b i = a j ∧ b j = a i ∧ ∀ k, k ≠ i → k ≠ j → b k = a k := by
  refine ⟨by rw [hb, Equiv.swap_apply_left], by rw [hb, Equiv.swap_apply_right], fun k h1 h2 => ?_⟩
  rw [hb, Equiv.swap_apply_of_ne_of_ne h1 h2]

theorem Shuffle.perm (h : Shuffle 0 n a b) :
    ((List.range n).map b).Perm ((List.range n).map a) := by
  obtain ⟨σ, hσ, hb⟩ := h
  have hmaps : ∀ k, σ k < n ↔ k < n := by
    intro k
    by_cases hk : n ≤ k
    · rw [hσ k (.inr hk)]
    · by_cases hk' : n ≤ σ k
      · have := σ.injective (hσ (σ k) (.inr hk'))
        omega
      · omega
  have hrange : ((List.range n).map σ).Perm (List.range n) := by
    refine (perm_ext_iff_of_nodup (nodup_range.map σ.injective) nodup_range).mpr ?_
    intro k
    simp only [mem_map, mem_range]
    constructor
    · rintro ⟨l, hl, rfl⟩
      exact (hmaps l).mpr hl
    · intro hk
      refine ⟨σ.symm k, ?_, σ.apply_symm_apply k⟩
      rwa [← hmaps, σ.apply_symm_apply]
  have hmap : (List.range n).map b = ((List.range n).map σ).map a := by
    rw [map_map]
    exact map_congr_left fun k _ => hb k
  rw [hmap]
  exact hrange.map a

/-! ## Ranges in order -/

section Order

variable {le : α → α → Prop}

def SortedOn (le : α → α → Prop) (a : ℕ → α) (lo hi : ℕ) : Prop :=
  ∀ i j, lo ≤ i → i < j → j < hi → le (a i) (a j)

theorem SortedOn.of_le (h : hi ≤ lo + 1) : SortedOn le a lo hi := fun i j _ _ _ => by omega

theorem SortedOn.congr (h : SortedOn le a lo hi) (hb : ∀ k, lo ≤ k → k < hi → b k = a k) :
    SortedOn le b lo hi := by
  intro i j hi hij hj
  rw [hb i hi (by omega), hb j (by omega) hj]
  exact h i j hi hij hj

theorem SortedOn.pairwise (h : SortedOn le a 0 n) : ((List.range n).map a).Pairwise le := by
  refine pairwise_map.mpr (pairwise_lt_range.imp_of_mem fun {i j} _ hj hij => ?_)
  exact h i j (zero_le i) hij (mem_range.mp hj)

/-- The values of `[lo, hi)` are in order but for the one at `p`, which is at most those behind. -/
structure SortedExcept (le : α → α → Prop) (a : ℕ → α) (lo hi p : ℕ) : Prop where
  rest : ∀ i j, lo ≤ i → i < j → j < hi → i ≠ p → j ≠ p → le (a i) (a j)
  behind : ∀ j, p < j → j < hi → le (a p) (a j)

theorem SortedOn.snoc (h : SortedOn le a lo hi) : SortedExcept le a lo (hi + 1) hi where
  rest := fun i j hi hij hj _ hjp => h i j hi hij (by omega)
  behind := fun j hj hj' => by omega

theorem SortedExcept.shift (h : SortedExcept le a lo hi (p + 1)) (hlo : lo ≤ p) (hhi : p + 1 < hi)
    (hle : le (a (p + 1)) (a p)) (hb : ∀ k, b k = a (Equiv.swap p (p + 1) k)) :
    SortedExcept le b lo hi p := by
  obtain ⟨hp, hp', hother⟩ := of_swap hb
  constructor
  · intro i j hi hij hj hip hjp
    by_cases hi' : i = p + 1
    · rw [hi', hp', hother j hjp (by omega)]
      exact h.rest p j hlo (by omega) hj (by omega) (by omega)
    · by_cases hj' : j = p + 1
      · rw [hj', hp', hother i hip hi']
        exact h.rest i p hi (by omega) (by omega) hi' (by omega)
      · rw [hother i hip hi', hother j hjp hj']
        exact h.rest i j hi hij hj hi' hj'
  · intro j hj hj'
    rw [hp]
    by_cases hjp : j = p + 1
    · rw [hjp, hp']
      exact hle
    · rw [hother j (by omega) hjp]
      exact h.behind j (by omega) hj'

theorem SortedExcept.done (htrans : ∀ {x y z}, le x y → le y z → le x z)
    (h : SortedExcept le a lo hi p) (hp : p = lo ∨ (lo < p ∧ le (a (p - 1)) (a p))) :
    SortedOn le a lo hi := by
  intro i j hi hij hj
  by_cases hip : i = p
  · subst hip
    exact h.behind j hij hj
  · by_cases hjp : j = p
    · subst hjp
      rcases hp with rfl | ⟨hlt, hle⟩
      · omega
      · by_cases hi' : i = j - 1
        · rw [hi']
          exact hle
        · exact htrans (h.rest i (j - 1) hi (by omega) (by omega) hip (by omega)) hle
    · exact h.rest i j hi hij hj hip hjp

/-- The values of `[lo, hi)` before the place `p` are at most the one there, those behind it at
least. -/
structure Parted (le : α → α → Prop) (a : ℕ → α) (lo hi p : ℕ) : Prop where
  low : ∀ k, lo ≤ k → k < p → le (a k) (a p)
  high : ∀ k, p + 1 ≤ k → k < hi → le (a p) (a k)

theorem Parted.left (h : Parted le a lo hi p) (hs : Shuffle lo p a b) : Parted le b lo hi p where
  low := by
    rw [hs.outside (.inr le_rfl)]
    exact hs.forall_mem (P := (le · (a p))) h.low
  high := by
    intro k hk hk'
    rw [hs.outside (.inr le_rfl), hs.outside (.inr (by omega))]
    exact h.high k hk hk'

theorem Parted.right (h : Parted le a lo hi p) (hs : Shuffle (p + 1) hi a b) :
    Parted le b lo hi p where
  low := by
    intro k hk hk'
    rw [hs.outside (.inl (lt_succ_self p)), hs.outside (.inl (by omega))]
    exact h.low k hk hk'
  high := by
    rw [hs.outside (.inl (lt_succ_self p))]
    exact hs.forall_mem (P := le (a p)) h.high

/-- The pivot goes from the first place to the last one of the smaller values. -/
theorem Parted.of_swap (hlow : ∀ k, 0 < k → k ≤ p → le (a (lo + k)) (a lo))
    (hhigh : ∀ k, p < k → k < n → le (a lo) (a (lo + k)))
    (hb : ∀ k, b k = a (Equiv.swap lo (lo + p) k)) : Parted le b lo (lo + n) (lo + p) := by
  obtain ⟨hb0, hbp, hother⟩ := Sorting.of_swap hb
  constructor
  · intro k hk hkp
    obtain ⟨k, rfl⟩ := Nat.exists_eq_add_of_le hk
    rw [hbp]
    by_cases hk0 : k = 0
    · subst hk0
      rw [Nat.add_zero, hb0]
      exact hlow p (by omega) le_rfl
    · rw [hother _ (by omega) (by omega)]
      exact hlow k (by omega) (by omega)
  · intro k hk hkn
    obtain ⟨k, rfl⟩ := Nat.exists_eq_add_of_le (show lo ≤ k by omega)
    rw [hbp, hother _ (by omega) (by omega)]
    exact hhigh k (by omega) (by omega)

theorem Parted.sorted (htrans : ∀ {x y z}, le x y → le y z → le x z) (h : Parted le a lo hi p)
    (hl : SortedOn le a lo p) (hr : SortedOn le a (p + 1) hi) : SortedOn le a lo hi := by
  intro i j hi hij hj
  rcases lt_trichotomy j p with hjp | rfl | hjp
  · exact hl i j hi hij hjp
  · exact h.low i hi hij
  · rcases lt_trichotomy i p with hip | rfl | hip
    · exact htrans (h.low i hi hip) (h.high j hjp hj)
    · exact h.high j hjp hj
    · exact hr i j hip hij hj

/-! ## Heaps -/

def Child (k l : ℕ) : Prop := l = 2 * k + 1 ∨ l = 2 * k + 2

/-- In the tree of the `n` values from `lo` on, the node `k` is at least its children. -/
def Over (le : α → α → Prop) (a : ℕ → α) (lo n k : ℕ) : Prop :=
  ∀ l, Child k l → l < n → le (a (lo + l)) (a (lo + k))

/-- The nodes from `r` on are at least their children. -/
def HeapFrom (le : α → α → Prop) (a : ℕ → α) (lo n r : ℕ) : Prop := ∀ k, r ≤ k → Over le a lo n k

/-- The nodes from `r` on but for `x` are at least their children, and the children of `x` are at
most the parent of `x`. -/
structure HeapExcept (le : α → α → Prop) (a : ℕ → α) (lo n r x : ℕ) : Prop where
  rest : ∀ k, r ≤ k → k ≠ x → Over le a lo n k
  grand : ∀ k l, r ≤ k → Child k x → Child x l → l < n → le (a (lo + l)) (a (lo + k))

/-- The child `y` of `x` is its larger one. -/
structure Larger (le : α → α → Prop) (a : ℕ → α) (lo n x y : ℕ) : Prop where
  child : Child x y
  lt : y < n
  max : ∀ l, Child x l → l < n → le (a (lo + l)) (a (lo + y))

theorem Larger.gt {y : ℕ} (h : Larger le a lo n x y) : x < y := by
  have := h.child
  unfold Child at this
  omega

theorem Larger.first (hrefl : ∀ x, le x x) (hlt : 2 * x + 1 < n)
    (h : 2 * x + 1 + 1 < n → le (a (lo + (2 * x + 1 + 1))) (a (lo + (2 * x + 1)))) :
    Larger le a lo n x (2 * x + 1) where
  child := .inl rfl
  lt := hlt
  max := by
    rintro l (rfl | rfl) hl
    · exact hrefl _
    · exact h hl

theorem Larger.second (hrefl : ∀ x, le x x) (hlt : 2 * x + 1 + 1 < n)
    (h : le (a (lo + (2 * x + 1))) (a (lo + (2 * x + 1 + 1)))) :
    Larger le a lo n x (2 * x + 1 + 1) where
  child := .inr rfl
  lt := hlt
  max := by
    rintro l (rfl | rfl) hl
    · exact h
    · exact hrefl _

theorem HeapExcept.done (h : HeapExcept le a lo n r x) (hx : Over le a lo n x) :
    HeapFrom le a lo n r := by
  intro k hk
  by_cases hkx : k = x
  · exact hkx ▸ hx
  · exact h.rest k hk hkx

theorem HeapFrom.cons (h : HeapFrom le a lo n (r + 1)) : HeapExcept le a lo n r r where
  rest := fun k hk hkr => h k (by omega)
  grand := fun k l hk hkr => by
    unfold Child at hkr
    omega

theorem HeapExcept.sink (h : HeapExcept le a lo n r x) (hr : r ≤ x) {y : ℕ} (hy : Child x y)
    (hyn : y < n) (hmax : ∀ l, Child x l → l < n → le (a (lo + l)) (a (lo + y)))
    (hle : le (a (lo + x)) (a (lo + y)))
    (hb : ∀ k, b k = a (Equiv.swap (lo + x) (lo + y) k)) : HeapExcept le b lo n r y := by
  unfold Child at hy
  obtain ⟨hbx, hby, hother⟩ := of_swap hb
  constructor
  · intro k hk hky l hl hln
    have hl' := hl
    unfold Child at hl'
    by_cases hkx : k = x
    · subst hkx
      rw [hbx]
      by_cases hly : l = y
      · rw [hly, hby]
        exact hle
      · rw [hother _ (by omega) (by omega)]
        exact hmax l hl hln
    · rw [hother (lo + k) (by omega) (by omega)]
      by_cases hlx : l = x
      · -- the parent of `x`
        subst hlx
        rw [hbx]
        exact h.grand k y hk hl hy hyn
      · rw [hother _ (by omega) (by omega)]
        exact h.rest k hk hkx l hl hln
  · intro k l hk hky hl hln
    have hkx : k = x := by
      unfold Child at hky
      omega
    subst hkx
    have hl' := hl
    unfold Child at hl'
    rw [hbx, hother _ (by omega) (by omega)]
    exact h.rest y (by omega) (by omega) l hl hln

theorem HeapFrom.root_max (hrefl : ∀ x, le x x) (htrans : ∀ {x y z}, le x y → le y z → le x z)
    (h : HeapFrom le a lo n 0) : ∀ k, k < n → le (a (lo + k)) (a lo) := by
  intro k
  induction k using Nat.strongRecOn with
  | ind k ih =>
    intro hk
    by_cases hk0 : k = 0
    · subst hk0
      exact hrefl _
    · have hchild : Child ((k - 1) / 2) k := by
        unfold Child
        omega
      exact htrans (h ((k - 1) / 2) (zero_le _) k hchild hk) (ih _ (by omega) (by omega))

/-- `[lo, hi)` is a heap of `e + 1` values, and behind it the larger values in order. -/
structure Drained (le : α → α → Prop) (a : ℕ → α) (lo hi e : ℕ) : Prop where
  heap : HeapFrom le a lo (e + 1) 0
  sorted : SortedOn le a (lo + (e + 1)) hi
  below : ∀ l, lo + (e + 1) ≤ l → l < hi → ∀ k, lo ≤ k → k < lo + (e + 1) → le (a k) (a l)

theorem Drained.done (h : Drained le a lo hi 0) : SortedOn le a lo hi := by
  intro i j hi hij hj
  by_cases hilo : i = lo
  · exact h.below j (by omega) hj i hi (by omega)
  · exact h.sorted i j (by omega) hij hj

/-- The root goes to the end of the heap, which then has one value that may be too small. -/
theorem Drained.pop (hrefl : ∀ x, le x x) (htrans : ∀ {x y z}, le x y → le y z → le x z) {e : ℕ}
    (h : Drained le a lo hi (e + 1)) (hb : ∀ k, b k = a (Equiv.swap lo (lo + (e + 1)) k)) :
    HeapExcept le b lo (e + 1) 0 0 ∧ SortedOn le b (lo + (e + 1)) hi ∧
      ∀ l, lo + (e + 1) ≤ l → l < hi → ∀ k, lo ≤ k → k < lo + (e + 1) → le (b k) (b l) := by
  obtain ⟨hroot, hlast, hother⟩ := of_swap hb
  -- the values of the smaller heap are values of the larger one
  have hfrom : ∀ k, lo ≤ k → k < lo + (e + 1) → ∃ l, l < e + 2 ∧ b k = a (lo + l) := by
    intro k hk hk'
    by_cases hklo : k = lo
    · exact ⟨e + 1, by omega, hklo ▸ hroot⟩
    · refine ⟨k - lo, by omega, ?_⟩
      rw [hother k hklo (by omega), Nat.add_sub_cancel' hk]
  refine ⟨⟨fun k _ hk l hl hle => ?_, fun k l _ hk => ?_⟩, fun i j hi hij hj => ?_,
    fun l hl hlhi k hk hke => ?_⟩
  · have hl' := hl
    unfold Child at hl'
    rw [hother (lo + l) (by omega) (by omega), hother (lo + k) (by omega) (by omega)]
    exact h.heap k (zero_le k) l hl (by omega)
  · unfold Child at hk
    omega
  · rw [hother j (by omega) (by omega)]
    by_cases hil : i = lo + (e + 1)
    · rw [hil, hlast]
      exact h.below j (by omega) hj lo le_rfl (by omega)
    · rw [hother i (by omega) hil]
      exact h.sorted i j (by omega) hij hj
  · obtain ⟨k', hk', he⟩ := hfrom k hk hke
    rw [he]
    by_cases hll : l = lo + (e + 1)
    · rw [hll, hlast]
      exact h.heap.root_max hrefl htrans k' hk'
    · rw [hother l (by omega) hll]
      exact h.below l (by omega) hlhi _ (by omega) (by omega)

end Order

end Citadel.Lib.Sorting
