import Citadel.Lib.Fallible
import Citadel.Lib.Sorting
import Citadel.Sort.Qsort

/-!
# `qsort` sorts

* `swap_eq`: both loops of `swap` exchange the bytes of two elements.
* `Works c lo hi m m'`: the elements of `[lo, hi)` are rearranged and nothing else changes.
* `introsort_spec`: every part of the program yields a result, in which its range is in order.
* `qsort_sorts`: the array is sorted, and no access leaves it.
-/

namespace Citadel.Sort

open Citadel.Lib.Fallible Citadel.Lib.Sorting Nat

structure TotalPreorder {α : Type} (cmp : α → α → ℤ) : Prop where
  neg : ∀ a b, cmp a b < 0 ↔ 0 < cmp b a
  trans : ∀ a b d, cmp a b ≤ 0 → cmp b d ≤ 0 → cmp a d ≤ 0

/-! ## Exchanging two elements -/

variable {m m' m'' : Memory} {a b k l x : ℕ}

theorem exchange_apply : exchange m a b k x =
    if b ≤ x ∧ x < b + k then m (a + (x - b))
    else if a ≤ x ∧ x < a + k then m (b + (x - a)) else m x := rfl

theorem exchange_exchange (h : a + (k + l) ≤ b ∨ b + (k + l) ≤ a) :
    exchange (exchange m a b k) (a + k) (b + k) l = exchange m a b (k + l) := by
  funext x
  simp only [exchange_apply]
  by_cases hb : b ≤ x ∧ x < b + (k + l)
  · rw [if_pos hb]
    by_cases hx : x < b + k
    · rw [if_neg (by omega), if_neg (by omega), if_pos (by omega)]
    · rw [if_pos (by omega), if_neg (by omega), if_neg (by omega)]
      congr 1
      omega
  · rw [if_neg hb]
    by_cases ha : a ≤ x ∧ x < a + (k + l)
    · rw [if_pos ha]
      by_cases hx : x < a + k
      · rw [if_neg (by omega), if_neg (by omega), if_neg (by omega), if_pos (by omega)]
      · rw [if_neg (by omega), if_pos (by omega), if_neg (by omega), if_neg (by omega)]
        congr 1
        omega
    · rw [if_neg ha, if_neg (by omega), if_neg (by omega), if_neg (by omega), if_neg (by omega)]

theorem exchange_zero : exchange m a b 0 = m := by
  funext x
  rw [exchange_apply, if_neg (by omega), if_neg (by omega)]

theorem swapLongs_eq (m : Memory) (a b w : ℕ) (hw : w % 8 = 0) (h : a + w ≤ b ∨ b + w ≤ a) :
    swapLongs m a b w = exchange m a b w := by
  rw [swapLongs]
  split_ifs with h0
  · rw [h0, exchange_zero]
  · rw [swapLongs_eq _ _ _ (w - 8) (by omega) (by omega), exchange_exchange (by omega),
      show 8 + (w - 8) = w by omega]
termination_by w

theorem swapPieces_eq (m : Memory) (a b w : ℕ) (h : a + w ≤ b ∨ b + w ≤ a) :
    swapPieces m a b w = exchange m a b w := by
  rw [swapPieces]
  dsimp only
  split_ifs with h0 h256
  · rw [h0, exchange_zero]
  · rw [swapPieces_eq _ _ _ (w - w) (by omega), exchange_exchange (by omega),
      show w + (w - w) = w by omega]
  · rw [swapPieces_eq _ _ _ (w - 256) (by omega), exchange_exchange (by omega),
      show 256 + (w - 256) = w by omega]
termination_by w

theorem swap_eq {w : ℕ} (h : a = b ∨ a + w ≤ b ∨ b + w ≤ a) : swap m a b w = exchange m a b w := by
  rw [swap]
  rcases h with rfl | h
  · rw [if_pos rfl]
    funext x
    rw [exchange_apply]
    split_ifs
    all_goals first
      | rfl
      | (congr 1; omega)
  · split_ifs with h1 h2
    · subst h1
      obtain rfl : w = 0 := by omega
      rw [exchange_zero]
    · exact swapLongs_eq m a b w h2.1 h
    · exact swapPieces_eq m a b w h

/-! ## The array -/

section Array

variable {A : Type} {c : Ctx A} {lo hi lo' hi' i j n r : ℕ}

namespace Ctx

/-- The address of an element. -/
def place (c : Ctx A) (i : ℕ) : ℕ := c.first + i * c.w

/-- The elements of the array. -/
def view (c : Ctx A) (m : Memory) (i : ℕ) : Elem c.w := elem c.w m (c.place i)

/-- `x` is not after `y`. -/
def Le (c : Ctx A) (x y : Elem c.w) : Prop := c.cmp x y c.arg ≤ 0

theorem place_zero (c : Ctx A) : c.place 0 = c.first := by simp [place]

theorem place_add (c : Ctx A) (i j : ℕ) : c.place i + j * c.w = c.place (i + j) := by
  unfold place
  rw [add_mul, add_assoc]

theorem place_lt (c : Ctx A) (h : i < j) : c.place i + c.w ≤ c.place j := by
  have := mul_le_mul_right c.w (succ_le_of_lt h)
  rw [succ_mul] at this
  unfold place
  omega

theorem inside_place (hi : i < c.n) : c.Inside (c.place i) :=
  ⟨le_add_right _ _, c.place_lt hi⟩

theorem cmpAt_place (hi : i < c.n) (hj : j < c.n) :
    c.cmpAt m (c.place i) (c.place j) = some (c.cmp (c.view m i) (c.view m j) c.arg) :=
  if_pos ⟨inside_place hi, inside_place hj⟩

end Ctx

/-- Nothing outside the array changes. -/
def Kept (c : Ctx A) (m m' : Memory) : Prop :=
  ∀ x, x < c.first ∨ c.first + c.n * c.w ≤ x → m' x = m x

/-- The elements `i` and `j` are exchanged. -/
structure Exchanged (c : Ctx A) (i j : ℕ) (m m' : Memory) : Prop where
  view : ∀ k, c.view m' k = c.view m (Equiv.swap i j k)
  kept : Kept c m m'

theorem view_exchange (hij : i ≠ j) (k : ℕ) :
    c.view (exchange m (c.place i) (c.place j) c.w) k = c.view m (Equiv.swap i j k) := by
  funext t
  have ht := t.isLt
  change exchange m (c.place i) (c.place j) c.w (c.place k + t) =
    m (c.place (Equiv.swap i j k) + t)
  -- a byte of another element is outside
  have hout : ∀ {p}, k ≠ p → ¬ (c.place p ≤ c.place k + t ∧ c.place k + t < c.place p + c.w) := by
    intro p hp hin
    rcases lt_or_gt_of_ne hp with h | h
    · have := c.place_lt h
      omega
    · have := c.place_lt h
      omega
  rw [exchange_apply]
  by_cases hkj : k = j
  · subst hkj
    rw [if_pos (by omega), Equiv.swap_apply_right, Nat.add_sub_cancel_left]
  · rw [if_neg (hout hkj)]
    by_cases hki : k = i
    · subst hki
      rw [if_pos (by omega), Equiv.swap_apply_left, Nat.add_sub_cancel_left]
    · rw [if_neg (hout hki), Equiv.swap_apply_of_ne_of_ne hki hkj]

theorem swapAt_spec (m : Memory) (hi : i < c.n) (hj : j < c.n) :
    Yields (c.swapAt m (c.place i) (c.place j)) (Exchanged c i j m) := by
  refine Yields.of_eq (if_pos ⟨Ctx.inside_place hi, Ctx.inside_place hj⟩) ?_
  by_cases hij : i = j
  · subst hij
    rw [swap, if_pos rfl]
    exact ⟨fun k => by rw [Equiv.swap_self, Equiv.refl_apply], fun _ _ => rfl⟩
  · have hsep : c.place i + c.w ≤ c.place j ∨ c.place j + c.w ≤ c.place i :=
      (lt_or_gt_of_ne hij).imp c.place_lt c.place_lt
    rw [swap_eq (.inr hsep)]
    refine ⟨view_exchange hij, fun x hx => ?_⟩
    have hi' := Ctx.inside_place hi
    have hj' := Ctx.inside_place hj
    unfold Ctx.Inside at hi' hj'
    rw [exchange_apply, if_neg (by omega), if_neg (by omega)]

/-- The elements of `[lo, hi)` are rearranged, and nothing else changes. -/
structure Works (c : Ctx A) (lo hi : ℕ) (m m' : Memory) : Prop where
  shuffle : Shuffle lo hi (c.view m) (c.view m')
  kept : Kept c m m'

theorem Works.refl (c : Ctx A) (lo hi : ℕ) (m : Memory) : Works c lo hi m m :=
  ⟨.refl _ _ _, fun _ _ => rfl⟩

theorem Works.trans (h : Works c lo hi m m') (h' : Works c lo hi m' m'') : Works c lo hi m m'' :=
  ⟨h.shuffle.trans h'.shuffle, fun x hx => (h'.kept x hx).trans (h.kept x hx)⟩

theorem Works.mono (h : Works c lo hi m m') (hlo : lo' ≤ lo) (hhi : hi ≤ hi') :
    Works c lo' hi' m m' := ⟨h.shuffle.mono hlo hhi, h.kept⟩

theorem Exchanged.works (h : Exchanged c i j m m') (hi₁ : lo ≤ i) (hi₂ : i < hi) (hj₁ : lo ≤ j)
    (hj₂ : j < hi) : Works c lo hi m m' := ⟨.swap hi₁ hi₂ hj₁ hj₂ h.view, h.kept⟩

/-- The program sorts the `n` elements from `lo` on. -/
def Sorts (c : Ctx A) (lo n : ℕ) (m : Memory) (prog : Option Memory) : Prop :=
  Yields prog fun m' => Works c lo (lo + n) m m' ∧ SortedOn c.Le (c.view m') lo (lo + n)

/-! ## The order -/

variable (hc : TotalPreorder fun x y => c.cmp x y c.arg)

include hc

theorem Ctx.le_of_not_lt {x y : Elem c.w} (h : ¬ c.cmp x y c.arg < 0) : c.Le y x := by
  have := hc.neg x y
  unfold Ctx.Le
  omega

theorem Ctx.le_of_pos {x y : Elem c.w} (h : c.cmp x y c.arg > 0) : c.Le y x :=
  Ctx.le_of_not_lt hc (by omega)

theorem Ctx.le_refl (x : Elem c.w) : c.Le x x := by
  have := hc.neg x x
  unfold Ctx.Le
  omega

theorem Ctx.le_trans {x y z : Elem c.w} (h : c.Le x y) (h' : c.Le y z) : c.Le x z :=
  hc.trans x y z h h'

/-! ## Insertion sort -/

theorem insert_spec (hhi : hi ≤ c.n) : ∀ (j : ℕ) (m : Memory), lo + j < hi →
    SortedExcept c.Le (c.view m) lo hi (lo + j) →
      Yields (insert c (c.place lo) j m) fun m' =>
        Works c lo hi m m' ∧ SortedOn c.Le (c.view m') lo hi
  | 0, m, _, h => Yields.some ⟨Works.refl c lo hi m, h.done (Ctx.le_trans hc) (.inl rfl)⟩
  | j + 1, m, hj, h => by
    rw [insert, c.place_add, c.place_add, Ctx.cmpAt_place (by omega) (by omega)]
    refine .bind (.some (.ite (fun hpos => .bind ?_) fun hle => ?_))
    · refine (swapAt_spec m (by omega) (by omega)).mono fun m₁ h₁ => ?_
      have hstep := h.shift (p := lo + j) (le_add_right _ _) hj (Ctx.le_of_pos hc hpos) h₁.view
      refine (insert_spec hhi j m₁ (by omega) hstep).mono fun m' hm' => ⟨?_, hm'.2⟩
      exact (h₁.works (by omega) (by omega) (by omega) hj).trans hm'.1
    · refine Yields.some ⟨Works.refl c lo hi m, h.done (Ctx.le_trans hc) (.inr ⟨by omega, ?_⟩)⟩
      exact Int.not_lt.mp hle

theorem insertLoop_spec : ∀ (k i : ℕ) (m : Memory), lo + (i + k) ≤ c.n →
    SortedOn c.Le (c.view m) lo (lo + i) → Sorts c lo (i + k) m (insertLoop c (c.place lo) k i m)
  | 0, i, m, _, h => .some ⟨.refl c _ _ m, h⟩
  | k + 1, i, m, hn, h => by
    rw [insertLoop]
    refine .bind ?_
    refine (insert_spec hc (by omega) i m (lt_succ_self _) h.snoc).mono fun m₁ h₁ => ?_
    have hrest := insertLoop_spec k (i + 1) m₁ (by omega) h₁.2
    rw [show i + 1 + k = i + (k + 1) by omega] at hrest
    exact hrest.mono fun m' hm' => ⟨(h₁.1.mono le_rfl (by omega)).trans hm'.1, hm'.2⟩

theorem insertion_spec (m : Memory) (hn : lo + n ≤ c.n) :
    Sorts c lo n m (insertion c (c.place lo) n m) := by
  cases n with
  | zero => exact .some ⟨.refl c _ _ m, .of_le (by omega)⟩
  | succ n =>
    have h : Sorts c lo (1 + n) m _ := insertLoop_spec hc n 1 m (by omega) (.of_le le_rfl)
    rw [add_comm 1 n] at h
    exact h

/-! ## Heap sort -/

theorem secondLarger_spec (hn : lo + n ≤ c.n) (m : Memory) (hx : 2 * x + 1 < n) :
    Yields (secondLarger c (c.place lo) n (2 * x + 1) m) fun next =>
      Larger c.Le (c.view m) lo n x (if next then 2 * x + 1 + 1 else 2 * x + 1) := by
  rw [secondLarger, c.place_add, c.place_add]
  refine Yields.ite (fun hlt => ?_) fun hge => Yields.some ?_
  · rw [Ctx.cmpAt_place (by omega) (by omega), Option.map_some]
    refine Yields.some ?_
    split_ifs with hcmp
    · exact Larger.second (Ctx.le_refl hc) hlt (Int.le_of_lt (of_decide_eq_true hcmp))
    · refine Larger.first (Ctx.le_refl hc) hx fun _ => Ctx.le_of_not_lt hc ?_
      exact fun h => hcmp (decide_eq_true h)
  · rw [if_neg (by decide)]
    exact Larger.first (Ctx.le_refl hc) hx fun hlt => absurd hlt hge

theorem sift_spec (hn : lo + n ≤ c.n) (root : ℕ) (m : Memory) (hr : r ≤ root)
    (h : HeapExcept c.Le (c.view m) lo n r root) :
    Yields (sift c (c.place lo) n root m) fun m' =>
      Works c lo (lo + n) m m' ∧ HeapFrom c.Le (c.view m') lo n r := by
  rw [sift]
  refine .ite (fun hleaf => ?_) fun hchild => ?_
  · refine .some ⟨.refl c _ _ m, h.done fun l hl hln => ?_⟩
    unfold Child at hl
    omega
  refine .bind ((secondLarger_spec hc hn m (by omega)).mono fun next hy => ?_)
  dsimp only
  generalize (if next = true then 2 * root + 1 + 1 else 2 * root + 1) = y at hy ⊢
  have hlt := hy.lt
  have hgt := hy.gt
  rw [c.place_add, c.place_add, Ctx.cmpAt_place (by omega) (by omega)]
  refine .bind (.some (.ite (fun hge => ?_) fun hless => .bind ?_))
  · refine .some ⟨.refl c _ _ m, h.done fun l hl hln => ?_⟩
    exact Ctx.le_trans hc (hy.max l hl hln) (Ctx.le_of_not_lt hc (Int.not_lt.mpr hge))
  · refine (swapAt_spec m (by omega) (by omega)).mono fun m₁ h₁ => ?_
    have hsink := h.sink hr hy.child hy.lt hy.max (by unfold Ctx.Le; omega) h₁.view
    refine (sift_spec hn y m₁ (by omega) hsink).mono fun m' hm' => ⟨?_, hm'.2⟩
    exact (h₁.works (by omega) (by omega) (by omega) (by omega)).trans hm'.1
termination_by n - root

theorem heapify_spec (hn : lo + n ≤ c.n) : ∀ (i : ℕ) (m : Memory),
    HeapFrom c.Le (c.view m) lo n i → Yields (heapify c (c.place lo) n i m) fun m' =>
      Works c lo (lo + n) m m' ∧ HeapFrom c.Le (c.view m') lo n 0
  | 0, m, h => .some ⟨.refl c _ _ m, h⟩
  | i + 1, m, h => by
    rw [heapify]
    refine .bind ((sift_spec hc hn i m le_rfl h.cons).mono fun m₁ h₁ => ?_)
    exact (heapify_spec hn i m₁ h₁.2).mono fun m' hm' => ⟨h₁.1.trans hm'.1, hm'.2⟩

theorem drain_spec (hhi : hi ≤ c.n) : ∀ (e : ℕ) (m : Memory), lo + (e + 1) ≤ hi →
    Drained c.Le (c.view m) lo hi e → Yields (drain c (c.place lo) e m) fun m' =>
      Works c lo hi m m' ∧ SortedOn c.Le (c.view m') lo hi
  | 0, m, _, h => .some ⟨.refl c _ _ m, h.done⟩
  | e + 1, m, hn, h => by
    rw [drain, c.place_add]
    refine .bind ((swapAt_spec m (by omega) (by omega)).mono fun m₁ h₁ => ?_)
    obtain ⟨hheap, hsorted, hbelow⟩ := h.pop (Ctx.le_refl hc) (Ctx.le_trans hc) h₁.view
    refine .bind ((sift_spec hc (by omega) 0 m₁ le_rfl hheap).mono fun m₂ h₂ => ?_)
    have hs := h₂.1.shuffle
    have hdrained : Drained c.Le (c.view m₂) lo hi e := by
      refine ⟨h₂.2, hsorted.congr fun k hk _ => hs.outside (.inr hk), fun l hl hlhi => ?_⟩
      rw [hs.outside (.inr hl)]
      exact hs.forall_mem (P := (c.Le · (c.view m₁ l))) (hbelow l hl hlhi)
    refine (drain_spec hhi e m₂ (by omega) hdrained).mono fun m' hm' => ⟨?_, hm'.2⟩
    have hw : Works c lo hi _ m₁ := h₁.works le_rfl (by omega) (by omega) (by omega)
    exact (hw.trans (h₂.1.mono le_rfl (by omega))).trans hm'.1

theorem heapsort_spec (m : Memory) (hn : lo + n ≤ c.n) (hpos : 0 < n) :
    Sorts c lo n m (heapsort c (c.place lo) n m) := by
  have hleaves : HeapFrom c.Le (c.view m) lo n (n / 2) := by
    intro k hk l hl hln
    unfold Child at hl
    omega
  refine .bind ((heapify_spec hc hn (n / 2) m hleaves).mono fun m₁ h₁ => ?_)
  obtain ⟨e, rfl⟩ := Nat.exists_eq_add_of_lt hpos
  rw [zero_add] at *
  have hdrained : Drained c.Le (c.view m₁) lo (lo + (e + 1)) e :=
    ⟨h₁.2, .of_le (by omega), fun l hl hlhi => by omega⟩
  exact (drain_spec hc hn e m₁ le_rfl hdrained).mono fun m' hm' => ⟨h₁.1.trans hm'.1, hm'.2⟩

/-! ## Partition -/

omit hc in
theorem swapAt_works (m : Memory) (hn : lo + n ≤ c.n) (hi : i < n) (hj : j < n) :
    Yields (c.swapAt m (c.place (lo + i)) (c.place (lo + j))) (Works c lo (lo + n) m) :=
  (swapAt_spec m (by omega) (by omega)).mono fun _ h =>
    h.works (by omega) (by omega) (by omega) (by omega)

omit hc in
theorem swapIf_works (m : Memory) (hn : lo + n ≤ c.n) (hi : i < n) (hj : j < n) :
    Yields (swapIf c m (c.place (lo + i)) (c.place (lo + j))) (Works c lo (lo + n) m) := by
  rw [swapIf, Ctx.cmpAt_place (by omega) (by omega)]
  refine .bind (.some (.ite (fun _ => swapAt_works m hn hi hj) fun _ => ?_))
  exact .some (.refl c _ _ m)

omit hc in
theorem median_spec (m : Memory) (hn : lo + n ≤ c.n) (hpos : 0 < n) :
    Yields (median c (c.place lo) n m) (Works c lo (lo + n) m) := by
  have hmid : n / 2 < n := div_lt_self hpos (by omega)
  rw [median, c.place_add, c.place_add]
  refine .bind ((swapIf_works (j := 0) m hn hmid hpos).mono fun m₁ h₁ => ?_)
  have hhigh : Yields (medianHigh c (c.place lo) (c.place (lo + n / 2)) (c.place (lo + (n - 1))) m₁)
      (Works c lo (lo + n) m₁) := by
    rw [medianHigh, Ctx.cmpAt_place (by omega) (by omega)]
    refine .bind (.some (.ite (fun _ => .bind ?_) fun _ => ?_))
    · refine (swapAt_works m₁ hn (by omega) hmid).mono fun m₂ h₂ => ?_
      exact (swapIf_works (j := 0) m₂ hn hmid hpos).mono fun m' hm' => h₂.trans hm'
    · exact .some (.refl c _ _ m₁)
  refine .bind (hhigh.mono fun m₂ h₂ => ?_)
  exact (swapAt_works (i := 0) m₂ hn hpos hmid).mono fun m' hm' => (h₁.trans h₂).trans hm'

theorem scanUp_spec (hn : lo + n ≤ c.n) (m : Memory) (i : ℕ) (hi : i < n) :
    Yields (scanUp c (c.place lo) n m i) fun i' => i < i' ∧ i' ≤ n ∧
      (∀ k, i < k → k < i' → c.Le (c.view m (lo + k)) (c.view m lo)) ∧
      (i' < n → c.Le (c.view m lo) (c.view m (lo + i'))) := by
  rw [scanUp]
  refine .ite (fun hlt => ?_) fun hge => ?_
  · rw [c.place_add, Ctx.cmpAt_place (by omega) (by omega)]
    refine .bind (.some (.ite (fun hless => ?_) fun hstop => ?_))
    · refine (scanUp_spec hn m (i + 1) hlt).mono fun i' ⟨h1, h2, h3, h4⟩ => ?_
      refine ⟨by omega, h2, fun k hk hk' => ?_, h4⟩
      by_cases hki : k = i + 1
      · rw [hki]
        exact Int.le_of_lt hless
      · exact h3 k (by omega) hk'
    · exact .some ⟨by omega, by omega, fun k hk hk' => by omega,
        fun _ => Ctx.le_of_not_lt hc hstop⟩
  · exact .some ⟨by omega, by omega, fun k hk hk' => by omega, fun h => absurd h hge⟩
termination_by n - i

theorem scanDown_spec (hn : lo + n ≤ c.n) (m : Memory) : ∀ j, 0 < j → j ≤ n →
    Yields (scanDown c (c.place lo) m j) fun j' => j' < j ∧
      (∀ k, j' < k → k < j → c.Le (c.view m lo) (c.view m (lo + k))) ∧
      c.Le (c.view m (lo + j')) (c.view m lo)
  | 0, h, _ => absurd h (lt_irrefl 0)
  | j + 1, _, hj => by
    rw [scanDown, c.place_add, Ctx.cmpAt_place (by omega) (by omega)]
    refine .bind (.some (.ite (fun hpos => ?_) fun hstop => ?_))
    · have hj0 : 0 < j := by
        rcases Nat.eq_zero_or_pos j with rfl | h
        · exact absurd (Ctx.le_refl hc (c.view m lo)) (Int.not_le.mpr hpos)
        · exact h
      refine (scanDown_spec hn m j hj0 (by omega)).mono fun j' ⟨h1, h2, h3⟩ => ?_
      refine ⟨by omega, fun k hk hk' => ?_, h3⟩
      by_cases hkj : k = j
      · rw [hkj]
        exact Ctx.le_of_pos hc hpos
      · exact h2 k hk (by omega)
    · exact .some ⟨by omega, fun k hk hk' => by omega, Int.not_lt.mp hstop⟩

/-- The elements up to `i` are at most the pivot at place 0, those from `j` on at least. -/
structure Scanned (c : Ctx A) (lo n i j : ℕ) (m : Memory) : Prop where
  low : ∀ k, 0 < k → k ≤ i → c.Le (c.view m (lo + k)) (c.view m lo)
  high : ∀ k, j ≤ k → k < n → c.Le (c.view m lo) (c.view m (lo + k))

omit hc in
theorem Scanned.exchange (h : Scanned c lo n (i - 1) (j + 1) m) (hi : 0 < i) (hij : i < j)
    (hlow : c.Le (c.view m (lo + j)) (c.view m lo)) (hhigh : c.Le (c.view m lo) (c.view m (lo + i)))
    (he : Exchanged c (lo + i) (lo + j) m m') : Scanned c lo n i j m' := by
  have hlo : c.view m' lo = c.view m lo := by
    rw [he.view, Equiv.swap_apply_of_ne_of_ne (by omega) (by omega)]
  have hother : ∀ k, k ≠ i → k ≠ j → c.view m' (lo + k) = c.view m (lo + k) := fun k h1 h2 => by
    rw [he.view, Equiv.swap_apply_of_ne_of_ne (by omega) (by omega)]
  constructor
  · intro k hk hki
    rw [hlo]
    by_cases hk' : k = i
    · rw [hk', he.view, Equiv.swap_apply_left]
      exact hlow
    · rw [hother k hk' (by omega)]
      exact h.low k hk (by omega)
  · intro k hk hkn
    rw [hlo]
    by_cases hk' : k = j
    · rw [hk', he.view, Equiv.swap_apply_right]
      exact hhigh
    · rw [hother k (by omega) hk']
      exact h.high k (by omega) hkn

theorem partitionLoop_spec (hn : lo + n ≤ c.n) : ∀ (fuel i j : ℕ) (m : Memory), j < fuel → i < j →
    j ≤ n → Scanned c lo n i j m →
      Yields (partitionLoop c (c.place lo) n fuel i j m) fun r =>
        r.1 < n ∧ Works c lo (lo + n) m r.2 ∧ Scanned c lo n r.1 (r.1 + 1) r.2
  | 0, _, _, _, h, _, _, _ => absurd h (not_lt_zero _)
  | fuel + 1, i, j, m, hfuel, hij, hj, h => by
    rw [partitionLoop]
    refine .bind ((scanUp_spec hc hn m i (by omega)).mono fun i' hup => ?_)
    refine .bind ((scanDown_spec hc hn m j (by omega) hj).mono fun j' hdown => ?_)
    obtain ⟨hi', hi'n, hbetween, hstop⟩ := hup
    obtain ⟨hj', hbetween', hstop'⟩ := hdown
    -- what both scans have passed
    have hpassed : Scanned c lo n (i' - 1) (j' + 1) m := by
      refine ⟨fun k hk hki => ?_, fun k hk hkn => ?_⟩
      · by_cases hk' : k ≤ i
        · exact h.low k hk hk'
        · exact hbetween k (by omega) (by omega)
      · by_cases hk' : j ≤ k
        · exact h.high k hk' hkn
        · exact hbetween' k (by omega) (by omega)
    refine .ite (fun hcross => .some ?_) fun hmeet => .bind ?_
    · refine ⟨by dsimp only; omega, .refl c _ _ m, ⟨fun k hk hkj => ?_, hpassed.high⟩⟩
      by_cases hk' : k = j'
      · rw [hk']
        exact hstop'
      · exact hpassed.low k hk (by dsimp only at hkj; omega)
    · rw [c.place_add, c.place_add]
      refine (swapAt_spec m (by omega) (by omega)).mono fun m₁ h₁ => ?_
      have hnext := hpassed.exchange (by omega) (by omega) hstop' (hstop (by omega)) h₁
      refine (partitionLoop_spec hn fuel i' j' m₁ (by omega) (by omega) (by omega) hnext).mono ?_
      intro r hr
      refine ⟨hr.1, ?_, hr.2.2⟩
      exact (h₁.works (by omega) (by omega) (by omega) (by omega)).trans hr.2.1

theorem partition_spec (m : Memory) (hn : lo + n ≤ c.n) (hpos : 0 < n) :
    Yields (partition c (c.place lo) n m) fun r => r.1 < n ∧ Works c lo (lo + n) m r.2 ∧
      Parted c.Le (c.view r.2) lo (lo + n) (lo + r.1) := by
  rw [partition]
  refine .bind ((median_spec m hn hpos).mono fun m₁ h₁ => ?_)
  have hstart : Scanned c lo n 0 n m₁ := ⟨fun k hk hk' => by omega, fun k hk hk' => by omega⟩
  refine .bind ?_
  refine (partitionLoop_spec hc hn (n + 1) 0 n m₁ (by omega) hpos le_rfl hstart).mono ?_
  rintro ⟨j, m₂⟩ ⟨hj, hw, hs⟩
  dsimp only at hj hw hs ⊢
  rw [c.place_add]
  refine .bind ((swapAt_spec m₂ (by omega) (by omega)).mono fun m₃ h₃ => .some ?_)
  refine ⟨hj, ?_, .of_swap hs.low hs.high h₃.view⟩
  exact (h₁.trans hw).trans (h₃.works le_rfl (by omega) (by omega) (by omega))

/-! ## The whole program -/

theorem introsort_spec : ∀ (depth lo n : ℕ) (m : Memory), lo + n ≤ c.n →
    Sorts c lo n m (introsort c depth (c.place lo) n m) := by
  intro depth
  induction depth with
  | zero =>
    intro lo n m hn
    rw [introsort]
    exact .ite (fun h => heapsort_spec hc m hn (by omega)) fun _ => insertion_spec hc m hn
  | succ depth ih =>
    intro lo n m hn
    rw [introsort]
    refine .ite (fun h => .bind ?_) fun _ => insertion_spec hc m hn
    refine (partition_spec hc m hn (by omega)).mono ?_
    rintro ⟨j, m₁⟩ ⟨hj, hw, hp⟩
    dsimp only at hj hw hp ⊢
    rw [c.place_add]
    have hright : lo + (j + 1) + (n - j - 1) = lo + n := by omega
    -- one side, then the other one
    refine .ite (fun _ => .bind ?_) fun _ => .bind ?_
    · refine (ih lo j m₁ (by omega)).mono fun m₂ h₂ => ?_
      refine (ih (lo + (j + 1)) (n - j - 1) m₂ (by omega)).mono fun m' h' => ?_
      rw [hright] at h'
      have hl := h₂.2.congr fun k _ hk => h'.1.shuffle.outside (.inl (by omega))
      have hparted := (hp.left h₂.1.shuffle).right h'.1.shuffle
      refine ⟨?_, hparted.sorted (Ctx.le_trans hc) hl h'.2⟩
      exact (hw.trans (h₂.1.mono le_rfl (by omega))).trans (h'.1.mono (by omega) le_rfl)
    · refine (ih (lo + (j + 1)) (n - j - 1) m₁ (by omega)).mono fun m₂ h₂ => ?_
      refine (ih lo j m₂ (by omega)).mono fun m' h' => ?_
      rw [hright] at h₂
      have hr := h₂.2.congr fun k hk _ => h'.1.shuffle.outside (.inr (by omega))
      have hparted := (hp.right h₂.1.shuffle).left h'.1.shuffle
      refine ⟨?_, hparted.sorted (Ctx.le_trans hc) h'.2 hr⟩
      exact (hw.trans (h₂.1.mono (by omega) le_rfl)).trans (h'.1.mono le_rfl (by omega))

end Array

def elements (w : ℕ) (m : Memory) (base n : ℕ) : List (Elem w) :=
  (List.range n).map fun i => elem w m (base + i * w)

/-- The program returns with the elements of the array in order, and the rest of the memory is as
before. -/
def SortsArray {w : ℕ} (cmp : Elem w → Elem w → ℤ) (m : Memory) (base n : ℕ)
    (prog : Option Memory) : Prop :=
  Yields prog fun m' => (elements w m' base n).Perm (elements w m base n) ∧
    (elements w m' base n).Pairwise (fun x y => cmp x y ≤ 0) ∧
    ∀ x, x < base ∨ base + n * w ≤ x → m' x = m x

theorem qsortR_sorts {A : Type} {w : ℕ} {cmp : Elem w → Elem w → A → ℤ} {arg : A}
    (hcmp : TotalPreorder fun x y => cmp x y arg) (m : Memory) (base n : ℕ) (hw : 0 < w) :
    SortsArray (fun x y => cmp x y arg) m base n (qsortR m base n cmp arg) := by
  rw [qsortR]
  refine .ite (fun hn => .some ⟨List.Perm.refl _, ?_, fun _ _ => rfl⟩) fun _ => ?_
  · exact SortedOn.pairwise (SortedOn.of_le (by omega))
  · have h := introsort_spec (c := ⟨w, cmp, arg, base, n⟩) hcmp (2 * (64 - clzl n)) 0 n m (by simp)
    rw [Sorts, Ctx.place_zero, zero_add] at h
    exact h.mono fun m' hm' => ⟨hm'.1.shuffle.perm, hm'.2.pairwise, hm'.1.kept⟩

/-- **`qsort_r` and `qsort`** sort every array of elements of a positive width, by every comparison
function that is a total preorder, and no access leaves the array. -/
theorem qsort_sorts (w : ℕ) (hw : 0 < w) (m : Memory) (base n : ℕ) :
    (∀ (A : Type) (cmp : Elem w → Elem w → A → ℤ) (arg : A),
      TotalPreorder (fun x y => cmp x y arg) →
        SortsArray (fun x y => cmp x y arg) m base n (qsortR m base n cmp arg)) ∧
    ∀ cmp : Elem w → Elem w → ℤ, TotalPreorder cmp →
      SortsArray cmp m base n (qsort m base n cmp) :=
  ⟨fun _ _ _ hcmp => qsortR_sorts hcmp m base n hw,
    fun cmp hcmp => @qsortR_sorts _ _ callPlain cmp hcmp m base n hw⟩

/-- The bytes 0 to 39 in descending order of their addresses. -/
theorem qsort_sorts_bytes :
    let cmp : Elem 1 → Elem 1 → ℤ := fun x y => (x 0).toNat - (y 0).toNat
    let m : Memory := fun x => UInt8.ofNat (39 - x)
    SortsArray cmp m 0 40 (qsort m 0 40 cmp) := by
  intro cmp m
  refine (qsort_sorts 1 (by decide) m 0 40).2 cmp ⟨fun x y => ?_, fun x y z h h' => ?_⟩
  · dsimp only [cmp]
    omega
  · dsimp only [cmp] at *
    omega

end Citadel.Sort
