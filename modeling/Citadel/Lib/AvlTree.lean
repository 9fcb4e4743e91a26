import Mathlib.Data.Nat.Fib.Basic

/-!
# Height-balanced binary trees with cached heights

A node carries a payload and a *cached* height, which is only a number: that it is the height of the
node is part of the invariant `Avl`. `balance` recomputes the cached height of the root and rotates
if the cached heights of its children differ by two; `rebuild` does so along a path of contexts,
from the inside out.

* `balance_inorder`, `rebuild_inorder`: the in-order sequence never changes;
* `avl_balance`: two AVL children whose heights differ by at most two give an AVL tree again;
* `avl_rebuild`: replacing the subtree under a path by an AVL tree whose height differs by at most
  one and rebalancing along the path gives an AVL tree;
* `fib_le_size`: an AVL tree of height `n` has at least `fib (n + 2) - 1` nodes.
-/

namespace Citadel.Lib.AvlTree

open Nat

/-- A binary tree with a cached height at each node. -/
inductive HTree (α : Type*) where
  | nil : HTree α
  | node (l : HTree α) (a : α) (h : ℕ) (r : HTree α) : HTree α

namespace HTree

variable {α : Type*}

def height : HTree α → ℕ
  | nil => 0
  | node l _ _ r => 1 + max l.height r.height

/-- The cached height; an absent node has height `0`. -/
def cached : HTree α → ℕ
  | nil => 0
  | node _ _ h _ => h

def left : HTree α → HTree α
  | nil => nil
  | node l _ _ _ => l

def right : HTree α → HTree α
  | nil => nil
  | node _ _ _ r => r

def inorder : HTree α → List α
  | nil => []
  | node l a _ r => l.inorder ++ a :: r.inorder

/-- **The AVL invariant**: every cached height is the height, and siblings differ by at most one. -/
def Avl : HTree α → Prop
  | nil => True
  | node l _ h r => l.Avl ∧ r.Avl ∧ h = 1 + max l.height r.height ∧
      l.height ≤ r.height + 1 ∧ r.height ≤ l.height + 1

/-- A node with its cached height recomputed from those of its children. -/
def mk (l : HTree α) (a : α) (r : HTree α) : HTree α := node l a (1 + max l.cached r.cached) r

/-- The left child becomes the root. -/
def rotR : HTree α → HTree α
  | node (node x c _ y) a _ r => mk x c (mk y a r)
  | t => t

/-- The right child becomes the root. -/
def rotL : HTree α → HTree α
  | node l a _ (node y c _ z) => mk (mk l a y) c z
  | t => t

/-- Restore the balance at the root and recompute its cached height. -/
def balance : HTree α → HTree α
  | nil => nil
  | node l a h r =>
    if r.cached + 1 < l.cached then
      rotR (node (if l.left.cached < l.right.cached then rotL l else l) a h r)
    else if l.cached + 1 < r.cached then
      rotL (node l a h (if r.right.cached < r.left.cached then rotR r else r))
    else mk l a r

/-! ## Nodes with a given side -/

/-- One step of a path: the node above the focus, the side of the focus (`true` is right) and the
sibling of the focus. -/
structure Ctx (α : Type*) where
  dir : Bool
  a : α
  h : ℕ
  sib : HTree α

/-- The node of a context over a given focus. -/
def Ctx.fill (z : Ctx α) (t : HTree α) : HTree α :=
  if z.dir then node z.sib z.a z.h t else node t z.a z.h z.sib

/-- The child of the root on the side `!d` becomes the root. -/
def rotate (d : Bool) (t : HTree α) : HTree α := if d then rotR t else rotL t

/-- What `balance` first does to the higher child, the one on the side `d`. -/
def inner (d : Bool) (t : HTree α) : HTree α :=
  if d then if t.right.cached < t.left.cached then rotR t else t
  else if t.left.cached < t.right.cached then rotL t else t

theorem balance_node (l : HTree α) (a : α) (h : ℕ) (r : HTree α) :
    balance (node l a h r) =
      if r.cached + 1 < l.cached then rotate true (Ctx.fill ⟨false, a, h, r⟩ (inner false l))
      else if l.cached + 1 < r.cached then rotate false (Ctx.fill ⟨true, a, h, l⟩ (inner true r))
      else mk l a r := rfl

variable {t l r x y : HTree α} {a c : α} {h k : ℕ} {z : Ctx α} {d : Bool}

theorem fill_height (z : Ctx α) (t : HTree α) :
    (z.fill t).height = 1 + max t.height z.sib.height := by
  unfold Ctx.fill
  cases z.dir
  · rfl
  · rw [Nat.max_comm]; rfl

theorem fill_cases (z : Ctx α) (t : HTree α) : ∃ l r, z.fill t = node l z.a z.h r ∧
    (l = t ∧ r = z.sib ∨ l = z.sib ∧ r = t) := by
  unfold Ctx.fill
  cases z.dir
  · exact ⟨_, _, rfl, .inl ⟨rfl, rfl⟩⟩
  · exact ⟨_, _, rfl, .inr ⟨rfl, rfl⟩⟩

theorem fill_not (d : Bool) (a : α) (h : ℕ) (u t : HTree α) :
    Ctx.fill ⟨d, a, h, u⟩ t = Ctx.fill ⟨!d, a, h, t⟩ u := by
  cases d <;> rfl

theorem fill_cached (z : Ctx α) (t : HTree α) : (z.fill t).cached = z.h := by
  unfold Ctx.fill
  cases z.dir <;> rfl

theorem inorder_ne_nil (h : 0 < t.cached) : t.inorder ≠ [] := by
  cases t with
  | nil => simp [cached] at h
  | node l a k r => simp [inorder]

theorem exists_fill (d : Bool) (h : t.inorder ≠ []) : ∃ x c k y, t = Ctx.fill ⟨d, c, k, y⟩ x := by
  cases t with
  | nil => exact absurd rfl h
  | node l a k r =>
    cases d
    · exact ⟨l, a, k, r, rfl⟩
    · exact ⟨r, a, k, l, rfl⟩

theorem rotate_fill : rotate d (Ctx.fill ⟨!d, a, h, r⟩ (Ctx.fill ⟨!d, c, k, y⟩ x)) =
    Ctx.fill ⟨d, c, 1 + max x.cached (1 + max y.cached r.cached), x⟩
      (Ctx.fill ⟨!d, a, 1 + max y.cached r.cached, r⟩ y) := by
  cases d
  · simp [rotate, Ctx.fill, rotL, mk, cached, Nat.max_comm]
  · rfl

theorem inner_fill : inner d (Ctx.fill ⟨d, c, k, y⟩ x) =
    if x.cached < y.cached then rotate d (Ctx.fill ⟨d, c, k, y⟩ x)
    else Ctx.fill ⟨d, c, k, y⟩ x := by
  cases d <;> rfl

/-! ## The in-order sequence -/

theorem rotate_inorder (d : Bool) (t : HTree α) : (rotate d t).inorder = t.inorder := by
  cases d
  · rcases t with _ | ⟨l, a, h, _ | ⟨y, c, _, z⟩⟩ <;> simp [rotate, rotL, mk, inorder]
  · rcases t with _ | ⟨_ | ⟨x, c, _, y⟩, a, h, r⟩ <;> simp [rotate, rotR, mk, inorder]

theorem inner_inorder (d : Bool) (t : HTree α) : (inner d t).inorder = t.inorder := by
  by_cases h : t.inorder = []
  · cases t with
    | nil => cases d <;> rfl
    | node l a k r => simp [inorder] at h
  · obtain ⟨x, c, k, y, rfl⟩ := exists_fill d h
    rw [inner_fill]
    split_ifs
    · exact rotate_inorder _ _
    · rfl

theorem balance_inorder (t : HTree α) : t.balance.inorder = t.inorder := by
  rcases t with _ | ⟨l, a, h, r⟩
  · rfl
  · rw [balance_node]
    split_ifs
    · simp [rotate_inorder, Ctx.fill, inorder, inner_inorder]
    · simp [rotate_inorder, Ctx.fill, inorder, inner_inorder]
    · rfl

/-! ## Balance -/

theorem Avl.cached_eq (h : t.Avl) : t.cached = t.height := by
  cases t with
  | nil => rfl
  | node l a k r => exact h.2.2.1

theorem avl_mk (hl : l.Avl) (hr : r.Avl)
    (h1 : l.height ≤ r.height + 1) (h2 : r.height ≤ l.height + 1) : (mk l a r).Avl :=
  ⟨hl, hr, by rw [hl.cached_eq, hr.cached_eq], h1, h2⟩

@[simp] theorem node_height (l : HTree α) (a : α) (h : ℕ) (r : HTree α) :
    (node l a h r).height = 1 + max l.height r.height := rfl

theorem avl_fill : (z.fill t).Avl ↔ t.Avl ∧ z.sib.Avl ∧ z.h = 1 + max t.height z.sib.height ∧
    t.height ≤ z.sib.height + 1 ∧ z.sib.height ≤ t.height + 1 := by
  unfold Ctx.fill
  cases z.dir
  · rfl
  · simp only [if_true, Avl, Nat.max_comm]
    tauto

theorem avl_heavy (d : Bool) (hl : l.Avl) (hr : r.Avl) (hd : l.height = r.height + 2)
    (ht : t = rotate d (Ctx.fill ⟨!d, a, h, r⟩ (inner (!d) l))) :
    t.Avl ∧ l.height ≤ t.height ∧ t.height ≤ l.height + 1 := by
  obtain ⟨x, c, k, y, rfl⟩ := exists_fill (!d) (inorder_ne_nil (by rw [hl.cached_eq]; omega))
  obtain ⟨hx, hy : y.Avl, -, h1, h2⟩ := avl_fill.mp hl
  rw [inner_fill] at ht
  simp only [fill_height] at hd h1 h2 ⊢
  split_ifs at ht with hxy <;> rw [hx.cached_eq, hy.cached_eq] at hxy
  · -- the inner grandchild is the higher one: it becomes the root
    obtain ⟨y1, e, k', y2, rfl⟩ := exists_fill (!!d) (inorder_ne_nil (by rw [hy.cached_eq]; omega))
    obtain ⟨hy1, hy2, -, g1, g2⟩ := avl_fill.mp hy
    rw [fill_not (!d) c, rotate_fill, rotate_fill] at ht
    subst ht
    simp only [avl_fill, fill_height, fill_cached, hx.cached_eq, hy1.cached_eq, hy2.cached_eq,
      hr.cached_eq, hx, hy1, hy2, hr, true_and] at hd h1 h2 hxy g1 g2 ⊢
    omega
  · rw [rotate_fill] at ht
    subst ht
    simp only [avl_fill, fill_height, hx.cached_eq, hy.cached_eq, hr.cached_eq, hx, hy, hr,
      true_and]
    omega

/-- **One rebalancing step.** If the children are AVL trees whose heights differ by at most two,
the result is an AVL tree; its height is the one the node would have, or one less if it rotated. -/
theorem avl_balance (hl : l.Avl) (hr : r.Avl)
    (h1 : l.height ≤ r.height + 2) (h2 : r.height ≤ l.height + 2) : (balance (node l a h r)).Avl ∧
      max l.height r.height ≤ (balance (node l a h r)).height ∧
      (balance (node l a h r)).height ≤ 1 + max l.height r.height ∧
      (l.height ≤ r.height + 1 → r.height ≤ l.height + 1 →
        (balance (node l a h r)).height = 1 + max l.height r.height) := by
  rw [balance_node, hl.cached_eq, hr.cached_eq]
  by_cases g1 : r.height + 1 < l.height
  · rw [if_pos g1]
    generalize hb : rotate _ _ = b
    obtain ⟨h3, h4, h5⟩ := avl_heavy true hl hr (by omega) hb.symm
    exact ⟨h3, by omega, by omega, fun _ _ => by omega⟩
  · rw [if_neg g1]
    by_cases g2 : l.height + 1 < r.height
    · rw [if_pos g2]
      generalize hb : rotate _ _ = b
      obtain ⟨h3, h4, h5⟩ := avl_heavy false hr hl (by omega) hb.symm
      exact ⟨h3, by omega, by omega, fun _ _ => by omega⟩
    · rw [if_neg g2]
      exact ⟨avl_mk hl hr (by omega) (by omega), by simp [mk], by simp [mk], fun _ _ => rfl⟩

/-! ## Paths -/

/-- The tree with focus `t` under the path `zs`, innermost context first. -/
def plug : List (Ctx α) → HTree α → HTree α
  | [], t => t
  | z :: zs, t => plug zs (z.fill t)

/-- Put `t` under the path `zs` and rebalance at every node of the path, from the inside out. -/
def rebuild : List (Ctx α) → HTree α → HTree α
  | [], t => t
  | z :: zs, t => rebuild zs (z.fill t).balance

/-- What precedes the focus in the in-order sequence. -/
def before : List (Ctx α) → List α
  | [] => []
  | z :: zs => before zs ++ if z.dir then z.sib.inorder ++ [z.a] else []

/-- What follows the focus in the in-order sequence. -/
def after : List (Ctx α) → List α
  | [] => []
  | z :: zs => (if z.dir then [] else z.a :: z.sib.inorder) ++ after zs

theorem plug_inorder : ∀ (zs : List (Ctx α)) (t : HTree α),
    (plug zs t).inorder = before zs ++ t.inorder ++ after zs
  | [], t => by simp [plug, before, after]
  | z :: zs, t => by
    rw [plug, plug_inorder zs]
    cases hd : z.dir <;> simp [Ctx.fill, before, after, hd, inorder]

theorem rebuild_inorder : ∀ (zs : List (Ctx α)) (t : HTree α),
    (rebuild zs t).inorder = before zs ++ t.inorder ++ after zs
  | [], t => by simp [rebuild, before, after]
  | z :: zs, t => by
    rw [rebuild, rebuild_inorder zs, balance_inorder]
    cases hd : z.dir <;> simp [Ctx.fill, before, after, hd, inorder]

theorem before_append : ∀ xs ys : List (Ctx α), before (xs ++ ys) = before ys ++ before xs
  | [], ys => by simp [before]
  | z :: xs, ys => by simp [before, before_append xs ys]

theorem after_append : ∀ xs ys : List (Ctx α), after (xs ++ ys) = after xs ++ after ys
  | [], ys => by simp [after]
  | z :: xs, ys => by simp [after, after_append xs ys]

/-- A path of AVL siblings over a focus of height `n`: each sibling's height is within one of the
height below it. Nothing is asked of the cached heights on the path, which `rebuild` recomputes. -/
def AvlPath : List (Ctx α) → ℕ → Prop
  | [], _ => True
  | z :: zs, n => z.sib.Avl ∧ n ≤ z.sib.height + 1 ∧ z.sib.height ≤ n + 1 ∧
      AvlPath zs (1 + max n z.sib.height)

theorem avl_of_plug : ∀ (zs : List (Ctx α)) (t : HTree α),
    (plug zs t).Avl → t.Avl ∧ AvlPath zs t.height
  | [], t, h => ⟨h, trivial⟩
  | z :: zs, t, h => by
    obtain ⟨h1, h2⟩ := avl_of_plug zs (z.fill t) h
    obtain ⟨ht, hs, -, g1, g2⟩ := avl_fill.mp h1
    rw [fill_height] at h2
    exact ⟨ht, hs, g1, g2, h2⟩

theorem avlPath_append : ∀ (ws zs : List (Ctx α)) (t : HTree α),
    AvlPath (ws ++ zs) t.height ↔ AvlPath ws t.height ∧ AvlPath zs (plug ws t).height
  | [], zs, t => by simp [AvlPath, plug]
  | w :: ws, zs, t => by
    have ih := avlPath_append ws zs (w.fill t)
    rw [fill_height] at ih
    simp only [List.cons_append, AvlPath, plug, ih]
    tauto

/-- **Rebalancing along a path.** The focus may be any AVL tree whose height is within one of the
height `n` the path was built for. -/
theorem avl_rebuild : ∀ (zs : List (Ctx α)) (t : HTree α) (n : ℕ), AvlPath zs n → t.Avl →
    t.height ≤ n + 1 → n ≤ t.height + 1 → (rebuild zs t).Avl
  | [], _, _, _, ht, _, _ => ht
  | z :: zs, t, n, ⟨hs, g1, g2, hp⟩, ht, h1, h2 => by
    rw [rebuild]
    obtain ⟨l, r, he, ⟨rfl, rfl⟩ | ⟨rfl, rfl⟩⟩ := fill_cases z t
    · obtain ⟨k1, k2, k3, k4⟩ := avl_balance (a := z.a) (h := z.h) ht hs (by omega) (by omega)
      rw [he]
      exact avl_rebuild zs _ _ hp k1 (by omega) (by omega)
    · obtain ⟨k1, k2, k3, k4⟩ := avl_balance (a := z.a) (h := z.h) hs ht (by omega) (by omega)
      rw [he]
      exact avl_rebuild zs _ _ hp k1 (by omega) (by omega)

theorem length_le_height_plug : ∀ (zs : List (Ctx α)) (t : HTree α),
    zs.length + t.height ≤ (plug zs t).height
  | [], t => by simp [plug]
  | z :: zs, t => by
    have h := length_le_height_plug zs (z.fill t)
    rw [fill_height] at h
    simp only [List.length_cons, plug]
    omega

/-! ## How high an AVL tree can be -/

theorem fib_le_size : ∀ {t : HTree α}, t.Avl → fib (t.height + 2) ≤ t.inorder.length + 1
  | nil, _ => by simp [height, inorder]
  | node l a h r, ⟨hl, hr, _, h1, h2⟩ => by
    have hl' := fib_le_size hl
    have hr' := fib_le_size hr
    have hfib : fib (1 + max l.height r.height + 2) =
        fib (max l.height r.height + 1) + fib (max l.height r.height + 2) := by
      rw [show 1 + max l.height r.height + 2 = max l.height r.height + 1 + 2 by omega,
        fib_add_two]
    simp only [height, inorder, List.length_append, List.length_cons]
    rw [hfib]
    -- one child has the height below the root, the other at least that height minus one
    rcases Nat.le_total l.height r.height with h | h
    · rw [Nat.max_eq_right h]
      have := fib_mono (show r.height + 1 ≤ l.height + 2 by omega)
      omega
    · rw [Nat.max_eq_left h]
      have := fib_mono (show l.height + 1 ≤ r.height + 2 by omega)
      omega

/-- With fewer than `fib (k + 3) - 1` nodes the height is at most `k`. -/
theorem Avl.height_le (ht : t.Avl) (hk : t.inorder.length + 1 < fib (k + 3)) :
    t.height ≤ k := by
  by_contra hn
  have h1 := fib_le_size ht
  have h2 := fib_mono (show k + 3 ≤ t.height + 2 by omega)
  omega

end HTree

end Citadel.Lib.AvlTree
