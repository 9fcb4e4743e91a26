import Citadel.Lib.AvlTree
import Citadel.Search.Tsearch

/-!
# The heap represents a tree

`Rep H t` says that the nodes of the tree `t`, whose payloads are pairs of an address and a key, are
laid out in the heap `H`; `RepSeg H zs q q'` says so for a path of contexts, with the pointer `q` at
its hole and the pointer `q'` to its outermost node. The addresses of a tree (`addrs`) and of a path
(`ctxAddrs`) are kept without repetitions, so a store to one node leaves all other parts
represented.

The pointer functions then compute the tree functions of `AvlTree`: `rot_fill`, `balance_spec`, and
`rebalance_spec` for the loop over the saved slots.
-/

namespace Citadel.Search.Layout

open Citadel.Lib.AvlTree Function Option
open Citadel.Lib.AvlTree.HTree hiding height balance
open Citadel.Search.Tsearch

variable {K : Type}

abbrev KTree (K : Type) := HTree (ℕ × K)

/-- A path, the innermost context first. -/
abbrev Path (K : Type) := List (Ctx (ℕ × K))

/-- The pointer to the root of a tree. -/
def ptr : KTree K → Option ℕ
  | nil => none
  | node _ a _ _ => some a.1

@[simp] theorem ptr_nil : ptr (nil : KTree K) = none := rfl

@[simp] theorem ptr_node (l : KTree K) (a : ℕ × K) (h : ℕ) (r : KTree K) :
    ptr (node l a h r) = some a.1 := rfl

/-- The tree is laid out in the heap. -/
def Rep (H : Heap K) : KTree K → Prop
  | nil => True
  | node l a h r => H a.1 = some ⟨a.2, ptr l, ptr r, h⟩ ∧ Rep H l ∧ Rep H r

def addrs (t : KTree K) : List ℕ := t.inorder.map Prod.fst

@[simp] theorem addrs_nil : addrs (nil : KTree K) = [] := rfl

@[simp] theorem addrs_node (l : KTree K) (a : ℕ × K) (h : ℕ) (r : KTree K) :
    addrs (node l a h r) = addrs l ++ a.1 :: addrs r := by simp [addrs, inorder]

theorem addrs_balance (t : KTree K) : addrs t.balance = addrs t := by
  simp [addrs, balance_inorder]

variable {H : Heap K} {t y r l : KTree K} {a : ℕ × K} {h : ℕ} {zs : Path K}
  {q : Option ℕ}

theorem Rep.congr {H' : Heap K} : ∀ {t : KTree K}, Rep H t → (∀ p ∈ addrs t, H' p = H p) →
    Rep H' t
  | nil, _, _ => trivial
  | node l a h r, ⟨h1, h2, h3⟩, hc => by
    simp only [addrs_node, List.mem_append, List.mem_cons] at hc
    exact ⟨(hc a.1 (by simp)).trans h1, h2.congr fun p hp => hc p (by simp [hp]),
      h3.congr fun p hp => hc p (by simp [hp])⟩

theorem Rep.update {p : ℕ} {v : Option (Node K)} (h : Rep H t)
    (hp : p ∉ addrs t) : Rep (update H p v) t :=
  h.congr fun q hq => update_of_ne (by rintro rfl; exact hp hq) _ _

theorem height_ptr (h : Rep H t) : height H (ptr t) = some t.cached := by
  cases t with
  | nil => rfl
  | node l a k r => simp [height, h.1, cached]

/-! ## Nodes with a given side -/

/-- The node of a context whose hole holds the pointer `q`. -/
def ctxNode (z : Ctx (ℕ × K)) (q : Option ℕ) : Node K :=
  if z.dir then ⟨z.a.2, ptr z.sib, q, z.h⟩ else ⟨z.a.2, q, ptr z.sib, z.h⟩

theorem ctxNode_a (z : Ctx (ℕ × K)) (q : Option ℕ) : (ctxNode z q).a z.dir = q := by
  unfold ctxNode Node.a; cases z.dir <;> rfl

theorem ctxNode_setA (z : Ctx (ℕ × K)) (q q' : Option ℕ) :
    (ctxNode z q).setA z.dir q' = ctxNode z q' := by
  unfold ctxNode Node.setA; cases z.dir <;> rfl

variable {z : Ctx (ℕ × K)} {d : Bool}

theorem rep_fill :
    Rep H (z.fill t) ↔ H z.a.1 = some (ctxNode z (ptr t)) ∧ Rep H t ∧ Rep H z.sib := by
  unfold Ctx.fill ctxNode
  cases z.dir
  · exact .rfl
  · exact and_congr_right fun _ => and_comm

@[simp] theorem ptr_fill (z : Ctx (ℕ × K)) (t : KTree K) : ptr (z.fill t) = some z.a.1 := by
  unfold Ctx.fill
  cases z.dir <;> rfl

theorem addrs_fill (z : Ctx (ℕ × K)) (t : KTree K) :
    (addrs (z.fill t)).Perm (addrs t ++ z.a.1 :: addrs z.sib) := by
  unfold Ctx.fill
  cases z.dir
  · simp
  · simp only [if_true, addrs_node]
    exact (List.perm_append_comm.trans (by simp)).trans List.perm_middle.symm

theorem mem_addrs_fill {p : ℕ} :
    p ∈ addrs (z.fill t) ↔ p ∈ addrs t ∨ p = z.a.1 ∨ p ∈ addrs z.sib := by
  rw [(addrs_fill z t).mem_iff, List.mem_append, List.mem_cons]

theorem nodup_fill : (addrs (z.fill t)).Nodup ↔ (addrs t).Nodup ∧
    (z.a.1 ∉ addrs z.sib ∧ (addrs z.sib).Nodup) ∧ z.a.1 ∉ addrs t ∧
      ∀ p ∈ addrs t, p ∉ addrs z.sib := by
  rw [(addrs_fill z t).nodup_iff, List.nodup_append, List.nodup_cons]
  refine and_congr_right fun _ => and_congr_right fun _ => ?_
  grind

/-! ## Rotations -/

theorem setHeight_spec {n i j : ℕ} {nn : Node K} (hn : H n = some nn) (d : Bool)
    (h0 : height H (nn.a d) = some i) (h1 : height H (nn.a !d) = some j) :
    setHeight H n = some (update H n (some { nn with h := 1 + max i j })) := by
  have hm : ∀ i j : ℕ, (if i > j then i else j) = max i j := by
    intro i j
    split_ifs <;> omega
  cases d <;> simp only [Node.a, Bool.not_false, Bool.not_true, Bool.false_eq_true, if_true,
    if_false] at h0 h1
  · simp [setHeight, hn, h0, h1, hm]
  · simp [setHeight, hn, h0, h1, hm, Nat.max_comm]

@[simp] theorem setA_same (n : Node K) (d : Bool) (p : Option ℕ) : (n.setA d p).a d = p := by
  cases d <;> rfl

@[simp] theorem setA_other (n : Node K) (d : Bool) (p : Option ℕ) :
    (n.setA d p).a (!d) = n.a !d := by
  cases d <;> rfl

@[simp] theorem setA_other' (n : Node K) (d : Bool) (p : Option ℕ) :
    (n.setA (!d) p).a d = n.a d := by
  cases d <;> rfl

/-- **A rotation in the heap.** `c` is the child of `n` on the side `!d`, with the subtree `y` on
the side `d` and `x` on the other; `r` is the other child of `n`. -/
theorem rot_spec {n c : ℕ} {nn cn : Node K} {x : KTree K}
    (hn : H n = some nn) (hnc : nn.a (!d) = some c) (hc : H c = some cn) (hne : c ≠ n)
    (hy : cn.a d = ptr y) (hx : cn.a (!d) = ptr x) (hr : nn.a d = ptr r)
    (rx : Rep H x) (ry : Rep H y) (rr : Rep H r)
    (hnot : ∀ t ∈ [x, y, r], n ∉ addrs t ∧ c ∉ addrs t) :
    rot H n d = some (update (update H n
        (some { nn.setA (!d) (ptr y) with h := 1 + max y.cached r.cached })) c
        (some { cn.setA d (some n) with h := 1 + max x.cached (1 + max y.cached r.cached) }),
          c) := by
  set H1 := update H n (some (nn.setA (!d) (ptr y))) with hH1
  set H2 := update H1 c (some (cn.setA d (some n))) with hH2
  have hH2' : ∀ t ∈ [x, y, r], Rep H t → Rep H2 t :=
    fun t ht h => (h.update (hnot t ht).1).update (hnot t ht).2
  have e1c : H1 c = some cn := by rw [hH1, update_of_ne hne]; exact hc
  have e2n : H2 n = some (nn.setA (!d) (ptr y)) := by
    rw [hH2, update_of_ne hne.symm, hH1, update_self]
  have s1 := setHeight_spec e2n (!d) (by rw [setA_same]; exact height_ptr (hH2' y (by simp) ry))
    (by rw [Bool.not_not, setA_other', hr]; exact height_ptr (hH2' r (by simp) rr))
  set n' : Node K := { nn.setA (!d) (ptr y) with h := 1 + max y.cached r.cached }
  set H3 := update H2 n (some n') with hH3
  have e3c : H3 c = some (cn.setA d (some n)) := by
    rw [hH3, update_of_ne hne, hH2, update_self]
  have s2 := setHeight_spec (i := x.cached) (j := 1 + max y.cached r.cached) e3c (!d)
    (by rw [setA_other, hx]; exact height_ptr ((hH2' x (by simp) rx).update (hnot x (by simp)).1))
    (by rw [Bool.not_not, setA_same, height, hH3, update_self]; rfl)
  have hcomm : update H3 c = update (update H n (some n')) c := by
    funext v
    rw [hH3, hH2, hH1, update_comm hne.symm]
    simp [update_idem, update_comm hne]
  simp only [rot, hn, hnc, hc, hy, bind_eq_bind, bind_some, ← hH1, e1c, ← hH2, s1,
    s2, hcomm]
  rfl

variable {x : KTree K} {c : ℕ × K} {k : ℕ}

theorem rot_fill (hrep : Rep H (Ctx.fill ⟨!d, a, h, r⟩ (Ctx.fill ⟨!d, c, k, y⟩ x)))
    (hnd : (addrs (Ctx.fill ⟨!d, a, h, r⟩ (Ctx.fill ⟨!d, c, k, y⟩ x))).Nodup) :
    ∃ H', rot H a.1 d = some (H', c.1) ∧
      Rep H' (rotate d (Ctx.fill ⟨!d, a, h, r⟩ (Ctx.fill ⟨!d, c, k, y⟩ x))) ∧
      ∀ p, p ≠ a.1 → p ≠ c.1 → H' p = H p := by
  simp only [rep_fill, ptr_fill] at hrep
  obtain ⟨ea, ⟨ec, hx, hy⟩, hr⟩ := hrep
  simp only [nodup_fill, mem_addrs_fill] at hnd
  have hca : c.1 ≠ a.1 := by grind
  have hnot : ∀ t ∈ [x, y, r], a.1 ∉ addrs t ∧ c.1 ∉ addrs t := by
    simp only [List.mem_cons, List.not_mem_nil, or_false, forall_eq_or_imp, forall_eq]
    grind
  have hkeep : ∀ t ∈ [x, y, r], Rep H t → ∀ v w,
      Rep (update (update H a.1 v) c.1 w) t :=
    fun t ht h _ _ => (h.update (hnot t ht).1).update (hnot t ht).2
  refine ⟨_, rot_spec ea (by cases d <;> rfl) ec hca (by cases d <;> rfl) (by cases d <;> rfl)
    (by cases d <;> rfl) hx hy hr hnot, ?_, ?_⟩
  · simp only [rotate_fill, rep_fill, ptr_fill]
    refine ⟨?_, ⟨?_, hkeep y (by simp) hy _ _, hkeep r (by simp) hr _ _⟩, hkeep x (by simp) hx _ _⟩
    · rw [update_self]
      cases d <;> rfl
    · rw [update_of_ne hca.symm, update_self]
      cases d <;> rfl
  · intro p h1 h2
    rw [update_of_ne h2, update_of_ne h1]

section

variable (hpos : 0 < l.cached) (hrep : Rep H (Ctx.fill ⟨d, a, h, r⟩ l)) (hnd : (addrs
  (Ctx.fill ⟨d, a, h, r⟩ l)).Nodup)
include hpos hrep hnd

theorem rotInner_fill :
    ∃ H', rotInner H a.1 d = some H' ∧ Rep H' (Ctx.fill ⟨d, a, h, r⟩ (inner d l)) ∧
      ∀ p, p ∉ addrs (Ctx.fill ⟨d, a, h, r⟩ l) → H' p = H p := by
  obtain ⟨x, c, k, y, rfl⟩ := exists_fill d (inorder_ne_nil hpos)
  obtain ⟨ea, hl, hr⟩ := rep_fill.mp hrep
  obtain ⟨ec, hx, hy⟩ := rep_fill.mp hl
  have hstep : rotInner H a.1 d = if y.cached > x.cached then
      ((rot H c.1 d).bind fun v => (v.1 a.1).bind fun nn =>
        some (update v.1 a.1 (some (nn.setA d (some v.2))))) else some H := by
    have ha := ctxNode_a ⟨d, a, h, r⟩ (some c.1)
    have hc := ctxNode_a ⟨d, c, k, y⟩ (ptr x)
    have hc' : (ctxNode ⟨d, c, k, y⟩ (ptr x)).a (!d) = ptr y := by cases d <;> rfl
    rw [ptr_fill] at ea
    simp only at ha hc ea ec
    simp only [rotInner, ea, ha, ec, hc, hc', height_ptr hx, height_ptr hy, bind_eq_bind,
      bind_some]
    rfl
  rw [hstep, inner_fill]
  by_cases hxy : x.cached < y.cached
  · rw [if_pos hxy, if_pos hxy]
    obtain ⟨y1, e, k', y2, rfl⟩ := exists_fill (!d) (inorder_ne_nil (show 0 < y.cached by omega))
    simp only [nodup_fill, mem_addrs_fill] at hnd
    rw [fill_not d c] at hl ⊢
    obtain ⟨H1, h1, h2, h3⟩ := rot_fill hl (by simp only [nodup_fill, mem_addrs_fill]; grind)
    have e1 := (h3 a.1 (by grind) (by grind)).trans ea
    simp only [ptr_fill] at e1
    refine ⟨update H1 a.1 (some (ctxNode ⟨d, a, h, r⟩ (some e.1))), ?_,
      rep_fill.mpr ⟨?_, h2.update ?_, ?_⟩, ?_⟩
    · rw [h1]
      simp only [bind_some, e1]
      exact congrArg (fun n => some (update H1 a.1 (some n))) (ctxNode_setA _ _ _)
    · rw [update_self, rotate_fill, ptr_fill]
    · rw [addrs, rotate_inorder, ← addrs]
      simp only [mem_addrs_fill]
      grind
    · refine (hr.congr fun p hp => h3 p ?_ ?_).update ?_ <;> grind
    · intro p hp
      simp only [mem_addrs_fill] at hp
      rw [update_of_ne (by grind), h3 p (by grind) (by grind)]
  · rw [if_neg hxy, if_neg hxy]
    exact ⟨H, rfl, hrep, fun _ _ => rfl⟩

/-- The rotations of `balance` when the child on the side `d` is too high. -/
theorem rot_heavy : ∃ H' c, ((rotInner H a.1 d).bind fun H => rot H a.1 !d) = some (H', c) ∧
      ptr (rotate (!d) (Ctx.fill ⟨d, a, h, r⟩ (inner d l))) = some c ∧
      Rep H' (rotate (!d) (Ctx.fill ⟨d, a, h, r⟩ (inner d l))) ∧
      ∀ p, p ∉ addrs (Ctx.fill ⟨d, a, h, r⟩ l) → H' p = H p := by
  obtain ⟨H1, h1, h2, h3⟩ := rotInner_fill hpos hrep hnd
  have hin := inner_inorder d l
  obtain ⟨x, c, k, y, hxy⟩ := exists_fill d (hin ▸ inorder_ne_nil hpos)
  replace hin : addrs (inner d l) = addrs l := congrArg (List.map Prod.fst) hin
  simp only [nodup_fill, mem_addrs_fill] at hnd h3 ⊢
  rw [← hin] at hnd h3 ⊢
  rw [hxy] at h2 hnd h3 ⊢
  obtain ⟨d, rfl⟩ : ∃ e, d = !e := ⟨!d, (Bool.not_not d).symm⟩
  rw [Bool.not_not]
  obtain ⟨H2, k1, k2, k3⟩ := rot_fill h2 (by simpa only [nodup_fill, mem_addrs_fill] using hnd)
  refine ⟨H2, c.1, by rw [h1]; exact k1, by rw [rotate_fill, ptr_fill], k2, fun p hp => ?_⟩
  rw [k3 p, h3 p hp]
  · rintro rfl; exact hp (.inr (.inl rfl))
  · rintro rfl; exact hp (.inl (mem_addrs_fill.mpr (.inr (.inl rfl))))

end

/-- **`balance` computes the tree function `balance`** and touches only the nodes of the tree. -/
theorem balance_spec (hrep : Rep H (node l a h r)) (hnd : (addrs (node l a h r)).Nodup) :
    ∃ H' c, balance H a.1 = some (H', c) ∧ ptr (node l a h r).balance = some c ∧
      Rep H' (node l a h r).balance ∧ ∀ p, p ∉ addrs (node l a h r) → H' p = H p := by
  have hrep' := hrep
  obtain ⟨ea, hl, hr⟩ := hrep
  have hstep : balance H a.1 = if l.cached > r.cached + 1 then
        (rotInner H a.1 false).bind fun H => rot H a.1 true
      else if r.cached > l.cached + 1 then (rotInner H a.1 true).bind fun H => rot H a.1 false
      else some (update H a.1 (some ⟨a.2, ptr l, ptr r,
        1 + if l.cached > r.cached then l.cached else r.cached⟩), a.1) := by
    simp only [balance, ea, height_ptr hl, height_ptr hr, bind_eq_bind, bind_some]
    rfl
  rw [hstep, balance_node]
  by_cases g1 : r.cached + 1 < l.cached
  · rw [if_pos g1, if_pos g1]
    exact rot_heavy (d := false) (by omega) hrep' hnd
  rw [if_neg g1, if_neg g1]
  by_cases g2 : l.cached + 1 < r.cached
  · rw [if_pos g2, if_pos g2]
    exact rot_heavy (d := true) (by omega) hrep' hnd
  rw [if_neg g2, if_neg g2]
  have hm : (if l.cached > r.cached then l.cached else r.cached) = max l.cached r.cached := by
    split_ifs <;> omega
  simp only [addrs_node, List.nodup_append, List.nodup_cons, List.mem_cons] at hnd
  refine ⟨_, a.1, rfl, rfl, ⟨?_, hl.update ?_, hr.update ?_⟩, fun p hp => ?_⟩
  · rw [update_self, hm]
  · intro h; exact hnd.2.2 a.1 h a.1 (by simp) rfl
  · exact hnd.2.1.1
  · rw [update_of_ne]; rintro rfl; exact hp (by simp)

/-! ## Paths -/

/-- The path `zs` is laid out in the heap, with the pointer `q` in its hole and the pointer `q'` to
its outermost node. -/
def RepSeg (H : Heap K) : Path K → Option ℕ → Option ℕ → Prop
  | [], q, q' => q = q'
  | z :: zs, q, q' => H z.a.1 = some (ctxNode z q) ∧ Rep H z.sib ∧ RepSeg H zs (some z.a.1) q'

/-- The addresses of the nodes of a path and of the siblings. -/
def ctxAddrs : Path K → List ℕ
  | [] => []
  | z :: zs => z.a.1 :: (addrs z.sib ++ ctxAddrs zs)

/-- The slot of the hole of a path that starts at the root variable. -/
def slotOf : Path K → Slot
  | [] => .root
  | z :: _ => .child z.a.1 z.dir

/-- The slots that hold the nodes of a path, the innermost first. -/
def slotsOf : Path K → List Slot
  | [] => []
  | _ :: zs => slotOf zs :: slotsOf zs

theorem RepSeg.congr {H' : Heap K} : ∀ {zs : Path K} {q q' : Option ℕ},
    RepSeg H zs q q' → (∀ p ∈ ctxAddrs zs, H' p = H p) → RepSeg H' zs q q'
  | [], _, _, h, _ => h
  | z :: zs, q, q', ⟨h1, h2, h3⟩, hc => by
    simp only [ctxAddrs, List.mem_cons, List.mem_append] at hc
    exact ⟨(hc _ (by simp)).trans h1, h2.congr fun p hp => hc p (by simp [hp]),
      h3.congr fun p hp => hc p (by simp [hp])⟩

theorem RepSeg.update {q' : Option ℕ} {p : ℕ}
    {v : Option (Node K)} (h : RepSeg H zs q q') (hp : p ∉ ctxAddrs zs) :
    RepSeg (update H p v) zs q q' :=
  h.congr fun _ hr => update_of_ne (by rintro rfl; exact hp hr) _ _

theorem repSeg_append : ∀ {ws zs : Path K} {q q' : Option ℕ},
    RepSeg H (ws ++ zs) q q' ↔ ∃ q1, RepSeg H ws q q1 ∧ RepSeg H zs q1 q'
  | [], zs, q, q' => by simp [RepSeg]
  | w :: ws, zs, q, q' => by
    simp only [List.cons_append, RepSeg, repSeg_append]
    constructor
    · rintro ⟨h1, h2, q1, h3, h4⟩; exact ⟨q1, ⟨h1, h2, h3⟩, h4⟩
    · rintro ⟨q1, ⟨h1, h2, h3⟩, h4⟩; exact ⟨h1, h2, q1, h3, h4⟩

theorem ctxAddrs_append (ws zs : Path K) :
    ctxAddrs (ws ++ zs) = ctxAddrs ws ++ ctxAddrs zs := by
  induction ws with
  | nil => rfl
  | cons w ws ih => simp [ctxAddrs, ih]

theorem ctxAddrs_perm : ∀ (zs : Path K) (t : KTree K),
    (addrs (plug zs t)).Perm (addrs t ++ ctxAddrs zs)
  | [], t => by simp [plug, ctxAddrs]
  | z :: zs, t => by
    refine (ctxAddrs_perm zs (z.fill t)).trans ?_
    simpa [ctxAddrs] using (addrs_fill z t).append_right (ctxAddrs zs)

theorem load_slotOf {m : Mem K} (h : RepSeg m.heap zs q m.root) : m.load (slotOf zs) = some q := by
  cases zs with
  | nil =>
    have hq : q = m.root := h
    rw [hq]; rfl
  | cons z zs => simp only [slotOf, Mem.load, h.1, map_some, ctxNode_a]

theorem store_slotOf {m : Mem K} (q' : Option ℕ)
    (h : RepSeg m.heap zs q m.root) (hnd : (ctxAddrs zs).Nodup) :
    ∃ m', m.store (slotOf zs) q' = some m' ∧ RepSeg m'.heap zs q' m'.root ∧
      ∀ p, p ∉ ctxAddrs zs → m'.heap p = m.heap p := by
  cases zs with
  | nil => exact ⟨_, rfl, rfl, fun _ _ => rfl⟩
  | cons z zs =>
    obtain ⟨h1, h2, h3⟩ := h
    simp only [ctxAddrs, List.nodup_cons, List.mem_append, not_or] at hnd
    refine ⟨⟨update m.heap z.a.1 (some (ctxNode z q')), m.root⟩, ?_, ⟨?_, ?_, ?_⟩, ?_⟩
    · simp only [slotOf, Mem.store, h1, map_some, ctxNode_setA]
    · exact update_self ..
    · exact h2.update hnd.1.1
    · exact h3.update hnd.1.2
    · intro p hp
      refine update_of_ne ?_ _ _
      rintro rfl
      exact hp (by simp [ctxAddrs])

/-- **The rebalancing loop of `tdelete` computes `rebuild`** and touches only the nodes of the path
and of the tree under it. -/
theorem rebalance_spec : ∀ (zs : Path K) {t : KTree K} {m : Mem K},
    RepSeg m.heap zs (ptr t) m.root → Rep m.heap t → (addrs t ++ ctxAddrs zs).Nodup →
    ∃ m', rebalance (slotsOf zs) m = some m' ∧ rebalanceAll (slotsOf zs) m = some m' ∧
      m'.root = ptr (rebuild zs t) ∧
      Rep m'.heap (rebuild zs t) ∧ ∀ p, p ∉ addrs t ++ ctxAddrs zs → m'.heap p = m.heap p
  | [], t, m, h, ht, _ => ⟨m, rfl, rfl, (h : ptr t = m.root).symm, ht, fun _ _ => rfl⟩
  | z :: zs, t, m, ⟨h1, h2, h3⟩, ht, hnd => by
    have hperm : (addrs (z.fill t) ++ ctxAddrs zs).Perm (addrs t ++ ctxAddrs (z :: zs)) :=
      (ctxAddrs_perm zs (z.fill t)).symm.trans (ctxAddrs_perm (z :: zs) t)
    have hnd1 := hperm.nodup_iff.mpr hnd
    have hrep := rep_fill.mpr ⟨h1, ht, h2⟩
    obtain ⟨l, r, hfill, -⟩ := fill_cases z t
    have hnd2 := List.nodup_append.mp hnd1
    rw [hfill] at hrep hnd2
    obtain ⟨H', c, k1, k2, k3, k4⟩ := balance_spec hrep hnd2.1
    have hseg : RepSeg H' zs (some z.a.1) m.root := h3.congr fun p hp => k4 p fun hp' =>
      hnd2.2.2 p hp' p hp rfl
    obtain ⟨m1, e1, e2, e3⟩ := store_slotOf (m := ⟨H', m.root⟩) (some c) hseg hnd2.2.1
    rw [← hfill] at k2 k3 k4 hnd2
    have hrep1 : Rep m1.heap (z.fill t).balance := k3.congr fun p hp => e3 p fun hp' =>
      hnd2.2.2 p (by rwa [addrs_balance] at hp) p hp' rfl
    rw [← k2] at e2
    obtain ⟨m2, f1, f1', f2, f3, f4⟩ := rebalance_spec zs e2 hrep1 (by rwa [addrs_balance])
    refine ⟨m2, ?_, ?_, f2, f3, fun p hp => ?_⟩
    · simp only [slotsOf, rebalance, load_slotOf h3, bind_eq_bind, bind_some, k1, e1, f1]
    · simp only [slotsOf, rebalanceAll, load_slotOf h3, bind_eq_bind, bind_some, k1, e1,
        f1']
    · rw [← hperm.mem_iff, List.mem_append, not_or] at hp
      rw [f4 p (by rw [addrs_balance, List.mem_append, not_or]; exact hp), e3 p hp.2]
      exact k4 p hp.1

end Citadel.Search.Layout
