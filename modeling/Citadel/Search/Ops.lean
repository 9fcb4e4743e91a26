import Citadel.Search.Layout

/-!
# What one call does to the tree

`locate` is the descent by `cmp` on trees and `descend_spec` says that the program's descent follows
it, saving the slots of the path. A call of `tsearch` that inserts puts a leaf into the hole and
rebuilds (`tsearch_spec`); a call of `tdelete` that finds its key rebuilds over the tree `removed`
under the path `removedPath` (`tdelete_spec`). For a node with two children that path goes on to the
in-order successor, which stands on it in the place of the deleted node: the saved slot `&del->a[1]`
is the one the program patches.
-/

namespace Citadel.Search.Ops

open Citadel.Lib.AvlTree Function Nat Option
open Citadel.Lib.AvlTree.HTree hiding height balance
open Citadel.Search.Tsearch Citadel.Search.Layout

variable {K : Type}

/-- The heap holds the tree `t` at the root variable, every node once. -/
structure Holds (m : Mem K) (t : KTree K) : Prop where
  root : m.root = ptr t
  rep : Rep m.heap t
  nodup : (addrs t).Nodup

section Descent

variable (cmp : K → K → ℤ)

/-- The descent by `cmp` from the tree `t` under the path `zs`: the path and the subtree it ends at,
which is empty or has the key at its root. -/
def locate (key : K) : Path K → KTree K → Path K × KTree K
  | zs, nil => (zs, nil)
  | zs, node l a h r =>
    if cmp key a.2 = 0 then (zs, node l a h r)
    else if 0 < cmp key a.2 then locate key (⟨true, a, h, l⟩ :: zs) r
    else locate key (⟨false, a, h, r⟩ :: zs) l

theorem plug_locate (key : K) : ∀ (zs : Path K) (t : KTree K),
    plug (locate cmp key zs t).1 (locate cmp key zs t).2 = plug zs t
  | _, nil => rfl
  | zs, node l a h r => by
    unfold locate
    split_ifs
    · rfl
    · rw [plug_locate key _ r]; rfl
    · rw [plug_locate key _ l]; rfl

theorem descend_spec {m : Mem K} (key : K) : ∀ (zs : Path K) (t : KTree K) {room : ℕ},
    RepSeg m.heap zs (ptr t) m.root → Rep m.heap t → t.height ≤ room →
    descend cmp m key room (slotsOf zs) (slotOf zs) =
        some (slotsOf (locate cmp key zs t).1, slotOf (locate cmp key zs t).1,
          ptr (locate cmp key zs t).2) ∧
      RepSeg m.heap (locate cmp key zs t).1 (ptr (locate cmp key zs t).2) m.root ∧
      Rep m.heap (locate cmp key zs t).2
  | zs, nil, room, hseg, ht, _ => by
    refine ⟨?_, hseg, ht⟩
    rw [descend, load_slotOf hseg]; rfl
  | zs, node l a h r, room, hseg, ht, hroom => by
    obtain ⟨ea, hl, hr⟩ := ht
    have hload := load_slotOf hseg
    rw [node_height] at hroom
    unfold locate
    by_cases h0 : cmp key a.2 = 0
    · rw [if_pos h0]
      refine ⟨?_, hseg, ea, hl, hr⟩
      rw [descend, hload]
      simp [ea, h0]
    · rw [if_neg h0]
      obtain ⟨room, rfl⟩ := exists_eq_add_one_of_ne_zero (show room ≠ 0 by omega)
      by_cases h1 : 0 < cmp key a.2
      · rw [if_pos h1]
        have hseg' : RepSeg m.heap (⟨true, a, h, l⟩ :: zs) (ptr r) m.root := ⟨ea, hl, hseg⟩
        obtain ⟨k1, k2⟩ :=
          descend_spec key (⟨true, a, h, l⟩ :: zs) r hseg' hr (by omega : r.height ≤ room)
        refine ⟨?_, k2⟩
        rw [← k1, descend, hload]
        simp [ea, h0, h1, slotsOf, slotOf]
      · rw [if_neg h1]
        have hseg' : RepSeg m.heap (⟨false, a, h, r⟩ :: zs) (ptr l) m.root := ⟨ea, hr, hseg⟩
        obtain ⟨k1, k2⟩ :=
          descend_spec key (⟨false, a, h, r⟩ :: zs) l hseg' hl (by omega : l.height ≤ room)
        refine ⟨?_, k2⟩
        rw [← k1, descend, hload]
        simp [ea, h0, h1, slotsOf, slotOf]

theorem tfindLoop_spec {H : Heap K} (key : K) : ∀ (zs : Path K) (t : KTree K)
    {fuel : ℕ}, Rep H t → t.height ≤ fuel →
    tfindLoop cmp H key fuel (ptr t) = some (ptr (locate cmp key zs t).2)
  | zs, nil, fuel, _, _ => by unfold locate; cases fuel <;> rfl
  | zs, node l a h r, fuel, ⟨ea, hl, hr⟩, hf => by
    rw [node_height] at hf
    obtain ⟨fuel, rfl⟩ := exists_eq_add_one_of_ne_zero (show fuel ≠ 0 by omega)
    unfold locate
    rw [ptr_node, tfindLoop]
    split_ifs with h0 h1
    · simp [ea, h0]
    · rw [← tfindLoop_spec key (⟨true, a, h, l⟩ :: zs) r hr (by omega : r.height ≤ fuel)]
      simp [ea, h0, h1, Node.a]
    · rw [← tfindLoop_spec key (⟨false, a, h, r⟩ :: zs) l hl (by omega : l.height ≤ fuel)]
      simp [ea, h0, h1, Node.a]

end Descent

/-! ## Insertion -/

theorem length_slotsOf (zs : Path K) : (slotsOf zs).length = zs.length := by
  induction zs with
  | nil => rfl
  | cons z zs ih => simp [slotsOf, ih]

theorem ne_none_of_rep {H : Heap K} : ∀ {t : KTree K}, Rep H t → ∀ p ∈ addrs t, H p ≠ none
  | nil, _, p, hp => by simp at hp
  | node l a h r, ⟨ea, hl, hr⟩, p, hp => by
    simp only [addrs_node, List.mem_append, List.mem_cons] at hp
    rcases hp with hp | rfl | hp
    · exact ne_none_of_rep hl p hp
    · rw [ea]; simp
    · exact ne_none_of_rep hr p hp

variable (cmp : K → K → ℤ)

variable {m : Mem K}

theorem Holds.nodup_locate {t : KTree K} (hm : Holds m t) (key : K) :
    (addrs (locate cmp key [] t).2 ++ ctxAddrs (locate cmp key [] t).1).Nodup := by
  have h := (ctxAddrs_perm (locate cmp key [] t).1 (locate cmp key [] t).2).nodup_iff
  rw [plug_locate] at h
  exact h.mp hm.nodup

theorem length_locate_le (key : K) (t : KTree K) :
    (locate cmp key [] t).1.length + (locate cmp key [] t).2.height ≤ t.height := by
  have h := length_le_height_plug (locate cmp key [] t).1 (locate cmp key [] t).2
  rwa [plug_locate] at h

section Insertion

variable {m : Mem K} {t : KTree K} (hm : Holds m t) (hh : t.height ≤ MAXH)
include hm hh

variable {key : K} {zs : Path K}

theorem descend_of_locate {u : KTree K} (hloc : locate cmp key [] t = (zs, u)) :
    descend cmp m key MAXH [] .root = some (slotsOf zs, slotOf zs, ptr u) ∧
      RepSeg m.heap zs (ptr u) m.root := by
  obtain ⟨h1, h2, -⟩ := descend_spec cmp key [] t (m := m) hm.root.symm hm.rep hh
  rw [hloc] at h1 h2
  exact ⟨h1, h2⟩

/-- **`tsearch`** of a key that is there changes nothing. -/
theorem tsearch_found (malloc : Option ℕ) {l r : KTree K}
    {a : ℕ × K} {h : ℕ} (hloc : locate cmp key [] t = (zs, node l a h r)) :
    tsearch cmp malloc m key = some (m, some a.1, zs.length) := by
  obtain ⟨h1, -⟩ := descend_of_locate cmp hm hh hloc
  simp [tsearch, h1, length_slotsOf]

/-- **`tsearch`** without memory for a new node changes nothing. -/
theorem tsearch_no_memory (hloc : locate cmp key [] t = (zs, nil)) :
    tsearch cmp none m key = some (m, none, zs.length) := by
  obtain ⟨h1, -⟩ := descend_of_locate cmp hm hh hloc
  simp [tsearch, h1, length_slotsOf]

/-- **`tsearch`** of a new key puts a leaf where the descent ended and rebalances the path. -/
theorem tsearch_insert {n : ℕ} (hfresh : m.heap n = none) (hloc : locate cmp key [] t = (zs, nil)) :
    ∃ m', tsearch cmp (some n) m key = some (m', some n, zs.length) ∧
      Holds m' (rebuild zs (node nil (n, key) 1 nil)) := by
  obtain ⟨h1, h2⟩ := descend_of_locate cmp hm hh hloc
  have hnd := hm.nodup_locate cmp key
  have hplug := plug_locate cmp key [] t
  rw [hloc] at hnd hplug
  have hn : n ∉ ctxAddrs zs := by
    intro hmem
    have : n ∈ addrs t := by
      rw [show t = plug zs nil from hplug.symm, (ctxAddrs_perm zs nil).mem_iff]
      simpa using hmem
    exact ne_none_of_rep hm.rep n this hfresh
  set m1 : Mem K := ⟨update m.heap n (some ⟨key, none, none, 1⟩), m.root⟩ with hm1
  obtain ⟨m2, e1, e2, e3⟩ := store_slotOf (m := m1) (some n) (h2.update hn) (by simpa using hnd)
  have hleaf : Rep m2.heap (node nil (n, key) 1 nil) :=
    ⟨(e3 n hn).trans (update_self ..), trivial, trivial⟩
  have hnd' : (addrs (node nil (n, key) 1 (nil : KTree K)) ++ ctxAddrs zs).Nodup := by
    simpa using ⟨hn, by simpa using hnd⟩
  obtain ⟨m3, -, k1, k2, k3, -⟩ := rebalance_spec zs (t := node nil (n, key) 1 nil) e2 hleaf hnd'
  refine ⟨m3, ?_, k2, k3, ?_⟩
  · simp [tsearch, h1, ← hm1, e1, k1, length_slotsOf]
  · have hin : (rebuild zs (node nil (n, key) 1 nil)).inorder =
        (plug zs (node nil (n, key) 1 nil)).inorder := by
      rw [rebuild_inorder, plug_inorder]
    rw [addrs, hin]
    exact (ctxAddrs_perm zs _).nodup_iff.mpr hnd'

end Insertion

/-! ## Deletion -/

/-- The path to the leftmost node, and the subtree at that node. -/
def leftmost : Path K → KTree K → Path K × KTree K
  | ws, nil => (ws, nil)
  | ws, node nil a h r => (ws, node nil a h r)
  | ws, node (node x c k y) a h r => leftmost (⟨false, a, h, r⟩ :: ws) (node x c k y)

theorem plug_leftmost : ∀ (ws : Path K) (t : KTree K),
    plug (leftmost ws t).1 (leftmost ws t).2 = plug ws t
  | _, nil | _, node nil _ _ _ => rfl
  | ws, node (node x c k y) a h r => by rw [leftmost, plug_leftmost]; rfl

theorem leftmost_node : ∀ (ws : Path K) (l : KTree K) (a : ℕ × K) (h : ℕ)
    (r : KTree K), ∃ ws' b k r', leftmost ws (node l a h r) = (ws', node nil b k r')
  | ws, nil, a, h, r => ⟨ws, a, h, r, rfl⟩
  | _, node x c k y, _, _, _ => leftmost_node _ x c k y

theorem before_leftmost : ∀ (ws : Path K) (t : KTree K), before ws = [] →
    before (leftmost ws t).1 = []
  | _, nil, h | _, node nil _ _ _, h => h
  | ws, node (node x c k y) a h r, hb => by
    rw [leftmost]
    exact before_leftmost _ _ (by simp [before, hb])

/-- What is under the path of a deleted node afterwards: the child of a node with at most one child,
the right subtree of the in-order successor of a node with two. -/
def removed : KTree K → KTree K
  | nil => nil
  | node nil _ _ r => r
  | node l _ _ nil => l
  | node (node _ _ _ _) _ _ (node x c k y) => (leftmost [] (node x c k y)).2.right

/-- The path of a deleted node afterwards: the in-order successor of a node with two children stands
in the place of that node, above the path that led to the successor. -/
def removedPath (zs : Path K) : KTree K → Path K
  | node (node lx lc lk ly) _ _ (node x c k y) =>
    match leftmost [] (node x c k y) with
    | (ws, node _ b hb _) => ws ++ ⟨true, b, hb, node lx lc lk ly⟩ :: zs
    | (_, nil) => zs
  | _ => zs

/-- The slots that hold the nodes of `ws`, a path under the path `cs`. -/
def slotsIn (cs : Path K) : Path K → List Slot
  | [] => []
  | _ :: ws => slotOf (ws ++ cs) :: slotsIn cs ws

theorem slotsOf_append (ws cs : Path K) :
    slotsOf (ws ++ cs) = slotsIn cs ws ++ slotsOf cs := by
  induction ws with
  | nil => rfl
  | cons w ws ih => simp [slotsOf, slotsIn, ih]

/-- **The patch of the saved path**: replacing the outermost slot accounts for the new node. -/
theorem slotsIn_patch (c c' : Ctx (ℕ × K)) (zs : Path K) :
    ∀ ws : Path K, (if (slotsIn (c :: zs) ws).isEmpty then slotsIn (c :: zs) ws else
      (slotsIn (c :: zs) ws).dropLast ++ [slotOf (c' :: zs)]) = slotsIn (c' :: zs) ws
  | [] | [w] => rfl
  | w :: w' :: ws => by
    have ih := slotsIn_patch c c' zs (w' :: ws)
    simp only [slotsIn, List.isEmpty_cons, Bool.false_eq_true, if_false, List.dropLast_cons_cons,
      List.cons_append] at ih ⊢
    rw [ih]
    rfl

theorem descendLeft_spec (cs : Path K) :
    ∀ (ws : Path K) (l : KTree K) (a : ℕ × K) (h : ℕ) (r : KTree K) {room : ℕ},
    RepSeg m.heap (ws ++ cs) (some a.1) m.root → Rep m.heap (node l a h r) → l.height ≤ room →
    ∃ ws' b k r', leftmost ws (node l a h r) = (ws', node nil b k r') ∧
      descendLeft m room (slotsIn cs ws) (slotOf (ws ++ cs)) =
        some (slotsIn cs ws', slotOf (ws' ++ cs), b.1) ∧
      RepSeg m.heap (ws' ++ cs) (some b.1) m.root ∧ Rep m.heap (node nil b k r')
  | ws, nil, a, h, r, room, hseg, ht, _ => by
    refine ⟨ws, a, h, r, rfl, ?_, hseg, ht⟩
    rw [descendLeft, load_slotOf hseg]
    simp [ht.1]
  | ws, node x c k y, a, h, r, room, hseg, ⟨ea, hl, hr⟩, hroom => by
    rw [node_height] at hroom
    obtain ⟨room, rfl⟩ := exists_eq_add_one_of_ne_zero (show room ≠ 0 by omega)
    have hseg' : RepSeg m.heap ((⟨false, a, h, r⟩ :: ws) ++ cs) (some c.1) m.root := ⟨ea, hr, hseg⟩
    obtain ⟨ws', b, k', r', e1, e2, e3⟩ := descendLeft_spec cs (⟨false, a, h, r⟩ :: ws) x c k y
      hseg' hl (by omega : x.height ≤ room)
    refine ⟨ws', b, k', r', e1, ?_, e3⟩
    rw [← e2, descendLeft, load_slotOf hseg]
    simp [ea, slotsIn, slotOf]

/-- **The splice.** Before it the path goes through the deleted node `a` down to the successor `b`;
afterwards it goes through `b`, which has the left subtree of `a`, down to the right subtree of `b`.
-/
theorem splice_spec {zs ws : Path K} {a b : ℕ × K} {h k room : ℕ} {l r' : KTree K}
    (hd : descendLeft m room [] (.child a.1 true) =
      some (slotsIn (⟨true, a, h, l⟩ :: zs) ws, slotOf (ws ++ ⟨true, a, h, l⟩ :: zs), b.1))
    (hseg : RepSeg m.heap (ws ++ ⟨true, a, h, l⟩ :: zs) (some b.1) m.root)
    (hb : Rep m.heap (node nil b k r'))
    (hnd : (addrs (node nil b k r') ++ ctxAddrs (ws ++ ⟨true, a, h, l⟩ :: zs)).Nodup) :
    ∃ m', splice m room (slotOf zs) a.1 = some (m', slotsIn (⟨true, b, k, l⟩ :: zs) ws) ∧
      RepSeg m'.heap (ws ++ ⟨true, b, k, l⟩ :: zs) (ptr r') m'.root ∧ Rep m'.heap r' := by
  obtain ⟨eb, -, hr'⟩ := hb
  have hnd' := hnd
  simp only [addrs_node, addrs_nil, List.nil_append, ctxAddrs_append, ctxAddrs, List.cons_append,
    List.nodup_cons, List.nodup_append, List.mem_append, List.mem_cons, not_or] at hnd
  obtain ⟨⟨hbr, hbws, hba, hbl, hbzs⟩, -, ⟨-, ⟨⟨hal, hazs⟩, -, hndzs, hlzs⟩, hws⟩, hall⟩ := hnd
  have hndc : (ctxAddrs (ws ++ ⟨true, a, h, l⟩ :: zs)).Nodup := (List.nodup_append.mp hnd').2.1
  have hnot : b.1 ∉ ctxAddrs (ws ++ ⟨true, a, h, l⟩ :: zs) := by
    simp only [ctxAddrs_append, ctxAddrs, List.mem_append, List.mem_cons, not_or]
    exact ⟨hbws, hba, hbl, hbzs⟩
  -- `*sp = s->a[1]`
  obtain ⟨m1, e1, s1, f1⟩ := store_slotOf (ptr r') hseg hndc
  obtain ⟨q1, s2, ea, hl, s3⟩ := repSeg_append.mp s1
  have eb1 : m1.heap b.1 = some ⟨b.2, none, ptr r', k⟩ := (f1 b.1 hnot).trans eb
  have hr1 : Rep m1.heap r' := hr'.congr fun p hp => f1 p fun hp' => by
    refine hall p hp p ?_ rfl
    simpa only [ctxAddrs_append, ctxAddrs, List.mem_append, List.mem_cons] using hp'
  -- `s->a[0] = del->a[0]; s->a[1] = del->a[1]`
  set H3 := update m1.heap b.1 (some ⟨b.2, ptr l, q1, k⟩)
  have s4 : RepSeg H3 zs (some a.1) m1.root := RepSeg.update s3 hbzs
  -- `*pp = s`
  obtain ⟨m4, e4, s5, f4⟩ := store_slotOf (m := ⟨H3, m1.root⟩) (some b.1) s4 hndzs
  have hframe : ∀ p, p ≠ b.1 → p ∉ ctxAddrs zs → m4.heap p = m1.heap p := fun p h1 h2 =>
    (f4 p h2).trans (update_of_ne h1 _ _)
  refine ⟨m4, ?_, ?_, ?_⟩
  · have ea' : m1.heap a.1 = some ⟨a.2, ptr l, q1, h⟩ := ea
    have hne : a.1 ≠ b.1 := fun e => hba e.symm
    have hpatch := slotsIn_patch ⟨true, a, h, l⟩ ⟨true, b, k, l⟩ zs ws
    simp only [slotOf] at hpatch
    have t2 : m1.store (.child b.1 false) (ptr l) =
        some ⟨update m1.heap b.1 (some ⟨b.2, ptr l, ptr r', k⟩), m1.root⟩ := by
      simp only [Mem.store, eb1, map_some]; rfl
    have t3 : Mem.store ⟨update m1.heap b.1 (some ⟨b.2, ptr l, ptr r', k⟩), m1.root⟩
        (.child b.1 true) q1 = some ⟨H3, m1.root⟩ := by
      simp only [Mem.store, update_self, map_some, update_idem]; rfl
    simp only [splice, hd, bind_eq_bind, bind_some, eb, e1, ea', t2, t3, e4,
      update_of_ne hne, hpatch]
    rfl
  · refine repSeg_append.mpr ⟨q1, s2.congr fun p hp => hframe p ?_ ?_, ?_, hl.congr fun p hp =>
      hframe p ?_ ?_, s5⟩
    · rintro rfl; exact hbws hp
    · intro hp'; exact hws p hp p (by simp [hp']) rfl
    · rw [f4 b.1 hbzs]; exact update_self ..
    · rintro rfl; exact hbl hp
    · intro hp'; exact hlzs p hp p hp' rfl
  · refine hr1.congr fun p hp => hframe p ?_ ?_
    · rintro rfl; exact hbr hp
    · intro hp'; exact hall p hp p (by simp [hp']) rfl

theorem removed_two (zs : Path K) {l r r' : KTree K} (hl : l ≠ nil) (a : ℕ × K) (h : ℕ)
    {b : ℕ × K} {k : ℕ} {ws : Path K} (e : leftmost [] r = (ws, node nil b k r')) :
    removedPath zs (node l a h r) = ws ++ ⟨true, b, k, l⟩ :: zs ∧ removed (node l a h r) = r' := by
  rcases r with _ | ⟨x, c, k', y⟩
  · cases e
  · rcases l with _ | ⟨lx, lc, lk, ly⟩
    · exact absurd rfl hl
    · simp [removedPath, removed, e, right]

/-- What is left of a node: its only child, or the successor's right subtree under the path to it.
-/
theorem removed_cases (zs : Path K) (l : KTree K) (a : ℕ × K) (h : ℕ) (r : KTree K) :
    (removedPath zs (node l a h r) = zs ∧
      (l = nil ∧ removed (node l a h r) = r ∨ r = nil ∧ removed (node l a h r) = l)) ∨
    ∃ ws b k r', plug ws (node nil b k r') = r ∧ before ws = [] ∧
      removedPath zs (node l a h r) = ws ++ ⟨true, b, k, l⟩ :: zs ∧
      removed (node l a h r) = r' := by
  rcases l with _ | ⟨lx, lc, lk, ly⟩
  · exact .inl ⟨rfl, .inl ⟨rfl, rfl⟩⟩
  rcases r with _ | ⟨x, c, k, y⟩
  · exact .inl ⟨rfl, .inr ⟨rfl, rfl⟩⟩
  obtain ⟨ws, b, k', r', e⟩ := leftmost_node [] x c k y
  have hplug := plug_leftmost [] (node x c k y)
  have hb := before_leftmost [] (node x c k y) rfl
  rw [e] at hplug hb
  exact .inr ⟨ws, b, k', r', hplug, hb, removed_two (l := node lx lc lk ly) zs nofun a h e⟩

theorem removed_perm (zs : Path K) (l : KTree K) (a : ℕ × K) (h : ℕ) (r : KTree K) :
    (a.1 :: (addrs (removed (node l a h r)) ++ ctxAddrs (removedPath zs (node l a h r)))).Perm
      (addrs (node l a h r) ++ ctxAddrs zs) := by
  refine List.perm_iff_count.mpr fun x => ?_
  rcases removed_cases zs l a h r with ⟨hpath, ⟨rfl, hrem⟩ | ⟨rfl, hrem⟩⟩ |
    ⟨ws, b, k, r', rfl, -, hpath, hrem⟩
  · rw [hpath, hrem]
    rfl
  · rw [hpath, hrem]
    simp only [addrs_node, addrs_nil, List.count_append, List.count_cons, List.count_nil]
    omega
  · rw [hpath, hrem]
    have hc := List.perm_iff_count.mp (ctxAddrs_perm ws (node nil b k r')) x
    simp only [addrs_node, addrs_nil, List.nil_append, List.count_append, List.count_cons] at hc
    simp only [ctxAddrs_append, ctxAddrs, addrs_node, List.count_append, List.count_cons]
    omega

/-- **The removal before the rebalancing**, in all three cases of the program. -/
theorem unlink_spec {zs : Path K} : ∀ {l : KTree K} {a : ℕ × K} {h : ℕ}
    {r : KTree K}, RepSeg m.heap zs (some a.1) m.root → Rep m.heap (node l a h r) →
    (addrs (node l a h r) ++ ctxAddrs zs).Nodup → zs.length + (node l a h r).height ≤ MAXH →
    ∃ m', unlink m (slotsOf zs) (slotOf zs) a.1 =
        some (m', slotsOf (removedPath zs (node l a h r))) ∧
      RepSeg m'.heap (removedPath zs (node l a h r)) (ptr (removed (node l a h r))) m'.root ∧
      Rep m'.heap (removed (node l a h r))
  | nil, a, h, r, hseg, ⟨ea, _, hr⟩, hnd, _ => by
    rw [List.nodup_append] at hnd
    obtain ⟨m1, e1, e2, e3⟩ := store_slotOf (ptr r) hseg hnd.2.1
    refine ⟨m1, ?_, e2, hr.congr fun p hp => e3 p fun hp' => hnd.2.2 p (by simp [hp]) p hp' rfl⟩
    simp [unlink, ea, e1, removedPath]
  | node lx lc lk ly, a, h, nil, hseg, ⟨ea, hl, _⟩, hnd, _ => by
    rw [List.nodup_append] at hnd
    obtain ⟨m1, e1, e2, e3⟩ := store_slotOf (some lc.1) hseg hnd.2.1
    refine ⟨m1, ?_, e2, hl.congr fun p hp => e3 p fun hp' => hnd.2.2 p ?_ p hp' rfl⟩
    · simp [unlink, ea, e1, removedPath]
    · simp only [addrs_node, List.mem_append, List.mem_cons] at hp ⊢; tauto
  | node lx lc lk ly, a, h, node x c k y, hseg, ⟨ea, hl, hr⟩, hnd, hh => by
    have hseg1 : RepSeg m.heap ([] ++ ⟨true, a, h, node lx lc lk ly⟩ :: zs) (some c.1) m.root :=
      ⟨ea, hl, hseg⟩
    simp only [node_height] at hh
    obtain ⟨ws, b, k', r', e1, e2, e3, e4⟩ :=
      descendLeft_spec (⟨true, a, h, node lx lc lk ly⟩ :: zs)
      [] x c k y hseg1 hr (by omega : x.height ≤ MAXH + 1 - (zs.length + 1))
    have hp : (addrs (node x c k y)).Perm (addrs (node nil b k' r') ++ ctxAddrs ws) := by
      have hp := ctxAddrs_perm ws (node nil b k' r')
      have hplug := plug_leftmost [] (node x c k y)
      rw [e1] at hplug
      rwa [show plug ws (node nil b k' r') = node x c k y from hplug] at hp
    have hnd1 : (addrs (node nil b k' r') ++
        ctxAddrs (ws ++ ⟨true, a, h, node lx lc lk ly⟩ :: zs)).Nodup := by
      refine (List.Perm.nodup_iff (List.perm_iff_count.mpr fun z => ?_)).mp hnd
      have hc := List.perm_iff_count.mp hp z
      simp only [ctxAddrs_append, ctxAddrs, addrs_node, addrs_nil, List.nil_append,
        List.count_append, List.count_cons] at hc ⊢
      omega
    obtain ⟨m1, f1, f2, f3⟩ := splice_spec e2 e3 e4 hnd1
    obtain ⟨hpath, hrem⟩ := removed_two (l := node lx lc lk ly) zs (by simp) a h e1
    rw [hpath, hrem]
    refine ⟨m1, ?_, f2, f3⟩
    have hlen : zs.length < MAXH + 1 := by omega
    simp only [unlink, ea, ptr_node, bind_eq_bind, bind_some, length_slotsOf, hlen,
      if_true, f1]
    rw [slotsOf_append]
    rfl

/-- **`tdelete`**: a key that is not there changes nothing; otherwise its node is taken out and the
path it leaves is rebalanced. -/
theorem tdelete_spec {t : KTree K} (hm : Holds m t) (hh : t.height ≤ MAXH) (key : K) :
    match locate cmp key [] t with
    | (zs, nil) => tdelete cmp m key = some (m, none, zs.length)
    | (zs, node l a h r) => ∃ m', tdelete cmp m key = some (m', some (slotOf zs).parent,
        (removedPath zs (node l a h r)).length) ∧
      Holds m' (rebuild (removedPath zs (node l a h r)) (removed (node l a h r))) := by
  obtain ⟨h1, h2, h3⟩ := descend_spec cmp key [] t (m := m) hm.root.symm hm.rep
    (show t.height ≤ MAXH + 1 by omega)
  have hnd := hm.nodup_locate cmp key
  have hlen := length_locate_le cmp key t
  rw [show slotsOf ([] : Path K) = [] from rfl,
    show slotOf ([] : Path K) = .root from rfl] at h1
  generalize locate cmp key [] t = v at *
  obtain ⟨zs, u⟩ := v
  cases u with
  | nil => simp [tdelete, h1, length_slotsOf]
  | node l a h r =>
    simp only at h1 h2 h3 hnd hlen ⊢
    obtain ⟨m1, e1, e2, e3⟩ := unlink_spec h2 h3 hnd (by omega)
    have hnd1 := (removed_perm zs l a h r).nodup_iff.mpr hnd
    rw [List.nodup_cons, List.mem_append, not_or] at hnd1
    obtain ⟨⟨ha1, ha2⟩, hnd1⟩ := hnd1
    obtain ⟨m2, f1, -, f2, f3, -⟩ := rebalance_spec (removedPath zs (node l a h r))
      (m := ⟨update m1.heap a.1 none, m1.root⟩) (e2.update ha2) (e3.update ha1) hnd1
    refine ⟨m2, ?_, f2, f3, ?_⟩
    · simp [tdelete, h1, e1, f1, length_slotsOf]
    · rw [addrs, rebuild_inorder, ← plug_inorder]
      exact (ctxAddrs_perm _ _).nodup_iff.mpr hnd1

end Citadel.Search.Ops
