import Citadel.Search.Ops
import Mathlib.Data.Finset.Card
import Mathlib.Data.Finset.Dedup
import Mathlib.Order.Interval.Finset.Nat
import Mathlib.Tactic.NormNum.NatFib

/-!
# Runs of `tsearch` and `tdelete`

`Reach cmp m S`: the memory `m` is reached from an empty root variable by some sequence of calls,
and `S` is the set of the keys inserted and not since deleted. `Good` is the invariant of the
memory: it holds an AVL tree whose in-order keys are strictly increasing and are those of `S`.

One call from a good memory is defined, saves at most `MAXH` slots and gives a good memory again
(`good_tsearch`, `good_tdelete`); hence every reachable memory is good (`reach_good`), and `twalk`
and `tdestroy` find their way through it (`twalk_sorted`, `tdestroy_frees`).
-/

namespace Citadel.Search.Run

open Citadel.Lib.AvlTree Function Prod Finset
open Citadel.Lib.AvlTree.HTree hiding height balance
open Citadel.Search.Tsearch Citadel.Search.Layout Citadel.Search.Ops

variable {K : Type}

/-- `cmp` is a strict total order: `cmp a b` is negative, zero or positive as `a` is less than,
equal to or greater than `b`. -/
structure StrictTotal (cmp : K → K → ℤ) : Prop where
  eq_zero : ∀ a b, cmp a b = 0 ↔ a = b
  pos : ∀ a b, 0 < cmp a b ↔ cmp b a < 0
  trans : ∀ a b c, cmp a b < 0 → cmp b c < 0 → cmp a c < 0

def keys (t : KTree K) : List K := t.inorder.map snd

variable (cmp : K → K → ℤ)

/-- The keys before the hole of a path are below `key`, those after it above. -/
def Around (key : K) (zs : Path K) : Prop :=
  (∀ x ∈ before zs, cmp x.2 key < 0) ∧ ∀ x ∈ after zs, cmp key x.2 < 0

variable {cmp} (hcmp : StrictTotal cmp)
include hcmp

theorem locate_around (key : K) : ∀ (zs : Path K) (t : KTree K),
    (keys (plug zs t)).Pairwise (fun a b => cmp a b < 0) → Around cmp key zs →
    Around cmp key (locate cmp key zs t).1 ∧
      ∀ l a h r, (locate cmp key zs t).2 = node l a h r → a.2 = key
  | zs, nil, _, hz => ⟨hz, fun l a h r e => by cases e⟩
  | zs, node l a h r, hs, hz => by
    have hs' := hs
    simp only [keys, plug_inorder, inorder, List.map_append, List.map_cons, List.pairwise_append,
      List.pairwise_cons, List.mem_append, List.mem_cons, List.mem_map] at hs
    obtain ⟨⟨-, ⟨-, ⟨har, -⟩, hla⟩, -⟩, -, -⟩ := hs
    unfold locate
    split_ifs with h0 h1
    · refine ⟨hz, fun l' a' h' r' e => ?_⟩
      cases e
      exact ((hcmp.eq_zero key a.2).mp h0).symm
    · have ha : cmp a.2 key < 0 := (hcmp.pos key a.2).mp h1
      refine locate_around key (⟨true, a, h, l⟩ :: zs) r hs' ⟨fun x hx => ?_, fun x hx => ?_⟩
      · simp only [before, if_true, List.mem_append, List.mem_singleton] at hx
        rcases hx with hx | hx | rfl
        · exact hz.1 x hx
        · exact hcmp.trans _ _ _ (hla x.2 ⟨x, hx, rfl⟩ a.2 (.inl rfl)) ha
        · exact ha
      · simp only [after, if_true, List.nil_append] at hx
        exact hz.2 x hx
    · have ha : cmp key a.2 < 0 := by omega
      refine locate_around key (⟨false, a, h, r⟩ :: zs) l hs' ⟨fun x hx => ?_, fun x hx => ?_⟩
      · simp only [before, Bool.false_eq_true, if_false, List.append_nil] at hx
        exact hz.1 x hx
      · simp only [after, Bool.false_eq_true, if_false, List.cons_append, List.mem_cons,
          List.mem_append] at hx
        rcases hx with rfl | hx | hx
        · exact ha
        · exact hcmp.trans _ _ _ ha (har x.2 ⟨x, hx, rfl⟩)
        · exact hz.2 x hx

omit hcmp

theorem sorted_insert {key : K} {zs : Path K} {n : ℕ} (hz : Around cmp key zs)
    (hs : ((before zs ++ after zs).map snd).Pairwise (fun a b => cmp a b < 0)) :
    ((before zs ++ (n, key) :: after zs).map snd).Pairwise (fun a b => cmp a b < 0) := by
  rw [List.map_append, List.pairwise_append] at hs
  obtain ⟨hs1, hs2, hs3⟩ := hs
  rw [List.map_append, List.map_cons, List.pairwise_append, List.pairwise_cons]
  refine ⟨hs1, ⟨?_, hs2⟩, ?_⟩
  · intro k hk
    obtain ⟨x, hx, rfl⟩ := List.mem_map.mp hk
    exact hz.2 x hx
  · intro k hk k' hk'
    rcases List.mem_cons.mp hk' with rfl | hk'
    · obtain ⟨x, hx, rfl⟩ := List.mem_map.mp hk
      exact hz.1 x hx
    · exact hs3 k hk k' hk'

/-! ## The tree without a node -/

theorem removed_inorder (zs : Path K) (l : KTree K) (a : ℕ × K) (h : ℕ) (r : KTree K) :
    (rebuild (removedPath zs (node l a h r)) (removed (node l a h r))).inorder =
      before zs ++ (l.inorder ++ r.inorder) ++ after zs := by
  rcases removed_cases zs l a h r with ⟨hpath, ⟨rfl, hrem⟩ | ⟨rfl, hrem⟩⟩ |
    ⟨ws, b, k, r', rfl, hb, hpath, hrem⟩ <;> rw [rebuild_inorder, hpath, hrem]
  · rfl
  · simp [inorder]
  · rw [before_append, after_append, plug_inorder, hb]
    simp [before, after, inorder]

theorem removed_avl (zs : Path K) {l : KTree K} {a : ℕ × K} {h : ℕ} {r : KTree K}
    (ht : (plug zs (node l a h r)).Avl) :
    (rebuild (removedPath zs (node l a h r)) (removed (node l a h r))).Avl := by
  obtain ⟨⟨hl, hr, -, h1, h2⟩, hz⟩ := avl_of_plug zs _ ht
  have h0 : (nil : KTree K).height = 0 := rfl
  rw [node_height] at hz
  rcases removed_cases zs l a h r with ⟨hpath, ⟨rfl, hrem⟩ | ⟨rfl, hrem⟩⟩ |
    ⟨ws, b, k, r', rfl, -, hpath, hrem⟩ <;> rw [hpath, hrem]
  · exact avl_rebuild zs r _ hz hr (by omega) (by omega)
  · exact avl_rebuild zs l _ hz hl (by omega) (by omega)
  · obtain ⟨⟨-, hr', -, -, -⟩, hws⟩ := avl_of_plug ws _ hr
    have hn : (node nil b k r').height = 1 + r'.height := by simp [HTree.height]
    refine avl_rebuild _ r' (node nil b k r').height ?_ hr' (by omega) (by omega)
    rw [avlPath_append]
    refine ⟨hws, hl, h2, h1, ?_⟩
    rwa [Nat.max_comm]

theorem length_removedPath_le (zs : Path K) (l : KTree K) (a : ℕ × K) (h : ℕ) (r : KTree K) :
    (removedPath zs (node l a h r)).length ≤ (plug zs (node l a h r)).height := by
  have h1 := length_le_height_plug zs (node l a h r)
  rcases removed_cases zs l a h r with ⟨hpath, -⟩ | ⟨ws, b, k, r', rfl, -, hpath, -⟩ <;> rw [hpath]
  · omega
  · have h2 := length_le_height_plug ws (node nil b k r')
    rw [List.length_append, List.length_cons]
    simp only [node_height] at h1 h2
    omega

/-! ## The invariant -/

/-- `malloc` answers with a null pointer or with a 64-bit address that is not in use. -/
def Fresh (m : Mem K) (malloc : Option ℕ) : Prop :=
  ∀ n, malloc = some n → 0 < n ∧ n < 2 ^ 64 ∧ m.heap n = none

variable [DecidableEq K]

/-- The memory holds the AVL search tree `t` of the keys `S`. -/
structure Good (cmp : K → K → ℤ) (m : Mem K) (S : Finset K) (t : KTree K) : Prop where
  holds : Holds m t
  addr : ∀ x ∈ t.inorder, 0 < x.1 ∧ x.1 < 2 ^ 64
  avl : t.Avl
  sorted : (keys t).Pairwise (fun a b => cmp a b < 0)
  keys_eq : (keys t).toFinset = S

variable {m : Mem K} {S : Finset K} {t : KTree K}

theorem Good.length_lt (h : Good cmp m S t) : t.inorder.length < 2 ^ 64 := by
  have hn : (t.inorder.map fst).Nodup := h.holds.nodup
  have hsub : (t.inorder.map fst).toFinset ⊆ Finset.Ico 1 (2 ^ 64) := by
    intro p hp
    obtain ⟨x, hx, rfl⟩ := List.mem_map.mp (List.mem_toFinset.mp hp)
    exact mem_Ico.mpr (h.addr x hx)
  have hc := card_le_card hsub
  rw [List.toFinset_card_of_nodup hn, List.length_map, Nat.card_Ico] at hc
  omega

theorem Good.height_le (h : Good cmp m S t) : t.height ≤ MAXH := by
  refine h.avl.height_le (lt_of_le_of_lt h.length_lt ?_)
  rw [show MAXH + 3 = 103 from rfl]
  norm_num

theorem Good.nodup (hcmp : StrictTotal cmp) (h : Good cmp m S t) : (keys t).Nodup := by
  refine h.sorted.imp fun {a b} hab e => ?_
  rw [(hcmp.eq_zero a b).mpr e] at hab
  exact lt_irrefl _ hab

theorem Good.mem_iff (h : Good cmp m S t) (key : K) : key ∈ S ↔ ∃ x ∈ t.inorder, x.2 = key := by
  rw [← h.keys_eq, List.mem_toFinset, keys, List.mem_map]

section Calls

variable (hcmp : StrictTotal cmp)
include hcmp

theorem Good.around (h : Good cmp m S t) (key : K) :
    Around cmp key (locate cmp key [] t).1 ∧
      ∀ l a k r, (locate cmp key [] t).2 = node l a k r → a.2 = key :=
  locate_around hcmp key [] t h.sorted ⟨by simp [before], by simp [after]⟩

theorem Good.found_iff (h : Good cmp m S t) (key : K) :
    (ptr (locate cmp key [] t).2).isSome ↔ key ∈ S := by
  obtain ⟨⟨hb, ha⟩, hk⟩ := h.around hcmp key
  have hp : t.inorder = _ := congrArg inorder (plug_locate cmp key [] t).symm
  rw [plug_inorder] at hp
  rw [h.mem_iff, hp]
  have hself : ¬ cmp key key < 0 := by rw [(hcmp.eq_zero key key).mpr rfl]; omega
  cases hu : (locate cmp key [] t).2 with
  | nil =>
    refine iff_of_false (by simp) ?_
    rintro ⟨x, hx, rfl⟩
    simp only [inorder, List.append_nil, List.mem_append] at hx
    rcases hx with hx | hx
    · exact hself (hb x hx)
    · exact hself (ha x hx)
  | node l a k r =>
    refine iff_of_true (by simp) ⟨a, ?_, hk l a k r hu⟩
    simp [inorder]

/-- **`tfind`** succeeds exactly for the keys of the tree. -/
theorem Good.tfind (h : Good cmp m S t) (key : K) {fuel : ℕ} (hf : MAXH ≤ fuel) :
    ∃ r, tfind cmp fuel m key = some r ∧ (r.isSome ↔ key ∈ S) := by
  refine ⟨_, ?_, h.found_iff hcmp key⟩
  rw [Tsearch.tfind, h.holds.root]
  exact tfindLoop_spec cmp key [] t h.holds.rep (le_trans h.height_le hf)

theorem good_tsearch (h : Good cmp m S t) (key : K) {malloc : Option ℕ} (hf : Fresh m malloc) :
    ∃ m' ret saved t', tsearch cmp malloc m key = some (m', ret, saved) ∧ saved ≤ MAXH ∧
      Good cmp m' (if ret.isSome then insert key S else S) t' := by
  have hlen := length_locate_le cmp key t
  have hfound := h.found_iff hcmp key
  have hz := (h.around hcmp key).1
  have hp : plug _ _ = t := plug_locate cmp key [] t
  have hh := h.height_le
  rcases hloc : locate cmp key [] t with ⟨zs, u⟩
  rw [hloc] at hlen hfound hz hp
  have hsaved : zs.length ≤ MAXH := by simp only at hlen; omega
  cases u with
  | node l a k r =>
    refine ⟨m, some a.1, zs.length, t, tsearch_found cmp h.holds hh malloc hloc, hsaved, ?_⟩
    rwa [Option.isSome_some, if_pos rfl, insert_eq_of_mem (hfound.mp rfl)]
  | nil =>
    cases malloc with
    | none => exact ⟨m, none, zs.length, t, tsearch_no_memory cmp h.holds hh hloc, hsaved, h⟩
    | some n =>
      obtain ⟨hn0, hn1, hn2⟩ := hf n rfl
      obtain ⟨m', hrun, hm'⟩ := tsearch_insert cmp h.holds hh hn2 hloc
      have hin : (rebuild zs (node nil (n, key) 1 nil)).inorder =
          before zs ++ (n, key) :: after zs := by
        rw [rebuild_inorder]; simp [inorder]
      have hold : t.inorder = before zs ++ after zs := by
        rw [← hp, plug_inorder]; simp [inorder]
      refine ⟨m', some n, zs.length, _, hrun, hsaved, hm', ?_, ?_, ?_, ?_⟩
      · intro x hx
        rw [hin, List.mem_append, List.mem_cons] at hx
        have hadd := h.addr x
        rw [hold, List.mem_append] at hadd
        rcases hx with hx | rfl | hx
        · exact hadd (.inl hx)
        · exact ⟨hn0, hn1⟩
        · exact hadd (.inr hx)
      · obtain ⟨-, hpath⟩ := avl_of_plug zs nil (by rw [hp]; exact h.avl)
        have hleaf : (node nil (n, key) 1 nil : KTree K).Avl :=
          avl_mk trivial trivial (by simp) (by simp)
        exact avl_rebuild zs _ _ hpath hleaf le_rfl (by simp [HTree.height])
      · have hs := h.sorted
        rw [keys, hold] at hs
        rw [keys, hin]
        exact sorted_insert hz hs
      · rw [Option.isSome_some, if_pos rfl, ← h.keys_eq, keys, keys, hin, hold]
        ext k
        simp only [List.mem_toFinset, List.map_append, List.map_cons, List.mem_append,
          List.mem_cons, mem_insert]
        tauto

theorem good_tdelete (h : Good cmp m S t) (key : K) :
    ∃ m' ret saved t', tdelete cmp m key = some (m', ret, saved) ∧ saved ≤ MAXH ∧
      (ret.isSome ↔ key ∈ S) ∧ Good cmp m' (S.erase key) t' := by
  have hspec := tdelete_spec cmp h.holds h.height_le key
  have hlen := length_locate_le cmp key t
  have hfound := h.found_iff hcmp key
  have hk := (h.around hcmp key).2
  have hp : plug _ _ = t := plug_locate cmp key [] t
  have hh := h.height_le
  generalize locate cmp key [] t = v at *
  obtain ⟨zs, u⟩ := v
  cases u with
  | nil =>
    have hn : key ∉ S := fun hk => by simpa using hfound.mpr hk
    refine ⟨m, none, zs.length, t, hspec, ?_, iff_of_false (by simp) hn, ?_⟩
    · simp only at hlen; omega
    · rwa [erase_eq_of_notMem hn]
  | node l a k r =>
    obtain ⟨m', hrun, hm'⟩ := hspec
    have hkey : a.2 = key := hk l a k r rfl
    have hin : (rebuild (removedPath zs (node l a k r)) (removed (node l a k r))).inorder =
        (before zs ++ l.inorder) ++ (r.inorder ++ after zs) := by
      rw [removed_inorder]; simp
    have hold : t.inorder = (before zs ++ l.inorder) ++ a :: (r.inorder ++ after zs) := by
      rw [← hp, plug_inorder]; simp [inorder]
    have hsub : (rebuild (removedPath zs (node l a k r)) (removed (node l a k r))).inorder.Sublist
        t.inorder := by
      rw [hin, hold]
      exact (List.Sublist.refl _).append (List.sublist_cons_self a _)
    refine ⟨m', _, _, _, hrun, ?_, iff_of_true rfl (hfound.mp rfl), hm', ?_, ?_, ?_, ?_⟩
    · have hl := length_removedPath_le zs l a k r
      rw [show plug zs (node l a k r) = t from hp] at hl
      omega
    · exact fun x hx => h.addr x (hsub.subset hx)
    · exact removed_avl zs (by rw [show plug zs (node l a k r) = t from hp]; exact h.avl)
    · exact h.sorted.sublist (hsub.map _)
    · have hn := h.nodup hcmp
      rw [keys, hold, List.map_append, List.map_cons, List.nodup_middle, List.nodup_cons,
        hkey] at hn
      rw [← h.keys_eq, keys, keys, hin, hold]
      ext x
      simp only [List.map_append, List.map_cons, List.mem_toFinset, List.mem_append, List.mem_cons,
        mem_erase, hkey] at hn ⊢
      refine ⟨fun hx => ⟨?_, by tauto⟩, fun hx => by tauto⟩
      rintro rfl
      exact hn.1 hx

end Calls

/-! ## Runs -/

/-- The memories reached from an empty root variable, each with the set of the keys inserted and not
since deleted. -/
inductive Reach (cmp : K → K → ℤ) : Mem K → Finset K → Prop
  | start (H : Heap K) : Reach cmp ⟨H, none⟩ ∅
  | search {m m' : Mem K} {S : Finset K} {malloc ret : Option ℕ} {saved : ℕ} (key : K) :
      Reach cmp m S → Fresh m malloc → tsearch cmp malloc m key = some (m', ret, saved) →
      Reach cmp m' (if ret.isSome then insert key S else S)
  | delete {m m' : Mem K} {S : Finset K} {ret : Option Parent} {saved : ℕ} (key : K) :
      Reach cmp m S → tdelete cmp m key = some (m', ret, saved) → Reach cmp m' (S.erase key)

theorem reach_good (hcmp : StrictTotal cmp) (h : Reach cmp m S) : ∃ t, Good cmp m S t := by
  induction h with
  | start H => exact ⟨nil, ⟨rfl, trivial, List.nodup_nil⟩, by simp [inorder], trivial,
    List.Pairwise.nil, rfl⟩
  | search key _ hf hrun ih =>
    obtain ⟨t, ht⟩ := ih
    obtain ⟨m1, ret, saved, t', hrun', -, hg⟩ := good_tsearch hcmp ht key hf
    rw [hrun] at hrun'
    cases hrun'
    exact ⟨t', hg⟩
  | delete key _ hrun ih =>
    obtain ⟨t, ht⟩ := ih
    obtain ⟨m1, ret, saved, t', hrun', -, -, hg⟩ := good_tdelete hcmp ht key
    rw [hrun] at hrun'
    cases hrun'
    exact ⟨t', hg⟩

/-- A call, with the address of the node that `malloc` gives to `tsearch`. -/
inductive Call (K : Type) where
  | search (key : K) (n : ℕ)
  | delete (key : K)

/-- The calls one after another, as far as every new node has an address that is free. -/
def play (cmp : K → K → ℤ) : List (Call K) → Mem K × Finset K → Option (Mem K × Finset K)
  | [], c => some c
  | .search key n :: cs, (m, S) =>
    if 0 < n ∧ n < 2 ^ 64 ∧ (m.heap n).isNone then do
      let (m, ret, _) ← tsearch cmp (some n) m key
      play cmp cs (m, if ret.isSome then insert key S else S)
    else none
  | .delete key :: cs, (m, S) => do
    let (m, _, _) ← tdelete cmp m key
    play cmp cs (m, S.erase key)

theorem Reach.play {m' : Mem K} {S' : Finset K} : ∀ {cs : List (Call K)} {m : Mem K} {S : Finset K},
    Reach cmp m S → play cmp cs (m, S) = some (m', S') → Reach cmp m' S'
  | [], _, _, h, hp => by
    cases hp
    exact h
  | .search key n :: cs, m, S, h, hp => by
    rw [Run.play] at hp
    split_ifs at hp with hn
    obtain ⟨⟨m1, ret, saved⟩, hrun, hp⟩ := Option.bind_eq_some_iff.mp hp
    refine (h.search key (fun n' hn' => ?_) hrun).play hp
    cases hn'
    exact ⟨hn.1, hn.2.1, Option.isNone_iff_eq_none.mp hn.2.2⟩
  | .delete key :: cs, m, S, h, hp => by
    obtain ⟨⟨m1, ret, saved⟩, hrun, hp⟩ := Option.bind_eq_some_iff.mp hp
    exact (h.delete key hrun).play hp

theorem strictTotal_sub : StrictTotal fun a b : ℤ => a - b where
  eq_zero a b := by constructor <;> intro h <;> omega
  pos a b := by constructor <;> intro h <;> omega
  trans a b c h1 h2 := by omega

/-- Five keys in ascending order, with two rotations, and the deletion of the root, which has two
children and a successor below the right one. -/
theorem reach_five : ∃ m : Mem ℤ, m.root = some 3 ∧
    Reach (fun a b => a - b) m {1, 3, 4, 5} := by
  have hrun : (play (fun a b : ℤ => a - b) [.search 1 1, .search 2 2, .search 3 3, .search 4 4,
      .search 5 5, .delete 2] (⟨fun _ => none, none⟩, ∅)).map (fun c => (c.1.root, c.2)) =
        some (some 3, {1, 3, 4, 5}) := by decide +kernel
  obtain ⟨⟨m, S⟩, hp, hm⟩ := Option.map_eq_some_iff.mp hrun
  obtain ⟨hroot, rfl⟩ := Prod.mk.inj hm
  exact ⟨m, hroot, (Reach.start _).play hp⟩

/-- **The representation invariant over any run.** The memory holds a search tree with true stored
heights and balanced siblings whose in-order keys are those inserted and not since deleted; `tfind`
succeeds exactly for these; and the next call, whatever it is, is defined and saves at most `MAXH`
slots. -/
theorem tree_invariant (hcmp : StrictTotal cmp) (h : Reach cmp m S) :
    (∃ t, Holds m t ∧ t.Avl ∧ (keys t).Pairwise (fun a b => cmp a b < 0) ∧ (keys t).Nodup ∧
      (keys t).toFinset = S ∧ t.inorder.length < 2 ^ 64) ∧
    (∀ key fuel, MAXH ≤ fuel → ∃ r, tfind cmp fuel m key = some r ∧ (r.isSome ↔ key ∈ S)) ∧
    (∀ key malloc, Fresh m malloc → ∃ m' ret saved,
      tsearch cmp malloc m key = some (m', ret, saved) ∧ saved ≤ MAXH) ∧
    ∀ key, ∃ m' ret saved, tdelete cmp m key = some (m', ret, saved) ∧ saved ≤ MAXH ∧
      (ret.isSome ↔ key ∈ S) := by
  obtain ⟨t, ht⟩ := reach_good hcmp h
  refine ⟨⟨t, ht.holds, ht.avl, ht.sorted, ht.nodup hcmp, ht.keys_eq, ht.length_lt⟩,
    fun key fuel hf => ht.tfind hcmp key hf, fun key malloc hf => ?_, fun key => ?_⟩
  · obtain ⟨m', ret, saved, -, hrun, hs, -⟩ := good_tsearch hcmp ht key hf
    exact ⟨m', ret, saved, hrun, hs⟩
  · obtain ⟨m', ret, saved, -, hrun, hs, hr, -⟩ := good_tdelete hcmp ht key
    exact ⟨m', ret, saved, hrun, hs, hr⟩

theorem tree_invariant_five : ∃ m, m.root = some 3 ∧
    Reach (fun a b : ℤ => a - b) m {1, 3, 4, 5} ∧
    (∀ key fuel, MAXH ≤ fuel → ∃ r, tfind (fun a b => a - b) fuel m key = some r ∧
      (r.isSome ↔ key ∈ ({1, 3, 4, 5} : Finset ℤ))) ∧
    ∀ key, ∃ m' ret saved, tdelete (fun a b => a - b) m key = some (m', ret, saved) ∧ saved ≤ MAXH ∧
      (ret.isSome ↔ key ∈ ({1, 3, 4, 5} : Finset ℤ)) := by
  obtain ⟨m, hroot, hr⟩ := reach_five
  obtain ⟨-, hfind, -, hdelete⟩ := tree_invariant strictTotal_sub hr
  exact ⟨m, hroot, hr, hfind, hdelete⟩

/-! ## The whole tree -/

/-- The visits of a node between those of its subtrees. -/
def inOrder : ℕ × Visit × ℕ → Option ℕ
  | (n, .postorder, _) | (n, .leaf, _) => some n
  | _ => none

omit [DecidableEq K] in
theorem walk_spec {H : Heap K} : ∀ {t : KTree K} {fuel : ℕ} (level : ℕ), Rep H t → t.height ≤ fuel →
    ∃ vs, walk H fuel (ptr t) level = some vs ∧ vs.filterMap inOrder = addrs t
  | nil, _, _, _, _ => ⟨[], by simp [walk], rfl⟩
  | node l a h r, 0, _, _, hf => by simp [HTree.height] at hf
  | node l a h r, fuel + 1, level, ⟨hn, hl, hr⟩, hf => by
    rw [HTree.height] at hf
    obtain ⟨vl, hwl, hvl⟩ := walk_spec (level + 1) hl (show l.height ≤ fuel by omega)
    obtain ⟨vr, hwr, hvr⟩ := walk_spec (level + 1) hr (show r.height ≤ fuel by omega)
    by_cases hleaf : ptr l = none ∧ ptr r = none
    · rw [hleaf.1, walk] at hwl
      rw [hleaf.2, walk] at hwr
      cases hwl
      cases hwr
      exact ⟨[(a.1, .leaf, level)], by simp [walk, hn, hleaf], by simp [inOrder, ← hvl, ← hvr]⟩
    · exact ⟨_, by simp [walk, hn, hleaf, hwl, hwr]; rfl,
        by simp [List.filterMap_cons, inOrder, hvl, hvr]⟩

/-- **`twalk` visits the keys in order**, whatever calls have built the tree. -/
theorem twalk_sorted {fuel : ℕ} (hcmp : StrictTotal cmp) (h : Reach cmp m S) (hf : MAXH ≤ fuel) :
    ∃ t vs, Holds m t ∧ (keys t).Pairwise (fun a b => cmp a b < 0) ∧ (keys t).toFinset = S ∧
      twalk fuel m = some vs ∧ vs.filterMap inOrder = addrs t := by
  obtain ⟨t, ht⟩ := reach_good hcmp h
  obtain ⟨vs, hw, hvs⟩ := walk_spec 0 ht.holds.rep (ht.height_le.trans hf)
  exact ⟨t, vs, ht.holds, ht.sorted, ht.keys_eq, by rw [twalk, ht.holds.root, hw], hvs⟩

theorem twalk_sorted_five : ∃ m t vs, Reach (fun a b : ℤ => a - b) m {1, 3, 4, 5} ∧ Holds m t ∧
    (keys t).Pairwise (fun a b => a - b < 0) ∧ (keys t).toFinset = {1, 3, 4, 5} ∧
    twalk MAXH m = some vs ∧ vs.filterMap inOrder = addrs t := by
  obtain ⟨m, -, hr⟩ := reach_five
  obtain ⟨t, vs, h⟩ := twalk_sorted strictTotal_sub hr le_rfl
  exact ⟨m, t, vs, hr, h⟩

omit [DecidableEq K] in
theorem tdestroy_spec : ∀ {t : KTree K} {fuel : ℕ} {H : Heap K}, Rep H t → (addrs t).Nodup →
    t.height ≤ fuel → ∃ H' ks, tdestroy fuel H (ptr t) = some (H', ks) ∧ ks.Perm (keys t) ∧
      ∀ p, H' p = if p ∈ addrs t then none else H p
  | nil, _, H, _, _, _ => ⟨H, [], by simp [tdestroy], .nil, by simp⟩
  | node l a h r, 0, _, _, _, hf => by simp [HTree.height] at hf
  | node l a h r, fuel + 1, H, ⟨hn, hl, hr⟩, hnd, hf => by
    rw [HTree.height] at hf
    rw [addrs_node, List.nodup_append] at hnd
    obtain ⟨hndl, hnda, hdis⟩ := hnd
    obtain ⟨har, hndr⟩ := List.nodup_cons.mp hnda
    have hal : a.1 ∉ addrs l := fun h => hdis _ h _ List.mem_cons_self rfl
    obtain ⟨H1, k1, hd1, hp1, hH1⟩ := tdestroy_spec hl hndl (show l.height ≤ fuel by omega)
    have hr1 : Rep H1 r := hr.congr fun p hp => by
      rw [hH1, if_neg fun h => hdis _ h _ (List.mem_cons_of_mem _ hp) rfl]
    obtain ⟨H2, k2, hd2, hp2, hH2⟩ := tdestroy_spec hr1 hndr (show r.height ≤ fuel by omega)
    -- the node itself is there until it is released
    have hn1 : H1 a.1 = H a.1 := by rw [hH1, if_neg hal]
    have hn2 : H2 a.1 = H1 a.1 := by rw [hH2, if_neg har]
    refine ⟨update H2 a.1 none, k1 ++ k2 ++ [a.2], by simp [tdestroy, hn2, hn1, hn, hd1, hd2],
      ?_, fun p => ?_⟩
    · have hkeys : keys (node l a h r) = keys l ++ a.2 :: keys r := by simp [keys, inorder]
      rw [hkeys, List.append_assoc]
      exact hp1.append ((hp2.append_right _).trans (List.perm_append_singleton _ _))
    · by_cases hp : p = a.1
      · simp [hp]
      · simp only [update_of_ne hp, hH2, hH1, addrs_node, List.mem_append, List.mem_cons, hp,
          false_or]
        split_ifs <;> simp_all

/-- **`tdestroy` releases everything once**: the nodes of the tree, and each key in it. -/
theorem tdestroy_frees {fuel : ℕ} (hcmp : StrictTotal cmp) (h : Reach cmp m S) (hf : MAXH ≤ fuel) :
    ∃ t H' ks, Holds m t ∧ tdestroy fuel m.heap m.root = some (H', ks) ∧
      (∀ p, H' p = if p ∈ addrs t then none else m.heap p) ∧ ks.Nodup ∧ ks.toFinset = S := by
  obtain ⟨t, ht⟩ := reach_good hcmp h
  obtain ⟨H', ks, hd, hp, hH⟩ :=
    tdestroy_spec ht.holds.rep ht.holds.nodup (ht.height_le.trans hf)
  exact ⟨t, H', ks, ht.holds, ht.holds.root ▸ hd, hH, hp.nodup_iff.mpr (ht.nodup hcmp),
    (List.toFinset_eq_of_perm _ _ hp).trans ht.keys_eq⟩

theorem tdestroy_frees_five : ∃ m t H' ks, Reach (fun a b : ℤ => a - b) m {1, 3, 4, 5} ∧ Holds m t ∧
    tdestroy MAXH m.heap m.root = some (H', ks) ∧
    (∀ p, H' p = if p ∈ addrs t then none else m.heap p) ∧ ks.Nodup ∧
    ks.toFinset = {1, 3, 4, 5} := by
  obtain ⟨m, -, hr⟩ := reach_five
  obtain ⟨t, H', ks, h⟩ := tdestroy_frees strictTotal_sub hr le_rfl
  exact ⟨m, t, H', ks, hr, h⟩

end Citadel.Search.Run
