import Mathlib.Data.List.Basic
import Mathlib.Data.List.Nodup
import Mathlib.Data.List.Perm.Subperm
import Mathlib.Logic.Relation

/-!
# Walks over a graph whose marks are part of a state

A walk reads the successors of a node and its mark from a state, and changes the state where it
enters and leaves a node. Entering a node marks it, and no step of the walk changes the successors.

* `dfs`: the walk by recursion. `dfs_rule` is its invariant rule, and `walked_dfs` says what is
  marked at the end and in which order the nodes are left: without cycles, the successors of a node
  come before it.
* `bfs`: the walk by a queue. `breadthFirst_bfs`: the queue holds what can be reached, each node
  once, in the order of the distance.
-/

namespace Citadel.Lib.Graph

open List

variable {σ α : Type*}

/-- What a walk reads and does. -/
structure Walk (σ α : Type*) where
  seen : σ → α → Bool
  succ : σ → α → List α
  enter : α → σ → σ
  leave : α → σ → σ := fun _ s => s

/-- Entering a node marks it and nothing else; the successors stay as they are. -/
structure Walk.Lawful [DecidableEq α] (W : Walk σ α) : Prop where
  seen_enter : ∀ a b s, W.seen (W.enter a s) b = (decide (b = a) || W.seen s b)
  succ_enter : ∀ a b s, W.succ (W.enter a s) b = W.succ s b
  seen_leave : ∀ a b s, W.seen (W.leave a s) b = W.seen s b
  succ_leave : ∀ a b s, W.succ (W.leave a s) b = W.succ s b

/-- What can be reached along successors. -/
def Reach (succ : α → List α) : α → α → Prop := Relation.ReflTransGen fun a b => b ∈ succ a

variable {succ succ' : α → List α} {a b : α} {W : Walk σ α} {U : α → Prop}

theorem Reach.refl (a : α) : Reach succ a a := Relation.ReflTransGen.refl

theorem Reach.trans {c : α} (h : Reach succ a b) (h' : Reach succ b c) :
    Reach succ a c := Relation.ReflTransGen.trans h h'

theorem Reach.step (h : b ∈ succ a) : Reach succ a b :=
  Relation.ReflTransGen.single h

theorem Reach.closed (h : Reach succ a b) {P : α → Prop}
    (hP : ∀ x, P x → ∀ y ∈ succ x, P y) (ha : P a) : P b := by
  induction h with
  | refl => exact ha
  | tail _ hbc ih => exact hP _ ih _ hbc

theorem Reach.congr {P : α → Prop}
    (hP : ∀ x, P x → ∀ y ∈ succ x, P y) (hs : ∀ x, P x → succ' x = succ x) (ha : P a)
    (h : Reach succ a b) : Reach succ' a b := by
  have hboth : P b ∧ Reach succ' a b := by
    induction h with
    | refl => exact ⟨ha, .refl a⟩
    | @tail x y _ hxy ih =>
      exact ⟨hP x ih.1 y hxy, ih.2.trans (.step (by rw [hs x ih.1]; exact hxy))⟩
  exact hboth.2

theorem Reach.congr_iff {P : α → Prop}
    (hP : ∀ x, P x → ∀ y ∈ succ x, P y) (hs : ∀ x, P x → succ' x = succ x) (ha : P a) :
    Reach succ' a b ↔ Reach succ a b :=
  ⟨.congr (fun x hx y hy => hP x hx y (hs x hx ▸ hy)) (fun x hx => (hs x hx).symm) ha,
    .congr hP hs ha⟩

/-- The successors of the nodes of a list for which `ok` does not hold stand in front of them. -/
def SuccFirst (succ : α → List α) (ok : α → Prop) (l : List α) : Prop :=
  ∀ u x v, l = u ++ x :: v → ∀ y ∈ succ x, ok y ∨ y ∈ u

theorem SuccFirst.nil {ok : α → Prop} : SuccFirst succ ok [] := by
  intro u x v h
  simp at h

theorem SuccFirst.append {ok ok' : α → Prop} {l m : List α}
    (hl : SuccFirst succ ok l) (hm : SuccFirst succ ok' m)
    (h : ∀ x ∈ m, ∀ y ∈ succ x, ok' y → ok y ∨ y ∈ l) : SuccFirst succ ok (l ++ m) := by
  intro u x v huv y hy
  rcases append_eq_append_iff.mp huv with ⟨w, rfl, hw⟩ | ⟨w, rfl, hw⟩
  · have hx : x ∈ m := by
      rw [hw]
      exact mem_append_right w mem_cons_self
    rcases hm w x v hw y hy with h' | h'
    · exact (h x hx y hy h').imp_right (mem_append_left w)
    · exact .inr (mem_append_right l h')
  · cases w with
    | nil =>
      rw [nil_append] at hw
      have hx : x ∈ m := hw ▸ mem_cons_self
      rw [append_nil] at h
      rcases hm [] x v hw.symm y hy with h' | h'
      · exact h x hx y hy h'
      · exact absurd h' not_mem_nil
    | cons z w =>
      obtain ⟨rfl, -⟩ := cons.inj hw
      exact hl u x w rfl y hy

/-! ## Depth first -/

/-- The walk from `a` by recursion; the number bounds its depth. -/
def dfs (W : Walk σ α) : ℕ → α → σ → σ
  | 0, _, s => s
  | n + 1, a, s =>
    if W.seen s a then s
    else W.leave a ((W.succ s a).foldl (fun s b => dfs W n b s) (W.enter a s))

/-- The walk on from the successors of each marked node of a list. -/
def spread (W : Walk σ α) (n : ℕ) (l : List α) (s : σ) : σ :=
  l.foldl (fun s a =>
    if W.seen s a then (W.succ s a).foldl (fun s b => dfs W n b s) s else s) s

theorem foldl_congr_of {β γ : Type*} {P : β → Prop} {f g : β → γ → β}
    (h : ∀ b c, P b → f b c = g b c ∧ P (g b c)) : ∀ (l : List γ) {b : β}, P b →
    l.foldl f b = l.foldl g b
  | [], _, _ => rfl
  | c :: l, b, hb => by
    rw [foldl_cons, foldl_cons, (h b c hb).1]
    exact foldl_congr_of h l (h b c hb).2

section Rule

variable {P : σ → Prop} (hU : ∀ s, P s → ∀ a, U a → ∀ b ∈ W.succ s a, U b)
  (henter : ∀ a s, U a → W.seen s a = false → P s → P (W.enter a s))
  (hleave : ∀ a s, U a → P s → P (W.leave a s))
include hU henter hleave

/-- **The invariant rule.** A property that entering an unmarked node and leaving a node keep is
kept by the walk. -/
theorem dfs_rule : ∀ (n : ℕ) {a : α} {s : σ}, U a → P s → P (dfs W n a s)
  | 0, _, _, _, hs => hs
  | n + 1, a, s, ha, hs => by
    rw [dfs]
    by_cases hseen : W.seen s a = true
    · rwa [if_pos hseen]
    · rw [if_neg hseen]
      refine hleave a _ ha (foldlRecOn _ _ (henter a s ha (Bool.eq_false_iff.mpr hseen) hs) ?_)
      exact fun t ht b hb => dfs_rule n (hU s hs a ha b hb) ht

theorem foldl_dfs_rule (n : ℕ) (l : List α) {s : σ} (hl : ∀ b ∈ l, U b) (hs : P s) :
    P (l.foldl (fun s b => dfs W n b s) s) :=
  foldlRecOn l _ hs fun _ ht b hb => dfs_rule hU henter hleave n (hl b hb) ht

theorem spread_rule (n : ℕ) (l : List α) {s : σ}
    (hl : ∀ s, P s → ∀ a ∈ l, W.seen s a = true → U a) (hs : P s) : P (spread W n l s) := by
  refine foldlRecOn l _ hs fun t ht a ha => ?_
  split_ifs with hseen
  · exact foldl_dfs_rule hU henter hleave n _ (hU t ht a (hl t ht a ha hseen)) ht
  · exact ht

end Rule

def unseen (W : Walk σ α) (U : List α) (s : σ) : ℕ := U.countP fun b => !W.seen s b

section
variable [DecidableEq α] {W : Walk σ α} (hW : W.Lawful)
include hW

variable {b a : α} {s : σ} {U : List α} {n : ℕ}

omit [DecidableEq α] hW in
theorem unseen_le (U : List α) (s : σ) : unseen W U s ≤ U.length := countP_le_length

omit [DecidableEq α] hW in
theorem unseen_mono {t : σ} (h : ∀ b, W.seen s b = true → W.seen t b = true) :
    unseen W U t ≤ unseen W U s := by
  refine countP_mono_left fun b _ hb => ?_
  cases hs : W.seen s b with
  | false => rfl
  | true => rw [h b hs] at hb; exact hb

theorem unseen_enter_lt (ha : a ∈ U) (hs : W.seen s a = false) :
    unseen W U (W.enter a s) < unseen W U s := by
  have hmono : ∀ l : List α, unseen W l (W.enter a s) ≤ unseen W l s := fun l =>
    unseen_mono fun b hb => by rw [hW.seen_enter, hb, Bool.or_true]
  obtain ⟨l, r, rfl⟩ := append_of_mem ha
  have hl := hmono l
  have hr := hmono r
  unfold unseen at hl hr ⊢
  rw [countP_append, countP_append, countP_cons_of_neg, countP_cons_of_pos]
  · omega
  · rw [hs]
    rfl
  · rw [hW.seen_enter, decide_eq_true rfl]
    exact Bool.not_eq_true _ ▸ rfl

/-- What a walk from the nodes of `l` does that goes all the way: it marks the nodes of `new`, with
their successors, and leaves them in this order. -/
structure Walked (W : Walk σ α) (l : List α) (s t : σ) (new : List α) : Prop where
  succ : W.succ t = W.succ s
  seen_iff : ∀ b, W.seen t b = true ↔ W.seen s b = true ∨ b ∈ new
  nodup : new.Nodup
  fresh : ∀ b ∈ new, W.seen s b = false
  reach : ∀ b ∈ new, ∃ a ∈ l, Reach (W.succ s) a b
  seen : ∀ b ∈ l, W.seen t b = true
  closed : ∀ b ∈ new, ∀ c ∈ W.succ s b, W.seen t c = true
  succFirst : (∀ a ∈ l, ∀ x, Reach (W.succ s) a x → ∀ y ∈ W.succ s x, ¬ Reach (W.succ s) y x) →
    SuccFirst (W.succ s) (fun y => W.seen s y = true) new
  out : ∀ out : σ → List α, (∀ a s, out (W.enter a s) = out s) →
    (∀ a s, out (W.leave a s) = out s ++ [a]) → out t = out s ++ new

omit [DecidableEq α] hW in
theorem Walked.nil {l : List α} (hl : ∀ b ∈ l, W.seen s b = true) : Walked W l s s [] where
  succ := rfl
  seen_iff := by simp
  nodup := nodup_nil
  fresh := by simp
  reach := by simp
  seen := hl
  closed := by simp
  succFirst := fun _ => .nil
  out := fun _ _ _ => (append_nil _).symm

omit [DecidableEq α] hW in
theorem Walked.append {l u v : List α} {t r : σ} (h : Walked W [a] s t u) (h' : Walked W l t r v) :
    Walked W (a :: l) s r (u ++ v) := by
  have hmono : ∀ b, W.seen t b = true → W.seen r b = true := fun b hb =>
    (h'.seen_iff b).mpr (.inl hb)
  have hv : ∀ b ∈ v, W.seen s b = false ∧ b ∉ u := by
    intro b hb
    have hf := h'.fresh b hb
    rwa [← Bool.not_eq_true, h.seen_iff, not_or, Bool.not_eq_true] at hf
  constructor
  · exact h'.succ.trans h.succ
  · exact fun b => by rw [h'.seen_iff, h.seen_iff, mem_append, or_assoc]
  · exact nodup_append.mpr ⟨h.nodup, h'.nodup, fun b hb c hc hbc => (hv c hc).2 (hbc ▸ hb)⟩
  · exact forall_mem_append.mpr ⟨h.fresh, fun b hb => (hv b hb).1⟩
  · refine forall_mem_append.mpr ⟨fun b hb => ?_, fun b hb => ?_⟩
    · obtain ⟨c, hc, hcb⟩ := h.reach b hb
      exact ⟨a, mem_cons_self, mem_singleton.mp hc ▸ hcb⟩
    · obtain ⟨c, hc, hcb⟩ := h'.reach b hb
      exact ⟨c, mem_cons_of_mem a hc, h.succ ▸ hcb⟩
  · exact forall_mem_cons.mpr ⟨hmono a (h.seen a mem_cons_self), h'.seen⟩
  · refine forall_mem_append.mpr ⟨fun b hb c hc => hmono c (h.closed b hb c hc), ?_⟩
    exact h.succ ▸ h'.closed
  · intro hacyc
    rw [forall_mem_cons] at hacyc
    have hfirst := h'.succFirst (by rw [h.succ]; exact hacyc.2)
    rw [h.succ] at hfirst
    exact (h.succFirst (forall_mem_singleton.mpr hacyc.1)).append hfirst
      fun x _ y _ => (h.seen_iff y).mp
  · exact fun out hout hleave => by
      rw [h'.out out hout hleave, h.out out hout hleave, append_assoc]

theorem Walked.node {t : σ} {new : List α} (ha : W.seen s a = false)
    (h : Walked W (W.succ s a) (W.enter a s) t new) :
    Walked W [a] s (W.leave a t) (new ++ [a]) := by
  have hsucc : W.succ (W.enter a s) = W.succ s := funext fun c => hW.succ_enter a c s
  have hent : ∀ b, W.seen (W.enter a s) b = true ↔ b = a ∨ W.seen s b = true := fun b => by
    rw [hW.seen_enter, Bool.or_eq_true, decide_eq_true_eq]
  have hseen : ∀ b, W.seen (W.leave a t) b = true ↔ (b = a ∨ W.seen s b = true) ∨ b ∈ new :=
    fun b => by rw [hW.seen_leave, h.seen_iff, hent]
  have hnew : ∀ b ∈ new, b ≠ a ∧ W.seen s b = false := by
    intro b hb
    have hf := h.fresh b hb
    rwa [← Bool.not_eq_true, hent, not_or, Bool.not_eq_true] at hf
  have hreach : ∀ b ∈ new, Reach (W.succ s) a b := by
    intro b hb
    obtain ⟨c, hc, hcb⟩ := h.reach b hb
    exact (Reach.step hc).trans (hsucc ▸ hcb)
  constructor
  · exact (funext fun c => hW.succ_leave a c t).trans (h.succ.trans hsucc)
  · intro b
    rw [hseen, mem_append, mem_singleton]
    tauto
  · refine nodup_append.mpr ⟨h.nodup, nodup_singleton a, fun b hb c hc hbc => ?_⟩
    exact (hnew b hb).1 (hbc.trans (mem_singleton.mp hc))
  · exact forall_mem_append.mpr ⟨fun b hb => (hnew b hb).2, forall_mem_singleton.mpr ha⟩
  · refine forall_mem_append.mpr ⟨fun b hb => ⟨a, mem_cons_self, hreach b hb⟩, ?_⟩
    exact forall_mem_singleton.mpr ⟨a, mem_cons_self, .refl a⟩
  · exact forall_mem_singleton.mpr ((hseen a).mpr (.inl (.inl rfl)))
  · have hclosed := h.closed
    rw [hsucc] at hclosed
    simp only [hW.seen_leave]
    exact forall_mem_append.mpr ⟨hclosed, forall_mem_singleton.mpr h.seen⟩
  · intro hacyc
    rw [forall_mem_singleton] at hacyc
    have hfirst := h.succFirst (by
      rw [hsucc]
      exact fun c hc x hx => hacyc x ((Reach.step hc).trans hx))
    rw [hsucc] at hfirst
    -- the node itself is marked meanwhile, but no successor of what is left before it
    have hbefore : SuccFirst (W.succ s) (fun y => W.seen s y = true) new := by
      refine SuccFirst.nil.append hfirst fun x hx y hy hyt => ?_
      rcases (hent y).mp hyt with rfl | hyt
      · exact absurd (hreach x hx) (hacyc x (hreach x hx) y hy)
      · exact .inl hyt
    refine hbefore.append (m := [a]) (fun _ _ _ _ _ _ => .inl trivial) fun x hx y hy _ => ?_
    obtain rfl := mem_singleton.mp hx
    have hyt := h.seen y hy
    rw [h.seen_iff, hent] at hyt
    rcases hyt with (rfl | hyt) | hyt
    · exact absurd (.refl y) (hacyc y (.refl y) y hy)
    · exact .inl hyt
    · exact .inr hyt
  · exact fun out hout hleave => by
      rw [hleave, h.out out hout hleave, hout, append_assoc]

omit [DecidableEq α] hW in
theorem walked_foldl
    (hdfs : ∀ {a : α} {s : σ}, (∀ x ∈ U, ∀ y ∈ W.succ s x, y ∈ U) → a ∈ U → unseen W U s ≤ n →
      ∃ new, Walked W [a] s (dfs W n a s) new) :
    ∀ (l : List α) {s : σ}, (∀ x ∈ U, ∀ y ∈ W.succ s x, y ∈ U) → (∀ b ∈ l, b ∈ U) →
      unseen W U s ≤ n → ∃ new, Walked W l s (l.foldl (fun s b => dfs W n b s) s) new
  | [], _, _, _, _ => ⟨[], .nil (by simp)⟩
  | b :: l, s, hU, hl, hn => by
    obtain ⟨u, hu⟩ := hdfs hU (hl b mem_cons_self) hn
    obtain ⟨v, hv⟩ := walked_foldl hdfs l (by rw [hu.succ]; exact hU)
      (fun c hc => hl c (mem_cons_of_mem b hc))
      (Nat.le_trans (unseen_mono fun c hc => (hu.seen_iff c).mpr (.inl hc)) hn)
    exact ⟨u ++ v, hu.append hv⟩

/-- **Depth first.** With a bound as large as the number of unmarked nodes the walk goes all the
way. -/
theorem walked_dfs : ∀ (n : ℕ) {a : α} {s : σ}, (∀ x ∈ U, ∀ y ∈ W.succ s x, y ∈ U) → a ∈ U →
    unseen W U s ≤ n → ∃ new, Walked W [a] s (dfs W n a s) new
  | 0, a, s, _, ha, hn => by
    have h0 := countP_eq_zero.mp (Nat.le_zero.mp hn) a ha
    rw [Bool.not_eq_true, Bool.not_eq_false'] at h0
    exact ⟨[], .nil (forall_mem_singleton.mpr h0)⟩
  | n + 1, a, s, hU, ha, hn => by
    rw [dfs]
    by_cases hseen : W.seen s a = true
    · rw [if_pos hseen]
      exact ⟨[], .nil (forall_mem_singleton.mpr hseen)⟩
    · rw [if_neg hseen]
      have hfalse := Bool.eq_false_iff.mpr hseen
      have hlt := unseen_enter_lt hW ha hfalse
      have hsucc : W.succ (W.enter a s) = W.succ s := funext fun c => hW.succ_enter a c s
      obtain ⟨new, hnew⟩ := walked_foldl (walked_dfs n) (W.succ s a) (s := W.enter a s)
        (by rw [hsucc]; exact hU) (hU a ha) (by omega)
      exact ⟨new ++ [a], hnew.node hW hfalse⟩

theorem seen_dfs_iff (hU : ∀ x ∈ U, ∀ y ∈ W.succ s x, y ∈ U) (ha : a ∈ U) (hn : unseen W U s ≤ n)
    (hs : ∀ b ∈ U, W.seen s b = false) (hb : b ∈ U) :
    W.seen (dfs W n a s) b = true ↔ Reach (W.succ s) a b := by
  obtain ⟨new, hnew⟩ := walked_dfs hW n hU ha hn
  have hiff : ∀ x ∈ U, W.seen (dfs W n a s) x = true ↔ x ∈ new := fun x hx => by
    rw [hnew.seen_iff, hs x hx]
    simp
  constructor
  · intro h
    obtain ⟨c, hc, hcb⟩ := hnew.reach b ((hiff b hb).mp h)
    exact mem_singleton.mp hc ▸ hcb
  · intro h
    refine (h.closed (P := fun x => x ∈ U ∧ W.seen (dfs W n a s) x = true) ?_
      ⟨ha, hnew.seen a mem_cons_self⟩).2
    exact fun x hx y hy => ⟨hU x hx.1 y hy, hnew.closed x ((hiff x hx.1).mp hx.2) y hy⟩

/-! ### From all marked nodes -/

/-- The marked nodes of which the successors may not be marked are those of the list that were
marked at first. -/
theorem spread_closed : ∀ (l : List α) {s : σ},
    (∀ x ∈ U, ∀ y ∈ W.succ s x, y ∈ U) → (∀ b ∈ l, b ∈ U) → unseen W U s ≤ n →
      (∀ b, W.seen s b = true → W.seen (spread W n l s) b = true) ∧
      ∀ b, W.seen (spread W n l s) b = true → (W.seen s b = true ∧ b ∉ l) ∨
        ∀ c ∈ W.succ s b, W.seen (spread W n l s) c = true
  | [], _, _, _, _ => ⟨fun _ hb => hb, fun b hb => .inl ⟨hb, not_mem_nil⟩⟩
  | a :: l, s, hU, hl, hn => by
    have haU : a ∈ U := hl a mem_cons_self
    have hlU : ∀ b ∈ l, b ∈ U := fun b hb => hl b (mem_cons_of_mem a hb)
    rw [spread, foldl_cons, ← spread]
    by_cases ha : W.seen s a = true
    · rw [if_pos ha]
      obtain ⟨new, hsp⟩ := walked_foldl (walked_dfs hW n) (W.succ s a) hU (hU a haU) hn
      have hmono : ∀ b, W.seen s b = true → _ := fun b hb => (hsp.seen_iff b).mpr (.inl hb)
      generalize (W.succ s a).foldl (fun s b => dfs W n b s) s = t at hsp hmono ⊢
      obtain ⟨h1, h2⟩ := spread_closed l (s := t) (by rw [hsp.succ]; exact hU) hlU
        (Nat.le_trans (unseen_mono hmono) hn)
      rw [hsp.succ] at h2
      refine ⟨fun b hb => h1 b (hmono b hb), fun b hb => ?_⟩
      rcases h2 b hb with ⟨hbt, hbl⟩ | hb'
      · rcases (hsp.seen_iff b).mp hbt with hbs | hbs
        · by_cases hba : b = a
          · exact .inr fun c hc => h1 c (hsp.seen c (hba ▸ hc))
          · exact .inl ⟨hbs, fun h => (mem_cons.mp h).elim hba hbl⟩
        · exact .inr fun c hc => h1 c (hsp.closed b hbs c hc)
      · exact .inr hb'
    · rw [if_neg ha]
      obtain ⟨h1, h2⟩ := spread_closed l hU hlU hn
      refine ⟨h1, fun b hb => (h2 b hb).imp_left fun ⟨hbs, hbl⟩ => ⟨hbs, fun h => ?_⟩⟩
      rcases mem_cons.mp h with rfl | h
      · exact ha hbs
      · exact hbl h

theorem seen_spread_iff (hU : ∀ x ∈ U, ∀ y ∈ W.succ s x, y ∈ U)
    (hn : unseen W U s ≤ n) (hb : b ∈ U) :
    W.seen (spread W n U s) b = true ↔ ∃ a ∈ U, W.seen s a = true ∧ Reach (W.succ s) a b := by
  obtain ⟨h1, h2⟩ := spread_closed hW U hU (fun _ h => h) hn
  constructor
  · intro h
    refine (spread_rule (W := W) (P := fun t => W.succ t = W.succ s ∧ ∀ b ∈ U, W.seen t b = true →
        ∃ a ∈ U, W.seen s a = true ∧ Reach (W.succ s) a b)
      (U := fun c => c ∈ U ∧ ∃ a ∈ U, W.seen s a = true ∧ Reach (W.succ s) a c)
      ?_ ?_ ?_ n U (fun t ht a ha hs => ⟨ha, ht.2 a ha hs⟩)
      ⟨rfl, fun b hbU hbs => ⟨b, hbU, hbs, .refl b⟩⟩).2 b hb h
    · rintro t ⟨ht, -⟩ c ⟨hcU, a, haU, has, hac⟩ d hd
      rw [ht] at hd
      exact ⟨hU c hcU d hd, a, haU, has, hac.trans (.step hd)⟩
    · rintro c t ⟨-, hc⟩ - ⟨ht, hs⟩
      refine ⟨(funext fun d => hW.succ_enter c d t).trans ht, fun d hdU hd => ?_⟩
      rw [hW.seen_enter, Bool.or_eq_true, decide_eq_true_eq] at hd
      rcases hd with rfl | hd
      · exact hc
      · exact hs d hdU hd
    · rintro c t - ⟨ht, hs⟩
      refine ⟨(funext fun d => hW.succ_leave c d t).trans ht, fun d hdU hd => hs d hdU ?_⟩
      rwa [hW.seen_leave] at hd
  · rintro ⟨a, haU, has, hab⟩
    refine (hab.closed (P := fun x => x ∈ U ∧ W.seen (spread W n U s) x = true) ?_
      ⟨haU, h1 a has⟩).2
    rintro x ⟨hx, hsx⟩ y hy
    exact ⟨hU x hx y hy, (h2 x hsx).elim (fun h => absurd hx h.2) fun h => h y hy⟩

end

/-! ## Breadth first -/

/-- Put a node at the end of the queue unless it is marked. -/
def discover (W : Walk σ α) (c : σ × List α) (b : α) : σ × List α :=
  if W.seen c.1 b then c else (W.enter b c.1, c.2 ++ [b])

/-- The walk by a queue, from its place `i` on; the first number bounds the places. -/
def bfs (W : Walk σ α) : ℕ → ℕ → σ × List α → σ × List α
  | 0, _, c => c
  | n + 1, i, c =>
    match c.2[i]? with
    | none => c
    | some a => bfs W n (i + 1) ((W.succ c.1 a).foldl (discover W) c)

theorem foldl_discover_rule {P : σ → List α → Prop}
    (henter : ∀ b s q, U b → W.seen s b = false → P s q → P (W.enter b s) (q ++ [b])) (l : List α)
    {c : σ × List α} (hl : ∀ b ∈ l, U b) (hc : P c.1 c.2) :
    P (l.foldl (discover W) c).1 (l.foldl (discover W) c).2 := by
  refine foldlRecOn (motive := fun c : σ × List α => P c.1 c.2) l _ hc fun d hd b hb => ?_
  unfold discover
  split_ifs with hs
  · exact hd
  · exact henter b d.1 d.2 (hl b hb) (Bool.eq_false_iff.mpr hs) hd

/-- **The invariant rule.** A property of the state and the queue that putting an unmarked node at
its end keeps is kept by the walk. -/
theorem bfs_rule {P : σ → List α → Prop} (hU : ∀ s q, P s q → ∀ a ∈ q, ∀ b ∈ W.succ s a, U b)
    (henter : ∀ b s q, U b → W.seen s b = false → P s q → P (W.enter b s) (q ++ [b])) :
    ∀ (n i : ℕ) {c : σ × List α}, P c.1 c.2 → P (bfs W n i c).1 (bfs W n i c).2
  | 0, _, _, hc => hc
  | n + 1, i, c, hc => by
    rw [bfs]
    cases hi : c.2[i]? with
    | none => exact hc
    | some a =>
      exact bfs_rule hU henter n (i + 1)
        (foldl_discover_rule henter _ (hU c.1 c.2 hc a (mem_of_getElem? hi)) hc)

section
variable [DecidableEq α]

/-- Put a node at the end of a list unless it is there. -/
def push (q : List α) (b : α) : List α := if b ∈ q then q else q ++ [b]

/-- The first occurrences in a list. -/
def firsts (l : List α) : List α := l.foldl push []

variable {b h : α} {succ succ' : α → List α} {q : List α}

theorem mem_foldl_push : ∀ (l : List α) {q : List α}, b ∈ l.foldl push q ↔ b ∈ q ∨ b ∈ l
  | [], q => by simp
  | a :: l, q => by
    rw [foldl_cons, mem_foldl_push l, mem_cons]
    unfold push
    split_ifs with h
    · constructor
      · rintro (hb | hb)
        · exact .inl hb
        · exact .inr (.inr hb)
      · rintro (hb | rfl | hb)
        · exact .inl hb
        · exact .inl h
        · exact .inr hb
    · rw [mem_append, mem_singleton, or_assoc]

theorem mem_firsts {l : List α} : b ∈ firsts l ↔ b ∈ l := by
  rw [firsts, mem_foldl_push]
  simp

theorem prefix_foldl_push (l q : List α) : q <+: l.foldl push q := by
  refine foldlRecOn l _ (prefix_refl q) fun r hr a _ => ?_
  unfold push
  split_ifs
  · exact hr
  · exact hr.trans (prefix_append r [a])

theorem firsts_prefix (l m : List α) : firsts l <+: firsts (l ++ m) := by
  rw [firsts, firsts, foldl_append]
  exact prefix_foldl_push m _

/-- What can be reached in at most so many steps. -/
def Within (succ : α → List α) (h : α) : ℕ → α → Prop
  | 0, b => b = h
  | n + 1, b => b = h ∨ ∃ a, Within succ h n a ∧ b ∈ succ a

omit [DecidableEq α] in
theorem Within.reach {n : ℕ} (hb : Within succ h n b) : Reach succ h b := by
  induction n generalizing b with
  | zero =>
    obtain rfl : b = h := hb
    exact .refl b
  | succ n ih =>
    rcases hb with rfl | ⟨a, ha, hab⟩
    · exact .refl b
    · exact (ih ha).trans (.step hab)

/-- The nodes that can be reached from `h`, each of them once, as a queue takes them up: those that
can be reached in fewer steps come first. -/
structure BreadthFirst (succ : α → List α) (h : α) (q : List α) : Prop where
  nodup : q.Nodup
  mem_iff : ∀ b, b ∈ q ↔ Reach succ h b
  queue : q = firsts (h :: q.flatMap succ)
  nearer : ∀ (i j n : ℕ) (a b : α), i < j → q[i]? = some a → q[j]? = some b → Within succ h n b →
    Within succ h n a

omit [DecidableEq α] in
theorem Within.congr {P : α → Prop}
    (hP : ∀ x, P x → ∀ y ∈ succ x, P y) (hs : ∀ x, P x → succ' x = succ x) (hh : P h) :
    ∀ {n : ℕ} {b : α}, Within succ' h n b ↔ Within succ h n b
  | 0, _ => .rfl
  | n + 1, b => by
    refine or_congr_right (exists_congr fun a => ?_)
    rw [Within.congr hP hs hh]
    refine and_congr_right fun ha => ?_
    rw [hs a (ha.reach.closed hP hh)]

theorem BreadthFirst.congr {P : α → Prop}
    (hq : BreadthFirst succ h q) (hP : ∀ x, P x → ∀ y ∈ succ x, P y)
    (hs : ∀ x, P x → succ' x = succ x) (hh : P h) : BreadthFirst succ' h q := by
  have hflat : q.flatMap succ' = q.flatMap succ := by
    refine flatMap_congr fun x hx => hs x ?_
    exact ((hq.mem_iff x).mp hx).closed hP hh
  refine ⟨hq.nodup, fun b => ?_, by rw [hflat]; exact hq.queue, fun i j n a b hij ha hb => ?_⟩
  · rw [hq.mem_iff, Reach.congr_iff hP hs hh]
  · rw [Within.congr hP hs hh, Within.congr hP hs hh]
    exact hq.nearer i j n a b hij ha hb

/-- In a list of first occurrences, what stands in front of a successor of the node at place `m` is
`h` or a successor of a node up to that place. -/
theorem exists_le_of_queue (hq : q.Nodup)
    (hqueue : q = firsts (h :: q.flatMap succ)) {i j m : ℕ} {a x : α} (hij : i < j)
    (ha : q[i]? = some a) (hb : q[j]? = some b) (hx : q[m]? = some x) (hbx : b ∈ succ x) :
    a = h ∨ ∃ p y, p ≤ m ∧ q[p]? = some y ∧ a ∈ succ y := by
  have hpre : firsts (h :: (q.take (m + 1)).flatMap succ) <+: q := by
    conv_rhs => rw [hqueue]
    conv_rhs => rw [← take_append_drop (m + 1) q, flatMap_append, ← cons_append]
    exact firsts_prefix _ _
  have hxm : x ∈ q.take (m + 1) := by
    obtain ⟨hm, rfl⟩ := List.getElem?_eq_some_iff.mp hx
    rw [mem_take_iff_getElem]
    exact ⟨m, by omega, rfl⟩
  have hbm : b ∈ firsts (h :: (q.take (m + 1)).flatMap succ) :=
    mem_firsts.mpr (mem_cons_of_mem h (mem_flatMap.mpr ⟨x, hxm, hbx⟩))
  obtain ⟨r, hr⟩ := hpre
  -- `b` stands in the front part, so `a` does
  obtain ⟨k, hk, hkb⟩ := mem_iff_getElem.mp hbm
  have hkj : k = j := by
    have hkq : q[k]? = some b := by
      rw [← hr, getElem?_append_left hk, getElem?_eq_getElem hk, hkb]
    obtain ⟨hk', hk''⟩ := List.getElem?_eq_some_iff.mp hkq
    obtain ⟨hj', hj''⟩ := List.getElem?_eq_some_iff.mp hb
    exact (hq.getElem_inj_iff).mp (hk''.trans hj''.symm)
  subst hkj
  have ham : a ∈ firsts (h :: (q.take (m + 1)).flatMap succ) := by
    have hi : (firsts (h :: (q.take (m + 1)).flatMap succ))[i]? = some a := by
      rw [← getElem?_append_left (by omega : i < _), hr, ha]
    exact mem_of_getElem? hi
  rcases mem_cons.mp (mem_firsts.mp ham) with h' | h'
  · exact .inl h'
  · obtain ⟨y, hy, hay⟩ := mem_flatMap.mp h'
    obtain ⟨p, hp, rfl⟩ := mem_take_iff_getElem.mp hy
    exact .inr ⟨p, _, by omega, getElem?_eq_getElem (by omega), hay⟩

theorem within_of_queue (hq : q.Nodup)
    (hmem : ∀ b, Reach succ h b → b ∈ q) (hqueue : q = firsts (h :: q.flatMap succ)) :
    ∀ (n : ℕ) {i j : ℕ} {a b : α}, i < j → q[i]? = some a → q[j]? = some b → Within succ h n b →
      Within succ h n a := by
  have hhead : q[0]? = some h := by
    rw [hqueue]
    obtain ⟨r, hr⟩ := firsts_prefix [h] (q.flatMap succ)
    have h1 : firsts [h] = [h] := by simp [firsts, push]
    rw [h1] at hr
    rw [← singleton_append, ← hr]
    rfl
  have hne : ∀ {i j : ℕ} {b : α}, i < j → q[j]? = some b → b ≠ h := by
    rintro i j b hij hb rfl
    obtain ⟨hj, hj'⟩ := List.getElem?_eq_some_iff.mp hb
    obtain ⟨h0, h0'⟩ := List.getElem?_eq_some_iff.mp hhead
    have := (hq.getElem_inj_iff).mp (hj'.trans h0'.symm)
    omega
  intro n
  induction n with
  | zero => exact fun hij _ hb hw => absurd hw (hne hij hb)
  | succ n ih =>
    rintro i j a b hij ha hb (rfl | ⟨x, hx, hbx⟩)
    · exact absurd rfl (hne hij hb)
    · obtain ⟨m, hm, hmx⟩ := mem_iff_getElem.mp (hmem x hx.reach)
      have hmx' : q[m]? = some x := by rw [getElem?_eq_getElem hm, hmx]
      rcases exists_le_of_queue hq hqueue hij ha hb hmx' hbx with h' | ⟨p, y, hp, hy, hay⟩
      · exact .inl h'
      · refine .inr ⟨y, ?_, hay⟩
        rcases Nat.lt_or_eq_of_le hp with hlt | rfl
        · exact ih hlt hy hmx' hx
        · rw [hmx'] at hy
          exact Option.some.inj hy ▸ hx

/-! ### The walk by a queue -/

/-- What holds while the queue is read: the places in front of `i` are done. -/
structure Queued (W : Walk σ α) (U : List α) (h : α) (succ : α → List α) (i : ℕ) (s : σ)
    (q : List α) : Prop where
  succ_eq : W.succ s = succ
  seen_iff : ∀ b ∈ U, W.seen s b = true ↔ b ∈ q
  nodup : q.Nodup
  sub : ∀ b ∈ q, b ∈ U
  reach : ∀ b ∈ q, Reach succ h b
  queue : q = firsts (h :: (q.take i).flatMap succ)
  le : i ≤ q.length

section
variable {W : Walk σ α} (hW : W.Lawful) {U : List α} {h : α} {succ : α → List α}
include hW

theorem foldl_discover_eq : ∀ (l : List α) {s : σ} {q : List α}, (∀ b ∈ l, b ∈ U) →
    (∀ b ∈ U, W.seen s b = true ↔ b ∈ q) →
      (l.foldl (discover W) (s, q)).2 = l.foldl push q ∧
      ∀ b ∈ U, W.seen (l.foldl (discover W) (s, q)).1 b = true ↔ b ∈ l.foldl push q
  | [], s, q, _, hs => ⟨rfl, hs⟩
  | a :: l, s, q, hl, hs => by
    have haU := hl a mem_cons_self
    have hl' : ∀ b ∈ l, b ∈ U := fun b hb => hl b (mem_cons_of_mem a hb)
    rw [foldl_cons, foldl_cons]
    unfold discover push
    by_cases haq : a ∈ q
    · rw [if_pos ((hs a haU).mpr haq), if_pos haq]
      exact foldl_discover_eq l hl' hs
    · rw [if_neg (mt (hs a haU).mp haq), if_neg haq]
      refine foldl_discover_eq l hl' fun b hb => ?_
      rw [hW.seen_enter, Bool.or_eq_true, decide_eq_true_eq, hs b hb, mem_append,
        mem_singleton, or_comm]

theorem succ_foldl_discover (l : List α) (c : σ × List α) :
    W.succ (l.foldl (discover W) c).1 = W.succ c.1 :=
  foldl_discover_rule (P := fun s _ => W.succ s = W.succ c.1) (U := fun _ => True)
    (fun b _ _ _ _ hs => (funext fun a => hW.succ_enter b a _).trans hs) l (fun _ _ => trivial) rfl

omit hW in
theorem nodup_foldl_push (l : List α) (hq : q.Nodup) : (l.foldl push q).Nodup := by
  refine foldlRecOn l _ hq fun q hq a _ => ?_
  unfold push
  split_ifs with ha
  · exact hq
  · exact concat_eq_append ▸ hq.concat ha

theorem Queued.step (hU : ∀ x ∈ U, ∀ y ∈ succ x, y ∈ U) {i : ℕ} {s : σ} {q : List α}
    (hQ : Queued W U h succ i s q) {a : α} (ha : q[i]? = some a) :
    Queued W U h succ (i + 1) ((W.succ s a).foldl (discover W) (s, q)).1
      ((W.succ s a).foldl (discover W) (s, q)).2 := by
  have haq : a ∈ q := mem_of_getElem? ha
  have hsub : ∀ b ∈ W.succ s a, b ∈ U := by
    rw [hQ.succ_eq]
    exact hU a (hQ.sub a haq)
  obtain ⟨h1, h2⟩ := foldl_discover_eq hW (W.succ s a) hsub hQ.seen_iff
  rw [h1, hQ.succ_eq] at *
  have hlen : i < q.length := (List.getElem?_eq_some_iff.mp ha).1
  obtain ⟨r, hr⟩ := prefix_foldl_push (succ a) q
  have htake : ((succ a).foldl push q).take (i + 1) = q.take i ++ [a] := by
    rw [← hr, take_append_of_le_length (by omega), take_add_one, ha]
    rfl
  refine ⟨(succ_foldl_discover hW _ _).trans hQ.succ_eq, h2, nodup_foldl_push _ hQ.nodup,
    fun b hb => ?_, fun b hb => ?_, ?_, ?_⟩
  · exact ((mem_foldl_push _).mp hb).elim (hQ.sub b) (hsub b)
  · rcases (mem_foldl_push _).mp hb with hb | hb
    · exact hQ.reach b hb
    · exact (hQ.reach a haq).trans (.step hb)
  · rw [htake, flatMap_append, ← cons_append, firsts, foldl_append]
    simp only [flatMap_singleton]
    rw [← firsts, ← hQ.queue]
  · rw [← hr, length_append]
    omega

/-- **The walk by a queue** from a node, where nothing is marked. -/
theorem breadthFirst_bfs (hU : ∀ x ∈ U, ∀ y ∈ succ x, y ∈ U) :
    ∀ (n i : ℕ) {s : σ} {q : List α}, Queued W U h succ i s q → U.length ≤ n + i →
      BreadthFirst succ h (bfs W n i (s, q)).2 := by
  have hend : ∀ {i : ℕ} {s : σ} {q : List α}, Queued W U h succ i s q → q.length ≤ i →
      BreadthFirst succ h q := by
    intro i s q hQ hi
    have hqueue := hQ.queue
    rw [take_of_length_le hi] at hqueue
    have hmem : ∀ b, Reach succ h b → b ∈ q := by
      intro b hb
      refine hb.closed (P := (· ∈ q)) (fun x hx y hy => ?_) ?_
      · rw [hqueue, mem_firsts]
        exact mem_cons_of_mem h (mem_flatMap.mpr ⟨x, hx, hy⟩)
      · rw [hqueue, mem_firsts]
        exact mem_cons_self
    exact ⟨hQ.nodup, fun b => ⟨hQ.reach b, hmem b⟩, hqueue,
      fun i j n a b hij ha hb => within_of_queue hQ.nodup hmem hqueue n hij ha hb⟩
  intro n
  induction n with
  | zero =>
    intro i s q hQ hn
    have hlen : q.length ≤ U.length := (hQ.nodup.subperm hQ.sub).length_le
    exact hend (q := q) hQ (by omega)
  | succ n ih =>
    intro i s q hQ hn
    rw [bfs]
    cases hi : q[i]? with
    | none => exact hend hQ (getElem?_eq_none_iff.mp hi)
    | some a => exact ih (i + 1) (hQ.step hW hU hi) (by omega)

end

end

end Citadel.Lib.Graph
