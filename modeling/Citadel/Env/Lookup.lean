import Citadel.Env.Owned

/-!
# The environment is a map

The reference is the map from names to what was last set: a value given to `setenv`, or a string
given to `putenv`, whose value is what it contains at the time of the lookup.

* `lookup`: the map after a run, from the record of its calls.
* `getenv_eq_lookup`: `getenv` reads it, as long as `putenv` is not given a string that `setenv`
  allocated.
* `getenv_ne_lookup`: with such a string the variable is lost when the memory is used again.
-/

namespace Citadel.Env

open Citadel.Lib.Transition List Function Bool

/-! ## The reference -/

/-- What a name was set to. -/
inductive Source where
  | value (v : List UInt8)
  | string (x : Str)
deriving DecidableEq, Repr

/-- The value of a variable; that of a string is what it contains now. -/
def Source.text (mem : Str → List UInt8) : Source → List UInt8
  | .value v => v
  | .string x => (mem x).drop (nameLen (mem x) + 1)

/-- The variables of an environment. -/
def initialMap (s : State) (n : List UInt8) : Option Source :=
  if badName n then none
  else (s.entries.find? fun e => nameOf (s.mem e) = some n).map .string

/-- The effect of a call; one that fails has none. -/
def Done.apply (d : Done) (m : List UInt8 → Option Source) : List UInt8 → Option Source :=
  if d.ret ≠ 0 then m
  else
    match d.call with
    | .setenv n v overwrite _ =>
      if overwrite = false ∧ (m n).isSome then m else update m n (some (.value v))
    | .unsetenv n => update m n none
    | .putenv x _ =>
      match nameOf d.text with
      | some n => update m n (some (.string x))
      -- without a value the name is removed
      | none => update m d.text none
    | .clearenv => fun _ => none
    | .write _ _ => m

/-- The map after the calls of a run that began in `s`, the newest call first. -/
def lookup (s : State) (h : List Done) : List UInt8 → Option Source :=
  h.foldr Done.apply (initialMap s)

def DistinctNames (s : State) : Prop :=
  s.entries.Pairwise fun e e' => ∀ n, nameOf (s.mem e) = some n → nameOf (s.mem e') ≠ some n

/-! ## The entries of a name -/

def named (s : State) (n : List UInt8) : List Str :=
  s.entries.filter fun e => nameOf (s.mem e) = some n

variable {s s' : State} {n : List UInt8} {o : Option Source} {m : List UInt8 → Option Source}

theorem named_congr (he : s'.entries = s.entries)
    (hn : ∀ e ∈ s.entries, nameOf (s'.mem e) = nameOf (s.mem e)) (n : List UInt8) :
    named s' n = named s n := by
  rw [named, he]
  exact filter_congr fun e h => by rw [hn e h]

theorem getenv_eq_named (hn : badName n = false) :
    getenv s n = (named s n).head?.map fun e => (s.mem e).drop (nameLen (s.mem e) + 1) := by
  have hf : (s.entries.find? fun e => hasName n (nameLen n) (s.mem e)) = (named s n).head? := by
    rw [named, List.head?_filter]
    refine congrArg (s.entries.find? ·) (funext fun e => ?_)
    rw [Bool.eq_iff_iff, hasName_name_iff hn, decide_eq_true_iff]
  rw [getenv, hn, if_neg Bool.false_ne_true, hf]
  cases h : (named s n).head? with
  | none => rfl
  | some e =>
    have he : nameOf (s.mem e) = some n := by
      have := mem_of_mem_head? h
      exact of_decide_eq_true (mem_filter.mp this).2
    have hl : nameLen (s.mem e) = nameLen n := by
      unfold nameOf at he
      split_ifs at he with hlt
      rw [nameLen_of_badName hn, ← Option.some.inj he, length_take_of_le hlt.le]
    rw [Option.map_some, Option.map_some, hl]

theorem named_length_le (h : DistinctNames s) (n : List UInt8) : (named s n).length ≤ 1 := by
  have hp := List.Pairwise.filter (fun e => nameOf (s.mem e) = some n) h
  match hl : named s n with
  | [] => exact Nat.zero_le 1
  | [x] => exact le_rfl
  | x :: y :: l =>
    have hx := mem_filter.mp (hl ▸ mem_cons_self : x ∈ named s n)
    have hy := mem_filter.mp
      (hl ▸ mem_cons_of_mem x mem_cons_self : y ∈ named s n)
    change (named s n).Pairwise _ at hp
    rw [hl] at hp
    exact absurd (of_decide_eq_true hy.2)
      (rel_of_pairwise_cons hp mem_cons_self n (of_decide_eq_true hx.2))

theorem named_envPut {x : Str} {grows : Bool} {old : Option Str}
    (hx : nameOf (s.mem x) = some n) (hl : (named s n).length ≤ 1)
    (he : envPut s x (nameLen (s.mem x)) true grows = some (s', old)) :
    s'.mem = s.mem ∧ ∀ k, named s' k = if k = n then [x] else named s k := by
  have hlen : nameLen (s.mem x) ≠ (s.mem x).length := by
    intro h
    rw [nameOf, h, if_neg (lt_irrefl _)] at hx
    cases hx
  have hname : ∀ e, hasName (s.mem x) (nameLen (s.mem x)) e = true ↔ nameOf e = some n := by
    intro e
    rw [hasName_iff, ← hx, nameOf_of_lt hlen]
  obtain ⟨l₁, l₂, b, c, hs, hnil, h1, hy, rfl⟩ := envPut_spec he
  simp only [hname] at hy
  simp only [← not_eq_true, hname] at h1
  have hk : ∀ k, named s k = l₁.filter (fun e => nameOf (s.mem e) = some k) ++
      (old.toList.filter (fun e => nameOf (s.mem e) = some k) ++
        l₂.filter fun e => nameOf (s.mem e) = some k) := by
    intro k
    rw [named, hs, filter_append, filter_append]
  have hother : ∀ k, k ≠ n → ∀ l : List Str, (∀ e ∈ l, nameOf (s.mem e) = some n) →
      (l.filter fun e => nameOf (s.mem e) = some k) = [] := by
    intro k hkn l hln
    refine filter_eq_nil_iff.mpr fun e he => ?_
    rw [hln e he, decide_eq_true_iff]
    exact fun h => hkn (Option.some.inj h).symm
  refine ⟨rfl, fun k => ?_⟩
  have hk' : named { s with environ := some (l₁ ++ x :: l₂), ours := b, envCap := c } k =
      l₁.filter (fun e => nameOf (s.mem e) = some k) ++
        ([x].filter (fun e => nameOf (s.mem e) = some k) ++
          l₂.filter fun e => nameOf (s.mem e) = some k) := by
    rw [← filter_append, ← filter_append]
    rfl
  rw [hk']
  by_cases hkn : k = n
  · subst hkn
    have h2 : (l₂.filter fun e => nameOf (s.mem e) = some k) = [] := by
      cases old with
      | none =>
        rw [hnil rfl]
        rfl
      | some y =>
        rw [hk, length_append, length_append, Option.toList_some,
          filter_cons_of_pos (by simpa using hy y), length_cons] at hl
        exact length_eq_zero_iff.mp (by omega)
    have h3 : (l₁.filter fun e => nameOf (s.mem e) = some k) = [] :=
      filter_eq_nil_iff.mpr fun e he => by simpa using h1 e he
    rw [if_pos rfl, h2, h3, filter_cons_of_pos (by simpa using hx)]
    rfl
  · rw [if_neg hkn, hk, hother k hkn [x] (by simpa using hx), hother k hkn _ hy]

/-- The entries of a name are as the map says. -/
def Bound (s : State) (n : List UInt8) : Option Source → Prop
  | none => named s n = []
  | some (.value v) => ∃ a, named s n = [.heap a] ∧ s.mem (.heap a) = n ++ eqSign :: v
  | some (.string x) => named s n = [x]

def Represents (s : State) (m : List UInt8 → Option Source) : Prop :=
  ∀ n, (badName n = true → m n = none) ∧ (badName n = false → Bound s n (m n))

theorem Bound.length_le (h : Bound s n o) : (named s n).length ≤ 1 := by
  match o, h with
  | none, h => simp [show named s n = [] from h]
  | some (.value v), ⟨a, h, _⟩ => simp [h]
  | some (.string x), h => simp [show named s n = [x] from h]

theorem Bound.congr (h : Bound s n o) (hn : named s' n = named s n)
    (hm : ∀ a, .heap a ∈ named s n → s'.mem (.heap a) = s.mem (.heap a)) : Bound s' n o := by
  match o, h with
  | none, h => exact hn.trans h
  | some (.value v), ⟨a, h, ha⟩ =>
    refine ⟨a, hn.trans h, ?_⟩
    rw [hm a (h ▸ mem_singleton_self _), ha]
  | some (.string x), h => exact hn.trans h

theorem Represents.getenv_eq (h : Represents s m)
    (n : List UInt8) : getenv s n = (m n).map (Source.text s.mem) := by
  cases hn : badName n with
  | true => rw [(h n).1 hn, getenv, if_pos hn, Option.map_none]
  | false =>
    have hb := (h n).2 hn
    rw [getenv_eq_named hn]
    generalize m n = o at hb ⊢
    match o, hb with
    | none, hb => rw [show named s n = [] from hb]; rfl
    | some (.value v), ⟨a, hb, ha⟩ =>
      rw [hb, List.head?_cons, Option.map_some, Option.map_some, ha,
        nameLen_append (badName_eq_false_iff.mp hn).2]
      simp [Source.text]
    | some (.string x), hb => rw [show named s n = [x] from hb]; rfl

theorem Represents.congr (h : Represents s m)
    (he : s'.entries = s.entries) (hn : ∀ e ∈ s.entries, nameOf (s'.mem e) = nameOf (s.mem e))
    (hm : ∀ a, .heap a ∈ s.entries → s'.mem (.heap a) = s.mem (.heap a)) : Represents s' m := by
  intro n
  refine ⟨(h n).1, fun hb => ((h n).2 hb).congr (named_congr he hn n) fun a ha => ?_⟩
  exact hm a (mem_of_mem_filter ha)

theorem Represents.update (h : Represents s m) (hb : badName n = false) (hm : s'.mem = s.mem)
    (hk : ∀ k, k ≠ n → named s' k = named s k) (hn : Bound s' n o) :
    Represents s' (update m n o) := by
  intro k
  by_cases hkn : k = n
  · subst hkn
    rw [update_self]
    exact ⟨fun hb' => absurd (hb.symm.trans hb') false_ne_true, fun _ => hn⟩
  · rw [update_of_ne hkn]
    exact ⟨(h k).1, fun hb' => ((h k).2 hb').congr (hk k hkn) fun a _ => by rw [hm]⟩

theorem Represents.initial (hd : DistinctNames s) : Represents s (initialMap s) := by
  intro n
  refine ⟨fun hb => if_pos hb, fun hb => ?_⟩
  have hl := named_length_le hd n
  have hfind : (s.entries.find? fun e => nameOf (s.mem e) = some n) = (named s n).head? :=
    List.head?_filter.symm
  rw [initialMap, hb, if_neg Bool.false_ne_true, hfind]
  match hs : named s n with
  | [] | [x] => exact hs
  | x :: y :: l =>
    rw [hs] at hl
    simp at hl

/-! ## The calls -/

section Calls

variable {s : State} {m : List UInt8 → Option Source}

theorem named_releaseAll (s : State) (xs : List Str) (k : List UInt8) :
    named (releaseAll s xs).1 k = named s k := by
  rw [releaseAll_eq]
  rfl

variable {n : List UInt8}

theorem represents_unsetenv (h : Represents s m) (hn : badName n = false) :
    Represents (unsetenv s n).1 (update m n none) := by
  have hnamed : (unsetenv s n).1.mem = s.mem ∧
      ∀ k, named (unsetenv s n).1 k = if k = n then [] else named s k := by
    unfold unsetenv
    rw [hn, if_neg Bool.false_ne_true]
    cases he : s.environ with
    | none =>
      have : s.entries = [] := by
        rw [State.entries, he]
        rfl
      refine ⟨rfl, fun k => ?_⟩
      simp [named, this]
    | some es =>
      have hes : s.entries = es := by
        rw [State.entries, he]
        rfl
      refine ⟨releaseAll_mem _ _, fun k => ?_⟩
      have hk : ∀ (t : State), t.mem = s.mem →
          named { t with environ := some (es.filter fun e => !hasName n (nameLen n) (s.mem e)) } k =
            (es.filter fun e => !hasName n (nameLen n) (s.mem e)).filter
              fun e => nameOf (s.mem e) = some k := by
        intro t ht
        rw [named, ht]
        rfl
      rw [hk _ (releaseAll_mem _ _), filter_filter]
      by_cases hkn : k = n
      · subst hkn
        rw [if_pos rfl]
        refine filter_eq_nil_iff.mpr fun e _ hc => ?_
        obtain ⟨h1, h2⟩ := and_eq_true_iff.mp hc
        rw [(hasName_name_iff hn _).mpr (of_decide_eq_true h1)] at h2
        cases h2
      · rw [if_neg hkn, named, hes]
        refine filter_congr fun e _ => ?_
        by_cases hek : nameOf (s.mem e) = some k
        · have : hasName n (nameLen n) (s.mem e) = false := by
            rw [← not_eq_true, hasName_name_iff hn, hek]
            exact fun hc => hkn (Option.some.inj hc)
          rw [this]
          simp
        · simp [hek]
  refine h.update hn hnamed.1 (fun k hk => ?_) ?_
  · rw [hnamed.2, if_neg hk]
  · exact (hnamed.2 n).trans (if_pos rfl)

theorem unsetenv_ret (hn : badName n = false) : (unsetenv s n).2.1 = 0 := by
  unfold unsetenv
  rw [hn, if_neg Bool.false_ne_true]
  cases s.environ <;> rfl

theorem represents_putenv (h : Represents s m) {x : Str} (a : Alloc) :
    Represents (putenv s x a).1
      (Done.apply ⟨.putenv x a, (putenv s x a).2.1, s.mem x, (putenv s x a).2.2⟩ m) := by
  unfold Done.apply putenv
  simp only
  by_cases h1 : nameLen (s.mem x) = (s.mem x).length
  · have hname : nameOf (s.mem x) = none := by
      rw [nameOf, h1, if_neg (lt_irrefl _)]
    simp only [if_pos h1, hname]
    cases hn : badName (s.mem x) with
    | true =>
      have hu : unsetenv s (s.mem x) = (s, -1, []) := by
        rw [unsetenv, if_pos hn]
      simp only [hu]
      exact h
    | false =>
      rw [unsetenv_ret hn, if_neg (by simp)]
      exact represents_unsetenv h hn
  · simp only [if_neg h1]
    by_cases h2 : nameLen (s.mem x) = 0
    · simp only [if_pos h2]
      exact h
    · simp only [if_neg h2]
      have hname := nameOf_of_lt h1
      have hb : badName ((s.mem x).take (nameLen (s.mem x))) = false := by
        refine badName_eq_false_iff.mpr ⟨fun h0 => h2 ?_, eqSign_notMem_take _⟩
        have := congrArg List.length h0
        rwa [length_take_of_le (nameLen_le _)] at this
      cases he : envPut s x (nameLen (s.mem x)) true a.environ with
      | none => exact h
      | some r =>
        obtain ⟨s2, old⟩ := r
        obtain ⟨hm, hk⟩ := named_envPut hname ((h _).2 hb).length_le he
        simp only [hname, if_neg (show ¬ (0 : ℤ) ≠ 0 by simp)]
        refine h.update hb ?_ (fun k hkn => ?_) ?_
        · rw [releaseAll_mem, hm]
        · rw [named_releaseAll, hk, if_neg hkn]
        · exact (named_releaseAll _ _ _).trans ((hk _).trans (if_pos rfl))

/-- The string of `setenv` becomes the entry of the name, unless memory is short. -/
theorem setenvPut_cases {x : Str} {v : List UInt8} (hb : badName n = false)
    (hx : s.mem x = n ++ eqSign :: v) (hl : (named s n).length ≤ 1) (a : Alloc) :
    ((setenvPut s x (nameLen n) a).2.1 = -1 ∧ (setenvPut s x (nameLen n) a).1.mem = s.mem ∧
      (setenvPut s x (nameLen n) a).1.entries = s.entries) ∨
    ((setenvPut s x (nameLen n) a).2.1 = 0 ∧ (setenvPut s x (nameLen n) a).1.mem = s.mem ∧
      ∀ k, named (setenvPut s x (nameLen n) a).1 k = if k = n then [x] else named s k) := by
  have hlen : nameLen (s.mem x) = nameLen n := by
    rw [hx, nameLen_append (badName_eq_false_iff.mp hb).2, nameLen_of_badName hb]
  unfold setenvPut
  split_ifs with h1
  · exact .inl ⟨rfl, rfl, rfl⟩
  · simp only
    generalize hs1 : growOwned s = s1
    have hmem : s1.mem = s.mem := by
      rw [← hs1, growOwned_eq]
    have hent : s1.entries = s.entries := by
      rw [← hs1, growOwned_eq]
      rfl
    have hnamed := named_congr hent fun e _ => congrArg nameOf (congrFun hmem e)
    cases he : envPut s1 x (nameLen n) true a.environ with
    | none => exact .inl ⟨rfl, hmem, hent⟩
    | some r =>
      obtain ⟨s2, old⟩ := r
      have hx1 : nameOf (s1.mem x) = some n := by
        rw [hmem, hx]
        exact nameOf_append hb v
      rw [← hlen, ← hmem] at he
      obtain ⟨hm, hk⟩ := named_envPut hx1 (by rwa [hnamed]) he
      refine .inr ⟨rfl, ?_, fun k => ?_⟩
      · rw [releaseAll_mem]
        exact hm.trans hmem
      · rw [named_releaseAll, ← hnamed k]
        exact hk k

theorem represents_setenv {t : List Event} (hT : Tracked s t) (hg : Good s) (h : Represents s m)
    (n v : List UInt8) (ow : Bool) {a : Alloc} (ha : ∀ b, a.str = some b → Str.heap b ∉ s.heap) :
    Represents (setenv s n v ow a).1
      (Done.apply ⟨.setenv n v ow a, (setenv s n v ow a).2.1, [], (setenv s n v ow a).2.2⟩ m) := by
  cases hb : badName n with
  | true =>
    have hs : setenv s n v ow a = (s, -1, []) := by
      rw [setenv, if_pos hb]
    rw [hs]
    exact h
  | false =>
    have hsome : (getenv s n).isSome = (m n).isSome := by
      rw [h.getenv_eq, Option.isSome_map]
    by_cases how : ow = false ∧ (m n).isSome = true
    · have hs : setenv s n v ow a = (s, 0, []) := by
        rw [setenv, hb, if_neg Bool.false_ne_true, if_pos (hsome.symm ▸ how)]
      simp only [hs, Done.apply, if_pos how, ne_eq, not_true_eq_false, if_false]
      exact h
    · cases hstr : a.str with
      | none =>
        have hs : setenv s n v ow a = (s, -1, []) := by
          rw [setenv, hb, if_neg Bool.false_ne_true, if_neg (hsome.symm ▸ how), hstr]
        rw [hs]
        exact h
      | some b =>
        have hne : ∀ e ∈ s.entries, e ≠ .heap b := by
          rintro e he rfl
          rcases hg.cover _ he with ⟨k, hk⟩ | ho
          · cases hk
          · exact ha b hstr ((hT.mem_heap _).mpr ho)
        -- the state once the string is written
        obtain ⟨s0, hs0⟩ : ∃ s0, s0 = { s with
            mem := update s.mem (.heap b) (n ++ eqSign :: v),
            heap := .heap b :: s.heap } :=
          ⟨_, rfl⟩
        have hx : s0.mem (.heap b) = n ++ eqSign :: v := by
          rw [hs0]
          exact update_self _ _ _
        have hmem : ∀ e ∈ s.entries, s0.mem e = s.mem e := by
          intro e he
          rw [hs0]
          exact update_of_ne (hne e he) _ _
        have hent : s0.entries = s.entries := by
          rw [hs0]
          rfl
        have h0 : Represents s0 m :=
          h.congr hent (fun e he => congrArg nameOf (hmem e he)) fun _ hc => hmem _ hc
        have hs : setenv s n v ow a = ((setenvPut s0 (.heap b) (nameLen n) a).1,
            (setenvPut s0 (.heap b) (nameLen n) a).2.1,
            (setenvPut s0 (.heap b) (nameLen n) a).2.2 ++ [.malloc (.heap b)]) := by
          rw [setenv, hb, if_neg Bool.false_ne_true, if_neg (hsome.symm ▸ how), hstr, hs0]
        rw [hs]
        rcases setenvPut_cases hb hx ((h0 n).2 hb).length_le a with ⟨hr, hm, he⟩ | ⟨hr, hm, hk⟩
        · rw [hr]
          exact h0.congr he (fun e _ => by rw [hm]) fun _ _ => by rw [hm]
        · simp only [hr, Done.apply, if_neg how, ne_eq, not_true_eq_false, if_false]
          refine h0.update hb hm (fun k hkn => ?_) ⟨b, ?_, ?_⟩
          · rw [hk, if_neg hkn]
          · rw [hk, if_pos rfl]
          · rw [hm, hx]

end Calls

theorem represents_step {h : List Done} {c : Call}
    {d : Done} (hT : Tracked s (trace h)) (hg : Good s) (hr : Represents s m)
    (hs : step s c = some (s', d)) : Represents s' (d.apply m) := by
  cases c with
  | setenv n v ow a =>
    simp only [step] at hs
    split_ifs at hs with ha
    cases hs
    refine represents_setenv hT hg hr n v ow fun b hb hx => ha ?_
    rw [hb]
    exact decide_eq_true hx
  | unsetenv n =>
    cases hs
    cases hb : badName n with
    | true =>
      have hu : unsetenv s n = (s, -1, []) := by
        rw [unsetenv, if_pos hb]
      rw [hu]
      exact hr
    | false =>
      simp only [unsetenv_ret hb, Done.apply, ne_eq, not_true_eq_false, if_false]
      exact represents_unsetenv hr hb
  | putenv x a =>
    simp only [step] at hs
    split_ifs at hs with hv
    cases hs
    exact represents_putenv hr a
  | clearenv =>
    cases hs
    exact fun n => ⟨fun _ => rfl, fun _ => rfl⟩
  | write k text =>
    simp only [step] at hs
    split_ifs at hs with hw
    cases hs
    have hheap : ∀ a, Str.heap a ≠ .user k := fun a hc => Str.noConfusion hc
    refine hr.congr rfl (fun e he => ?_) fun a _ => update_of_ne (hheap a) text s.mem
    by_cases hk : e = .user k
    · subst hk
      simp only [update_self]
      exact nameOf_of_writable hw he
    · simp only [update_of_ne hk]

/-! ## Whole runs -/

def ReadsMap (s₀ s : State) (h : List Done) : Prop :=
  ∀ n, getenv s n = (lookup s₀ h n).map (Source.text s.mem)

/-- **The environment behaves as a map.** From any environment without duplicate names, `getenv`
returns at every point of a run the value that the last successful call gave to the name since it
was removed, if no string given to `putenv` is an owned one. -/
theorem getenv_eq_lookup {s : State} (hs : Initial s) (hd : DistinctNames s) (cs : List Call)
    (hc : Along step NotOwned s [] cs) : Always step (ReadsMap s) s [] cs := by
  have hall : Always step (fun t h => (Tracked t (trace h) ∧ Good t) ∧ Represents t (lookup s h))
      s [] cs := by
    refine .of_along ?_ ⟨⟨.initial hs, .initial hs⟩, .initial hd⟩ hc
    rintro t h c t' d ⟨⟨hT, hg⟩, hr⟩ hstep hn
    exact ⟨good_step hT hg hstep hn, represents_step hT hg hr hstep⟩
  exact hall.mono fun t h hr n => hr.2.getenv_eq n

theorem getenv_eq_lookup_user : Always step (ReadsMap oneEntry) oneEntry []
    [.setenv [66] [50] true { str := some 0 }, .putenv (.user 1) {}, .unsetenv [66]] :=
  getenv_eq_lookup initial_oneEntry (pairwise_singleton _ _) _ notOwned_user

/-- After `setenv("B", "2", 1)` and `putenv` of that entry, `setenv("C", "3", 1)` may use the memory
of the entry; `B` is then gone. -/
theorem getenv_ne_lookup : ¬ Always step (ReadsMap oneEntry) oneEntry []
    [.setenv [66] [50] true { str := some 0 }, .putenv (.heap 0) {},
      .setenv [67] [51] true { str := some 0 }] := by
  rintro ⟨-, h⟩
  obtain ⟨-, h⟩ := h _ _ rfl
  obtain ⟨-, h⟩ := h _ _ rfl
  exact absurd (h _ _ rfl [66]) (by decide)

end Citadel.Env
