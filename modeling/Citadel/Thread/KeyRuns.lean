import Citadel.Lib.Transition
import Citadel.Thread.Keys

/-!
# Runs of the thread-specific data functions

A history lists what the moves of a run did, the newest first, with the thread that made each.

* `current t k h`: the last value that `t` stored under `k` since the creation of the key `k` and
  that was not yet handed to the destructor, null if there is none.
* `Good`: every thread reads its current value, and each destructor was called for the key's own
  creation, with a value not handed over before.
* `FreshSlots`: a key is created only in a slot where every living thread holds null.
* `good_iff_freshSlots`: a run is good throughout exactly when all its creations find such a slot.
-/

namespace Citadel.Thread

open Citadel.Lib.Transition Function Option Prod List

/-- What the moves did, the newest first. -/
abbrev History := List (ℕ × Outcome)

/-! ## What the functions are for -/

/-- The destructor given when the key `k` was last created, unless it was deleted since. -/
def creation (k : ℕ) : History → Option (BitVec 64)
  | [] => none
  | (_, .created j dtor) :: h => if j = k then some dtor else creation k h
  | (_, .deleted j) :: h => if j = k then none else creation k h
  | _ :: h => creation k h

/-- The value that `t` has under `k`. -/
def current (t k : ℕ) : History → ℕ
  | [] => 0
  | (_, .created j _) :: h => if j = k then 0 else current t k h
  | (u, .stored j v) :: h => if u = t ∧ j = k then v else current t k h
  | (u, .called j _ _) :: h => if u = t ∧ j = k then 0 else current t k h
  | _ :: h => current t k h

/-- The thread `t` stored `v` under `k`, and since then the key was not created again, `t` did not
store under `k`, and no destructor was called for this slot of `t`. -/
def Pending (t k v : ℕ) (h : History) : Prop :=
  ∃ newer older, h = newer ++ (t, .stored k v) :: older ∧
    (∀ u dtor, (u, .created k dtor) ∉ newer) ∧ (∀ w, (t, .stored k w) ∉ newer) ∧
      ∀ dtor w, (t, .called k dtor w) ∉ newer

/-- Every living thread reads its current value under every key, and every destructor call was made
for the creation of the key that was in force, with a pending value. -/
structure Good (s : State) (h : History) : Prop where
  read : ∀ t, s.phase t ≠ .gone → ∀ k, pthreadGetspecific (s.tsd t) k = current t k h
  call : ∀ newer older t k dtor v, h = newer ++ (t, .called k dtor v) :: older →
    creation k older = some dtor ∧ Pending t k v older

/-- A creation takes a slot in which every living thread holds null. -/
def FreshSlots (s : State) (_ : History) (a : Action) : Prop :=
  ∀ t dtor, a = .call t (.create dtor) → ∀ k, freeSlot s.keys = some k →
    ∀ u, s.phase u ≠ .gone → s.tsd u k = 0

/-! ## What one move can do -/

variable {k u t : ℕ} {s s' : State} {a : Action} {o : Outcome} {h : History}

theorem freeSlot_some {keys : ℕ → Key} (h : freeSlot keys = some k) :
    k < NKEYS ∧ (keys k).used = false := by
  have h1 := mem_of_find?_eq_some h
  have h2 := find?_some h
  exact ⟨mem_range.mp h1, by simpa using h2⟩

/-- The outcomes after which keys and values are as before. -/
def Outcome.Quiet : Outcome → Prop
  | .value _ _ | .error _ | .silent => True
  | _ => False

/-- The effect of a move of the thread `t`, by its outcome. -/
inductive Effect (guard : BitVec 64) (s : State) (a : Action) (s' : State) (t : ℕ) : Outcome → Prop
  | created {k : ℕ} {dtor : BitVec 64} (ha : a = .call t (.create dtor))
      (hk : freeSlot s.keys = some k)
      (hkeys : s'.keys =
        update s.keys k ⟨if dtor = 0 then 0 else ptrMangle guard dtor, true⟩)
      (htsd : s'.tsd = s.tsd) (hphase : s'.phase = s.phase) :
      Effect guard s a s' t (.created k dtor)
  | deleted {k : ℕ} (ha : ∀ u dtor, a ≠ .call u (.create dtor))
      (hkeys : s'.keys = update s.keys k ⟨0, false⟩)
      (htsd : s'.tsd = s.tsd) : Effect guard s a s' t (.deleted k)
  | stored {k v : ℕ} (ha : ∀ u dtor, a ≠ .call u (.create dtor)) (hk : k < NKEYS)
      (hkeys : s'.keys = s.keys)
      (htsd : s'.tsd = update s.tsd t (update (s.tsd t) k v)) :
      Effect guard s a s' t (.stored k v)
  | called {k : ℕ} (ha : ∀ u dtor, a ≠ .call u (.create dtor)) (hk : k < NKEYS)
      (hv : s.tsd t k ≠ 0) (hused : (s.keys k).used = true) (hdtor : (s.keys k).dtor ≠ 0)
        (hkeys : s'.keys = s.keys)
      (htsd : s'.tsd = update s.tsd t (update (s.tsd t) k 0)) :
      Effect guard s a s' t (.called k (ptrDemangle guard (s.keys k).dtor) (s.tsd t k))
  | quiet {o : Outcome} (ho : o.Quiet) (ha : ∀ u dtor k, a = .call u (.create dtor) →
      freeSlot s.keys ≠ some k) (hkeys : s'.keys = s.keys) (htsd : s'.tsd = s.tsd) :
      Effect guard s a s' t o

variable {guard : BitVec 64}

theorem callStep_effect (s : State) (t : ℕ) (c : Call) :
    Effect guard s (.call t c) (callStep guard s t c).1 t (callStep guard s t c).2 := by
  cases c with
  | create dtor =>
    cases hk : freeSlot s.keys with
    | some k =>
      simp only [callStep, pthreadKeyCreate, hk]
      exact .created rfl hk rfl rfl rfl
    | none =>
      simp only [callStep, pthreadKeyCreate, hk]
      exact .quiet trivial (fun u dtor' k _ h => by rw [hk] at h; cases h) rfl rfl
  | delete k =>
    by_cases h : k ≥ NKEYS ∨ (s.keys k).used = false
    · simp only [callStep, pthreadKeyDelete, if_pos h]
      exact .quiet (by simp [EINVAL, Outcome.Quiet]) (by simp) rfl rfl
    · simp only [callStep, pthreadKeyDelete, if_neg h]
      exact .deleted (by simp) rfl rfl
  | setspecific k v =>
    by_cases h : k ≥ NKEYS ∨ (s.keys k).used = false
    · simp only [callStep, pthreadSetspecific, if_pos h]
      exact .quiet (by simp [EINVAL, Outcome.Quiet]) (by simp) rfl (update_eq_self t s.tsd)
    · simp only [callStep, pthreadSetspecific, if_neg h]
      exact .stored (by simp) (by omega) rfl rfl
  | getspecific k => exact .quiet trivial (by simp) rfl rfl

theorem scanStep_effect (s : State) (t it i : ℕ) (ran : Bool) :
    Effect guard s (.scan t) (scanStep guard s t it i ran).1 t (scanStep guard s t it i ran).2 := by
  have ha : ∀ u dtor k, Action.scan t = .call u (.create dtor) → freeSlot s.keys ≠ some k := by
    simp
  unfold scanStep
  split_ifs with h1 h2 h3
  · exact .quiet trivial ha rfl rfl
  · by_cases h : s.tsd t i = 0 ∨ (s.keys i).used = false ∨ (s.keys i).dtor = 0
    · simp only [tsdSlot, if_pos h]
      exact .quiet trivial ha rfl rfl
    · simp only [tsdSlot, if_neg h]
      simp only [not_or, Bool.not_eq_false] at h
      exact .called (by simp) h2 h.1 h.2.1 h.2.2 rfl rfl
  · exact .quiet trivial ha rfl rfl
  · exact .quiet trivial ha rfl rfl

theorem callStep_phase (s : State) (t : ℕ) (c : Call) :
    (callStep guard s t c).1.phase = s.phase := by
  cases c with
  | create dtor => cases hk : freeSlot s.keys <;> simp only [callStep, pthreadKeyCreate, hk]
  | delete k | setspecific k v | getspecific k => rfl

theorem callStep_tsd_of_ne (s : State) (t : ℕ) (c : Call) (hu : u ≠ t) :
    (callStep guard s t c).1.tsd u = s.tsd u := by
  cases c with
  | create dtor => cases hk : freeSlot s.keys <;> simp only [callStep, pthreadKeyCreate, hk]
  | delete k => rfl
  | setspecific k v => exact update_of_ne hu _ _
  | getspecific k => rfl

theorem scanStep_phase (s : State) (t it i : ℕ) (ran : Bool) (hu : u ≠ t) :
    (scanStep guard s t it i ran).1.phase u = s.phase u := by
  unfold scanStep
  split_ifs
  · exact update_of_ne hu _ _
  · cases tsdSlot guard s.keys (s.tsd t) i with
    | mk tsd c => cases c <;> exact update_of_ne hu _ _
  · exact update_of_ne hu _ _
  · exact update_of_ne hu _ _

/-- What a move does, and that a thread that is there after it was there before. -/
theorem step_effect (h : step guard s a = some (s', t, o)) :
    Effect guard s a s' t o ∧ s.phase t ≠ .gone ∧ ∀ u, s'.phase u ≠ .gone → s.phase u ≠ .gone := by
  -- a move of `t` leaves the phases of the other threads alone
  have frame : ∀ {p : ℕ → Phase}, s.phase t ≠ .gone → (∀ u, u ≠ t → p u = s.phase u) →
      ∀ u, p u ≠ .gone → s.phase u ≠ .gone := by
    intro p ht hp u hu
    by_cases e : u = t
    · rw [e]; exact ht
    · rw [← hp u e]; exact hu
  cases a with
  | call u c =>
    cases hp : s.phase u with
    | running | inDtor it i =>
      simp only [step, hp, some.injEq, mk.injEq] at h
      obtain ⟨rfl, rfl, rfl⟩ := h
      refine ⟨callStep_effect s u c, by simp [hp], fun v hv => ?_⟩
      rwa [callStep_phase] at hv
    | scanning it i ran | gone => simp [step, hp] at h
  | exit u =>
    cases hp : s.phase u with
    | running =>
      simp only [step, hp, some.injEq, mk.injEq] at h
      obtain ⟨rfl, rfl, rfl⟩ := h
      have hg : s.phase u ≠ .gone := by simp [hp]
      exact ⟨.quiet trivial (by simp) rfl rfl, hg,
        frame hg fun v hv => update_of_ne hv _ _⟩
    | scanning it i ran | inDtor it i | gone => simp [step, hp] at h
  | scan u =>
    cases hp : s.phase u with
    | scanning it i ran =>
      simp only [step, hp, some.injEq, mk.injEq] at h
      obtain ⟨rfl, rfl, rfl⟩ := h
      have hg : s.phase u ≠ .gone := by simp [hp]
      exact ⟨scanStep_effect s u it i ran, hg,
        frame hg fun v hv => scanStep_phase s u it i ran hv⟩
    | running | inDtor it i | gone => simp [step, hp] at h
  | ret u =>
    cases hp : s.phase u with
    | inDtor it i =>
      simp only [step, hp, some.injEq, mk.injEq] at h
      obtain ⟨rfl, rfl, rfl⟩ := h
      have hg : s.phase u ≠ .gone := by simp [hp]
      exact ⟨.quiet trivial (by simp) rfl rfl, hg,
        frame hg fun v hv => update_of_ne hv _ _⟩
    | running | scanning it i ran | gone => simp [step, hp] at h

/-! ## The table of keys -/

/-- The table holds the keys that are created and not deleted, each with its destructor. -/
def KeysAgree (guard : BitVec 64) (s : State) (h : History) : Prop :=
  ∀ k, match creation k h with
    | some dtor => s.keys k = ⟨if dtor = 0 then 0 else ptrMangle guard dtor, true⟩
    | none => s.keys k = ⟨0, false⟩

theorem creation_quiet (ho : o.Quiet) (h : History) : creation k ((t, o) :: h) = creation k h := by
  cases o <;> first | rfl | exact ho.elim

theorem current_quiet (ho : o.Quiet) (h : History) : current t k ((u, o) :: h) = current t k h := by
  cases o <;> first | rfl | exact ho.elim

theorem keysAgree_step (hi : KeysAgree guard s h) (hs : step guard s a = some (s', t, o)) :
    KeysAgree guard s' ((t, o) :: h) := by
  intro j
  have hj := hi j
  cases (step_effect hs).1 with
  | @created k _ _ _ hkeys _ _ | @deleted k _ hkeys _ =>
    rw [hkeys]
    by_cases e : k = j
    · simp [creation, e]
    · simpa [creation, e, update_of_ne (Ne.symm e)] using hj
  | stored _ _ hkeys _ | called _ _ _ _ _ hkeys _ => simpa only [creation, hkeys] using hj
  | quiet ho _ hkeys _ => rwa [creation_quiet ho, hkeys]

/-- The destructor that `__tsd_run_dtors` calls is the one of the key's creation. -/
theorem KeysAgree.dtor (hi : KeysAgree guard s h)
    (hused : (s.keys k).used = true) (hd : (s.keys k).dtor ≠ 0) :
    creation k h = some (ptrDemangle guard (s.keys k).dtor) := by
  have hk := hi k
  cases hc : creation k h with
  | none =>
    rw [hc] at hk
    simp [hk] at hused
  | some dtor =>
    rw [hc] at hk
    by_cases e : dtor = 0
    · simp [hk, e] at hd
    · rw [hk]
      simp only [if_neg e, ptrDemangle_ptrMangle]

/-! ## The values -/

theorem pending_of_current {v : ℕ} (hv : v ≠ 0) : ∀ {h : History}, current t k h = v →
    Pending t k v h
  | [], hc => absurd hc.symm hv
  | (u, o) :: h, hc => by
    -- an outcome that leaves the slot alone goes in front of what is newer than the store
    have skip :
        current t k h = v → (∀ dtor, o ≠ .created k dtor) → (∀ w, (u, o) ≠ (t, .stored k w)) →
          (∀ dtor w, (u, o) ≠ (t, .called k dtor w)) → Pending t k v ((u, o) :: h) := by
      intro hc h1 h2 h3
      obtain ⟨newer, older, rfl, n1, n2, n3⟩ := pending_of_current hv hc
      refine ⟨(u, o) :: newer, older, rfl, ?_, ?_, ?_⟩
      · intro w dtor hm
        rcases mem_cons.mp hm with e | hm
        · exact h1 dtor (mk.inj e).2.symm
        · exact n1 w dtor hm
      · intro w hm
        rcases mem_cons.mp hm with e | hm
        · exact h2 w e.symm
        · exact n2 w hm
      · intro dtor w hm
        rcases mem_cons.mp hm with e | hm
        · exact h3 dtor w e.symm
        · exact n3 dtor w hm
    cases o with
    | created j dtor =>
      by_cases e : j = k
      · simp only [current, e, if_true] at hc
        exact absurd hc.symm hv
      · simp only [current, e, if_false] at hc
        exact skip hc (by simp [e]) (by simp) (by simp)
    | stored j w =>
      by_cases e : u = t ∧ j = k
      · obtain ⟨rfl, rfl⟩ := e
        simp only [current, and_self, if_true] at hc
        exact ⟨[], h, by rw [hc]; rfl, by simp, by simp, by simp⟩
      · simp only [current, e, if_false] at hc
        refine skip hc (by simp) (fun w e' => e ?_) (by simp)
        simp only [mk.injEq, Outcome.stored.injEq] at e'
        exact ⟨e'.1, e'.2.1⟩
    | called j dtor w =>
      by_cases e : u = t ∧ j = k
      · simp only [current, e, and_self, if_true] at hc
        exact absurd hc.symm hv
      · simp only [current, e, if_false] at hc
        refine skip hc (by simp) (by simp) (fun dtor' w' e' => e ?_)
        simp only [mk.injEq, Outcome.called.injEq] at e'
        exact ⟨e'.1, e'.2.1⟩
    | deleted _ | value _ _ | error _ | silent => exact skip hc (by simp) (by simp) (by simp)

theorem getspecific_update (tsd : ℕ → ℕ) (hk : k < NKEYS) (v j : ℕ) :
    pthreadGetspecific (update tsd k v) j =
      if k = j then v else pthreadGetspecific tsd j := by
  unfold pthreadGetspecific
  by_cases e : k = j
  · subst e
    simp [hk]
  · simp [e, update_of_ne (Ne.symm e)]

theorem read_update (hk : k < NKEYS) (v : ℕ)
    (hread : ∀ u, s.phase u ≠ .gone →
      ∀ j, pthreadGetspecific (s.tsd u) j = current u j h) (hu : s.phase u ≠ .gone) (j : ℕ) :
    pthreadGetspecific (update s.tsd t (update (s.tsd t) k v) u) j =
      if t = u ∧ k = j then v else current u j h := by
  by_cases e : t = u
  · subst e
    rw [update_self, getspecific_update _ hk, hread t hu j]
    simp
  · rw [update_of_ne (Ne.symm e), hread u hu j]
    simp [e]

theorem call_cons (ho : ∀ k dtor v, o ≠ .called k dtor v)
    (hcall : ∀ newer older t k dtor v, h = newer ++ (t, .called k dtor v) :: older →
      creation k older = some dtor ∧ Pending t k v older) :
    ∀ newer older u k dtor v, (t, o) :: h = newer ++ (u, .called k dtor v) :: older →
      creation k older = some dtor ∧ Pending u k v older := by
  intro newer older u k dtor v e
  cases newer with
  | nil =>
    obtain ⟨e1, -⟩ := cons.inj e
    exact absurd (mk.inj e1).2 (ho k dtor v)
  | cons x newer => exact hcall newer older u k dtor v (cons.inj e).2

/-- **One move.** A move from a good configuration leads to a good one exactly when it is not a
creation in a slot where a living thread still has a value. -/
theorem good_step_iff
    (hi : KeysAgree guard s h) (hg : Good s h) (hs : step guard s a = some (s', t, o)) :
    Good s' ((t, o) :: h) ↔ FreshSlots s h a := by
  obtain ⟨he, ht, hphase⟩ := step_effect hs
  cases he with
  | @created k dtor ha hk hkeys htsd hsame =>
    have hlt := (freeSlot_some hk).1
    constructor
    · intro hg' u dtor' _ k' hk' v hv
      obtain rfl : k = k' := some.inj (hk.symm.trans hk')
      have hread := hg'.read v (by rwa [hsame]) k
      simpa [current, pthreadGetspecific, hlt, htsd] using hread
    · intro hf
      refine ⟨fun u hu j => ?_, call_cons (by simp) hg.call⟩
      rw [htsd]
      by_cases e : k = j
      · subst e
        simp [current, pthreadGetspecific, hlt, hf t dtor ha k hk u (hphase u hu)]
      · simp [current, e, hg.read u (hphase u hu) j]
  | @deleted k ha hkeys htsd =>
    refine iff_of_true ⟨fun u hu j => ?_, call_cons (by simp) hg.call⟩ ?_
    · rw [htsd, hg.read u (hphase u hu) j]
      rfl
    · exact fun u dtor e => absurd e (ha u dtor)
  | @stored k v ha hk hkeys htsd =>
    refine iff_of_true ⟨fun u hu j => ?_, call_cons (by simp) hg.call⟩ ?_
    · rw [htsd, read_update hk v hg.read (hphase u hu) j]
      rfl
    · exact fun u dtor e => absurd e (ha u dtor)
  | @called k ha hk hv hused hdtor hkeys htsd =>
    refine iff_of_true ⟨fun u hu j => ?_, fun newer older u j dtor v e => ?_⟩ ?_
    · rw [htsd, read_update hk 0 hg.read (hphase u hu) j]
      rfl
    · cases newer with
      | nil =>
        obtain ⟨e1, rfl⟩ := cons.inj e
        simp only [mk.injEq, Outcome.called.injEq] at e1
        obtain ⟨rfl, rfl, rfl, rfl⟩ := e1
        refine ⟨hi.dtor hused hdtor, pending_of_current hv ?_⟩
        rw [← hg.read t ht k]
        simp [pthreadGetspecific, hk]
      | cons x newer => exact hg.call newer older u j dtor v (cons.inj e).2
    · exact fun u dtor e => absurd e (ha u dtor)
  | quiet ho ha hkeys htsd =>
    refine iff_of_true ⟨fun u hu j => ?_, call_cons ?_ hg.call⟩ ?_
    · rw [htsd, hg.read u (hphase u hu) j, current_quiet ho]
    · rintro k dtor v rfl
      exact ho
    · intro u dtor e k hk
      exact absurd hk (ha u dtor k e)

/-! ## Whole runs -/

/-- **Thread-specific data over whole runs.** From the start of the process, every thread reads at
every point what it stored since the creation of the key, and every destructor is called for its
creation with a value stored under it and not handed over before, exactly when no key is created in
a slot where a living thread still holds a value. -/
theorem good_iff_freshSlots (guard : BitVec 64) (acts : List Action) :
    Always (step guard) Good State.init [] acts ↔
      Along (step guard) FreshSlots State.init [] acts := by
  refine always_iff_along (I := KeysAgree guard) ?_ ?_ ?_ ?_
  · rintro s h a s' ⟨t, o⟩ hi - hs -
    exact keysAgree_step hi hs
  · rintro s h a s' ⟨t, o⟩ hi hg hs
    exact good_step_iff hi hg hs
  · exact fun k => rfl
  · refine ⟨fun t _ k => by simp [State.init, pthreadGetspecific, current], ?_⟩
    intro newer older t k dtor v e
    simp at e

/-- The condition is met when a thread stores null before the key is deleted and created again. -/
theorem good_iff_freshSlots_cleared : Always (step 0) Good State.init []
    [.call 0 (.create 7), .call 0 (.setspecific 0 5), .call 0 (.setspecific 0 0),
      .call 0 (.delete 0), .call 0 (.create 7)] := by
  refine (good_iff_freshSlots 0 _).mpr ?_
  rintro s o ⟨⟩
  refine ⟨fun _ _ _ _ _ _ _ => rfl, ?_⟩
  rintro s o ⟨⟩
  refine ⟨fun _ _ e => by simp at e, ?_⟩
  rintro s o ⟨⟩
  refine ⟨fun _ _ e => by simp at e, ?_⟩
  rintro s o ⟨⟩
  refine ⟨fun _ _ e => by simp at e, ?_⟩
  rintro s o ⟨⟩
  refine ⟨fun _ _ _ k hk u _ => ?_, trivial⟩
  obtain rfl : 0 = k := some.inj hk
  by_cases e : u = 0
  · rw [e]; rfl
  · simp only [callStep_tsd_of_ne _ _ _ e]
    rfl

/-- A thread stores under a key, the key is deleted and created again in the same slot: the thread
still reads the old value under the new key. -/
theorem stale_value : ¬ Always (step 0) Good State.init []
    [.call 0 (.create 7), .call 0 (.setspecific 0 5), .call 0 (.delete 0),
      .call 0 (.create 7)] := by
  intro h
  have hread := (h.run rfl).read 0 (by decide) 0
  exact absurd hread (by decide)

end Citadel.Thread
