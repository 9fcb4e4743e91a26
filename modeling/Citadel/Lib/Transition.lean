import Mathlib.Data.List.Basic

/-!
# Runs of a transition function with outputs

A system is given by `step s a`: from the state `s` the action `a` leads to a state and an output,
or is not possible. A configuration is a state with the outputs made so far, the newest first.

* `Always`: a property of the configurations holds at every point of a run.
* `Along`: a condition on the actions holds wherever an action of the run is taken.
* `Always.of_along`, `always_iff_along`: the rules that derive the first from the second.
* `run_induction`: what every step keeps under a condition on the outputs holds at the end of a run
  whose outputs meet it.
* `run_output`: what holds of the output of every step.
-/

namespace Citadel.Lib.Transition

open Option Prod

variable {σ α ω : Type*} (step : σ → α → Option (σ × ω))

/-- The configuration after a list of actions, if every one of them was possible. -/
def run : σ → List ω → List α → Option (σ × List ω)
  | s, h, [] => some (s, h)
  | s, h, a :: as =>
    match step s a with
    | none => none
    | some (s', o) => run s' (o :: h) as

/-- `P` holds of every configuration that the run of the actions passes through. -/
def Always (P : σ → List ω → Prop) : σ → List ω → List α → Prop
  | s, h, [] => P s h
  | s, h, a :: as => P s h ∧ ∀ s' o, step s a = some (s', o) → Always P s' (o :: h) as

/-- `R` holds at every action that the run takes. -/
def Along (R : σ → List ω → α → Prop) : σ → List ω → List α → Prop
  | _, _, [] => True
  | s, h, a :: as => ∀ s' o, step s a = some (s', o) → R s h a ∧ Along R s' (o :: h) as

variable {step} {P I : σ → List ω → Prop} {R : σ → List ω → α → Prop}

theorem Always.head : ∀ {as : List α} {s : σ} {h : List ω}, Always step P s h as → P s h
  | [], _, _, hp => hp
  | _ :: _, _, _, hp => hp.1

theorem Always.run : ∀ {as : List α} {s s' : σ} {h h' : List ω}, Always step P s h as →
    run step s h as = some (s', h') → P s' h'
  | [], s, s', h, h', hp, hr => by
    cases hr
    exact hp
  | a :: as, s, s', h, h', hp, hr => by
    rw [Transition.run] at hr
    cases hs : step s a with
    | none => rw [hs] at hr; cases hr
    | some r =>
      obtain ⟨t, o⟩ := r
      rw [hs] at hr
      exact (hp.2 t o hs).run hr

theorem Always.mono {Q : σ → List ω → Prop} (hPQ : ∀ s h, P s h → Q s h) :
    ∀ {as : List α} {s : σ} {h : List ω}, Always step P s h as → Always step Q s h as
  | [], s, h, hp => hPQ s h hp
  | _ :: _, s, h, hp => ⟨hPQ s h hp.1, fun s' o hs => (hp.2 s' o hs).mono hPQ⟩

/-- A property that every step under the condition keeps holds along a run that meets the
condition. -/
theorem Always.of_along
    (hstep : ∀ s h a s' o, P s h → step s a = some (s', o) → R s h a → P s' (o :: h)) :
    ∀ {as : List α} {s : σ} {h : List ω}, P s h → Along step R s h as → Always step P s h as
  | [], _, _, hp, _ => hp
  | a :: _, s, h, hp, hr =>
    ⟨hp, fun s' o hs => .of_along hstep (hstep s h a s' o hp hs (hr s' o hs).1)
      (hr s' o hs).2⟩

/-- A property that every step between configurations in `C` keeps holds along a run that stays in
`C`. -/
theorem Always.of_always {C : σ → List ω → Prop}
    (hstep : ∀ s h a s' o, P s h → C s h → step s a = some (s', o) → C s' (o :: h) →
      P s' (o :: h)) :
    ∀ {as : List α} {s : σ} {h : List ω}, P s h → Always step C s h as → Always step P s h as
  | [], _, _, hp, _ => hp
  | a :: _, s, h, hp, hc =>
    ⟨hp, fun s' o hs => .of_always hstep
      (hstep s h a s' o hp hc.1 hs (hc.2 s' o hs).head) (hc.2 s' o hs)⟩

theorem Along.of_invariant
    (hstep : ∀ s h a s' o, P s h → step s a = some (s', o) → P s' (o :: h))
    (hR : ∀ s h a, P s h → R s h a) :
    ∀ {as : List α} {s : σ} {h : List ω}, P s h → Along step R s h as
  | [], _, _, _ => trivial
  | a :: _, s, h, hp => fun s' o hs =>
    ⟨hR s h a hp, .of_invariant hstep hR (hstep s h a s' o hp hs)⟩

theorem Always.of_invariant
    (hstep : ∀ s h a s' o, P s h → step s a = some (s', o) → P s' (o :: h)) {as : List α} {s : σ}
    {h : List ω} (hp : P s h) : Always step P s h as :=
  .of_along (R := fun _ _ _ => True) (fun s h a s' o hp hs _ => hstep s h a s' o hp hs) hp
    (.of_invariant hstep (fun _ _ _ _ => trivial) hp)

/-- If, under an invariant, a step keeps the property exactly when it meets the condition, then the
property holds throughout a run exactly when the condition does. The steps that keep the property
have to keep the invariant. -/
theorem always_iff_along
    (hI : ∀ s h a s' o, I s h → P s h → step s a = some (s', o) → P s' (o :: h) → I s' (o :: h))
    (hstep : ∀ s h a s' o, I s h → P s h → step s a = some (s', o) → (P s' (o :: h) ↔ R s h a)) :
    ∀ {as : List α} {s : σ} {h : List ω}, I s h → P s h →
      (Always step P s h as ↔ Along step R s h as)
  | [], _, _, _, hp => ⟨fun _ => trivial, fun _ => hp⟩
  | a :: as, s, h, hi, hp => by
    constructor
    · rintro ⟨-, hal⟩ s' o hs
      have hP := (hal s' o hs).head
      exact ⟨(hstep s h a s' o hi hp hs).mp hP,
        (always_iff_along hI hstep (hI s h a s' o hi hp hs hP) hP).mp (hal s' o hs)⟩
    · intro hal
      refine ⟨hp, fun s' o hs => ?_⟩
      obtain ⟨hR, hrest⟩ := hal s' o hs
      have hP := (hstep s h a s' o hi hp hs).mpr hR
      exact (always_iff_along hI hstep (hI s h a s' o hi hp hs hP) hP).mpr hrest

/-- One action taken again and again: what it leads to from `J k` is in `J (k + 1)`. -/
theorem Always.replicate {J : ℕ → σ → Prop} {a : α} {n : ℕ}
    (hJ : ∀ k s, k < n → J k s → ∃ s' o, step s a = some (s', o) ∧ J (k + 1) s') :
    ∀ (m : ℕ) {k : ℕ} {s : σ} {h : List ω}, k + m ≤ n → J k s →
      Always step P s h (List.replicate m a) → ∃ s' h', J (k + m) s' ∧ P s' h'
  | 0, k, s, h, _, hk, hp => ⟨s, h, hk, hp⟩
  | m + 1, k, s, h, hn, hk, hp => by
    obtain ⟨s', o, hs, hk'⟩ := hJ k s (by omega) hk
    obtain ⟨s'', h'', h1, h2⟩ := Always.replicate hJ m (by omega) hk' (hp.2 s' o hs)
    exact ⟨s'', h'', by rwa [Nat.add_right_comm] at h1, h2⟩

/-! ## The end of a run -/

/-- The system whose output is the action itself. -/
def recording (f : σ → α → Option σ) (s : σ) (a : α) : Option (σ × α) := (f s a).map (·, a)

theorem recording_eq_some {f : σ → α → Option σ} {s s' : σ} {a o : α} :
    recording f s a = some (s', o) ↔ f s a = some s' ∧ o = a := by
  cases hf : f s a <;> simp [recording, hf, eq_comm]

/-- The rule for the end of a run. The condition `C` on the outputs passes to the outputs of every
earlier point. -/
theorem run_induction {C : List ω → Prop} (hC : ∀ h h', h <:+ h' → C h' → C h)
    (hstep : ∀ s h a s' o, P s h → step s a = some (s', o) → C (o :: h) → P s' (o :: h))
    {as : List α} {s s' : σ} {h h' : List ω} (hp : P s h) (hr : run step s h as = some (s', h'))
    (hc : C h') : P s' h' := by
  refine (Always.of_invariant (P := fun s h => C h → P s h) ?_ fun _ => hp).run hr hc
  exact fun s h a s' o hp hs hc => hstep s h a s' o (hp (hC _ _ (List.suffix_cons o h) hc)) hs hc

/-- The rule for outputs: what every step from a configuration with the invariant gives holds of
every output of a run, with the outputs made before it. -/
theorem run_output {Q : ω → List ω → Prop}
    (hstep : ∀ s h a s' o, P s h → step s a = some (s', o) → P s' (o :: h) ∧ Q o h)
    {as : List α} {s s' : σ} {h h' : List ω} (hp : P s h) (hr : run step s h as = some (s', h'))
    (hq : ∀ later o earlier, h = later ++ o :: earlier → Q o earlier) :
    ∀ later o earlier, h' = later ++ o :: earlier → Q o earlier := by
  refine (run_induction (C := fun _ => True)
    (P := fun s h => P s h ∧ ∀ later o earlier, h = later ++ o :: earlier → Q o earlier)
    (fun _ _ _ _ => trivial) ?_ ⟨hp, hq⟩ hr trivial).2
  rintro s h a t o ⟨hp, hq⟩ hs -
  obtain ⟨hp', ho⟩ := hstep s h a t o hp hs
  refine ⟨hp', fun later o' earlier he => ?_⟩
  cases later with
  | nil =>
    cases he
    exact ho
  | cons x later => exact hq later o' earlier (List.cons.inj he).2

end Citadel.Lib.Transition
