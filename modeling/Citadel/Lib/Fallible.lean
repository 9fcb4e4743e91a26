import Mathlib.Logic.Basic

/-!
# Programs that may fail

A program with a state that may fail (`EStateM`) keeps what it did when it fails.

* `Ends x s Q E`: from `s`, the program ends with a result and a state that satisfy `Q`, or fails
  with a state that satisfies `E`. There is one rule for each way to build a program; `Ends.forM`
  is the rule for a loop.
* `Keeps g x`: however the program ends, it did not change `g` of the state.
* `Gives x Q E`: like `Ends`, for a program without a state (`Except`).
* `Yields x Q`: a program that must not fail (`Option`) gives a result that satisfies `Q`.
-/

namespace Citadel.Lib.Fallible

variable {ε σ α β : Type}

/-- From `s` the program ends with `Q` or fails with `E`. -/
def Ends (x : EStateM ε σ α) (s : σ) (Q : α → σ → Prop) (E : σ → Prop) : Prop :=
  match x s with
  | .ok a s' => Q a s'
  | .error _ s' => E s'

variable {x : EStateM ε σ α} {f : α → EStateM ε σ β} {a : α} {s s' : σ} {Q : α → σ → Prop}
  {E : σ → Prop}

theorem Ends.ok (h : Ends x s Q E) (hx : x s = .ok a s') : Q a s' := by
  rw [Ends, hx] at h
  exact h

theorem Ends.error (h : Ends x s Q E) {e : ε} (hx : x s = .error e s') : E s' := by
  rw [Ends, hx] at h
  exact h

theorem Ends.mono {Q' : α → σ → Prop} {E' : σ → Prop} (h : Ends x s Q E)
    (hQ : ∀ a s', Q a s' → Q' a s') (hE : ∀ s', E s' → E' s') : Ends x s Q' E' := by
  unfold Ends at *
  cases hx : x s with
  | ok a s' => rw [hx] at h; exact hQ a s' h
  | error e s' => rw [hx] at h; exact hE s' h

theorem Ends.pure (h : Q a s) : Ends (pure a : EStateM ε σ α) s Q E := h

theorem Ends.throw {e : ε} (h : E s) : Ends (throw e : EStateM ε σ α) s Q E := h

theorem Ends.update {Q : PUnit → σ → Prop} {g : σ → σ} (h : Q ⟨⟩ (g s)) :
    Ends (modify g : EStateM ε σ PUnit) s Q E := h

theorem Ends.bind {Q : β → σ → Prop} (h : Ends x s (fun a s' => Ends (f a) s' Q E) E) :
    Ends (x >>= f) s Q E := by
  unfold Ends at h ⊢
  change match EStateM.bind x f s with
    | .ok a s' => Q a s'
    | .error _ s' => E s'
  unfold EStateM.bind
  cases hx : x s with
  | ok a s' | error e s' => rw [hx] at h; exact h

theorem Ends.get_bind {Q : β → σ → Prop} {f : σ → EStateM ε σ β} (h : Ends (f s) s Q E) :
    Ends (get >>= f) s Q E := h

theorem Ends.set_bind {Q : β → σ → Prop} {f : PUnit → EStateM ε σ β} {t : σ}
    (h : Ends (f ⟨⟩) t Q E) : Ends (set t >>= f) s Q E := h

theorem Ends.ite {c : Prop} [Decidable c] {y : EStateM ε σ α}
    (hx : c → Ends x s Q E) (hy : ¬ c → Ends y s Q E) : Ends (if c then x else y) s Q E := by
  by_cases hc : c
  · rw [if_pos hc]
    exact hx hc
  · rw [if_neg hc]
    exact hy hc

theorem bind_ok (h : x s = .ok a s') : (x >>= f) s = f a s' := by
  change EStateM.bind x f s = _
  unfold EStateM.bind
  rw [h]

theorem get_bind (f : σ → EStateM ε σ β) (s : σ) :
    ((get : EStateM ε σ σ) >>= f) s = f s s := rfl

/-- **The rule for a loop**: what every round keeps holds at the end. -/
theorem Ends.forM {I : σ → Prop} {g : α → EStateM ε σ PUnit} :
    ∀ (l : List α) {s : σ}, I s → (∀ a ∈ l, ∀ t, I t → Ends (g a) t (fun _ => I) E) →
      Ends (l.forM g) s (fun _ => I) E
  | [], _, hs, _ => hs
  | a :: l, s, hs, hg => by
    refine .bind ((hg a List.mem_cons_self s hs).mono (fun _ t ht => ?_) fun _ h => h)
    exact .forM l ht fun b hb => hg b (List.mem_cons_of_mem a hb)

/-! ## What a program does not change -/

/-- However the program ends, `g` of the state is what it was. -/
def Keeps {κ : Type} (g : σ → κ) (x : EStateM ε σ α) : Prop :=
  ∀ s, Ends x s (fun _ s' => g s' = g s) fun s' => g s' = g s

namespace Keeps

variable {κ : Type} {g : σ → κ}

theorem pure (a : α) : Keeps g (Pure.pure a : EStateM ε σ α) := fun _ => .pure rfl

theorem throw (e : ε) : Keeps g (MonadExcept.throw e : EStateM ε σ α) := fun _ => .throw rfl

theorem get : Keeps g (MonadState.get : EStateM ε σ σ) := fun _ => rfl

theorem update {u : σ → σ} (h : ∀ s, g (u s) = g s) :
    Keeps g (modify u : EStateM ε σ PUnit) := fun s => .update (h s)

theorem bind (hx : Keeps g x) (hf : ∀ a, Keeps g (f a)) : Keeps g (x >>= f) := fun s =>
  .bind ((hx s).mono (fun a s' h => ((hf a) s').mono (fun _ _ h' => h'.trans h)
    fun _ h' => h'.trans h) fun _ h => h)

theorem ite {c : Prop} [Decidable c] {y : EStateM ε σ α} (hx : Keeps g x) (hy : Keeps g y) :
    Keeps g (if c then x else y) := fun s => .ite (fun _ => hx s) fun _ => hy s

theorem forM {p : α → EStateM ε σ PUnit} (l : List α) (h : ∀ a, Keeps g (p a)) :
    Keeps g (l.forM p) := fun _ =>
  .forM l rfl fun a _ t ht => ((h a) t).mono (fun _ _ h' => h'.trans ht) fun _ h' => h'.trans ht

end Keeps

/-! ## Programs without a state -/

/-- The program gives a result that satisfies `Q` or an error that satisfies `E`. -/
def Gives (x : Except ε α) (Q : α → Prop) (E : ε → Prop) : Prop :=
  match x with
  | .ok a => Q a
  | .error e => E e

namespace Gives

variable {x : Except ε α} {f : α → Except ε β} {Q : α → Prop} {E : ε → Prop}

theorem ok (h : Q a) : Gives (Except.ok a) Q E := h

theorem error {e : ε} (h : E e) : Gives (Except.error e) Q E := h

theorem of_ok (h : Gives x Q E) (hx : x = .ok a) : Q a := by
  rw [hx] at h
  exact h

theorem mono {Q' : α → Prop} (h : Gives x Q E) (hQ : ∀ a, Q a → Q' a) : Gives x Q' E := by
  cases x with
  | ok a => exact hQ a h
  | error e => exact h

theorem bind {R : β → Prop} (h : Gives x (fun a => Gives (f a) R E) E) : Gives (x >>= f) R E := by
  cases x with
  | ok a | error e => exact h

theorem map {g : α → β} {R : β → Prop} (h : Gives x (fun a => R (g a)) E) :
    Gives (x.map g) R E := by
  cases x with
  | ok a | error e => exact h

theorem ite {c : Prop} [Decidable c] {y : Except ε α} (hx : c → Gives x Q E)
    (hy : ¬ c → Gives y Q E) : Gives (if c then x else y) Q E := by
  by_cases hc : c
  · rw [if_pos hc]
    exact hx hc
  · rw [if_neg hc]
    exact hy hc

end Gives

/-! ## Programs that must not fail -/

/-- The program gives a result, and that satisfies `Q`. -/
def Yields (x : Option α) (Q : α → Prop) : Prop := ∃ a, x = some a ∧ Q a

namespace Yields

variable {x y : Option α} {f : α → Option β} {Q : α → Prop}

theorem some (h : Q a) : Yields (some a) Q := ⟨a, rfl, h⟩

theorem of_eq (hx : x = .some a) (h : Q a) : Yields x Q := ⟨a, hx, h⟩

theorem mono {Q' : α → Prop} (h : Yields x Q) (hQ : ∀ a, Q a → Q' a) : Yields x Q' := by
  obtain ⟨a, hx, ha⟩ := h
  exact ⟨a, hx, hQ a ha⟩

theorem bind {R : β → Prop} (h : Yields x fun a => Yields (f a) R) : Yields (x >>= f) R := by
  obtain ⟨a, rfl, ha⟩ := h
  exact ha

theorem ite {c : Prop} [Decidable c] (hx : c → Yields x Q) (hy : ¬ c → Yields y Q) :
    Yields (if c then x else y) Q := by
  by_cases hc : c
  · rw [if_pos hc]
    exact hx hc
  · rw [if_neg hc]
    exact hy hc

end Yields

end Citadel.Lib.Fallible
