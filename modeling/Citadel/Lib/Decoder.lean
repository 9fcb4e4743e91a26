import Mathlib.Data.List.Basic

/-!
# Decoders that are fed symbol by symbol

A decoder has a state that each symbol of the input changes; a symbol may complete a character, and
it may be refused. `feedAll` feeds a whole input and gives the characters with the state at the end
or the place of the refused symbol. `first` feeds up to the first character: it is what one call of
a decoding function does.

* `feedAll_append`, `feedPieces_eq`: an input that comes in pieces is decoded as the whole.
* `feedAll_eq_first`: decoding call by call.
-/

namespace Citadel.Lib.Decoder

open List Prod

universe u v w

variable {σ : Type u} {β : Type v} {γ : Type w}

/-- What a symbol does: it is taken into the state, it completes a character, or it is refused. -/
inductive Fed (σ : Type u) (γ : Type w) where
  | more (s : σ)
  | emit (c : γ) (s : σ)
  | bad

/-- The end of an input: the state, or the place of the symbol that was refused. -/
def later (k : ℕ) : σ ⊕ ℕ → σ ⊕ ℕ
  | .inl s => .inl s
  | .inr i => .inr (k + i)

@[simp] theorem later_inl (k : ℕ) (s : σ) : later k (.inl s : σ ⊕ ℕ) = .inl s := rfl

@[simp] theorem later_inr (k i : ℕ) : later k (.inr i : σ ⊕ ℕ) = .inr (k + i) := rfl

theorem later_zero (e : σ ⊕ ℕ) : later 0 e = e := by
  cases e with
  | inl s => rfl
  | inr i => rw [later_inr, Nat.zero_add]

theorem later_later (j k : ℕ) (e : σ ⊕ ℕ) : later j (later k e) = later (j + k) e := by
  cases e with
  | inl s => rfl
  | inr i => rw [later_inr, later_inr, later_inr, Nat.add_assoc]

variable {s s' : σ} {i n : ℕ} {l : List β} {c : γ}

theorem later_eq_inl {k : ℕ} {e : σ ⊕ ℕ} : later k e = .inl s ↔ e = .inl s := by
  cases e <;> simp

theorem later_eq_inr {k : ℕ} {e : σ ⊕ ℕ} : later k e = .inr i ↔ ∃ j, i = k + j ∧ e = .inr j := by
  cases e with
  | inl s => exact ⟨nofun, fun ⟨_, _, h⟩ => nomatch h⟩
  | inr j =>
    rw [later_inr]
    exact ⟨fun h => ⟨j, (Sum.inr.inj h).symm, rfl⟩, fun ⟨_, hi, hj⟩ => by rw [hi, Sum.inr.inj hj]⟩

variable (f : σ → β → Fed σ γ)

/-- A whole input. -/
def feedAll : σ → List β → List γ × (σ ⊕ ℕ)
  | s, [] => ([], .inl s)
  | s, b :: l =>
    match f s b with
    | .more s' => let r := feedAll s' l; (r.1, later 1 r.2)
    | .emit c s' => let r := feedAll s' l; (c :: r.1, later 1 r.2)
    | .bad => ([], .inr 0)

/-- An input in pieces: each piece is fed from the state in which the one before it ended. -/
def feedPieces (g : σ → List β → List γ × (σ ⊕ ℕ)) : σ → List (List β) → List γ × (σ ⊕ ℕ)
  | s, [] => ([], .inl s)
  | s, p :: ps =>
    match g s p with
    | (cs, .inl s') => let r := feedPieces g s' ps; (cs ++ r.1, later p.length r.2)
    | (cs, .inr i) => (cs, .inr i)

theorem feedAll_append (s : σ) (l l' : List β) : feedAll f s (l ++ l') =
    match feedAll f s l with
    | (cs, .inl s') => let r := feedAll f s' l'; (cs ++ r.1, later l.length r.2)
    | (cs, .inr i) => (cs, .inr i) := by
  induction l generalizing s with
  | nil => simp [feedAll, later_zero]
  | cons b l ih =>
    rw [cons_append, feedAll, feedAll]
    -- what the first symbol adds stands in front of both sides
    cases f s b with
    | more s' =>
      simp only [ih s']
      rcases feedAll f s' l with ⟨cs, s'' | i⟩
      · simp only [later_inl, later_later, length_cons, Nat.add_comm]
      · simp only [later_inr]
    | emit c s' =>
      simp only [ih s']
      rcases feedAll f s' l with ⟨cs, s'' | i⟩
      · simp only [later_inl, later_later, length_cons, Nat.add_comm, cons_append]
      · simp only [later_inr]
    | bad => rfl

theorem feedPieces_eq (ps : List (List β)) (s : σ) :
    feedPieces (feedAll f) s ps = feedAll f s ps.flatten := by
  induction ps generalizing s with
  | nil => rfl
  | cons p ps ih =>
    rw [flatten_cons, feedAll_append, feedPieces]
    rcases feedAll f s p with ⟨cs, s' | i⟩
    · simp only [ih s']
    · rfl

theorem feedPieces_congr {g g' : σ → List β → List γ × (σ ⊕ ℕ)} {ps : List (List β)}
    (h : ∀ p ∈ ps, ∀ s, g s p = g' s p) (s : σ) : feedPieces g s ps = feedPieces g' s ps := by
  induction ps generalizing s with
  | nil => rfl
  | cons p ps ih =>
    have hps := fun s' => ih (fun q hq => h q (mem_cons_of_mem _ hq)) s'
    rw [feedPieces, feedPieces, h p mem_cons_self s]
    rcases g' s p with ⟨cs, s' | i⟩
    · simp only [hps s']
    · rfl

theorem feedAll_refused {cs : List γ} (h : feedAll f s l = (cs, .inr i)) :
    ∃ s' b, l[i]? = some b ∧ feedAll f s (l.take i) = (cs, .inl s') ∧ f s' b = .bad := by
  induction l generalizing s cs i with
  | nil => cases h
  | cons b l ih =>
    rw [feedAll] at h
    cases hf : f s b with
    | more r | emit c r =>
      rw [hf] at h
      obtain ⟨rfl, he⟩ := Prod.ext_iff.mp h
      obtain ⟨j, rfl, hj⟩ := later_eq_inr.mp he
      obtain ⟨s', b', hb', hs', hbad⟩ := ih (Prod.ext rfl hj)
      refine ⟨s', b', by rwa [Nat.add_comm, List.getElem?_cons_succ], ?_, hbad⟩
      rw [Nat.add_comm, take_succ_cons, feedAll, hf]
      simp only [hs', later_inl]
    | bad =>
      rw [hf] at h
      cases h
      exact ⟨s, b, rfl, rfl, hf⟩

theorem feedAll_invariant {P : σ → Prop} (hmore : ∀ {s b s'}, P s → f s b = .more s' → P s')
    (hemit : ∀ {s b c s'}, P s → f s b = .emit c s' → P s') {ws : List γ} (hs : P s)
    (h : feedAll f s l = (ws, .inl s')) : P s' := by
  induction l generalizing s ws with
  | nil =>
    cases h
    exact hs
  | cons b l ih =>
    rw [feedAll] at h
    cases hf : f s b with
    | more r =>
      rw [hf] at h
      exact ih (hmore hs hf) (Prod.ext rfl (later_eq_inl.mp (mk.inj h).2))
    | emit c r =>
      rw [hf] at h
      exact ih (hemit hs hf) (Prod.ext rfl (later_eq_inl.mp (mk.inj h).2))
    | bad =>
      rw [hf] at h
      cases (mk.inj h).2

/-! ## Character by character -/

/-- The outcome of feeding up to the first character. -/
inductive First (σ : Type u) (γ : Type w) where
  /-- All symbols were taken and no character is complete. -/
  | more (s : σ)
  /-- A character after `n` symbols. -/
  | emit (n : ℕ) (c : γ) (s : σ)
  /-- The symbol at place `i` was refused. -/
  | bad (i : ℕ)

/-- The same outcome with one more symbol in front. -/
def First.next : First σ γ → First σ γ
  | .more s => .more s
  | .emit n c s => .emit (n + 1) c s
  | .bad i => .bad (i + 1)

theorem First.next_eq_emit {x : First σ γ} (h : x.next = .emit n c s) :
    ∃ m, n = m + 1 ∧ x = .emit m c s := by
  cases x with
  | more t => cases h
  | emit m d t =>
    cases h
    exact ⟨m, rfl, rfl⟩
  | bad i => cases h

/-- The input up to the first character. -/
def first : σ → List β → First σ γ
  | s, [] => .more s
  | s, b :: l =>
    match f s b with
    | .more s' => (first s' l).next
    | .emit c s' => .emit 1 c s'
    | .bad => .bad 0

theorem first_emit_le (h : first f s l = .emit n c s') : 0 < n ∧ n ≤ l.length := by
  induction l generalizing s n with
  | nil => cases h
  | cons b l ih =>
    rw [first] at h
    rw [length_cons]
    cases hf : f s b with
    | more t =>
      rw [hf] at h
      obtain ⟨m, rfl, hm⟩ := First.next_eq_emit h
      have := ih hm
      omega
    | emit d t =>
      rw [hf] at h
      cases h
      omega
    | bad => rw [hf] at h; cases h

theorem feedAll_eq_first (s : σ) (l : List β) : feedAll f s l =
    match first f s l with
    | .more s' => ([], .inl s')
    | .emit n c s' => let r := feedAll f s' (l.drop n); (c :: r.1, later n r.2)
    | .bad i => ([], .inr i) := by
  induction l generalizing s with
  | nil => rfl
  | cons b l ih =>
    rw [feedAll, first]
    cases f s b with
    | more s' =>
      simp only [ih s']
      cases first f s' l with
      | more t => rfl
      | emit n c t => simp only [First.next, drop_succ_cons, later_later, Nat.add_comm]
      | bad i => simp only [First.next, later_inr, Nat.add_comm]
    | emit c s' | bad => rfl

theorem first_append_of_ne (h : ∀ s', first f s l ≠ .more s') (t : List β) :
    first f s (l ++ t) = first f s l := by
  induction l generalizing s with
  | nil => exact absurd rfl (h s)
  | cons b l ih =>
    rw [cons_append, first, first]
    cases hf : f s b with
    | more r =>
      refine congrArg First.next (ih fun s' hs' => h s' ?_)
      rw [first, hf]
      exact congrArg First.next hs'
    | emit c r | bad => rfl

theorem first_append (h : first f s l = .emit n c s') (t : List β) :
    first f s (l ++ t) = .emit n c s' :=
  (first_append_of_ne f (by simp [h]) t).trans h

theorem first_append_bad (h : first f s l = .bad i) (t : List β) : first f s (l ++ t) = .bad i :=
  (first_append_of_ne f (by simp [h]) t).trans h

theorem feedAll_take_first (h : first f s l = .emit n c s') :
    feedAll f s (l.take n) = ([c], .inl s') := by
  induction l generalizing s n with
  | nil => cases h
  | cons b l ih =>
    rw [first] at h
    cases hf : f s b with
    | more r =>
      rw [hf] at h
      obtain ⟨m, rfl, hm⟩ := First.next_eq_emit h
      rw [take_succ_cons, feedAll, hf]
      simp only [ih hm, later_inl]
    | emit d r =>
      rw [hf] at h
      cases h
      rw [take_succ_cons, take_zero, feedAll, hf]
      rfl
    | bad =>
      rw [hf] at h
      cases h

end Citadel.Lib.Decoder
