import Mathlib.Data.List.TakeWhile

/-!
# Strings read piece by piece

A string is cut at a separator. A reader (`Reader`) has a step for a separator and one for a piece,
which is also told what follows it; a step goes on with a new state or ends the reading.

* `read_nil`, `read_sep`, `read_piece`: the reading of a string, told by what stands in front.
* `read_induction`: induction over the pieces.
* `read_sim`: readers whose steps are related give related results.
-/

namespace Citadel.Lib.Pieces

open List Nat

universe u v w x y

variable {α : Type u} {σ : Type v} {ρ : Type w}

/-- A step goes on with a state or ends. -/
inductive Next (σ : Type v) (ρ : Type w) where
  | go (s : σ)
  | stop (r : ρ)

/-- The result of a step, if the reading goes on with `f`. -/
def Next.run (f : σ → ρ) : Next σ ρ → ρ
  | .go s => f s
  | .stop r => r

structure Reader (α : Type u) (σ : Type v) (ρ : Type w) where
  /-- The step for a separator. -/
  sepStep : σ → Next σ ρ
  /-- The step for a piece and what follows it. -/
  piece : σ → List α → List α → Next σ ρ
  finish : σ → ρ

/-- The string ends here or a separator follows. -/
def Ends (sep : α) (t : List α) : Prop := t = [] ∨ t.head? = some sep

variable [DecidableEq α]

/-- Every round takes at least one symbol. -/
def readLoop (m : Reader α σ ρ) (sep : α) : ℕ → σ → List α → ρ
  | 0, s, _ => m.finish s
  | _ + 1, s, [] => m.finish s
  | rounds + 1, s, a :: t =>
    if a = sep then (m.sepStep s).run fun s => readLoop m sep rounds s t
    else
      let rest := (a :: t).dropWhile (· ≠ sep)
      (m.piece s ((a :: t).takeWhile (· ≠ sep)) rest).run fun s => readLoop m sep rounds s rest

def read (m : Reader α σ ρ) (sep : α) (s : σ) (t : List α) : ρ := readLoop m sep t.length s t

/-! ## What stands in front -/

variable {c t : List α}

theorem span_piece {sep : α} (hc : sep ∉ c) (ht : Ends sep t) :
    (c ++ t).takeWhile (· ≠ sep) = c ∧ (c ++ t).dropWhile (· ≠ sep) = t := by
  have hall : ∀ a ∈ c, decide (a ≠ sep) = true := fun a ha => decide_eq_true fun h => hc (h ▸ ha)
  rw [takeWhile_append_of_pos hall, dropWhile_append_of_pos hall]
  rcases ht with rfl | ht
  · exact ⟨append_nil c, rfl⟩
  · obtain ⟨b, t, rfl⟩ := exists_cons_of_ne_nil (fun h : t = [] => by rw [h] at ht; cases ht)
    obtain rfl : b = sep := Option.some.inj ht
    rw [takeWhile_cons_of_neg (by simp), dropWhile_cons_of_neg (by simp), append_nil]
    exact ⟨rfl, rfl⟩

theorem front_cases (sep : α) (t : List α) :
    t = [] ∨ (∃ t', t = sep :: t') ∨
      ∃ c t', t = c ++ t' ∧ c ≠ [] ∧ sep ∉ c ∧ Ends sep t' := by
  match t with
  | [] => exact .inl rfl
  | a :: t =>
    refine .inr ?_
    by_cases ha : a = sep
    · exact .inl ⟨t, by rw [ha]⟩
    · refine .inr ⟨(a :: t).takeWhile (· ≠ sep), (a :: t).dropWhile (· ≠ sep),
        takeWhile_append_dropWhile.symm, ?_, ?_, ?_⟩
      · rw [takeWhile_cons_of_pos (by simpa using ha)]
        exact cons_ne_nil _ _
      · intro h
        have := mem_takeWhile_imp h
        simp at this
      · cases hd : (a :: t).dropWhile (· ≠ sep) with
        | nil => exact .inl rfl
        | cons b r =>
          refine .inr (congrArg some ?_)
          have hne : (a :: t).dropWhile (· ≠ sep) ≠ [] := by
            rw [hd]
            exact cons_ne_nil _ _
          have hb := head_dropWhile_not (fun x => decide (x ≠ sep)) hne
          simp only [hd, head_cons] at hb
          exact not_not.mp (of_decide_eq_false hb)

theorem read_induction (sep : α) {P : List α → Prop} (nil : P []) (cons : ∀ t, P t → P (sep :: t))
    (piece : ∀ c t, c ≠ [] → sep ∉ c → Ends sep t → P t → P (c ++ t)) : ∀ t, P t := by
  suffices h : ∀ n (t : List α), t.length ≤ n → P t from fun t => h t.length t le_rfl
  intro n
  induction n with
  | zero =>
    intro t ht
    rw [length_eq_zero_iff.mp (le_zero.mp ht)]
    exact nil
  | succ n ih =>
    intro t ht
    rcases front_cases sep t with rfl | ⟨t, rfl⟩ | ⟨c, t, rfl, hc, hsep, hends⟩
    · exact nil
    · exact cons t (ih t (le_of_succ_le_succ ht))
    · have := length_pos_iff.mpr hc
      rw [length_append] at ht
      exact piece c t hc hsep hends (ih t (by omega))

/-! ## The reading of a string -/

variable (m : Reader α σ ρ) (sep : α)

theorem readLoop_nil (n : ℕ) (s : σ) : readLoop m sep n s [] = m.finish s := by
  cases n with
  | zero | succ n => rfl

theorem readLoop_piece (n : ℕ) (s : σ) (hc : c ≠ []) (hsep : sep ∉ c) (ht : Ends sep t) :
    readLoop m sep (n + 1) s (c ++ t) = (m.piece s c t).run fun s => readLoop m sep n s t := by
  obtain ⟨htake, hdrop⟩ := span_piece hsep ht
  obtain ⟨a, c, rfl⟩ := exists_cons_of_ne_nil hc
  have ha : ¬ a = sep := fun h => hsep (h ▸ mem_cons_self)
  rw [cons_append] at htake hdrop ⊢
  rw [readLoop, if_neg ha]
  simp only [htake, hdrop]

theorem readLoop_rounds (t : List α) : ∀ {n : ℕ} (s : σ), t.length ≤ n →
    readLoop m sep n s t = read m sep s t := by
  unfold read
  induction t using read_induction sep with
  | nil =>
    intro n s _
    rw [readLoop_nil, readLoop_nil]
  | cons t ih =>
    intro n s hn
    obtain ⟨n, rfl⟩ := exists_eq_succ_of_ne_zero (Nat.ne_of_gt (Nat.lt_of_lt_of_le
      (succ_pos _) hn))
    rw [length_cons, readLoop, readLoop, if_pos rfl, if_pos rfl]
    cases m.sepStep s with
    | go s => exact ih s (le_of_succ_le_succ hn)
    | stop r => rfl
  | piece c t hc hsep ht ih =>
    intro n s hn
    have hpos := length_pos_iff.mpr hc
    rw [length_append] at hn ⊢
    obtain ⟨n, rfl⟩ := exists_eq_succ_of_ne_zero (show n ≠ 0 by omega)
    obtain ⟨k, hk⟩ := exists_eq_succ_of_ne_zero (show c.length + t.length ≠ 0 by omega)
    rw [hk, readLoop_piece m sep n s hc hsep ht, readLoop_piece m sep k s hc hsep ht]
    cases m.piece s c t with
    | go s => exact (ih s (by omega)).trans (ih s (by omega)).symm
    | stop r => rfl

theorem read_nil (s : σ) : read m sep s [] = m.finish s := rfl

theorem read_sep (s : σ) (t : List α) :
    read m sep s (sep :: t) = (m.sepStep s).run fun s => read m sep s t := by
  rw [read, length_cons, readLoop, if_pos rfl]
  rfl

theorem read_piece (s : σ) (hc : c ≠ []) (hsep : sep ∉ c) (ht : Ends sep t) :
    read m sep s (c ++ t) = (m.piece s c t).run fun s => read m sep s t := by
  have hpos := length_pos_iff.mpr hc
  have hlen : (c ++ t).length ≤ c.length + t.length + 1 := by
    rw [length_append]
    omega
  rw [← readLoop_rounds m sep (c ++ t) s hlen, readLoop_piece m sep _ s hc hsep ht]
  cases m.piece s c t with
  | go s => exact readLoop_rounds m sep t s (by omega)
  | stop r => rfl

theorem read_sim {τ : Type x} {ρ' : Type y} {m : Reader α σ ρ} {m' : Reader α τ ρ'} {sep : α}
    {R : σ → τ → Prop} {S : ρ → ρ' → Prop}
    (hfinish : ∀ {s s'}, R s s' → S (m.finish s) (m'.finish s'))
    (hsep : ∀ {s s'}, R s s' → (∃ q q', m.sepStep s = .go q ∧ m'.sepStep s' = .go q' ∧ R q q') ∨
      ∃ r r', m.sepStep s = .stop r ∧ m'.sepStep s' = .stop r' ∧ S r r')
    (hpiece : ∀ {s s' c t}, R s s' → c ≠ [] → sep ∉ c → Ends sep t →
      (∃ q q', m.piece s c t = .go q ∧ m'.piece s' c t = .go q' ∧ R q q') ∨
      ∃ r r', m.piece s c t = .stop r ∧ m'.piece s' c t = .stop r' ∧ S r r') (t : List α) :
    ∀ {s s'}, R s s' → S (read m sep s t) (read m' sep s' t) := by
  induction t using read_induction sep with
  | nil => exact hfinish
  | cons t ih =>
    intro s s' h
    rw [read_sep, read_sep]
    rcases hsep h with ⟨q, q', hq, hq', hr⟩ | ⟨r, r', hr, hr', hs⟩
    · rw [hq, hq']
      exact ih hr
    · rw [hr, hr']
      exact hs
  | piece c t hc hnot ht ih =>
    intro s s' h
    rw [read_piece m sep s hc hnot ht, read_piece m' sep s' hc hnot ht]
    rcases hpiece h hc hnot ht with ⟨q, q', hq, hq', hr⟩ | ⟨r, r', hr, hr', hs⟩
    · rw [hq, hq']
      exact ih hr
    · rw [hr, hr']
      exact hs

end Citadel.Lib.Pieces
