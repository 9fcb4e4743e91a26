import Mathlib.Data.List.Basic
import Mathlib.Order.Basic

/-!
# Restartable transducers

A transducer reads units from the front of its input, a few symbols at a time, writes some output
for each and changes its state. `convert` is the conversion of a whole input; `bounded` is one call
with a limited room for output, which stops in front of the first unit whose output does not fit. A
call that stops may have changed the state in the attempt (`held`).

`Lawful` says what makes such a transducer restartable: a unit that was read is read the same when
more input follows, and the state after an attempt reads that input as the state before. A unit
without output always fits, so no attempt on it is repeated.

* `convert_bounded`: a call followed by the conversion of what it left is the whole conversion.
* `convert_session`: a caller that cuts the input into pieces, bounds the output of each call and
  presents again what was left gets the output, the rest and the reason of the whole conversion.
-/

namespace Citadel.Lib.Transducer

open List Prod

universe u v w

variable {σ : Type u} {α : Type v} {β : Type w}

/-- What is found at the front of the input: a unit of `n` symbols with its output and the state
after it, the beginning of a unit, or no unit. -/
inductive Step (σ : Type u) (β : Type w) where
  | take (n : ℕ) (b : List β) (c : σ)
  | incomplete
  | illegal

/-- Why a call stopped. -/
inductive Why where
  | complete
  | incomplete
  | illegal
  | full
deriving DecidableEq

structure Machine (σ : Type u) (α : Type v) (β : Type w) where
  /-- The unit at the front of an input that is not empty. -/
  step : σ → List α → Step σ β
  /-- The state after an attempt that took nothing. -/
  held : σ → List α → σ

/-- The laws of a restartable transducer. -/
structure Machine.Lawful (M : Machine σ α β) : Prop where
  take_pos : ∀ {c s n b c'}, s ≠ [] → M.step c s = .take n b c' → 0 < n ∧ n ≤ s.length
  take_append : ∀ {c s n b c'} (t : List α), s ≠ [] → M.step c s = .take n b c' →
    M.step c (s ++ t) = .take n b c'
  illegal_append :
    ∀ {c s} (t : List α), s ≠ [] → M.step c s = .illegal → M.step c (s ++ t) = .illegal
  held_step : ∀ {c s} (t : List α), s ≠ [] → M.step c s ≠ .illegal →
    (∀ n c', M.step c s ≠ .take n [] c') → M.step (M.held c s) (s ++ t) = M.step c (s ++ t)

variable (M : Machine σ α β)

/-- The conversion of a whole input: the output, the symbols left and the reason. -/
def convert (c : σ) (s : List α) : List β × List α × Why :=
  if _hs : s = [] then ([], [], .complete)
  else
    match M.step c s with
    | .take n b c' =>
      if _hn : 0 < n then
        let r := convert c' (s.drop n)
        (b ++ r.1, r.2)
      else ([], s, .incomplete)
    | .incomplete => ([], s, .incomplete)
    | .illegal => ([], s, .illegal)
termination_by s.length
decreasing_by
  have := length_pos_of_ne_nil _hs
  rw [length_drop]
  omega

/-- One call with room for `room` symbols of output: the state, the reason, the output and the
symbols left. -/
def bounded (c : σ) (s : List α) (room : ℕ) : σ × Why × List β × List α :=
  if _hs : s = [] then (c, .complete, [], [])
  else
    match M.step c s with
    | .take n b c' =>
      if room < b.length then (M.held c s, .full, [], s)
      else if _hn : 0 < n then
        let r := bounded c' (s.drop n) (room - b.length)
        (r.1, r.2.1, b ++ r.2.2.1, r.2.2.2)
      else (M.held c s, .incomplete, [], s)
    | .incomplete => (M.held c s, .incomplete, [], s)
    | .illegal => (M.held c s, .illegal, [], s)
termination_by s.length
decreasing_by
  have := length_pos_of_ne_nil _hs
  rw [length_drop]
  omega

/-- A caller's session: each call is given what the one before left, followed by the next piece, and
a fresh room. The reason is that of the last call made; none is made after an illegal unit. -/
def session (call : σ → List α → ℕ → σ × Why × List β × List α) (c : σ) (left : List α) :
    List (List α × ℕ) → List β × List α × Why
  | [] => ([], left, .full)
  | (piece, room) :: calls =>
    let r := call c (left ++ piece) room
    if r.2.1 = .illegal then (r.2.2.1, r.2.2.2 ++ (calls.map fst).flatten, .illegal)
    else if calls.isEmpty then (r.2.2.1, r.2.2.2, r.2.1)
    else
      let q := session call r.1 r.2.2.2 calls
      (r.2.2.1 ++ q.1, q.2)

variable {M} (hM : M.Lawful) {c : σ} {s : List α}

theorem convert_illegal (hs : s ≠ []) (h : M.step c s = .illegal) :
    convert M c s = ([], s, .illegal) := by
  rw [convert, dif_neg hs, h]

theorem convert_incomplete (hs : s ≠ []) (h : M.step c s = .incomplete) :
    convert M c s = ([], s, .incomplete) := by
  rw [convert, dif_neg hs, h]

include hM

theorem convert_take {n : ℕ} {b : List β} {c' : σ} (hs : s ≠ []) (h : M.step c s = .take n b c') :
    convert M c s = (b ++ (convert M c' (s.drop n)).1, (convert M c' (s.drop n)).2) := by
  rw [convert, dif_neg hs, h]
  simp only
  rw [dif_pos (hM.take_pos hs h).1]

theorem convert_held (t : List α) (hs : s ≠ []) (h1 : M.step c s ≠ .illegal)
    (h2 : ∀ n c', M.step c s ≠ .take n [] c') :
    convert M (M.held c s) (s ++ t) = convert M c (s ++ t) := by
  have hst : s ++ t ≠ [] := append_ne_nil_of_left_ne_nil hs t
  have hstep := hM.held_step t hs h1 h2
  cases h : M.step c (s ++ t) with
  | take n b c' => rw [convert_take hM hst (hstep.trans h), convert_take hM hst h]
  | incomplete => rw [convert_incomplete hst (hstep.trans h), convert_incomplete hst h]
  | illegal => rw [convert_illegal hst (hstep.trans h), convert_illegal hst h]

theorem convert_bounded (c : σ) (s : List α) (room : ℕ) (t : List α) :
    (convert M c (s ++ t) = if (bounded M c s room).2.1 = .illegal then
        ((bounded M c s room).2.2.1, (bounded M c s room).2.2.2 ++ t, .illegal)
      else ((bounded M c s room).2.2.1 ++ (convert M (bounded M c s room).1
        ((bounded M c s room).2.2.2 ++ t)).1,
          (convert M (bounded M c s room).1 ((bounded M c s room).2.2.2 ++ t)).2)) := by
  have hst : ∀ {s : List α}, s ≠ [] → s ++ t ≠ [] := fun hs => append_ne_nil_of_left_ne_nil hs t
  fun_induction bounded M c s room with
  | case1 => simp
  | case2 c s room hs n b c' h hroom =>
    have hb : b ≠ [] := ne_nil_of_length_pos (by omega)
    have hheld := convert_held hM (c := c) t hs (by rw [h]; simp) (by rw [h]; simp [hb])
    simp [hheld]
  | case3 c s room hs n b c' h hroom hn r ih =>
    rw [convert_take hM (hst hs) (hM.take_append t hs h),
      drop_append_of_le_length (hM.take_pos hs h).2, ih]
    split_ifs
    · rfl
    · simp [r]
  | case4 c s room hs n b c' h hroom hn => exact absurd (hM.take_pos hs h).1 hn
  | case5 c s room hs h =>
    have hheld := convert_held hM (c := c) t hs (by rw [h]; simp) (by rw [h]; simp)
    simp [hheld]
  | case6 c s room hs h => rw [if_pos rfl, convert_illegal (hst hs) (hM.illegal_append t hs h)]

theorem convert_eq_bounded (c : σ) (s : List α) (room : ℕ) (h : (bounded M c s room).2.1 ≠ .full) :
    convert M c s = ((bounded M c s room).2.2.1, (bounded M c s room).2.2.2,
      (bounded M c s room).2.1) := by
  fun_induction bounded M c s room with
  | case1 => rw [convert, dif_pos rfl]
  | case2 => exact absurd rfl h
  | case3 c s room hs n b c' hstep hroom hn r ih => rw [convert_take hM hs hstep, ih h]
  | case4 c s room hs n b c' hstep hroom hn => exact absurd (hM.take_pos hs hstep).1 hn
  | case5 c s room hs hstep => exact convert_incomplete hs hstep
  | case6 c s room hs hstep => exact convert_illegal hs hstep

theorem convert_session : ∀ (calls : List (List α × ℕ)) (c : σ) (left : List α),
    (session (bounded M) c left calls).2.2 ≠ .full →
    session (bounded M) c left calls = convert M c (left ++ (calls.map fst).flatten)
  | [], _, _, h => absurd rfl h
  | (piece, room) :: calls, c, left, h => by
    have hb := convert_bounded hM c (left ++ piece) room (calls.map fst).flatten
    rw [map_cons, flatten_cons, ← append_assoc]
    simp only [session] at h ⊢
    by_cases hill : (bounded M c (left ++ piece) room).2.1 = .illegal
    · rw [if_pos hill] at hb ⊢
      exact hb.symm
    rw [if_neg hill] at h hb ⊢
    cases calls with
    | nil =>
      simp only [isEmpty_nil, if_true] at h ⊢
      rw [map_nil, flatten_nil, append_nil]
      exact (convert_eq_bounded hM c (left ++ piece) room h).symm
    | cons call calls =>
      simp only [isEmpty_cons, Bool.false_eq_true, if_false] at h ⊢
      rw [hb, convert_session (call :: calls) _ _ h]

omit hM in
theorem length_left_le (c : σ) (s : List α) (room : ℕ) :
    (bounded M c s room).2.2.2.length ≤ s.length := by
  fun_induction bounded M c s room with
  | case3 c s room hs n b c' h hroom hn r ih =>
    rw [length_drop] at ih
    exact Nat.le_trans ih (Nat.sub_le _ _)
  | _ => exact Nat.le_refl _

theorem bounded_progress {m : ℕ} (hm : ∀ c s n b c', M.step c s = .take n b c' → b.length ≤ m)
    (c : σ) (s : List α) {room : ℕ} (hroom : m ≤ room) (h : (bounded M c s room).2.1 = .full) :
    (bounded M c s room).2.2.2.length < s.length := by
  rw [bounded] at h ⊢
  split_ifs at h ⊢ with hs
  cases hstep : M.step c s with
  | incomplete | illegal => rw [hstep] at h; cases h
  | take n b c' =>
    have hb := hm c s n b c' hstep
    have hn := (hM.take_pos hs hstep).1
    have := length_pos_of_ne_nil hs
    have hle := length_left_le (M := M) c' (s.drop n) (room - b.length)
    rw [length_drop] at hle
    simp only
    rw [if_neg (by omega), dif_pos hn]
    simp only
    omega

end Citadel.Lib.Transducer
