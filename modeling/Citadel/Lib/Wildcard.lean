import Mathlib.Order.Nat

/-!
# Patterns with stars

A pattern is a list of tests of one place each, and of stars. A star takes any number of places,
but none where `stop` holds, and it may begin only where `start` holds.

A matcher that remembers only the last star is complete if every test accepts either only places
where a star has to stop or only other places, and a star may begin behind every place that it could
take: what an earlier star could take in addition the last star can take as well
(`Matches.of_earlier`).
-/

namespace Citadel.Lib.Wildcard

/-- An element of a pattern. -/
inductive Item where
  | star
  | one (test : ℕ → Prop)

/-- Where a star has to stop and where it may begin, and where a pattern may end. -/
structure Rules where
  stop : ℕ → Prop
  start : ℕ → Prop
  final : ℕ → Prop

variable {R : Rules} {ps qs : List Item} {tests : List (ℕ → Prop)} {P : ℕ → Prop} {i j k : ℕ}

/-- A star may take the places from `i` to `j`. -/
def Rules.Free (R : Rules) (i j : ℕ) : Prop := ∀ k, i ≤ k → k < j → ¬ R.stop k

/-- The pattern matches from the place `i` on. -/
inductive Matches (R : Rules) : List Item → ℕ → Prop
  | nil {i : ℕ} (h : R.final i) : Matches R [] i
  | one {P : ℕ → Prop} {ps : List Item} {i : ℕ} (hP : P i) (h : Matches R ps (i + 1)) :
    Matches R (.one P :: ps) i
  | star {ps : List Item} {i j : ℕ} (hi : R.start i) (hij : i ≤ j) (hfree : R.Free i j)
    (h : Matches R ps j) : Matches R (.star :: ps) i

theorem matches_nil : Matches R [] i ↔ R.final i :=
  ⟨fun h => by cases h; assumption, .nil⟩

theorem matches_one : Matches R (.one P :: ps) i ↔ P i ∧ Matches R ps (i + 1) :=
  ⟨fun h => by cases h; exact ⟨‹_›, ‹_›⟩, fun h => .one h.1 h.2⟩

theorem matches_star : Matches R (.star :: ps) i ↔
    R.start i ∧ ∃ j, i ≤ j ∧ R.Free i j ∧ Matches R ps j :=
  ⟨fun h => by cases h; exact ⟨‹_›, _, ‹_›, ‹_›, ‹_›⟩,
    fun ⟨h, _, h1, h2, h3⟩ => .star h h1 h2 h3⟩

theorem Rules.Free.refl (R : Rules) (i : ℕ) : R.Free i i := fun k hk hk' => by omega

theorem Rules.Free.trans (h : R.Free i j) (h' : R.Free j k) : R.Free i k := by
  intro l hl hl'
  by_cases hlj : l < j
  · exact h l hl hlj
  · exact h' l (by omega) hl'

theorem Rules.Free.mono {i' j' : ℕ} (h : R.Free i j) (hi : i ≤ i') (hj : j' ≤ j) : R.Free i' j' :=
  fun k hk hk' => h k (by omega) (by omega)

/-! ## Tests one behind the other -/

/-- The tests accept the places from `i` on, one after the other. -/
def Ones : List (ℕ → Prop) → ℕ → Prop
  | [], _ => True
  | P :: tests, i => P i ∧ Ones tests (i + 1)

theorem ones_append {u : List (ℕ → Prop)} : ∀ {tests : List (ℕ → Prop)} {i : ℕ},
    Ones (tests ++ u) i ↔ Ones tests i ∧ Ones u (i + tests.length)
  | [], i => by simp [Ones]
  | P :: tests, i => by
    rw [List.cons_append, Ones, Ones, ones_append, List.length_cons, and_assoc]
    rw [show i + 1 + tests.length = i + (tests.length + 1) by omega]

theorem matches_ones : ∀ {tests : List (ℕ → Prop)} {i : ℕ},
    Matches R (tests.map Item.one ++ ps) i ↔ Ones tests i ∧ Matches R ps (i + tests.length)
  | [], i => by simp [Ones]
  | P :: tests, i => by
    rw [List.map_cons, List.cons_append, matches_one, matches_ones, Ones, List.length_cons,
      and_assoc]
    rw [show i + 1 + tests.length = i + (tests.length + 1) by omega]

theorem Ones.get : ∀ {tests : List (ℕ → Prop)} {i t : ℕ}, Ones tests i → tests[t]? = some P →
    P (i + t)
  | [], _, _, _, ht => by simp at ht
  | Q :: tests, i, 0, h, ht => by
    obtain rfl : Q = P := by simpa using ht
    exact h.1
  | Q :: tests, i, t + 1, h, ht => by
    have := h.2.get (t := t) (by simpa using ht)
    rwa [show i + (t + 1) = i + 1 + t by omega]

/-! ## The last star is enough -/

/-- The test accepts only places where a star has to stop, or only others. -/
def Rules.Pure (R : Rules) (P : ℕ → Prop) : Prop :=
  (∀ k, P k → ¬ R.stop k) ∨ ∀ k, P k → R.stop k

/-- If the tests accept both from `i` on and from a later place `j` on that a star can reach from
`i`, then a star can also take the places that they accept. -/
theorem Rules.Free.extend (hpure : ∀ P ∈ tests, R.Pure P) (hi : Ones tests i) (hij : i < j)
    (hfree : R.Free i j) (hj : Ones tests j) : R.Free i (j + tests.length) := by
  -- a place where the star has to stop is met from `i` on first, and then from `j` on again
  have hafter : ∀ t, t < tests.length → ¬ R.stop (j + t) := by
    intro t
    induction t using Nat.strongRecOn with
    | ind t ih =>
      intro ht
      obtain ⟨P, hP⟩ : ∃ P, tests[t]? = some P := ⟨_, List.getElem?_eq_getElem ht⟩
      rcases hpure P (List.mem_of_getElem? hP) with hother | hstop
      · exact hother _ (hj.get hP)
      · have hit := hstop _ (hi.get hP)
        have hge : j ≤ i + t := by
          by_contra hlt
          exact hfree (i + t) (by omega) (by omega) hit
        have := ih (i + t - j) (by omega) (by omega)
        rw [show j + (i + t - j) = i + t by omega] at this
        exact absurd hit this
  intro k hk hk'
  by_cases hkj : k < j
  · exact hfree k hk hkj
  · have := hafter (k - j) (by omega)
    rwa [show j + (k - j) = k by omega] at this

/-- What matches with an earlier star that takes more matches with the star behind the tests. -/
theorem Matches.of_earlier (hstart : ∀ k, ¬ R.stop k → R.start (k + 1))
    (hpure : ∀ P ∈ tests, R.Pure P) (hbegin : R.start i) (hi : Ones tests i) (hij : i < j)
    (hfree : R.Free i j) (h : Matches R (tests.map Item.one ++ .star :: ps) j) :
    Matches R (.star :: ps) (i + tests.length) := by
  obtain ⟨hj, h⟩ := matches_ones.mp h
  obtain ⟨-, k, hk, hfree', h⟩ := matches_star.mp h
  have hall := (hfree.extend hpure hi hij hj).trans hfree'
  have hbegin' : R.start (i + tests.length) := by
    by_cases h0 : tests.length = 0
    · rwa [h0, Nat.add_zero]
    · have := hstart (i + tests.length - 1) (hall _ (by omega) (by omega))
      rwa [show i + tests.length - 1 + 1 = i + tests.length by omega] at this
  exact .star hbegin' (by omega) (hall.mono (by omega) le_rfl) h

theorem matches_star_star :
    Matches R (.star :: .star :: ps) i ↔ Matches R (.star :: ps) i := by
  constructor
  · intro h
    obtain ⟨hi, j, hij, hfree, h⟩ := matches_star.mp h
    obtain ⟨-, k, hjk, hfree', h⟩ := matches_star.mp h
    exact .star hi (by omega) (hfree.trans hfree') h
  · intro h
    obtain ⟨hi, -⟩ := matches_star.mp h
    exact .star hi le_rfl (Rules.Free.refl R i) h

end Citadel.Lib.Wildcard
