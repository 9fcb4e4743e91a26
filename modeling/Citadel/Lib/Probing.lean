import Mathlib.Data.Finset.Card
import Mathlib.Data.List.Basic
import Mathlib.Data.Nat.ModEq
import Mathlib.Data.Nat.Prime.Basic
import Mathlib.Tactic.Ring

/-!
# Open addressing

A table is a list of slots. An element with key `k` is looked for at the slots `p k 0`, `p k 1` and
so on, and lies behind slots that are all in use (`Placed`).

* `exists_tri`: with triangular steps every slot of a table of 2ⁿ slots is probed.
* `Stops`: where a search ends. `exists_stops`: it does end if a slot that is probed is empty;
  `Stops.absent`: an empty slot at the end means that the key is not in the table.
* `Stops.placed`, `Stops.once`: a new element at that slot keeps the table in order.
-/

namespace Citadel.Lib.Probing

open List Nat

/-! ## Triangular numbers -/

/-- 0 + 1 + … + n. -/
def tri : ℕ → ℕ
  | 0 => 0
  | n + 1 => tri n + (n + 1)

theorem two_mul_tri : ∀ n : ℕ, 2 * tri n = n * (n + 1)
  | 0 => rfl
  | n + 1 => by
    rw [tri, mul_add, two_mul_tri n]
    ring

theorem two_mul_tri_sub (a d : ℕ) : 2 * tri (a + d) = 2 * tri a + d * (2 * a + d + 1) := by
  rw [two_mul_tri, two_mul_tri]
  ring

theorem tri_add_inj {n i a d : ℕ} (had : a + d < 2 ^ n)
    (h : (i + tri (a + d)) % 2 ^ n = (i + tri a) % 2 ^ n) : d = 0 := by
  have hmod : tri a ≡ tri (a + d) [MOD 2 ^ n] := (Nat.ModEq.add_left_cancel' i h).symm
  have h2 : 2 * tri a ≡ 2 * tri (a + d) [MOD 2 ^ (n + 1)] := by
    rw [pow_succ, mul_comm (2 ^ n)]
    exact Nat.ModEq.mul_left' 2 hmod
  have hle : 2 * tri a ≤ 2 * tri (a + d) := by
    rw [two_mul_tri_sub]
    exact le_add_right _ _
  have hdvd : 2 ^ (n + 1) ∣ d * (2 * a + d + 1) := by
    have := (modEq_iff_dvd' hle).mp h2
    rwa [two_mul_tri_sub, Nat.add_sub_cancel_left] at this
  have hlt : 2 * a + d + 1 < 2 ^ (n + 1) ∨ d = 0 := by
    rw [pow_succ]
    omega
  rcases hlt with hlt | hd
  · -- one of the two factors is odd
    rcases even_or_odd d with hd | hd
    · have hodd : Odd (2 * a + d + 1) := by
        obtain ⟨c, rfl⟩ := hd
        exact ⟨a + c, by ring⟩
      have hcop : Nat.Coprime (2 ^ (n + 1)) (2 * a + d + 1) :=
        Nat.Coprime.pow_left _ (coprime_two_left.2 hodd)
      have hd0 := eq_zero_of_dvd_of_lt (hcop.dvd_of_dvd_mul_right hdvd) (by rw [pow_succ]; omega)
      exact hd0
    · have hcop : Nat.Coprime (2 ^ (n + 1)) d :=
        Nat.Coprime.pow_left _ (coprime_two_left.2 hd)
      have := eq_zero_of_dvd_of_lt (hcop.dvd_of_dvd_mul_left hdvd) hlt
      omega
  · exact hd

theorem exists_tri (n i : ℕ) {x : ℕ} (hx : x < 2 ^ n) : ∃ j < 2 ^ n, (i + tri j) % 2 ^ n = x := by
  have hpos : 0 < 2 ^ n := Nat.two_pow_pos n
  have hinj : Set.InjOn (fun j => (i + tri j) % 2 ^ n) (Finset.range (2 ^ n) : Set ℕ) := by
    have hle : ∀ a b, a ≤ b → b < 2 ^ n → (i + tri a) % 2 ^ n = (i + tri b) % 2 ^ n → a = b := by
      intro a b hab hb h
      obtain ⟨d, rfl⟩ := Nat.exists_eq_add_of_le hab
      rw [tri_add_inj hb h.symm, add_zero]
    intro a ha b hb h
    rw [Finset.mem_coe, Finset.mem_range] at ha hb
    rcases le_total a b with hab | hab
    · exact hle a b hab hb h
    · exact (hle b a hab ha h.symm).symm
  have hsurj := Finset.surjOn_of_injOn_of_card_le (t := Finset.range (2 ^ n)) _
    (fun j _ => Finset.mem_coe.mpr (Finset.mem_range.mpr (mod_lt _ hpos))) hinj le_rfl
  obtain ⟨j, hj, hjx⟩ := hsurj (Finset.mem_coe.mpr (Finset.mem_range.mpr hx))
  exact ⟨j, Finset.mem_range.mp (Finset.mem_coe.mp hj), hjx⟩

/-! ## Tables -/

section Table

variable {α κ : Type*} {key : α → κ} {p : κ → ℕ → ℕ} {e : List (Option α)} {k : κ} {x : α} {j : ℕ}

/-- Every element lies on the way of its key, behind slots in use. -/
def Placed (key : α → κ) (p : κ → ℕ → ℕ) (e : List (Option α)) : Prop :=
  ∀ (i : ℕ) x, e[i]? = some (some x) →
    ∃ j, p (key x) j = i ∧ ∀ l < j, ∃ y, e[p (key x) l]? = some (some y)

/-- No two slots hold the same key. -/
def Once (key : α → κ) (e : List (Option α)) : Prop :=
  ∀ (i j : ℕ) x y, e[i]? = some (some x) → e[j]? = some (some y) → key x = key y → i = j

/-- A search for `k` ends at its step `j`: there the slot is empty or holds `k`, and in front of it
all slots hold other keys. -/
structure Stops (key : α → κ) (p : κ → ℕ → ℕ) (e : List (Option α)) (k : κ) (j : ℕ) : Prop where
  before : ∀ l < j, ∃ y, e[p k l]? = some (some y) ∧ key y ≠ k
  here : e[p k j]? = some none ∨ ∃ y, e[p k j]? = some (some y) ∧ key y = k

theorem exists_stops (hp : ∀ l, p k l < e.length) (hj : e[p k j]? = some none) :
    ∃ i ≤ j, Stops key p e k i := by
  classical
  have hex : ∃ i, e[p k i]? = some none ∨ ∃ y, e[p k i]? = some (some y) ∧ key y = k :=
    ⟨j, .inl hj⟩
  refine ⟨Nat.find hex, Nat.find_min' hex (.inl hj), fun l hl => ?_, Nat.find_spec hex⟩
  have hmin := Nat.find_min hex hl
  rw [not_or, not_exists] at hmin
  obtain ⟨o, ho⟩ : ∃ o, e[p k l]? = some o := ⟨_, List.getElem?_eq_getElem (hp l)⟩
  cases o with
  | none => exact absurd ho hmin.1
  | some y => exact ⟨y, ho, fun hy => hmin.2 y ⟨ho, hy⟩⟩

variable {i : ℕ} {y : α}

theorem Stops.absent (hs : Stops key p e k j) (he : e[p k j]? = some none) (hP : Placed key p e)
    (hi : e[i]? = some (some y)) : key y ≠ k := by
  rintro rfl
  obtain ⟨l, rfl, hl⟩ := hP i y hi
  rcases lt_trichotomy l j with hlj | rfl | hlj
  · obtain ⟨z, hz, hne⟩ := hs.before l hlj
    rw [hz] at hi
    cases hi
    exact hne rfl
  · rw [he] at hi
    cases hi
  · obtain ⟨z, hz⟩ := hl j hlj
    rw [he] at hz
    cases hz

theorem getElem?_set_some {l : ℕ} (hi : i < e.length) :
    (e.set i (some x))[l]? = some (some y) ↔ (l = i ∧ y = x) ∨ (l ≠ i ∧ e[l]? = some (some y)) := by
  rw [List.getElem?_set]
  by_cases hl : i = l
  · subst hl
    simp [hi, eq_comm]
  · simp [hl, Ne.symm hl]

theorem getElem?_set_of_some {l : ℕ} (hi : e[i]? = some none)
    (hl : e[l]? = some (some y)) : (e.set i (some x))[l]? = some (some y) := by
  rw [List.getElem?_set_ne, hl]
  rintro rfl
  rw [hi] at hl
  cases hl

/-- A new element at the slot where the search for its key ends. -/
theorem Stops.placed (hs : Stops key p e (key x) j) (he : e[p (key x) j]? = some none)
    (hP : Placed key p e) : Placed key p (e.set (p (key x) j) (some x)) := by
  have hlt : p (key x) j < e.length := (List.getElem?_eq_some_iff.mp he).1
  intro i y hi
  rcases (getElem?_set_some hlt).mp hi with ⟨rfl, rfl⟩ | ⟨-, hi⟩
  · refine ⟨j, rfl, fun l hl => ?_⟩
    obtain ⟨z, hz, -⟩ := hs.before l hl
    exact ⟨z, getElem?_set_of_some he hz⟩
  · obtain ⟨l, hl, hbefore⟩ := hP i y hi
    refine ⟨l, hl, fun l' hl' => ?_⟩
    obtain ⟨z, hz⟩ := hbefore l' hl'
    exact ⟨z, getElem?_set_of_some he hz⟩

theorem Stops.once (hs : Stops key p e (key x) j) (he : e[p (key x) j]? = some none)
    (hP : Placed key p e) (hO : Once key e) : Once key (e.set (p (key x) j) (some x)) := by
  have hlt : p (key x) j < e.length := (List.getElem?_eq_some_iff.mp he).1
  intro i l y z hi hl hyz
  rcases (getElem?_set_some hlt).mp hi with ⟨rfl, rfl⟩ | ⟨-, hi'⟩
  · rcases (getElem?_set_some hlt).mp hl with ⟨rfl, rfl⟩ | ⟨-, hl'⟩
    · rfl
    · exact absurd hyz.symm (hs.absent he hP hl')
  · rcases (getElem?_set_some hlt).mp hl with ⟨rfl, rfl⟩ | ⟨-, hl'⟩
    · exact absurd hyz (hs.absent he hP hi')
    · exact hO i l y z hi' hl' hyz

/-! ## The number of slots in use -/

/-- The slots in use. -/
def load (e : List (Option α)) : ℕ := e.countP Option.isSome

theorem load_set (he : e[i]? = some none) : load (e.set i (some x)) = load e + 1 := by
  obtain ⟨hi, hei⟩ := List.getElem?_eq_some_iff.mp he
  rw [load, load, countP_set hi, hei]
  simp

theorem exists_empty (h : load e < e.length) : ∃ i : ℕ, e[i]? = some none := by
  by_contra hno
  have hall : ∀ o ∈ e, o.isSome = true := by
    intro o ho
    obtain ⟨i, hi⟩ := mem_iff_getElem?.mp ho
    cases o with
    | none => exact absurd ⟨i, hi⟩ hno
    | some x => rfl
  rw [load, countP_eq_length.mpr hall] at h
  exact lt_irrefl _ h

def elements (e : List (Option α)) : List α := e.filterMap id

theorem mem_elements : y ∈ elements e ↔ ∃ i : ℕ, e[i]? = some (some y) := by
  rw [elements, mem_filterMap]
  constructor
  · rintro ⟨o, ho, rfl⟩
    exact mem_iff_getElem?.mp ho
  · rintro ⟨i, hi⟩
    exact ⟨some y, mem_of_getElem? hi, rfl⟩

theorem mem_elements_set (he : e[i]? = some none) :
    y ∈ elements (e.set i (some x)) ↔ y = x ∨ y ∈ elements e := by
  have hlt : i < e.length := (List.getElem?_eq_some_iff.mp he).1
  rw [mem_elements, mem_elements]
  constructor
  · rintro ⟨l, hl⟩
    rcases (getElem?_set_some hlt).mp hl with ⟨-, h⟩ | ⟨-, h⟩
    · exact .inl h
    · exact .inr ⟨l, h⟩
  · rintro (rfl | ⟨l, hl⟩)
    · exact ⟨i, (getElem?_set_some hlt).mpr (.inl ⟨rfl, rfl⟩)⟩
    · exact ⟨l, getElem?_set_of_some he hl⟩

theorem length_elements (e : List (Option α)) : (elements e).length = load e := by
  rw [elements, load, length_filterMap_eq_countP]
  rfl

theorem Once.nodup : ∀ {e : List (Option α)}, Once key e → ((elements e).map key).Nodup
  | [], _ => nodup_nil
  | none :: e, h => by
    have htail : Once key e := fun i j x y hi hj hxy =>
      succ.inj (h (i + 1) (j + 1) x y hi hj hxy)
    exact htail.nodup
  | some x :: e, h => by
    have htail : Once key e := fun i j x y hi hj hxy =>
      succ.inj (h (i + 1) (j + 1) x y hi hj hxy)
    refine nodup_cons.mpr ⟨fun hx => ?_, htail.nodup⟩
    obtain ⟨y, hy, hxy⟩ := mem_map.mp hx
    obtain ⟨i, hi⟩ := mem_elements.mp hy
    exact absurd (h (i + 1) 0 y x hi rfl hxy) (succ_ne_zero i)

end Table

end Citadel.Lib.Probing
