import Mathlib.Logic.Function.Basic
import Mathlib.Tactic.Ring

/-!
# Barriers

`pthread_barrier_wait` of `src/pthread_sync.c`. A thread takes one step for each critical section:
it arrives, or it wakes up, for whatever reason, and looks at the cycle number again.

* `barrier_rounds`: the calls, numbered as they arrive, are released in rounds of `n`.
-/

namespace Citadel.Thread

open Function

variable {T : Type*} [DecidableEq T]

/-- A barrier and the calls on it. A call that waits has its number and the cycle it remembers. -/
structure Barrier (T : Type*) where
  count : UInt32
  cycle : UInt32
  waiting : T → Option (ℕ × UInt32)
  arrived : ℕ
  returned : List (ℕ × Bool)

def barrierInit : Barrier T := ⟨0, 0, fun _ => none, 0, []⟩

/-- The next critical section of the thread `t`. A call returns `true` for
`PTHREAD_BARRIER_SERIAL_THREAD`. -/
def barrierWait (n : UInt32) (b : Barrier T) (t : T) : Barrier T :=
  match b.waiting t with
  | none =>
    if b.count + 1 = n then
      { b with
        count := 0, cycle := b.cycle + 1
        arrived := b.arrived + 1, returned := (b.arrived, true) :: b.returned }
    else
      { b with
        count := b.count + 1, waiting := update b.waiting t (some (b.arrived, b.cycle))
        arrived := b.arrived + 1 }
  | some (k, cycle) =>
    if cycle = b.cycle then b
    else { b with waiting := update b.waiting t none, returned := (k, false) :: b.returned }

variable {n : UInt32} {b : Barrier T} {q : ℕ}

/-- `q` rounds are complete. -/
structure Rounds (n : UInt32) (b : Barrier T) (q : ℕ) : Prop where
  arrived : b.arrived = n.toNat * q + b.count.toNat
  count : b.count.toNat < n.toNat
  cycle : b.cycle = UInt32.ofNat q
  waiting : ∀ t k c, b.waiting t = some (k, c) →
    c = UInt32.ofNat (k / n.toNat) ∧ k / n.toNat ≤ q ∧ k % n.toNat + 1 ≠ n.toNat
  returned : ∀ k v, (k, v) ∈ b.returned →
    k / n.toNat < q ∧ (v = true ↔ k % n.toNat + 1 = n.toNat)
  serial : ∀ r < q, ∃ k, k / n.toNat = r ∧ (k, true) ∈ b.returned

omit [DecidableEq T] in
/-- What the call that arrives next is to its round. -/
theorem Rounds.next (h : Rounds n b q) :
    b.arrived / n.toNat = q ∧ b.arrived % n.toNat = b.count.toNat ∧
      (b.count + 1 = n ↔ b.count.toNat + 1 = n.toNat) := by
  have hcount := h.count
  have hn := n.toNat_lt
  refine ⟨?_, ?_, ?_⟩
  · rw [h.arrived, Nat.mul_add_div (by omega), Nat.div_eq_of_lt hcount, add_zero]
  · rw [h.arrived, Nat.mul_add_mod, Nat.mod_eq_of_lt hcount]
  · rw [← UInt32.toNat_inj, UInt32.toNat_add, UInt32.toNat_one, Nat.mod_eq_of_lt (by omega)]

theorem Rounds.step (h : Rounds n b q) (t : T) : ∃ q', Rounds n (barrierWait n b t) q' := by
  obtain ⟨hdiv, hmod, hlast⟩ := h.next
  obtain ⟨harr, hcount, hcycle, hwait, hret, hser⟩ := h
  unfold barrierWait
  cases ht : b.waiting t with
  | none =>
    dsimp only
    split_ifs with hn
    · rw [hlast] at hn
      refine ⟨q + 1, ?_, ?_, ?_, ?_, ?_, ?_⟩
      · simp only [UInt32.toNat_zero, mul_add_one]
        omega
      · simp only [UInt32.toNat_zero]
        omega
      · rw [hcycle]
        simp
      · intro u k c hu
        obtain ⟨hc, hle, hne⟩ := hwait u k c hu
        exact ⟨hc, Nat.le_succ_of_le hle, hne⟩
      · intro k v hk
        rcases List.mem_cons.mp hk with heq | hk
        · -- the call that completes the round
          cases heq
          exact ⟨by omega, by simp [hmod, hn]⟩
        · exact ⟨Nat.lt_succ_of_lt (hret k v hk).1, (hret k v hk).2⟩
      · intro r hr
        rcases Nat.lt_succ_iff_lt_or_eq.mp hr with hr | rfl
        · obtain ⟨k, hk, hmem⟩ := hser r hr
          exact ⟨k, hk, List.mem_cons_of_mem _ hmem⟩
        · exact ⟨b.arrived, hdiv, List.mem_cons_self⟩
    · have hadd : (b.count + 1).toNat = b.count.toNat + 1 := by
        have := n.toNat_lt
        rw [UInt32.toNat_add, UInt32.toNat_one, Nat.mod_eq_of_lt (by omega)]
      rw [hlast] at hn
      refine ⟨q, ?_, ?_, hcycle, ?_, hret, hser⟩
      · simp only [hadd]
        omega
      · simp only [hadd]
        omega
      · intro u k c hu
        dsimp only at hu
        by_cases hut : u = t
        · -- the call that arrived remembers the cycle of its round
          rw [hut, update_self] at hu
          cases hu
          exact ⟨by rw [hcycle, hdiv], hdiv.le, by rwa [hmod]⟩
        · exact hwait u k c (by rwa [update_of_ne hut] at hu)
  | some kc =>
    obtain ⟨k, c⟩ := kc
    dsimp only
    split_ifs with hc
    · exact ⟨q, harr, hcount, hcycle, hwait, hret, hser⟩
    · obtain ⟨hck, hle, hne⟩ := hwait t k c ht
      have hk : k / n.toNat ≠ q := fun e => hc (by rw [hck, hcycle, e])
      refine ⟨q, harr, hcount, hcycle, ?_, ?_, ?_⟩
      · intro u j c' hu
        dsimp only at hu
        by_cases hut : u = t
        · rw [hut, update_self] at hu
          cases hu
        · exact hwait u j c' (by rwa [update_of_ne hut] at hu)
      · intro j v hj
        rcases List.mem_cons.mp hj with heq | hj
        · -- the call of an earlier round that woke up
          cases heq
          exact ⟨by omega, by simp [hne]⟩
        · exact hret j v hj
      · intro r hr
        obtain ⟨j, hj, hmem⟩ := hser r hr
        exact ⟨j, hj, List.mem_cons_of_mem _ hmem⟩

/-- **Barriers release in rounds**: a call returns only when all `n` calls of its round have
arrived, and one call of each complete round returns `PTHREAD_BARRIER_SERIAL_THREAD`. Before the
cycle number wraps, a call of a complete round returns when it next runs. -/
theorem barrier_rounds (n : UInt32) (hn : n ≠ 0) (schedule : List T) :
    let b := schedule.foldl (barrierWait n) barrierInit
    (∀ k v, (k, v) ∈ b.returned → n.toNat * (k / n.toNat + 1) ≤ b.arrived) ∧
      (∀ r, n.toNat * (r + 1) ≤ b.arrived → ∃! k, k / n.toNat = r ∧ (k, true) ∈ b.returned) ∧
      (b.arrived < n.toNat * 2 ^ 32 → ∀ t k c, b.waiting t = some (k, c) →
        n.toNat * (k / n.toNat + 1) ≤ b.arrived → (k, false) ∈ (barrierWait n b t).returned) := by
  intro b
  have hpos : 0 < n.toNat := by
    rw [Nat.pos_iff_ne_zero]
    exact fun h => hn (UInt32.toNat_inj.mp h)
  obtain ⟨q, h⟩ : ∃ q, Rounds n b q := by
    refine List.foldlRecOn (motive := fun b => ∃ q, Rounds n b q) schedule _
      ⟨0, rfl, hpos, rfl, ?_, ?_, ?_⟩ fun b hb t _ => hb.elim fun q h => h.step t
    all_goals simp [barrierInit]
  have hround : ∀ r, n.toNat * (r + 1) ≤ b.arrived ↔ r < q := by
    intro r
    rw [← h.next.1, Nat.lt_iff_add_one_le, Nat.le_div_iff_mul_le hpos, mul_comm]
  simp only [hround]
  refine ⟨fun k v hk => (h.returned k v hk).1, ?_, ?_⟩
  · intro r hr
    obtain ⟨k, hk, hmem⟩ := h.serial r hr
    refine ⟨k, ⟨hk, hmem⟩, fun j hj => ?_⟩
    -- both are the last call of the round
    have hj' := (h.returned j true hj.2).2.mp rfl
    have hk' := (h.returned k true hmem).2.mp rfl
    rw [← Nat.div_add_mod j n.toNat, ← Nat.div_add_mod k n.toNat, hj.1, hk]
    omega
  · intro hq t k c ht hk
    obtain ⟨hc, -⟩ := h.waiting t k c ht
    have hlt : q < 2 ^ 32 := by
      rw [← h.next.1]
      exact Nat.div_lt_of_lt_mul hq
    have hne : c ≠ b.cycle := by
      rw [hc, h.cycle, Ne, ← UInt32.toNat_inj, UInt32.toNat_ofNat_of_lt' (hk.trans hlt),
        UInt32.toNat_ofNat_of_lt' hlt]
      exact hk.ne
    simp [barrierWait, ht, hne]

theorem barrier_rounds_two :
    2 * (1 / 2 + 1) ≤ ([0, 1].foldl (barrierWait 2) (barrierInit (T := ℕ))).arrived :=
  (barrier_rounds 2 (by decide) [0, 1]).1 1 true (by decide)

end Citadel.Thread
