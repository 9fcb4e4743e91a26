import Mathlib.Algebra.Order.Ring.Int
import Mathlib.Data.Multiset.Count
import Mathlib.Data.Multiset.Replicate
import Mathlib.Logic.Relation

/-!
# Semaphores

`sem_post`, `sem_trywait` and `sem_clockwait` of `src/semaphore.c`, one step for each atomic access
and each futex call. Which thread is which does not matter: the threads are a multiset of phases.

* `sem_conserves`: the tokens are conserved, and no thread sleeps while there is a token for it that
  nobody is about to fetch or to announce.
-/

namespace Citadel.Semaphore

open Multiset Relation

def SEM_VALUE_MAX : ℤ := 0x7fffffff

/-- The words of the semaphore, and how many tokens were added and taken. -/
structure Sem where
  value : ℤ
  waiters : ℕ
  posts : ℕ
  waits : ℕ

/-- What a thread does next. `load` and `cas` are those of `sem_clockwait`, or of `sem_trywait`. -/
inductive Phase where
  | idle
  | post
  | postCas (v : ℤ)
  | posted
  | waking
  | load (wait : Bool)
  | cas (wait : Bool) (v : ℤ)
  | register (v : ℤ)
  | futex (v : ℤ)
  | sleeping
  | leaving (again : Bool)

/-- The call that an idle thread makes; `fail` for a bad time, a time-out or an interruption. -/
inductive Choice where
  | post
  | trywait
  | wait
  | fail
deriving DecidableEq

@[grind] def next (s : Sem) (c : Choice) : Phase → Sem × Phase
  | .idle => (s, if c = .post then .post else .load (c ≠ .trywait))
  | .post => (s, if s.value = SEM_VALUE_MAX then .idle else .postCas s.value)
  | .postCas v =>
    if s.value = v then ({ s with value := v + 1, posts := s.posts + 1 }, .posted)
    else (s, if s.value = SEM_VALUE_MAX then .idle else .postCas s.value)
  | .posted => (s, if s.waiters ≠ 0 then .waking else .idle)
  | .waking => (s, .idle)
  | .load wait =>
    (s, if s.value > 0 then .cas wait s.value
      else if wait ∧ c ≠ .fail then .register s.value else .idle)
  | .cas wait v =>
    if s.value = v then ({ s with value := v - 1, waits := s.waits + 1 }, .idle)
    else (s, if wait then .load true else if s.value > 0 then .cas false s.value else .idle)
  | .register v => ({ s with waiters := s.waiters + 1 }, .futex v)
  | .futex v =>
    (s, if c = .fail then .leaving false else if s.value = v then .sleeping else .leaving true)
  | .sleeping => (s, .leaving (c ≠ .fail))
  | .leaving again =>
    ({ s with waiters := s.waiters - 1 }, if again then .load true else .idle)

/-- A step of one thread; the futex call of `sem_post` wakes a thread if one sleeps. -/
inductive Step : Sem × Multiset Phase → Sem × Multiset Phase → Prop
  | next {s : Sem} {p : Phase} {ps : Multiset Phase} (c : Choice)
      (h : p = .waking → .sleeping ∉ ps) :
      Step (s, p ::ₘ ps) ((next s c p).1, (next s c p).2 ::ₘ ps)
  | wake {s : Sem} {ps : Multiset Phase} :
      Step (s, .waking ::ₘ .sleeping ::ₘ ps) (s, .idle ::ₘ .leaving true ::ₘ ps)

@[grind] def Phase.registered : Phase → Bool
  | .futex _ | .sleeping | .leaving _ => true
  | _ => false

/-- The thread is about to wake another, or to look at the count again. -/
@[grind] def Phase.coming : Phase → Bool
  | .posted | .waking | .load true | .cas true _ | .leaving true => true
  | _ => false

/-- What a phase remembers of the count. -/
@[grind] def Phase.Ok : Phase → Prop
  | .cas _ v => 0 < v
  | .register v | .futex v => v ≤ 0
  | _ => True

structure Inv (init : ℕ) (s : Sem) (ps : Multiset Phase) : Prop where
  count : s.value = init + s.posts - s.waits
  nonneg : 0 ≤ s.value
  ok : ∀ p ∈ ps, p.Ok
  waiters : s.waiters = ps.countP (·.registered)
  awake : .sleeping ∈ ps → s.value ≤ ps.countP (·.coming)

variable {init : ℕ} {s : Sem} {ps : Multiset Phase}

/-- A thread moves on, and the words change with it. -/
theorem Inv.move {p p' : Phase} {s' : Sem} (h : Inv init s (p ::ₘ ps))
    (hcount : s'.value = init + s'.posts - s'.waits) (hpos : 0 ≤ s'.value) (hok : p'.Ok)
    (hreg : s'.waiters + p.registered.toNat = s.waiters + p'.registered.toNat)
    (hawake : .sleeping ∈ p' ::ₘ ps → s'.value ≤ ps.countP (·.coming) + p'.coming.toNat) :
    Inv init s' (p' ::ₘ ps) := by
  have hwait := h.waiters
  refine ⟨hcount, hpos, forall_mem_cons.mpr ⟨hok, (forall_mem_cons.mp h.ok).2⟩, ?_, fun hs => ?_⟩
  · grind [countP_cons]
  · grind [countP_cons]

theorem Inv.next {p : Phase} (h : Inv init s (p ::ₘ ps)) (c : Choice)
    (hw : p = .waking → .sleeping ∉ ps) :
    Inv init (next s c p).1 ((Semaphore.next s c p).2 ::ₘ ps) := by
  obtain ⟨hcount, hpos, hok, hwait, hawake⟩ := id h
  have hp := (forall_mem_cons.mp hok).1
  -- a thread that sleeps is registered
  have hzero : ps.countP (·.registered) = 0 → .sleeping ∉ ps := fun h hm =>
    countP_eq_zero.mp h _ hm rfl
  simp only [countP_cons, mem_cons] at hwait hawake
  cases p with
  | idle | post | futex v | sleeping =>
    exact h.move hcount hpos (by grind) (by grind) (by grind)
  | postCas v =>
    -- with a token more there is a thread more that announces it
    exact h.move (by grind) (by grind) (by grind) (by grind) (by grind)
  | posted =>
    -- without a waiter nobody sleeps
    exact h.move hcount hpos (by grind) (by grind) (by grind)
  | waking => exact h.move hcount hpos trivial rfl (by grind)
  | load wait => exact h.move hcount hpos (by grind) (by grind) (by grind)
  | cas wait v =>
    -- a token less for the sleepers, and the thread is no longer coming
    cases wait with
    | true | false => exact h.move (by grind) (by grind) (by grind) (by grind) (by grind)
  | register v => exact h.move hcount hpos hp (by grind) (by grind)
  | leaving again => exact h.move hcount hpos (by grind) (by grind) (by grind)

theorem Inv.wake (h : Inv init s (.waking ::ₘ .sleeping ::ₘ ps)) :
    Inv init s (.idle ::ₘ .leaving true ::ₘ ps) := by
  obtain ⟨hcount, hpos, hok, hwait, hawake⟩ := h
  refine ⟨hcount, hpos, by grind, ?_, fun _ => ?_⟩
  · grind [countP_cons]
  · -- the woken thread is coming in place of the one that woke it
    have := hawake (by simp)
    grind [countP_cons]

theorem Inv.of_run {n : ℕ} {r : Sem × Multiset Phase}
    (h : ReflTransGen Step (⟨init, 0, 0, 0⟩, replicate n .idle) r) : Inv init r.1 r.2 := by
  induction h with
  | refl =>
    have hidle : ∀ p ∈ replicate n Phase.idle, p = .idle := fun p => eq_of_mem_replicate
    exact ⟨by simp, by simp, by grind, by grind [countP_eq_zero], by grind⟩
  | tail _ hstep ih =>
    cases hstep with
    | next c hw => exact ih.next c hw
    | wake => exact ih.wake

/-- **Semaphores conserve tokens and lose no wake-up.** -/
theorem sem_conserves (init n : ℕ) (s : Sem) (ps : Multiset Phase)
    (h : ReflTransGen Step (⟨init, 0, 0, 0⟩, replicate n .idle) (s, ps)) :
    s.value = init + s.posts - s.waits ∧ 0 ≤ s.value ∧
      ¬(0 < s.value ∧ .sleeping ∈ ps ∧ ∀ p ∈ ps, p.coming = false) := by
  obtain ⟨hcount, hpos, -, -, hawake⟩ := Inv.of_run h
  refine ⟨hcount, hpos, fun ⟨hv, hs, hp⟩ => ?_⟩
  have hzero : ps.countP (·.coming) = 0 := countP_eq_zero.mpr (by simpa using hp)
  have hle : s.value ≤ ps.countP (·.coming) := hawake hs
  omega

/-- One thread sleeps, and another one posts and wakes it. -/
theorem sem_conserves_wakes :
    ReflTransGen Step (⟨0, 0, 0, 0⟩, replicate 2 .idle) (⟨1, 1, 1, 0⟩, {.idle, .leaving true}) ∧
      (1 : ℤ) = 0 + 1 - 0 ∧ 0 ≤ (1 : ℤ) ∧ ¬(0 < (1 : ℤ) ∧ Phase.sleeping ∈
        ({.idle, .leaving true} : Multiset Phase) ∧
          ∀ p ∈ ({.idle, .leaving true} : Multiset Phase), p.coming = false) := by
  have hsleep :
      ReflTransGen Step (⟨0, 0, 0, 0⟩, {.idle, .idle}) (⟨0, 1, 0, 0⟩, {.sleeping, .idle}) :=
    .head (.next .wait nofun) (.head (.next .wait nofun) (.head (.next .wait nofun)
      (.head (.next .wait nofun) .refl)))
  have hpost : ReflTransGen Step (⟨0, 1, 0, 0⟩, {.idle, .sleeping})
      (⟨1, 1, 1, 0⟩, {.waking, .sleeping}) :=
    .head (.next .post nofun) (.head (.next .post nofun) (.head (.next .post nofun)
      (.head (.next .post nofun) .refl)))
  have hrun := (hsleep.trans (by rw [pair_comm]; exact hpost)).tail .wake
  exact ⟨hrun, sem_conserves 0 2 _ _ hrun⟩

end Citadel.Semaphore
