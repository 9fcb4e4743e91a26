import Mathlib.Algebra.BigOperators.Group.Multiset.Basic
import Mathlib.Algebra.Order.Ring.Int
import Mathlib.Data.Multiset.Replicate
import Mathlib.Logic.Relation

/-!
# Read-write locks

`rw_try`, `rw_lock` and `pthread_rwlock_unlock` of `src/pthread_sync.c`, one step for each atomic
access and each futex call. A thread begins a call with its first access.

* `rwlock_excludes`: a writer is alone, and no thread sleeps on a free lock that nobody is
  unlocking.
-/

namespace Citadel.Rwlock

open Multiset Relation

def intMax : ℤ := 2 ^ 31 - 1

/-- The words of the lock. `seq` counts the increments of `__seq`, which is `seq % 2 ^ 32`. -/
structure Lock where
  lock : ℤ := 0
  writer : ℕ := 0
  waiting : ℕ := 0
  seq : ℕ := 0

/-- What a thread does next. `k` is the sequence number that `rw_lock` read, none in a call of the
`try` functions. -/
inductive Phase where
  | idle
  | seq (write : Bool)
  | load (write : Bool) (k : ℕ)
  | cas (write : Bool) (k : Option ℕ) (s : ℤ)
  | register (write : Bool) (k : ℕ)
  | futex (write : Bool) (k : ℕ)
  | sleeping (write : Bool) (k : ℕ)
  | leave (write : Bool)
  | store
  | sub
  | bump
  | waiters
  | wake

/-- A thread, and how often it holds the lock. -/
structure Thread where
  tid : ℕ
  reads : ℕ := 0
  writes : ℕ := 0
  phase : Phase := .idle

/-- The call that an idle thread makes; `fail` for an exchange that fails or a sleep that ends for
no reason. -/
inductive Choice where
  | lock (write : Bool)
  | trylock (write : Bool)
  | unlock
  | fail
deriving DecidableEq

@[grind] def busy (write : Bool) (s : ℤ) : Bool := if write then s ≠ 0 else s < 0 ∨ s = intMax

/-- The loop of `rw_try` once it has the value `s`. After `EBUSY` a call of `rw_lock` goes to sleep.
-/
@[grind] def attempt (write : Bool) (s : ℤ) (k : Option ℕ) : Phase :=
  if busy write s then
    match k with
    | some k => if s = intMax then .idle else .register write k
    | none => .idle
  else .cas write k s

@[grind] def next (l : Lock) (c : Choice) (t : Thread) : Lock × Thread :=
  match t.phase with
  | .idle =>
    match c with
    | .lock write =>
      (l, if write ∧ l.writer = t.tid ∧ l.lock < 0 then t
        else { t with phase := .load write l.seq })
    | .trylock write => (l, { t with phase := attempt write l.lock none })
    | .unlock =>
      if l.lock = 0 ∨ t.reads + t.writes = 0 then (l, t)
      else if l.lock < 0 then
        if l.writer ≠ t.tid then (l, t) else ({ l with writer := 0 }, { t with phase := .store })
      else (l, { t with phase := .sub })
    | .fail => (l, t)
  | .seq write => (l, { t with phase := .load write l.seq })
  | .load write k => (l, { t with phase := attempt write l.lock k })
  | .cas write k s =>
    if l.lock = s ∧ c ≠ .fail then
      if write then
        ({ l with lock := -1, writer := t.tid }, { t with phase := .idle, writes := t.writes + 1 })
      else ({ l with lock := s + 1 }, { t with phase := .idle, reads := t.reads + 1 })
    else (l, { t with phase := attempt write l.lock k })
  | .register write k => ({ l with waiting := l.waiting + 1 }, { t with phase := .futex write k })
  | .futex write k =>
    (l, { t with phase := if l.seq % 2 ^ 32 = k % 2 ^ 32 then .sleeping write k else .leave write })
  | .sleeping write _ => (l, { t with phase := .leave write })
  | .leave write => ({ l with waiting := l.waiting - 1 }, { t with phase := .seq write })
  | .store => ({ l with lock := 0 }, { t with phase := .bump, writes := t.writes - 1 })
  | .sub =>
    ({ l with lock := l.lock - 1 },
      { t with phase := if l.lock - 1 ≠ 0 then .idle else .bump, reads := t.reads - 1 })
  | .bump => ({ l with seq := l.seq + 1 }, { t with phase := .waiters })
  | .waiters => (l, { t with phase := if l.waiting ≠ 0 then .wake else .idle })
  | .wake => (l, { t with phase := .idle })

@[grind] def Phase.unlocking : Phase → Bool
  | .store | .sub | .bump | .waiters | .wake => true
  | _ => false

/-- What the futex call of an unlocker does to another thread. -/
@[grind] def awaken (t : Thread) : Thread :=
  match t.phase with
  | .sleeping write _ => { t with phase := .leave write }
  | _ => t

inductive Step : Lock × Multiset Thread → Lock × Multiset Thread → Prop
  | next {l : Lock} {t : Thread} {ts : Multiset Thread} (c : Choice) : t.phase ≠ .wake →
      Step (l, t ::ₘ ts) ((next l c t).1, (next l c t).2 ::ₘ ts)
  | wake {l : Lock} {t : Thread} {ts : Multiset Thread} : t.phase = .wake →
      Step (l, t ::ₘ ts) (l, { t with phase := .idle } ::ₘ ts.map awaken)

def readers (ts : Multiset Thread) : ℕ := (ts.map Thread.reads).sum

def writers (ts : Multiset Thread) : ℕ := (ts.map Thread.writes).sum

/-- The lock was not freed since the thread read `k`, or the sequence number is about to change. -/
@[grind] def Fresh (l : Lock) (ts : Multiset Thread) (k : ℕ) : Prop :=
  k < l.seq ∨ (k = l.seq ∧ (l.lock ≠ 0 ∨ ∃ t ∈ ts, t.phase = .bump))

/-- What a thread knows. -/
@[grind] def Thread.Ok (l : Lock) (ts : Multiset Thread) (t : Thread) : Prop :=
  match t.phase with
  | .load _ k => k ≤ l.seq
  | .cas write k s => (∀ q ∈ k, q ≤ l.seq) ∧ if write then s = 0 else 0 ≤ s
  | .register _ k | .futex _ k | .sleeping _ k => Fresh l ts k
  | .store => 0 < t.writes
  | .sub => 0 < t.reads
  | _ => True

structure Inv (l : Lock) (ts : Multiset Thread) : Prop where
  held : (l.lock = -1 ∧ writers ts = 1 ∧ readers ts = 0) ∨ (l.lock = readers ts ∧ writers ts = 0)
  ok : ∀ t ∈ ts, t.Ok l ts

variable {l : Lock} {t : Thread} {ts : Multiset Thread}

@[grind =] theorem readers_cons : readers (t ::ₘ ts) = t.reads + readers ts := by simp [readers]

@[grind =] theorem writers_cons : writers (t ::ₘ ts) = t.writes + writers ts := by simp [writers]

theorem Thread.Ok.mono {l' : Lock} {ts' : Multiset Thread} (h : t.Ok l ts) (hseq : l.seq ≤ l'.seq)
    (hf : ∀ k, Fresh l ts k → Fresh l' ts' k) : t.Ok l' ts' := by
  obtain ⟨tid, reads, writes, phase⟩ := t
  cases phase with
  | load write k => exact le_trans h hseq
  | cas write k s => exact ⟨fun q hq => (h.1 q hq).trans hseq, h.2⟩
  | register write k | futex write k | sleeping write k => exact hf k h
  | store | sub => exact h
  | _ => trivial

theorem Fresh.le {k : ℕ} (h : Fresh l ts k) : k ≤ l.seq := by grind

theorem Fresh.of_bump {k : ℕ} (hk : k ≤ l.seq) (ht : t.phase = .bump) : Fresh l (t ::ₘ ts) k := by
  rcases hk.lt_or_eq with h | h
  · exact .inl h
  · exact .inr ⟨h, .inr ⟨t, mem_cons_self t ts, ht⟩⟩

theorem attempt_ok {k : Option ℕ} (hk : ∀ q ∈ k, q ≤ l.seq) (write : Bool) :
    Thread.Ok l ts { t with phase := attempt write l.lock k } := by
  cases k with
  | none => grind
  | some k =>
    have := hk k rfl
    grind

/-- A step of one thread, as far as the others see it. -/
theorem Inv.next_fresh (h : Inv l (t ::ₘ ts)) (c : Choice) :
    l.seq ≤ (next l c t).1.seq ∧
      ∀ k, Fresh l (t ::ₘ ts) k → Fresh (next l c t).1 ((next l c t).2 ::ₘ ts) k := by
  have hheld := h.held
  have ht := h.ok t (mem_cons_self t ts)
  obtain ⟨tid, reads, writes, phase⟩ := t
  cases phase with
  | idle =>
    cases c with
    | lock write | trylock write | unlock | fail =>
      dsimp only [next]
      grind
  | cas write k s => -- a lock that is taken is not free
    dsimp only [next]
    grind
  | store => exact ⟨le_rfl, fun k hk => .of_bump hk.le rfl⟩
  | sub =>
    by_cases hl : l.lock - 1 = 0
    · exact ⟨le_rfl, fun k hk => .of_bump hk.le (by simp [next, hl])⟩
    · dsimp only [next]
      grind
  | bump => exact ⟨Nat.le_succ _, fun k hk => .inl (Nat.lt_succ_of_le hk.le)⟩
  | seq write | load write k | register write k | futex write k | sleeping write k | leave write
  | waiters | wake =>
    dsimp only [next]
    grind

theorem Inv.next (h : Inv l (t ::ₘ ts)) (c : Choice) :
    Inv (next l c t).1 ((Rwlock.next l c t).2 ::ₘ ts) := by
  obtain ⟨hseq, hfresh⟩ := h.next_fresh c
  have hok : ∀ u ∈ ts, u.Ok (Rwlock.next l c t).1 ((Rwlock.next l c t).2 ::ₘ ts) := fun u hu =>
    (h.ok u (mem_cons_of_mem hu)).mono hseq hfresh
  refine ⟨?_, forall_mem_cons.mpr ⟨?_, hok⟩⟩
  all_goals
    have hheld := h.held
    have ht := h.ok t (mem_cons_self t ts)
    obtain ⟨tid, reads, writes, phase⟩ := t
  · rw [readers_cons, writers_cons] at hheld ⊢
    cases phase with
    | idle =>
      cases c with
      | lock write | trylock write | unlock | fail =>
        dsimp only [Rwlock.next]
        grind
    | cas write k s => -- a writer found the lock free, a reader found no writer
      dsimp only [Rwlock.next]
      grind
    | store | sub => -- the thread holds the lock that it gives up
      dsimp only [Rwlock.next]
      grind
    | _ => exact hheld
  · clear hok
    cases phase with
    | idle =>
      cases c with
      | trylock write => exact attempt_ok (by simp) write
      | _ =>
        dsimp only [Rwlock.next]
        grind
    | load write k =>
      exact attempt_ok (t := ⟨tid, reads, writes, .idle⟩) (by rintro q ⟨⟩; exact ht) write
    | cas write k s =>
      dsimp only [Rwlock.next]
      split_ifs
      · trivial
      · trivial
      · exact attempt_ok (t := ⟨tid, reads, writes, .idle⟩) ht.1 write
    | register write k => exact hfresh k ht
    | seq write => exact le_rfl
    | futex write k =>
      have hf := hfresh k ht
      dsimp only [Rwlock.next] at hf ⊢
      split_ifs at hf ⊢
      · exact hf
      · trivial
    | sub | waiters =>
      dsimp only [Rwlock.next]
      grind
    | _ => trivial

theorem Inv.wake (h : Inv l (t ::ₘ ts)) (ht : t.phase = .wake) :
    Inv l ({ t with phase := .idle } ::ₘ ts.map awaken) := by
  have hr : ∀ u, (awaken u).reads = u.reads := fun u => by grind
  have hw : ∀ u, (awaken u).writes = u.writes := fun u => by grind
  have hsum : readers (ts.map awaken) = readers ts ∧ writers (ts.map awaken) = writers ts := by
    simp [readers, writers, hr, hw]
  have hbump : ∀ u ∈ ts, u.phase = .bump → u ∈ ts.map awaken := fun u hu hb =>
    mem_map.mpr ⟨u, hu, by grind⟩
  refine ⟨by have := h.held; grind, forall_mem_cons.mpr ⟨trivial, fun v hv => ?_⟩⟩
  obtain ⟨u, hu, rfl⟩ := mem_map.mp hv
  have hok : u.Ok l ({ t with phase := .idle } ::ₘ ts.map awaken) :=
    (h.ok u (mem_cons_of_mem hu)).mono le_rfl (by grind)
  unfold awaken
  split
  · trivial
  · exact hok

theorem Inv.of_run {tids : Multiset ℕ} {r : Lock × Multiset Thread}
    (h : ReflTransGen Step ({}, tids.map fun tid => { tid }) r) : Inv r.1 r.2 := by
  induction h with
  | refl => exact ⟨.inr (by simp [readers, writers]), by simp [Thread.Ok]⟩
  | tail _ hstep ih =>
    cases hstep with
    | next c _ => exact ih.next c
    | wake ht => exact ih.wake ht

/-- **Read-write locks exclude and do not strand.** -/
theorem rwlock_excludes (tids : Multiset ℕ) (l : Lock) (ts : Multiset Thread)
    (h : ReflTransGen Step ({}, tids.map fun tid => { tid }) (l, ts)) :
    (writers ts = 0 ∨ (writers ts = 1 ∧ readers ts = 0)) ∧ (l.lock = readers ts ∨ l.lock = -1) ∧
      (l.lock = -1 ↔ writers ts = 1) ∧
      (l.seq < 2 ^ 32 → l.lock = 0 → (∀ t ∈ ts, ¬t.phase.unlocking) →
        ∀ t ∈ ts, ∀ write k, t.phase = .sleeping write k → k % 2 ^ 32 ≠ l.seq % 2 ^ 32) := by
  obtain ⟨hheld, hok⟩ := Inv.of_run h
  dsimp only at hheld hok
  refine ⟨by omega, by omega, by omega, fun hseq hfree hidle t ht write k hk => ?_⟩
  have hfresh := hok t ht
  rw [Thread.Ok, hk] at hfresh
  grind

/-- While one thread reads, another one sleeps; the unlock wakes it, and it takes the lock. -/
theorem rwlock_excludes_contended :
    ReflTransGen Step ({}, ({1, 2} : Multiset ℕ).map fun tid => { tid })
      ({ lock := 1, waiting := 1 }, {⟨2, 0, 0, .sleeping true 0⟩, ⟨1, 1, 0, .idle⟩}) ∧
    ReflTransGen Step ({}, ({1, 2} : Multiset ℕ).map fun tid => { tid })
      ({ lock := -1, writer := 2, seq := 1 }, {⟨2, 0, 1, .idle⟩, ⟨1, 0, 0, .idle⟩}) ∧
    (writers {⟨2, 0, 1, .idle⟩, ⟨1, 0, 0, .idle⟩} = 0 ∨
      (writers {⟨2, 0, 1, .idle⟩, ⟨1, 0, 0, .idle⟩} = 1 ∧
        readers {⟨2, 0, 1, .idle⟩, ⟨1, 0, 0, .idle⟩} = 0)) := by
  have hread : ReflTransGen Step ({}, {⟨1, 0, 0, .idle⟩, ⟨2, 0, 0, .idle⟩})
      ({ lock := 1 }, {⟨1, 1, 0, .idle⟩, ⟨2, 0, 0, .idle⟩}) :=
    .head (.next (.lock false) nofun)
      (.head (.next .unlock nofun) (.head (.next .unlock nofun) .refl))
  have hsleep : ReflTransGen Step ({ lock := 1 }, {⟨2, 0, 0, .idle⟩, ⟨1, 1, 0, .idle⟩})
      ({ lock := 1, waiting := 1 }, {⟨2, 0, 0, .sleeping true 0⟩, ⟨1, 1, 0, .idle⟩}) :=
    .head (.next (.lock true) nofun) (.head (.next .unlock nofun) (.head (.next .unlock nofun)
      (.head (.next .unlock nofun) .refl)))
  have hunlock : ReflTransGen Step
      ({ lock := 1, waiting := 1 }, {⟨1, 1, 0, .idle⟩, ⟨2, 0, 0, .sleeping true 0⟩})
      ({ waiting := 1, seq := 1 }, {⟨1, 0, 0, .idle⟩, ⟨2, 0, 0, .leave true⟩}) :=
    .head (.next .unlock nofun) (.head (.next .unlock nofun) (.head (.next .unlock nofun)
      (.head (.next .unlock nofun) (.single (.wake rfl)))))
  have hwrite : ReflTransGen Step
      ({ waiting := 1, seq := 1 }, {⟨2, 0, 0, .leave true⟩, ⟨1, 0, 0, .idle⟩})
      ({ lock := -1, writer := 2, seq := 1 }, {⟨2, 0, 1, .idle⟩, ⟨1, 0, 0, .idle⟩}) :=
    .head (.next .unlock nofun) (.head (.next .unlock nofun) (.head (.next .unlock nofun)
      (.head (.next .unlock nofun) .refl)))
  have hturn : ∀ (l : Lock) (t u : Thread), ReflTransGen Step (l, {t, u}) (l, {u, t}) := by
    intro l t u
    rw [pair_comm]
  have h1 := (hread.trans (hturn _ _ _)).trans hsleep
  have h2 := (((h1.trans (hturn _ _ _)).trans hunlock).trans (hturn _ _ _)).trans hwrite
  exact ⟨h1, h2, (rwlock_excludes {1, 2} _ _ h2).1⟩

end Citadel.Rwlock
