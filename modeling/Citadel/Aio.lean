import Mathlib.Algebra.Order.Ring.Int
import Mathlib.Data.List.Basic

/-!
# Asynchronous input and output

`submit`, `worker` and `lio_listio` of `src/aio.c`, one step for each critical section, system call,
notification and store of a status outside the lock. The sequence number of a request is its place
in the list of all requests.

* `fsync_waits`: what a sync request waits for; `fsync_early`: what it does not wait for.
* `lio_notifies`: the notification of a list is delivered once, and last.
-/

namespace Citadel.Aio

open List

/-- Where a request is. From `queued` to `called` it is in the list that starts at `head`; `last`
and `freeing` are those of the worker that has to notify for the group. -/
inductive Stage where
  | queued
  | failing
  | failed
  | running
  | ready
  | called
  | last
  | freeing
  | done
deriving DecidableEq

structure Req where
  fd : ℕ
  sync : Bool
  grouped : Bool
  stage : Stage
deriving DecidableEq

/-- The element of a list: none or `LIO_NOP`, a bad opcode, or a request. -/
inductive Entry where
  | nop
  | bad
  | request (fd : ℕ)

/-- The call of `lio_listio`, with the rest of its list. -/
inductive Lio where
  | loop (rest : List Entry)
  | last
  | freeing
  | done

/-- The requests and the group: its counter, how often it was notified and whether it was freed, or
used after that. -/
structure State where
  reqs : List Req := []
  lio : Lio
  left : ℤ := 1
  notified : ℕ := 0
  freed : Bool := false
  misused : Bool := false

/-- A thread submits a request by itself, the call of `lio_listio` goes on, or a request does. What
may fail does so if `ok` is false. -/
inductive Action where
  | submit (fd : ℕ) (sync : Bool)
  | lio (ok : Bool)
  | run (i : ℕ) (ok : Bool)

@[grind] def Req.listed (r : Req) : Bool := r.stage ∈ [.queued, .running, .ready, .called]

@[grind] def State.use (s : State) (left : ℤ) : State :=
  { s with left, misused := s.misused || s.freed }

@[grind] def State.notify (s : State) : State := { s.use s.left with notified := s.notified + 1 }

@[grind] def State.free (s : State) : State := { s.use s.left with freed := true }

/-- The loop of `lio_listio` and what follows it. -/
@[grind] def State.lioNext (s : State) (ok : Bool) : State :=
  match s.lio with
  | .loop (.request fd :: rest) =>
    if ok then
      { s.use (s.left + 1) with reqs := s.reqs ++ [⟨fd, false, true, .queued⟩], lio := .loop rest }
    else { s with lio := .loop rest }
  | .loop (_ :: rest) => { s with lio := .loop rest }
  | .loop [] => { s.use (s.left - 1) with lio := if s.left - 1 = 0 then .last else .done }
  | .last => { s.notify with lio := .freeing }
  | .freeing => { s.free with lio := .done }
  | .done => s

/-- The next step of the request `r`, behind the requests `earlier`. -/
@[grind] def State.advance (s : State) (earlier : List Req) (r : Req) (ok : Bool) : State × Stage :=
  match r.stage with
  | .queued =>
    if ok then (s, .running) else (if r.grouped then s.use (s.left - 1) else s, .failing)
  | .failing => (s, .failed)
  | .running =>
    (s, if r.sync ∧ earlier.any fun p => p.listed ∧ p.fd = r.fd then .running else .ready)
  | .ready => (s, .called)
  | .called =>
    if r.grouped then (s.use (s.left - 1), if s.left - 1 = 0 then .last else .done) else (s, .done)
  | .last => (s.notify, .freeing)
  | .freeing => (s.free, .done)
  | stage => (s, stage)

def State.step (s : State) : Action → State
  | .submit fd sync => { s with reqs := s.reqs ++ [⟨fd, sync, false, .queued⟩] }
  | .lio ok =>
    -- the call is in `submit` until its request is started or has failed
    if s.reqs.any fun r => r.grouped ∧ (r.stage = .queued ∨ r.stage = .failing) then s
    else s.lioNext ok
  | .run i ok =>
    match s.reqs[i]? with
    | none => s
    | some r =>
      let (s', stage) := s.advance (s.reqs.take i) r ok
      { s' with reqs := s.reqs.set i { r with stage } }

variable {s : State} {r : Req} {l m : List Req} {i : ℕ} {ok : Bool}

/-- The request is past the wait of `worker`. -/
@[grind] def Req.passed (r : Req) : Bool := r.stage ∈ [.ready, .called, .last, .freeing, .done]

/-- What a request behind `p` is entitled to. -/
@[grind] def Awaits (p r : Req) : Prop :=
  r.sync = true → r.passed = true → p.fd = r.fd → p.listed = false

theorem step_run (s : State) (i : ℕ) (ok : Bool) : s.step (.run i ok) = s ∨
    ∃ l r m, s.reqs = l ++ r :: m ∧ s.step (.run i ok) =
      { (s.advance l r ok).1 with reqs := l ++ { r with stage := (s.advance l r ok).2 } :: m } := by
  cases hi : s.reqs[i]? with
  | none => simp [State.step, hi]
  | some r =>
    obtain ⟨hlt, rfl⟩ := List.getElem?_eq_some_iff.mp hi
    refine .inr ⟨s.reqs.take i, _, s.reqs.drop (i + 1),
      by rw [← drop_eq_getElem_cons hlt, take_append_drop], ?_⟩
    simp [State.step, set_eq_take_append_cons_drop, hlt]

theorem lioNext_reqs (s : State) (ok : Bool) : (s.lioNext ok).reqs = s.reqs ∨
    ∃ fd, (s.lioNext ok).reqs = s.reqs ++ [⟨fd, false, true, .queued⟩] := by
  unfold State.lioNext
  split
  · split_ifs
    · exact .inr ⟨_, rfl⟩
    · exact .inl rfl
  all_goals exact .inl rfl

theorem advance_awaits (s : State) (l : List Req) (r : Req) (ok : Bool) :
    (∀ p ∈ l, Awaits p r → Awaits p { r with stage := (s.advance l r ok).2 }) ∧
    ∀ q, Awaits r q → Awaits { r with stage := (s.advance l r ok).2 } q := by
  obtain ⟨fd, sync, grouped, stage⟩ := r
  cases stage with
  | running => -- past the wait, no request before it on its descriptor is listed
    grind
  | queued | failing | failed | ready | called | last | freeing | done => grind

theorem awaits_step (h : s.reqs.Pairwise Awaits) (a : Action) :
    (s.step a).reqs.Pairwise Awaits := by
  have hnew : ∀ {r : Req}, r.stage = .queued → (s.reqs ++ [r]).Pairwise Awaits := fun hr =>
    pairwise_append.mpr ⟨h, pairwise_singleton _ _, by grind⟩
  cases a with
  | submit fd sync => exact hnew rfl
  | lio ok =>
    unfold State.step
    split_ifs
    · exact h
    · rcases lioNext_reqs s ok with e | ⟨fd, e⟩ <;> rw [e]
      · exact h
      · exact hnew rfl
  | run i ok =>
    rcases step_run s i ok with e | ⟨l, r, m, hs, e⟩ <;> rw [e]
    · exact h
    · rw [hs] at h
      obtain ⟨hfront, hback⟩ := advance_awaits s l r ok
      simp only [pairwise_append, pairwise_cons, mem_cons] at h ⊢
      grind

/-- The sync request `i` waits for the request `j`. -/
def State.Waits (s : State) (i j : ℕ) : Prop :=
  j < i ∧ ∃ r p, s.reqs[i]? = some r ∧ s.reqs[j]? = some p ∧ r.sync = true ∧ r.stage = .running ∧
    p.fd = r.fd ∧ p.listed = true

/-- **A sync request waits**: past its wait, the requests on its descriptor that were queued before
it have their status, or failed to start and have left the list. No two sync requests wait for each
other. -/
theorem fsync_waits (list : List Entry) (schedule : List Action) :
    let s := schedule.foldl State.step { lio := .loop list }
    (∀ (i j : ℕ) (p r : Req), i < j → s.reqs[i]? = some p → s.reqs[j]? = some r → p.fd = r.fd →
      r.sync = true → r.passed = true → p.listed = false) ∧
    ∀ i j, ¬(s.Waits i j ∧ s.Waits j i) := by
  intro s
  have h : s.reqs.Pairwise Awaits :=
    foldlRecOn (motive := fun s : State => s.reqs.Pairwise Awaits) schedule _ Pairwise.nil
      fun s h a _ => awaits_step h a
  refine ⟨fun i j p r hij hp hr hfd hsync hpass => ?_, fun i j ⟨h1, h2⟩ => absurd h1.1 h2.1.asymm⟩
  obtain ⟨hi, rfl⟩ := List.getElem?_eq_some_iff.mp hp
  obtain ⟨hj, rfl⟩ := List.getElem?_eq_some_iff.mp hr
  exact pairwise_iff_getElem.mp h i j hi hj hij hsync hpass hfd

/-- **A request that failed to start** has no final status yet when the sync request behind it has
made its system call. -/
theorem fsync_early :
    ([.submit 3 false, .submit 3 true, .run 0 false, .run 1 true, .run 1 true, .run 1 true].foldl
      State.step { lio := .loop [] }).reqs =
      [⟨3, false, false, .failing⟩, ⟨3, true, false, .called⟩] := by
  decide

@[grind] def Lio.opened : Lio → ℕ
  | .loop _ => 1
  | _ => 0

@[grind] def Lio.notifying : Lio → ℕ
  | .last => 1
  | _ => 0

@[grind] def Lio.notified : Lio → ℕ
  | .freeing => 1
  | _ => 0

/-- The counter of the group is that of the requests in the list and of the call itself. When it is
zero, one thread has to notify or to free, or has done so. -/
structure Counted (s : State) : Prop where
  left : s.left = s.reqs.countP (fun r => r.grouped && r.listed) + s.lio.opened
  turn : s.reqs.countP (·.stage = .last) + s.lio.notifying + s.notified =
    if s.left = 0 then 1 else 0
  notified : s.notified = s.reqs.countP (·.stage = .freeing) + s.lio.notified + s.freed.toNat
  misused : s.misused = false
  starting : ∀ r ∈ s.reqs, r.grouped = true → r.stage = .queued → s.lio.opened = 1
  own : ∀ r ∈ s.reqs, r.stage = .last ∨ r.stage = .freeing → r.grouped = true

theorem Counted.lioNext (h : Counted s) (ok : Bool)
    (hidle : ∀ r ∈ s.reqs, r.grouped = true → r.stage ≠ .queued) : Counted (s.lioNext ok) := by
  obtain ⟨hleft, hturn, hnot, hmis, hstart, hown⟩ := h
  unfold State.lioNext
  cases hl : s.lio with
  | loop rest =>
    cases rest with
    | nil => -- the call gives up its part of the counter
      constructor <;> grind
    | cons e rest =>
      cases e with
      | request fd =>
        cases ok with
        | true => -- one request more in the list and in the counter
          constructor <;> grind
        | false => constructor <;> grind
      | nop | bad => constructor <;> grind
  | last => -- the counter is zero, so nobody else has notified
    constructor <;> grind
  | freeing => -- the call has notified, so nobody else has freed
    constructor <;> grind
  | done => constructor <;> grind

/-- One request goes on to another stage, and the group changes with it. -/
theorem Counted.move {s' : State} {stage : Stage} (h : Counted s) (hs : s.reqs = l ++ r :: m)
    (hlio : s'.lio = s.lio) (hmis : s'.misused = false) (hstage : stage ≠ .queued)
    (hown : stage = .last ∨ stage = .freeing → r.grouped = true)
    (hleft : s'.left + (r.grouped && r.listed).toNat =
      s.left + (r.grouped && Req.listed { r with stage }).toNat)
    (hturn : s'.notified + (stage == .last).toNat + (if s.left = 0 then 1 else 0) =
      s.notified + (r.stage == .last).toNat + if s'.left = 0 then 1 else 0)
    (hnot : s'.notified + (r.stage == .freeing).toNat + s.freed.toNat =
      s.notified + (stage == .freeing).toNat + s'.freed.toNat) :
    Counted { s' with reqs := l ++ { r with stage } :: m } := by
  obtain ⟨hleft', hturn', hnot', -, hstart', hown'⟩ := h
  rw [hs] at hleft' hturn' hnot' hstart' hown'
  simp only [countP_append, countP_cons] at hleft' hturn' hnot'
  refine ⟨?_, ?_, ?_, hmis, by grind, by grind⟩
  all_goals
    simp only [countP_append, countP_cons]
    grind

/-- As long as a request can come back to the group, the group is not freed. -/
theorem Counted.not_freed (h : Counted s) (hs : s.reqs = l ++ r :: m)
    (hr : s.left ≠ 0 ∨ r.stage = .last ∨ r.stage = .freeing) : s.freed = false := by
  obtain ⟨-, hturn, hnot, -⟩ := h
  rw [hs] at hturn hnot
  grind

theorem Counted.advance (h : Counted s) (hs : s.reqs = l ++ r :: m) (ok : Bool) :
    Counted { (s.advance l r ok).1 with
      reqs := l ++ { r with stage := (s.advance l r ok).2 } :: m } := by
  obtain ⟨hleft, -, -, hmis, hstart, hown⟩ := id h
  have hin : r ∈ s.reqs := hs ▸ mem_append_right l mem_cons_self
  have hfreed := h.not_freed hs
  specialize hstart r hin
  specialize hown r hin
  rw [hs] at hleft
  obtain ⟨fd, sync, grouped, stage⟩ := r
  cases stage with
  | queued =>
    cases ok with
    | true => exact h.move hs rfl hmis nofun nofun rfl rfl rfl
    | false =>
      cases grouped with
      | true =>
        -- the call holds the group, so the counter is not zero without this request
        have hlt : 1 < s.left := by grind
        have hf := hfreed (.inl (by omega))
        exact h.move hs rfl (by grind) nofun nofun (by grind) (by grind) rfl
      | false => exact h.move hs rfl hmis nofun nofun rfl rfl rfl
  | running =>
    dsimp only [State.advance]
    split_ifs
    all_goals exact h.move hs rfl hmis nofun nofun rfl rfl rfl
  | called =>
    cases grouped with
    | true =>
      -- the request leaves the list; the last one of the group is to notify
      have hlt : 0 < s.left := by grind
      have hf := hfreed (.inl (by omega))
      exact h.move hs rfl (by grind) (by grind) (by grind) (by grind) (by grind) (by grind)
    | false => exact h.move hs rfl hmis nofun nofun rfl rfl rfl
  | last =>
    have hf := hfreed (.inr (.inl rfl))
    exact h.move hs rfl (by grind) nofun (fun _ => hown (.inl rfl)) rfl (by grind) (by grind)
  | freeing =>
    have hf := hfreed (.inr (.inr rfl))
    exact h.move hs rfl (by grind) nofun nofun rfl rfl (by grind)
  | failing | failed | ready | done => exact h.move hs rfl hmis nofun nofun rfl rfl rfl

theorem Counted.step (h : Counted s) (a : Action) : Counted (s.step a) := by
  cases a with
  | submit fd sync =>
    obtain ⟨hleft, hturn, hnot, hmis, hstart, hown⟩ := h
    unfold State.step
    exact ⟨by grind, by grind, by grind, hmis, by grind, by grind⟩
  | lio ok =>
    unfold State.step
    split_ifs with hbusy
    · exact h
    · refine h.lioNext ok fun r hr hg hq => hbusy (any_eq_true.mpr ⟨r, hr, by simp [hg, hq]⟩)
  | run i ok =>
    rcases step_run s i ok with e | ⟨l, r, m, hs, e⟩ <;> rw [e]
    · exact h
    · exact h.advance hs ok

/-- **The notification of a list** is delivered once, after the call has submitted all of it and
every request that was started has its status. -/
theorem lio_notifies (list : List Entry) (schedule : List Action) :
    let s := schedule.foldl State.step { lio := .loop list }
    s.misused = false ∧ s.notified ≤ 1 ∧
      (s.notified = 1 → s.lio.opened = 0 ∧ ∀ r ∈ s.reqs, r.grouped = true → r.listed = false) ∧
      (s.lio = .done → (∀ r ∈ s.reqs, r.grouped = true → r.stage ∈ [.failed, .done]) →
        s.notified = 1 ∧ s.freed = true) := by
  intro s
  have h : Counted s := foldlRecOn (motive := Counted) schedule _
    ⟨rfl, rfl, rfl, rfl, by simp, by simp⟩ fun s h a _ => h.step a
  obtain ⟨hleft, hturn, hnot, hmis, -, hown⟩ := h
  refine ⟨hmis, by grind, fun hone => ?_, fun hdone hall => ?_⟩
  · have hzero : s.reqs.countP (fun r => r.grouped && r.listed) = 0 ∧ s.lio.opened = 0 := by grind
    refine ⟨hzero.2, fun r hr hg => ?_⟩
    simpa [hg] using countP_eq_zero.mp hzero.1 r hr
  · have h1 : s.reqs.countP (fun r => r.grouped && r.listed) = 0 := countP_eq_zero.mpr (by grind)
    have h2 : s.reqs.countP (·.stage = .last) = 0 := countP_eq_zero.mpr (by grind)
    have h3 : s.reqs.countP (·.stage = .freeing) = 0 := countP_eq_zero.mpr (by grind)
    grind

end Citadel.Aio
