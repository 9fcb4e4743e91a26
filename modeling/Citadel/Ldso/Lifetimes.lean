import Citadel.Ldso.Counts

/-!
# Lifetimes

What holds over every run of calls that are not made from inside one another.

* `constructors_in_order`: constructors start once each, and dependencies first.
* `loaded_alive`: the objects that are started and not ended are the loaded ones, up to the exit.
* `failed_dlopen_undone`: a `dlopen` that fails unmaps what it mapped, and leaves nothing behind but
  pins and marks.
-/

namespace Citadel.Ldso

open Citadel.Lib.Graph Citadel.Lib.Transition List

variable {s s' : State} {order : List Id}

theorem always_idle (hs : Started s) (cs : List Call) :
    Always step (fun s _ => Idle s) s [] cs := by
  refine .of_invariant (fun s _ c s' o hs hstep => ?_) (idle_started hs)
  rw [(step_eq_some hstep).1]
  exact hs.step c

/-- From `s` to `s'`, the constructors of the new objects were started, once each, and nothing
ended. Unless objects need each other in a cycle, what an object needs was started before it. -/
def Constructs (s s' : State) : Prop :=
  ∃ order, s'.log.filter (·.runs) = (order.map .init).reverse ++ s.log.filter (·.runs) ∧
    order.Nodup ∧ (∀ d, d ∈ order ↔ d ∈ s'.list ∧ d ∉ s.list) ∧
    ((∀ x ∈ s'.list, ∀ y ∈ s'.depsOf x, ¬ Reach s'.depsOf y x) →
      SuccFirst s'.depsOf (· ∈ s.list) order)

theorem OnlyMarks.filter_runs {l l' : List Event} (h : OnlyMarks l l') :
    l'.filter (·.runs) = l.filter (·.runs) := by
  obtain ⟨n, rfl⟩ := h
  simp [Event.runs]

theorem Constructs.inits (hlog : s'.log.filter (·.runs) = s.log.filter (·.runs)) (hnd : order.Nodup)
    (hmem : ∀ d, d ∈ order ↔ d ∈ s'.list ∧ d ∉ s.list)
    (hfirst : (∀ x ∈ s'.list, ∀ y ∈ s'.depsOf x, ¬ Reach s'.depsOf y x) →
      SuccFirst s'.depsOf (· ∈ s.list) order) : Constructs s (inits order s') := by
  obtain ⟨hlist, -, hinits⟩ := inits_rest order s'
  refine ⟨order, ?_, hnd, hlist ▸ hmem, ?_⟩
  · rw [hinits, filter_append, hlog, filter_eq_self.mpr]
    simp [Event.runs]
  · rwa [hlist, inits_depsOf]

theorem RolledBack.filter_runs {t : State} (h : RolledBack s t s') :
    s'.log.filter (·.runs) = s.log.filter (·.runs) := by
  obtain ⟨new, hlog, hnew⟩ := h.events
  rw [hlog, filter_append, filter_eq_nil_iff.mpr fun x hx => ?_, nil_append]
  obtain rfl | ⟨d, o, rfl, -⟩ := hnew x hx <;> nofun

theorem Constructs.nothing (hlist : s'.list = s.list)
    (hlog : s'.log.filter (·.runs) = s.log.filter (·.runs)) : Constructs s s' := by
  change Constructs s (Ldso.inits [] s')
  exact .inits hlog nodup_nil (by simp [hlist]) fun _ => .nil

theorem Idle.constructs (hs : Idle s) (w : World) (file : Option Name) (mode : Mode)
    (caller : Option Id) : Constructs s (dlopen w file mode caller s).2 := by
  rcases dlopen_cases w file mode caller hs.wf with h1 | ⟨-, _, _, _, -, -, h1⟩ |
    ⟨h, order, s', -, h1, h2⟩
  · rw [h1]
    exact .nothing rfl rfl
  · exact .nothing h1.list h1.filter_runs
  · rw [h2]
    change Constructs s (inits order (commit h mode s'))
    refine .inits h1.log.filter_runs h1.order_nodup h1.mem_order ?_
    rw [commit_depsOf]
    exact fun hacyc => h1.succFirst fun x hx => hacyc x (hx.closed h1.wf.closed h1.mem)

/-- **Constructors run dependencies first**, at the start and in every `dlopen`. -/
theorem constructors_in_order (hs : Started s) (cs : List Call) : Constructs {} s ∧
    Always step (fun s _ => ∀ w file mode caller, Constructs s (dlopen w file mode caller s).2)
      s [] cs := by
  refine ⟨?_, (always_idle hs cs).mono fun s _ hs => hs.constructs⟩
  obtain ⟨order, s₀, hB, rfl⟩ := begun_of_started hs
  refine .inits hB.log.filter_runs hB.order_nodup (fun d => by simp [hB.mem_order]) fun hacyc => ?_
  intro u x v huv y hy
  exact .inr ((hB.succFirst hacyc u x v huv y hy).resolve_left id)

theorem constructors_in_order_plugin : Started plainStart ∧ Constructs {} plainStart ∧
    Always step (fun s _ => ∀ w file mode caller, Constructs s (dlopen w file mode caller s).2)
      plainStart [] [.dlopen pluginWorld (some [112]) {} none, .dlclose 2] :=
  ⟨started_plainStart, constructors_in_order started_plainStart _⟩

/-- Each loaded object is started, is not ended, and has all that it needs; the exit would end them
in the reverse order. -/
def Alive (s : State) : Prop :=
  (running s.log).Nodup ∧ (∀ d, d ∈ running s.log ↔ d ∈ s.list) ∧
    (∀ d ∈ s.list, ∀ e ∈ s.depsOf d, e ∈ s.list) ∧ app ∈ s.list ∧ self ∈ s.list ∧
    (dlFini s).log = ((running s.log).map .fini).reverse ++ s.log

theorem loaded_alive (hs : Started s) (cs : List Call) :
    Always step (fun s _ => Alive s) s [] cs := by
  refine (always_idle hs cs).mono fun s _ hs => ?_
  rw [Alive, hs.log]
  exact ⟨hs.fini_nodup, hs.mem_fini, hs.wf.closed, hs.wf.app_mem, hs.wf.self_mem, rfl⟩

theorem loaded_alive_plugin : Started plainStart ∧ Always step (fun s _ => Alive s) plainStart []
    [.dlopen pluginWorld (some [112]) {} none, .dlclose 2] :=
  ⟨started_plainStart, loaded_alive started_plainStart _⟩

/-- A failed `dlopen` is undone from the state in which it failed: nothing was started or ended, and
the new objects that had been mapped by then are unmapped, once each. -/
def FailsClean (s : State) : Prop := ∀ w file mode caller, (dlopen w file mode caller s).1 = none →
  (dlopen w file mode caller s).2 = s ∨ ∃ f e t, file = some f ∧
    openObjects w f mode.noload (callerOf s caller) s = .error e t ∧
    RolledBack s t (dlopen w file mode caller s).2

theorem failed_dlopen_undone (hs : Started s) (cs : List Call) :
    Always step (fun s _ => FailsClean s) s [] cs := by
  refine (always_idle hs cs).mono fun s _ hs w file mode caller hnone => ?_
  rcases dlopen_cases w file mode caller hs.wf with h1 | ⟨-, h1⟩ | ⟨h, order, s', hsome, -⟩
  · exact .inl h1
  · exact .inr h1
  · rw [hnone] at hsome
    cases hsome

/-- `libq` does not define what `libp` refers to. -/
def brokenWorld : World where
  find n path elf := (pluginWorld.find n path elf).map fun f =>
    { f with image := f.image.map fun e => { e with defs := [] } }
  room := 10

def Event.unmapped : Event → Option Id
  | .unmap d _ => some d
  | _ => none

theorem failed_dlopen_undone_broken : (Started plainStart ∧
    (dlopen brokenWorld (some [112]) {} none plainStart).1 = none ∧
    (dlopen brokenWorld (some [112]) {} none plainStart).2.log.filterMap Event.unmapped = [3, 2]) ∧
    Always step (fun s _ => FailsClean s) plainStart []
      [.dlopen brokenWorld (some [112]) {} none, .dlopen pluginWorld (some [112]) {} none] :=
  ⟨⟨started_plainStart, by decide, by decide⟩, failed_dlopen_undone started_plainStart _⟩

end Citadel.Ldso
