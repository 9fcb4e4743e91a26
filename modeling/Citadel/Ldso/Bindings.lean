import Citadel.Ldso.Calls

/-!
# No binding dangles

An object that a relocation of `d` was bound to stays loaded as long as `d` does: it is permanent,
it was pinned, or `d` needs it, and `dlclose` keeps what an object that stays needs.

* `bindings_kept`: over every run of calls that are not made from inside one another, with fewer
  than 2³² markings.
-/

namespace Citadel.Ldso

open Citadel.Lib.Graph Citadel.Lib.Transition List

variable {s s' : State}

/-- Through a call from `s` to `s'`, an object that stays keeps the objects that it is bound to:
they are loaded afterwards, and none of them was unmapped in between. -/
def Kept (s s' : State) : Prop :=
  ∃ new, s'.log = new ++ s.log ∧ ∀ d ∈ s.list, d ∈ s'.list →
    (s'.dso d).bound = (s.dso d).bound ∧
      ∀ e ∈ (s.dso d).bound, e ∈ s'.list ∧ ∀ o, Event.unmap e o ∉ new

theorem Kept.of_subset (new : List Event) (hs : Linked s) (hlt : marks s.log < 2 ^ 32)
    (hlog : s'.log = new ++ s.log) (hnew : ∀ e ∈ s.list, ∀ o, Event.unmap e o ∉ new)
    (hlist : ∀ d ∈ s.list, d ∈ s'.list)
    (hbound : ∀ d ∈ s.list, (s'.dso d).bound = (s.dso d).bound) : Kept s s' := by
  refine ⟨new, hlog, fun d hd _ => ⟨hbound d hd, fun e he => ?_⟩⟩
  have he' := (hs.bindings hlt d hd e he).1
  exact ⟨hlist e he', hnew e he'⟩

theorem Kept.refl (hs : Idle s) (hlt : marks s.log < 2 ^ 32) : Kept s s :=
  .of_subset [] hs.linked hlt (nil_append _).symm (by simp) (fun _ h => h) fun _ _ => rfl

theorem OnlyMarks.unmap_not_mem {l l' : List Event} (h : OnlyMarks l l') :
    ∃ new, l' = new ++ l ∧ ∀ e o, Event.unmap e o ∉ new := by
  obtain ⟨n, rfl⟩ := h
  exact ⟨_, rfl, fun e o he => by cases eq_of_mem_replicate he⟩

theorem Idle.kept_dlopen (hs : Idle s) (w : World) (file : Option Name) (mode : Mode)
    (caller : Option Id) (hlt : marks s.log < 2 ^ 32) : Kept s (dlopen w file mode caller s).2 := by
  rcases dlopen_cases w file mode caller hs.wf with h1 | ⟨-, _, _, _, -, -, h1⟩ |
    ⟨h, order, s', -, h1, h2⟩
  · rw [h1]
    exact .refl hs hlt
  · obtain ⟨new, hlog, hnew⟩ := h1.events
    refine .of_subset new hs.linked hlt hlog (fun e he o ho => ?_) (fun d hd => h1.list ▸ hd)
      fun d hd => ?_
    · obtain h2 | ⟨d, o, h2, hd⟩ := hnew _ ho
      · cases h2
      · cases h2
        exact hd he
    obtain ⟨m, n, hmn⟩ := h1.old d hd
    rw [hmn]
  · rw [h2]
    obtain ⟨hlist, -, hlog⟩ := inits_rest order (commit h mode s')
    obtain ⟨new, hlog', hnew⟩ := h1.log.unmap_not_mem
    refine .of_subset ((order.map .init).reverse ++ .opened h :: new) hs.linked hlt
      ?_ (fun e _ o he => ?_) (fun d hd => ?_) fun d hd => ?_
    · change (inits order (commit h mode s')).log = _
      rw [hlog, commit_log, hlog', append_assoc, cons_append]
    · exact hnew e o (by simpa using he)
    · change d ∈ (inits order (commit h mode s')).list
      rw [hlist]
      exact h1.list.subset hd
    · obtain ⟨m, n, q, hmn⟩ := h1.old d hd
      change ((inits order (commit h mode s')).dso d).bound = _
      rw [inits_dso, commit_dso, hmn]

theorem Idle.kept_dlclose (hs : Idle s) (p : Id) (hlt : marks s.log < 2 ^ 32) :
    Kept s (dlclose p s).2 := by
  rcases hs.closes_or p with h1 | ⟨hp, hop, gone, hC⟩
  · rw [h1]
    exact .refl hs hlt
  have hI := hs.closes hp hop hC
  have hmarks := (hC.log_eq hs).1
  obtain ⟨new, hlog, hnew⟩ := hC.gone_of_unmap
  refine ⟨new, hlog, fun d hd hd' => ?_⟩
  have hbound : ((dlclose p s).2.dso d).bound = (s.dso d).bound :=
    hC.field (hC.mem_list.mp hd').2 Dso.bound fun _ _ _ _ => rfl
  refine ⟨hbound, fun e he => ?_⟩
  have he' := (hI.linked.bindings (hmarks ▸ hlt) d hd' e (hbound ▸ he)).1
  refine ⟨he', fun o ho => ?_⟩
  have hg := (hC.mem_list.mp he').2
  rw [hnew e o ho] at hg
  cases hg

theorem Idle.kept (hs : Idle s) (c : Call) (hlt : marks s.log < 2 ^ 32) : Kept s (call s c).2 := by
  cases c with
  | dlopen w file mode caller => exact hs.kept_dlopen w file mode caller hlt
  | dlclose p => exact hs.kept_dlclose p hlt
  | dlsym p n caller | atexit f => exact (Kept.refl hs hlt :)
  | pin d =>
    change Kept s (dlPin d s)
    rw [dlPin_eq]
    exact (Kept.refl hs hlt :)

theorem Idle.suffix_call (hs : Idle s) (c : Call) : s.log <:+ (call s c).2.log := by
  cases c with
  | dlopen w file mode caller =>
    change s.log <:+ (dlopen w file mode caller s).2.log
    rcases dlopen_cases w file mode caller hs.wf with h1 | ⟨-, _, _, _, -, -, h1⟩ |
    ⟨h, order, s', -, h1, h2⟩
    · rw [h1]
    · exact h1.suffix
    · rw [h2]
      change s.log <:+ (inits order (commit h mode s')).log
      rw [(inits_rest order (commit h mode s')).2.2, commit_log]
      exact h1.log.suffix.trans ((suffix_cons _ _).trans (suffix_append _ _))
  | dlclose p =>
    change s.log <:+ (dlclose p s).2.log
    rcases hs.closes_or p with h1 | ⟨-, -, gone, hC⟩
    · rw [h1]
    · obtain ⟨new, hlog, -⟩ := hC.gone_of_unmap
      rw [hlog]
      exact suffix_append _ _
  | dlsym p n caller | atexit f => exact suffix_refl _
  | pin d =>
    change s.log <:+ (dlPin d s).log
    unfold dlPin
    split_ifs <;> exact suffix_refl _

/-- **No binding dangles**: over every run of calls that are not made from inside one another, an
object that a loaded object was bound to is loaded, and it is not unmapped before the other one is.
-/
theorem bindings_kept (hs : Started s) (cs : List Call) :
    Always step (fun s _ => marks s.log < 2 ^ 32 →
      ∀ d ∈ s.list, ∀ e ∈ (s.dso d).bound, e ∈ s.list) s [] cs ∧
    Along step (fun s _ c => marks (call s c).2.log < 2 ^ 32 → Kept s (call s c).2) s [] cs := by
  have hI := idle_started hs
  have hkeep : ∀ (s : State) (h : List Answer) c s' o, Idle s → step s c = some (s', o) →
    Idle s' := by
    intro s _ c s' o hs hstep
    rw [(step_eq_some hstep).1]
    exact hs.step c
  constructor
  · refine (Always.of_invariant (P := fun s _ => Idle s) hkeep hI).mono
      fun s _ hs hlt d hd e he => ?_
    exact (hs.linked.bindings hlt d hd e he).1
  · refine Along.of_invariant (P := fun s _ => Idle s) hkeep ?_ hI
    intro s _ c hs hlt
    exact hs.kept c (lt_of_le_of_lt (marks_le_of_suffix (hs.suffix_call c)) hlt)

/-! ## A program with a plugin -/

/-- `libp` needs `libq` and refers to a function in it. -/
def pluginWorld : World where
  find n _ _ :=
    if n = [112] then some
      { path := [112], dev := 1, ino := 1
        image := .ok {
          needed := [[113]]
          rela := [{ type := .globDat, sym := some { name := [102], bind := .stbGlobal } }] } }
    else if n = [113] then some
      { path := [113], dev := 1, ino := 2, image := .ok { defs := [{ name := [102] }] } }
    else none
  room := 10

/-- A program that needs libc only. -/
def plainProgram : Program where
  appPath := [97]
  appElf := { needed := [libcName] }
  selfPath := libcName
  selfElf := {}

def plainStart : State := (start pluginWorld plainProgram).getD {}

theorem started_plainStart : Started plainStart := ⟨pluginWorld, plainProgram, rfl⟩

theorem bindings_kept_plugin :
    (((call plainStart (.dlopen pluginWorld (some [112]) {} none)).2.dso 2).bound = [3] ∧
      Started plainStart) ∧
    Always step (fun s _ => marks s.log < 2 ^ 32 →
      ∀ d ∈ s.list, ∀ e ∈ (s.dso d).bound, e ∈ s.list) plainStart []
      [.dlopen pluginWorld (some [112]) {} none, .dlclose 2] ∧
    Along step (fun s _ c => marks (call s c).2.log < 2 ^ 32 → Kept s (call s c).2) plainStart []
      [.dlopen pluginWorld (some [112]) {} none, .dlclose 2] :=
  ⟨⟨by decide, started_plainStart⟩, bindings_kept started_plainStart _⟩

end Citadel.Ldso
