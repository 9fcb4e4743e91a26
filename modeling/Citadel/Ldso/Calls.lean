import Citadel.Ldso.Dlclose
import Citadel.Ldso.Start
import Citadel.Lib.Transition

/-!
# Runs of calls that are not made from inside one another

* `Idle`: the invariant between two such calls. The constructors of the loaded objects have run, and
  nothing is doomed.
* `Idle.step`: every call keeps it; `idle_started`: it holds once the program has started.
-/

namespace Citadel.Ldso

open Citadel.Lib.Graph Citadel.Lib.Fallible List Option

/-! ## Calls -/

inductive Call where
  | dlopen (w : World) (file : Option Name) (mode : Mode) (caller : Option Id)
  | dlclose (p : Id)
  | dlsym (p : Handle) (n : Name) (caller : Option Id)
  | atexit (f : ExitFn)
  | pin (d : Id)

inductive Answer where
  | handle (h : Option Id)
  | status (r : ℤ)
  | symbol (r : Option (Id × Def))
  | done
deriving DecidableEq, Repr

/-- One call, with code of the objects that does not call the linker. -/
def call (s : State) : Call → Answer × State
  | .dlopen w file mode caller => (.handle (dlopen w file mode caller s).1,
      (dlopen w file mode caller s).2)
  | .dlclose p => (.status (dlclose p s).1, (dlclose p s).2)
  | .dlsym p n caller => (.symbol (dlsym p n caller s), s)
  | .atexit f => (.done, { s with exitFns := s.exitFns ++ [f] })
  | .pin d => (.done, dlPin d s)

def step (s : State) (c : Call) : Option (State × Answer) := some ((call s c).2, (call s c).1)

theorem step_eq_some {s s' : State} {c : Call} {o : Answer} (h : step s c = some (s', o)) :
    s' = (call s c).2 ∧ o = (call s c).1 :=
  ⟨(congrArg Prod.fst (some.inj h)).symm, (congrArg Prod.snd (some.inj h)).symm⟩

def inits (order : List Id) (s : State) : State := order.foldl (fun s d => runInit d s) s

/-- The start of a program up to `main`, if all of it succeeds. -/
def start (w : World) (p : Program) : Option State :=
  match dlsStart w p {} with
  | .ok order s => some (inits order s)
  | .error _ _ => none

/-- A state in which `main` is called. -/
def Started (s : State) : Prop := ∃ w p, start w p = some s

/-! ## What happened -/

/-- The objects whose constructors were started and whose destructors were not, the newest first. -/
def running : List Event → List Id
  | [] => []
  | .init d :: l => d :: running l
  | .fini d :: l => (running l).erase d
  | _ :: l => running l

/-- An event that starts constructors or destructors. -/
def Event.runs : Event → Bool
  | .init _ => true
  | .fini _ => true
  | _ => false

variable {l : List Event}

theorem running_append {m : List Event} (hm : ∀ e ∈ m, e.runs = false) :
    running (m ++ l) = running l := by
  induction m with
  | nil => rfl
  | cons e m ih =>
    have he := hm e mem_cons_self
    rw [← ih fun x hx => hm x (mem_cons_of_mem e hx), cons_append]
    cases e with
    | init d | fini d => cases he
    | _ => rfl

theorem running_onlyMarks {l' : List Event} (h : OnlyMarks l l') : running l' = running l := by
  obtain ⟨n, rfl⟩ := h
  exact running_append fun e he => by rw [eq_of_mem_replicate he]; rfl

theorem running_inits : ∀ (order : List Id) (l : List Event),
    running ((order.map Event.init).reverse ++ l) = order.reverse ++ running l
  | [], _ => rfl
  | d :: order, l => by
    rw [map_cons, reverse_cons, append_assoc, running_inits order, reverse_cons,
      append_assoc]
    rfl

theorem running_finis : ∀ (ds : List Id) (l : List Event),
    running ((ds.map Event.fini).reverse ++ l) = (running l).diff ds
  | [], _ => rfl
  | d :: ds, l => by
    rw [map_cons, reverse_cons, append_assoc, running_finis ds, diff_cons]
    rfl

/-! ## Between two calls -/

/-- The state between two calls that are not made from inside one another. -/
structure Idle (s : State) : Prop where
  wf : Wf s
  linked : Linked s
  undoomed : ∀ d ∈ s.list, (s.dso d).doomed = false
  fini_nodup : s.fini.Nodup
  mem_fini : ∀ d, d ∈ s.fini ↔ d ∈ s.list
  log : running s.log = s.fini
  permanent : (s.dso app).permanent = true ∧ (s.dso self).permanent = true
  opened : ∀ h ∈ s.list, (s.dso h).opens ≠ 0 → (s.dso h).scope ≠ none

variable {s s' : State} {h : Id}

theorem Idle.rolledBack {t : State} (hs : Idle s) (hR : RolledBack s t s') : Idle s' := by
  have hold : ∀ d ∈ s.list, ∃ m n, s'.dso d = { s.dso d with mark := m, nodelete := n } := hR.old
  refine ⟨hR.wf hs.wf, hR.linked hs.wf hs.linked, fun d hd => ?_, hR.fini ▸ hs.fini_nodup,
    fun d => ?_, ?_, ⟨?_, ?_⟩, fun d hd => ?_⟩
  · rw [hR.list] at hd
    obtain ⟨m, n, hmn⟩ := hold d hd
    rw [hmn]
    exact hs.undoomed d hd
  · rw [hR.fini, hR.list]
    exact hs.mem_fini d
  · obtain ⟨new, hlog, hnew⟩ := hR.events
    rw [hlog, running_append fun x hx => ?_, hs.log, hR.fini]
    obtain rfl | ⟨d, o, rfl, -⟩ := hnew x hx <;> rfl
  · obtain ⟨m, n, hmn⟩ := hold app hs.wf.app_mem
    rw [hmn]
    exact hs.permanent.1
  · obtain ⟨m, n, hmn⟩ := hold self hs.wf.self_mem
    rw [hmn]
    exact hs.permanent.2
  · rw [hR.list] at hd
    obtain ⟨m, n, hmn⟩ := hold d hd
    rw [hmn]
    exact hs.opened d hd

theorem Wf.congr (hs : Wf s) (hlist : s'.list = s.list)
    (hsame : ∀ d, (s'.dso d).deps = (s.dso d).deps ∧ (s'.dso d).visited = (s.dso d).visited ∧
      (s'.dso d).mark = (s.dso d).mark)
    (hclean : ∀ d, d ∉ s.list → s'.dso d = s.dso d) (hstarted : s'.started = s.started)
    (htls : s'.tls = s.tls) (hgen : s'.markGen = s.markGen) (hlog : marks s'.log = marks s.log) :
    Wf s' where
  nodup := hlist ▸ hs.nodup
  app_mem := hlist ▸ hs.app_mem
  self_mem := hlist ▸ hs.self_mem
  closed := hs.closed.congr hlist (funext fun d => by rw [State.depsOf, (hsame d).1]; rfl)
  visited d hd := (hsame d).2.1.trans (hs.visited d (hlist ▸ hd))
  clean d hd := (hclean d (hlist ▸ hd)).trans (hs.clean d (hlist ▸ hd))
  started := hstarted.trans hs.started
  laid := htls ▸ hs.laid
  marked hlt := by
    rw [hlog] at hlt ⊢
    rw [hgen]
    obtain ⟨h1, h2⟩ := hs.marked hlt
    exact ⟨h1, fun d => (hsame d).2.2 ▸ h2 d⟩

/-! ### Counting a reference, and constructors -/

theorem marks_cons {e : Event} (he : e ≠ .mark) (l : List Event) : marks (e :: l) = marks l :=
  count_cons_of_ne he

theorem marks_append {m : List Event} (hm : ∀ e ∈ m, e ≠ .mark) : marks (m ++ l) = marks l := by
  rw [marks, count_append, count_eq_zero_of_not_mem fun h => hm _ h rfl, Nat.zero_add]
  rfl

theorem commit_log (h : Id) (mode : Mode) (s : State) :
    (commit h mode s).log = .opened h :: s.log :=
  rfl

theorem Wf.commit (hs : Wf s) (hh : h ∈ s.list) (hq : ∀ d ∈ s.scopeOf h, d ∈ s.list) (mode : Mode) :
    Wf (commit h mode s) := by
  refine hs.congr rfl (fun d => ?_) (fun d hd => ?_) rfl rfl rfl
    (marks_cons (e := .opened h) nofun _)
  · rw [commit_dso]
    exact ⟨rfl, rfl, rfl⟩
  · have hdh : d ≠ h := (ne_of_mem_of_not_mem hh hd).symm
    have hdq : d ∉ s.scopeOf h := fun h' => hd (hq d h')
    rw [commit_dso, if_neg hdh, if_neg hdq, if_neg hdq, if_neg hdh]

theorem Linked.commit (hs : Linked s) (h : Id) (mode : Mode) : Linked (commit h mode s) := by
  refine hs.congr rfl (fun d => ?_) (marks_cons (e := .opened h) nofun _).ge
  rw [commit_dso]
  refine ⟨rfl, rfl, rfl, rfl, fun hn => ?_⟩
  rw [hn]
  split_ifs <;> rfl

theorem inits_dso (order : List Id) (s : State) (d : Id) : (inits order s).dso d =
    { s.dso d with inited := (s.dso d).inited || decide (d ∈ order) } := by
  rw [inits, foldl_runInit]
  by_cases hd : d ∈ order <;> simp [hd]

theorem inits_depsOf (order : List Id) (s : State) : (inits order s).depsOf = s.depsOf :=
  funext fun d => by rw [State.depsOf, inits_dso]; rfl

theorem inits_rest (order : List Id) (s : State) : (inits order s).list = s.list ∧
    (inits order s).fini = order.reverse ++ s.fini ∧
    (inits order s).log = (order.map Event.init).reverse ++ s.log := by
  rw [inits, foldl_runInit]
  exact ⟨rfl, rfl, rfl⟩

theorem linked_inits {order : List Id} (hw : Wf s) (hl : Linked s) (ho : ∀ d ∈ order, d ∈ s.list) :
    Wf (inits order s) ∧ Linked (inits order s) := by
  have hmarks : marks (inits order s).log = marks s.log := by
    rw [(inits_rest order s).2.2, marks_append (by simp)]
  have hdso := inits_dso order s
  rw [inits, foldl_runInit] at hmarks hdso ⊢
  refine ⟨hw.congr rfl (fun d => ?_) (fun d hd => if_neg fun h => hd (ho d h)) rfl rfl rfl hmarks,
    hl.congr rfl (fun d => ?_) hmarks.ge⟩
  · rw [hdso]
    exact ⟨rfl, rfl, rfl⟩
  · rw [hdso]
    exact ⟨rfl, rfl, rfl, rfl, id⟩

theorem Idle.of_inits {order : List Id} (hw : Wf s) (hl : Linked s)
    (hundoomed : ∀ d ∈ s.list, (s.dso d).doomed = false) (hrun : running s.log = s.fini)
    (hnodup : s.fini.Nodup) (hmem : ∀ d ∈ s.fini, d ∈ s.list) (ho : order.Nodup)
    (horder : ∀ d, d ∈ order ↔ d ∈ s.list ∧ d ∉ s.fini)
    (hperm : (s.dso app).permanent = true ∧ (s.dso self).permanent = true)
    (hopened : ∀ h ∈ s.list, (s.dso h).opens ≠ 0 → (s.dso h).scope ≠ none) :
    Idle (inits order s) := by
  obtain ⟨hw', hl'⟩ := linked_inits hw hl fun d hd => ((horder d).mp hd).1
  obtain ⟨hlist, hfini, hlog⟩ := inits_rest order s
  refine ⟨hw', hl', fun d hd => ?_, ?_, fun d => ?_, ?_, ?_, fun d hd => ?_⟩
  · rw [inits_dso]
    exact hundoomed d (hlist ▸ hd)
  · rw [hfini]
    refine nodup_append.mpr ⟨nodup_reverse.mpr ho, hnodup, ?_⟩
    rintro d hd e he rfl
    exact ((horder d).mp (mem_reverse.mp hd)).2 he
  · rw [hfini, hlist, mem_append, mem_reverse, horder]
    refine ⟨fun h => h.elim And.left (hmem d), fun hd => ?_⟩
    by_cases hdf : d ∈ s.fini
    · exact .inr hdf
    · exact .inl ⟨hd, hdf⟩
  · rw [hlog, running_inits, hfini, hrun]
  · rw [inits_dso, inits_dso]
    exact hperm
  · rw [inits_dso]
    exact hopened d (hlist ▸ hd)

theorem Idle.opens {order : List Id} (hs : Idle s) (mode : Mode) (hO : Opened s h order s') :
    Idle (inits order (commit h mode s')) := by
  have hold : ∀ d ∈ s.list, ∃ m n q,
      s'.dso d = { s.dso d with mark := m, nodelete := n, scope := q } := hO.old
  have hq : ∀ d ∈ s'.scopeOf h, d ∈ s'.list := by
    intro d hd
    obtain ⟨q, hq⟩ := ne_none_iff_exists'.mp hO.some
    rw [State.scopeOf, hq] at hd
    exact (hO.reaches hs.linked.reaches h hO.mem q hq d hd).closed hO.wf.closed hO.mem
  have hfini : (commit h mode s').fini = s.fini := hO.fini
  refine .of_inits (hO.wf.commit hO.mem hq mode) ((hO.linked hs.linked).commit h mode)
    (fun d hd => ?_) ?_
    (hfini ▸ hs.fini_nodup) (fun d hd => ?_) hO.order_nodup (fun d => ?_)
    ⟨?_, ?_⟩ fun d hd hd' => ?_
  · rw [commit_dso]
    by_cases hds : d ∈ s.list
    · obtain ⟨m, n, q, hmn⟩ := hold d hds
      rw [hmn]
      exact hs.undoomed d hds
    · exact (hO.new d hd hds).1.doomed
  · rw [commit_log, hfini, ← hs.log, ← running_onlyMarks hO.log]
    rfl
  · rw [hfini] at hd
    exact hO.list.subset ((hs.mem_fini d).mp hd)
  · rw [hO.mem_order, hfini, hs.mem_fini]
    rfl
  · obtain ⟨m, n, q, hmn⟩ := hold app hs.wf.app_mem
    rw [commit_dso, hmn]
    exact hs.permanent.1
  · obtain ⟨m, n, q, hmn⟩ := hold self hs.wf.self_mem
    rw [commit_dso, hmn]
    exact hs.permanent.2
  · rw [commit_dso] at hd' ⊢
    by_cases hdh : d = h
    · exact hdh ▸ hO.some
    · rw [if_neg hdh] at hd'
      by_cases hds : d ∈ s.list
      · refine hO.scope d hds (hs.opened d hds ?_)
        obtain ⟨m, n, q, hmn⟩ := hold d hds
        rw [hmn] at hd'
        exact hd'
      · exact absurd (hO.new d hd hds).1.opens hd'

/-! ### Giving a reference back -/

/-- An object is doomed at first if the last reference of one that may go is given back. -/
theorem Idle.dropped_iff {d : Id} (hs : Idle s) (hd : d ∈ s.list) :
    Dropped h s d ↔ d ∈ s.scopeOf h ∧ toInt ((s.dso d).refcnt - 1) = 0 ∧
      (s.dso d).permanent = false ∧ (s.dso d).nodelete = false ∧ (s.dso d).tlsId = 0 := by
  unfold Dropped
  rw [release_dso]
  by_cases hq : d ∈ s.scopeOf h
  · simp only [hq, if_true, unref, Bool.and_eq_true, decide_eq_true_eq, Bool.not_eq_true', true_and,
      and_assoc]
  · simp only [hq, if_false, false_and, hs.undoomed d hd]
    exact ⟨fun h => absurd h Bool.false_ne_true, False.elim⟩

theorem Idle.scopeOf_sub (hs : Idle s) (hh : h ∈ s.list) : ∀ d ∈ s.scopeOf h, d ∈ s.list := by
  intro d hd
  cases hq : (s.dso h).scope with
  | none =>
    rw [State.scopeOf, hq] at hd
    cases hd
  | some q =>
    rw [State.scopeOf, hq] at hd
    exact ((hs.linked.scopes h hh q hq).1 d hd).closed hs.wf.closed hh

theorem Idle.closes_or (hs : Idle s) (p : Id) : (dlclose p s).2 = s ∨
    p ∈ s.list ∧ (s.dso p).opens ≠ 0 ∧ ∃ gone : Id → Bool, Closes p gone s (dlclose p s).2 := by
  by_cases hp : p ∈ s.list
  · refine (dlclose_cases hs.wf.closed hs.fini_nodup hs.wf.clean (hs.scopeOf_sub hp)).imp_right ?_
    exact fun ⟨_, _, hop, _, hC⟩ => ⟨hp, hop, hC⟩
  · exact .inl (by rw [dlclose, if_neg hp])

theorem Closes.log_eq {gone : Id → Bool} (hC : Closes h gone s s') (hs : Idle s) :
    marks s'.log = marks s.log ∧ running s'.log = s'.fini := by
  obtain ⟨l, -, hlog⟩ := hC.log
  rw [hlog]
  constructor
  · rw [marks_append, marks_append, marks_append, marks_cons (e := .closed h) nofun]
    all_goals
      intro e he
      simp only [mem_reverse, List.mem_map] at he
      obtain ⟨d, -, rfl⟩ := he
      exact nofun
  · rw [running_append, running_append, running_finis]
    · change (running s.log).diff _ = _
      rw [hs.log, hC.fini, hs.fini_nodup.sdiff_eq_filter]
      refine filter_congr fun d hd => ?_
      cases hg : gone d <;> simp [hg, hd]
    all_goals
      intro e he
      simp only [mem_reverse, List.mem_map] at he
      obtain ⟨d, -, rfl⟩ := he
      rfl

theorem Idle.closes {gone : Id → Bool} (hs : Idle s) (hh : h ∈ s.list) (hop : (s.dso h).opens ≠ 0)
    (hC : Closes h gone s s') : Idle s' := by
  have hmem : ∀ d, d ∈ s'.list ↔ d ∈ s.list ∧ gone d = false := fun d => hC.mem_list
  have hgone : ∀ d, gone d = true → (s.dso d).permanent = false ∧ (s.dso d).nodelete = false := by
    intro d hd
    have := (hs.dropped_iff ((hC.gone_iff d).mp hd).1).mp (hC.dropped hd)
    exact ⟨this.2.2.1, this.2.2.2.1⟩
  have hpin : ∀ d, (s.dso d).permanent = true ∨ (s.dso d).nodelete = true → gone d = false := by
    intro d hd
    refine Bool.eq_false_iff.mpr fun hg => ?_
    rcases hd with hd | hd
    · rw [(hgone d hg).1] at hd
      cases hd
    · rw [(hgone d hg).2] at hd
      cases hd
  have happ := hpin app (.inl hs.permanent.1)
  have hself := hpin self (.inl hs.permanent.2)
  obtain ⟨hmarks, hrun⟩ := hC.log_eq hs
  refine ⟨⟨?_, (hmem app).mpr ⟨hs.wf.app_mem, happ⟩, (hmem self).mpr ⟨hs.wf.self_mem, hself⟩,
    fun d hd e he => ?_, fun d hd => ?_, fun d hd => ?_, hC.started.trans hs.wf.started,
    hC.tls ▸ hs.wf.laid, fun hlt => ?_⟩, ⟨fun x hx q hq => ?_, fun hlt d hd e he => ?_⟩,
    fun d hd => ?_, ?_, fun d => ?_, hrun, ⟨?_, ?_⟩, fun d hd hd' => ?_⟩
  · rw [hC.list]
    exact hs.wf.nodup.filter _
  · obtain ⟨hd, hg⟩ := (hmem d).mp hd
    rw [hC.depsOf_eq hg] at he
    exact (hmem e).mpr ⟨hs.wf.closed d hd e he, hC.stays hd hg (.step he)⟩
  · obtain ⟨hd, hg⟩ := (hmem d).mp hd
    exact (hC.field hg Dso.visited fun _ _ _ _ => rfl).trans (hs.wf.visited d hd)
  · cases hg : gone d with
    | true => exact hC.freed d hg
    | false =>
      have hds : d ∉ s.list := fun h' => hd ((hmem d).mpr ⟨h', hg⟩)
      have hdh : d ≠ h := (ne_of_mem_of_not_mem hh hds).symm
      have hdq : d ∉ s.scopeOf h := fun h' => hds (hs.scopeOf_sub hh d h')
      rw [hC.kept d hg, release_dso, if_neg hdh, if_neg hdq, hs.wf.clean d hds]
  · rw [hmarks] at hlt ⊢
    rw [hC.markGen]
    obtain ⟨h1, h2⟩ := hs.wf.marked hlt
    refine ⟨h1, fun d => ?_⟩
    cases hg : gone d with
    | true =>
      rw [hC.freed d hg]
      exact Nat.zero_le _
    | false => exact (hC.field hg Dso.mark fun _ _ _ _ => rfl) ▸ h2 d
  · obtain ⟨hx, hg⟩ := (hmem x).mp hx
    rw [hC.field hg Dso.scope fun _ _ _ _ => rfl] at hq
    obtain ⟨h1, h2⟩ := hs.linked.scopes x hx q hq
    refine ⟨fun d hd => (hC.reach_iff hs.wf.closed hx hg).mpr (h1 d hd), fun hlt => ?_⟩
    refine (h2 (hmarks ▸ hlt)).congr (P := fun d => d ∈ s.list ∧ gone d = false)
      (fun d hd e he => ⟨hs.wf.closed d hd.1 e he, hC.stays hd.1 hd.2 (.step he)⟩)
      (fun d hd => hC.depsOf_eq hd.2) ⟨hx, hg⟩
  · obtain ⟨hd, hg⟩ := (hmem d).mp hd
    rw [hC.field hg Dso.bound fun _ _ _ _ => rfl] at he
    obtain ⟨h1, h2⟩ := hs.linked.bindings (hmarks ▸ hlt) d hd e he
    have hge : gone e = false := by
      rcases h2 with rfl | h3 | h3 | h3
      · exact hg
      · exact hpin e (.inl h3)
      · exact hC.stays hd hg h3
      · exact hpin e (.inr h3)
    refine ⟨(hmem e).mpr ⟨h1, hge⟩, ?_⟩
    rw [hC.reach_iff hs.wf.closed hd hg, hC.field hge Dso.permanent fun _ _ _ _ => rfl,
      hC.field hge Dso.nodelete fun _ _ _ _ => rfl]
    exact h2
  · obtain ⟨hd, hg⟩ := (hmem d).mp hd
    rw [hC.kept d hg]
  · rw [hC.fini]
    exact hs.fini_nodup.filter _
  · rw [hC.fini, mem_filter, hs.mem_fini, hmem]
    simp
  · rw [hC.field happ Dso.permanent fun _ _ _ _ => rfl]
    exact hs.permanent.1
  · rw [hC.field hself Dso.permanent fun _ _ _ _ => rfl]
    exact hs.permanent.2
  · obtain ⟨hd, hg⟩ := (hmem d).mp hd
    rw [hC.field hg Dso.scope fun _ _ _ _ => rfl]
    by_cases hdh : d = h
    · exact hdh ▸ hs.opened h hh hop
    · refine hs.opened d hd fun h0 => hd' ?_
      rw [hC.kept d hg, release_dso, if_neg hdh]
      exact h0

theorem begun_of_started (hs : Started s) : ∃ order s₀, Begun order s₀ ∧ s = inits order s₀ := by
  obtain ⟨w, p, hstart⟩ := hs
  unfold start at hstart
  cases hx : dlsStart w p {} with
  | error e s₀ =>
    rw [hx] at hstart
    cases hstart
  | ok order s₀ =>
    rw [hx] at hstart
    exact ⟨order, s₀, (dlsStart_spec w p {}).ok hx, (some.inj hstart).symm⟩

/-- **The start**: the invariant holds once the program has started. -/
theorem idle_started (hs : Started s) : Idle s := by
  obtain ⟨order, s₀, hB, rfl⟩ := begun_of_started hs
  refine .of_inits hB.wf hB.linked (fun d hd => (hB.static d hd).2.2.1) ?_ ?_ (fun d hd => ?_)
    hB.order_nodup (fun d => ?_) ⟨?_, ?_⟩ fun d hd hd' => absurd (hB.static d hd).2.1 hd'
  · rw [hB.fini]
    exact running_onlyMarks hB.log
  · rw [hB.fini]
    exact nodup_nil
  · rw [hB.fini] at hd
    cases hd
  · rw [hB.mem_order, hB.fini]
    simp
  · exact (hB.static app hB.wf.app_mem).2.2.2.2.1
  · exact (hB.static self hB.wf.self_mem).2.2.2.2.1

theorem dlPin_eq (d : Id) (s : State) : dlPin d s = { s with dso := fun x =>
    { s.dso x with nodelete := decide (x = d ∧ d ∈ s.list) || (s.dso x).nodelete } } := by
  unfold dlPin
  split_ifs with h
  · unfold State.modify
    congr 1
    funext x
    by_cases hx : x = d <;> simp [hx, h]
  · simp [h]

theorem Idle.pin (hs : Idle s) (d : Id) : Idle (dlPin d s) := by
  rw [dlPin_eq]
  refine { hs with wf := { hs.wf with clean := fun x hx => ?_ }
                   linked :=
                     hs.linked.congr rfl (fun _ => ⟨rfl, rfl, rfl, rfl, fun hn => ?_⟩) le_rfl }
  · dsimp only
    have hxd : ¬(x = d ∧ d ∈ s.list) := fun h => hx (h.1 ▸ h.2)
    rw [hs.wf.clean x hx, decide_eq_false hxd]
    rfl
  · simp [hn]

theorem Idle.step (hs : Idle s) (c : Call) : Idle (call s c).2 := by
  cases c with
  | dlopen w file mode caller =>
    change Idle (dlopen w file mode caller s).2
    rcases dlopen_cases w file mode caller hs.wf with h1 | ⟨-, _, _, _, -, -, h1⟩ |
      ⟨h, order, s', -, h1, h2⟩
    · rwa [h1]
    · exact hs.rolledBack h1
    · rw [h2]
      exact hs.opens mode h1
  | dlclose p =>
    change Idle (dlclose p s).2
    rcases hs.closes_or p with h1 | ⟨hp, hop, gone, hC⟩
    · rwa [h1]
    · exact hs.closes hp hop hC
  | dlsym p n caller => exact hs
  | atexit f =>
    exact { hs with wf := { hs.wf with }, linked := { hs.linked with } }
  | pin d => exact hs.pin d

end Citadel.Ldso
