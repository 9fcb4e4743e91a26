import Citadel.Ldso.Loading

/-!
# The part of `dlopen` that can fail
-/

namespace Citadel.Ldso

open Citadel.Lib.Graph Citadel.Lib.Fallible List Option

variable {b s s' : State} {h : Id}

/-! ## What stays of the new objects -/

/-- An object that no handle has been opened for. -/
structure Plain (o : Dso) : Prop where
  refcnt : o.refcnt = 0
  opens : o.opens = 0
  doomed : o.doomed = false
  inited : o.inited = false
  permanent : o.permanent = false

/-- What no part of `dlopen` changes once the dependencies are loaded. -/
def basic (o : Dso) : Dso :=
  { deps := o.deps, refcnt := o.refcnt, opens := o.opens, doomed := o.doomed, inited := o.inited
    permanent := o.permanent, isGlobal := o.isGlobal }

theorem Plain.congr {o o' : Dso} (ho : Plain o) (h : basic o' = basic o) : Plain o' :=
  ⟨(congrArg Dso.refcnt h).trans ho.refcnt, (congrArg Dso.opens h).trans ho.opens,
    (congrArg Dso.doomed h).trans ho.doomed, (congrArg Dso.inited h).trans ho.inited,
    (congrArg Dso.permanent h).trans ho.permanent⟩

variable {e : Dso → Dso} {d : Id} {j : ℕ} {order : List Id}

theorem Grown.edits (hG : Grown b s) (hE : Edits (· ∈ b.list) e s s') : Grown b s' where
  list := hE.list ▸ hG.list
  nodup := hE.list ▸ hG.nodup
  old d hd := by
    obtain ⟨m, n, h1⟩ := hG.old d hd
    obtain ⟨m', n', h2⟩ := hE.old d hd
    exact ⟨m', n', by rw [h2, h1]⟩
  pinned d hd hn := hE.pinned d (hG.pinned d hd hn)
  clean d hd := by
    rw [hE.list] at hd
    rw [hE.clean d hd, hG.clean d hd]
  fini := hE.fini.trans hG.fini
  exitFns := hE.exitFns.trans hG.exitFns
  started := hE.started.trans hG.started
  tls := hE.tls ▸ hG.tls
  log := hG.log.trans hE.log
  marked := hE.marked hG.marked

/-- The state while the objects loaded for the new handle `h` are made ready. -/
structure Opening (b : State) (h : Id) (s : State) : Prop where
  grown : Grown b s
  closed : Closed s
  mem : h ∈ s.list
  new : h ∉ b.list
  needed : Needed b h s
  plain : ∀ d ∈ s.list, d ∉ b.list → Plain (s.dso d)

theorem Opening.edits (hO : Opening b h s) (hE : Edits (· ∈ b.list) e s s')
    (he : ∀ o, basic (e o) = basic o) : Opening b h s' := by
  have hbasic : ∀ d, basic (s'.dso d) = basic (s.dso d) := fun d => by rw [← he, hE.same d, he]
  have hdeps : s'.depsOf = s.depsOf := funext fun d =>
    congrArg (fun o => o.deps.getD []) (hbasic d)
  refine ⟨hO.grown.edits hE, hO.closed.congr hE.list hdeps, hE.list ▸ hO.mem, hO.new,
    fun d hd hdb => ?_, fun d hd hdb => ?_⟩
  · rw [hE.list] at hd
    rw [hdeps]
    exact hO.needed d hd hdb
  · rw [hE.list] at hd
    exact (hO.plain d hd hdb).congr (hbasic d)

/-! ## Bindings -/

/-- A new object is bound to objects that outlive it. -/
def Bindings (b s : State) : Prop :=
  ∀ d ∈ s.list, d ∉ b.list → ∀ e ∈ (s.dso d).bound, e ∈ s.list ∧ (marks s.log < 2 ^ 32 →
    e = d ∨ (s.dso e).permanent = true ∨ Reach s.depsOf d e ∨ (s.dso e).nodelete = true)

/-- An object that was there before is pinned only by a binding of a new one. -/
def Pins (b s : State) : Prop :=
  ∀ e ∈ b.list, (s.dso e).nodelete = true → (b.dso e).nodelete = true ∨
    ∃ d ∈ s.list, d ∉ b.list ∧ e ∈ (s.dso d).bound ∧ (s.dso e).permanent = false ∧
      (marks s.log < 2 ^ 32 → ¬ Reach s.depsOf d e)

/-- Nothing was bound yet. -/
structure Unbound (b s : State) : Prop where
  bound : ∀ d ∈ s.list, d ∉ b.list → (s.dso d).bound = []
  nodelete : ∀ d ∈ b.list, (s.dso d).nodelete = (b.dso d).nodelete

theorem Unbound.bindings (hU : Unbound b s) : Bindings b s := by
  intro d hd hdb e he
  rw [hU.bound d hd hdb] at he
  cases he

theorem Unbound.pins (hU : Unbound b s) : Pins b s := fun e he hn =>
  .inl (hU.nodelete e he ▸ hn)

theorem Unbound.edits {old : Id → Prop} (hU : Unbound b s)
    (hE : Edits old e s s') (hb : ∀ o, (e o).bound = o.bound)
    (hn : ∀ o, (e o).nodelete = o.nodelete) : Unbound b s' :=
  ⟨fun d hd hdb => (hE.field Dso.bound hb d).trans (hU.bound d (hE.list ▸ hd) hdb),
    fun d hd => (hE.field Dso.nodelete hn d).trans (hU.nodelete d hd)⟩

/-- What a failed `dlopen` leaves before it is undone. -/
structure Failed (b s : State) : Prop where
  grown : Grown b s
  bindings : Bindings b s
  pins : Pins b s

theorem Failed.edits (hF : Failed b s) (hE : Edits (· ∈ b.list) e s s')
    (he : ∀ o, (e o).deps = o.deps ∧ (e o).permanent = o.permanent ∧ (e o).bound = o.bound ∧
      (e o).nodelete = o.nodelete) : Failed b s' := by
  have hdeps : s'.depsOf = s.depsOf := hE.depsOf fun o => (he o).1
  have hperm := hE.field Dso.permanent fun o => (he o).2.1
  have hbound := hE.field Dso.bound fun o => (he o).2.2.1
  have hnd := hE.field Dso.nodelete fun o => (he o).2.2.2
  have hmarks : marks s.log ≤ marks s'.log := hE.log.le
  refine ⟨hF.grown.edits hE, fun d hd hdb x hx => ?_, fun x hx hn => ?_⟩
  · rw [hE.list] at hd ⊢
    rw [hbound] at hx
    rw [hperm, hnd, hdeps]
    exact (hF.bindings d hd hdb x hx).imp_right fun hf hlt => hf (by omega)
  · rw [hnd] at hn
    refine (hF.pins x hx hn).imp_right fun ⟨d, hd, hdb, hxd, hp, hr⟩ => ?_
    refine ⟨d, hE.list ▸ hd, hdb, hbound d ▸ hxd, (hperm x).trans hp, fun hlt => ?_⟩
    rw [hdeps]
    exact hr (by omega)

theorem Failed.relocated (hF : Failed b s) (hd : d ∈ s.list) (hdb : d ∉ b.list)
    (hR : Relocated (· ∈ b.list) d s s') : Failed b s' := by
  have hdeps : s'.depsOf = s.depsOf := hR.edits.depsOf fun _ => rfl
  have hperm := hR.edits.field Dso.permanent fun _ => rfl
  have hmarks := hR.marks
  have hmono : ∀ x, ∀ e ∈ (s.dso x).bound, e ∈ (s'.dso x).bound := by
    intro x e he
    by_cases hx : x = d
    · exact hx ▸ hR.mono e (hx ▸ he)
    · rwa [hR.other x hx]
  -- the bindings that were there
  have hold : ∀ x ∈ s.list, x ∉ b.list → ∀ e ∈ (s.dso x).bound, e ∈ s.list ∧
      (marks s'.log < 2 ^ 32 → e = x ∨ (s.dso e).permanent = true ∨ Reach s.depsOf x e ∨
        (s'.dso e).nodelete = true) := by
    intro x hx hxb e he
    refine (hF.bindings x hx hxb e he).imp_right fun hf hlt => ?_
    exact (hf (by omega)).imp_right fun h1 => h1.imp_right fun h2 =>
      h2.imp_right (hR.edits.pinned e)
  refine ⟨hF.grown.edits hR.edits, fun x hx hxb e he => ?_, fun e he hn => ?_⟩
  · rw [hR.edits.list] at hx ⊢
    rw [hperm, hdeps]
    by_cases hxd : x = d
    · subst hxd
      rcases hR.bound e he with he | he
      · exact hold x hx hxb e he
      · exact he
    · rw [hR.other x hxd] at he
      exact hold x hx hxb e he
  · rw [hR.edits.list, hperm, hdeps]
    rcases hR.pins e hn with hn | ⟨h1, -, h3, h4⟩
    · refine (hF.pins e he hn).imp_right fun ⟨x, hx, hxb, hex, hp, hr⟩ => ?_
      exact ⟨x, hx, hxb, hmono x e hex, hp, fun hlt => hr (by omega)⟩
    · exact .inr ⟨d, hd, hdb, h1, h3, h4⟩

/-! ## The new objects -/

theorem Loads.opening (hb : Wf b) (hL : Loads b j s) (hj : s.list.length ≤ j)
    (hN : Needed b h s) (hh : h ∈ s.list) (hhb : h ∉ b.list) : Opening b h s := by
  refine ⟨hL.grown hb, fun d hd e he => ?_, hh, hhb, hN, fun d hd hdb => ?_⟩
  · by_cases hdb : d ∈ b.list
    · have hde : s.depsOf d = b.depsOf d := by rw [State.depsOf, hL.old d hdb]; rfl
      exact hL.list.subset (hb.closed d hdb e (hde ▸ he))
    · exact (hL.done d (by rwa [take_of_length_le hj]) hdb).2 e he
  · obtain ⟨n, ds, ⟨p, nm, dv, i, e, m, nd, rfl⟩, hd'⟩ := hL.new d (.inl hd) hdb
    rw [hd']
    exact ⟨rfl, rfl, rfl, rfl, rfl⟩

theorem Loads.unbound (hL : Loads b j s) : Unbound b s := by
  refine ⟨fun d hd hdb => ?_, fun d hd => by rw [hL.old d hd]⟩
  obtain ⟨n, ds, ⟨p, nm, dv, i, e, m, nd, rfl⟩, hd'⟩ := hL.new d (.inl hd) hdb
  rw [hd']

/-- The handle `h` and the new objects are ready; `order` is the order of their constructors. -/
structure Ready (b : State) (h : Id) (order : List Id) (s : State) : Prop where
  opening : Opening b h s
  failed : Failed b s
  laid : Laid s.tls
  visited : ∀ d ∈ s.list, (s.dso d).visited = true
  scope : ∃ q, (s.dso h).scope = some q ∧ (∀ d ∈ q, Reach s.depsOf h d) ∧
    (marks s.log < 2 ^ 32 → BreadthFirst s.depsOf h q)
  noScope : ∀ d ∈ s.list, d ∉ b.list → d ≠ h → (s.dso d).scope = none
  order_nodup : order.Nodup
  mem_order : ∀ d, d ∈ order ↔ d ∈ s.list ∧ d ∉ b.list
  succFirst : (∀ x, Reach s.depsOf h x → ∀ y ∈ s.depsOf x, ¬ Reach s.depsOf y x) →
    SuccFirst s.depsOf (· ∈ b.list) order

/-- All of a record but the closure it is searched in. -/
def exceptLscope (o : Dso) : Dso := { o with lscope := [] }

theorem finishObject_spec (w : World) {t : State} (ht : Edits (· ∈ b.list) exceptLscope s t)
    (hd : d ∈ s.list) (hdb : d ∉ b.list) :
    Ends (finishObject w d) t (fun _ t' => Edits (· ∈ b.list) exceptLscope s t')
      fun t' => Edits (· ∈ b.list) exceptLscope s t' := by
  unfold finishObject protectRelro
  refine .bind (.get_bind (.ite (fun _ => .throw ht) fun _ => .pure ?_))
  exact .update (ht.trans (.modify (ht.list ▸ hd) rfl (fun ho => absurd ho hdb)
    (fun hn => hn) (.inl rfl)))

theorem Grown.mem_drop (hG : Grown b s) :
    d ∈ s.list.drop b.list.length ↔ d ∈ s.list ∧ d ∉ b.list := by
  obtain ⟨r, hr⟩ := hG.list
  have hnd := hG.nodup
  rw [← hr] at hnd ⊢
  have hdisj := (nodup_append.mp hnd).2.2
  rw [drop_left, mem_append]
  refine ⟨fun hd => ⟨.inr hd, fun hb => hdisj d hb d hd rfl⟩, fun ⟨h1, h2⟩ => ?_⟩
  exact h1.resolve_left h2

theorem Opening.setTls (hO : Opening b h s) {t : Tls} (ht : TlsGrows b.tls t) :
    Opening b h { s with tls := t } :=
  { hO with grown := { hO.grown with tls := ht } }

theorem Opening.failed (hO : Opening b h s) (hU : Unbound b s) : Failed b s :=
  ⟨hO.grown, hU.bindings, hU.pins⟩

/-- The new objects before they are ordered. -/
structure Prepared (b : State) (h : Id) (s : State) : Prop where
  opening : Opening b h s
  unbound : Unbound b s
  laid : Laid s.tls
  scope : ∃ q, (s.dso h).scope = some q ∧ (∀ d ∈ q, Reach s.depsOf h d) ∧
    (marks s.log < 2 ^ 32 → BreadthFirst s.depsOf h q)
  noScope : ∀ d ∈ s.list, d ∉ b.list → d ≠ h → (s.dso d).scope = none
  unvisited : ∀ d ∈ s.list, d ∉ b.list → (s.dso d).visited = false
  lscope : ∀ d ∈ s.list, d ∉ b.list → ∀ e ∈ (s.dso d).lscope, e ∈ s.list

theorem prepared_scan (hb : Wf b) (hL : Loads b j s) (hO : Opening b h s) :
    Prepared b h (setLscope b.list.length h (scan h (nextGen s))) := by
  obtain ⟨hE, hlog, hne, q, hq, hqsub, hbf⟩ := scan_spec (· ∈ b.list) (s := nextGen s)
    hO.closed hO.mem hO.new
  obtain ⟨s₁, hs₁⟩ : ∃ s₁, s₁ = scan h (nextGen s) := ⟨_, rfl⟩
  rw [← hs₁] at hE hlog hne hq ⊢
  have hE₁ : Edits (· ∈ b.list) exceptScope s s₁ := (Edits.nextGen s).trans hE
  have hO₁ : Opening b h s₁ := hO.edits hE₁ fun _ => rfl
  have hE₂ : Edits (· ∈ b.list) exceptLscope s₁ (setLscope b.list.length h s₁) :=
    .modifyAll (fun d hd => hO₁.grown.mem_drop.mp hd) (fun _ => rfl) (fun _ hn => hn)
      fun _ => rfl
  have hlist : (setLscope b.list.length h s₁).list = s.list := hE₂.list.trans hE₁.list
  have hdeps : (setLscope b.list.length h s₁).depsOf = s.depsOf :=
    (hE₂.depsOf fun _ => rfl).trans (hE₁.depsOf fun _ => rfl)
  have hscope := hE₂.field Dso.scope fun _ => rfl
  have hnew : ∀ d ∈ s.list, d ∉ b.list →
      (s.dso d).scope = none ∧ (s.dso d).visited = false := by
    intro d hd hdb
    obtain ⟨n, ds, ⟨p, nm, dv, i, e, m, nd, rfl⟩, hd'⟩ := hL.new d (.inl hd) hdb
    rw [hd']
    exact ⟨rfl, rfl⟩
  refine ⟨hO₁.edits hE₂ fun _ => rfl, ?_, ?_,
    ⟨q, (hscope h).trans hq, fun d hd => ?_, fun hlt => ?_⟩, fun d hd hdb hdh => ?_,
    fun d hd hdb => ?_, fun d hd hdb e he => ?_⟩
  · exact (hL.unbound.edits hE₁ (fun _ => rfl) fun _ => rfl).edits hE₂ (fun _ => rfl) fun _ => rfl
  · rw [hE₂.tls, hE₁.tls, hL.rest.tls]
    exact hb.laid
  · rw [hdeps]
    exact hqsub d hd
  · have hlt' : marks (nextGen s).log < 2 ^ 32 := hlog ▸ hlt
    rw [hdeps]
    exact hbf hL.nodup (mark_ne_nextGen hO.grown.marked hlt')
  · rw [hlist] at hd
    rw [hscope, hne d hdh]
    exact (hnew d hd hdb).1
  · rw [hlist] at hd
    rw [hE₂.field Dso.visited (fun _ => rfl), hE₁.field Dso.visited fun _ => rfl]
    exact (hnew d hd hdb).2
  · have hmem : d ∈ s₁.list.drop b.list.length := by
      rw [hO₁.grown.mem_drop, hE₁.list]
      exact ⟨hlist ▸ hd, hdb⟩
    rw [setLscope, State.modifyAll_dso, if_pos hmem] at he
    rw [hlist]
    refine (hqsub e ?_).closed hO.closed hO.mem
    change e ∈ s₁.scopeOf h at he
    rw [State.scopeOf, hq] at he
    exact he

theorem Prepared.tls (hP : Prepared b h s) (hst : s.tls = b.tls)
    (hT : TlsEdits (· ∈ b.list) s s') (hlaid : Laid s'.tls) : Prepared b h s' := by
  have hE := hT.edits
  have hdeps : s'.depsOf = s.depsOf := hE.depsOf fun _ => rfl
  have hlist : s'.list = s.list := hE.list
  have hscope := hE.field Dso.scope fun _ => rfl
  obtain ⟨q, hq, hqsub, hbf⟩ := hP.scope
  refine ⟨(hP.opening.setTls (hst ▸ hT.grows)).edits hE fun _ => rfl, ?_, hlaid,
    ⟨q, (hscope h).trans hq, hdeps ▸ hqsub, fun hlt => ?_⟩, fun d hd hdb hdh => ?_,
    fun d hd hdb => ?_, fun d hd hdb => ?_⟩
  · have hU : Unbound b { s with tls := s'.tls } := ⟨hP.unbound.bound, hP.unbound.nodelete⟩
    exact hU.edits hE (fun _ => rfl) fun _ => rfl
  · rw [hdeps]
    exact hbf (lt_of_le_of_lt (hE.log.le) hlt)
  · exact (hscope d).trans (hP.noScope d (hlist ▸ hd) hdb hdh)
  · exact (hE.field Dso.visited (fun _ => rfl) d).trans (hP.unvisited d (hlist ▸ hd) hdb)
  · rw [hE.field Dso.lscope fun _ => rfl, hlist]
    exact hP.lscope d (hlist ▸ hd) hdb

theorem Prepared.ordered (hb : Wf b) (hP : Prepared b h s) :
    Ordered (· ∈ b.list) h s [] (orderInit h (s, [])) := by
  have hG := hP.opening.grown
  have hold : ∀ d ∈ b.list, (s.dso d).visited = true := by
    intro d hd
    obtain ⟨m, n, hmn⟩ := hG.old d hd
    rw [hmn]
    exact hb.visited d hd
  refine orderInit_spec hP.opening.closed (fun d hd hv e he => ?_) hP.opening.mem hold []
  have hdb : d ∈ b.list := by
    by_contra hdb
    rw [hP.unvisited d hd hdb] at hv
    cases hv
  exact hold e (hb.closed d hdb e (hG.depsOf hdb ▸ he))

theorem Ordered.ready (hb : Wf b) (hP : Prepared b h s)
    (hc : Ordered (· ∈ b.list) h s [] (s', order)) : Ready b h order s' := by
  have hE : Edits (· ∈ b.list) exceptVisited s s' := hc.edits
  have hO : Opening b h s' := hP.opening.edits hE fun _ => rfl
  have hlist : s'.list = s.list := hE.list
  have hdeps : s'.depsOf = s.depsOf := hE.depsOf fun _ => rfl
  have hscope := hE.field Dso.scope fun _ => rfl
  obtain ⟨new, hnew, hnd, hun, hiff, hsf⟩ := hc.out
  obtain rfl : order = new := hnew
  obtain ⟨q, hq, hqsub, hbf⟩ := hP.scope
  have hvis : ∀ d ∈ s'.list, (s'.dso d).visited = true := by
    intro d hd
    by_cases hdb : d ∈ b.list
    · obtain ⟨m, n, hmn⟩ := hO.grown.old d hdb
      rw [hmn]
      exact hb.visited d hdb
    · refine ((hO.needed d hd hdb).closed
        (P := fun x => x ∈ s'.list ∧ (s'.dso x).visited = true) ?_ ⟨hO.mem, hc.visited⟩).2
      exact fun x hx y hy => ⟨hO.closed x hx.1 y hy, hc.closed x hx.1 hx.2 y hy⟩
  have hold : ∀ d ∈ s.list, (s.dso d).visited = true → d ∈ b.list := by
    intro d hd hv
    by_contra hdb
    rw [hP.unvisited d hd hdb] at hv
    cases hv
  refine ⟨hO, (hO.failed (hP.unbound.edits hE (fun _ => rfl) fun _ => rfl)), hE.tls ▸ hP.laid, hvis,
    ⟨q, (hscope h).trans hq, hdeps ▸ hqsub, fun hlt => ?_⟩, fun d hd hdb hdh => ?_, hnd,
    fun d => ?_,
    fun hacyc => ?_⟩
  · rw [hdeps]
    exact hbf (lt_of_le_of_lt (hE.log.le) hlt)
  · exact (hscope d).trans (hP.noScope d (hlist ▸ hd) hdb hdh)
  · constructor
    · intro hd
      obtain ⟨h1, h2⟩ := hun d hd
      refine ⟨hlist ▸ h1, fun hdb => ?_⟩
      obtain ⟨m, n, hmn⟩ := hP.opening.grown.old d hdb
      rw [hmn] at h2
      exact Bool.false_ne_true (h2.symm.trans (hb.visited d hdb))
    · rintro ⟨hd, hdb⟩
      refine ((hiff d).mp (hvis d hd)).resolve_left fun hv => ?_
      exact hdb (hold d (hlist ▸ hd) hv)
  · rw [hdeps] at hacyc ⊢
    intro u x v huv y hy
    have hx : x ∈ s.list := (hun x (huv ▸ mem_append_right u mem_cons_self)).1
    exact (hsf hacyc u x v huv y hy).imp_left (hold y (hP.opening.closed x hx y hy))

theorem Ready.edits (hR : Ready b h order s)
    (hE : Edits (· ∈ b.list) e s s') (hF : Failed b s') (hb : ∀ o, basic (e o) = basic o)
    (hs : ∀ o, (e o).scope = o.scope) (hv : ∀ o, (e o).visited = o.visited) :
    Ready b h order s' := by
  have hO := hR.opening.edits hE hb
  have hdeps : s'.depsOf = s.depsOf := hE.depsOf fun o => (congrArg Dso.deps (hb o) :)
  obtain ⟨q, hq, hqsub, hbf⟩ := hR.scope
  refine ⟨hO, hF, hE.tls ▸ hR.laid, fun d hd => ?_, ⟨q, (hE.field Dso.scope hs h).trans hq,
    hdeps ▸ hqsub, fun hlt => ?_⟩, fun d hd hdb hdh => ?_, hR.order_nodup, fun d => ?_, ?_⟩
  · exact (hE.field Dso.visited hv d).trans (hR.visited d (hE.list ▸ hd))
  · rw [hdeps]
    exact hbf (lt_of_le_of_lt (hE.log.le) hlt)
  · exact (hE.field Dso.scope hs d).trans (hR.noScope d (hE.list ▸ hd) hdb hdh)
  · rw [hE.list]
    exact hR.mem_order d
  · rw [hdeps]
    exact hR.succFirst

theorem finish_spec (w : World) (hR : Ready b h order s)
    (hls : ∀ d ∈ s.list, d ∉ b.list → ∀ e ∈ (s.dso d).lscope, e ∈ s.list) : Ends (do
        order.forM relocate
        ((← get).list.drop b.list.length).forM (finishObject w)
        pure order) s (fun order s' => Ready b h order s') (Failed b) := by
  refine Ends.bind ((Ends.forM (E := Failed b)
    (I := fun t => Edits (· ∈ b.list) exceptReloc s t ∧ Failed b t) order
    ⟨Edits.refl s, hR.failed⟩ ?_).mono ?_ fun _ h => h)
  · rintro d hd t ⟨hE, hF⟩
    obtain ⟨hdl, hdb⟩ := (hR.mem_order d).mp hd
    have hdt : d ∈ t.list := hE.list ▸ hdl
    have hO := hR.opening.edits hE fun _ => rfl
    refine (relocate_spec hO.closed hO.grown.marked hdt hdb fun e he => ?_).mono
      (fun _ t' hRt => ⟨hE.trans hRt.edits, hF.relocated hdt hdb hRt⟩)
      fun t' hRt => hF.relocated hdt hdb hRt
    rw [hE.field Dso.lscope fun _ => rfl] at he
    exact hE.list ▸ hls d hdl hdb e he
  · rintro _ t ⟨hE, hF⟩
    have hRt : Ready b h order t := hR.edits hE hF (fun _ => rfl) (fun _ => rfl) fun _ => rfl
    refine Ends.get_bind (Ends.bind ((Ends.forM (E := Edits (· ∈ b.list) exceptLscope t)
      (I := Edits (· ∈ b.list) exceptLscope t) _ (Edits.refl t) fun d hd t' ht' => ?_).mono ?_ ?_))
    · obtain ⟨hdt, hdb⟩ := hRt.opening.grown.mem_drop.mp hd
      exact finishObject_spec w ht' hdt hdb
    · intro _ t' ht'
      exact Ends.pure (hRt.edits ht' (hF.edits ht' fun _ => ⟨rfl, rfl, rfl, rfl⟩) (fun _ => rfl)
        (fun _ => rfl) fun _ => rfl)
    · exact fun t' ht' => hF.edits ht' fun _ => ⟨rfl, rfl, rfl, rfl⟩

theorem Loads.failed (hb : Wf b) (hL : Loads b j s) : Failed b s :=
  ⟨hL.grown hb, hL.unbound.bindings, hL.unbound.pins⟩

theorem openNew_spec (w : World) (hb : Wf b) (hL : Loads b b.list.length s) (hN : Needed b h s)
    (hh : h ∈ s.list) (hhb : h ∉ b.list) :
    Ends (openNew w b.list.length h) s (fun order s' => Ready b h order s') (Failed b) := by
  unfold openNew
  refine .bind ((loadDeps_spec w hb hL hL.list.length_le hN w.room).mono ?_ ?_)
  swap
  · rintro s₀ ⟨j, hL₀⟩
    exact hL₀.failed hb
  rintro _ s₀ ⟨hpre, hN₀, j, hL₀, hj⟩
  have hO₀ : Opening b h s₀ := hL₀.opening hb hj hN₀ (hpre.subset hh) hhb
  have hnone : (s₀.dso h).scope = none := by
    obtain ⟨n, ds, ⟨p, nm, dv, i, e, m, nd, rfl⟩, hd'⟩ := hL₀.new h (.inl hO₀.mem) hhb
    rw [hd']
  refine .bind ((makeScope_spec w hnone).mono ?_ ?_)
  swap
  · rintro s₁ rfl
    exact hL₀.failed hb
  rintro _ s₁ rfl
  have hP := prepared_scan hb hL₀ hO₀
  refine .bind (.update (.get_bind ?_))
  have htls : (setLscope b.list.length h (scan h (nextGen s₀))).tls = b.tls := by
    obtain ⟨hE, -⟩ := scan_spec (· ∈ b.list) (s := nextGen s₀) hO₀.closed hO₀.mem hO₀.new
    exact hE.tls.trans hL₀.rest.tls
  generalize setLscope b.list.length h (scan h (nextGen s₀)) = s₂ at hP htls ⊢
  refine .bind ((assignTls_spec (· ∈ b.list) hP.laid (fun d hd =>
    (hP.opening.grown.mem_drop.mp hd).2) _).mono ?_ ?_)
  swap
  · intro s₃ hT
    have hO₃ := (hP.opening.setTls (htls ▸ hT.grows)).edits hT.edits fun _ => rfl
    have hU : Unbound b { s₂ with tls := s₃.tls } := ⟨hP.unbound.bound, hP.unbound.nodelete⟩
    exact hO₃.failed (hU.edits hT.edits (fun _ => rfl) fun _ => rfl)
  rintro _ s₃ ⟨hT, hlaid, -⟩
  have hP₃ := hP.tls htls hT hlaid
  refine .ite (fun _ => .throw (hP₃.opening.failed hP₃.unbound)) fun _ => .get_bind ?_
  have hc := hP₃.ordered hb
  have hR := hc.ready hb hP₃
  have hls : ∀ d ∈ (orderInit h (s₃, [])).1.list, d ∉ b.list →
      ∀ e ∈ ((orderInit h (s₃, [])).1.dso d).lscope, e ∈ (orderInit h (s₃, [])).1.list := by
    intro d hd hdb
    rw [hc.edits.field Dso.lscope fun _ => rfl, hc.edits.list]
    exact hP₃.lscope d (hc.edits.list ▸ hd) hdb
  exact .set_bind (finish_spec w hR hls)

/-! ## `open_objects` -/

theorem openFile_spec (w : World) (file : Name) (noload : Bool) (caller : Id) (hb : Wf b) :
    Ends (openFile w file noload caller) b
      (fun h s => (s = b ∧ h ∈ b.list) ∨
        ∃ o, IsNew true o ∧ h = fresh b.list ∧ s = append (fresh b.list) o b)
      fun s => s = b ∨ ∃ o, IsNew true o ∧ s = append (fresh b.list) o b := by
  unfold openFile
  refine .ite (fun _ => .get_bind ?_) fun _ => ?_
  · cases hf : findLoaded b file with
    | none => exact .throw (.inl rfl)
    | some h =>
      refine .pure (.inl ⟨rfl, ?_⟩)
      unfold findLoaded at hf
      split_ifs at hf
      · exact some.inj hf ▸ hb.self_mem
      · exact mem_of_find?_eq_some hf
  · refine (loadLibrary_spec w file caller true b).mono
      (fun e s' ha => ha.cases hb.self_mem hb.started) ?_
    rintro s' (rfl | ⟨e, ha⟩)
    · exact .inl rfl
    · rcases ha.cases hb.self_mem hb.started with ⟨rfl, -⟩ | ⟨o, ho, -, rfl⟩
      · exact .inl rfl
      · exact .inr ⟨o, ho, rfl⟩

theorem Loads.refl (hb : Wf b) : Loads b b.list.length b := by
  refine ⟨⟨rfl, rfl, rfl, rfl, rfl, rfl⟩, prefix_refl _, hb.nodup, fun _ _ => rfl,
    fun d hd _ => hb.clean d hd, le_refl _, fun d hd hdb => absurd (hd.resolve_right id) hdb,
    fun o f h => h.setDeps f, fun d hd hdb => ?_, fun d hd => ?_⟩
  · exact absurd (mem_of_mem_take hd) hdb
  · rw [take_length] at hd
    rw [hb.clean d hd]

/-- The handle was there before, with its closure or without. -/
structure Reopened (b : State) (h : Id) (s : State) : Prop where
  mem : h ∈ b.list
  eq : s = b ∨ ((b.dso h).scope = none ∧ s = scan h (nextGen b))
  some : (s.dso h).scope ≠ none

theorem openObjects_spec (w : World) (file : Name) (noload : Bool) (caller : Id) (hb : Wf b) :
    Ends (openObjects w file noload caller) b
      (fun r s => (r.2 = [] ∧ Reopened b r.1 s) ∨ Ready b r.1 r.2 s) (Failed b) := by
  have hL := Loads.refl hb
  unfold openObjects
  refine .get_bind (.bind ((openFile_spec w file noload caller hb).mono ?_ ?_))
  swap
  · rintro s (rfl | ⟨o, ho, rfl⟩)
    · exact hL.failed hb
    · exact Loads.failed hb (hL.grow (le_refl _) (fresh_not_mem _) ho.loading ho.deps).1
  rintro h s (⟨rfl, hh⟩ | ⟨o, ho, rfl, rfl⟩)
  · refine .bind ?_
    unfold openRest
    refine .get_bind (.ite (fun hlt => absurd hlt (lt_irrefl _)) fun _ => .pure ?_)
    refine .bind ?_
    unfold makeScope
    refine .get_bind (.ite (fun hsome => .pure (.pure ?_)) fun hnone =>
      .ite (fun _ => .throw (hL.failed hb)) fun _ => .update (.pure ?_))
    · rw [isSome_iff_ne_none] at hsome
      exact .inl ⟨rfl, hh, .inl rfl, hsome⟩
    · have hnone' : (s.dso h).scope = none := by simpa using hnone
      refine .inl ⟨rfl, hh, .inr ⟨hnone', rfl⟩, ?_⟩
      obtain ⟨-, -, -, q, hq, -⟩ := scan_spec (fun _ => False) (s := nextGen s) hb.closed hh
        fun h => h
      rw [hq]
      exact some_ne_none q
  · obtain ⟨hL', hdeps⟩ := hL.grow (le_refl _) (fresh_not_mem _) ho.loading ho.deps
    have hmem : fresh b.list ∈ (append (fresh b.list) o b).list :=
      mem_append_right _ mem_cons_self
    have hN : Needed b (fresh b.list) (append (fresh b.list) o b) := by
      intro d hd hdb
      rcases mem_append.mp hd with hd | hd
      · exact absurd hd hdb
      · rw [mem_singleton.mp hd]
        exact .refl _
    refine .bind ?_
    unfold openRest
    refine .get_bind (.ite (fun _ => ?_) fun hlt => ?_)
    · refine (openNew_spec w hb hL' hN hmem (fresh_not_mem _)).mono (fun order s hR => ?_)
        fun _ h => h
      refine .bind ?_
      unfold makeScope
      refine .get_bind (.ite (fun _ => .pure (.pure (.inr hR))) fun hnone => ?_)
      obtain ⟨q, hq, -⟩ := hR.scope
      rw [hq] at hnone
      exact absurd rfl hnone
    · refine absurd ?_ hlt
      change b.list.length < (b.list ++ [_]).length
      rw [length_append]
      exact Nat.lt_succ_self _

end Citadel.Ldso
