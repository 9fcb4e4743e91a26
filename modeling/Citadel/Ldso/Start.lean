import Citadel.Ldso.Dlopen

/-!
# The start of a program

* `dlsStart_spec`: after `__dls_start` all objects are permanent, and the order of the constructors
  lists each of them once, without cycles dependencies first.
-/

namespace Citadel.Ldso

open Citadel.Lib.Graph Citadel.Lib.Fallible List Function

/-- At the start no object is an old one. -/
abbrev noneOld : Id → Prop := fun _ => False

variable {s t : State} {d : Id}

/-! ## Before the libraries are loaded -/

/-- An object that is there from the start, before its constructors are ordered. -/
structure Static (o : Dso) : Prop where
  refcnt : o.refcnt = 0
  opens : o.opens = 0
  doomed : o.doomed = false
  inited : o.inited = false
  visited : o.visited = false
  permanent : o.permanent = true
  scope : o.scope = none
  lscope : o.lscope = []

/-- What the parts of the start keep of an object. -/
def lasting (o : Dso) : Dso :=
  { deps := o.deps, refcnt := o.refcnt, opens := o.opens, doomed := o.doomed, inited := o.inited
    visited := o.visited, permanent := o.permanent, scope := o.scope, lscope := o.lscope }

variable {o : Dso} {b : State} {i : ℕ}

theorem Static.congr {o' : Dso} (ho : Static o) (h : lasting o' = lasting o) : Static o' := by
  exact ⟨(congrArg Dso.refcnt h).trans ho.refcnt, (congrArg Dso.opens h).trans ho.opens,
    (congrArg Dso.doomed h).trans ho.doomed, (congrArg Dso.inited h).trans ho.inited,
    (congrArg Dso.visited h).trans ho.visited, (congrArg Dso.permanent h).trans ho.permanent,
    (congrArg Dso.scope h).trans ho.scope, (congrArg Dso.lscope h).trans ho.lscope⟩

theorem Static.setDeps (ho : Static o) (f : Option (List Id) → Option (List Id)) :
    Static (setDeps f o) :=
  { ho with }

theorem startTls_edits (e : Elf) (hd : d ∈ s.list) :
    Edits noneOld exceptTls { s with tls := (startTls d e s).tls } (startTls d e s) ∧
      (startTls d e s).log = s.log ∧ (startTls d e s).markGen = s.markGen := by
  unfold startTls
  refine foldlRecOn (motive := fun t => Edits noneOld exceptTls { s with tls := t.tls } t ∧
    t.log = s.log ∧ t.markGen = s.markGen) _ _ ⟨.refl s, rfl, rfl⟩ ?_
  rintro t ⟨ht, hrest⟩ p -
  refine ⟨(ht.setTls (tlsAdd p t.tls)).trans ?_, hrest⟩
  refine .modify (s := { t with tls := tlsAdd p t.tls })
    (f := fun o => { o with tlsId := t.tls.mods.length + 1 }) ?_ rfl (fun h => h.elim)
    (fun hn => hn) (.inl rfl)
  have hlist : t.list = s.list := ht.list
  exact hlist.symm ▸ hd

/-- The state before anything is relocated. -/
structure Fresh (s : State) : Prop where
  list : s.list = [app, self]
  deps : ∀ d, (s.dso d).deps = none
  static : ∀ d ∈ s.list, Static (s.dso d) ∧ (s.dso d).bound = []
  clean : ∀ d, d ∉ s.list → s.dso d = {}
  mark : ∀ d, (s.dso d).mark = 0
  fini : s.fini = []
  started : s.started = false
  log : s.log = []
  markGen : s.markGen = 0

theorem Fresh.edits {e : Dso → Dso} (hs : Fresh s) (hE : Edits noneOld e { s with tls := t.tls } t)
    (hlog : t.log = s.log) (hgen : t.markGen = s.markGen) (hl : ∀ o, lasting (e o) = lasting o)
    (hb : ∀ o, (e o).bound = o.bound) (hm : ∀ o, (e o).mark = o.mark) : Fresh t where
  list := hE.list.trans hs.list
  deps d := by
    have h := congrArg Dso.deps (congrArg lasting (hE.same d))
    rw [hl, hl] at h
    exact h.trans (hs.deps d)
  static d hd := by
    have hlist : t.list = s.list := hE.list
    refine ⟨(hs.static d (hlist ▸ hd)).1.congr ?_,
      (hE.field Dso.bound hb d).trans (hs.static d (hlist ▸ hd)).2⟩
    rw [← hl, hE.same d, hl]
  clean d hd := by
    have hlist : t.list = s.list := hE.list
    rw [hlist] at hd
    exact (hE.clean d hd).trans (hs.clean d hd)
  mark d := (hE.field Dso.mark hm d).trans (hs.mark d)
  fini := hE.fini.trans hs.fini
  started := hE.started.trans hs.started
  log := hlog.trans hs.log
  markGen := hgen.trans hs.markGen

theorem fresh_startObjects (p : Program) : Fresh (startObjects p) := by
  have hfield : ∀ d, ((startObjects p).dso d).deps = none ∧ ((startObjects p).dso d).mark = 0 := by
    intro d
    unfold startObjects
    simp only [update_apply]
    split_ifs <;> exact ⟨rfl, rfl⟩
  refine ⟨rfl, fun d => (hfield d).1, fun d hd => ?_, fun d hd => ?_, fun d => (hfield d).2,
    rfl, rfl, rfl, rfl⟩
  · rcases mem_cons.mp hd with rfl | hd
    · exact ⟨⟨rfl, rfl, rfl, rfl, rfl, rfl, rfl, rfl⟩, rfl⟩
    · rw [mem_singleton.mp hd]
      exact ⟨⟨rfl, rfl, rfl, rfl, rfl, rfl, rfl, rfl⟩, rfl⟩
  · have hne : d ≠ app ∧ d ≠ self := not_or.mp fun h => hd (mem_pair.mpr h)
    exact (update_of_ne hne.2 _ _).trans (update_of_ne hne.1 _ _)

theorem fresh_startState (p : Program) : Fresh (startState p) ∧ Laid (startState p).tls := by
  have hkeep : ∀ {d : Id} (e : Elf) {s : State}, Fresh s → d ∈ s.list → Fresh (startTls d e s) := by
    intro d e s hs hd
    obtain ⟨hE, hlog, hgen⟩ := startTls_edits e hd
    exact hs.edits hE hlog hgen (fun _ => rfl) (fun _ => rfl) fun _ => rfl
  have h1 := hkeep (d := app) p.appElf (fresh_startObjects p) mem_cons_self
  have h2 := hkeep (d := self) p.selfElf h1 (by rw [h1.list]; decide)
  obtain ⟨u, hu⟩ : ∃ u, u = startTls self p.selfElf (startTls app p.appElf (startObjects p)) :=
    ⟨_, rfl⟩
  rw [← hu] at h2
  have hdef : startState p = ({ u with tls := tlsLayout u.tls } : State).modifyAll [app, self]
      (setOffset (tlsLayout u.tls)) := by
    rw [hu]
    rfl
  rw [hdef]
  refine ⟨h2.edits (t := ({ u with tls := tlsLayout u.tls } : State).modifyAll [app, self]
    (setOffset (tlsLayout u.tls))) (e := exceptTls) ?_ rfl rfl (fun _ => rfl) (fun _ => rfl)
    fun _ => rfl, laid_tlsLayout _⟩
  refine edits_setOffset _ fun d hd => ⟨?_, fun h => h⟩
  change d ∈ u.list
  rw [h2.list]
  exact hd

/-! ## The libraries -/

/-- An object of the program after libc is relocated. -/
structure Loaded (b : State) (o : Dso) : Prop where
  static : Static o
  bound : ∀ e ∈ o.bound, e = app ∨ e = self
  mark : o.mark = 0 ∨ ∃ d, o.mark = (b.dso d).mark

/-- What holds while the libraries are loaded; libc may not be listed yet. -/
abbrev Starting (b : State) : ℕ → State → Prop := Gathering (· = self) (Loaded b) [] b

theorem Starting.added {e : Id} {s' : State} (hb : b.started = false)
    (hS : Starting b i s) (hi : i ≤ s.list.length) (ha : Added s e s') :
    Starting b i s' ∧ s.list <+: s'.list ∧ e ∈ s'.list := by
  cases ha with
  | found he => exact ⟨hS, prefix_refl _, he⟩
  | listed he hn =>
    have heq : ({ s with list := s.list ++ [self] } : State) = append self (s.dso self) s := by
      rw [append, update_eq_self]
    rw [heq]
    refine ⟨(hS.grow hi hn (hS.new self (.inr rfl) not_mem_nil)
      (hS.todo self fun h => hn (mem_of_mem_take h))).1, prefix_append .., ?_⟩
    rw [he]
    exact mem_append_right _ mem_cons_self
  | loaded o he ho =>
    rw [hS.rest.started.trans hb] at ho
    obtain ⟨p, n, dv, i', elf, m, nd, rfl⟩ := ho
    subst he
    exact ⟨(hS.grow hi (fresh_not_mem _) ⟨⟨rfl, rfl, rfl, rfl, rfl, rfl, rfl, rfl⟩, by simp,
      .inl rfl⟩ rfl).1, prefix_append .., mem_append_right _ mem_cons_self⟩

theorem starting_loadDeps (w : World) (hb : b.started = false) (hS : Starting b i s) (n : ℕ) :
    Ends (loadDeps w n i) s
      (fun _ t => ∃ j, (s.list <+: t.list ∧ Starting b j t) ∧ t.list.length ≤ j) fun _ => True := by
  refine loadDeps_rule (P := fun j t => s.list <+: t.list ∧ Starting b j t) 0
    (fun _ _ _ => trivial) ?_ ?_ ?_ n i (Nat.zero_le i) ⟨prefix_refl _, hS⟩
  · exact fun j t d hT hd hsome => absurd (hT.2.deps_none hd) hsome
  · exact fun j t d hT hd _ => ⟨hT.1, (hT.2.begins hd).1⟩
  · rintro j d t e t' _ ⟨hpre, hT⟩ hd ha
    have hj : j + 1 ≤ t.list.length := (List.getElem?_eq_some_iff.mp hd).1
    obtain ⟨hT', ⟨r, hr⟩, he⟩ := hT.added hb hj ha
    have hd' : t'.list[j]? = some d := by rw [← hr, List.getElem?_append_left hj, hd]
    exact ⟨trivial, hd', hpre.trans ⟨r, hr⟩, (hT'.addDep (Nat.zero_le j) hd' he).1⟩

/-! ## The order of the constructors -/

/-- What `order_init` has put out so far. -/
structure Arranged (s : State) (c : State × List Id) : Prop where
  edits : Edits noneOld exceptVisited s c.1
  closed : VisitClosed c.1
  nodup : c.2.Nodup
  visited : ∀ d, (c.1.dso d).visited = true ↔ d ∈ c.2
  sub : ∀ d ∈ c.2, d ∈ s.list
  succFirst : (∀ x ∈ s.list, ∀ y ∈ s.depsOf x, ¬ Reach s.depsOf y x) →
    SuccFirst s.depsOf noneOld c.2

theorem Arranged.step {c : State × List Id} (hs : Closed s) (hc : Arranged s c) (hd : d ∈ s.list) :
    Arranged s (orderInit d c) ∧ d ∈ (orderInit d c).2 ∧ ∀ x ∈ c.2, x ∈ (orderInit d c).2 := by
  have hdeps : c.1.depsOf = s.depsOf := hc.edits.depsOf fun _ => rfl
  have hlist : c.1.list = s.list := hc.edits.list
  have hclosed : Closed c.1 := hs.congr hlist hdeps
  have hO : Ordered noneOld d c.1 c.2 (orderInit d c) :=
    orderInit_spec hclosed hc.closed (hlist ▸ hd) (fun _ h => h.elim) c.2
  obtain ⟨new, h1, h2, h3, h4, h5⟩ := hO.out
  have hvis : ∀ x, ((orderInit d c).1.dso x).visited = true ↔ x ∈ (orderInit d c).2 := fun x => by
    rw [h4, hc.visited, h1, mem_append]
  have hdisj : ∀ x ∈ new, x ∉ c.2 := by
    intro x hx hxc
    have hf := (h3 x hx).2
    rw [(hc.visited x).mpr hxc] at hf
    cases hf
  refine ⟨⟨hc.edits.trans hO.edits, hO.closed, ?_, hvis, fun x hx => ?_, fun hacyc => ?_⟩,
    (hvis d).mp hO.visited, fun x hx => ?_⟩
  · rw [h1]
    exact nodup_append.mpr ⟨hc.nodup, h2, fun x hx y hy hxy => hdisj y hy (hxy ▸ hx)⟩
  · rw [h1] at hx
    rcases mem_append.mp hx with hx | hx
    · exact hc.sub x hx
    · exact hlist ▸ (h3 x hx).1
  · rw [h1]
    rw [hdeps] at h5
    refine (hc.succFirst hacyc).append (h5 fun x hx => hacyc x (hx.closed hs hd)) ?_
    exact fun x _ y _ hy => .inr ((hc.visited y).mp hy)
  · rw [h1]
    exact mem_append_left _ hx

theorem arranged_foldl (hs : Closed s) :
    ∀ (l : List Id) {c : State × List Id}, (∀ d ∈ l, d ∈ s.list) → Arranged s c →
      Arranged s (l.foldl (fun c d => orderInit d c) c) ∧
        ∀ d, d ∈ l ∨ d ∈ c.2 → d ∈ (l.foldl (fun c d => orderInit d c) c).2
  | [], _, _, hc => ⟨hc, fun _ h => h.resolve_left not_mem_nil⟩
  | a :: l, c, hl, hc => by
    obtain ⟨h1, h2, hmono⟩ := hc.step hs (hl a mem_cons_self)
    obtain ⟨h3, h4⟩ := arranged_foldl hs l (fun d hd => hl d (mem_cons_of_mem a hd)) h1
    refine ⟨h3, fun d hd => h4 d ?_⟩
    rcases hd with hd | hd
    · rcases mem_cons.mp hd with rfl | hd
      · exact .inr h2
      · exact .inl hd
    · exact .inr (hmono d hd)

/-! ## The whole start -/

/-- The state before the constructors of the program and its libraries run, in this order. -/
structure Begun (order : List Id) (s : State) : Prop where
  wf : Wf s
  linked : Linked s
  static : ∀ d ∈ s.list, (s.dso d).refcnt = 0 ∧ (s.dso d).opens = 0 ∧ (s.dso d).doomed = false ∧
    (s.dso d).inited = false ∧ (s.dso d).permanent = true ∧ (s.dso d).scope = none
  fini : s.fini = []
  log : OnlyMarks [] s.log
  order_nodup : order.Nodup
  mem_order : ∀ d, d ∈ order ↔ d ∈ s.list
  succFirst : (∀ x ∈ s.list, ∀ y ∈ s.depsOf x, ¬ Reach s.depsOf y x) →
    SuccFirst s.depsOf noneOld order

/-- The objects of the program with their dependencies, before their constructors are ordered. -/
structure Gathered (s : State) : Prop where
  nodup : s.list.Nodup
  app_mem : app ∈ s.list
  self_mem : self ∈ s.list
  closed : Closed s
  clean : ∀ d, d ∉ s.list → s.dso d = {}
  static : ∀ d ∈ s.list, Static (s.dso d) ∧ ∀ e ∈ (s.dso d).bound, e ∈ s.list
  fini : s.fini = []
  log : OnlyMarks [] s.log
  laid : Laid s.tls
  marked : MarkInv s

theorem Gathered.edits {e : Dso → Dso} (hs : Gathered s)
    (hE : Edits noneOld e { s with tls := t.tls } t) (hlaid : Laid t.tls)
    (hl : ∀ o, lasting (e o) = lasting o) (hb : ∀ o, (e o).bound = o.bound) : Gathered t := by
  have hlist : t.list = s.list := hE.list
  have hlast : ∀ d, lasting (t.dso d) = lasting (s.dso d) := fun d => by rw [← hl, hE.same d, hl]
  refine ⟨hlist ▸ hs.nodup, hlist ▸ hs.app_mem, hlist ▸ hs.self_mem, hs.closed.congr hlist ?_,
    fun d hd => ?_, fun d hd => ⟨(hs.static d (hlist ▸ hd)).1.congr (hlast d), ?_⟩,
    hE.fini.trans hs.fini, hs.log.trans hE.log, hlaid, hE.marked hs.marked⟩
  · exact funext fun d => congrArg (fun o => o.deps.getD []) (hlast d)
  · rw [hlist] at hd
    exact (hE.clean d hd).trans (hs.clean d hd)
  · rw [hE.field Dso.bound hb, hlist]
    exact (hs.static d (hlist ▸ hd)).2

theorem Starting.gathered {j : ℕ} (hb : b.fini = [] ∧ OnlyMarks [] b.log ∧ Laid b.tls)
    (hmark : MarkInv b) (happ : app ∈ s.list) (hS : Starting b j s) (hj : s.list.length ≤ j) :
    Gathered (listSelf s) := by
  have hdone : ∀ d ∈ s.list, ∀ e ∈ s.depsOf d, e ∈ s.list := fun d hd =>
    (hS.done d (by rwa [take_of_length_le hj]) not_mem_nil).2
  have hmem : ∀ d, d ∈ (listSelf s).list ↔ d ∈ s.list ∨ d = self := by
    intro d
    unfold listSelf
    split_ifs with h
    · exact ⟨.inl, fun hd => hd.elim id fun hd => hd ▸ h⟩
    · rw [mem_append, mem_singleton]
  have hdso : (listSelf s).dso = s.dso := by unfold listSelf; split_ifs <;> rfl
  have hdeps : (listSelf s).depsOf = s.depsOf := by unfold listSelf; split_ifs <;> rfl
  have hrest : (listSelf s).fini = s.fini ∧ (listSelf s).log = s.log ∧ (listSelf s).tls = s.tls ∧
      (listSelf s).markGen = s.markGen := by
    unfold listSelf
    split_ifs <;> exact ⟨rfl, rfl, rfl, rfl⟩
  obtain ⟨hfini, hlog, htls, hgen⟩ := hrest
  refine ⟨?_, (hmem app).mpr (.inl happ), (hmem self).mpr (.inr rfl), fun d hd e he => ?_,
    fun d hd => ?_, fun d hd => ?_, hfini.trans (hS.rest.fini.trans hb.1), ?_, ?_, fun hlt => ?_⟩
  · unfold listSelf
    split_ifs with h
    · exact hS.nodup
    · rw [← concat_eq_append]
      exact hS.nodup.concat h
  · rw [hdeps] at he
    by_cases hdl : d ∈ s.list
    · exact (hmem e).mpr (.inl (hdone d hdl e he))
    · rw [State.depsOf, hS.todo d fun h => hdl (mem_of_mem_take h)] at he
      cases he
  · rw [hmem, not_or] at hd
    rw [hdso]
    exact hS.clean d hd.1 hd.2
  · have h := hS.new d ((hmem d).mp hd) not_mem_nil
    rw [hdso]
    refine ⟨h.static, fun e he => (hmem e).mpr ?_⟩
    rcases h.bound e he with rfl | rfl
    · exact .inl happ
    · exact .inr rfl
  · rw [hlog, hS.rest.log]
    exact hb.2.1
  · rw [htls, hS.rest.tls]
    exact hb.2.2
  · rw [hlog] at hlt ⊢
    rw [hgen, hdso]
    exact hS.marked hmark (fun _ h => h.mark) hlt

theorem Gathered.arranged (hs : Gathered s) :
    Arranged s (s.list.foldl (fun c d => orderInit d c) (orderInit app (s, []))) ∧
      ∀ d ∈ s.list, d ∈ (s.list.foldl (fun c d => orderInit d c) (orderInit app (s, []))).2 := by
  have hfalse : ∀ d, (s.dso d).visited = false := by
    intro d
    by_cases hd : d ∈ s.list
    · exact (hs.static d hd).1.visited
    · rw [hs.clean d hd]
  have h0 : Arranged s (s, []) := by
    refine ⟨.refl s, fun d _ hv => ?_, nodup_nil, fun d => ?_, by simp,
      fun _ => .nil⟩
    · rw [hfalse d] at hv
      cases hv
    · simp [hfalse d]
  obtain ⟨h1, h2⟩ := arranged_foldl hs.closed s.list (fun _ h => h) (h0.step hs.closed hs.app_mem).1
  exact ⟨h1, fun d hd => h2 d (.inl hd)⟩

/-- libc relocated itself, and the list holds the program. -/
theorem starting_relocateSelf {p : Program} (hR : Relocated noneOld self (startState p) s) :
    Starting { s with list := [app] } 0 { s with list := [app] } := by
  obtain ⟨hF, -⟩ := fresh_startState p
  have hlast : ∀ d, lasting (s.dso d) = lasting ((startState p).dso d) := by
    intro d
    have h := congrArg lasting (hR.edits.same d)
    exact h
  have hmem : ∀ d, d ∈ [app] ∨ d = self → d ∈ (startState p).list := by
    intro d hd
    rw [hF.list]
    rcases hd with hd | rfl
    · exact mem_cons.mpr (.inl (mem_singleton.mp hd))
    · exact mem_cons_of_mem app mem_cons_self
  have hself := hmem self (.inr rfl)
  refine ⟨⟨rfl, rfl, rfl, rfl, rfl, rfl⟩, nil_prefix, nodup_singleton app, fun _ _ => rfl,
    fun d hd hds => ?_, Nat.zero_le _, fun d hd _ => ⟨(hF.static d (hmem d hd)).1.congr (hlast d),
      fun e he => ?_, .inr ⟨d, rfl⟩⟩, fun o f h => ⟨h.static.setDeps f, h.bound, h.mark⟩,
    fun d hd => absurd hd not_mem_nil, fun d _ => ?_⟩
  · have hdl : d ∉ (startState p).list := by
      rw [hF.list]
      exact fun h => (mem_cons.mp h).elim (fun h => hd (h ▸ mem_cons_self)) fun h =>
        hds (mem_singleton.mp h)
    exact (hR.edits.clean d hdl).trans (hF.clean d hdl)
  · change e ∈ (s.dso d).bound at he
    by_cases hds : d = self
    · subst hds
      rcases hR.bound e he with he | ⟨he, -⟩
      · rw [(hF.static self hself).2] at he
        cases he
      · rw [hF.list] at he
        exact (mem_cons.mp he).imp_right mem_singleton.mp
    · rw [hR.other d hds, (hF.static d (hmem d hd)).2] at he
      cases he
  · exact (congrArg Dso.deps (hlast d)).trans (hF.deps d)

theorem begun_relocated {order : List Id} {c : State} (hG : Gathered s)
    (hA : Arranged s (c, order)) (hall : ∀ d ∈ s.list, d ∈ order)
    (hE : Edits noneOld exceptReloc c t)
    (hbound : ∀ d ∈ t.list, ∀ e ∈ (t.dso d).bound, e ∈ t.list) (r : UInt64) :
    Begun order { t with tls := { t.tls with reserve := r }, started := true } := by
  have hEc : Edits noneOld exceptVisited s c := hA.edits
  have hlist : t.list = s.list := hE.list.trans hEc.list
  have hdeps : t.depsOf = s.depsOf := (hE.depsOf fun _ => rfl).trans (hEc.depsOf fun _ => rfl)
  have hlast (d : Id) : exceptVisited (lasting (t.dso d)) = exceptVisited (lasting (s.dso d)) :=
    (congrArg (exceptVisited ∘ lasting) (hE.same d)).trans (congrArg lasting (hEc.same d))
  have hstatic : ∀ d ∈ t.list, Static (s.dso d) := fun d hd => (hG.static d (hlist ▸ hd)).1
  have hperm : ∀ d ∈ t.list, (t.dso d).permanent = true := fun d hd =>
    (congrArg Dso.permanent (hlast d)).trans (hstatic d hd).permanent
  have hscope : ∀ d ∈ t.list, (t.dso d).scope = none := fun d hd =>
    (congrArg Dso.scope (hlast d)).trans (hstatic d hd).scope
  refine ⟨⟨hlist ▸ hG.nodup, hlist ▸ hG.app_mem, hlist ▸ hG.self_mem, hG.closed.congr hlist hdeps,
    fun d hd => ?_, fun d hd => ?_, rfl, ?_, hE.marked (hEc.marked hG.marked)⟩,
    ⟨fun h hh q hq => ?_, fun _ d hd e he => ⟨hbound d hd e he, .inr (.inl ?_)⟩⟩,
    fun d hd => ⟨?_, ?_, ?_, ?_, hperm d hd, hscope d hd⟩, ?_, ?_, hA.nodup, fun d => ?_, ?_⟩
  · change (t.dso d).visited = true
    rw [hE.field Dso.visited fun _ => rfl]
    exact (hA.visited d).mpr (hall d (hlist ▸ hd))
  · change d ∉ t.list at hd
    rw [hlist] at hd
    exact ((hE.clean d (hEc.list ▸ hd)).trans (hEc.clean d hd)).trans (hG.clean d hd)
  · have htls : t.tls = s.tls := hE.tls.trans hEc.tls
    have hlaid : tlsLayout t.tls = t.tls := htls ▸ hG.laid
    change ({ tlsLayout t.tls with reserve := r } : Tls) = _
    rw [hlaid]
  · change (t.dso h).scope = some q at hq
    rw [hscope h hh] at hq
    cases hq
  · exact hperm e (hbound d hd e he)
  · exact (congrArg Dso.refcnt (hlast d)).trans (hstatic d hd).refcnt
  · exact (congrArg Dso.opens (hlast d)).trans (hstatic d hd).opens
  · exact (congrArg Dso.doomed (hlast d)).trans (hstatic d hd).doomed
  · exact (congrArg Dso.inited (hlast d)).trans (hstatic d hd).inited
  · exact hE.fini.trans (hEc.fini.trans hG.fini)
  · exact (hG.log.trans hEc.log).trans hE.log
  · change d ∈ order ↔ d ∈ t.list
    rw [hlist]
    exact ⟨hA.sub d, hall d⟩
  · change (∀ x ∈ t.list, ∀ y ∈ t.depsOf x, ¬ Reach t.depsOf y x) → SuccFirst t.depsOf noneOld order
    rw [hlist, hdeps]
    exact hA.succFirst

/-- **The start of a program**, if all of it succeeds. -/
theorem dlsStart_spec (w : World) (p : Program) (s₀ : State) :
    Ends (dlsStart w p) s₀ (fun order s => Begun order s) fun _ => True := by
  obtain ⟨hF, hlaid⟩ := fresh_startState p
  have hclosed : Closed (startState p) := by
    intro d _ e he
    rw [State.depsOf, hF.deps d] at he
    cases he
  have hmark : MarkInv (startState p) := by
    refine fun _ => ⟨?_, fun d => ?_⟩
    · rw [hF.markGen, hF.log]
      rfl
    · rw [hF.mark]
      exact Nat.zero_le _
  have hself : self ∈ (startState p).list := by
    rw [hF.list]
    exact mem_cons_of_mem app mem_cons_self
  have hrel :
      Ends (relocate self) (startState p) (fun _ t => Relocated noneOld self (startState p) t)
      fun t => Relocated noneOld self (startState p) t := by
    refine relocate_spec hclosed hmark hself (fun h => h) fun e he => ?_
    rw [(hF.static self hself).1.lscope] at he
    cases he
  unfold dlsStart
  refine Ends.set_bind (Ends.bind (hrel.mono ?_ fun _ _ => trivial))
  intro _ s₁ hR
  have hS₀ := starting_relocateSelf hR
  have hst : s₁.started = false := hR.edits.started.trans hF.started
  have hb : s₁.fini = [] ∧ OnlyMarks [] s₁.log ∧ Laid s₁.tls :=
    ⟨hR.edits.fini.trans hF.fini, hF.log ▸ hR.edits.log, hR.edits.tls.symm ▸ hlaid⟩
  refine Ends.bind (Ends.update (Ends.bind ((starting_loadDeps w (b := { s₁ with list := [app] })
    hst hS₀ w.room).mono ?_ fun _ _ => trivial)))
  rintro _ s₂ ⟨j, ⟨hpre, hS⟩, hj⟩
  have hG : Gathered (listSelf s₂) := Starting.gathered (b := { s₁ with list := [app] }) hb
    (hR.edits.marked hmark) (hpre.subset mem_cons_self) hS hj
  refine Ends.bind (Ends.update ?_)
  generalize listSelf s₂ = s₃ at hG ⊢
  refine Ends.bind ((assignTls_spec noneOld hG.laid (fun _ _ h => h) _).mono ?_ fun _ _ => trivial)
  rintro _ s₄ ⟨hT, hl₄, -⟩
  have hG₄ : Gathered s₄ := hG.edits hT.edits hl₄ (fun _ => rfl) fun _ => rfl
  refine Ends.get_bind (Ends.set_bind ?_)
  obtain ⟨hA, hall⟩ := hG₄.arranged
  generalize s₄.list.foldl (fun c d => orderInit d c) (orderInit app (s₄, [])) = c at hA hall ⊢
  have hlist : c.1.list = s₄.list := hA.edits.list
  have hdeps : c.1.depsOf = s₄.depsOf := hA.edits.depsOf fun _ => rfl
  have hbound : ∀ d ∈ c.1.list, ∀ e ∈ (c.1.dso d).bound, e ∈ c.1.list := by
    intro d hd
    rw [hA.edits.field Dso.bound (fun _ => rfl), hlist]
    exact (hG₄.static d (hlist ▸ hd)).2
  refine Ends.bind ((Ends.forM (E := fun _ => True)
    (I := fun t : State => Edits noneOld exceptReloc c.1 t ∧
      ∀ d ∈ t.list, ∀ e ∈ (t.dso d).bound, e ∈ t.list) _ ⟨Edits.refl _, hbound⟩ ?_).mono ?_
    fun _ _ => trivial)
  · rintro d hd t ⟨hE, hb⟩
    have hdl : d ∈ s₄.list := hA.sub d (mem_of_mem_filter hd)
    have htl : t.list = s₄.list := hE.list.trans hlist
    have htd : t.depsOf = s₄.depsOf := (hE.depsOf fun _ => rfl).trans hdeps
    refine (relocate_spec (hG₄.closed.congr htl htd) (hE.marked (hA.edits.marked hG₄.marked))
      (htl ▸ hdl) (fun h => h) fun e he => ?_).mono (fun _ t' hRt => ⟨hE.trans hRt.edits, ?_⟩)
      fun _ _ => trivial
    · rw [hE.field Dso.lscope (fun _ => rfl), hA.edits.field Dso.lscope fun _ => rfl,
        (hG₄.static d hdl).1.lscope] at he
      cases he
    · intro x hx e he
      rw [hRt.edits.list] at hx ⊢
      by_cases hxd : x = d
      · subst hxd
        exact (hRt.bound e he).elim (hb x hx e) fun h => h.1
      · rw [hRt.other x hxd] at he
        exact hb x hx e he
  · rintro _ t ⟨hE, hb⟩
    refine Ends.get_bind (Ends.bind ((Ends.forM (E := fun _ => True) (I := (· = t)) _ rfl
      fun d _ t' ht' => ?_).mono ?_ fun _ _ => trivial))
    · subst ht'
      unfold protectRelro
      exact Ends.get_bind (Ends.ite (fun _ => Ends.throw trivial) fun _ => Ends.pure rfl)
    · rintro _ t' rfl
      exact Ends.bind (Ends.update (Ends.pure (begun_relocated hG₄ hA hall hE hb _)))

end Citadel.Ldso
