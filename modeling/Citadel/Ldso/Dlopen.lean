import Citadel.Ldso.Opening

/-!
# What `dlopen` does to a well-formed state
-/

namespace Citadel.Ldso

open Citadel.Lib.Graph Citadel.Lib.Fallible

variable {b s s' t : State} {h : Id}

/-! ## A failed call -/

/-- The state `s` after a `dlopen` that failed in the state `t`: of the objects only the marks and
`nodelete` may differ, and what was mapped on the way is unmapped again. -/
structure RolledBack (b t s : State) : Prop where
  grown : Grown b t
  list : s.list = b.list
  old : ∀ d ∈ b.list, ∃ m n, s.dso d = { b.dso d with mark := m, nodelete := n }
  pinned : ∀ d ∈ b.list, (b.dso d).nodelete = true → (s.dso d).nodelete = true
  clean : ∀ d, d ∉ b.list → s.dso d = {}
  fini : s.fini = b.fini
  exitFns : s.exitFns = b.exitFns
  started : s.started = b.started
  tls : s.tls = b.tls
  log : s.log = unmaps b.list.length t ++ t.log
  marked : MarkInv s

theorem mem_unmaps {i : ℕ} {x : Event} (hx : x ∈ unmaps i s) :
    ∃ d ∈ s.list.drop i, x = .unmap d (s.dso d) := by
  simp only [unmaps, List.mem_reverse, List.mem_map, List.mem_filter] at hx
  obtain ⟨d, ⟨hd, -⟩, rfl⟩ := hx
  exact ⟨d, hd, rfl⟩

theorem marks_unmaps (i : ℕ) (s : State) (l : List Event) : marks (unmaps i s ++ l) = marks l := by
  rw [marks, List.count_append, List.count_eq_zero.mpr fun hx => ?_, Nat.zero_add]
  · rfl
  · obtain ⟨d, -, h⟩ := mem_unmaps hx
    cases h

theorem Grown.rollback (hG : Grown b s) :
    RolledBack b s (rollback b.list.length b.tls.mods.length b.tls.offset s) := by
  obtain ⟨r, hr⟩ := hG.list
  have htake : s.list.take b.list.length = b.list := by rw [← hr, List.take_left]
  have hdso : ∀ d, (Ldso.rollback b.list.length b.tls.mods.length b.tls.offset s).dso d =
      if d ∈ s.list.drop b.list.length then {} else s.dso d := fun _ => rfl
  have hold : ∀ d ∈ b.list,
      (Ldso.rollback b.list.length b.tls.mods.length b.tls.offset s).dso d = s.dso d := by
    intro d hd
    rw [hdso, if_neg fun hd' => (hG.mem_drop.mp hd').2 hd]
  refine ⟨hG, htake, fun d hd => ?_, fun d hd => ?_, fun d hd => ?_, hG.fini, hG.exitFns,
    hG.started, ?_, rfl, fun hlt => ?_⟩
  · rw [hold d hd]
    exact hG.old d hd
  · rw [hold d hd]
    exact hG.pinned d hd
  · rw [hdso]
    split_ifs with hd'
    · rfl
    · exact hG.clean d fun hds => hd' (hG.mem_drop.mpr ⟨hds, hd⟩)
  · obtain ⟨⟨extra, he, -⟩, ha, hres⟩ := hG.tls
    change .mk (s.tls.mods.take b.tls.mods.length) b.tls.offset s.tls.align s.tls.reserve = b.tls
    rw [he, List.take_left, ha, hres]
  · have hmarks : marks (Ldso.rollback b.list.length b.tls.mods.length b.tls.offset s).log =
        marks s.log := marks_unmaps ..
    rw [hmarks] at hlt ⊢
    obtain ⟨h1, h2⟩ := hG.marked hlt
    refine ⟨h1, fun d => ?_⟩
    rw [hdso]
    split_ifs
    · exact Nat.zero_le _
    · exact h2 d

/-- It marked closures and unmapped objects that are not loaded. -/
theorem RolledBack.events (h : RolledBack b t s) : ∃ new, s.log = new ++ b.log ∧
    ∀ x ∈ new, x = .mark ∨ ∃ d o, x = .unmap d o ∧ d ∉ b.list := by
  obtain ⟨n, hn⟩ := h.grown.log
  refine ⟨_, by rw [h.log, hn, List.append_assoc], fun x hx => ?_⟩
  rcases List.mem_append.mp hx with hx | hx
  · obtain ⟨d, hd, rfl⟩ := mem_unmaps hx
    exact .inr ⟨d, _, rfl, (h.grown.mem_drop.mp hd).2⟩
  · exact .inl (List.eq_of_mem_replicate hx)

theorem RolledBack.suffix (h : RolledBack b t s) : b.log <:+ s.log := by
  obtain ⟨new, hnew, -⟩ := h.events
  exact hnew ▸ List.suffix_append ..

theorem RolledBack.depsOf (hb : Wf b) (h : RolledBack b t s) : s.depsOf = b.depsOf := by
  funext d
  unfold State.depsOf
  by_cases hd : d ∈ b.list
  · obtain ⟨m, n, hmn⟩ := h.old d hd
    rw [hmn]
  · rw [h.clean d hd, hb.clean d hd]

theorem RolledBack.wf (hb : Wf b) (h : RolledBack b t s) : Wf s where
  nodup := h.list ▸ hb.nodup
  app_mem := h.list ▸ hb.app_mem
  self_mem := h.list ▸ hb.self_mem
  closed := hb.closed.congr h.list (h.depsOf hb)
  visited d hd := by
    obtain ⟨m, n, hmn⟩ := h.old d (h.list ▸ hd)
    rw [hmn]
    exact hb.visited d (h.list ▸ hd)
  clean d hd := h.clean d (h.list ▸ hd)
  started := h.started.trans hb.started
  laid := h.tls ▸ hb.laid
  marked := h.marked

/-! ## A successful call -/

/-- The closures of handles are breadth first and the bindings are to objects that outlive what is
bound to them, up to 2³² markings. -/
structure Linked (s : State) : Prop where
  scopes : ∀ h ∈ s.list, ∀ q, (s.dso h).scope = some q →
    (∀ d ∈ q, Reach s.depsOf h d) ∧ (marks s.log < 2 ^ 32 → BreadthFirst s.depsOf h q)
  bindings : marks s.log < 2 ^ 32 → ∀ d ∈ s.list, ∀ e ∈ (s.dso d).bound, e ∈ s.list ∧
    (e = d ∨ (s.dso e).permanent = true ∨ Reach s.depsOf d e ∨ (s.dso e).nodelete = true)

/-- The closures of handles hold nothing but what can be reached. -/
def Scoped (s : State) : Prop :=
  ∀ h ∈ s.list, ∀ q, (s.dso h).scope = some q → ∀ d ∈ q, Reach s.depsOf h d

theorem Linked.reaches (hL : Linked s) : Scoped s := fun h hh q hq => (hL.scopes h hh q hq).1

theorem Linked.congr (hL : Linked s) (hlist : s'.list = s.list)
    (hsame : ∀ d, (s'.dso d).deps = (s.dso d).deps ∧ (s'.dso d).scope = (s.dso d).scope ∧
      (s'.dso d).bound = (s.dso d).bound ∧ (s'.dso d).permanent = (s.dso d).permanent ∧
      ((s.dso d).nodelete = true → (s'.dso d).nodelete = true))
    (hlog : marks s.log ≤ marks s'.log) : Linked s' := by
  have hdeps : s'.depsOf = s.depsOf := funext fun d => by
    rw [State.depsOf, State.depsOf, (hsame d).1]
  refine ⟨fun h hh q hq => ?_, fun hlt d hd e he => ?_⟩
  · rw [hlist] at hh
    rw [(hsame h).2.1] at hq
    rw [hdeps]
    exact (hL.scopes h hh q hq).imp_right fun hf hlt => hf (by omega)
  · rw [hlist] at hd ⊢
    rw [(hsame d).2.2.1] at he
    rw [hdeps, (hsame e).2.2.2.1]
    refine (hL.bindings (by omega) d hd e he).imp_right fun hf => hf.imp_right fun h1 => ?_
    exact h1.imp_right fun h2 => h2.imp_right (hsame e).2.2.2.2

theorem RolledBack.linked (hb : Wf b) (hL : Linked b) (h : RolledBack b t s) : Linked s := by
  refine hL.congr h.list (fun d => ?_) (marks_le_of_suffix h.suffix)
  by_cases hd : d ∈ b.list
  · obtain ⟨m, n, hmn⟩ := h.old d hd
    rw [hmn]
    refine ⟨rfl, rfl, rfl, rfl, fun hn => ?_⟩
    have := h.pinned d hd hn
    rwa [hmn] at this
  · rw [h.clean d hd, hb.clean d hd]
    exact ⟨rfl, rfl, rfl, rfl, fun hn => hn⟩

theorem Grown.reach_iff (hb : Wf b) (hG : Grown b s) {d e : Id} (hd : d ∈ b.list) :
    Reach s.depsOf d e ↔ Reach b.depsOf d e :=
  Reach.congr_iff (P := (· ∈ b.list)) hb.closed (fun _ => hG.depsOf) hd

variable {order : List Id}

theorem Ready.wf (hb : Wf b) (hR : Ready b h order s) : Wf s where
  nodup := hR.opening.grown.nodup
  app_mem := hR.opening.grown.list.subset hb.app_mem
  self_mem := hR.opening.grown.list.subset hb.self_mem
  closed := hR.opening.closed
  visited := hR.visited
  clean := hR.opening.grown.clean
  started := hR.opening.grown.started.trans hb.started
  laid := hR.laid
  marked := hR.opening.grown.marked

theorem Ready.scope_cases (hR : Ready b h order s) {x : Id} (hx : x ∈ s.list)
    {q : List Id} (hq : (s.dso x).scope = some q) : (x ∈ b.list ∧ (b.dso x).scope = some q) ∨
    ((∀ d ∈ q, Reach s.depsOf x d) ∧ (marks s.log < 2 ^ 32 → BreadthFirst s.depsOf x q)) := by
  by_cases hxb : x ∈ b.list
  · obtain ⟨m, n, hmn⟩ := hR.opening.grown.old x hxb
    rw [hmn] at hq
    exact .inl ⟨hxb, hq⟩
  · by_cases hxh : x = h
    · subst hxh
      obtain ⟨q', hq', h1⟩ := hR.scope
      rw [hq'] at hq
      cases hq
      exact .inr h1
    · rw [hR.noScope x hx hxb hxh] at hq
      cases hq

theorem Ready.reaches (hb : Wf b) (hS : Scoped b) (hR : Ready b h order s) : Scoped s := by
  intro x hx q hq d hd
  rcases hR.scope_cases hx hq with ⟨hxb, h1⟩ | ⟨h1, -⟩
  · exact (hR.opening.grown.reach_iff hb hxb).mpr (hS x hxb q h1 d hd)
  · exact h1 d hd

theorem Ready.linked (hb : Wf b) (hL : Linked b) (hR : Ready b h order s) : Linked s := by
  have hG := hR.opening.grown
  have hmarks : marks b.log ≤ marks s.log := hG.log.le
  refine ⟨fun x hx q hq => ?_, fun hlt d hd e he => ?_⟩
  · refine ⟨hR.reaches hb hL.reaches x hx q hq, fun hlt => ?_⟩
    rcases hR.scope_cases hx hq with ⟨hxb, h1⟩ | ⟨-, h1⟩
    · exact ((hL.scopes x hxb q h1).2 (by omega)).congr (P := (· ∈ b.list)) hb.closed
        (fun _ => hG.depsOf) hxb
    · exact h1 hlt
  · by_cases hdb : d ∈ b.list
    · obtain ⟨m, n, hmn⟩ := hG.old d hdb
      rw [hmn] at he
      obtain ⟨h1, h2⟩ := hL.bindings (by omega) d hdb e he
      refine ⟨hG.list.subset h1, ?_⟩
      obtain ⟨m', n', hmn'⟩ := hG.old e h1
      rw [hG.reach_iff hb hdb]
      rcases h2 with h3 | h3 | h3 | h3
      · exact .inl h3
      · exact .inr (.inl (by rw [hmn']; exact h3))
      · exact .inr (.inr (.inl h3))
      · exact .inr (.inr (.inr (hG.pinned e h1 h3)))
    · exact (hR.failed.bindings d hd hdb e he).imp_right fun hf => hf hlt

/-! ## What a successful call starts from -/

theorem Wf.edits {old : Id → Prop} {e : Dso → Dso} (hb : Wf b) (hE : Edits old e b s)
    (hd : ∀ o, (e o).deps = o.deps) (hv : ∀ o, (e o).visited = o.visited) : Wf s where
  nodup := hE.list ▸ hb.nodup
  app_mem := hE.list ▸ hb.app_mem
  self_mem := hE.list ▸ hb.self_mem
  closed := hb.closed.congr hE.list (hE.depsOf hd)
  visited d hd := (hE.field Dso.visited hv d).trans (hb.visited d (hE.list ▸ hd))
  clean d hd := by
    rw [hE.list] at hd
    exact (hE.clean d hd).trans (hb.clean d hd)
  started := hE.started.trans hb.started
  laid := hE.tls ▸ hb.laid
  marked := hE.marked hb.marked

/-- The state before a successful `dlopen` counts the new reference: the handle `h` has its closure,
and the objects in `order` are new. -/
structure Opened (b : State) (h : Id) (order : List Id) (s : State) : Prop where
  wf : Wf s
  reaches : Scoped b → Scoped s
  linked : Linked b → Linked s
  list : b.list <+: s.list
  mem : h ∈ s.list
  some : (s.dso h).scope ≠ none
  old : ∀ d ∈ b.list, ∃ m n q, s.dso d = { b.dso d with mark := m, nodelete := n, scope := q }
  scope : ∀ d ∈ b.list, (b.dso d).scope ≠ none → (s.dso d).scope ≠ none
  pinned : ∀ d ∈ b.list, (b.dso d).nodelete = true → (s.dso d).nodelete = true
  new : ∀ d ∈ s.list, d ∉ b.list → Plain (s.dso d) ∧ Reach s.depsOf h d
  fini : s.fini = b.fini
  exitFns : s.exitFns = b.exitFns
  log : OnlyMarks b.log s.log
  order_nodup : order.Nodup
  mem_order : ∀ d, d ∈ order ↔ d ∈ s.list ∧ d ∉ b.list
  succFirst : (∀ x, Reach s.depsOf h x → ∀ y ∈ s.depsOf x, ¬ Reach s.depsOf y x) →
    SuccFirst s.depsOf (· ∈ b.list) order

theorem Ready.opened (hb : Wf b) (hR : Ready b h order s) : Opened b h order s := by
  have hG := hR.opening.grown
  refine ⟨hR.wf hb, fun hS => hR.reaches hb hS, fun hL => hR.linked hb hL, hG.list, hR.opening.mem,
    ?_, fun d hd => ?_, fun d hd hn => ?_, hG.pinned,
    fun d hd hdb => ⟨hR.opening.plain d hd hdb, hR.opening.needed d hd hdb⟩, hG.fini,
    hG.exitFns, hG.log, hR.order_nodup, hR.mem_order, hR.succFirst⟩
  · obtain ⟨q, hq, -⟩ := hR.scope
    rw [hq]
    exact Option.some_ne_none q
  · obtain ⟨m, n, hmn⟩ := hG.old d hd
    exact ⟨m, n, (b.dso d).scope, hmn⟩
  · obtain ⟨m, n, hmn⟩ := hG.old d hd
    rwa [hmn]

theorem Reopened.scope_cases (hb : Wf b) (hR : Reopened b h s) {x : Id} (hx : x ∈ b.list)
    {q : List Id} (hq : (s.dso x).scope = Option.some q) :
    (b.dso x).scope = Option.some q ∨
    ((∀ d ∈ q, Reach b.depsOf x d) ∧ (marks s.log < 2 ^ 32 → BreadthFirst b.depsOf x q)) := by
  rcases hR.eq with rfl | ⟨-, rfl⟩
  · exact .inl hq
  · obtain ⟨-, hlog, hne, q', hq', hqsub, hbf⟩ :=
      scan_spec (fun _ => False) (s := nextGen b) hb.closed hR.mem fun h => h
    by_cases hxh : x = h
    · subst hxh
      rw [hq'] at hq
      cases hq
      exact .inr ⟨hqsub, fun hlt => hbf hb.nodup (mark_ne_nextGen hb.marked (hlog ▸ hlt))⟩
    · rw [hne x hxh] at hq
      exact .inl hq

theorem Reopened.edits (hb : Wf b) (hR : Reopened b h s) :
    Edits (fun _ => False) exceptScope b s := by
  rcases hR.eq with rfl | ⟨-, rfl⟩
  · exact .refl _
  · exact (Edits.nextGen b).trans
      (scan_spec (fun _ => False) (s := nextGen b) hb.closed hR.mem fun h => h).1

theorem Reopened.reaches (hb : Wf b) (hS : Scoped b) (hR : Reopened b h s) : Scoped s := by
  have hE := hR.edits hb
  intro x hx q hq d hd
  rw [hE.list] at hx
  rw [hE.depsOf fun _ => rfl]
  rcases hR.scope_cases hb hx hq with h1 | ⟨h1, -⟩
  · exact hS x hx q h1 d hd
  · exact h1 d hd

theorem Reopened.linked (hb : Wf b) (hL : Linked b) (hR : Reopened b h s) : Linked s := by
  have hE := hR.edits hb
  have hdeps : s.depsOf = b.depsOf := hE.depsOf fun _ => rfl
  refine ⟨fun x hx q hq => ⟨hR.reaches hb hL.reaches x hx q hq, fun hlt => ?_⟩,
    fun hlt d hd e he => ?_⟩
  · rw [hE.list] at hx
    rw [hdeps]
    rcases hR.scope_cases hb hx hq with h1 | ⟨-, h1⟩
    · exact (hL.scopes x hx q h1).2 (lt_of_le_of_lt hE.log.le hlt)
    · exact h1 hlt
  · rw [hE.list] at hd ⊢
    rw [hE.field Dso.bound (fun _ => rfl)] at he
    rw [hdeps, hE.field Dso.nodelete (fun _ => rfl), hE.field Dso.permanent fun _ => rfl]
    exact hL.bindings (lt_of_le_of_lt hE.log.le hlt) d hd e he

theorem Reopened.opened (hb : Wf b) (hR : Reopened b h s) : Opened b h [] s := by
  have hE := hR.edits hb
  have hnew : ∀ d, d ∈ ([] : List Id) ↔ d ∈ b.list ∧ d ∉ b.list := fun d =>
    ⟨fun h => absurd h List.not_mem_nil, fun h => absurd h.1 h.2⟩
  refine ⟨hb.edits hE (fun _ => rfl) fun _ => rfl, fun hS => hR.reaches hb hS, fun hL =>
    hR.linked hb hL, hE.list ▸ List.prefix_refl _, hE.list ▸ hR.mem, hR.some, fun d hd => ?_,
    fun d hd hn => ?_, fun d _ hn => (hE.field Dso.nodelete (fun _ => rfl) d).trans hn,
    fun d hd hdb => absurd (hE.list ▸ hd) hdb, hE.fini, hE.exitFns, hE.log, List.nodup_nil,
    hE.list ▸ hnew, fun _ => .nil⟩
  · refine ⟨(s.dso d).mark, (b.dso d).nodelete, (s.dso d).scope, ?_⟩
    have hsame : exceptScope (s.dso d) = exceptScope (b.dso d) := hE.same d
    have hrest : ∀ o : Dso, o = { exceptScope o with mark := o.mark, scope := o.scope } :=
      fun _ => rfl
    conv_lhs => rw [hrest (s.dso d), hsame]
    rfl
  · rcases hR.eq with rfl | ⟨hnone, rfl⟩
    · exact hn
    · by_cases hdh : d = h
      · exact absurd (hdh ▸ hnone) hn
      · obtain ⟨-, -, hne, -⟩ :=
          scan_spec (fun _ => False) (s := nextGen b) hb.closed hR.mem fun h => h
        rwa [hne d hdh]

/-! ## The whole call -/

theorem commit_dso (h : Id) (mode : Mode) (s : State) (d : Id) :
    (commit h mode s).dso d = { s.dso d with
      opens := if d = h then toInt ((s.dso d).opens + 1) else (s.dso d).opens
      refcnt := if d ∈ s.scopeOf h then toInt ((s.dso d).refcnt + 1) else (s.dso d).refcnt
      isGlobal :=
        if d ∈ s.scopeOf h then (s.dso d).isGlobal || mode.isGlobal else (s.dso d).isGlobal
      nodelete := if d = h then (s.dso d).nodelete || mode.nodelete else (s.dso d).nodelete } := by
  have hscope : (s.modify h fun o => { o with opens := toInt (o.opens + 1) }).scopeOf h =
      s.scopeOf h := by rw [State.scopeOf, State.modify_self]; rfl
  unfold commit
  simp only [hscope]
  by_cases hd : d = h
  · subst hd
    rw [State.record_dso, State.modify_self, State.modifyAll_dso, State.modify_self]
    by_cases hq : d ∈ s.scopeOf d
    · simp [hq]
    · simp [hq]
  · rw [State.record_dso, State.modify_of_ne _ _ hd, State.modifyAll_dso, State.modify_of_ne _ _ hd]
    by_cases hq : d ∈ s.scopeOf h
    · simp [hq, hd]
    · simp [hq, hd]

theorem foldl_runInit : ∀ (order : List Id) (s : State),
    order.foldl (fun s d => runInit d s) s = { s with
      dso := fun d => if d ∈ order then { s.dso d with inited := true } else s.dso d
      fini := order.reverse ++ s.fini
      log := (order.map Event.init).reverse ++ s.log }
  | [], s => by simp
  | a :: l, s => by
    rw [List.foldl_cons, foldl_runInit l]
    have hdso : ∀ d, (if d ∈ l then { (runInit a s).dso d with inited := true }
        else (runInit a s).dso d) =
        if d ∈ a :: l then { s.dso d with inited := true } else s.dso d := by
      intro d
      by_cases hd : d = a <;> by_cases hl : d ∈ l <;> simp [runInit, State.modify, hd, hl]
    simp only [funext hdso]
    simp [runInit, State.modify]

/-- **`dlopen` up to the constructors.** It fails and is undone, or counts one more reference for a
handle that is loaded with all it needs. -/
theorem openPart_cases (w : World) (file : Name) (mode : Mode) (caller : Option Id) (hb : Wf b) :
    (∃ e s t, openPart w file mode caller b = (.error e, s) ∧
      openObjects w file mode.noload (callerOf b caller) b = .error e t ∧ RolledBack b t s) ∨
    ∃ h order s, openPart w file mode caller b = (.ok (h, order), commit h mode s) ∧
      Opened b h order s := by
  have hspec := openObjects_spec w file mode.noload (callerOf b caller) hb
  unfold openPart
  cases hx : openObjects w file mode.noload (callerOf b caller) b with
  | error e s => exact .inl ⟨e, _, s, rfl, rfl, (hspec.error hx).grown.rollback⟩
  | ok r s =>
    obtain ⟨h, order⟩ := r
    refine .inr ⟨h, order, s, rfl, ?_⟩
    rcases hspec.ok hx with ⟨ho, hR⟩ | hR
    · obtain rfl : order = [] := ho
      exact hR.opened hb
    · exact hR.opened hb

/-- **`dlopen`.** It does nothing, fails and is undone, or counts one more reference for a handle
that is loaded with all it needs. -/
theorem dlopen_cases (w : World) (file : Option Name) (mode : Mode) (caller : Option Id)
    (hb : Wf b) : (dlopen w file mode caller b).2 = b ∨
    ((dlopen w file mode caller b).1 = none ∧ ∃ f e t, file = some f ∧
      openObjects w f mode.noload (callerOf b caller) b = .error e t ∧
      RolledBack b t (dlopen w file mode caller b).2) ∨
    ∃ h order s, (dlopen w file mode caller b).1 = some h ∧ Opened b h order s ∧
      (dlopen w file mode caller b).2 = order.foldl (fun s d => runInit d s) (commit h mode s) := by
  unfold dlopen
  cases file with
  | none => exact .inl rfl
  | some file =>
    by_cases hmode : mode.lazyOrNow = true
    · simp only [hmode, if_true]
      rcases openPart_cases w file mode caller hb with ⟨e, s, t, hx, hR⟩ | ⟨h, order, s, hx, hO⟩
      · rw [hx]
        exact .inr (.inl ⟨rfl, file, e, t, rfl, hR⟩)
      · rw [hx]
        exact .inr (.inr ⟨h, order, s, rfl, hO, rfl⟩)
    · simp only [hmode]
      exact .inl rfl

end Citadel.Ldso
