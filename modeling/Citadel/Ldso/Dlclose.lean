import Citadel.Ldso.Phases

/-!
# What `dlclose` does

* `keepAll_eq`: the objects that stay are those that some object which is not doomed needs.
* `doom_eq`: `dlclose` up to the destructors.
* `finis_eq`, `handlers_eq`: the destructors run in the order of the list `fini`, then the handlers.
* `dlclose_cases`: the whole call, for code that does not itself call the linker.
-/

namespace Citadel.Ldso

open Citadel.Lib.Graph List Function Option Bool

variable {s : State} {h : Id}

/-! ## What stays -/

theorem keepWalk_lawful : keepWalk.Lawful where
  seen_enter _ b s := State.modify_flag (s := s) (fun o => !o.doomed)
    (f := fun o => { o with doomed := false }) (fun _ => rfl) b
  succ_enter _ b s := congrArg (getD · [])
    (State.modify_field (s := s) Dso.deps
      (f := fun o => { o with doomed := false }) (fun _ => rfl) b)
  seen_leave _ _ _ := rfl
  succ_leave _ _ _ := rfl

/-- The state in which these objects are doomed. -/
def withDoomed (k : Id → Bool) (s : State) : State :=
  { s with dso := fun d => { s.dso d with doomed := k d } }

theorem keepAll_eq_spread (s : State) : keepAll s = spread keepWalk s.list.length s.list s := by
  have hkeep : ∀ {e : Id} {u : State}, u.list = s.list →
      (dfs keepWalk s.list.length e u).list = s.list :=
    dfs_rule (P := fun v : State => v.list = s.list) (U := fun _ => True)
      (fun _ _ _ _ _ _ => trivial) (fun _ _ _ _ h => h) (fun _ _ _ h => h) _ trivial
  refine foldl_congr_of (P := fun t : State => t.list = s.list) (fun t d ht => ?_) s.list rfl
  have hfold : keepDeps d t = (t.depsOf d).foldl (fun u e => dfs keepWalk s.list.length e u) t :=
    foldl_congr_of (P := fun u : State => u.list = s.list) (fun u e hu =>
      ⟨by rw [hu], hkeep hu⟩) _ ht
  rw [show keepWalk.seen t d = !(t.dso d).doomed from rfl]
  cases (t.dso d).doomed with
  | true => exact ⟨rfl, ht⟩
  | false => exact ⟨hfold, foldlRecOn (motive := fun u : State => u.list = s.list) _ _ ht
      fun _ hu _ _ => hkeep hu⟩

theorem keepAll_eq (hs : Closed s) : ∃ k : Id → Bool, keepAll s = withDoomed k s ∧
    (∀ d ∈ s.list, k d = false ↔ ∃ a ∈ s.list, (s.dso a).doomed = false ∧ Reach s.depsOf a d) ∧
    ∀ d, d ∉ s.list → k d = (s.dso d).doomed := by
  rw [keepAll_eq_spread]
  obtain ⟨k, hk, hout⟩ := spread_rule (W := keepWalk) (n := s.list.length)
    (P := fun t => ∃ k, t = withDoomed k s ∧ ∀ d, d ∉ s.list → k d = (s.dso d).doomed)
    (U := (· ∈ s.list))
    (by
      rintro t ⟨k, rfl, -⟩ a ha b hb
      exact hs a ha b hb)
    (by
      rintro a t ha - ⟨k, rfl, hout⟩
      refine ⟨update k a false, ?_, fun d hd => ?_⟩
      · change (withDoomed k s).modify a (fun o => { o with doomed := false }) = _
        unfold State.modify withDoomed
        congr 1
        funext d
        by_cases hd : d = a
        · subst hd
          rw [update_self, update_self]
        · rw [update_of_ne hd, update_of_ne hd]
      · rw [update_of_ne (ne_of_mem_of_not_mem ha hd).symm]
        exact hout d hd)
    (fun _ _ _ ht => ht) s.list (fun _ _ a ha _ => ha) (s := s)
    ⟨fun d => (s.dso d).doomed, rfl, fun _ _ => rfl⟩
  refine ⟨k, hk, fun d hd => ?_, hout⟩
  have hiff := seen_spread_iff keepWalk_lawful (U := s.list) (s := s) hs
    (unseen_le s.list s) hd
  rw [hk] at hiff
  change (!k d) = true ↔ ∃ a ∈ s.list, (!(s.dso a).doomed) = true ∧ Reach s.depsOf a d at hiff
  simpa only [not_eq_true'] using hiff

/-! ## Up to the destructors -/

/-- The references of the handle are given back. -/
def release (h : Id) (s : State) : State :=
  (s.modify h fun o => { o with opens := toInt (o.opens - 1) }).modifyAll (s.scopeOf h) unref

theorem doom_eq_release (h : Id) (s : State) :
    doom h s = (keepAll (release h s)).record (.closed h) := by
  have hscope : (s.modify h fun o => { o with opens := toInt (o.opens - 1) }).scopeOf h =
      s.scopeOf h := by rw [State.scopeOf, State.modify_self]; rfl
  unfold doom release
  simp only [hscope]

theorem release_dso (h : Id) (s : State) (d : Id) :
    (release h s).dso d = { s.dso d with
      opens := if d = h then toInt ((s.dso d).opens - 1) else (s.dso d).opens
      refcnt := if d ∈ s.scopeOf h then toInt ((s.dso d).refcnt - 1) else (s.dso d).refcnt
      doomed := if d ∈ s.scopeOf h then (unref (s.dso d)).doomed else (s.dso d).doomed } := by
  rw [release, State.modifyAll_dso]
  by_cases hd : d = h
  · subst hd
    rw [State.modify_self]
    by_cases hq : d ∈ s.scopeOf d <;> simp [hq, unref]
  · rw [State.modify_of_ne _ _ hd]
    by_cases hq : d ∈ s.scopeOf h <;> simp [hq, hd, unref]

theorem release_depsOf (h : Id) (s : State) : (release h s).depsOf = s.depsOf :=
  funext fun d => by rw [State.depsOf, release_dso]; rfl

/-- An object that is doomed before the dependencies of what stays are kept. -/
def Dropped (h : Id) (s : State) (d : Id) : Prop := ((release h s).dso d).doomed = true

theorem doom_eq (hs : Closed s) (h : Id) : ∃ k : Id → Bool,
    doom h s = (withDoomed k (release h s)).record (.closed h) ∧
    (∀ d ∈ s.list, k d = false ↔ ∃ a ∈ s.list, ¬ Dropped h s a ∧ Reach s.depsOf a d) ∧
    ∀ d, d ∉ s.list → k d = ((release h s).dso d).doomed := by
  have hdeps := release_depsOf h s
  have hclosed : Closed (release h s) := hs.congr rfl hdeps
  obtain ⟨k, hk, hin, hout⟩ := keepAll_eq hclosed
  refine ⟨k, by rw [doom_eq_release, hk], fun d hd => ?_, hout⟩
  rw [hin d hd, hdeps]
  simp only [Dropped, not_eq_true]
  rfl

/-! ## Destructors and handlers -/

theorem finis_eq : ∀ (n : ℕ) {s : State}, s.fini.length ≤ n → s.fini.Nodup →
    finis n s = { s with
      fini := s.fini.filter fun d => !(s.dso d).doomed
      log := ((s.fini.filter fun d => (s.dso d).doomed).map Event.fini).reverse ++ s.log }
  | 0, s, hn, _ => by
    have hnil : s.fini = [] := length_eq_zero_iff.mp (by omega)
    rw [finis, hnil]
    conv_lhs => rw [show s = { s with fini := [], log := s.log } by rw [← hnil]]
    simp
  | n + 1, s, hn, hnd => by
    rw [finis, nextFini]
    cases hf : s.fini.find? fun d => (s.dso d).doomed with
    | none =>
      have hall : ∀ d ∈ s.fini, (s.dso d).doomed = false := by simpa using hf
      rw [filter_eq_self.mpr fun d hd => by rw [hall d hd]; rfl,
        filter_eq_nil_iff.mpr fun d hd => by rw [hall d hd]; exact Bool.false_ne_true]
      simp
    | some d =>
      obtain ⟨hd, u, v, huv, hu⟩ := List.find?_eq_some_iff_append.mp hf
      have hdu : d ∉ u := by
        rw [huv] at hnd
        exact fun h => (nodup_append.mp hnd).2.2 d h d mem_cons_self rfl
      have herase : s.fini.erase d = u ++ v := by
        rw [huv, erase_append_right _ hdu, erase_cons_head]
      have hlen : (u ++ v).length ≤ n := by
        rw [huv] at hn
        simp only [length_append, length_cons] at hn ⊢
        omega
      have hnd' : (u ++ v).Nodup := herase ▸ hnd.erase d
      have hunone : u.filter (fun d => (s.dso d).doomed) = [] :=
        filter_eq_nil_iff.mpr fun x hx => by simpa using hu x hx
      rw [map_some]
      dsimp only
      rw [herase,
        finis_eq n (s := { s with fini := u ++ v, log := Event.fini d :: s.log }) hlen hnd', huv]
      simp only [filter_append, filter_cons, hd, hunone, Bool.not_true, if_true, if_false,
        nil_append, map_cons, reverse_cons, append_assoc, singleton_append,
        false_eq_true]

theorem exitFnsInRange_eq (d : Id) : ∀ (i : ℕ) (s : State), ∃ es n,
    exitFnsInRange d i s = { s with exitFns := es, log := List.replicate n (.handler d) ++ s.log }
  | 0, s => ⟨s.exitFns, 0, rfl⟩
  | i + 1, s => by
    rw [exitFnsInRange]
    by_cases hi : (s.exitFns[i]?).any (inRange d) = true
    · rw [if_pos hi]
      obtain ⟨es, n, h⟩ := exitFnsInRange_eq d i (callHandler d i s)
      refine ⟨es, n + 1, ?_⟩
      rw [h, replicate_succ', append_assoc]
      rfl
    · rw [if_neg hi]
      exact exitFnsInRange_eq d i s

theorem handlers_eq (s : State) : ∃ es, ∃ l : List Id,
    handlers s = { s with exitFns := es, log := l.map Event.handler ++ s.log } ∧
      ∀ d ∈ l, d ∈ s.list ∧ (s.dso d).doomed = true := by
  refine foldlRecOn (motive := fun t : State => ∃ es, ∃ l : List Id,
    t = { s with exitFns := es, log := l.map Event.handler ++ s.log } ∧
      ∀ d ∈ l, d ∈ s.list ∧ (s.dso d).doomed = true) _ _ ⟨s.exitFns, [], rfl, by simp⟩ ?_
  rintro t ⟨es, l, rfl, hl⟩ d hd
  split_ifs with hdoom
  · obtain ⟨es', n, h⟩ := exitFnsInRange_eq d es.length
      { s with exitFns := es, log := l.map .handler ++ s.log }
    refine ⟨es', List.replicate n d ++ l, ?_, fun x hx => ?_⟩
    · rw [h, map_append, map_replicate, append_assoc]
    · rcases mem_append.mp hx with hx | hx
      · rw [eq_of_mem_replicate hx]
        exact ⟨hd, hdoom⟩
      · exact hl x hx
  · exact ⟨es, l, rfl, hl⟩

/-! ## The whole call -/

/-- What a `dlclose` of `h` that succeeds does, where the objects in `gone` are unloaded. The new
events are the destructors in the order of `fini`, the handlers, and at last the unmappings. -/
structure Closes (h : Id) (gone : Id → Bool) (s s' : State) : Prop where
  gone_iff : ∀ d, gone d = true ↔ d ∈ s.list ∧ ∀ a ∈ s.list, Reach s.depsOf a d → Dropped h s a
  list : s'.list = s.list.filter fun d => !gone d
  kept : ∀ d, gone d = false → s'.dso d = { (release h s).dso d with doomed := false }
  freed : ∀ d, gone d = true → s'.dso d = {}
  fini : s'.fini = s.fini.filter fun d => !gone d
  markGen : s'.markGen = s.markGen
  tls : s'.tls = s.tls
  started : s'.started = s.started
  log : ∃ l : List Id, (∀ d ∈ l, gone d = true) ∧ s'.log =
    ((s.list.filter gone).map fun d => Event.unmap d ((doom h s).dso d)).reverse ++
      (l.map Event.handler ++ (((s.fini.filter gone).map Event.fini).reverse ++ .closed h :: s.log))

theorem unload_eq (hfini : s.fini.Nodup) : ∃ es, ∃ l : List Id,
    (∀ d ∈ l, d ∈ s.list ∧ (s.dso d).doomed = true) ∧ unload s = { s with
      list := s.list.filter fun d => !(s.dso d).doomed
      dso := fun d => if d ∈ s.list ∧ (s.dso d).doomed then {} else s.dso d
      fini := s.fini.filter fun d => !(s.dso d).doomed
      exitFns := es
      log := ((s.list.filter fun d => (s.dso d).doomed).map fun d =>
          Event.unmap d (s.dso d)).reverse ++ (l.map Event.handler ++
          (((s.fini.filter fun d => (s.dso d).doomed).map Event.fini).reverse ++ s.log)) } := by
  unfold unload
  rw [finis_eq s.fini.length le_rfl hfini]
  obtain ⟨es, l, h, hl⟩ := handlers_eq { s with
    fini := s.fini.filter fun d => !(s.dso d).doomed
    log := ((s.fini.filter fun d => (s.dso d).doomed).map .fini).reverse ++ s.log }
  refine ⟨es, l, hl, ?_⟩
  rw [h]
  rfl

/-- **`dlclose`.** It does nothing, or it gives back one reference and unloads the objects that no
object which stays needs. -/
theorem dlclose_cases (hs : Closed s) (hfini : s.fini.Nodup)
    (hclean : ∀ d, d ∉ s.list → s.dso d = {}) (hq : ∀ d ∈ s.scopeOf h, d ∈ s.list) :
    (dlclose h s).2 = s ∨ (h ∈ s.list ∧ h ≠ app ∧ (s.dso h).opens ≠ 0 ∧ (dlclose h s).1 = 0 ∧
      ∃ gone : Id → Bool, Closes h gone s (dlclose h s).2) := by
  by_cases hh : h ∈ s.list
  swap
  · exact .inl (by rw [dlclose, if_neg hh])
  by_cases happ : h = app
  · exact .inl (by rw [dlclose, if_pos hh, if_pos happ])
  by_cases hopens : (s.dso h).opens = 0
  · exact .inl (by rw [dlclose, if_pos hh, if_neg happ, if_pos hopens])
  have hdef : dlclose h s = if (doom h s).list.any fun d => ((doom h s).dso d).doomed then
      (0, unload (doom h s)) else (0, doom h s) := by
    rw [dlclose, if_pos hh, if_neg happ, if_neg hopens]
  obtain ⟨k, hk, hin, hout⟩ := doom_eq hs h
  have hkout : ∀ d, d ∉ s.list → k d = false := by
    intro d hd
    rw [hout d hd, release_dso, hclean d hd]
    exact if_neg fun h' => hd (hq d h')
  have hgone : ∀ d, k d = true ↔ d ∈ s.list ∧
      ∀ a ∈ s.list, Reach s.depsOf a d → Dropped h s a := by
    intro d
    by_cases hd : d ∈ s.list
    · have := hin d hd
      rw [← not_eq_false, this]
      push Not
      refine ⟨fun h' => ⟨hd, fun a ha hr => ?_⟩, fun h' a ha hn hr => hn (h'.2 a ha hr)⟩
      by_contra hn
      exact h' a ha hn hr
    · rw [hkout d hd]
      exact ⟨fun h' => absurd h' Bool.false_ne_true, fun h' => absurd h'.1 hd⟩
  obtain ⟨hlist, hfin, hlog, hgen, htls, hst⟩ :
      (doom h s).list = s.list ∧ (doom h s).fini = s.fini ∧ (doom h s).log = .closed h :: s.log ∧
        (doom h s).markGen = s.markGen ∧
      (doom h s).tls = s.tls ∧ (doom h s).started = s.started := by
    rw [hk]
    exact ⟨rfl, rfl, rfl, rfl, rfl, rfl⟩
  have hdso : ∀ d, (doom h s).dso d = { (release h s).dso d with doomed := k d } :=
    fun d => hk ▸ rfl
  have hdoomed : ∀ d, ((doom h s).dso d).doomed = k d := fun d => by rw [hdso]
  refine .inr ⟨hh, happ, hopens, by rw [hdef]; split_ifs <;> rfl, k, ?_⟩
  rw [hdef]
  simp only [hlist, hdoomed]
  by_cases hany : s.list.any k = true
  · rw [if_pos hany]
    obtain ⟨es, l, hl, hu⟩ := unload_eq (s := doom h s) (hfin ▸ hfini)
    simp only [hlist, hfin, hdoomed, hlog] at hl hu
    rw [hu]
    refine ⟨hgone, rfl, fun d hd => ?_, fun d hd => ?_, rfl, hgen, htls, hst, l,
      fun d hd => (hl d hd).2, rfl⟩
    · change (if d ∈ s.list ∧ k d = true then {} else (doom h s).dso d) = _
      rw [if_neg fun h' => by rw [hd] at h'; exact Bool.false_ne_true h'.2, hdso, hd]
    · exact if_pos ⟨((hgone d).mp hd).1, hd⟩
  · rw [if_neg hany]
    have hnone : ∀ d, k d = false := by
      intro d
      by_cases hd : d ∈ s.list
      · rw [eq_false_iff]
        exact fun h' => hany (any_eq_true.mpr ⟨d, hd, h'⟩)
      · exact hkout d hd
    obtain rfl : k = fun _ => false := funext hnone
    exact ⟨hgone, by simp [hlist], fun d _ => hdso d, fun d hd => absurd hd Bool.false_ne_true,
      by simp [hfin], hgen, htls, hst, [], by simp, by simp [hlog]⟩

namespace Closes

variable {gone : Id → Bool} {s' : State} {d e : Id}

section

variable (hC : Closes h gone s s')
include hC

theorem mem_list : d ∈ s'.list ↔ d ∈ s.list ∧ gone d = false := by
  rw [hC.list, mem_filter]
  cases gone d <;> simp

theorem stays (hd : d ∈ s.list) (hg : gone d = false)
    (hr : Reach s.depsOf d e) : gone e = false := by
  refine eq_false_iff.mpr fun he => ?_
  have hall := ((hC.gone_iff e).mp he).2
  refine eq_false_iff.mp hg ((hC.gone_iff d).mpr ⟨hd, fun a ha had => ?_⟩)
  exact hall a ha (had.trans hr)

theorem dropped (hg : gone d = true) : Dropped h s d :=
  ((hC.gone_iff d).mp hg).2 d ((hC.gone_iff d).mp hg).1 (.refl d)

theorem gone_of_unmap :
    ∃ new, s'.log = new ++ s.log ∧ ∀ e o, Event.unmap e o ∈ new → gone e = true := by
  obtain ⟨l, -, hlog⟩ := hC.log
  rw [append_cons _ (.closed h) s.log, ← append_assoc, ← append_assoc] at hlog
  refine ⟨_, hlog, fun e o he => ?_⟩
  have he' : (e ∈ s.list ∧ gone e = true) ∧ (doom h s).dso e = o := by simpa using he
  exact he'.1.2

theorem field {κ : Type} (hg : gone d = false) (g : Dso → κ)
    (hrel : ∀ (o : Dso) (a b : ℤ) (c : Bool),
      g { o with opens := a, refcnt := b, doomed := c } = g o) : g (s'.dso d) = g (s.dso d) := by
  rw [hC.kept d hg, release_dso]
  exact hrel (s.dso d) (if d = h then _ else _) (if d ∈ s.scopeOf h then _ else _) false

theorem depsOf_eq (hg : gone d = false) : s'.depsOf d = s.depsOf d :=
  congrArg (getD · []) (hC.field hg Dso.deps fun _ _ _ _ => rfl)

theorem reach_iff (hs : Closed s) (hd : d ∈ s.list) (hg : gone d = false) :
    Reach s'.depsOf d e ↔ Reach s.depsOf d e :=
  Reach.congr_iff (P := fun x => x ∈ s.list ∧ gone x = false)
    (fun x hx y hy => ⟨hs x hx.1 y hy, hC.stays hx.1 hx.2 (.step hy)⟩)
    (fun _ hx => hC.depsOf_eq hx.2) ⟨hd, hg⟩

end

end Closes

end Citadel.Ldso
