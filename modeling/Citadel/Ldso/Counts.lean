import Citadel.Ldso.Bindings
import Citadel.Lib.Weight

/-!
# Reference counts

* `counts_exact`: over every run of calls that are not made from inside one another, as long as
  fewer than 2³² closures were marked and fewer than 2³¹ handles are open, the reference counts are
  exact (`Exact`) and `dlclose` unloads in order (`UnloadsInOrder`).
* `refcnt_overflows`: with 2³¹ open handles a reference count overflows.
-/

namespace Citadel.Ldso

open Citadel.Lib.Fallible Citadel.Lib.Graph Citadel.Lib.Transition Citadel.Lib.Weight List

/-! ## What is counted -/

/-- The sum over the handles whose dependency closure holds `d` of how often they are open. -/
noncomputable def references (s : State) (d : Id) : ℤ :=
  weight s.list (fun h => Reach s.depsOf h d) fun h => (s.dso h).opens

/-- An object that is not unloaded even if nothing needs it. -/
def Root (s : State) (d : Id) : Prop :=
  (s.dso d).permanent = true ∨ (s.dso d).nodelete = true ∨ (s.dso d).tlsId ≠ 0 ∨
    0 < (s.dso d).refcnt

/-- The reference counts, the closures of the handles and the loaded objects are as they should be.
-/
structure Exact (s : State) : Prop where
  refcnt : ∀ d ∈ s.list, (s.dso d).refcnt = references s d
  handle : ∀ h ∈ s.list, (s.dso h).opens ≠ 0 → (s.dso h).scope ≠ none
  scope : ∀ h ∈ s.list, ∀ q, (s.dso h).scope = some q → BreadthFirst s.depsOf h q
  loaded : ∀ d, d ∈ s.list ↔ ∃ r ∈ s.list, Root s r ∧ Reach s.depsOf r d

/-- The objects whose destructors were started, in this order. -/
def destructed (l : List Event) : List Id :=
  (l.filterMap fun e => match e with
    | .fini d => some d
    | _ => none).reverse

/-- What a `dlclose` from `s` to `s'` did: it ran the destructors of the objects that are gone, in
the reverse order of their constructors, and after that it unmapped them. -/
def UnloadsInOrder (s s' : State) : Prop :=
  ∃ us new, s'.log = us ++ (new ++ s.log) ∧ (∀ e ∈ us, ∃ d o, e = .unmap d o) ∧
    (∀ d o, Event.unmap d o ∉ new) ∧ (∀ d, (∃ o, Event.unmap d o ∈ us) ↔ d ∈ s.list ∧ d ∉ s'.list) ∧
    destructed new = (running s.log).filter (· ∉ s'.list)

/-- The handles that are open: how often one was opened and not closed again. -/
def openCount : List Event → ℤ
  | [] => 0
  | .opened _ :: l => openCount l + 1
  | .closed _ :: l => openCount l - 1
  | _ :: l => openCount l

/-- Fewer than 2³² closures were marked and fewer than 2³¹ handles are open. -/
def Within (s : State) : Prop := marks s.log < 2 ^ 32 ∧ openCount s.log < 2 ^ 31

/-! ## Arithmetic -/

theorem toInt_eq {x : ℤ} (h1 : -2 ^ 31 ≤ x) (h2 : x < 2 ^ 31) : toInt x = x :=
  Int.bmod_eq_of_le (by omega) (by omega)

def Event.handles : Event → Bool
  | .opened _ => true
  | .closed _ => true
  | _ => false

theorem openCount_append {m l : List Event} (hm : ∀ e ∈ m, e.handles = false) :
    openCount (m ++ l) = openCount l := by
  induction m with
  | nil => rfl
  | cons e m ih =>
    have he := hm e mem_cons_self
    rw [← ih fun x hx => hm x (mem_cons_of_mem e hx), cons_append]
    cases e with
    | opened d | closed d => cases he
    | _ => rfl

theorem openCount_onlyMarks {l l' : List Event} (h : OnlyMarks l l') :
    openCount l' = openCount l := by
  obtain ⟨n, rfl⟩ := h
  exact openCount_append fun e he => by rw [eq_of_mem_replicate he]; rfl

/-! ## The invariant -/

variable {s s' : State} {h : Id}

structure Tallied (s : State) : Prop where
  nonneg : ∀ h ∈ s.list, 0 ≤ (s.dso h).opens
  refcnt : ∀ d ∈ s.list, (s.dso d).refcnt = references s d
  total : weight s.list (fun _ => True) (fun h => (s.dso h).opens) = openCount s.log

/-- Every object is needed by one that stands for itself. -/
def Rooted (s : State) : Prop := ∀ d ∈ s.list, ∃ r ∈ s.list, Root s r ∧ Reach s.depsOf r d

theorem Tallied.exact (ht : Tallied s) (hr : Rooted s) (hs : Idle s) (hlt : marks s.log < 2 ^ 32) :
    Exact s := by
  refine ⟨ht.refcnt, hs.opened, fun h hh q hq => (hs.linked.scopes h hh q hq).2 hlt, fun d =>
    ⟨hr d, ?_⟩⟩
  rintro ⟨r, hr, -, hrd⟩
  exact hrd.closed hs.wf.closed hr

theorem Tallied.opens_le (ht : Tallied s) (hh : h ∈ s.list) :
    (s.dso h).opens ≤ openCount s.log := by
  rw [← ht.total]
  exact le_weight ht.nonneg hh trivial

theorem Tallied.refcnt_bounds (ht : Tallied s) {d : Id} (hd : d ∈ s.list) :
    0 ≤ (s.dso d).refcnt ∧ (s.dso d).refcnt ≤ openCount s.log := by
  rw [ht.refcnt d hd, ← ht.total]
  exact ⟨weight_nonneg ht.nonneg, weight_mono ht.nonneg fun _ _ => trivial⟩

theorem Tallied.congr (ht : Tallied s) (hlist : s'.list = s.list) (hdeps : s'.depsOf = s.depsOf)
    (hsame : ∀ d ∈ s.list, (s'.dso d).refcnt = (s.dso d).refcnt ∧
      (s'.dso d).opens = (s.dso d).opens)
    (hlog : openCount s'.log = openCount s.log) : Tallied s' := by
  refine ⟨fun x hx => ?_, fun d hd => ?_, ?_⟩
  · rw [hlist] at hx
    rw [(hsame x hx).2]
    exact ht.nonneg x hx
  · rw [hlist] at hd
    rw [(hsame d hd).1, ht.refcnt d hd, references, references, hlist, hdeps]
    exact weight_congr (fun _ _ => .rfl) fun x hx => (hsame x hx).2.symm
  · rw [hlog, ← ht.total, hlist]
    exact weight_congr (fun _ _ => .rfl) fun x hx => (hsame x hx).2

theorem Rooted.congr (hr : Rooted s) (hlist : s'.list = s.list) (hdeps : s'.depsOf = s.depsOf)
    (hroot : ∀ d ∈ s.list, Root s d → Root s' d) : Rooted s' := by
  intro d hd
  rw [hlist] at hd ⊢
  obtain ⟨r, hr, hr', hrd⟩ := hr d hd
  exact ⟨r, hr, hroot r hr hr', hdeps ▸ hrd⟩

/-! ### A failed call -/

theorem Tallied.rolledBack {t : State} (hs : Idle s) (ht : Tallied s) (hr : Rooted s)
    (hR : RolledBack s t s') : Tallied s' ∧ Rooted s' := by
  obtain ⟨new, hlog, hnew⟩ := hR.events
  have hcount : openCount s'.log = openCount s.log := by
    rw [hlog]
    refine openCount_append fun x hx => ?_
    obtain rfl | ⟨d, o, rfl, -⟩ := hnew x hx <;> rfl
  refine ⟨ht.congr hR.list (hR.depsOf hs.wf) (fun d hd => ?_) hcount,
    hr.congr hR.list (hR.depsOf hs.wf) fun d hd hd' => ?_⟩
  all_goals obtain ⟨m, n, hmn⟩ := hR.old d hd
  · rw [hmn]
    exact ⟨rfl, rfl⟩
  · have hpin := hR.pinned d hd
    unfold Root
    rw [hmn] at hpin ⊢
    exact hd'.imp_right fun h => h.imp_left hpin

/-! ### Opening a handle -/

variable {order : List Id} {gone : Id → Bool} {k : ℕ}

theorem Opened.reach_iff {d e : Id} (hO : Opened s h order s') (hs : Closed s) (hd : d ∈ s.list) :
    Reach s'.depsOf d e ↔ Reach s.depsOf d e := by
  refine Reach.congr_iff (P := (· ∈ s.list)) hs (fun x hx => ?_) hd
  obtain ⟨m, n, q, hmn⟩ := hO.old x hx
  rw [State.depsOf, hmn]
  rfl

theorem Tallied.opened (hs : Idle s) (ht : Tallied s) (hO : Opened s h order s') : Tallied s' := by
  obtain ⟨r, hr⟩ := hO.list
  have hnew : ∀ d ∈ r, d ∈ s'.list ∧ d ∉ s.list := by
    intro d hd
    have hnd := hO.wf.nodup
    rw [← hr] at hnd ⊢
    exact ⟨mem_append_right _ hd, fun h => (nodup_append.mp hnd).2.2 d h d hd rfl⟩
  have hzero : ∀ d ∈ r, (s'.dso d).opens = 0 := fun d hd =>
    (hO.new d (hnew d hd).1 (hnew d hd).2).1.opens
  have hold : ∀ d ∈ s.list, (s'.dso d).refcnt = (s.dso d).refcnt ∧
      (s'.dso d).opens = (s.dso d).opens := by
    intro d hd
    obtain ⟨m, n, q, hmn⟩ := hO.old d hd
    rw [hmn]
    exact ⟨rfl, rfl⟩
  have hweight : ∀ P : Id → Prop, weight s'.list P (fun h => (s'.dso h).opens) =
      weight s.list P fun h => (s.dso h).opens := by
    intro P
    rw [← hr, weight_append, weight_eq_zero (l := r) fun d hd _ => hzero d hd, add_zero]
    exact weight_congr (fun _ _ => .rfl) fun d hd => (hold d hd).2
  refine ⟨fun d hd => ?_, fun d hd => ?_, ?_⟩
  · by_cases hds : d ∈ s.list
    · rw [(hold d hds).2]
      exact ht.nonneg d hds
    · exact (hO.new d hd hds).1.opens.ge
  · rw [references, hweight]
    by_cases hds : d ∈ s.list
    · rw [(hold d hds).1, ht.refcnt d hds]
      exact weight_congr (fun x hx => (hO.reach_iff hs.wf.closed hx).symm) fun _ _ => rfl
    · rw [(hO.new d hd hds).1.refcnt]
      refine (weight_eq_zero fun x hx hxd => ?_).symm
      exact absurd (((hO.reach_iff hs.wf.closed hx).mp hxd).closed hs.wf.closed hx) hds
  · rw [hweight, ht.total, openCount_onlyMarks hO.log]

theorem commit_opens (h : Id) (mode : Mode) (s : State) (d : Id) : ((commit h mode s).dso d).opens =
    if d = h then toInt ((s.dso d).opens + 1) else (s.dso d).opens := by
  rw [commit_dso]

theorem commit_refcnt (h : Id) (mode : Mode) (s : State) (d : Id) :
    ((commit h mode s).dso d).refcnt = if d ∈ s.scopeOf h then toInt ((s.dso d).refcnt + 1)
      else (s.dso d).refcnt := by
  rw [commit_dso]

theorem commit_depsOf (h : Id) (mode : Mode) (s : State) : (commit h mode s).depsOf = s.depsOf :=
  funext fun d => by rw [State.depsOf, commit_dso]; rfl

section

variable (ht : Tallied s) (hnd : s.list.Nodup) (hh : h ∈ s.list)
  (hscope : ∀ d, d ∈ s.scopeOf h ↔ Reach s.depsOf h d)
include ht hnd hh hscope

/-- `k` references more or less for the objects in the closure of the handle. -/
theorem Tallied.shift {k : ℤ} (hk : -1 ≤ k)
    (hge : 0 ≤ (s.dso h).opens + k) (hlt : openCount s.log + k < 2 ^ 31) (hlist : s'.list = s.list)
    (hdeps : s'.depsOf = s.depsOf)
    (hopens : ∀ d, (s'.dso d).opens = if d = h then toInt ((s.dso d).opens + k)
      else (s.dso d).opens)
    (hrefcnt : ∀ d, (s'.dso d).refcnt =
      if d ∈ s.scopeOf h then toInt ((s.dso d).refcnt + k) else (s.dso d).refcnt)
    (hlog : openCount s'.log = openCount s.log + k) :
    Tallied s' ∧ ∀ d ∈ s.list, (s'.dso d).refcnt =
      if d ∈ s.scopeOf h then (s.dso d).refcnt + k else (s.dso d).refcnt := by
  have hop : ∀ x ∈ s.list, (s'.dso x).opens =
      if x = h then (s.dso x).opens + k else (s.dso x).opens := by
    intro x hx
    have h1 := ht.opens_le hx
    rw [hopens]
    split_ifs with hxh
    · rw [hxh] at h1 ⊢
      exact toInt_eq (by omega) (by omega)
    · rfl
  have hcnt : ∀ d ∈ s.list, (s'.dso d).refcnt =
      if d ∈ s.scopeOf h then (s.dso d).refcnt + k else (s.dso d).refcnt := by
    intro d hd
    obtain ⟨h1, h2⟩ := ht.refcnt_bounds hd
    rw [hrefcnt, toInt_eq (by omega) (by omega)]
  have hweight : ∀ P : Id → Prop, weight s'.list P (fun x => (s'.dso x).opens) = weight s.list P
      fun x => if x = h then (s.dso x).opens + k else (s.dso x).opens := by
    intro P
    rw [hlist]
    exact weight_congr (fun _ _ => .rfl) hop
  refine ⟨⟨fun x hx => ?_, fun d hd => ?_, ?_⟩, hcnt⟩
  · rw [hlist] at hx
    have h1 := ht.nonneg x hx
    rw [hop x hx]
    split_ifs with hxh
    · exact hxh ▸ hge
    · exact h1
  · rw [hlist] at hd
    have hrd := ht.refcnt d hd
    rw [references] at hrd
    rw [hcnt d hd, references, hdeps, hweight, weight_update hnd hh, ← hrd]
    by_cases hd' : d ∈ s.scopeOf h
    · rw [if_pos hd', if_pos ((hscope d).mp hd')]
    · rw [if_neg hd', if_neg fun h' => hd' ((hscope d).mpr h'), add_zero]
  · rw [hweight, weight_update hnd hh, if_pos trivial, ht.total, hlog]

theorem Tallied.committed (hlt : openCount s.log + 1 < 2 ^ 31)
    (mode : Mode) : Tallied (commit h mode s) ∧ ∀ d ∈ s.list, ((commit h mode s).dso d).refcnt =
      if d ∈ s.scopeOf h then (s.dso d).refcnt + 1 else (s.dso d).refcnt := by
  have hge := ht.nonneg h hh
  exact ht.shift hnd hh hscope (by omega) (by omega) hlt rfl (commit_depsOf h mode s)
    (commit_opens h mode s) (commit_refcnt h mode s) rfl

end

theorem Opened.mem_scopeOf (hL : Linked s) (hO : Opened s h order s') (hlt : marks s'.log < 2 ^ 32)
    (d : Id) : d ∈ s'.scopeOf h ↔ Reach s'.depsOf h d := by
  obtain ⟨q, hq⟩ := Option.ne_none_iff_exists'.mp hO.some
  rw [State.scopeOf, hq]
  exact (((hO.linked hL).scopes h hO.mem q hq).2 hlt).mem_iff d

theorem log_opens (order : List Id) (h : Id) (mode : Mode) (s : State) :
    marks (inits order (commit h mode s)).log = marks s.log ∧
      openCount (inits order (commit h mode s)).log = openCount s.log + 1 := by
  rw [(inits_rest order _).2.2, commit_log, marks_append (by simp),
    marks_cons (e := .opened h) nofun, openCount_append (by simp [Event.handles])]
  exact ⟨rfl, rfl⟩

theorem Tallied.opens {mode : Mode} (hs : Idle s) (ht : Tallied s) (hr : Rooted s)
    (hO : Opened s h order s') (hW : Within (inits order (commit h mode s'))) :
    Tallied (inits order (commit h mode s')) ∧ Rooted (inits order (commit h mode s')) := by
  obtain ⟨hmarks, hcount⟩ := log_opens order h mode s'
  have hlt : marks s'.log < 2 ^ 32 := hmarks ▸ hW.1
  have hscope := hO.mem_scopeOf hs.linked hlt
  have hT := ht.opened hs hO
  obtain ⟨hC, hcom⟩ := hT.committed hO.wf.nodup hO.mem hscope (hcount ▸ hW.2) mode
  have hlist : (inits order (commit h mode s')).list = s'.list := (inits_rest order _).1
  refine ⟨hC.congr hlist (inits_depsOf order _) (fun d _ => ?_) hcount, ?_⟩
  · rw [inits_dso]
    exact ⟨rfl, rfl⟩
  have hdeps : (inits order (commit h mode s')).depsOf = s'.depsOf := by
    rw [inits_depsOf, commit_depsOf]
  have hcnt : ∀ d ∈ s'.list, ((inits order (commit h mode s')).dso d).refcnt =
      if d ∈ s'.scopeOf h then (s'.dso d).refcnt + 1 else (s'.dso d).refcnt := by
    intro d hd
    rw [inits_dso]
    exact hcom d hd
  have hroot : ∀ d ∈ s'.list, Root s' d → Root (inits order (commit h mode s')) d := by
    intro d hd
    have hc := hcnt d hd
    unfold Root
    rw [inits_dso, commit_dso] at hc ⊢
    rintro (h1 | h1 | h1 | h1)
    · exact .inl h1
    · refine .inr (.inl ?_)
      change (if d = h then (s'.dso d).nodelete || mode.nodelete else (s'.dso d).nodelete) = true
      rw [h1]
      split_ifs <;> rfl
    · exact .inr (.inr (.inl h1))
    · refine .inr (.inr (.inr ?_))
      rw [hc]
      split_ifs <;> omega
  intro d hd
  rw [hlist] at hd ⊢
  rw [hdeps]
  by_cases hds : d ∈ s.list
  · -- an old object has its old root
    obtain ⟨r, hrs, hrr, hrd⟩ := hr d hds
    refine ⟨r, hO.list.subset hrs, hroot r (hO.list.subset hrs) ?_, ?_⟩
    · obtain ⟨m, n, q, hmn⟩ := hO.old r hrs
      have hpin := hO.pinned r hrs
      unfold Root at hrr ⊢
      rw [hmn] at hpin ⊢
      exact hrr.imp_right fun h => h.imp_left hpin
    · exact (hO.reach_iff hs.wf.closed hrs).mpr hrd
  · -- a new one is needed by the handle
    refine ⟨h, hO.mem, .inr (.inr (.inr ?_)), (hO.new d hd hds).2⟩
    have := (hT.refcnt_bounds hO.mem).1
    rw [hcnt h hO.mem, if_pos ((hscope h).mpr (Reach.refl h))]
    omega

/-! ### Closing a handle -/

theorem Tallied.released (ht : Tallied s) (hnd : s.list.Nodup) (hh : h ∈ s.list)
    (hop : (s.dso h).opens ≠ 0) (hscope : ∀ d, d ∈ s.scopeOf h ↔ Reach s.depsOf h d)
    (hlt : openCount s.log < 2 ^ 31) :
    Tallied ((release h s).record (.closed h)) ∧ ∀ d ∈ s.list, ((release h s).dso d).refcnt =
      if d ∈ s.scopeOf h then (s.dso d).refcnt - 1 else (s.dso d).refcnt := by
  have hge := ht.nonneg h hh
  exact ht.shift (k := -1) hnd hh hscope le_rfl (by omega) (by omega) rfl (release_depsOf h s)
    (fun d => (congrArg Dso.opens (release_dso h s d) :))
    (fun d => (congrArg Dso.refcnt (release_dso h s d) :)) rfl

theorem Closes.openCount_log (hC : Closes h gone s s') :
    openCount s'.log = openCount s.log - 1 := by
  obtain ⟨l, -, hlog⟩ := hC.log
  rw [hlog, openCount_append (by grind [Event.handles]), openCount_append (by simp [Event.handles]),
    openCount_append (by grind [Event.handles])]
  rfl

theorem Idle.mem_scopeOf (hs : Idle s) (hh : h ∈ s.list) (hop : (s.dso h).opens ≠ 0)
    (hlt : marks s.log < 2 ^ 32) (d : Id) : d ∈ s.scopeOf h ↔ Reach s.depsOf h d := by
  obtain ⟨q, hq⟩ := Option.ne_none_iff_exists'.mp (hs.opened h hh hop)
  rw [State.scopeOf, hq]
  exact ((hs.linked.scopes h hh q hq).2 hlt).mem_iff d

section

variable (hs : Idle s) (ht : Tallied s) (hW : Within s) (hh : h ∈ s.list)
  (hop : (s.dso h).opens ≠ 0) (hC : Closes h gone s s')
include hs ht hW hh hop hC

theorem Tallied.closes : Tallied s' := by
  obtain ⟨hT, hcnt⟩ := ht.released hs.wf.nodup hh hop (hs.mem_scopeOf hh hop hW.1) hW.2
  have hmem : ∀ d, d ∈ s'.list ↔ d ∈ s.list ∧ gone d = false := fun d => hC.mem_list
  -- an object that is unloaded is not an open handle
  have hzero : ∀ d ∈ s.list, (!gone d) = false → ((release h s).dso d).opens = 0 := by
    intro d hd hg
    obtain ⟨hdq, h1, -⟩ := (hs.dropped_iff hd).mp (hC.dropped (by simpa using hg))
    have h2 := ht.refcnt_bounds hd
    have h3 := hW.2
    rw [toInt_eq (by omega) (by omega)] at h1
    have h4 : ((release h s).dso d).refcnt = 0 := by
      rw [hcnt d hd, if_pos hdq]
      exact h1
    have h5 : ((release h s).dso d).opens ≤ references ((release h s).record (.closed h)) d :=
      le_weight hT.nonneg (a := d) hd (.refl d)
    have h6 := hT.refcnt d hd
    have h7 := hT.nonneg d hd
    change ((release h s).dso d).refcnt = _ at h6
    change 0 ≤ ((release h s).dso d).opens at h7
    omega
  have hkept : ∀ d ∈ s'.list, (s'.dso d).opens = ((release h s).dso d).opens ∧
      (s'.dso d).refcnt = ((release h s).dso d).refcnt := by
    intro d hd
    rw [hC.kept d ((hmem d).mp hd).2]
    exact ⟨rfl, rfl⟩
  have hweight : ∀ P : Id → Prop, weight s'.list P (fun x => (s'.dso x).opens) =
      weight s.list P fun x => ((release h s).dso x).opens := by
    intro P
    rw [weight_congr (fun _ _ => Iff.rfl) fun x hx => (hkept x hx).1, hC.list,
      weight_filter _ hzero]
  refine ⟨fun d hd => ?_, fun d hd => ?_, ?_⟩
  · rw [(hkept d hd).1]
    exact hT.nonneg d ((hmem d).mp hd).1
  · rw [(hkept d hd).2]
    refine (hT.refcnt d ((hmem d).mp hd).1).trans ?_
    calc references ((release h s).record (.closed h)) d
        = weight s.list (fun x => Reach s.depsOf x d) fun x => ((release h s).dso x).opens := by
          refine weight_congr (fun x _ => ?_) fun _ _ => rfl
          change Reach (release h s).depsOf x d ↔ _
          rw [release_depsOf]
      _ = weight s'.list (fun x => Reach s.depsOf x d) fun x => (s'.dso x).opens := (hweight _).symm
      _ = references s' d := by
          refine weight_congr (fun x hx => ?_) fun _ _ => rfl
          obtain ⟨hxs, hxg⟩ := (hmem x).mp hx
          exact (hC.reach_iff hs.wf.closed hxs hxg).symm
  · rw [hweight, hC.openCount_log]
    exact hT.total

theorem Rooted.closes (hr : Rooted s) : Rooted s' := by
  have hscope := hs.mem_scopeOf hh hop hW.1
  obtain ⟨-, hcnt⟩ := ht.released hs.wf.nodup hh hop hscope hW.2
  have hmem : ∀ d, d ∈ s'.list ↔ d ∈ s.list ∧ gone d = false := fun d => hC.mem_list
  -- an object that is not doomed at first and stands for itself still does
  have hroot : ∀ r ∈ s.list, ¬ Dropped h s r →
      ((s.dso r).permanent = true ∨ (s.dso r).nodelete = true ∨ (s.dso r).tlsId ≠ 0 ∨
        0 < ((release h s).dso r).refcnt) → r ∈ s'.list ∧ Root s' r := by
    intro r hrs hn hr'
    have hg : gone r = false := Bool.eq_false_iff.mpr fun hg => hn (hC.dropped hg)
    refine ⟨(hmem r).mpr ⟨hrs, hg⟩, ?_⟩
    unfold Root
    rw [hC.field hg Dso.permanent fun _ _ _ _ => rfl, hC.field hg Dso.nodelete fun _ _ _ _ => rfl,
      hC.field hg Dso.tlsId fun _ _ _ _ => rfl, hC.kept r hg]
    exact hr'
  have hstays : ∀ a ∈ s.list, ¬ Dropped h s a → ∃ r ∈ s'.list, Root s' r ∧ Reach s.depsOf r a := by
    intro a ha hn
    by_cases haq : a ∈ s.scopeOf h
    · -- its last reference was not given back, or it stands for itself
      have h1 := ht.refcnt_bounds ha
      have h2 := hW.2
      have h3 : 1 ≤ (s.dso a).refcnt := by
        rw [ht.refcnt a ha]
        have h4 := ht.nonneg h hh
        have h5 : (s.dso h).opens ≤ references s a :=
          le_weight ht.nonneg (a := h) hh ((hscope a).mp haq)
        omega
      obtain ⟨hr1, hr2⟩ := hroot a ha hn (by
        rw [hs.dropped_iff ha, toInt_eq (by omega) (by omega)] at hn
        rw [hcnt a ha, if_pos haq]
        by_contra hnot
        push Not at hnot
        refine hn ⟨haq, by omega, ?_, ?_, hnot.2.2.1⟩
        · exact Bool.eq_false_iff.mpr hnot.1
        · exact Bool.eq_false_iff.mpr hnot.2.1)
      exact ⟨a, hr1, hr2, .refl a⟩
    · -- its root is not in the closure of the handle either
      obtain ⟨r, hrs, hrr, hra⟩ := hr a ha
      have hrq : r ∉ s.scopeOf h := fun hrq =>
        haq ((hscope a).mpr (((hscope r).mp hrq).trans hra))
      obtain ⟨hr1, hr2⟩ := hroot r hrs (fun h' => hrq ((hs.dropped_iff hrs).mp h').1) (by
        rw [hcnt r hrs, if_neg hrq]
        exact hrr)
      exact ⟨r, hr1, hr2, hra⟩
  intro d hd
  obtain ⟨hds, hg⟩ := (hmem d).mp hd
  obtain ⟨a, ha, had, hn⟩ : ∃ a ∈ s.list, Reach s.depsOf a d ∧ ¬ Dropped h s a := by
    by_contra hnot
    push Not at hnot
    exact Bool.eq_false_iff.mp hg ((hC.gone_iff d).mpr ⟨hds, hnot⟩)
  obtain ⟨r, hr1, hr2, hra⟩ := hstays a ha hn
  obtain ⟨hrs, hrg⟩ := (hmem r).mp hr1
  exact ⟨r, hr1, hr2, (hC.reach_iff hs.wf.closed hrs hrg).mpr (hra.trans had)⟩

end

/-- The destructors run in the reverse order of the constructors, and before anything is unmapped.
-/
theorem Closes.inOrder (hs : Idle s) (hC : Closes h gone s s') : UnloadsInOrder s s' := by
  obtain ⟨l, -, hlog⟩ := hC.log
  refine ⟨((s.list.filter gone).map fun d => Event.unmap d ((doom h s).dso d)).reverse,
    l.map Event.handler ++ ((s.fini.filter gone).map Event.fini).reverse ++ [.closed h], ?_, ?_, ?_,
    fun d => ?_, ?_⟩
  · rw [hlog]
    simp only [append_assoc, singleton_append]
  · intro e he
    obtain ⟨d, -, rfl⟩ := mem_map.mp (mem_reverse.mp he)
    exact ⟨d, _, rfl⟩
  · simp
  · rw [hC.mem_list]
    constructor
    · rintro ⟨o, ho⟩
      obtain ⟨x, hx, hxd⟩ := mem_map.mp (mem_reverse.mp ho)
      obtain ⟨rfl, -⟩ := Event.unmap.inj hxd
      obtain ⟨h1, h2⟩ := mem_filter.mp hx
      exact ⟨h1, fun h' => Bool.eq_false_iff.mp h'.2 h2⟩
    · rintro ⟨h1, h2⟩
      have hg : gone d = true := by
        by_contra hn
        exact h2 ⟨h1, Bool.eq_false_iff.mpr hn⟩
      exact ⟨_, mem_reverse.mpr (mem_map_of_mem (mem_filter.mpr ⟨h1, hg⟩))⟩
  · simp only [destructed, filterMap_append, ← map_reverse, filterMap_map, Function.comp_def,
      filterMap_some, filterMap_cons, filterMap_nil, filterMap_none, nil_append, append_nil,
      reverse_reverse, hs.log]
    refine filter_congr fun d hd => ?_
    have hds := (hs.mem_fini d).mp hd
    have hiff : d ∈ s'.list ↔ gone d = false := hC.mem_list.trans (and_iff_right hds)
    cases hg : gone d <;> simp [hiff, hg]

theorem Idle.unloadsInOrder (hs : Idle s) (p : Id) : UnloadsInOrder s (dlclose p s).2 := by
  have hrefl : UnloadsInOrder s s := by
    refine ⟨[], [], rfl, by simp, by simp, fun d => by simp, ?_⟩
    symm
    refine filter_eq_nil_iff.mpr fun d hd => ?_
    rw [hs.log] at hd
    simpa using (hs.mem_fini d).mp hd
  rcases hs.closes_or p with h1 | ⟨-, -, gone, hC⟩
  · rwa [h1]
  · exact hC.inOrder hs

/-! ## Runs -/

theorem Tallied.step (hs : Idle s) (ht : Tallied s) (hr : Rooted s) (hW : Within s) (c : Call)
    (hW' : Within (call s c).2) : Tallied (call s c).2 ∧ Rooted (call s c).2 := by
  cases c with
  | dlopen w file mode caller =>
    change Within (dlopen w file mode caller s).2 at hW'
    change Tallied (dlopen w file mode caller s).2 ∧ Rooted (dlopen w file mode caller s).2
    rcases dlopen_cases w file mode caller hs.wf with h1 | ⟨-, _, _, _, -, -, h1⟩ |
      ⟨h, order, s', -, h1, h2⟩
    · rw [h1]
      exact ⟨ht, hr⟩
    · exact ht.rolledBack hs hr h1
    · rw [h2] at hW' ⊢
      exact ht.opens hs hr h1 hW'
  | dlclose p =>
    change Tallied (dlclose p s).2 ∧ Rooted (dlclose p s).2
    rcases hs.closes_or p with h1 | ⟨hp, hop, gone, hC⟩
    · rw [h1]
      exact ⟨ht, hr⟩
    · exact ⟨ht.closes hs hW hp hop hC, hr.closes hs ht hW hp hop hC⟩
  | dlsym p n caller => exact ⟨ht, hr⟩
  | atexit f =>
    exact ⟨ht.congr rfl rfl (fun _ _ => ⟨rfl, rfl⟩) rfl, hr.congr rfl rfl fun _ _ h => h⟩
  | pin d =>
    change Tallied (dlPin d s) ∧ Rooted (dlPin d s)
    rw [dlPin_eq]
    refine ⟨ht.congr rfl rfl (fun _ _ => ⟨rfl, rfl⟩) rfl, hr.congr rfl rfl fun x _ hx => ?_⟩
    exact hx.imp_right fun h => h.imp_left fun hn => by simp [hn]

theorem tallied_started (hs : Started s) : Tallied s ∧ Rooted s := by
  obtain ⟨order, s₀, hB, rfl⟩ := begun_of_started hs
  have hzero : ∀ P : Id → Prop, weight s₀.list P (fun h => (s₀.dso h).opens) = 0 := fun P =>
    weight_eq_zero fun d hd _ => (hB.static d hd).2.1
  have hT : Tallied s₀ := by
    refine ⟨fun d hd => (hB.static d hd).2.1.ge, fun d hd => ?_, ?_⟩
    · rw [references, hzero]
      exact (hB.static d hd).1
    · rw [hzero, openCount_onlyMarks hB.log]
      rfl
  have hlist : (inits order s₀).list = s₀.list := (inits_rest order s₀).1
  refine ⟨hT.congr hlist (inits_depsOf order s₀) (fun d _ => ?_) ?_,
    fun d hd => ⟨d, hd, .inl ?_, .refl d⟩⟩
  · rw [inits_dso]
    exact ⟨rfl, rfl⟩
  · rw [(inits_rest order s₀).2.2, openCount_append (by simp [Event.handles])]
  · rw [inits_dso]
    exact (hB.static d (hlist ▸ hd)).2.2.2.2.1

/-- **Reference counting is exact** as long as the counts of markings and of open handles fit. -/
theorem counts_exact {cs : List Call} (hs : Started s)
    (hcs : Always step (fun s _ => Within s) s [] cs) :
    Always step (fun s _ => Exact s ∧ ∀ p, UnloadsInOrder s (dlclose p s).2) s [] cs := by
  have h0 : Idle s ∧ Tallied s ∧ Rooted s := ⟨idle_started hs, tallied_started hs⟩
  have hinv : Always step (fun s _ => (Idle s ∧ Tallied s ∧ Rooted s) ∧ Within s) s [] cs := by
    refine .of_always (C := fun s _ => Within s) ?_ ⟨h0, hcs.head⟩ hcs
    rintro s h c s' o ⟨⟨hI, hT, hR⟩, -⟩ hW hstep hW'
    obtain ⟨rfl, -⟩ := step_eq_some hstep
    exact ⟨⟨hI.step c, hT.step hI hR hW c hW'⟩, hW'⟩
  refine hinv.mono fun s _ hs => ⟨hs.1.2.1.exact hs.1.2.2 hs.1.1 hs.2.1, fun p => ?_⟩
  exact hs.1.1.unloadsInOrder p

theorem within_plugin : Always step (fun s _ => Within s) plainStart []
    [.dlopen pluginWorld (some [112]) {} none, .dlclose 2] := by
  have h0 : Within plainStart := ⟨by decide, by decide⟩
  have h1 : Within (call plainStart (.dlopen pluginWorld (some [112]) {} none)).2 :=
    ⟨by decide, by decide⟩
  refine ⟨h0, fun s o hs => ?_⟩
  obtain ⟨rfl, -⟩ := step_eq_some hs
  refine ⟨h1, fun s o hs => ?_⟩
  obtain ⟨rfl, -⟩ := step_eq_some hs
  exact ⟨by decide, by decide⟩

theorem counts_exact_plugin :
    (Started plainStart ∧ Always step (fun s _ => Within s) plainStart []
      [.dlopen pluginWorld (some [112]) {} none, .dlclose 2]) ∧
    Always step (fun s _ => Exact s ∧ ∀ p, UnloadsInOrder s (dlclose p s).2) plainStart []
      [.dlopen pluginWorld (some [112]) {} none, .dlclose 2] :=
  ⟨⟨started_plainStart, within_plugin⟩, counts_exact started_plainStart within_plugin⟩

/-! ## Without the bounds -/

theorem openObjects_loaded (w : World) {file : Name} (caller : Id) (hf : findLoaded s file = some h)
    (hh : h ≠ self) (hsc : (s.dso h).scope ≠ none) :
    openObjects w file false caller s = .ok (h, []) s := by
  have hload : openFile w file false caller s = .ok h s := by
    change loadLibrary w file caller true s = _
    rw [loadLibrary, get_bind, hf]
    change EStateM.Result.ok h (if h = self then listSelf s else s) = _
    rw [if_neg hh]
  have hrest : openRest w s.list.length h s = .ok [] s := by
    rw [openRest, get_bind, if_neg (Nat.lt_irrefl _)]
    rfl
  have hscope : makeScope w h s = .ok () s := by
    rw [makeScope, get_bind, if_pos (Option.isSome_iff_ne_none.mpr hsc)]
    rfl
  rw [openObjects, get_bind, bind_ok hload, bind_ok hrest, bind_ok hscope]
  rfl

/-- A handle that is there with its closure is only counted. -/
theorem dlopen_loaded (w : World) {file : Name} (caller : Option Id)
    (hf : findLoaded s file = some h)
    (hh : h ≠ self) (hsc : (s.dso h).scope ≠ none) :
    dlopen w (some file) {} caller s = (some h, commit h {} s) := by
  have ho := openObjects_loaded w (callerOf s caller) hf hh hsc
  simp only [dlopen, if_true, openPart, ho, foldl_nil]

theorem findLoaded_commit (h : Id) (mode : Mode) (s : State) (n : Name) :
    findLoaded (commit h mode s) n = findLoaded s n := by
  unfold findLoaded
  simp only [commit_dso]
  rfl

/-- `libq` is open once and `libp`, which needs it, `k` times. -/
structure OpenTwice (k : ℕ) (s : State) : Prop where
  list : s.list = [app, self, 2, 3]
  found : findLoaded s [112] = some 3
  scope : (s.dso 3).scope = some [3, 2]
  opens : (s.dso app).opens = 0 ∧ (s.dso self).opens = 0 ∧ (s.dso 2).opens = 1
  libp : (s.dso 3).opens = k
  libq : (s.dso 2).refcnt = k + 1

theorem OpenTwice.scopeOf (hs : OpenTwice k s) : s.scopeOf 3 = [3, 2] := by
  rw [State.scopeOf, hs.scope]
  rfl

theorem OpenTwice.call (hs : OpenTwice k s) :
    (call s (.dlopen pluginWorld (some [112]) {} none)).2 = commit 3 {} s := by
  have hd : dlopen pluginWorld (some [112]) {} none s = (some 3, commit 3 {} s) :=
    dlopen_loaded pluginWorld none hs.found (by decide)
      (by rw [hs.scope]; exact Option.some_ne_none _)
  change (dlopen pluginWorld (some [112]) {} none s).2 = _
  rw [hd]

theorem OpenTwice.step (hk : k + 2 < 2 ^ 31) (hs : OpenTwice k s) :
    OpenTwice (k + 1) (commit 3 {} s) := by
  have h3 : ¬ (2 : Id) = 3 := by decide
  refine ⟨hs.list, (findLoaded_commit 3 {} s _).trans hs.found, ?_, ⟨?_, ?_, ?_⟩, ?_, ?_⟩
  · rw [commit_dso]
    exact hs.scope
  · rw [commit_opens, if_neg (by decide)]
    exact hs.opens.1
  · rw [commit_opens, if_neg (by decide)]
    exact hs.opens.2.1
  · rw [commit_opens, if_neg h3]
    exact hs.opens.2.2
  · rw [commit_opens, if_pos rfl, hs.libp, toInt_eq (by omega) (by omega)]
    omega
  · rw [commit_refcnt, hs.scopeOf, if_pos (by decide), hs.libq, toInt_eq (by omega) (by omega)]
    omega

theorem openTwice_one :
    OpenTwice 1 (call (call plainStart (.dlopen pluginWorld (some [113]) {} none)).2
      (.dlopen pluginWorld (some [112]) {} none)).2 :=
  ⟨by decide, by decide, by decide, by decide, by decide, by decide⟩

theorem OpenTwice.overflow (hs : OpenTwice (2 ^ 31 - 2) s) : ¬ Exact (commit 3 {} s) := by
  intro hE
  have hlist : (commit 3 {} s).list = [app, self, 2, 3] := hs.list
  have h2 : (2 : Id) ∈ (commit 3 {} s).list := by
    rw [hlist]
    decide
  have hneg : ((commit 3 {} s).dso 2).refcnt = -2 ^ 31 := by
    rw [commit_refcnt, hs.scopeOf, if_pos (by decide), hs.libq]
    decide
  have hpos : 0 ≤ references (commit 3 {} s) 2 := by
    refine weight_nonneg fun d hd => ?_
    rw [hlist] at hd
    simp only [mem_cons, not_mem_nil, or_false] at hd
    rw [commit_opens]
    rcases hd with rfl | rfl | rfl | rfl
    · rw [if_neg (by decide), hs.opens.1]
    · rw [if_neg (by decide), hs.opens.2.1]
    · rw [if_neg (by decide), hs.opens.2.2]
      decide
    · rw [if_pos rfl, hs.libp]
      decide
  have := hE.refcnt 2 h2
  omega

/-- After `k` further calls the counts are still exact, or there were too many of them. -/
def Counting (k : ℕ) (s : State) : Prop :=
  (k < 2 ^ 31 - 2 → OpenTwice (k + 1) s) ∧ (k = 2 ^ 31 - 2 → ¬ Exact s)

theorem Counting.round (hk : k < 2 ^ 31 - 2) (hs : Counting k s) :
    Counting (k + 1) (Ldso.call s (.dlopen pluginWorld (some [112]) {} none)).2 := by
  have hs' := hs.1 hk
  rw [hs'.call]
  refine ⟨fun hlt => hs'.step (by omega), fun heq => ?_⟩
  rw [heq] at hs'
  exact hs'.overflow

/-- **A reference count overflows**: `libq` is opened once, and `libp`, which needs it, is opened
2³¹ - 1 times. -/
theorem refcnt_overflows : Started plainStart ∧
    ¬ Always step (fun s _ => Exact s ∧ ∀ p, UnloadsInOrder s (dlclose p s).2) plainStart []
      (.dlopen pluginWorld (some [113]) {} none :: .dlopen pluginWorld (some [112]) {} none ::
        List.replicate (2 ^ 31 - 2) (.dlopen pluginWorld (some [112]) {} none)) := by
  refine ⟨started_plainStart, fun h => ?_⟩
  have hround : ∀ k s, k < 2 ^ 31 - 2 → Counting k s → ∃ s' o,
      step s (.dlopen pluginWorld (some [112]) {} none) = some (s', o) ∧ Counting (k + 1) s' :=
    fun k s hk hs => ⟨_, _, rfl, hs.round hk⟩
  have hone : Counting 0 (call (call plainStart (.dlopen pluginWorld (some [113]) {} none)).2
      (.dlopen pluginWorld (some [112]) {} none)).2 := ⟨fun _ => openTwice_one, nofun⟩
  obtain ⟨s', h', hJ, hP⟩ := Always.replicate hround (2 ^ 31 - 2) (Nat.zero_add _).le hone
    ((h.2 _ _ rfl).2 _ _ rfl)
  exact hJ.2 (Nat.zero_add _) hP.1

end Citadel.Ldso
