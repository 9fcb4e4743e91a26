import Citadel.Ldso.Phases

/-!
# Loading an object with its dependencies
-/

namespace Citadel.Ldso

open Citadel.Lib.Graph Citadel.Lib.Fallible List Function Option

/-! ## The loop over the list -/

def setDeps (ds : Option (List Id) → Option (List Id)) (o : Dso) : Dso :=
  { o with deps := ds o.deps }

section
variable {w : World} {o : Dso} {P : ℕ → State → Prop} {E : State → Prop}

theorem loadNeeded_rule {i : ℕ} {d : Id} (direct : Bool)
    (herr : ∀ s, P (i + 1) s → E s)
    (hadd : ∀ s e s', P (i + 1) s → s.list[i]? = some d → Added s e s' →
      E s' ∧ s'.list[i]? = some d ∧
        P (i + 1) (s'.modify d (setDeps (Option.map (· ++ [e]))))) :
    ∀ (ns : List Name) {s : State}, P (i + 1) s → s.list[i]? = some d →
      Ends (loadNeeded w d direct ns) s (fun _ s' => P (i + 1) s' ∧ s'.list[i]? = some d) E
  | [], _, hs, hd => .pure ⟨hs, hd⟩
  | n :: ns, s, hs, hd => by
    rw [loadNeeded]
    refine .bind ((loadLibrary_spec w n d direct s).mono (fun e s' ha => ?_) ?_)
    · obtain ⟨-, hd', hP⟩ := hadd s e s' hs hd ha
      exact .bind (.update (loadNeeded_rule direct herr hadd ns hP hd'))
    · rintro s' (rfl | ⟨e, ha⟩)
      · exact herr s' hs
      · exact (hadd s e s' hs hd ha).1

/-- **The rule for `load_deps`.** `P i` is to hold when the objects in front of place `i` have
their dependencies, the last of them possibly not all of them yet. -/
theorem loadDeps_rule (lo : ℕ) (herr : ∀ i s, P i s → E s)
    (hskip : ∀ i s d, P i s → s.list[i]? = some d → (s.dso d).deps ≠ none → P (i + 1) s)
    (hbegin : ∀ i s d, P i s → s.list[i]? = some d → (s.dso d).deps = none →
      P (i + 1) (s.modify d (setDeps fun _ => some [])))
    (hadd : ∀ i d s e s', lo ≤ i → P (i + 1) s → s.list[i]? = some d → Added s e s' →
      E s' ∧ s'.list[i]? = some d ∧
        P (i + 1) (s'.modify d (setDeps (Option.map (· ++ [e]))))) :
    ∀ (n i : ℕ) {s : State}, lo ≤ i → P i s →
      Ends (loadDeps w n i) s (fun _ s' => ∃ j, P j s' ∧ s'.list.length ≤ j) E
  | 0, i, s, _, hs => .throw (herr i s hs)
  | n + 1, i, s, hi, hs => by
    rw [loadDeps]
    refine .get_bind ?_
    cases hd : s.list[i]? with
    | none => exact .pure ⟨i, hs, List.getElem?_eq_none_iff.mp hd⟩
    | some d =>
      have hrest : ∀ s', P (i + 1) s' →
          Ends (loadDeps w n (i + 1)) s' (fun _ s' => ∃ j, P j s' ∧ s'.list.length ≤ j) E :=
        fun s' hs' => loadDeps_rule lo herr hskip hbegin hadd n (i + 1) (by omega) hs'
      refine .bind ?_
      unfold loadDepsOf
      refine .get_bind (.ite (fun hsome => .pure (hrest s (hskip i s d hs hd ?_)))
        fun hnone => .ite (fun _ => .throw (herr i s hs)) fun _ => .bind (.update ?_))
      · rw [isSome_iff_ne_none] at hsome
        exact hsome
      · have hdn : (s.dso d).deps = none := by simpa using hnone
        have hrule := fun direct ns {s} => loadNeeded_rule (w := w) direct
          (herr (i + 1)) (fun s e s' => hadd i d s e s' hi) ns (s := s)
        refine .bind ((hrule true _ (hbegin i s d hs hd hdn) hd).mono ?_ fun _ h => h)
        rintro _ s₁ ⟨hs₁, hd₁⟩
        exact (hrule _ _ hs₁ hd₁).mono (fun _ s₂ h₂ => hrest s₂ h₂.1) fun _ h => h

end

/-! ## The dependencies of a new handle -/

/-- A new object, with what was loaded of its dependencies. -/
def IsLoading (o : Dso) : Prop := ∃ n ds, IsNew true n ∧ o = { n with deps := ds }

/-- Only the list and the records differ. -/
structure SameRest (b s : State) : Prop where
  fini : s.fini = b.fini
  markGen : s.markGen = b.markGen
  tls : s.tls = b.tls
  started : s.started = b.started
  exitFns : s.exitFns = b.exitFns
  log : s.log = b.log

/-- What holds while dependencies are loaded: the objects `first` stay as in `b`, all others are
`New`, and those in front of place `i` have their dependencies. `Hid` may not be listed yet. -/
structure Gathering (Hid : Id → Prop) (New : Dso → Prop) (first : List Id) (b : State) (i : ℕ)
    (s : State) : Prop where
  rest : SameRest b s
  list : first <+: s.list
  nodup : s.list.Nodup
  old : ∀ d ∈ first, s.dso d = b.dso d
  clean : ∀ d, d ∉ s.list → ¬ Hid d → s.dso d = {}
  le : first.length ≤ i
  new : ∀ d, d ∈ s.list ∨ Hid d → d ∉ first → New (s.dso d)
  set : ∀ o f, New o → New (setDeps f o)
  done : ∀ d ∈ s.list.take i, d ∉ first → (s.dso d).deps ≠ none ∧ ∀ e ∈ s.depsOf d, e ∈ s.list
  todo : ∀ d, d ∉ s.list.take i → (s.dso d).deps = none

/-- What holds while the dependencies of new objects are loaded. -/
abbrev Loads (b : State) : ℕ → State → Prop := Gathering (fun _ => False) IsLoading b.list b

/-- All new objects are needed by `h`. -/
def Needed (b : State) (h : Id) (s : State) : Prop :=
  ∀ d ∈ s.list, d ∉ b.list → Reach s.depsOf h d

theorem IsNew.loading (h : IsNew true o) : IsLoading o := ⟨o, o.deps, h, rfl⟩

theorem IsNew.deps (h : IsNew true o) : o.deps = none := by
  obtain ⟨p, n, dv, i, e, m, nd, rfl⟩ := h
  rfl

theorem depsOf_setDeps (s : State) (d x : Id) (f : Option (List Id) → Option (List Id)) :
    (s.modify d (setDeps f)).depsOf x = if x = d then (f (s.dso d).deps).getD []
      else s.depsOf x := by
  unfold State.depsOf
  split_ifs with hx
  · subst hx
    rw [State.modify_self, setDeps]
  · rw [State.modify_of_ne _ _ hx]

theorem IsLoading.setDeps (h : IsLoading o) (f : Option (List Id) → Option (List Id)) :
    IsLoading (setDeps f o) := by
  obtain ⟨n, ds, hn, rfl⟩ := h
  exact ⟨n, f ds, hn, rfl⟩

theorem Reach.mono {succ succ' : Id → List Id} (hs : ∀ x, ∀ y ∈ succ x, y ∈ succ' x) {a b : Id}
    (h : Reach succ a b) : Reach succ' a b :=
  Relation.ReflTransGen.mono hs a b h

theorem append_dso_of_ne {s : State} {e x : Id} (hx : x ≠ e) :
    (append e o s).dso x = s.dso x := update_of_ne hx ..

namespace Gathering

variable {Hid : Id → Prop} {New : Dso → Prop} {first : List Id} {b s : State} {d : Id} {i : ℕ}

theorem not_mem (hL : Gathering Hid New first b i s) {j : ℕ} (hj : first.length ≤ j)
    (hd : s.list[j]? = some d) : d ∉ first := by
  intro hmem
  obtain ⟨r, hr⟩ := hL.list
  have hnd := hL.nodup
  rw [← hr] at hnd hd
  rw [List.getElem?_append_right hj] at hd
  exact (nodup_append.mp hnd).2.2 d hmem d (mem_of_getElem? hd) rfl

theorem deps_none (hL : Gathering Hid New first b i s) (hd : s.list[i]? = some d) :
    (s.dso d).deps = none := by
  refine hL.todo d fun h => ?_
  obtain ⟨p, hp, hpd⟩ := mem_take_iff_getElem.mp h
  obtain ⟨hi, hid⟩ := List.getElem?_eq_some_iff.mp hd
  have := hL.nodup.getElem_inj_iff.mp (hpd.trans hid.symm)
  omega

theorem mem_take_succ (hd : s.list[i]? = some d) {x : Id} :
    x ∈ s.list.take (i + 1) ↔ x ∈ s.list.take i ∨ x = d := by
  rw [take_add_one, hd, mem_append]
  exact or_congr_right mem_singleton

theorem modify (hL : Gathering Hid New first b i s) {k : ℕ} (hik : i ≤ k) (hd : d ∈ s.list.take k)
    (hdb : d ∉ first) {f : Option (List Id) → Option (List Id)}
    (hdone : ∀ x ∈ s.list.take k, x ∉ first → ((s.modify d (setDeps f)).dso x).deps ≠ none ∧
      ∀ e ∈ (s.modify d (setDeps f)).depsOf x, e ∈ s.list) :
    Gathering Hid New first b k (s.modify d (setDeps f)) := by
  refine ⟨{ hL.rest with }, hL.list, hL.nodup, fun x hx => ?_, fun x hx hh => ?_,
    le_trans hL.le hik, ?_, hL.set, hdone, fun x hx => ?_⟩
  · rw [State.modify_of_ne _ _ (ne_of_mem_of_not_mem hx hdb)]
    exact hL.old x hx
  · rw [State.modify_of_ne _ _ (ne_of_mem_of_not_mem (mem_of_mem_take hd) hx).symm]
    exact hL.clean x hx hh
  · exact State.modify_cases (P := fun x o => x ∈ s.list ∨ Hid x → x ∉ first → New o)
      (fun hx hxb => hL.set _ f (hL.new d hx hxb)) fun x _ => hL.new x
  · rw [State.modify_of_ne _ _ (ne_of_mem_of_not_mem hd hx).symm]
    exact hL.todo x fun h => hx ((take_prefix_take_left hik).subset h)

theorem begins (hL : Gathering Hid New first b i s) (hd : s.list[i]? = some d) :
    Gathering Hid New first b (i + 1) (s.modify d (setDeps fun _ => some [])) ∧
      (s.modify d (setDeps fun _ => some [])).depsOf = s.depsOf := by
  have hnone := hL.deps_none hd
  have hdeps : (s.modify d (setDeps fun _ => some [])).depsOf = s.depsOf := by
    funext x
    rw [depsOf_setDeps]
    split_ifs with hx
    · rw [hx, State.depsOf, hnone]
      rfl
    · rfl
  refine ⟨hL.modify (Nat.le_succ i) ((mem_take_succ hd).mpr (.inr rfl)) (hL.not_mem hL.le hd)
    fun x hx hxb => ?_, hdeps⟩
  rw [hdeps]
  by_cases hxd : x = d
  · subst hxd
    rw [State.modify_self, State.depsOf, hnone]
    exact ⟨some_ne_none [], by simp⟩
  · rw [State.modify_of_ne _ _ hxd]
    exact hL.done x (((mem_take_succ hd).mp hx).resolve_right hxd) hxb

theorem addDep (hL : Gathering Hid New first b (i + 1) s) (hb : first.length ≤ i)
    (hd : s.list[i]? = some d) {e : Id} (he : e ∈ s.list) :
    Gathering Hid New first b (i + 1) (s.modify d (setDeps (Option.map (· ++ [e])))) ∧
      (s.modify d (setDeps (Option.map (· ++ [e])))).depsOf =
        fun x => if x = d then s.depsOf d ++ [e] else s.depsOf x := by
  have hdb := hL.not_mem hb hd
  have hdt : d ∈ s.list.take (i + 1) := (mem_take_succ hd).mpr (.inr rfl)
  obtain ⟨hsome, hsub⟩ := hL.done d hdt hdb
  obtain ⟨ds, hds⟩ := ne_none_iff_exists'.mp hsome
  have hdsd : s.depsOf d = ds := by rw [State.depsOf, hds]; rfl
  have hdeps : ∀ x, (s.modify d (setDeps (.map (· ++ [e])))).depsOf x =
      if x = d then s.depsOf d ++ [e] else s.depsOf x := by
    intro x
    rw [depsOf_setDeps, hds, hdsd]
    rfl
  refine ⟨hL.modify (le_refl _) hdt hdb fun x hx hxb => ?_, funext hdeps⟩
  rw [hdeps]
  by_cases hxd : x = d
  · subst hxd
    rw [if_pos rfl, State.modify_self, setDeps, hds]
    refine ⟨some_ne_none _, fun y hy => ?_⟩
    rcases mem_append.mp hy with hy | hy
    · exact hsub y hy
    · exact mem_singleton.mp hy ▸ he
  · rw [if_neg hxd, State.modify_of_ne _ _ hxd]
    exact hL.done x hx hxb

theorem grow (hL : Gathering Hid New first b i s) (hi : i ≤ s.list.length) {e : Id}
    (he : e ∉ s.list)
    (ho : New o) (hnone : o.deps = none) :
    Gathering Hid New first b i (append e o s) ∧ (append e o s).depsOf = s.depsOf := by
  have hself : (append e o s).dso e = o := update_self ..
  have hne : ∀ {x}, x ∈ s.list → (append e o s).dso x = s.dso x := fun hx =>
    append_dso_of_ne (ne_of_mem_of_not_mem hx he)
  have hdeps : (append e o s).depsOf = s.depsOf := by
    funext x
    unfold State.depsOf
    by_cases hx : x = e
    · rw [hx, hself, hnone, hL.todo e fun h => he (mem_of_mem_take h)]
    · rw [append_dso_of_ne hx]
  have hlist : (append e o s).list = s.list ++ [e] := rfl
  have htake : (append e o s).list.take i = s.list.take i := take_append_of_le_length hi
  refine ⟨⟨{ hL.rest with }, hL.list.trans (prefix_append ..), ?_, fun x hx => ?_,
    fun x hx hh => ?_, hL.le, fun x hx hxb => ?_, hL.set, fun x hx hxb => ?_, fun x hx => ?_⟩,
    hdeps⟩
  · rw [hlist, ← concat_eq_append]
    exact hL.nodup.concat he
  · rw [hne (hL.list.subset hx)]
    exact hL.old x hx
  · rw [hlist, mem_append, mem_singleton, not_or] at hx
    rw [append_dso_of_ne hx.2]
    exact hL.clean x hx.1 hh
  · by_cases hxe : x = e
    · rwa [hxe, hself]
    · rw [append_dso_of_ne hxe]
      refine hL.new x (hx.imp_left fun h => ?_) hxb
      exact (mem_append.mp h).resolve_right fun h => hxe (mem_singleton.mp h)
  · rw [htake] at hx
    rw [hne (mem_of_mem_take hx), hdeps, hlist]
    exact ⟨(hL.done x hx hxb).1, fun e he => mem_append_left _ ((hL.done x hx hxb).2 e he)⟩
  · rw [htake] at hx
    by_cases hxe : x = e
    · rwa [hxe, hself]
    · rw [append_dso_of_ne hxe]
      exact hL.todo x hx

theorem marked (hb : MarkInv b) (hL : Gathering Hid New first b i s)
    (hnew : ∀ o, New o → o.mark = 0 ∨ ∃ d, o.mark = (b.dso d).mark) : MarkInv s := by
  intro hlt
  rw [hL.rest.log] at hlt ⊢
  rw [hL.rest.markGen]
  obtain ⟨h1, h2⟩ := hb hlt
  refine ⟨h1, fun d => ?_⟩
  by_cases hdb : d ∈ first
  · rw [hL.old d hdb]
    exact h2 d
  by_cases hd : d ∈ s.list ∨ Hid d
  · rcases hnew _ (hL.new d hd hdb) with h | ⟨e, h⟩
    · exact h ▸ Nat.zero_le _
    · exact h ▸ h2 e
  · rw [not_or] at hd
    rw [hL.clean d hd.1 hd.2]
    exact Nat.zero_le _

end Gathering

/-! ## What failed loading leaves -/

/-- What every part of `dlopen` keeps of the state `b` before it, whether it fails or not: of the
objects that were there only marks change, and `nodelete` may be set. -/
structure Grown (b s : State) : Prop where
  list : b.list <+: s.list
  nodup : s.list.Nodup
  old : ∀ d ∈ b.list, ∃ m n, s.dso d = { b.dso d with mark := m, nodelete := n }
  pinned : ∀ d ∈ b.list, (b.dso d).nodelete = true → (s.dso d).nodelete = true
  clean : ∀ d, d ∉ s.list → s.dso d = {}
  fini : s.fini = b.fini
  exitFns : s.exitFns = b.exitFns
  started : s.started = b.started
  tls : TlsGrows b.tls s.tls
  log : OnlyMarks b.log s.log
  marked : MarkInv s

theorem Grown.depsOf {b s : State} (hG : Grown b s) {d : Id} (hd : d ∈ b.list) :
    s.depsOf d = b.depsOf d := by
  obtain ⟨m, n, hmn⟩ := hG.old d hd
  rw [State.depsOf, hmn]
  rfl

/-- A state of the loader between two calls that are not inside one another. -/
structure Wf (s : State) : Prop where
  nodup : s.list.Nodup
  app_mem : app ∈ s.list
  self_mem : self ∈ s.list
  closed : Closed s
  visited : ∀ d ∈ s.list, (s.dso d).visited = true
  clean : ∀ d, d ∉ s.list → s.dso d = {}
  started : s.started = true
  laid : Laid s.tls
  marked : MarkInv s

theorem IsLoading.mark (h : IsLoading o) : o.mark = 0 := by
  obtain ⟨n, ds, ⟨p, nm, dv, i, e, m, nd, rfl⟩, rfl⟩ := h
  rfl

variable {s : State}

theorem Loads.grown {b : State} {i : ℕ} (hb : Wf b) (hL : Loads b i s) : Grown b s where
  list := hL.list
  nodup := hL.nodup
  old d hd := ⟨(b.dso d).mark, (b.dso d).nodelete, by rw [hL.old d hd]⟩
  pinned d hd := by rw [hL.old d hd]; exact fun h => h
  clean d hd := hL.clean d hd id
  fini := hL.rest.fini
  exitFns := hL.rest.exitFns
  started := hL.rest.started
  tls := hL.rest.tls ▸ .refl _
  log := hL.rest.log ▸ .refl _
  marked := hL.marked hb.marked fun _ ho => .inl ho.mark

theorem Added.cases {s' : State} {e : Id} (hs : self ∈ s.list) (hst : s.started = true)
    (h : Added s e s') : (s' = s ∧ e ∈ s.list) ∨
      ∃ o, IsNew true o ∧ e = fresh s.list ∧ s' = append (fresh s.list) o s := by
  cases h with
  | found he => exact .inl ⟨rfl, he⟩
  | listed _ hn => exact absurd hs hn
  | loaded o he ho =>
    subst he
    exact .inr ⟨o, hst ▸ ho, rfl, rfl⟩

theorem loadDeps_spec (w : World) {b : State} {h : Id} (hb : Wf b) {i : ℕ} (hL : Loads b i s)
    (hi : i ≤ s.list.length) (hN : Needed b h s) (n : ℕ) : Ends (loadDeps w n i) s
      (fun _ s' => s.list <+: s'.list ∧ Needed b h s' ∧ ∃ j, Loads b j s' ∧ s'.list.length ≤ j)
      fun s' => ∃ j, Loads b j s' := by
  refine (loadDeps_rule (w := w) (E := fun s' => ∃ j, Loads b j s')
    (P := fun j t => (s.list <+: t.list ∧ j ≤ t.list.length) ∧ Loads b j t ∧ Needed b h t)
    b.list.length ?_ ?_ ?_ ?_ n i hL.le ⟨⟨prefix_refl _, hi⟩, hL, hN⟩).mono ?_ fun _ h => h
  · exact fun j t ht => ⟨j, ht.2.1⟩
  · rintro j t d ⟨-, hLt, -⟩ hd hsome
    exact absurd (hLt.deps_none hd) hsome
  · rintro j t d ⟨⟨hpre, hjl⟩, hLt, hNt⟩ hd -
    obtain ⟨h1, h2⟩ := hLt.begins hd
    refine ⟨⟨hpre, (List.getElem?_eq_some_iff.mp hd).1⟩, h1, fun x hx hxb => ?_⟩
    rw [h2]
    exact hNt x hx hxb
  · rintro j d t e t' hbj ⟨⟨hpre, hjl⟩, hLt, hNt⟩ hd hadd
    -- the state after `load_library`, in which `e` may not be needed yet
    have hstep : ∀ t', Loads b (j + 1) t' → t'.depsOf = t.depsOf → t.list <+: t'.list →
        e ∈ t'.list → (∀ x ∈ t'.list, x ∈ t.list ∨ x = e) →
        (∃ j, Loads b j t') ∧ t'.list[j]? = some d ∧
          ((s.list <+: t'.list ∧ j + 1 ≤ t'.list.length) ∧
            Loads b (j + 1) (t'.modify d (setDeps (.map (· ++ [e])))) ∧
            Needed b h (t'.modify d (setDeps (.map (· ++ [e]))))) := by
      intro t' hLt' hdeps htt' he hmem
      have hd' : t'.list[j]? = some d := by
        obtain ⟨r, hr⟩ := htt'
        rw [← hr, List.getElem?_append_left hjl, hd]
      obtain ⟨h1, h2⟩ := hLt'.addDep hbj hd' he
      have hmono : ∀ x, Reach t.depsOf h x →
          Reach (t'.modify d (setDeps (.map (· ++ [e])))).depsOf h x := by
        intro x hx
        refine Reach.mono (fun y z hz => ?_) hx
        rw [h2, hdeps]
        dsimp only
        split_ifs with hy
        · exact mem_append_left _ (hy ▸ hz)
        · exact hz
      have hdr := hmono d (hNt d (mem_of_getElem? hd) (hLt.not_mem hbj hd))
      refine ⟨⟨_, hLt'⟩, hd', ⟨hpre.trans htt', le_trans hjl htt'.length_le⟩, h1,
        fun x hx hxb => ?_⟩
      rcases hmem x hx with hxt | rfl
      · exact hmono x (hNt x hxt hxb)
      · refine hdr.trans (.step ?_)
        rw [h2]
        dsimp only
        rw [if_pos rfl]
        exact mem_append_right _ mem_cons_self
    rcases hadd.cases (hLt.list.subset hb.self_mem) (hLt.rest.started.trans hb.started) with
      ⟨rfl, he⟩ | ⟨o, ho, rfl, rfl⟩
    · exact hstep t' hLt rfl (prefix_refl _) he fun x hx => .inl hx
    · obtain ⟨h1, h2⟩ := hLt.grow hjl (fresh_not_mem _) ho.loading ho.deps
      refine hstep _ h1 h2 (prefix_append ..) ?_ fun x hx => ?_
      · exact mem_append_right _ mem_cons_self
      · exact (mem_append.mp hx).imp_right fun h => mem_singleton.mp h
  · rintro _ s' ⟨j, ⟨⟨h0, -⟩, h1, h2⟩, h3⟩
    exact ⟨h0, h2, j, h1, h3⟩

end Citadel.Ldso
