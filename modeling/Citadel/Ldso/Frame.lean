import Citadel.Ldso.Dynlink
import Citadel.Lib.Fallible
import Mathlib.Data.List.Infix
import Mathlib.Order.Lattice
import Mathlib.Order.Nat
import Mathlib.Tactic.Common

/-!
# What the parts of `dlopen` leave alone
-/

namespace Citadel.Ldso

open Citadel.Lib.Graph Citadel.Lib.Fallible Function List

/-! ## States -/

@[simp] theorem State.record_dso (s : State) (e : Event) : (s.record e).dso = s.dso := rfl

@[simp] theorem State.modify_self (s : State) (d : Id) (f : Dso → Dso) :
    (s.modify d f).dso d = f (s.dso d) := update_self ..

variable {d : Id} {s : State} {f : Dso → Dso} {l l' : List Event}

theorem State.modify_of_ne (s : State) {e : Id} (f : Dso → Dso) (h : e ≠ d) :
    (s.modify d f).dso e = s.dso e := update_of_ne h ..

theorem State.modifyAll_dso (s : State) (ds : List Id) (f : Dso → Dso) (d : Id) :
    (s.modifyAll ds f).dso d = if d ∈ ds then f (s.dso d) else s.dso d := rfl

theorem State.modify_cases {P : Id → Dso → Prop} (h : P d (f (s.dso d)))
    (hne : ∀ e, e ≠ d → P e (s.dso e)) (e : Id) :
    P e ((s.modify d f).dso e) := by
  by_cases he : e = d
  · subst he
    rw [State.modify_self]
    exact h
  · rw [State.modify_of_ne s f he]
    exact hne e he

theorem State.modify_field {κ : Type} (g : Dso → κ) (hg : ∀ o, g (f o) = g o)
    (e : Id) : g ((s.modify d f).dso e) = g (s.dso e) :=
  State.modify_cases (P := fun x o => g o = g (s.dso x)) (hg _) (fun _ _ => rfl) e

theorem State.modify_flag (p : Dso → Bool) (hf : ∀ o, p (f o) = true) (e : Id) :
    p ((s.modify d f).dso e) = (decide (e = d) || p (s.dso e)) :=
  State.modify_cases (P := fun x o => p o = (decide (x = d) || p (s.dso x))) (by simp [hf])
    (fun x hx => by simp [hx]) e

theorem lt_foldl_max {n : ℕ} : ∀ (l : List Id) (m : ℕ), (n ∈ l ∨ n ≤ m) → n ≤ l.foldl max m
  | [], m, h => h.resolve_left not_mem_nil
  | a :: l, m, h => by
    refine lt_foldl_max l (max m a) ?_
    rcases h with h | h
    · rcases mem_cons.mp h with rfl | h
      · exact .inr (le_max_right m n)
      · exact .inl h
    · exact .inr (le_trans h (le_max_left m a))

theorem fresh_not_mem (l : List Id) : fresh l ∉ l := fun h => by
  have := lt_foldl_max l self (.inl h)
  unfold fresh at this
  omega

/-! ## Loading one library -/

/-- The record of an object that was just loaded. -/
def IsNew (started : Bool) (o : Dso) : Prop :=
  ∃ p n dv i e m nd, o = { path := p, shortname := n, dev := dv, ino := i, elf := e, map := m,
                           nodelete := nd, isGlobal := !started, permanent := !started }

/-- What `load_library` may do: the object `e` was there, it is libc, or it is new. -/
inductive Added (s : State) (e : Id) : State → Prop
  | found : e ∈ s.list → Added s e s
  | listed : e = self → self ∉ s.list → Added s e { s with list := s.list ++ [self] }
  | loaded (o : Dso) : e = fresh s.list → IsNew s.started o → Added s e (append e o s)

theorem append_modify {o : Dso} : (append d o s).modify d f = append d (f o) s := by
  unfold append State.modify
  simp

theorem mapLibrary_spec {f : File} {n : Name} (hd : d = fresh s.list) :
    Ends (mapLibrary f d) (append d (newDso s f n) s) (fun _ s' => Added s d s')
      fun s' => Added s d s' := by
  unfold mapLibrary
  cases f.image with
  | error m =>
    refine .bind (.update ?_)
    rw [append_modify]
    exact .throw (.loaded _ hd ⟨_, _, _, _, _, _, _, rfl⟩)
  | ok elf =>
    refine .bind (.update ?_)
    rw [append_modify]
    exact .get_bind (.ite (fun _ => .throw (.loaded _ hd ⟨_, _, _, _, _, _, _, rfl⟩))
      fun _ => .pure (.loaded _ hd ⟨_, _, _, _, _, _, _, rfl⟩))

theorem loadFile_spec (w : World) (n : Name) (f : File) (s : State) :
    Ends (loadFile w n f) s (fun e s' => Added s e s') fun s' => s' = s ∨ ∃ e, Added s e s' := by
  unfold loadFile
  refine .get_bind (.ite (fun _ => .throw (.inl rfl)) fun _ => ?_)
  cases hfind : s.list.find? (sameFile s f) with
  | some d => exact .pure (.found (mem_of_find?_eq_some hfind))
  | none =>
    refine .ite (fun _ => .throw (.inl rfl)) fun _ => .bind (.update ?_)
    refine .bind ((mapLibrary_spec rfl).mono (fun _ s' h => .pure h) ?_)
    exact fun s' h => .inr ⟨_, h⟩

theorem loadLibrary_spec (w : World) (n : Name) (needer : Id) (direct : Bool) (s : State) :
    Ends (loadLibrary w n needer direct) s (fun e s' => Added s e s')
      fun s' => s' = s ∨ ∃ e, Added s e s' := by
  unfold loadLibrary
  refine .get_bind ?_
  cases hfind : findLoaded s n with
  | none =>
    refine .ite (fun _ => .throw (.inl rfl)) fun _ => ?_
    cases w.find n (s.dso needer).path (s.dso needer).elf with
    | none => exact .throw (.inl rfl)
    | some f => exact loadFile_spec w n f s
  | some d =>
    refine .bind (.update (.pure ?_))
    by_cases hd : d = self
    · rw [if_pos hd, listSelf]
      split_ifs with h
      · exact .found (hd ▸ h)
      · exact .listed hd h
    · rw [if_neg hd]
      unfold findLoaded at hfind
      split_ifs at hfind with h
      · exact absurd (Option.some.inj hfind).symm hd
      · exact .found (mem_of_find?_eq_some hfind)

/-! ## Marks -/

/-- The number of closures that were marked. -/
def marks (l : List Event) : ℕ := l.count .mark

/-- Up to 2³² markings the generation counts them, and no object has a later one. -/
def MarkInv (s : State) : Prop :=
  marks s.log < 2 ^ 32 → s.markGen = marks s.log ∧ ∀ d, (s.dso d).mark ≤ s.markGen

/-- Nothing happened but that closures were marked. -/
def OnlyMarks (l l' : List Event) : Prop := ∃ n, l' = replicate n .mark ++ l

theorem OnlyMarks.refl (l : List Event) : OnlyMarks l l := ⟨0, rfl⟩

theorem OnlyMarks.trans {l'' : List Event} (h : OnlyMarks l l') (h' : OnlyMarks l' l'') :
    OnlyMarks l l'' := by
  obtain ⟨n, rfl⟩ := h
  obtain ⟨m, rfl⟩ := h'
  exact ⟨m + n, by rw [replicate_add, append_assoc]⟩

theorem OnlyMarks.suffix (h : OnlyMarks l l') : l <:+ l' := by
  obtain ⟨n, rfl⟩ := h
  exact suffix_append ..

theorem marks_le_of_suffix (h : l <:+ l') : marks l ≤ marks l' :=
  List.Sublist.count_le _ h.sublist

theorem OnlyMarks.le (h : OnlyMarks l l') : marks l ≤ marks l' :=
  marks_le_of_suffix h.suffix

theorem markInv_nextGen (h : MarkInv s) : MarkInv (nextGen s) := by
  intro hlt
  have hcount : marks (nextGen s).log = marks s.log + 1 := count_cons_self ..
  obtain ⟨h1, h2⟩ := h (by omega)
  have hgen : (nextGen s).markGen = s.markGen + 1 := Nat.mod_eq_of_lt (by omega)
  exact ⟨by omega, fun d => le_trans (h2 d) (by omega)⟩

theorem mark_ne_nextGen (h : MarkInv s) (hlt : marks (nextGen s).log < 2 ^ 32) (d : Id) :
    ((nextGen s).dso d).mark ≠ (nextGen s).markGen := by
  have hcount : marks (nextGen s).log = marks s.log + 1 := count_cons_self ..
  obtain ⟨h1, h2⟩ := h (by omega)
  have hgen : (nextGen s).markGen = s.markGen + 1 := Nat.mod_eq_of_lt (by omega)
  have := h2 d
  change (s.dso d).mark ≠ _
  omega

/-! ## Edits -/

/-- A part of `dlopen` that loads nothing: it changes the records of listed objects, of those in
`old` only the mark and `nodelete`. What `e` keeps of a record stays. -/
structure Edits (old : Id → Prop) (e : Dso → Dso) (s s' : State) : Prop where
  list : s'.list = s.list
  same : ∀ d, e (s'.dso d) = e (s.dso d)
  old : ∀ d, old d → ∃ m n, s'.dso d = { s.dso d with mark := m, nodelete := n }
  pinned : ∀ d, (s.dso d).nodelete = true → (s'.dso d).nodelete = true
  clean : ∀ d, d ∉ s.list → s'.dso d = s.dso d
  fini : s'.fini = s.fini
  exitFns : s'.exitFns = s.exitFns
  started : s'.started = s.started
  tls : s'.tls = s.tls
  log : OnlyMarks s.log s'.log
  marked : MarkInv s → MarkInv s'

namespace Edits

variable {old : Id → Prop} {e : Dso → Dso} {s s' s'' : State}

theorem refl (s : State) : Edits old e s s :=
  ⟨rfl, fun _ => rfl, fun _ _ => ⟨_, _, rfl⟩, fun _ h => h, fun _ _ => rfl, rfl, rfl, rfl, rfl,
    .refl _, fun h => h⟩

theorem trans (h : Edits old e s s') (h' : Edits old e s' s'') : Edits old e s s'' where
  list := h'.list.trans h.list
  same d := (h'.same d).trans (h.same d)
  old d hd := by
    obtain ⟨m, n, h1⟩ := h.old d hd
    obtain ⟨m', n', h2⟩ := h'.old d hd
    exact ⟨m', n', by rw [h2, h1]⟩
  pinned d hd := h'.pinned d (h.pinned d hd)
  clean d hd := (h'.clean d (h.list ▸ hd)).trans (h.clean d hd)
  fini := h'.fini.trans h.fini
  exitFns := h'.exitFns.trans h.exitFns
  started := h'.started.trans h.started
  tls := h'.tls.trans h.tls
  log := h.log.trans h'.log
  marked hm := h'.marked (h.marked hm)

theorem field {κ : Type} (h : Edits old e s s') (g : Dso → κ) (hg : ∀ o, g (e o) = g o) (d : Id) :
    g (s'.dso d) = g (s.dso d) := by
  rw [← hg, h.same d, hg]

theorem depsOf (h : Edits old e s s') (he : ∀ o, (e o).deps = o.deps) : s'.depsOf = s.depsOf :=
  funext fun d => congrArg (Option.getD · []) (h.field Dso.deps he d)

theorem coarsen {e' : Dso → Dso} (g : Dso → Dso) (hg : ∀ o, e' o = g (e o)) (h : Edits old e s s') :
    Edits old e' s s' :=
  { h with same := fun d => by rw [hg, hg, h.same d] }

theorem modify (hd : d ∈ s.list) (he : e (f (s.dso d)) = e (s.dso d))
    (hold : old d → ∃ m n, f (s.dso d) = { s.dso d with mark := m, nodelete := n })
    (hpin : (s.dso d).nodelete = true → (f (s.dso d)).nodelete = true)
    (hmark : (f (s.dso d)).mark = (s.dso d).mark ∨ (f (s.dso d)).mark = s.markGen) :
    Edits old e s (s.modify d f) where
  list := rfl
  same := State.modify_cases (P := fun x o => e o = e (s.dso x)) he fun _ _ => rfl
  old := State.modify_cases
    (P := fun x o => old x → ∃ m n, o = { s.dso x with mark := m, nodelete := n }) hold
      fun _ _ _ => ⟨_, _, rfl⟩
  pinned := State.modify_cases
    (P := fun x o => (s.dso x).nodelete = true → o.nodelete = true) hpin fun _ _ h => h
  clean x hx := State.modify_of_ne s f fun h => hx (h ▸ hd)
  fini := rfl
  exitFns := rfl
  started := rfl
  tls := rfl
  log := OnlyMarks.refl _
  marked hm hlt := by
    obtain ⟨h1, h2⟩ := hm hlt
    refine ⟨h1, State.modify_cases (P := fun _ o => o.mark ≤ s.markGen) ?_ fun x _ => h2 x⟩
    rcases hmark with h | h
    · exact h ▸ h2 d
    · exact h.le

theorem modifyAll {ds : List Id} (hds : ∀ d ∈ ds, d ∈ s.list ∧ ¬ old d)
    (he : ∀ o, e (f o) = e o) (hpin : ∀ o, o.nodelete = true → (f o).nodelete = true)
    (hmark : ∀ o, (f o).mark = o.mark) : Edits old e s (s.modifyAll ds f) where
  list := rfl
  same d := by
    rw [State.modifyAll_dso]
    split_ifs
    · exact he _
    · rfl
  old d hd := ⟨(s.dso d).mark, (s.dso d).nodelete, if_neg fun h => (hds d h).2 hd⟩
  pinned d hd := by
    rw [State.modifyAll_dso]
    split_ifs
    · exact hpin _ hd
    · exact hd
  clean d hd := if_neg fun h => hd (hds d h).1
  fini := rfl
  exitFns := rfl
  started := rfl
  tls := rfl
  log := .refl _
  marked hm hlt := by
    obtain ⟨h1, h2⟩ := hm hlt
    refine ⟨h1, fun d => ?_⟩
    rw [State.modifyAll_dso]
    split_ifs
    · exact (hmark _).symm ▸ h2 d
    · exact h2 d

theorem setTls (h : Edits old e s s') (t : Tls) :
    Edits old e { s with tls := t } { s' with tls := t } :=
  { h with tls := rfl }

theorem nextGen (s : State) : Edits old e s (nextGen s) :=
  ⟨rfl, fun _ => rfl, fun _ _ => ⟨_, _, rfl⟩, fun _ h => h, fun _ _ => rfl, rfl, rfl, rfl, rfl,
    ⟨1, rfl⟩, markInv_nextGen⟩

end Edits

end Citadel.Ldso
