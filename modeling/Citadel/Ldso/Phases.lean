import Citadel.Ldso.Frame

/-!
# The parts of `dlopen` after loading
-/

namespace Citadel.Ldso

open Citadel.Lib.Graph Citadel.Lib.Fallible List Option

variable {old : Id → Prop} {s : State} {h d : Id}

/-- The dependencies of listed objects are listed. -/
def Closed (s : State) : Prop := ∀ d ∈ s.list, ∀ e ∈ s.depsOf d, e ∈ s.list

theorem Closed.congr {s s' : State} (hs : Closed s) (hlist : s'.list = s.list)
    (hdeps : s'.depsOf = s.depsOf) : Closed s' := by
  intro d hd e he
  rw [hlist] at hd ⊢
  rw [hdeps] at he
  exact hs d hd e he

/-! ## Marks -/

theorem markWalk_lawful (g : ℕ) : (markWalk g).Lawful where
  seen_enter _ b s := State.modify_flag (s := s) (fun o => o.mark == g)
    (f := fun o => { o with mark := g }) (by simp) b
  succ_enter _ b s := congrArg (getD · [])
    (State.modify_field (s := s) Dso.deps (f := fun o => { o with mark := g }) (fun _ => rfl) b)
  seen_leave _ _ _ := rfl
  succ_leave _ _ _ := rfl

def exceptMark (o : Dso) : Dso := { o with mark := 0 }

variable {t : State} {r : Id × Def}

theorem edits_mark (ht : Edits old exceptMark s t) (hgen : t.markGen = s.markGen)
    (hd : d ∈ s.list) : Edits old exceptMark s ((markWalk s.markGen).enter d t) :=
  ht.trans (.modify (f := fun o => { o with mark := s.markGen }) (ht.list ▸ hd) rfl
    (fun _ => ⟨_, _, rfl⟩) (fun hn => hn) (.inr hgen.symm))

theorem edits_markClosure (old : Id → Prop) (hs : Closed s) (hd : d ∈ s.list) :
    Edits old exceptMark s (markClosure d s) ∧ (markClosure d s).markGen = s.markGen ∧
      (markClosure d s).log = s.log := by
  refine dfs_rule (P := fun t => Edits old exceptMark s t ∧ t.markGen = s.markGen ∧ t.log = s.log)
    (U := (· ∈ s.list)) ?_ ?_ (fun _ _ _ ht => ht) _ hd ⟨.refl s, rfl, rfl⟩
  · rintro t ⟨ht, -⟩ a ha b hb
    have hc := hs.congr ht.list (ht.depsOf fun _ => rfl)
    rw [← ht.list] at ha ⊢
    exact hc a ha b hb
  · rintro a t ha - ⟨ht, hgen, hlog⟩
    exact ⟨edits_mark ht hgen ha, hgen, hlog⟩

theorem mark_markClosure_iff (hs : Closed s) (hd : d ∈ s.list) (hm : MarkInv s)
    (hlt : marks (nextGen s).log < 2 ^ 32) {e : Id} (he : e ∈ s.list) :
    ((markClosure d (nextGen s)).dso e).mark = (nextGen s).markGen ↔ Reach s.depsOf d e := by
  have hiff := seen_dfs_iff (markWalk_lawful (nextGen s).markGen) (U := s.list)
    (s := nextGen s) hs hd (unseen_le _ _)
    (fun b _ => beq_eq_false_iff_ne.mpr (mark_ne_nextGen hm hlt b)) he
  rw [← beq_iff_eq]
  exact hiff

def exceptScope (o : Dso) : Dso := { o with mark := 0, scope := none }

theorem scan_spec (old : Id → Prop) (hs : Closed s) (hh : h ∈ s.list) (hold : ¬ old h) :
    Edits old exceptScope s (scan h s) ∧ (scan h s).log = s.log ∧
      (∀ e, e ≠ h → ((scan h s).dso e).scope = (s.dso e).scope) ∧
      ∃ q, ((scan h s).dso h).scope = some q ∧ (∀ b ∈ q, Reach s.depsOf h b) ∧
        (s.list.Nodup → (∀ b, (s.dso b).mark ≠ s.markGen) → BreadthFirst s.depsOf h q) := by
  obtain ⟨hE, hgen, hlog, hsub⟩ := bfs_rule (W := markWalk s.markGen)
    (P := fun t q => Edits old exceptMark s t ∧ t.markGen = s.markGen ∧ t.log = s.log ∧
      ∀ b ∈ q, Reach s.depsOf h b)
    (U := Reach s.depsOf h)
    (by
      rintro t q ⟨ht, -, -, hq⟩ a ha b hb
      refine (hq a ha).trans (.step ?_)
      exact ht.depsOf (fun _ => rfl) ▸ hb)
    (by
      rintro b t q hb - ⟨ht, hg, hl, hq⟩
      refine ⟨edits_mark ht hg (hb.closed hs hh), hg, hl, fun c hc => ?_⟩
      rcases mem_append.mp hc with hc | hc
      · exact hq c hc
      · exact mem_singleton.mp hc ▸ hb)
    s.list.length 0
    (c := (s.modify h fun o => { o with mark := s.markGen }, [h]))
    ⟨edits_mark (.refl s) rfl hh, rfl, rfl, fun b hb => by
      rw [mem_singleton.mp hb]
      exact .refl h⟩
  have hdef : scan h s = (bfs (markWalk s.markGen) s.list.length 0
      (s.modify h fun o => { o with mark := s.markGen }, [h])).1.modify h fun o =>
        { o with scope := some (bfs (markWalk s.markGen) s.list.length 0
          (s.modify h fun o => { o with mark := s.markGen }, [h])).2 } := rfl
  have hbf : s.list.Nodup → (∀ b, (s.dso b).mark ≠ s.markGen) →
      BreadthFirst s.depsOf h (bfs (markWalk s.markGen) s.list.length 0
        (s.modify h fun o => { o with mark := s.markGen }, [h])).2 := by
    intro hnd hfresh
    have hseen : ∀ b, (markWalk s.markGen).seen
        ((markWalk s.markGen).enter h s) b = true ↔ b = h := by
      intro b
      rw [(markWalk_lawful s.markGen).seen_enter, Bool.or_eq_true, decide_eq_true_eq]
      exact or_iff_left fun hb => hfresh b (beq_iff_eq.mp hb)
    refine breadthFirst_bfs (markWalk_lawful s.markGen) (U := s.list) hs s.list.length 0 ?_
      (by omega)
    exact ⟨funext fun b => (markWalk_lawful s.markGen).succ_enter h b s,
      fun b _ => by rw [mem_singleton]; exact hseen b, nodup_singleton h,
      by simpa using hh, fun b hb => by rw [mem_singleton.mp hb]; exact .refl h,
      by simp [firsts, push], Nat.zero_le _⟩
  rw [hdef]
  generalize bfs (markWalk s.markGen) s.list.length 0
    (s.modify h fun o => { o with mark := s.markGen }, [h]) = c at *
  refine ⟨(hE.coarsen exceptScope fun _ => rfl).trans (.modify (hE.list ▸ hh) rfl
    (fun ho => absurd ho hold) (fun hn => hn) (.inl rfl)), hlog, ?_, c.2, ?_, hsub, hbf⟩
  · intro e he
    rw [State.modify_of_ne _ _ he]
    exact hE.field Dso.scope (fun _ => rfl) e
  · rw [State.modify_self]

theorem makeScope_spec (w : World) (hnone : (s.dso h).scope = none) :
    Ends (makeScope w h) s (fun _ s' => s' = scan h (nextGen s)) fun s' => s' = s := by
  unfold makeScope
  refine .get_bind (.ite (fun hsome => ?_) fun _ =>
    .ite (fun _ => .throw rfl) fun _ => .update rfl)
  rw [hnone] at hsome
  cases hsome

/-! ## Thread-local storage -/

/-- The offsets, the alignment and the total are those of the layout. -/
def Laid (t : Tls) : Prop := tlsLayout t = t

/-- Modules were added that need no larger alignment. -/
structure TlsGrows (t t' : Tls) : Prop where
  mods : ∃ extra, t'.mods = t.mods ++ extra ∧ ∀ m ∈ extra, m.align ≤ t.align
  align : t'.align = t.align
  reserve : t'.reserve = t.reserve

theorem TlsGrows.refl (t : Tls) : TlsGrows t t := ⟨⟨[], by simp, by simp⟩, rfl, rfl⟩

theorem tlsOffsets_append : ∀ (l m : List TlsMod) (off : UInt64), tlsOffsets off (l ++ m) =
    tlsOffsets off l ++
      tlsOffsets (l.foldl (fun off m => roundUp (off + m.memsz) m.align) off) m
  | [], _, _ => rfl
  | a :: l, m, off => by
    rw [cons_append, tlsOffsets, tlsOffsets_append l m, tlsOffsets, cons_append,
      foldl_cons]

theorem foldl_tlsOffsets {β : Type} (g : β → UInt64 → UInt64 → β) :
    ∀ (l : List TlsMod) (off : UInt64) (b : β),
      (tlsOffsets off l).foldl (fun b m => g b m.memsz m.align) b =
        l.foldl (fun b m => g b m.memsz m.align) b
  | [], _, _ => rfl
  | m :: l, off, b => by
    rw [tlsOffsets, foldl_cons, foldl_cons]
    exact foldl_tlsOffsets g l _ _

theorem tlsOffsets_idem : ∀ (l : List TlsMod) (off : UInt64),
    tlsOffsets off (tlsOffsets off l) = tlsOffsets off l
  | [], _ => rfl
  | m :: l, off => by
    rw [tlsOffsets, tlsOffsets, tlsOffsets_idem l]

theorem laid_tlsLayout (t : Tls) : Laid (tlsLayout t) := by
  unfold Laid tlsLayout
  rw [tlsOffsets_idem, foldl_tlsOffsets (fun off a b => roundUp (off + a) b),
    foldl_tlsOffsets fun a _ b => if b > a then b else a]

theorem align_of_mem_tlsOffsets {m : TlsMod} : ∀ {l : List TlsMod} {off : UInt64},
    m ∈ tlsOffsets off l → ∃ m' ∈ l, m.align = m'.align
  | a :: l, off, h => by
    rw [tlsOffsets] at h
    rcases mem_cons.mp h with rfl | h
    · exact ⟨a, mem_cons_self, rfl⟩
    · obtain ⟨m', hm', he⟩ := align_of_mem_tlsOffsets h
      exact ⟨m', mem_cons_of_mem a hm', he⟩

theorem foldl_align_eq {a : UInt64} : ∀ (l : List TlsMod), (∀ m ∈ l, m.align ≤ a) →
    l.foldl (fun a m => if m.align > a then m.align else a) a = a
  | [], _ => rfl
  | m :: l, h => by
    rw [foldl_cons, if_neg (UInt64.not_lt.mpr (h m mem_cons_self))]
    exact foldl_align_eq l fun m' hm' => h m' (mem_cons_of_mem m hm')

theorem le_foldl_align : ∀ (l : List TlsMod) (a : UInt64),
    a ≤ l.foldl (fun a m => if m.align > a then m.align else a) a
  | [], _ => UInt64.le_refl _
  | m :: l, a => by
    refine UInt64.le_trans ?_ (le_foldl_align l _)
    change a ≤ if m.align > a then m.align else a
    by_cases h : m.align > a
    · rw [if_pos h]
      exact UInt64.le_of_lt h
    · rw [if_neg h]
      exact UInt64.le_refl _

theorem TlsGrows.layout {t t' : Tls} (ht : Laid t) (h : TlsGrows t t') :
    TlsGrows t (tlsLayout t') := by
  obtain ⟨extra, he, ha⟩ := h.mods
  have hmods : tlsOffsets 0 t.mods = t.mods := congrArg Tls.mods ht
  have halign : t.mods.foldl (fun a m => if m.align > a then m.align else a) 64 = t.align :=
    congrArg Tls.align ht
  refine ⟨⟨tlsOffsets (t.mods.foldl (fun off m => roundUp (off + m.memsz) m.align) 0) extra, ?_,
    fun m hm => ?_⟩, ?_, h.reserve⟩
  · change tlsOffsets 0 t'.mods = _
    rw [he, tlsOffsets_append, hmods]
  · obtain ⟨m', hm', heq⟩ := align_of_mem_tlsOffsets hm
    exact heq ▸ ha m' hm'
  · change t'.mods.foldl _ 64 = _
    rw [he, foldl_append, halign]
    exact foldl_align_eq extra ha

def exceptTls (o : Dso) : Dso := { o with tlsId := 0, tlsOffset := 0 }

/-- A part of `assign_tls`. -/
structure TlsEdits (old : Id → Prop) (s s' : State) : Prop where
  grows : TlsGrows s.tls s'.tls
  edits : Edits old exceptTls { s with tls := s'.tls } s'

theorem TlsEdits.refl (s : State) : TlsEdits old s s := ⟨.refl _, .refl s⟩

theorem assignSegment_spec (ht : TlsEdits old s t) (hlaid : Laid s.tls)
    (hd : d ∈ s.list) (hold : ¬ old d) (p : TlsSegment) :
    Ends (assignSegment d p) t (fun _ t' => TlsEdits old s t') fun t' => TlsEdits old s t' := by
  unfold assignSegment
  refine .get_bind (.ite (fun _ => .pure ht) fun _ => .ite (fun _ => .throw ht)
    fun halign => .ite (fun _ => .throw ht) fun _ => .update ?_)
  obtain ⟨⟨extra, he, ha⟩, h2, h3⟩ := ht.grows
  have h64 : (64 : UInt64) ≤ s.tls.align := by
    have hal : s.tls.mods.foldl (fun a m => if m.align > a then m.align else a) 64 = s.tls.align :=
      congrArg Tls.align hlaid
    exact hal ▸ le_foldl_align s.tls.mods 64
  refine ⟨⟨⟨extra ++ [tlsMod p], ?_, ?_⟩, h2, h3⟩, ?_⟩
  · change t.tls.mods ++ [tlsMod p] = _
    rw [he, append_assoc]
  · intro m hm
    rcases mem_append.mp hm with hm | hm
    · exact ha m hm
    · rw [mem_singleton.mp hm]
      change (if p.align = 0 then 1 else p.align) ≤ _
      split_ifs
      · exact UInt64.le_trans (by decide) h64
      · rw [← h2]
        exact UInt64.not_lt.mp halign
  · refine (ht.edits.setTls (tlsAdd p t.tls)).trans ?_
    refine .modify (s := { t with tls := tlsAdd p t.tls })
      (f := fun o => { o with tlsId := t.tls.mods.length + 1 }) ?_ rfl (fun ho => absurd ho hold)
      (fun hn => hn) (.inl rfl)
    change d ∈ t.list
    rw [ht.edits.list]
    exact hd

theorem edits_setOffset {ds : List Id} (t : Tls) (hds : ∀ d ∈ ds, d ∈ s.list ∧ ¬ old d) :
    Edits old exceptTls s (s.modifyAll ds (setOffset t)) := by
  refine .modifyAll hds (fun o => ?_) (fun o ho => ?_) fun o => ?_
  all_goals
    unfold setOffset
    split_ifs <;> first | rfl | exact ho

theorem assignTls_spec (old : Id → Prop) (hlaid : Laid s.tls) {i : ℕ}
    (hi : ∀ d ∈ s.list.drop i, ¬ old d) (limit : UInt64) :
    Ends (assignTls i limit) s
      (fun _ s' => TlsEdits old s s' ∧ Laid s'.tls ∧ s'.tls.offset ≤ limit)
      fun s' => TlsEdits old s s' := by
  unfold assignTls
  refine Ends.get_bind (Ends.bind
    ((Ends.forM (I := TlsEdits old s) _ (TlsEdits.refl s) ?_).mono ?_ fun _ ht => ht))
  · intro d hd t ht
    unfold assignTlsOf
    refine Ends.get_bind (Ends.ite (fun _ => Ends.pure ht) fun _ => ?_)
    exact Ends.forM _ ht fun p _ t' ht' =>
      assignSegment_spec ht' hlaid (mem_of_mem_drop hd) (hi d hd) p
  · intro _ t ht
    have hlay : TlsEdits old s { t with tls := tlsLayout t.tls } :=
      ⟨ht.grows.layout hlaid, ht.edits.setTls _⟩
    refine Ends.bind (Ends.update (Ends.get_bind (Ends.ite (fun _ => Ends.throw hlay) fun hfits =>
      Ends.update ⟨⟨hlay.grows, hlay.edits.trans ?_⟩, laid_tlsLayout t.tls,
        UInt64.not_lt.mp hfits⟩)))
    refine edits_setOffset _ fun d hd => ?_
    have hlist : t.list = s.list := ht.edits.list
    change d ∈ t.list.drop i at hd
    rw [hlist] at hd
    exact ⟨hlist.symm ▸ mem_of_mem_drop hd, hi d hd⟩

/-! ## The order of the constructors -/

theorem orderWalk_lawful : orderWalk.Lawful where
  seen_enter _ b c := State.modify_flag (s := c.1) Dso.visited
    (f := fun o => { o with visited := true }) (fun _ => rfl) b
  succ_enter _ b c := congrArg (getD · [])
    (State.modify_field (s := c.1) Dso.deps
      (f := fun o => { o with visited := true }) (fun _ => rfl) b)
  seen_leave _ _ _ := rfl
  succ_leave _ _ _ := rfl

def exceptVisited (o : Dso) : Dso := { o with visited := false }

/-- The dependencies of an object that was visited were visited. -/
def VisitClosed (s : State) : Prop :=
  ∀ d ∈ s.list, (s.dso d).visited = true → ∀ e ∈ s.depsOf d, (s.dso e).visited = true

/-- What `order_init` does to the objects and to its output. -/
structure Ordered (old : Id → Prop) (h : Id) (s : State) (out : List Id) (c : State × List Id) :
    Prop where
  edits : Edits old exceptVisited s c.1
  gen : c.1.markGen = s.markGen
  closed : VisitClosed c.1
  visited : (c.1.dso h).visited = true
  out : ∃ new, c.2 = out ++ new ∧ new.Nodup ∧ (∀ d ∈ new, d ∈ s.list ∧ (s.dso d).visited = false) ∧
    (∀ d, (c.1.dso d).visited = true ↔ (s.dso d).visited = true ∨ d ∈ new) ∧
    ((∀ x, Reach s.depsOf h x → ∀ y ∈ s.depsOf x, ¬ Reach s.depsOf y x) →
      SuccFirst s.depsOf (fun y => (s.dso y).visited = true) new)

theorem orderInit_spec (hs : Closed s) (hv : VisitClosed s) (hh : h ∈ s.list)
    (hold : ∀ d, old d → (s.dso d).visited = true) (out : List Id) :
    Ordered old h s out (orderInit h (s, out)) := by
  have hU : ∀ x ∈ s.list, ∀ y ∈ orderWalk.succ (s, out) x, y ∈ s.list := hs
  obtain ⟨hE, hgen⟩ := dfs_rule (W := orderWalk) (U := (· ∈ s.list))
    (P := fun c => Edits old exceptVisited s c.1 ∧ c.1.markGen = s.markGen)
    (by
      rintro c ⟨hc, -⟩ a ha b hb
      have hcl := hs.congr hc.list (hc.depsOf fun _ => rfl)
      rw [← hc.list] at ha ⊢
      exact hcl a ha b hb)
    (by
      rintro a c ha hseen ⟨hc, hg⟩
      refine ⟨hc.trans (.modify (f := fun o => { o with visited := true }) (hc.list ▸ ha) rfl
        (fun ho => ?_) (fun hn => hn) (.inl rfl)), hg⟩
      -- an old object was visited before
      obtain ⟨m, n, hmn⟩ := hc.old a ho
      have hva : (c.1.dso a).visited = true := by
        rw [hmn]
        exact hold a ho
      rw [show orderWalk.seen c a = (c.1.dso a).visited from rfl, hva] at hseen
      cases hseen)
    (fun _ _ _ hc => hc) s.list.length hh (s := (s, out)) ⟨.refl s, rfl⟩
  obtain ⟨new, hw⟩ := walked_dfs orderWalk_lawful s.list.length hU hh (unseen_le s.list (s, out))
  have hmem : ∀ d ∈ new, d ∈ s.list := by
    intro d hd
    obtain ⟨c, hc, hcd⟩ := hw.reach d hd
    exact hcd.closed hU (mem_singleton.mp hc ▸ hh)
  refine ⟨hE, hgen, fun d hd hvis e he => ?_, hw.seen h mem_cons_self, new,
    hw.out Prod.snd (fun _ _ => rfl) (fun _ _ => rfl), hw.nodup,
    fun d hd => ⟨hmem d hd, hw.fresh d hd⟩, hw.seen_iff,
    fun hacyc => hw.succFirst (forall_mem_singleton.mpr hacyc)⟩
  have hdeps : (orderInit h (s, out)).1.depsOf = s.depsOf := hE.depsOf fun _ => rfl
  rw [hdeps] at he
  rcases (hw.seen_iff d).mp hvis with hvis' | hnew
  · have hlist : (orderInit h (s, out)).1.list = s.list := hE.list
    rw [hlist] at hd
    exact (hw.seen_iff e).mpr (.inl (hv d hd hvis' e he))
  · exact hw.closed d hnew e he

/-! ## Relocation -/

/-- All of a record but what a relocation changes. -/
def exceptReloc (o : Dso) : Dso :=
  { o with mark := 0, nodelete := false, relocated := false, bound := [] }

theorem lookupScope_mem {n : Name} {skip : Option Id} :
    ∀ {ds : List Id}, lookupScope s n skip ds = some r → r.1 ∈ ds
  | d :: ds, h => by
    rw [lookupScope] at h
    split_ifs at h with hskip
    · exact mem_cons_of_mem d (lookupScope_mem h)
    · cases hl : lookupIn (s.dso d) n with
      | some x =>
        rw [hl] at h
        exact some.inj h ▸ mem_cons_self
      | none =>
        rw [hl] at h
        exact mem_cons_of_mem d (lookupScope_mem h)

theorem lookup_mem {n : Name} {ls : List Id} {skip : Option Id}
    (hls : ∀ d ∈ ls, d ∈ s.list) (h : lookup s n ls skip = some r) : r.1 ∈ s.list := by
  rcases or_eq_some_iff.mp h with h | ⟨-, h⟩
  · exact (mem_filter.mp (lookupScope_mem h)).1
  · exact hls _ (lookupScope_mem h)

theorem accept_eq {y : Symbol} {o : Option (Id × Def)}
    (h : accept y o = .ok (some r)) : o = some r := by
  cases o with
  | none =>
    rw [accept] at h
    split_ifs at h
    cases h
  | some q =>
    rw [accept] at h
    split_ifs at h
    cases h
    rfl

theorem resolve_mem {r : Reloc} {b : Id × Def} (hd : d ∈ s.list)
    (hls : ∀ e ∈ (s.dso d).lscope, e ∈ s.list) (h : resolve s d r = .ok (some b)) :
    b.1 ∈ s.list := by
  unfold resolve at h
  cases hsym : r.sym with
  | none => rw [hsym] at h; cases h
  | some y =>
    rw [hsym] at h
    dsimp only at h
    by_cases hlocal : y.bind = .stbLocal
    · rw [if_pos hlocal] at h
      split_ifs at h
      cases h
      exact hd
    · rw [if_neg hlocal] at h
      exact lookup_mem hls (accept_eq h)

/-- What the relocations of `d` did since `s`: the objects they were bound to, and those of them
that were pinned because they do not carry the generation. -/
structure Bound (old : Id → Prop) (d : Id) (s t : State) : Prop where
  edits : Edits old exceptReloc s t
  gen : t.markGen = s.markGen
  log : t.log = s.log
  mark : ∀ x, (t.dso x).mark = (s.dso x).mark
  other : ∀ x, x ≠ d → (t.dso x).bound = (s.dso x).bound
  mono : ∀ e ∈ (s.dso d).bound, e ∈ (t.dso d).bound
  bound : ∀ e ∈ (t.dso d).bound, e ∈ (s.dso d).bound ∨ (e ∈ s.list ∧
    (e = d ∨ (s.dso e).permanent = true ∨ (s.dso e).mark = s.markGen ∨ (t.dso e).nodelete = true))
  pins : ∀ e, (t.dso e).nodelete = true → (s.dso e).nodelete = true ∨ (e ∈ (t.dso d).bound ∧ e ≠ d ∧
    (s.dso e).permanent = false ∧ (s.dso e).mark ≠ s.markGen)

theorem Bound.refl (d : Id) (s : State) : Bound old d s s :=
  ⟨.refl s, rfl, rfl, fun _ => rfl, fun _ _ => rfl, fun _ h => h, fun _ h => .inl h,
    fun _ h => .inl h⟩

section
variable {dd : Id}

/-- `dd` is pinned when `d` is bound to it. -/
abbrev Pinned (d dd : Id) (t : State) : Prop :=
  dd ≠ d ∧ (t.dso dd).permanent = false ∧ (t.dso dd).mark ≠ t.markGen

theorem bindTo_dso (x : Id) : (bindTo d dd t).dso x =
    { t.dso x with
      bound := if x = d then (t.dso d).bound ++ [dd] else (t.dso x).bound
      nodelete := (t.dso x).nodelete || decide (x = dd ∧ Pinned d dd t) } := by
  by_cases hne : dd = d
  · by_cases hx : x = d <;> simp [bindTo, State.modify, hne, hx]
  · by_cases hp : Pinned d dd t
    · have h := hp.2
      by_cases hx : x = dd
      · subst hx
        simp [bindTo, State.modify, hp]
      · by_cases hd : x = d <;> simp [bindTo, State.modify, hx, hd, h.1, h.2, hne, Ne.symm hne]
    · have h : ¬((t.dso dd).permanent = false ∧ (t.dso dd).mark ≠ t.markGen) := fun h => hp ⟨hne, h⟩
      by_cases hd : x = d <;> simp [bindTo, State.modify, hp, hd, h, hne]

theorem bindTo_nodelete (x : Id) : ((bindTo d dd t).dso x).nodelete = true ↔
    (t.dso x).nodelete = true ∨ (x = dd ∧ Pinned d dd t) := by
  rw [bindTo_dso, Bool.or_eq_true, decide_eq_true_eq]

theorem edits_bindTo (hd : d ∈ t.list) (hold : ¬ old d) (hdd : dd ∈ t.list) :
    Edits old exceptReloc t (bindTo d dd t) := by
  have h : Edits old exceptReloc t (t.modify d fun o => { o with bound := o.bound ++ [dd] }) :=
    .modify hd rfl (fun ho => absurd ho hold) (fun hn => hn) (.inl rfl)
  unfold bindTo
  dsimp only
  split_ifs
  · exact h.trans (.modify hdd rfl (fun _ => ⟨_, _, rfl⟩) (fun _ => rfl) (.inl rfl))
  · exact h

theorem Bound.bindTo (h : Bound old d s t) (hd : d ∈ s.list) (hold : ¬ old d)
    (hdd : dd ∈ s.list) : Bound old d s (bindTo d dd t) := by
  have hpin : Pinned d dd t ↔
      dd ≠ d ∧ (s.dso dd).permanent = false ∧ (s.dso dd).mark ≠ s.markGen := by
    rw [Pinned, h.edits.field Dso.permanent fun _ => rfl, h.mark, h.gen]
  have hself : ((Ldso.bindTo d dd t).dso d).bound = (t.dso d).bound ++ [dd] := by
    rw [bindTo_dso, if_pos rfl]
  have hrest : (Ldso.bindTo d dd t).markGen = t.markGen ∧ (Ldso.bindTo d dd t).log = t.log := by
    unfold Ldso.bindTo
    dsimp only
    split_ifs <;> exact ⟨rfl, rfl⟩
  refine ⟨h.edits.trans (edits_bindTo (h.edits.list ▸ hd) hold (h.edits.list ▸ hdd)),
    hrest.1.trans h.gen, hrest.2.trans h.log, fun x => ?_, fun x hx => ?_, fun e he => ?_,
    fun e he => ?_, fun e he => ?_⟩
  · rw [bindTo_dso, h.mark]
  · rw [bindTo_dso, if_neg hx, h.other x hx]
  · rw [hself]
    exact mem_append_left _ (h.mono e he)
  · rw [hself] at he
    rcases mem_append.mp he with he | he
    · refine (h.bound e he).imp_right fun ⟨h1, h2⟩ => ⟨h1, h2.imp_right fun h3 => h3.imp_right ?_⟩
      exact fun h4 => h4.imp_right fun h5 => (bindTo_nodelete e).mpr (.inl h5)
    · rw [mem_singleton.mp he]
      refine .inr ⟨hdd, ?_⟩
      by_contra hnot
      push Not at hnot
      exact hnot.2.2.2 ((bindTo_nodelete dd).mpr
        (.inr ⟨rfl, hpin.mpr ⟨hnot.1, Bool.eq_false_iff.mpr hnot.2.1, hnot.2.2.1⟩⟩))
  · rw [hself]
    rcases (bindTo_nodelete e).mp he with he | ⟨rfl, hp⟩
    · exact (h.pins e he).imp_right fun ⟨h1, h2⟩ => ⟨mem_append_left _ h1, h2⟩
    · exact .inr ⟨mem_append_right _ (mem_singleton_self e), hpin.mp hp⟩

end

theorem checkType_spec {P : State → Prop} (hs : P s) (path : Name) (r : Reloc)
    (found : Bool) : Ends (checkType path r found) s (fun _ => P) P := by
  unfold checkType
  cases r.type with
  | copy => exact .ite (fun _ => .pure hs) fun _ => .throw hs
  | irelative | unsupported => exact .throw hs
  | _ => exact .pure hs

theorem relocateOne_spec (h : Bound old d s t) (hd : d ∈ s.list) (hold : ¬ old d)
    (hls : ∀ e ∈ (s.dso d).lscope, e ∈ s.list) (r : Reloc) :
    Ends (relocateOne d r) t (fun _ t' => Bound old d s t') fun t' => Bound old d s t' := by
  unfold relocateOne
  refine .ite (fun _ => .pure h) fun _ => .get_bind ?_
  cases hres : resolve t d r with
  | error e => exact .throw h
  | ok b =>
    cases b with
    | none => exact checkType_spec h _ r false
    | some b =>
      refine .bind (.update (checkType_spec (h.bindTo hd hold ?_) _ r true))
      have hlist : t.list = s.list := h.edits.list
      rw [← hlist]
      refine resolve_mem (hlist ▸ hd) (fun e he => ?_) hres
      rw [h.edits.field Dso.lscope (fun _ => rfl)] at he
      exact hlist ▸ hls e he

/-- What `relocate` does to the object `d`: every binding is to an object that outlives it. -/
structure Relocated (old : Id → Prop) (d : Id) (s t : State) : Prop where
  edits : Edits old exceptReloc s t
  marks : Ldso.marks t.log = Ldso.marks s.log + 1
  other : ∀ x, x ≠ d → (t.dso x).bound = (s.dso x).bound
  mono : ∀ e ∈ (s.dso d).bound, e ∈ (t.dso d).bound
  bound : ∀ e ∈ (t.dso d).bound, e ∈ (s.dso d).bound ∨ (e ∈ s.list ∧
    (Ldso.marks t.log < 2 ^ 32 → e = d ∨ (s.dso e).permanent = true ∨ Reach s.depsOf d e ∨
      (t.dso e).nodelete = true))
  pins : ∀ e, (t.dso e).nodelete = true → (s.dso e).nodelete = true ∨ (e ∈ (t.dso d).bound ∧ e ≠ d ∧
    (s.dso e).permanent = false ∧ (Ldso.marks t.log < 2 ^ 32 → ¬ Reach s.depsOf d e))

theorem relocate_spec (hs : Closed s) (hm : MarkInv s) (hd : d ∈ s.list) (hold : ¬ old d)
    (hls : ∀ e ∈ (s.dso d).lscope, e ∈ s.list) :
    Ends (relocate d) s (fun _ t => Relocated old d s t) fun t => Relocated old d s t := by
  obtain ⟨s₁, hs₁⟩ : ∃ s₁, s₁ = markClosure d (nextGen s) := ⟨_, rfl⟩
  obtain ⟨hE₁, hgen₁, hlog₁⟩ := edits_markClosure old (s := nextGen s) hs hd
  rw [← hs₁] at hE₁ hgen₁ hlog₁
  have hE : Edits old exceptMark s s₁ := (Edits.nextGen s).trans hE₁
  have hmarks : marks s₁.log = marks s.log + 1 := by
    rw [hlog₁]
    exact count_cons_self ..
  have hmark : marks s₁.log < 2 ^ 32 → ∀ e ∈ s.list,
      ((s₁.dso e).mark = s₁.markGen ↔ Reach s.depsOf d e) := by
    intro hlt e he
    rw [hgen₁, hs₁]
    exact mark_markClosure_iff hs hd hm (hlog₁ ▸ hlt) he
  have hd₁ : d ∈ s₁.list := hE.list ▸ hd
  have hls₁ : ∀ e ∈ (s₁.dso d).lscope, e ∈ s₁.list := by
    rw [hE.field Dso.lscope (fun _ => rfl), hE.list]
    exact hls
  -- the marks of the closure mean reachability
  have hbase : ∀ t, Bound old d s₁ t → Relocated old d s t := by
    intro t ht
    refine ⟨(hE.coarsen exceptReloc fun _ => rfl).trans ht.edits, ht.log ▸ hmarks, fun x hx =>
      (ht.other x hx).trans (hE.field Dso.bound (fun _ => rfl) x), fun e he => ht.mono e ?_,
      fun e he => ?_, fun e he => ?_⟩
    · rwa [hE.field Dso.bound (fun _ => rfl)]
    · have hb := ht.bound e he
      rw [hE.field Dso.bound (fun _ => rfl), hE.field Dso.permanent (fun _ => rfl), hE.list] at hb
      refine hb.imp_right fun ⟨hel, h⟩ => ⟨hel, fun hlt => ?_⟩
      rw [hmark (ht.log ▸ hlt) e hel] at h
      exact h
    · have hp := ht.pins e he
      rw [hE.field Dso.nodelete (fun _ => rfl), hE.field Dso.permanent (fun _ => rfl)] at hp
      refine hp.imp_right fun ⟨h1, h2, h3, h4⟩ => ⟨h1, h2, h3, fun hlt hr => h4 ?_⟩
      exact (hmark (ht.log ▸ hlt) e (hr.closed hs hd)).mpr hr
  unfold relocate
  refine Ends.bind (Ends.update ?_)
  rw [← hs₁]
  refine Ends.get_bind (Ends.bind ((Ends.forM (I := Bound old d s₁) _ (Bound.refl d s₁)
    fun r _ t ht => relocateOne_spec ht hd₁ hold hls₁ r).mono ?_ fun t ht => hbase t ht))
  intro _ t ht
  refine Ends.get_bind (Ends.bind ((Ends.forM (I := Bound old d s₁) _ ht
    fun r _ t ht => relocateOne_spec ht hd₁ hold hls₁ r).mono ?_ fun t ht => hbase t ht))
  intro _ t ht
  refine Ends.update (hbase _ ?_)
  have hdt : d ∈ t.list := ht.edits.list ▸ hd₁
  have hbound := State.modify_field (s := t) (d := d) Dso.bound
    (f := fun o => { o with relocated := true }) fun _ => rfl
  have hnd := State.modify_field (s := t) (d := d) Dso.nodelete
    (f := fun o => { o with relocated := true }) fun _ => rfl
  refine ⟨ht.edits.trans (Edits.modify hdt rfl (fun ho => absurd ho hold) (fun hn => hn)
    (.inl rfl)), ht.gen, ht.log, fun x =>
      (State.modify_field Dso.mark (by intro; rfl) x).trans (ht.mark x),
    fun x hx => (hbound x).trans (ht.other x hx), ?_, ?_, ?_⟩
  · rw [hbound]
    exact ht.mono
  · intro e
    rw [hbound, hnd]
    exact ht.bound e
  · intro e
    rw [hbound, hnd]
    exact ht.pins e

end Citadel.Ldso
