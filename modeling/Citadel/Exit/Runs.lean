import Citadel.Exit.AtExit
import Citadel.Lib.Transition

/-!
# Runs of programs with exit handlers

What the steps of a run did is listed with the newest first.

* `remaining h`: the handlers that were registered and not called, the newest first.
* `Inv`: the handlers of the chain that are not marked are the remaining ones.
* `exit_newest_first`: `exit` always calls the newest remaining handler, until there is none.
* `returned_iff`: a range call leaves no handler of its range, exactly when those that were
  registered while it ran have been called, as by a range call that began later.
-/

namespace Citadel.Exit

open Citadel.Lib.Transition Citadel.Thread Nat
open List hiding beq_eq_decide

/-! ## What the functions are for -/

def registered (h : List Event) : List ExitFn :=
  h.filterMap fun
    | .registered f => some f
    | _ => none

def called (h : List Event) : List ExitFn :=
  h.filterMap fun
    | .called f _ => some f
    | _ => none

/-- The range calls that have returned, each with the number of handlers when it began. -/
def returns (h : List Event) : List (BitVec 64 × BitVec 64 × ℕ) :=
  h.filterMap fun
    | .returned lo hi since => some (lo, hi, since)
    | _ => none

def remaining (h : List Event) : List ExitFn :=
  (registered h).filter fun f => !(called h).any (·.id == f.id)

/-- The function or the object handle lies in `[lo, hi)`. -/
def ExitFn.In (guard lo hi : BitVec 64) (f : ExitFn) : Prop :=
  (lo ≤ ptrDemangle guard f.fn ∧ ptrDemangle guard f.fn < hi) ∨ (lo ≤ f.dso ∧ f.dso < hi)

instance (guard lo hi : BitVec 64) (f : ExitFn) : Decidable (f.In guard lo hi) :=
  inferInstanceAs (Decidable (_ ∨ _))

variable {guard lo hi : BitVec 64} {s s' : State} {h : List Event} {o : Event} {a : Action}
  {f g : ExitFn} {c c' todo todo' : Chain} {b i b' i' since : ℕ} {k : List Frame}

theorem remaining_registered (hnew : ∀ g ∈ called h, g.id < f.id) :
    remaining (.registered f :: h) = f :: remaining h := by
  have hnone : (called h).any (·.id == f.id) = false := by
    rw [any_eq_false]
    intro g hg
    have := hnew g hg
    simp only [beq_iff_eq]
    omega
  change (f :: registered h).filter (fun g => !(called h).any (·.id == g.id)) = _
  rw [filter_cons_of_pos (by simp [hnone])]
  rfl

theorem remaining_called (f : ExitFn) (w : Caller) (h : List Event) :
    remaining (.called f w :: h) = (remaining h).filter (·.id ≠ f.id) := by
  change (registered h).filter (fun g => !(f :: called h).any (·.id == g.id)) = _
  rw [remaining, filter_filter]
  refine filter_congr fun g _ => ?_
  simp [eq_comm, beq_eq_decide]

theorem mem_remaining : f ∈ remaining h ↔ f ∈ registered h ∧ ∀ g ∈ called h, g.id ≠ f.id := by
  simp [remaining]

theorem hits_of_In (hf : f.In guard lo hi) : hits guard lo hi f = true := by
  have hsub : ∀ x : BitVec 64, lo ≤ x → x < hi → ¬ x - lo ≥ hi - lo := by
    intro x h1 h2
    rw [ge_iff_le]
    bv_omega
  simp only [hits, Bool.not_eq_true', Bool.and_eq_false_iff, decide_eq_false_iff_not]
  exact hf.imp (fun h => hsub _ h.1 h.2) fun h => hsub _ h.1 h.2

/-! ## Places -/

/-- The handler `f` is at a place of the chain; `todo` is what is below. -/
def Place (c : Chain) (b i : ℕ) (f : ExitFn) (todo : Chain) : Prop :=
  ∃ (c₁ : Chain) (l fs : List ExitFn) (bs : Chain),
    c = c₁ ++ (l ++ f :: fs) :: bs ∧ b = bs.length ∧ i = fs.length ∧ todo = fs :: bs

theorem Place.mem (h : Place c b i f todo) : f ∈ c.flatten := by
  obtain ⟨c₁, l, fs, bs, rfl, -⟩ := h
  simp

theorem Place.trans (h : Place c b i f todo) (h' : Place todo b' i' g todo') :
    Place c b' i' g todo' := by
  obtain ⟨c₁, l, fs, bs, rfl, -, -, rfl⟩ := h
  obtain ⟨c₂, l', fs', bs', he, hb', hi', rfl⟩ := h'
  cases c₂ with
  | nil =>
    cases he
    exact ⟨c₁, l ++ f :: l', fs', bs, by simp, hb', hi', rfl⟩
  | cons d c₂ =>
    cases he
    exact ⟨c₁ ++ (l ++ f :: fs) :: c₂, l', fs', bs', by simp, hb', hi', rfl⟩

variable {mem : Bool} {x : ℕ}

theorem addExit_cases (h : addExit f mem c = some c') :
    c' = [f] :: c ∨ ∃ d ds, c = d :: ds ∧ c' = (f :: d) :: ds := by
  cases c with
  | nil => exact .inl (Option.some.inj h).symm
  | cons d ds =>
    rw [addExit] at h
    split_ifs at h
    · exact .inl (Option.some.inj h).symm
    · exact .inr ⟨d, ds, rfl, (Option.some.inj h).symm⟩

/-- Places are counted from below, so they stay when a handler is added. -/
theorem Place.addExit (h : Place c b i f todo)
    (ha : Exit.addExit g mem c = some c') : Place c' b i f todo := by
  obtain ⟨c₁, l, fs, bs, rfl, hb, hi, ht⟩ := h
  rcases addExit_cases ha with rfl | ⟨d, ds, hc, rfl⟩
  · exact ⟨[g] :: c₁, l, fs, bs, rfl, hb, hi, ht⟩
  · cases c₁ with
    | nil =>
      cases hc
      exact ⟨[], g :: l, fs, bs, rfl, hb, hi, ht⟩
    | cons d c₁ =>
      cases hc
      exact ⟨(g :: d) :: c₁, l, fs, bs, rfl, hb, hi, ht⟩

theorem Place.map (m : ExitFn → ExitFn) (h : Place c b i f todo) :
    Place (c.map (List.map m)) b i (m f) (todo.map (List.map m)) := by
  obtain ⟨c₁, l, fs, bs, rfl, hb, hi, rfl⟩ := h
  exact ⟨c₁.map (List.map m), l.map m, fs.map m, bs.map (List.map m), by simp, by simpa, by simpa,
    by simp⟩

theorem below_eq (h : Place c b i f todo) : below b i c = todo := by
  obtain ⟨c₁, l, fs, bs, rfl, rfl, rfl, rfl⟩ := h
  induction c₁ with
  | nil =>
    rw [nil_append, below, if_pos rfl, length_append, length_cons]
    rw [show l.length + (fs.length + 1) - fs.length = l.length + 1 by omega]
    simp [drop_append]
  | cons d c₁ ih =>
    rw [cons_append, below, if_neg (by simp; omega)]
    exact ih

/-! ## What the loops find -/

theorem first_cases {β : Type} {F : List ExitFn → Option β} {p : ExitFn → Prop}
    {r : ExitFn → List ExitFn → β} (hnil : F [] = none) (hpos : ∀ f fs, p f →
      F (f :: fs) = some (r f fs))
    (hneg : ∀ f fs, ¬ p f → F (f :: fs) = F fs) (l : List ExitFn) :
    (∃ l₁ f fs, l = l₁ ++ f :: fs ∧ F l = some (r f fs) ∧ p f ∧ ∀ g ∈ l₁, ¬ p g) ∨
      (F l = none ∧ ∀ g ∈ l, ¬ p g) := by
  induction l with
  | nil => exact .inr ⟨hnil, by simp⟩
  | cons g l ih =>
    by_cases hg : p g
    · exact .inl ⟨[], g, l, rfl, hpos g l hg, hg, by simp⟩
    · rw [hneg g l hg]
      rcases ih with ⟨l₁, f, fs, rfl, hF, hf, hl⟩ | ⟨hF, hl⟩
      · exact .inl ⟨g :: l₁, f, fs, rfl, hF, hf, forall_mem_cons.mpr ⟨hg, hl⟩⟩
      · exact .inr ⟨hF, forall_mem_cons.mpr ⟨hg, hl⟩⟩

theorem live_iff : f.live = true ↔ ¬ f.cxa < 0 := by simp [ExitFn.live]

theorem scanBlock_cases (guard lo hi : BitVec 64) (l : List ExitFn) :
    (∃ l₁ f fs, l = l₁ ++ f :: fs ∧ scanBlock guard lo hi l = some (f, fs.length) ∧
      (f.live ∧ hits guard lo hi f) ∧ ∀ g ∈ l₁, ¬ (g.live ∧ hits guard lo hi g)) ∨
      (scanBlock guard lo hi l = none ∧ ∀ g ∈ l, ¬ (g.live ∧ hits guard lo hi g)) := by
  refine first_cases rfl ?_ ?_ l
  · rintro f fs ⟨hl, hh⟩
    rw [scanBlock, if_neg (live_iff.mp hl), if_pos hh]
  · intro f fs hf
    rw [scanBlock]
    split_ifs with h1 h2
    · rfl
    · exact absurd ⟨live_iff.mpr h1, h2⟩ hf
    · rfl

/-- The handler that is found is at its place; those of the range that are left are below. -/
theorem scan_cases (guard lo hi : BitVec 64) (c : Chain) :
    (∃ f b i todo, scan guard lo hi c = some (f, b, i) ∧ Place c b i f todo ∧ f.live ∧
      ∀ g ∈ c.flatten, g.live ∧ hits guard lo hi g → g = f ∨ g ∈ todo.flatten) ∨
      (scan guard lo hi c = none ∧ ∀ g ∈ c.flatten, ¬ (g.live ∧ hits guard lo hi g)) := by
  induction c with
  | nil => exact .inr ⟨rfl, by simp⟩
  | cons blk bs ih =>
    rw [scan]
    rcases scanBlock_cases guard lo hi blk with ⟨l, f, fs, rfl, hs, hf, hl⟩ | ⟨hs, hl⟩
    · rw [hs]
      refine .inl ⟨f, _, _, _, rfl, ⟨[], l, fs, bs, rfl, rfl, rfl, rfl⟩, hf.1, fun g hg hgh => ?_⟩
      simp only [flatten_cons, append_assoc, cons_append, mem_append, mem_cons] at hg ⊢
      exact hg.resolve_left fun hg => hl g hg hgh
    · rw [hs]
      rcases ih with ⟨f, b, i, todo, hs, ⟨c₁, l, fs, ds, rfl, hb, hi, ht⟩, hf, hrest⟩ | ⟨hs, hno⟩
      · refine .inl ⟨f, b, i, todo, hs, ⟨blk :: c₁, l, fs, ds, rfl, hb, hi, ht⟩, hf,
          fun g hg hgh => ?_⟩
        exact hrest g ((mem_append.mp hg).resolve_left fun hg => hl g hg hgh) hgh
      · exact .inr ⟨hs, forall_mem_append.mpr ⟨hl, hno⟩⟩

theorem popExit_eq (c : Chain) :
    (∃ f c', popExit c = some (f, c') ∧ c'.flatten.Sublist c.flatten ∧
        c.flatten.filter ExitFn.live = f :: c'.flatten.filter ExitFn.live) ∨
      (popExit c = none ∧ c.flatten.filter ExitFn.live = []) := by
  induction c with
  | nil => exact .inr ⟨rfl, rfl⟩
  | cons blk bs ih =>
    rw [popExit, flatten_cons, filter_append]
    have hblk := first_cases (F := popBlock) (p := fun f => f.live) (r := Prod.mk) rfl
      (fun f fs hf => by rw [popBlock, if_neg (live_iff.mp hf)])
      (fun f fs hf => by rw [popBlock, if_pos (not_not.mp (mt live_iff.mpr hf))]) blk
    rcases hblk with ⟨l, f, fs, rfl, hp, hf, hl⟩ | ⟨hp, hl⟩
    · refine .inl ⟨f, fs :: bs, by rw [hp], ?_, ?_⟩
      · refine List.Sublist.append ?_ (List.Sublist.refl _)
        exact (sublist_cons_self _ _).trans (sublist_append_right _ _)
      · rw [filter_append, filter_eq_nil_iff.mpr hl, filter_cons_of_pos hf]
        simp
    · rw [hp, filter_eq_nil_iff.mpr hl, nil_append]
      rcases ih with ⟨f, c', hc, hsub, hlive⟩ | ih
      · exact .inl ⟨f, c', hc, hsub.trans (sublist_append_right _ _), hlive⟩
      · exact .inr ih

/-! ## Marks -/

/-- Handlers with distinct numbers, the newest first. -/
abbrev Sorted (l : List ExitFn) : Prop := l.Pairwise fun f g => g.id < f.id

def markId (x : ℕ) (f : ExitFn) : ExitFn := if f.id = x then { f with cxa := -1 } else f

@[simp] theorem markId_id (x : ℕ) (f : ExitFn) : (markId x f).id = f.id := by
  unfold markId
  split_ifs <;> rfl

theorem markId_of_ne (h : f.id ≠ x) : markId x f = f := if_neg h

theorem markId_live (x : ℕ) (f : ExitFn) : (markId x f).live = (f.live && f.id ≠ x) := by
  unfold markId
  split_ifs with h <;> simp [h, ExitFn.live]

theorem filter_markId (x : ℕ) (l : List ExitFn) :
    (l.map (markId x)).filter ExitFn.live = (l.filter ExitFn.live).filter (·.id ≠ x) := by
  induction l with
  | nil => rfl
  | cons f l ih =>
    rw [map_cons, filter_cons, ih, markId_live]
    by_cases hl : f.live = true
    · by_cases hx : f.id = x
      · simp [hl, hx]
      · simp [hl, hx, markId_of_ne hx]
    · simp [hl]

theorem map_markId_of_ne {l : List ExitFn} (h : ∀ g ∈ l, g.id ≠ x) : l.map (markId x) = l := by
  have hid : ∀ g ∈ l, markId x g = id g := fun g hg => markId_of_ne (h g hg)
  rw [map_congr_left hid, map_id]

theorem markBlock_eq (l fs : List ExitFn) (f : ExitFn) :
    markBlock fs.length (l ++ f :: fs) = l ++ { f with cxa := -1 } :: fs := by
  induction l with
  | nil => rw [nil_append, markBlock, if_pos rfl, nil_append]
  | cons g l ih =>
    rw [cons_append, markBlock, if_neg (by simp; omega), ih, cons_append]

theorem mark_append (c₁ bs : Chain) (blk : List ExitFn) (i : ℕ) :
    mark bs.length i (c₁ ++ blk :: bs) = c₁ ++ markBlock i blk :: bs := by
  induction c₁ with
  | nil => rw [nil_append, mark, if_pos rfl, nil_append]
  | cons d c₁ ih => rw [cons_append, mark, if_neg (by simp; omega), ih, cons_append]

/-- Numbers are distinct, so the mark at a place is the mark of a number. -/
theorem mark_eq (h : Place c b i f todo) (hs : Sorted c.flatten) :
    mark b i c = c.map (List.map (markId f.id)) := by
  obtain ⟨c₁, l, fs, bs, rfl, rfl, rfl, -⟩ := h
  simp only [Sorted, flatten_append, flatten_cons, append_assoc, cons_append,
    pairwise_append, pairwise_cons] at hs
  obtain ⟨-, ⟨-, ⟨hlow, -⟩, hl⟩, hc₁⟩ := hs
  have hids : ∀ g, (g ∈ c₁.flatten ∨ g ∈ l ∨ g ∈ fs ∨ g ∈ bs.flatten) → g.id ≠ f.id := by
    rintro g (hg | hg | hg | hg)
    · exact (hc₁ g hg f (by simp)).ne'
    · exact (hl g hg f (by simp)).ne'
    · exact (hlow g (mem_append_left _ hg)).ne
    · exact (hlow g (mem_append_right _ hg)).ne
  have hmap : ∀ d : Chain, (∀ g ∈ d.flatten, g.id ≠ f.id) →
      d.map (List.map (markId f.id)) = d := by
    intro d hd
    have hid : ∀ blk ∈ d, List.map (markId f.id) blk = id blk := fun blk hblk =>
      map_markId_of_ne fun g hg => hd g (mem_flatten_of_mem hblk hg)
    rw [map_congr_left hid, map_id]
  rw [mark_append, markBlock_eq, map_append, map_cons, map_append, map_cons,
    hmap c₁ fun g hg => hids g (.inl hg),
    hmap bs fun g hg => hids g (.inr (.inr (.inr hg))),
    map_markId_of_ne fun g hg => hids g (.inr (.inl hg)),
    map_markId_of_ne fun g hg => hids g (.inr (.inr (.inl hg))), markId, if_pos rfl]

/-! ## The invariant -/

/-- The handlers of the range that were there when the call began are below the place, or marked. -/
def Covers (guard lo hi : BitVec 64) (since : ℕ) (c todo : Chain) : Prop :=
  ∀ f ∈ c.flatten, f.live → hits guard lo hi f → f.id < since → f ∈ todo.flatten

/-- The range calls that have to go on; those below a call of `exit` never do. -/
def active : List Frame → List Frame
  | .range lo hi since b i :: k => .range lo hi since b i :: active k
  | _ => []

/-- A range call that began after the registration of `f`, with `f` in its range, has returned. -/
def ClearedBy (guard : BitVec 64) (h : List Event) (f : ExitFn) : Prop :=
  ∃ lo hi since, (lo, hi, since) ∈ returns h ∧ f.id < since ∧ f.In guard lo hi

structure Inv (guard : BitVec 64) (s : State) (h : List Event) : Prop where
  live : s.exitCur.flatten.filter ExitFn.live = remaining h
  sorted : Sorted s.exitCur.flatten
  lt_count : ∀ f ∈ s.exitCur.flatten, f.id < s.count
  reg_sorted : Sorted (registered h)
  reg_lt : ∀ f ∈ registered h, f.id < s.count
  called_reg : ∀ f ∈ called h, f ∈ registered h
  once : ((called h).map ExitFn.id).Nodup
  covers : s.finished = false → ∀ lo hi since b i, .range lo hi since b i ∈ active s.stack →
    since ≤ s.count ∧ ∃ f todo, Place s.exitCur b i f todo ∧
      Covers guard lo hi since s.exitCur todo
  finished : s.finished = true → remaining h = []
  noneLeft : ∀ r ∈ returns h, r.2.2 ≤ s.count ∧
    ∀ f ∈ remaining h, f.id < r.2.2 → ¬ hits guard r.1 r.2.1 f

theorem Inv.init : Inv guard {} [] where
  live := rfl
  sorted := List.Pairwise.nil
  lt_count := by simp
  reg_sorted := List.Pairwise.nil
  reg_lt := by simp [registered]
  called_reg := by simp [called]
  once := nodup_nil
  covers := by simp [active]
  finished := by simp
  noneLeft := by simp [returns]

/-! ## What one step can do -/

/-- A range call that begins with the whole chain, or goes on behind the handler it called. -/
inductive Goes (s : State) (lo hi : BitVec 64) : ℕ → Chain → List Frame → Prop
  | start : Goes s lo hi s.count s.exitCur s.stack
  | next {since b i : ℕ} {k : List Frame} (hk : s.stack = .range lo hi since b i :: k) :
    Goes s lo hi since (below b i s.exitCur) k

/-- What a step can do. -/
inductive Did (guard : BitVec 64) (s : State) : State → Event → Prop
  | registered {f : ExitFn} {mem : Bool} {c : Chain} (hid : f.id = s.count) (hlive : f.live)
    (ha : addExit f mem s.exitCur = some c) :
    Did guard s { s with exitCur := c, count := s.count + 1 } (.registered f)
  | none {o : Event} (ho : o = .refused ∨ o = .nothing) : Did guard s s o
  | range {lo hi : BitVec 64} {since : ℕ} {todo : Chain} {k : List Frame} {r : State × Event}
    (hg : Goes s lo hi since todo k) (hr : goOn guard s lo hi since todo k = r) :
    Did guard s r.1 r.2
  | exit {e : Bool} {k : List Frame} {r : State × Event}
    (hr : runExitFns { s with exiting := e } k = r) : Did guard s r.1 r.2

theorem step_cases (hstep : step guard s a = some (s', o)) :
    s.finished = false ∧ Did guard s s' o := by
  unfold step at hstep
  by_cases hf : s.finished = true
  · rw [if_pos hf] at hstep
    cases hstep
  rw [if_neg hf] at hstep
  refine ⟨Bool.eq_false_iff.mpr hf, ?_⟩
  have hreg : ∀ fn arg dso cxa mem, 0 ≤ cxa →
      some (register guard s fn arg dso cxa mem) = some (s', o) → Did guard s s' o := by
    intro fn arg dso cxa mem hcxa h
    rw [register] at h
    split at h
    · rename_i c hc
      cases h
      exact .registered rfl (decide_eq_true hcxa) hc
    · cases h
      exact .none (.inl rfl)
  have hrange : ∀ lo hi, some (exitFnsInRange guard s lo hi) = some (s', o) → Did guard s s' o :=
    fun lo hi h => .range .start (Option.some.inj h)
  cases a with
  | atexit fn mem | cxaAtexit fn arg dso mem => exact hreg _ _ _ _ _ (by decide) hstep
  | exitFnsInRange lo hi => exact hrange lo hi hstep
  | cxaFinalize dso =>
    dsimp only at hstep
    split_ifs at hstep
    · cases hstep
      exact .none (.inr rfl)
    · exact hrange _ _ hstep
  | exit =>
    dsimp only at hstep
    split_ifs at hstep
    exact .exit (Option.some.inj hstep)
  | ret =>
    dsimp only at hstep
    split at hstep
    · cases hstep
    · rename_i hk
      exact .range (.next hk) (Option.some.inj hstep)
    · exact .exit (e := s.exiting) (Option.some.inj hstep)

theorem addExit_flatten (h : addExit f mem c = some c') : c'.flatten = f :: c.flatten := by
  rcases addExit_cases h with rfl | ⟨d, ds, rfl, rfl⟩
  · rfl
  · rfl

theorem Inv.register (hinv : Inv guard s h) (hid : f.id = s.count) (hlive : f.live)
    (ha : addExit f mem s.exitCur = some c) (hfin : s.finished = false) :
    Inv guard { s with exitCur := c, count := s.count + 1 } (.registered f :: h) := by
  have hflat := addExit_flatten ha
  have hcalled : ∀ g ∈ called h, g.id < f.id := fun g hg => by
    have := hinv.reg_lt g (hinv.called_reg g hg)
    omega
  have hreg : ∀ g ∈ registered h, g.id < f.id := fun g hg => hid ▸ hinv.reg_lt g hg
  constructor
  · rw [remaining_registered hcalled, ← hinv.live, hflat, filter_cons_of_pos hlive]
  · rw [hflat]
    exact pairwise_cons.mpr ⟨fun g hg => hid ▸ hinv.lt_count g hg, hinv.sorted⟩
  · rw [hflat]
    refine forall_mem_cons.mpr ⟨by dsimp only; omega, fun g hg => ?_⟩
    exact lt_succ_of_lt (hinv.lt_count g hg)
  · exact pairwise_cons.mpr ⟨hreg, hinv.reg_sorted⟩
  · refine forall_mem_cons.mpr ⟨by dsimp only; omega, fun g hg => ?_⟩
    exact lt_succ_of_lt (hinv.reg_lt g hg)
  · exact fun g hg => mem_cons_of_mem _ (hinv.called_reg g hg)
  · exact hinv.once
  · intro _ lo hi since b i hk
    obtain ⟨hle, g, todo, hplace, hcov⟩ := hinv.covers hfin lo hi since b i hk
    refine ⟨le_succ_of_le hle, g, todo, hplace.addExit ha, fun g' hg' hl hh hlt => ?_⟩
    -- the new handler came after the call began
    rw [hflat] at hg'
    rcases mem_cons.mp hg' with rfl | hg'
    · omega
    · exact hcov g' hg' hl hh hlt
  · exact fun h => absurd h (by simp [hfin])
  · intro r hr
    obtain ⟨hle, hno⟩ := hinv.noneLeft r hr
    rw [remaining_registered hcalled]
    refine ⟨le_succ_of_le hle, forall_mem_cons.mpr ⟨fun hlt => ?_, hno⟩⟩
    omega

theorem Goes.spec (hg : Goes s lo hi since todo k) (hinv : Inv guard s h)
    (hfin : s.finished = false) : since ≤ s.count ∧ Covers guard lo hi since s.exitCur todo ∧
    (∀ {b i f t}, Place todo b i f t → Place s.exitCur b i f t) ∧
    ∀ fr ∈ active k, fr ∈ active s.stack := by
  cases hg with
  | start => exact ⟨le_rfl, fun f hf _ _ _ => hf, id, fun fr hfr => hfr⟩
  | next hk =>
    obtain ⟨hle, f, todo, hplace, hcov⟩ :=
      hinv.covers hfin _ _ _ _ _ (by rw [hk]; exact mem_cons_self)
    rw [below_eq hplace]
    refine ⟨hle, hcov, hplace.trans, fun fr hfr => ?_⟩
    rw [hk]
    exact mem_cons_of_mem _ hfr

theorem mem_map_markId (hf : f ∈ (c.map (List.map (markId x))).flatten) (hl : f.live) :
    f ∈ c.flatten ∧ f.id ≠ x := by
  rw [← map_flatten] at hf
  obtain ⟨g, hg, rfl⟩ := mem_map.mp hf
  rw [markId_live, Bool.and_eq_true, decide_eq_true_eq] at hl
  rw [markId_of_ne hl.2]
  exact ⟨hg, hl.2⟩

theorem Covers.mark (hcov : Covers guard lo hi since c todo) :
    Covers guard lo hi since (c.map (List.map (markId x))) (todo.map (List.map (markId x))) := by
  intro f hf hl hh hlt
  obtain ⟨hf, hx⟩ := mem_map_markId hf hl
  rw [← map_flatten]
  exact mem_map.mpr ⟨f, hcov f hf hl hh hlt, markId_of_ne hx⟩

section

variable (hinv : Inv guard s h)
include hinv

/-- A handler that is not marked is called for the first time. -/
theorem Inv.fresh (hf : f ∈ s.exitCur.flatten) (hl : f.live) :
    f ∈ registered h ∧ f.id ∉ (called h).map ExitFn.id := by
  have hrem : f ∈ remaining h := hinv.live ▸ mem_filter.mpr ⟨hf, hl⟩
  obtain ⟨hreg, hne⟩ := mem_remaining.mp hrem
  refine ⟨hreg, fun hmem => ?_⟩
  obtain ⟨g, hg, hid⟩ := mem_map.mp hmem
  exact hne g hg hid

theorem Inv.noneLeft_called (f : ExitFn) (w : Caller) : ∀ r ∈ returns h, r.2.2 ≤ s.count ∧
    ∀ g ∈ remaining (.called f w :: h), g.id < r.2.2 → ¬ hits guard r.1 r.2.1 g := by
  rw [remaining_called]
  exact fun r hr => (hinv.noneLeft r hr).imp_right fun hno g hg => hno g (mem_filter.mp hg).1

theorem Inv.rangeCall (hg : Goes s lo hi since todo k)
    (hscan : scan guard lo hi todo = some (f, b, i)) (hfin : s.finished = false) :
    Inv guard { s with exitCur := mark b i s.exitCur, stack := .range lo hi since b i :: k }
      (.called f .range :: h) := by
  obtain ⟨hle, hcov, hup, hk⟩ := hg.spec hinv hfin
  obtain ⟨_, _, _, todo', hs, hplace, hlive, hrest⟩ | ⟨hs, -⟩ := scan_cases guard lo hi todo
  all_goals
    rw [hscan] at hs
    cases hs
  have hplace' := hup hplace
  obtain ⟨hreg, hnew⟩ := hinv.fresh hplace'.mem hlive
  rw [mark_eq hplace' hinv.sorted]
  constructor
  · rw [remaining_called, ← hinv.live, ← map_flatten, filter_markId]
  · rw [← map_flatten]
    exact pairwise_map.mpr (hinv.sorted.imp fun h => by simpa using h)
  · rw [← map_flatten]
    intro g hg
    obtain ⟨g', hg', rfl⟩ := mem_map.mp hg
    rw [markId_id]
    exact hinv.lt_count g' hg'
  · exact hinv.reg_sorted
  · exact hinv.reg_lt
  · exact forall_mem_cons.mpr ⟨hreg, hinv.called_reg⟩
  · exact nodup_cons.mpr ⟨hnew, hinv.once⟩
  · intro _ lo' hi' since' b' i' hmem
    rcases mem_cons.mp hmem with heq | hmem
    · cases heq
      refine ⟨hle, _, _, hplace'.map (markId f.id), fun g hg hl hh hlt => ?_⟩
      obtain ⟨hg, hx⟩ := mem_map_markId hg hl
      have hg' :=
        (hrest g (hcov g hg hl hh hlt) ⟨hl, hh⟩).resolve_left (by rintro rfl; exact hx rfl)
      rw [← map_flatten]
      exact mem_map.mpr ⟨g, hg', markId_of_ne hx⟩
    · obtain ⟨hle', g, t, hplace, hcov⟩ := hinv.covers hfin lo' hi' since' b' i' (hk _ hmem)
      exact ⟨hle', _, _, hplace.map (markId f.id), hcov.mark⟩
  · exact fun h => absurd h (by simp [hfin])
  · exact hinv.noneLeft_called f .range

/-- A range call that returns leaves no handler of its range that was there when it began. -/
theorem Inv.cleared (hg : Goes s lo hi since todo k)
    (hscan : scan guard lo hi todo = none) (hfin : s.finished = false) :
    ∀ f ∈ remaining h, f.id < since → ¬ hits guard lo hi f := by
  intro f hf hlt hhit
  rw [← hinv.live] at hf
  obtain ⟨hf, hl⟩ := mem_filter.mp hf
  obtain ⟨_, _, _, _, hs, -⟩ | ⟨-, hno⟩ := scan_cases guard lo hi todo
  · rw [hscan] at hs
    cases hs
  · exact hno f ((hg.spec hinv hfin).2.1 f hf hl hhit hlt) ⟨hl, hhit⟩

theorem Inv.rangeReturn (hg : Goes s lo hi since todo k)
    (hscan : scan guard lo hi todo = none) (hfin : s.finished = false) :
    Inv guard { s with stack := k } (.returned lo hi since :: h) :=
  { hinv with
    covers := fun _ lo hi since b i hmem =>
      hinv.covers hfin lo hi since b i ((hg.spec hinv hfin).2.2.2 _ hmem)
    noneLeft := forall_mem_cons.mpr
      ⟨⟨(hg.spec hinv hfin).1, hinv.cleared hg hscan hfin⟩, hinv.noneLeft⟩ }

theorem Inv.exitCall {e : Bool} (hsub : c'.flatten.Sublist s.exitCur.flatten)
    (hpop : s.exitCur.flatten.filter ExitFn.live = f :: c'.flatten.filter ExitFn.live)
    (hfin : s.finished = false) :
    Inv guard { s with exitCur := c', stack := .exit :: k, exiting := e }
      (.called f .exit :: h) := by
  obtain ⟨hmem, hl⟩ := mem_filter.mp (hpop ▸ mem_cons_self : f ∈ _)
  obtain ⟨hreg, hnew⟩ := hinv.fresh hmem hl
  have hsorted := hinv.sorted.filter (p := ExitFn.live)
  rw [hpop] at hsorted
  have hlow : ∀ g ∈ c'.flatten.filter ExitFn.live, g.id ≠ f.id := fun g hg =>
    ((pairwise_cons.mp hsorted).1 g hg).ne
  constructor
  · rw [remaining_called, ← hinv.live, hpop, filter_cons_of_neg (by simp)]
    exact (filter_eq_self.mpr fun g hg => by simpa using hlow g hg).symm
  · exact hinv.sorted.sublist hsub
  · exact fun g hg => hinv.lt_count g (hsub.subset hg)
  · exact hinv.reg_sorted
  · exact hinv.reg_lt
  · exact forall_mem_cons.mpr ⟨hreg, hinv.called_reg⟩
  · exact nodup_cons.mpr ⟨hnew, hinv.once⟩
  · exact fun _ _ _ _ _ _ hmem => absurd hmem (by simp [active])
  · exact fun h => absurd h (by simp [hfin])
  · exact hinv.noneLeft_called f .exit

theorem Inv.exitEnd {e : Bool} (hpop : s.exitCur.flatten.filter ExitFn.live = []) :
    Inv guard { s with exitCur := [], stack := k, exiting := e, finished := true }
      (.finished :: h) := by
  have hrem : remaining h = [] := hinv.live ▸ hpop
  exact
    { hinv with
      live := hrem.symm, sorted := List.Pairwise.nil, lt_count := by simp
      finished := fun _ => hrem, covers := fun h => absurd h (by simp) }

/-! ## Runs -/

theorem Inv.runExitFns (e : Bool) (k : List Frame) : (Exit.runExitFns { s with exiting := e } k).2 =
      (remaining h).head?.elim .finished (.called · .exit) := by
  rw [Exit.runExitFns, ← hinv.live]
  rcases popExit_eq s.exitCur with ⟨f, c', hp, -, hl⟩ | ⟨hp, hl⟩
  · rw [hp, hl]
    rfl
  · rw [hp, hl]
    rfl

/-- What a step tells: `exit` calls the newest handler that remains, and a range call leaves only
handlers that came after it had begun. -/
def Tells (guard : BitVec 64) (o : Event) (h : List Event) : Prop :=
  (∀ f, o = .called f .exit → (remaining h).head? = some f) ∧
    ∀ lo hi since, o = .returned lo hi since →
      ∀ f ∈ remaining h, f.id < since → ¬ hits guard lo hi f

theorem step_spec (hstep : step guard s a = some (s', o)) :
    Inv guard s' (o :: h) ∧ Tells guard o h := by
  obtain ⟨hfin, hdid⟩ := step_cases hstep
  cases hdid with
  | registered hid hlive ha => exact ⟨hinv.register hid hlive ha hfin, by simp, by simp⟩
  | none ho =>
    rcases ho with rfl | rfl
    · exact ⟨{ hinv with }, by simp, by simp⟩
    · exact ⟨{ hinv with }, by simp, by simp⟩
  | range hg he =>
    rw [goOn] at he
    split at he
    · rename_i hscan
      cases he
      exact ⟨hinv.rangeCall hg hscan hfin, by simp, by simp⟩
    · rename_i hscan
      cases he
      refine ⟨hinv.rangeReturn hg hscan hfin, by simp, fun lo' hi' since' ho => ?_⟩
      cases ho
      exact hinv.cleared hg hscan hfin
  | exit he =>
    rw [Exit.runExitFns] at he
    rcases popExit_eq s.exitCur with ⟨f, c', hp, hsub, hl⟩ | ⟨hp, hl⟩
    · rw [hp] at he
      cases he
      refine ⟨hinv.exitCall hsub hl hfin, fun f' hf' => ?_, by simp⟩
      cases hf'
      rw [← hinv.live, hl, List.head?_cons]
    · rw [hp] at he
      cases he
      exact ⟨hinv.exitEnd hl, by simp, by simp⟩

end

theorem run_inv {as : List Action} (hrun : run (step guard) {} [] as = some (s, h)) :
    Inv guard s h :=
  Always.run (P := Inv guard) (Always.of_invariant (P := Inv guard)
    (fun _ _ _ _ _ hp hs => (step_spec hp hs).1) .init) hrun

theorem run_tells {as : List Action} (hrun : run (step guard) {} [] as = some (s, h)) :
    ∀ later o earlier, h = later ++ o :: earlier →
      Tells guard o earlier ∧ ∃ t, Inv guard t earlier :=
  run_output (P := Inv guard)
    (fun s _ _ _ _ hp hs => ⟨(step_spec hp hs).1, (step_spec hp hs).2, s, hp⟩)
    .init hrun (by simp)

theorem Inv.distinct (hinv : Inv guard s h) : ((registered h).map ExitFn.id).Nodup :=
  pairwise_map.mpr (hinv.reg_sorted.imp fun h => h.ne')

theorem Inv.mem_called (hinv : Inv guard s h) (hf : f ∈ registered h) (hr : f ∉ remaining h) :
    f ∈ called h := by
  by_contra hnot
  refine hr (mem_remaining.mpr ⟨hf, fun g hg hid => hnot ?_⟩)
  rwa [← inj_on_of_nodup_map hinv.distinct (hinv.called_reg g hg) hf hid]

/-- The action lets the loop of `exit` go on: `exit` is called, or a handler that it called
returns. -/
def Drains (s : State) (a : Action) : Prop :=
  s.finished = false ∧
    ((a = .exit ∧ s.exiting = false) ∨ (a = .ret ∧ ∃ k, s.stack = .exit :: k))

/-- **Order of exit handlers.** In every program `exit` calls, each time, the newest of the
remaining handlers. No handler is called twice, by `exit` or by a range call; `exit` goes on until
none remains, and then every handler has been called. -/
theorem exit_newest_first (guard : BitVec 64) (as : List Action) (s : State) (h : List Event)
    (hrun : run (step guard) {} [] as = some (s, h)) :
    (∀ later f earlier, h = later ++ .called f .exit :: earlier →
      (remaining earlier).head? = some f) ∧
    ((registered h).map ExitFn.id).Nodup ∧ ((called h).map ExitFn.id).Nodup ∧
    (∀ f ∈ called h, f ∈ registered h) ∧
    (∀ a, Drains s a → ∃ s', step guard s a =
      some (s', (remaining h).head?.elim .finished (.called · .exit))) ∧
    (s.finished = true → ∀ f ∈ registered h, f ∈ called h) := by
  have hinv := run_inv hrun
  refine ⟨fun later f earlier he => (run_tells hrun later _ earlier he).1.1 f rfl, hinv.distinct,
    hinv.once, hinv.called_reg, ?_, fun hfin f hf => ?_⟩
  · rintro a ⟨hfin, ⟨rfl, he⟩ | ⟨rfl, k, hk⟩⟩
    · refine ⟨(runExitFns { s with exiting := true } s.stack).1, ?_⟩
      rw [← hinv.runExitFns true s.stack, step, if_neg (by simp [hfin])]
      simp [he]
    · refine ⟨(runExitFns s k).1, ?_⟩
      have ho : (runExitFns s k).2 = _ := hinv.runExitFns s.exiting k
      rw [← ho, step, if_neg (by simp [hfin]), hk]
  · refine hinv.mem_called hf ?_
    rw [hinv.finished hfin]
    exact not_mem_nil

/-- Two handlers, the newer of which registers a third one while `exit` runs it. -/
theorem exit_newest_first_three :
    let as : List Action := [.cxaAtexit 0x10 1 0x900 true, .atexit 0x20 true, .exit,
      .atexit 0x30 true, .ret, .ret, .ret]
    ∃ s h, run (step 5) {} [] as = some (s, h) ∧ (called h).map ExitFn.id = [0, 2, 1] ∧
      s.finished = true ∧ ∀ f ∈ registered h, f ∈ called h := by
  intro as
  exact ⟨_, _, rfl, rfl, rfl, (exit_newest_first 5 as _ _ rfl).2.2.2.2.2 rfl⟩

/-- **Range calls.** When `__exit_fns_in_range(lo, hi)` returns, no remaining handler has its
function or its handle in `[lo, hi)`, exactly if those that were registered while it ran have been
called. That is so if each of them, should there be any, lay in the range of a call that began after
its registration and has returned. -/
theorem returned_iff (guard : BitVec 64) (as : List Action) (s : State) (h : List Event)
    (hrun : run (step guard) {} [] as = some (s, h)) (later earlier : List Event)
    (lo hi : BitVec 64) (since : ℕ) (hh : h = later ++ .returned lo hi since :: earlier) :
    ((∀ f ∈ remaining earlier, ¬ f.In guard lo hi) ↔
      ∀ f ∈ registered earlier, since ≤ f.id → f.In guard lo hi → f ∈ called earlier) ∧
    ((∀ f ∈ registered earlier, since ≤ f.id → f.In guard lo hi → ClearedBy guard earlier f) →
      ∀ f ∈ remaining earlier, ¬ f.In guard lo hi) := by
  obtain ⟨⟨-, htells⟩, t, hinv⟩ := run_tells hrun later _ earlier hh
  refine ⟨⟨?_, ?_⟩, ?_⟩
  · exact fun hnone f hf _ hin => hinv.mem_called hf fun hrem => hnone f hrem hin
  · intro hnew f hf hin
    obtain ⟨hreg, hne⟩ := mem_remaining.mp hf
    by_cases hlt : f.id < since
    · exact htells lo hi since rfl f hf hlt (hits_of_In hin)
    · exact hne f (hnew f hreg (not_lt.mp hlt) hin) rfl
  · intro hnew f hf hin
    by_cases hlt : f.id < since
    · exact htells lo hi since rfl f hf hlt (hits_of_In hin)
    · obtain ⟨lo', hi', since', hret, hlt', hin'⟩ :=
        hnew f (mem_remaining.mp hf).1 (not_lt.mp hlt) hin
      exact (hinv.noneLeft _ hret).2 f hf hlt' (hits_of_In hin')

/-- A handler of the range that registers a handler of another range. -/
theorem returned_iff_other :
    let as : List Action := [.cxaAtexit 0x1000 0 0x1000 true, .exitFnsInRange 0x1000 0x2000,
      .cxaAtexit 0x5000 0 0x5000 true, .ret]
    ∃ s earlier, run (step 5) {} [] as = some (s, .returned 0x1000 0x2000 1 :: earlier) ∧
      (remaining earlier).length = 1 ∧ ∀ f ∈ remaining earlier, ¬ f.In 5 0x1000 0x2000 := by
  intro as
  refine ⟨_, _, rfl, rfl, (returned_iff 5 as _ _ rfl [] _ 0x1000 0x2000 1 rfl).1.mpr ?_⟩
  decide

/-- A handler of the range that registers another one while it runs leaves it behind. -/
theorem range_leaves_handler :
    let as : List Action := [.cxaAtexit 0x1000 0 0x1000 true, .exitFnsInRange 0x1000 0x2000,
      .cxaAtexit 0x1010 0 0x1000 true, .ret]
    ∃ s earlier, run (step 5) {} [] as = some (s, .returned 0x1000 0x2000 1 :: earlier) ∧
      ∃ f ∈ remaining earlier, f.In 5 0x1000 0x2000 := by
  intro as
  exact ⟨_, _, rfl, by decide⟩

end Citadel.Exit
