import Citadel.Regex.Program
import Mathlib.Algebra.Order.Ring.Int
import Mathlib.Tactic.Ring

/-!
# The code that `gen` emits

* `sizeOf_eq`: the size that the source computes is the number of instructions, unless it was cut
  off.
* `emits_gen`: the code of a tree is a block of that length behind the code that was there, and the
  places and loops its instructions refer to are those of the block.
-/

namespace Citadel.Regex

open Nat Int List

/-! ## Sizes -/

def Node.size : Node → ℕ
  | .empty => 0
  | .cat a b => a.size + b.size
  | .alt a b => a.size + b.size + 2
  | .group a _ => a.size + 2
  | .rep a mn none => if mn ≠ 0 then mn * a.size + 2 else a.size + 3
  | .rep a mn (some mx) => mn * a.size + (mx - mn) * (a.size + 1)
  | _ => 1

/-- The bounds of the repetitions are in order. -/
def Node.Ordered : Node → Prop
  | .cat a b => a.Ordered ∧ b.Ordered
  | .alt a b => a.Ordered ∧ b.Ordered
  | .group a _ => a.Ordered
  | .rep a mn mx => a.Ordered ∧ ∀ n, mx = some n → mn ≤ n
  | _ => True

variable {s : ℤ}

theorem capSize_of_gt (h : maxInst < s) : capSize s = maxInst + 1 := if_pos h

theorem capSize_congr {t : ℤ} (h : s = t ∨ (maxInst < s ∧ maxInst < t)) :
    capSize s = capSize t := by
  rcases h with rfl | ⟨hs, ht⟩
  · rfl
  · rw [capSize_of_gt hs, capSize_of_gt ht]

theorem capSize_cases (c : ℕ) : capSize c = c ∨ (capSize c = maxInst + 1 ∧ (maxInst : ℤ) < c) := by
  by_cases h : (c : ℤ) ≤ maxInst
  · exact .inl (if_neg (not_lt.mpr h))
  · exact .inr ⟨capSize_of_gt (not_le.mp h), not_le.mp h⟩

theorem capSize_add (a b k : ℕ) : capSize (capSize a + capSize b + k) = capSize (a + b + k) := by
  rcases capSize_cases a with ha | ⟨ha, ha'⟩
  · rcases capSize_cases b with hb | ⟨hb, hb'⟩
    · rw [ha, hb]
    · exact capSize_congr (.inr ⟨by omega, by omega⟩)
  · have := capSize_cases b
    exact capSize_congr (.inr ⟨by omega, by omega⟩)

theorem capSize_rep (c mn mx : ℕ) (h : mn ≤ mx) :
    capSize (mn * capSize c + ((mx : ℤ) - mn) * (capSize c + 1)) =
      capSize (mn * c + ((mx : ℤ) - mn) * (c + 1)) := by
  rcases capSize_cases c with hc | ⟨hc, hc'⟩
  · rw [hc]
  · have hsum : ∀ s : ℤ, mn * s + ((mx : ℤ) - mn) * (s + 1) = mx * s + (mx - mn) := fun s => by ring
    rw [hsum, hsum]
    rcases Nat.eq_zero_or_pos mx with rfl | hmx
    · exact capSize_congr (.inl (by simp))
    · -- one copy is already too large
      have hlarge : ∀ s : ℤ, maxInst < s → maxInst < mx * s + (mx - mn) := by
        intro s hs
        have hpos : (0 : ℤ) ≤ s := by omega
        have hle : s ≤ mx * s := le_mul_of_one_le_left hpos (by omega)
        omega
      exact capSize_congr (.inr ⟨hlarge _ (by omega), hlarge _ hc'⟩)

theorem capSize_star (c mn : ℕ) : capSize (if mn ≠ 0 then mn * capSize c + 2 else capSize c + 3) =
    capSize (if mn ≠ 0 then (mn * c + 2 : ℤ) else c + 3) := by
  rcases capSize_cases c with hc | ⟨hc, hc'⟩
  · rw [hc]
  · rcases Nat.eq_zero_or_pos mn with rfl | hmn
    · exact capSize_congr (.inr ⟨by simp; omega, by simp; omega⟩)
    · rw [if_pos (by omega), if_pos (by omega)]
      have hlarge : ∀ s : ℤ, maxInst < s → maxInst < mn * s + 2 := by
        intro s hs
        have hle : s ≤ mn * s := le_mul_of_one_le_left (by omega) (by omega)
        omega
      exact capSize_congr (.inr ⟨hlarge _ (by omega), hlarge _ hc'⟩)

/-- **`size_of`** is the number of instructions, cut off above `MAX_INST`. -/
theorem sizeOf_eq : ∀ {t : Node}, t.Ordered → sizeOf t = capSize t.size
  | .empty, _ | .char _, _ | .any, _ | .set _, _ | .assert _, _ | .bref _, _ => rfl
  | .cat a b, h => by
    rw [sizeOf, sizeOf_eq h.1, sizeOf_eq h.2]
    simpa [Node.size] using capSize_add a.size b.size 0
  | .alt a b, h => by
    rw [sizeOf, sizeOf_eq h.1, sizeOf_eq h.2]
    simpa [Node.size] using capSize_add a.size b.size 2
  | .group a n, h => by
    have hzero : capSize 0 = 0 := rfl
    rw [sizeOf, sizeOf_eq (t := a) h]
    simpa [Node.size, hzero] using capSize_add a.size 0 2
  | .rep a mn none, h => by
    rw [sizeOf, sizeOf_eq h.1, capSize_star, Node.size]
    split_ifs <;> push_cast <;> rfl
  | .rep a mn (some mx), h => by
    have hle : mn ≤ mx := h.2 mx rfl
    rw [sizeOf, sizeOf_eq h.1, capSize_rep _ _ _ hle, Node.size]
    push_cast [hle]
    rfl

/-! ## Blocks of code -/

/-- The places that an instruction refers to are below `n`, its loop is below `loops`. -/
def Inst.Within (n loops : ℕ) (i : Inst) : Prop :=
  match i.op with
  | .split => i.x < n ∧ 0 ≤ i.y ∧ i.y < n
  | .jmp => i.x < n
  | .check => i.x < n ∧ 0 ≤ i.y ∧ i.y < n ∧ i.z < loops
  | .enter => i.x < loops
  | _ => True

theorem Inst.Within.mono {n n' loops loops' : ℕ} {i : Inst} (h : i.Within n loops) (hn : n ≤ n')
    (hl : loops ≤ loops') : i.Within n' loops' := by
  unfold Inst.Within at *
  split at h <;> omega

/-- From `p` to `q` a block of `k` instructions was added. But for those at the places `todo`,
which wait for a target, they refer to places in the block or right behind it. -/
structure Emits (p q : Gen) (k : ℕ) (todo : List ℕ) : Prop where
  n_eq : q.n = p.n + k
  loops : p.nloops ≤ q.nloops
  old : ∀ j < p.n, q.code[j]? = p.code[j]?
  within : ∀ j i, p.n ≤ j → q.code[j]? = some i → j ∈ todo ∨ i.Within (q.n + 1) q.nloops

variable {p q r : Gen} {i : Inst} {f : Gen → Gen} {k l c j : ℕ} {todo todo' : List ℕ}

theorem Emits.refl (p : Gen) : Emits p p 0 [] := by
  refine ⟨rfl, le_rfl, fun _ _ => rfl, fun j i hj hi => ?_⟩
  rw [getElem?_eq_none hj] at hi
  cases hi

theorem Emits.trans (h : Emits p q k todo) (h' : Emits q r l todo') :
    Emits p r (k + l) (todo ++ todo') := by
  have hn := h.n_eq
  have hn' := h'.n_eq
  refine ⟨by omega, h.loops.trans h'.loops, fun j hj => ?_, fun j i hj hi => ?_⟩
  · rw [h'.old j (by omega), h.old j hj]
  · by_cases hjq : j < q.n
    · rw [h'.old j hjq] at hi
      exact (h.within j i hj hi).imp (mem_append_left _) fun hw =>
        hw.mono (by omega) h'.loops
    · exact (h'.within j i (by omega) hi).imp_left (mem_append_right _)

theorem emit_code (p : Gen) (i : Inst) : (p.emit i).code[p.n]? = some i := by
  simp [Gen.emit, Gen.n]

@[simp] theorem n_emit (p : Gen) (i : Inst) : (p.emit i).n = p.n + 1 := by simp [Gen.n, Gen.emit]

theorem emit_old (p : Gen) (i : Inst) (hj : j < p.n) : (p.emit i).code[j]? = p.code[j]? :=
  getElem?_append_left hj

theorem emits_open (p : Gen) (i : Inst) : Emits p (p.emit i) 1 [p.n] := by
  refine ⟨n_emit p i, le_rfl, fun j hj => emit_old p i hj, fun j i' hj hi' => .inl ?_⟩
  have hlt : j < p.n + 1 := n_emit p i ▸ (List.getElem?_eq_some_iff.mp hi').1
  rw [mem_singleton]
  omega

theorem Emits.patch {g : Inst → Inst} (h : Emits p q k (j :: todo)) (hj : p.n ≤ j)
    (hi : q.code[j]? = some i) (hg : (g i).Within (q.n + 1) q.nloops) :
    Emits p { q with code := q.code.modify j g } k todo := by
  have hn : Gen.n { q with code := q.code.modify j g } = q.n := by simp [Gen.n]
  refine ⟨hn.trans h.n_eq, h.loops, fun x hx => ?_, fun x i' hx hi' => ?_⟩
  · change (q.code.modify j g)[x]? = _
    rw [getElem?_modify_ne _ _ (by omega)]
    exact h.old x hx
  · rw [hn]
    change (q.code.modify j g)[x]? = some i' at hi'
    by_cases hxj : j = x
    · subst hxj
      rw [getElem?_modify_eq, hi] at hi'
      exact .inr (Option.some.inj hi' ▸ hg)
    · rw [getElem?_modify_ne _ _ hxj] at hi'
      refine (h.within x i' hx hi').imp_left fun hm => ?_
      exact (mem_cons.mp hm).resolve_left fun hxj' => hxj hxj'.symm

theorem emits_emit (h : i.Within (p.n + 2) p.nloops) : Emits p (p.emit i) 1 [] := by
  have := (emits_open p i).patch (g := id) le_rfl (emit_code p i) (by rwa [n_emit])
  rwa [modify_id] at this

theorem emits_times (hf : ∀ p, Emits p (f p) c []) : ∀ (k : ℕ) (p : Gen),
    Emits p (times f k p) (k * c) []
  | 0, p => by
    rw [Nat.zero_mul]
    exact .refl p
  | k + 1, p => by
    rw [succ_mul, Nat.add_comm (k * c)]
    exact (hf p).trans (emits_times hf k (f p))

/-! ## Alternatives, loops and optional copies -/

theorem modify_concat {α : Type*} (g : α → α) (a : α) : ∀ u : List α,
    (u ++ [a]).modify u.length g = u ++ [g a]
  | [] => rfl
  | b :: u => congrArg (b :: ·) (modify_concat g a u)

theorem emit_setX (p : Gen) (i : Inst) (t : ℕ) : (p.emit i).setX p.n t = p.emit { i with x := t } :=
  congrArg (Gen.mk · p.nloops) (modify_concat _ i p.code)

theorem emit_setY (p : Gen) (i : Inst) (t : ℕ) : (p.emit i).setY p.n t = p.emit { i with y := t } :=
  congrArg (Gen.mk · p.nloops) (modify_concat _ i p.code)

/-- The code of an alternative: a split, the first branch, a jump behind the second one. -/
theorem emits_alt {a b : Node} (ha : ∀ p, Emits p (gen a p) k []) (hb : ∀ p, Emits p (gen b p) l [])
    (p : Gen) : Emits p (gen (.alt a b) p) (k + l + 2) [] := by
  rw [gen]
  simp only [emit_setX, n_emit]
  have hA := ha (p.emit { op := .split, x := p.n + 1 })
  generalize gen a (p.emit { op := .split, x := p.n + 1 }) = q at hA ⊢
  have hq := (emits_open p { op := .split, x := p.n + 1 }).trans hA
  have hnq := hq.n_eq
  have hj := hq.trans (emits_open q { op := .jmp })
  have hsplit : (q.emit { op := .jmp }).code[p.n]? = some { op := .split, x := p.n + 1 } := by
    rw [emit_old _ _ (by omega), hA.old _ (by rw [n_emit]; omega), emit_code]
  have hsp := hj.patch (g := fun i => { i with y := (q.n + 1 : ℕ) }) le_rfl hsplit
    ⟨by simp; omega, natCast_nonneg _, by simp⟩
  change Emits p ((q.emit { op := .jmp }).setY p.n (q.n + 1)) _ [q.n] at hsp
  have hjmp : ((q.emit { op := .jmp }).setY p.n (q.n + 1)).code[q.n]? = some { op := .jmp } := by
    change ((q.emit { op := .jmp }).code.modify p.n _)[q.n]? = _
    rw [getElem?_modify_ne _ _ (by omega), emit_code]
  generalize (q.emit { op := .jmp }).setY p.n (q.n + 1) = q' at hsp hjmp ⊢
  have hB := hb q'
  have hall := hsp.trans hB
  have hn' := hsp.n_eq
  have hend := hall.patch (g := fun i => { i with x := (gen b q').n }) (by omega)
    ((hB.old _ (by omega)).trans hjmp) (lt_succ_self _)
  rwa [show 1 + k + 1 + l = k + l + 2 by omega] at hend

theorem emits_nloops (p : Gen) : Emits p { p with nloops := p.nloops + 1 } 0 [] := by
  refine ⟨rfl, le_succ _, fun _ _ => rfl, fun j i hj hi => ?_⟩
  rw [getElem?_eq_none hj] at hi
  cases hi

/-- The beginning of a loop. -/
def enterLoop (p : Gen) : Gen :=
  ({ p with nloops := p.nloops + 1 } : Gen).emit { op := .enter, x := p.nloops }

theorem emits_enterLoop (p : Gen) : Emits p (enterLoop p) 1 [] :=
  (emits_nloops p).trans (emits_emit (i := { op := .enter, x := p.nloops })
    (p := { p with nloops := p.nloops + 1 }) (lt_succ_self p.nloops))

theorem emits_check (body : ℕ) {loop : ℕ} (hb : body ≤ q.n) (hl : loop < q.nloops) :
    Emits q (q.emit { op := .check, x := body, y := (q.n + 1 : ℕ), z := loop }) 1 [] := by
  have hx : body < q.n + 2 := by omega
  exact emits_emit ⟨hx, natCast_nonneg _, by simp, hl⟩

theorem genLoop_false (f : Gen → Gen) (p : Gen) : genLoop f false p = (f (enterLoop p)).emit
    { op := .check, x := (enterLoop p).n, y := ((f (enterLoop p)).n + 1 : ℕ), z := p.nloops } := by
  simp only [genLoop, emit_setY, n_emit, Bool.false_eq_true, if_false, enterLoop]

theorem genLoop_true (f : Gen → Gen) (p q : Gen)
    (hq : q = f ((enterLoop p).emit { op := .split, x := (enterLoop p).n + 1 })) :
    genLoop f true p = (q.emit { op := .check, x := (enterLoop p).n + 1, y := (q.n + 1 : ℕ)
                                 z := p.nloops }).setY (enterLoop p).n (q.n + 1) := by
  subst hq
  rw [genLoop, enterLoop]
  generalize ({ p with nloops := p.nloops + 1 } : Gen).emit { op := .enter, x := p.nloops } = p₁
  simp only [emit_setX, emit_setY, n_emit, if_true]

/-- The code of a loop: `ENTER`, perhaps a split around the loop, the body, `CHECK`. -/
theorem emits_genLoop (hf : ∀ p, Emits p (f p) c []) (skip : Bool) (p : Gen) :
    Emits p (genLoop f skip p) (c + if skip then 3 else 2) [] := by
  have henter := emits_enterLoop p
  have hid : p.nloops < (enterLoop p).nloops := lt_succ_self p.nloops
  have hn₁ := henter.n_eq
  cases skip with
  | false =>
    rw [genLoop_false]
    have hbody := hf (enterLoop p)
    have hn := hbody.n_eq
    have hchk := emits_check (enterLoop p).n (q := f (enterLoop p)) (by omega)
      (lt_of_lt_of_le hid hbody.loops)
    have hall := (henter.trans hbody).trans hchk
    rwa [show 1 + c + 1 = c + 2 by omega] at hall
  | true =>
    rw [genLoop_true f p _ rfl]
    generalize enterLoop p = p₁ at *
    have hbody := hf (p₁.emit { op := .split, x := p₁.n + 1 })
    have hn := hbody.n_eq
    rw [n_emit] at hn
    have hold := (hbody.old p₁.n (by rw [n_emit]; omega)).trans (emit_code _ _)
    generalize f (p₁.emit { op := .split, x := p₁.n + 1 }) = q at hbody hn hold ⊢
    have hchk := emits_check (p₁.n + 1) (q := q) (by omega) (lt_of_lt_of_le hid hbody.loops)
    have hloop := ((emits_open p₁ { op := .split, x := p₁.n + 1 }).trans hbody).trans hchk
    have hall := henter.trans hloop
    have hend := hall.patch (g := fun i => { i with y := (q.n + 1 : ℕ) }) (by omega)
      ((emit_old _ _ (by omega)).trans hold) ⟨by simp; omega, natCast_nonneg _, by simp⟩
    rwa [show 1 + (1 + c + 1) = c + 3 by omega] at hend

theorem unchain_neg {chain : ℤ} (hc : chain < 0) (k : ℕ) (p : Gen) :
    unchain k p chain = (p, chain) := by
  cases k with
  | zero => rfl
  | succ k => rw [unchain, if_pos hc]

theorem unchain_succ : ∀ (k : ℕ) (p : Gen) (chain : ℤ),
    unchain (k + 1) p chain = unchain 1 (unchain k p chain).1 (unchain k p chain).2
  | 0, _, _ => rfl
  | k + 1, p, chain => by
    by_cases hc : chain < 0
    · rw [unchain_neg hc, unchain_neg hc, unchain_neg hc]
    · have hstep : ∀ k, unchain (k + 1) p chain = unchain k (p.setY chain.toNat p.n)
          (p.code.getD chain.toNat { op := .matched }).y := fun k => by rw [unchain, if_neg hc]
      rw [hstep, hstep]
      exact unchain_succ k _ _

/-- The code of the optional copies: each is a split behind the last copy, and the copy. -/
theorem emits_optional (hf : ∀ p, Emits p (f p) c []) : ∀ (k : ℕ) (p : Gen) (chain : ℤ),
    Emits p (unchain k (optional f k p chain).1 (optional f k p chain).2).1 (k * (c + 1)) [] ∧
      (unchain k (optional f k p chain).1 (optional f k p chain).2).2 = chain
  | 0, p, chain => by
    rw [Nat.zero_mul]
    exact ⟨.refl p, rfl⟩
  | k + 1, p, chain => by
    rw [optional, unchain_succ]
    simp only [emit_setX, n_emit]
    have hbody := hf (p.emit { op := .split, x := p.n + 1, y := chain })
    have hold := (hbody.old p.n (by rw [n_emit]; omega)).trans (emit_code _ _)
    have hn := hbody.n_eq
    rw [n_emit] at hn
    generalize f (p.emit { op := .split, x := p.n + 1, y := chain }) = q at hbody hold hn ⊢
    obtain ⟨hrest, hchain⟩ := emits_optional hf k q p.n
    rw [hchain]
    generalize (unchain k (optional f k q p.n).1 (optional f k q p.n).2).1 = r at hrest ⊢
    have hnr := hrest.n_eq
    have hsplit := (hrest.old p.n (by omega)).trans hold
    have hstep : unchain 1 r p.n = (r.setY p.n r.n, chain) := by
      rw [unchain, if_neg (by omega), toNat_natCast, getD_eq_getElem?_getD, hsplit]
      rfl
    rw [hstep]
    have hall := ((emits_open p { op := .split, x := p.n + 1, y := chain }).trans hbody).trans hrest
    have hend := hall.patch (g := fun i => { i with y := r.n }) le_rfl hsplit
      ⟨by simp; omega, natCast_nonneg _, by simp⟩
    refine ⟨?_, rfl⟩
    rwa [show 1 + c + k * (c + 1) = (k + 1) * (c + 1) by rw [succ_mul]; omega] at hend

theorem emits_gen : ∀ (t : Node) (p : Gen), Emits p (gen t p) t.size []
  | .empty, p => .refl p
  | .char c, p | .any, p | .set idx, p | .assert kind, p | .bref n, p => emits_emit trivial
  | .cat a b, p => (emits_gen a p).trans (emits_gen b (gen a p))
  | .alt a b, p => emits_alt (emits_gen a) (emits_gen b) p
  | .group a n, p => by
    have hsave : ∀ (q : Gen) (x : ℕ), Emits q (q.emit { op := .save, x := x }) 1 [] := fun q x =>
      emits_emit trivial
    have hall := ((hsave p (2 * n)).trans (emits_gen a _)).trans (hsave _ (2 * n + 1))
    rwa [show 1 + a.size + 1 = a.size + 2 by omega] at hall
  | .rep a mn none, p => by
    have hcopies := emits_times (emits_gen a) (mn - 1) p
    have hloop := emits_genLoop (emits_gen a) (mn == 0) (times (gen a) (mn - 1) p)
    have hall := hcopies.trans hloop
    rw [gen, Node.size]
    cases mn with
    | zero => simpa using hall
    | succ m =>
      rw [if_pos (succ_ne_zero m), succ_mul]
      simpa [Nat.add_assoc] using hall
  | .rep a mn (some mx), p => by
    have hcopies := emits_times (emits_gen a) mn p
    exact hcopies.trans (emits_optional (emits_gen a) (mx - mn) (times (gen a) mn p) (-1)).1

end Citadel.Regex
