import Citadel.Lib.Fallible
import Citadel.Regex.Size

/-!
# What the parser of `regex.c` builds

* `parse_spec`: the bounds of the recursions are never reached, and the repetitions of the tree have
  their bounds in order.
* `regcomp_code`: the program has as many instructions as were allocated, and what they refer to is
  in it.
-/

namespace Citadel.Regex

open Citadel.Lib.Fallible Option Nat

/-! ## Progress -/

/-- At least `k` bytes were read. -/
structure Moves (k : ℕ) (ps ps' : Parser) : Prop where
  s : ps'.s = ps.s
  ere : ps'.ere = ps.ere
  pos : ps.pos + k ≤ ps'.pos

/-- No bound of a recursion was reached. -/
abbrev Unstuck (e : Err) : Prop := e ≠ .stuck

/-- A tree in order, with at least `k` bytes read. -/
def Parses (k : ℕ) (ps : Parser) (r : Node × Parser) : Prop := r.1.Ordered ∧ Moves k ps r.2

variable {ps ps' ps'' : Parser} {k l : ℕ} {n : Node} {W : Wide} {c : Char}

theorem Moves.refl (ps : Parser) : Moves 0 ps ps := ⟨rfl, rfl, le_rfl⟩

theorem Moves.skip (ps : Parser) (k : ℕ) : Moves k ps (ps.skip k) := ⟨rfl, rfl, le_rfl⟩

theorem Moves.trans (h : Moves k ps ps') (h' : Moves l ps' ps'') : Moves (k + l) ps ps'' := by
  have h1 := h.pos
  have h2 := h'.pos
  exact ⟨h'.s.trans h.s, h'.ere.trans h.ere, by omega⟩

theorem Moves.mono (h : Moves k ps ps') (hk : l ≤ k) : Moves l ps ps' := by
  have h1 := h.pos
  exact ⟨h.s, h.ere, by omega⟩

theorem Moves.left_le (h : Moves k ps ps') : ps'.left ≤ ps.left := by
  have h1 := h.pos
  unfold Parser.left
  rw [h.s]
  omega

theorem Moves.left_lt (h : Moves 1 ps ps') (hlt : ps.pos < ps.s.length) : ps'.left < ps.left := by
  have h1 := h.pos
  unfold Parser.left
  rw [h.s]
  omega

theorem lt_of_peek {off : ℕ} {b : UInt8} (h : ps.peek off = some b) : ps.pos < ps.s.length := by
  have := (List.getElem?_eq_some_iff.mp h).1
  omega

theorem lt_of_sees (h : ps.sees 0 c = true) : ps.pos < ps.s.length :=
  lt_of_peek (eq_of_beq h)

theorem Parses.trans {r : Node × Parser} (h : Moves k ps ps') (hr : Parses l ps' r) :
    Parses (k + l) ps r := ⟨hr.1, h.trans hr.2⟩

theorem Parses.mono {r : Node × Parser} (hr : Parses k ps r) (hl : l ≤ k) : Parses l ps r :=
  ⟨hr.1, hr.2.mono hl⟩

theorem mknode_spec (hn : n.Ordered) (h : Moves k ps ps') :
    Gives (mknode ps' n) (Parses k ps) Unstuck := by
  unfold mknode
  exact .ite (fun _ => .error (by decide)) fun _ => .ok ⟨hn, h.s, h.ere, h.pos⟩

theorem dec_pos (s : List UInt8) (len : ℕ) : 1 ≤ (dec s len).2 := by
  unfold dec
  dsimp only
  generalize (if byte s 0 ≥ 0xf0 then 4 else if byte s 0 ≥ 0xe0 then 3 else
    if byte s 0 ≥ 0xc2 then 2 else 0) = n
  split_ifs with h1 h2
  · exact le_rfl
  · exact le_rfl
  · split
    · exact le_rfl
    · split_ifs <;> dsimp only <;> omega

theorem getcPat_moves (ps : Parser) : Moves 1 ps (getcPat ps).2 :=
  (Moves.skip ps _).mono (dec_pos _ _)

/-! ## Bracket expressions -/

theorem bracketChar_spec (ps : Parser) :
    Gives (bracketChar ps) (fun r => Moves 1 ps r.2) Unstuck := by
  unfold bracketChar
  refine .ite (fun _ => ?_) fun _ => .ok (getcPat_moves ps)
  refine .ite (fun _ => .error (by decide)) fun _ => ?_
  refine .ite (fun _ => .error ?_) fun _ => .ok ?_
  · split_ifs <;> decide
  · have h := ((Moves.skip ps 2).trans (getcPat_moves (ps.skip 2))).trans (Moves.skip _ 2)
    exact h.mono (by omega)

theorem bracketRange_spec (ps : Parser) (lo : ℕ) :
    Gives (bracketRange ps lo) (fun r => Moves 0 ps r.2) Unstuck := by
  unfold bracketRange
  refine .ite (fun _ => ?_) fun _ => .ok (.refl ps)
  refine .ite (fun _ => .error (by decide)) fun _ => .bind ?_
  refine (bracketChar_spec (ps.skip 1)).mono fun r hr => ?_
  refine .ite (fun _ => .error (by decide)) fun _ => .ok ?_
  exact ((Moves.skip ps 1).trans hr).mono (by omega)

theorem bracketClass_spec (W : Wide) (ps : Parser) (s : CharSet) :
    Gives (bracketClass W ps s) (fun r => Moves 1 ps r.2) Unstuck := by
  unfold bracketClass
  dsimp only
  split
  · exact .error (by decide)
  · refine .ite (fun _ => .error (by decide)) fun _ => ?_
    refine .ite (fun _ => .error (by decide)) fun _ => .ok ⟨rfl, rfl, ?_⟩
    dsimp only
    omega

theorem bracketLoop_spec (W : Wide) : ∀ (fuel : ℕ) (ps : Parser) (s : CharSet) (first : Bool),
    ps.left < fuel → Gives (bracketLoop W fuel ps s first) (fun r => Moves 1 ps r.2) Unstuck := by
  intro fuel
  induction fuel with
  | zero => exact fun ps s first h => absurd h (Nat.not_lt_zero _)
  | succ fuel ih =>
    intro ps s first h
    -- the rest of the loop after a round that has read something
    have rest : ∀ {ps'} (s'), ps.pos < ps.s.length → Moves 1 ps ps' →
        Gives (bracketLoop W fuel ps' s' false) (fun r => Moves 1 ps r.2) Unstuck := by
      intro ps' s' hlt hm
      have hleft := hm.left_lt hlt
      exact (ih ps' s' false (by omega)).mono fun r hr => (hm.trans hr).mono (by omega)
    unfold bracketLoop
    refine .ite (fun _ => .error (by decide)) fun hlt => ?_
    replace hlt := not_le.mp hlt
    refine .ite (fun _ => .ok (.skip ps 1)) fun _ => ?_
    refine .ite (fun _ => .bind ?_) fun _ => .bind ?_
    · exact (bracketClass_spec W ps s).mono fun r hr => rest r.1 hlt hr
    · refine (bracketChar_spec ps).mono fun r hr => .bind ?_
      exact (bracketRange_spec r.2 r.1).mono fun r' hr' =>
        rest _ hlt ((hr.trans hr').mono (by omega))

theorem newset_spec (s : CharSet) (h : Moves k ps ps') :
    Gives (newset ps' s) (Parses k ps) Unstuck :=
  mknode_spec trivial ⟨h.s, h.ere, h.pos⟩

theorem parseBracket_spec (W : Wide) (ps : Parser) :
    Gives (parseBracket W ps) (Parses 1 ps) Unstuck := by
  unfold parseBracket
  have hneg : Moves 0 ps (if ps.sees 0 '^' = true then ps.skip 1 else ps) := by
    split_ifs
    · exact (Moves.skip ps 1).mono (by omega)
    · exact .refl ps
  refine .bind ((bracketLoop_spec W _ _ _ _ (lt_succ_self _)).mono fun r hr => ?_)
  exact newset_spec r.1 ((hneg.trans hr).mono (by omega))

/-! ## Atoms -/

section Atoms

variable {alt : Parser → Parsed}

theorem parseGroup_spec (halt : ∀ ps', Moves 0 ps ps' → Gives (alt ps') (Parses 0 ps') Unstuck) :
    Gives (parseGroup alt ps) (Parses 0 ps) Unstuck := by
  unfold parseGroup
  dsimp only
  have hm : Moves 0 ps { ps with nsub := ps.nsub + 1, depth := ps.depth + 1 } :=
    ⟨rfl, rfl, le_rfl⟩
  generalize ({ ps with nsub := ps.nsub + 1, depth := ps.depth + 1 } : Parser) = ps₁ at hm ⊢
  have hin : Gives (alt ps₁) (Parses 0 ps) Unstuck :=
    (halt _ hm).mono fun r hr => .trans hm hr
  refine .ite (fun _ => .bind ((mknode_spec (n := .empty) trivial hm).mono ?_))
    fun _ => .bind (hin.mono ?_)
  -- the closing parenthesis, behind either inside
  all_goals
    rintro ⟨a, ps'⟩ ⟨ha, hm'⟩
    have hskip : ∀ (k d c : ℕ),
        Moves 0 ps { ps' with depth := d, pos := ps'.pos + k, closed := c } :=
      fun k d c => ⟨hm'.s, hm'.ere, hm'.pos.trans (Nat.le_add_right _ _)⟩
    refine .ite (fun _ => ?_) fun _ => ?_
    · exact .ite (fun _ => .error (by decide)) fun _ => mknode_spec ha (hskip _ _ _)
    · exact .ite (fun _ => .error (by decide)) fun _ => mknode_spec ha (hskip _ _ _)

theorem escapeNode_spec {e : UInt8} {r : Parsed} (h : escapeNode W ps e = some r) :
    Gives r (Parses 0 ps) Unstuck := by
  unfold escapeNode at h
  split_ifs at h <;> cases h
  all_goals first
    | exact mknode_spec trivial (.refl ps)
    | exact newset_spec _ (.refl ps)

theorem parseBref_spec (ps : Parser) (m : ℕ) : Gives (parseBref ps m) (Parses 0 ps) Unstuck := by
  unfold parseBref
  refine .ite (fun _ => .error (by decide)) fun _ => mknode_spec trivial ?_
  exact ⟨rfl, rfl, Nat.le_add_right _ _⟩

section

variable (halt : ∀ ps', Moves 1 ps ps' → Gives (alt ps') (Parses 0 ps') Unstuck)
include halt

theorem parseEscape_spec : Gives (parseEscape W alt ps) (Parses 1 ps) Unstuck := by
  have hskip := Moves.skip ps 1
  unfold parseEscape
  dsimp only
  split
  · exact .error (by decide)
  · refine .ite (fun _ => ?_) fun _ => ?_
    · have hm := (hskip.trans (.skip _ 1)).mono (l := 1) (by omega)
      refine (parseGroup_spec fun ps' h' => halt ps' ((hm.trans h').mono (by omega))).mono ?_
      exact fun r hr => (Parses.trans hm hr).mono (by omega)
    refine .ite (fun _ => .error (by decide)) fun _ => ?_
    refine .ite (fun _ => .error (by decide)) fun _ => ?_
    refine .ite (fun _ => ?_) fun _ => ?_
    · exact (parseBref_spec _ _).mono fun r hr => (Parses.trans hskip hr).mono (by omega)
    split
    · rename_i h
      have hm := (hskip.trans (.skip _ 1)).mono (l := 1) (by omega)
      exact (escapeNode_spec h).mono fun r hr => (Parses.trans hm hr).mono (by omega)
    · exact mknode_spec trivial ((hskip.trans (getcPat_moves _)).mono (by omega))

theorem parsePlain_spec : Gives (parsePlain W alt ps) (Parses 1 ps) Unstuck := by
  unfold parsePlain
  refine .ite (fun _ => mknode_spec trivial (.skip ps 1)) fun _ => ?_
  refine .ite (fun _ => ?_) fun _ => ?_
  · refine (parseBracket_spec W _).mono fun r hr => ?_
    exact (Parses.trans (Moves.skip ps 1) hr).mono (by omega)
  · exact .ite (fun _ => parseEscape_spec halt) fun _ => mknode_spec trivial (getcPat_moves ps)

theorem parseAtom_spec : Gives (parseAtom W alt ps) (Parses 1 ps) Unstuck := by
  have hskip := Moves.skip ps 1
  have hgroup : Gives (parseGroup alt (ps.skip 1)) (Parses 1 ps) Unstuck :=
    (parseGroup_spec fun ps' h' => halt ps' (hskip.trans h')).mono fun r hr => .trans hskip hr
  have hnode : ∀ n : Node, n.Ordered → Gives (mknode (ps.skip 1) n) (Parses 1 ps) Unstuck :=
    fun n hn => mknode_spec hn hskip
  unfold parseAtom
  refine .ite (fun _ => ?_) fun _ => ?_
  · refine .ite (fun _ => hgroup) fun _ => ?_
    refine .ite (fun _ => .error (by decide)) fun _ => ?_
    refine .ite (fun _ => .error (by decide)) fun _ => ?_
    refine .ite (fun _ => hnode _ trivial) fun _ => ?_
    exact .ite (fun _ => hnode _ trivial) fun _ => parsePlain_spec halt
  · refine .ite (fun _ => hnode _ trivial) fun _ => ?_
    refine .ite (fun _ => hnode _ trivial) fun _ => ?_
    exact .ite (fun _ => hnode _ trivial) fun _ => parsePlain_spec halt

end

end Atoms

/-! ## Repetitions -/

theorem boundLoop_moves : ∀ (fuel : ℕ) (ps : Parser) (m digits : ℕ),
    Moves 0 ps (boundLoop fuel ps m digits).2.2
  | 0, ps, _, _ => .refl ps
  | fuel + 1, ps, m, digits => by
    unfold boundLoop
    split_ifs
    · exact ((Moves.skip ps 1).trans (boundLoop_moves fuel _ _ _)).mono (by omega)
    · exact .refl ps

/-- An operator: bounds in order, behind at least `k` bytes. -/
def Bounds (k : ℕ) (ps : Parser) (r : (ℕ × Option ℕ) × Parser) : Prop :=
  (∀ n, r.1.2 = some n → r.1.1 ≤ n) ∧ Moves k ps r.2

theorem parseInterval_spec (ps : Parser) :
    Gives (parseInterval ps) (Bounds 0 ps) Unstuck := by
  have hbrace : ∀ ps : Parser, Unstuck (if ps.pos ≥ ps.s.length then .ebrace else .badbr) := by
    intro ps
    split_ifs <;> decide
  unfold parseInterval
  have hm := boundLoop_moves ps.left ps 0 0
  unfold parseBound
  generalize boundLoop ps.left ps 0 0 = b at hm ⊢
  obtain ⟨m, digits, ps₁⟩ := b
  refine .ite (fun _ => .error (hbrace _)) fun _ => ?_
  split
  rename_i n ps₂ hn
  have hm₂ : Moves 0 ps ps₂ := by
    have hskip := hm.trans (.skip ps₁ 1)
    by_cases hc : ps₁.sees 0 ',' = true
    · rw [if_pos hc] at hn
      by_cases hd : (ps₁.skip 1).seesDigit 0 = true
      · rw [if_pos hd] at hn
        cases hn
        exact (hskip.trans (boundLoop_moves _ _ _ _)).mono (by omega)
      · rw [if_neg hd] at hn
        cases hn
        exact hskip.mono (by omega)
    · rw [if_neg hc] at hn
      cases hn
      exact hm
  refine .ite (fun _ => .error (hbrace _)) fun _ => ?_
  refine .ite (fun _ => .error (by decide)) fun hle => .ok ⟨?_, ?_⟩
  · rintro k rfl
    simp only [any_some, decide_eq_true_eq, not_or, not_lt] at hle
    exact hle.2.2
  · exact (hm₂.trans (.skip ps₂ _)).mono (by omega)

/-- Which operator it is matters only for `^*`. -/
def Operator (ps : Parser) (o : Option ((ℕ × Option ℕ) × Parser)) : Prop :=
  ∀ r, o = some r → ps.pos < ps.s.length ∧ Bounds 1 ps r ∧
    (ps.ere = false → ps.sees 0 '*' = false → Moves 2 ps r.2)

theorem Operator.of_moves {r : (ℕ × Option ℕ) × Parser} (hlt : ps.pos < ps.s.length)
    (hr : Bounds k ps r) (hk : 1 ≤ k) (h2 : ps.ere = false → ps.sees 0 '*' = false → 2 ≤ k) :
    Operator ps (some r) := by
  intro r' h
  cases h
  exact ⟨hlt, ⟨hr.1, hr.2.mono hk⟩, fun he hs => hr.2.mono (h2 he hs)⟩

theorem parseOperator_spec (ps : Parser) : Gives (parseOperator ps) (Operator ps) Unstuck := by
  have hinterval : ∀ k, Gives (parseInterval (ps.skip k)) (Bounds k ps) Unstuck := fun k =>
    (parseInterval_spec _).mono fun r hr => ⟨hr.1, (Moves.skip ps k).trans hr.2⟩
  unfold parseOperator
  refine .ite (fun h => .ok ?_) fun hstar => ?_
  · exact .of_moves (k := 1) (lt_of_sees h) ⟨by simp, .skip ps 1⟩ le_rfl
      fun _ hs => absurd h (by simp [hs])
  -- the operators of one byte are those of extended expressions
  have hone : ∀ {c : Char} {b : ℕ × Option ℕ}, (ps.ere && ps.sees 0 c) = true →
      (∀ n, b.2 = some n → b.1 ≤ n) → Operator ps (some (b, ps.skip 1)) := by
    intro c b h hb
    rw [Bool.and_eq_true] at h
    exact .of_moves (k := 1) (lt_of_sees h.2) ⟨hb, .skip ps 1⟩ le_rfl
      fun he _ => absurd h.1 (by simp [he])
  have htwo : ∀ {c : Char} {b : ℕ × Option ℕ}, (!ps.ere && ps.sees 0 '\\' && ps.sees 1 c) = true →
      (∀ n, b.2 = some n → b.1 ≤ n) → Operator ps (some (b, ps.skip 2)) := by
    intro c b h hb
    simp only [Bool.and_eq_true] at h
    exact .of_moves (k := 2) (lt_of_sees h.1.2) ⟨hb, .skip ps 2⟩ (by omega)
      fun _ _ => le_rfl
  refine .ite (fun h => .ok (hone h (by simp))) fun _ => ?_
  refine .ite (fun h => .ok (hone h (by simp))) fun _ => ?_
  refine .ite (fun h => .map ((hinterval 1).mono fun r hr => ?_)) fun _ => ?_
  · simp only [Bool.and_eq_true] at h
    exact .of_moves (lt_of_sees h.1.2) hr le_rfl fun he _ => absurd h.1.1 (by simp [he])
  refine .ite (fun h => .ok (htwo h (by simp))) fun _ => ?_
  refine .ite (fun h => .ok (htwo h (by simp))) fun _ => ?_
  refine .ite (fun h => .map ((hinterval 2).mono fun r hr => ?_)) fun _ => ?_
  · simp only [Bool.and_eq_true] at h
    exact .of_moves (lt_of_sees h.1.2) hr (by omega) fun _ _ => le_rfl
  · exact .ok fun r h => absurd h (by simp)

/-- The loop ends: every operator reads a byte at least. -/
theorem repeatLoop_spec : ∀ (fuel : ℕ) (ps : Parser) (a : Node), ps.left < fuel → a.Ordered →
    Gives (repeatLoop fuel ps a) (Parses 0 ps) Unstuck := by
  intro fuel
  induction fuel with
  | zero => exact fun ps a h _ => absurd h (Nat.not_lt_zero _)
  | succ fuel ih =>
    intro ps a h ha
    unfold repeatLoop
    refine .bind ((parseOperator_spec ps).mono fun o ho => ?_)
    split
    · exact .ok ⟨ha, .refl ps⟩
    · rename_i mn mx ps'
      obtain ⟨hlt, ⟨hb, hm⟩, h2⟩ := ho _ rfl
      refine .ite (fun hbol => ?_) fun _ => ?_
      · simp only [Bool.and_eq_true, Bool.not_eq_true', decide_eq_true_eq] at hbol
        refine .ite (fun hs => .ok ⟨ha, ?_⟩) fun _ => .bind ?_
        · -- the two bytes of the operator are given back
          have hm2 := h2 hbol.1 hs
          exact ⟨hm2.s, hm2.ere, le_sub_of_add_le hm2.pos⟩
        · refine (mknode_spec (n := .char '*'.toNat) trivial hm).mono fun r hr => ?_
          exact mknode_spec ⟨ha, hr.1⟩ (hr.2.mono (by omega))
      refine .ite (fun _ => .error (by decide)) fun _ => .bind ?_
      refine (mknode_spec (n := .rep a mn mx) ⟨ha, hb⟩ hm).mono fun r hr => ?_
      have hleft := hr.2.left_lt hlt
      exact (ih r.2 r.1 (by omega) hr.1).mono fun r' hr' => (Parses.trans hr.2 hr').mono (by omega)

/-! ## Sequences and alternatives -/

section Sequences

variable {alt : Parser → Parsed}

theorem parseRepeat_spec
    (halt : ∀ ps', Moves 1 ps ps' → Gives (alt ps') (Parses 0 ps') Unstuck) :
    Gives (parseRepeat W alt ps) (Parses 1 ps) Unstuck := by
  unfold parseRepeat
  refine .bind ((parseAtom_spec halt).mono fun r hr => ?_)
  exact (repeatLoop_spec _ r.2 r.1 (lt_succ_self _) hr.1).mono fun r' hr' =>
    .trans hr.2 hr'

/-- The inside of a group has less to read than the pattern around it. -/
def Below (alt : Parser → Parsed) (d : ℕ) : Prop :=
  ∀ ps : Parser, ps.left < d → Gives (alt ps) (Parses 0 ps) Unstuck

variable {d : ℕ}

theorem catLoop_spec (halt : Below alt d) : ∀ (fuel : ℕ) (ps : Parser) (seq : Node),
    ps.left < fuel → ps.left ≤ d → seq.Ordered →
      Gives (catLoop W alt fuel ps seq) (Parses 0 ps) Unstuck := by
  intro fuel
  induction fuel with
  | zero => exact fun ps seq h _ _ => absurd h (Nat.not_lt_zero _)
  | succ fuel ih =>
    intro ps seq h hd hseq
    -- the rest of the loop after an atom
    have rest : ∀ {r : Node × Parser}, ps.pos < ps.s.length → Parses 1 ps r →
        Gives (catLoop W alt fuel r.2 r.1) (Parses 0 ps) Unstuck := by
      intro r hlt hr
      have hleft := hr.2.left_lt hlt
      exact (ih r.2 r.1 (by omega) (by omega) hr.1).mono fun r' hr' =>
        (Parses.trans hr.2 hr').mono (by omega)
    unfold catLoop
    refine .ite (fun hc => .bind ?_) fun _ => .ok ⟨hseq, .refl ps⟩
    simp only [Bool.and_eq_true, decide_eq_true_eq] at hc
    have hlt := hc.1.1
    have hinner : ∀ ps', Moves 1 ps ps' → Gives (alt ps') (Parses 0 ps') Unstuck := by
      intro ps' hm
      have := hm.left_lt hlt
      exact halt ps' (by omega)
    refine (parseRepeat_spec hinner).mono fun r hr => ?_
    refine .ite (fun _ => rest hlt hr) fun _ => .bind ?_
    exact (mknode_spec (n := .cat seq r.1) ⟨hseq, hr.1⟩ hr.2).mono fun r' hr' => rest hlt hr'

theorem parseCat_spec (halt : Below alt d) (hd : ps.left ≤ d) :
    Gives (parseCat W alt ps) (Parses 0 ps) Unstuck := by
  unfold parseCat
  refine .bind ((mknode_spec (n := .empty) trivial (.refl ps)).mono fun r hr => ?_)
  have hleft := hr.2.left_le
  exact (catLoop_spec halt _ r.2 r.1 (lt_succ_self _) (by omega) hr.1).mono fun r' hr' =>
    .trans hr.2 hr'

theorem lt_of_atAlt (h : atAlt ps = true) : ps.pos < ps.s.length := by
  unfold atAlt at h
  split_ifs at h
  · exact lt_of_sees h
  · exact lt_of_sees (Bool.and_eq_true _ _ ▸ h).1

theorem altLoop_spec (halt : Below alt d) : ∀ (fuel : ℕ) (ps : Parser) (l : Node),
    ps.left < fuel → ps.left ≤ d → l.Ordered →
      Gives (altLoop W alt fuel ps l) (Parses 0 ps) Unstuck := by
  intro fuel
  induction fuel with
  | zero => exact fun ps l h _ _ => absurd h (Nat.not_lt_zero _)
  | succ fuel ih =>
    intro ps l h hd hl
    unfold altLoop
    refine .ite (fun hc => .bind ?_) fun _ => .ok ⟨hl, .refl ps⟩
    have hm : Moves 1 ps (ps.skip (if ps.ere = true then 1 else 2)) :=
      (Moves.skip ps _).mono (by split_ifs <;> omega)
    have hleft := hm.left_lt (lt_of_atAlt hc)
    refine (parseCat_spec halt (by omega)).mono fun r hr => .bind ?_
    refine (mknode_spec (n := .alt l r.1) ⟨hl, hr.1⟩ (hm.trans hr.2)).mono fun r' hr' => ?_
    have hlt := (hr'.2.mono (l := 1) (by omega)).left_lt (lt_of_atAlt hc)
    exact (ih r'.2 r'.1 (by omega) (by omega) hr'.1).mono fun r'' hr'' =>
      (Parses.trans hr'.2 hr'').mono (by omega)

end Sequences

theorem parseAlt_spec (W : Wide) : ∀ d, Below (parseAlt W d) d := by
  intro d
  induction d with
  | zero => exact fun ps h => absurd h (Nat.not_lt_zero _)
  | succ d ih =>
    intro ps h
    unfold parseAlt
    refine .bind ((parseCat_spec ih (by omega)).mono fun r hr => ?_)
    have hleft := hr.2.left_le
    exact (altLoop_spec ih _ r.2 r.1 (lt_succ_self _) (by omega) hr.1).mono fun r' hr' =>
      .trans hr.2 hr'

/-- The parser never reaches the bound of a recursion, and the tree it builds is in order. -/
theorem parse_spec (W : Wide) (pat : List UInt8) (flags : Flags) :
    Gives (parse W pat flags) (fun r => r.1.Ordered) Unstuck := by
  unfold parse
  refine .bind ((parseAlt_spec W _ _ (lt_succ_of_le (sub_le _ _))).mono fun r hr => ?_)
  exact .ite (fun _ => .error (by decide)) fun _ => .ok hr.1

/-! ## The finished program -/

/-- The code of a tree stands between `SAVE 0` and `SAVE 1`, and refers to no place behind them. -/
theorem genProg_code (root : Node) : ∃ body : List Inst, body.length = root.size ∧
    (genProg root).code =
      { op := .save, x := 0 } :: body ++ [{ op := .save, x := 1 }, { op := .matched }] ∧
    ∀ i ∈ { op := .save, x := 0 } :: body, i.Within (root.size + 2) (genProg root).nloops := by
  have hsave : Emits {} (({} : Gen).emit { op := .save, x := 0 }) 1 [] := emits_emit trivial
  have hgen := emits_gen root (({} : Gen).emit { op := .save, x := 0 })
  have h := hsave.trans hgen
  have hfirst := hgen.old 0 (by simp)
  unfold genProg
  dsimp only
  generalize gen root (({} : Gen).emit { op := .save, x := 0 }) = q at h hfirst ⊢
  obtain ⟨code, loops⟩ := q
  cases code with
  | nil => cases hfirst
  | cons i body =>
    obtain rfl : i = { op := .save, x := 0 } := some.inj hfirst
    have hlen : body.length + 1 = 0 + (1 + root.size) := h.n_eq
    refine ⟨body, by omega, by simp [Gen.emit], fun i hi => ?_⟩
    obtain ⟨j, hj⟩ := List.mem_iff_getElem?.mp hi
    have hw := (h.within j i (Nat.zero_le j) hj).resolve_left (List.not_mem_nil)
    exact hw.mono (by simp [Gen.n]; omega) le_rfl

/-- **Code size.** The code of a tree that the parser built has as many instructions as `size_of`
says, if that is at most `MAX_INST - 3`. The program is those instructions and `SAVE 0`, `SAVE 1`
and `MATCH`; targets lie in the program, and loops below `nloops`. -/
theorem regcomp_code (W : Wide) (pat : List UInt8) (flags : Flags) (root : Node) (ps : Parser)
    (hparse : parse W pat flags = .ok (root, ps)) (hsize : sizeOf root ≤ maxInst - 3) :
    (∀ p : Gen, ((gen root p).n : ℤ) = p.n + sizeOf root) ∧
    ∃ (prog : Prog) (body : List Inst), regcomp W pat flags = .ok prog ∧
      prog.code = { op := .save, x := 0 } :: body ++ [{ op := .save, x := 1 }, { op := .matched }] ∧
      (body.length : ℤ) = sizeOf root ∧
      ∀ i ∈ prog.code, i.Within prog.code.length prog.nloops := by
  have hordered : root.Ordered := (parse_spec W pat flags).of_ok hparse
  -- nothing was cut off
  have hexact : sizeOf root = root.size := by
    rcases capSize_cases root.size with hc | ⟨hc, -⟩
    · rw [sizeOf_eq hordered, hc]
    · rw [sizeOf_eq hordered, hc] at hsize
      omega
  refine ⟨fun p => ?_, ?_⟩
  · rw [(emits_gen root p).n_eq, hexact]
    rfl
  · obtain ⟨body, hlen, hcode, hwithin⟩ := genProg_code root
    refine ⟨{ code := (genProg root).code, sets := ps.sets, nsub := ps.nsub
              nloops := (genProg root).nloops, flags := flags, backrefs := ps.backrefs },
      body, ?_, hcode, by rw [hlen, hexact], ?_⟩
    · rw [regcomp, hparse]
      exact if_neg (by omega)
    · dsimp only
      rw [hcode]
      intro i hi
      have hlen' : root.size + 2 ≤ ({ op := .save, x := 0 } :: body ++
          [{ op := .save, x := 1 }, { op := .matched }] : List Inst).length := by
        simp [hlen]
      rcases List.mem_append.mp hi with hi | hi
      · exact (hwithin i hi).mono hlen' le_rfl
      · simp only [List.mem_cons, List.not_mem_nil, or_false] at hi
        rcases hi with rfl | rfl <;> trivial

/-- `a*` with no character classes: seven instructions. -/
theorem regcomp_code_star :
    let W : Wide := ⟨fun _ => 0, fun _ _ => false, fun _ => false, id, id⟩
    ∃ prog : Prog, regcomp W [97, 42] {} = .ok prog ∧ prog.code.length = 7 ∧
      ∀ i ∈ prog.code, i.Within prog.code.length prog.nloops := by
  intro W
  obtain ⟨-, prog, body, hprog, hcode, hlen, hwithin⟩ :=
    regcomp_code W [97, 42] {} (.rep (.char 97) 0 none) _ rfl (by decide)
  refine ⟨prog, hprog, ?_, hwithin⟩
  have : sizeOf (.rep (.char 97) 0 none) = 4 := rfl
  rw [hcode]
  simp
  omega

end Citadel.Regex
