import Citadel.Fnmatch.Fnmatch
import Citadel.Lib.Byte
import Citadel.Lib.Wildcard

/-!
# What `fnmatch` decides

* `items flags pat`: the elements of a pattern whose bracket expressions are well formed.
* `Matches flags str ps i`: the elements `ps` match the string from the place `i` on.
* `fnmatch_iff`: `fnmatch` returns 0 exactly if the pattern matches. The last star is enough, since
  a test accepts only slashes that no star takes, or none of them.
-/

namespace Citadel.Fnmatch

open Ctype List Option Nat
open Citadel.Lib (Byte.forall_byte)
open Citadel.Lib.Wildcard (Rules Ones matches_nil matches_one matches_star matches_ones
  matches_star_star)

variable {flags : Flags} {str p : List UInt8} {s i j k : ℕ} {c : UInt8}

/-! ## Patterns -/

/-- What a bracket expression is. -/
inductive Bracket where
  | closed (elems : List Elem) (q : ℕ)
  | unclosed
  | malformed

/-- The elements of a bracket expression from the place `q` on. -/
def elems (flags : Flags) (p : List UInt8) (q : ℕ) (first : Bool) : Bracket :=
  if q < p.length then
    if !first && sees p q ']' then .closed [] (q + 1)
    else
      match bracketElem flags (p.drop q) with
      | none => .malformed
      | some (e, k) =>
        match elems flags p (q + k + 1) false with
        | .closed es q' => .closed (e :: es) q'
        | b => b
  else .unclosed
termination_by p.length - q

def negated (p : List UInt8) : Bool := sees p 0 '!' || sees p 0 '^'

/-- An element of a pattern. A backslash at the end of a pattern never matches. -/
inductive Item where
  | star
  | any
  | bracket (neg : Bool) (es : List Elem)
  | lit (c : UInt8)
  | never

/-- The elements of a pattern; none if a bracket expression is malformed. A bracket that is not
closed is an ordinary character. -/
def items (flags : Flags) (pat : List UInt8) : Option (List Item) :=
  match pat with
  | [] => some []
  | c :: p =>
    if c = '*'.toUInt8 then (items flags p).map (.star :: ·)
    else if c = '?'.toUInt8 then (items flags p).map (.any :: ·)
    else if c = '['.toUInt8 then
      match elems flags p (if negated p then 1 else 0) true with
      | .malformed => none
      | .unclosed => (items flags p).map (.lit c :: ·)
      | .closed es q => (items flags (p.drop q)).map (.bracket (negated p) es :: ·)
    else if c = '\\'.toUInt8 ∧ flags.noescape = false then
      match p with
      | [] => some [.never]
      | c :: p => (items flags p).map (.lit c :: ·)
    else (items flags p).map (.lit c :: ·)
termination_by pat.length
decreasing_by all_goals simp only [length_cons, length_drop]; omega

/-- The element accepts the byte at the place `i`. -/
def Item.Accepts (flags : Flags) (str : List UInt8) (i : ℕ) : Item → Prop
  | .star => False
  | .any => ∃ c, str[i]? = some c ∧ slash flags str i = false ∧ leadingDot flags str i = false
  | .bracket neg es => ∃ c, str[i]? = some c ∧ slash flags str i = false ∧
      leadingDot flags str i = false ∧ (es.any (·.has flags c)) ≠ neg
  | .lit x => ∃ c, str[i]? = some c ∧ fold flags x = fold flags c
  | .never => False

/-- A star stops at the end and at the slashes of a path name, and does not begin at a leading
period; a pattern ends at the end, or at a slash behind a leading directory. -/
def rules (flags : Flags) (str : List UInt8) : Rules where
  stop := fun k => str.length ≤ k ∨ slash flags str k = true
  start := fun k => leadingDot flags str k = false
  final := fun k => str.length ≤ k ∨ (flags.leadingDir && sees str k '/') = true

def Item.denote (flags : Flags) (str : List UInt8) : Item → Lib.Wildcard.Item
  | .star => .star
  | it => .one fun i => it.Accepts flags str i

/-- The elements match the string from the place `i` on. -/
def Matches (flags : Flags) (str : List UInt8) (ps : List Item) (i : ℕ) : Prop :=
  Lib.Wildcard.Matches (rules flags str) (ps.map (Item.denote flags str)) i

/-- How a pattern begins. -/
inductive Reads (flags : Flags) : List UInt8 → List Item → Prop
  | nil : Reads flags [] []
  | star {p : List UInt8} {ps : List Item} (hp : items flags p = some ps) :
    Reads flags ('*'.toUInt8 :: p) (.star :: ps)
  | any {p : List UInt8} {ps : List Item} (hp : items flags p = some ps) :
    Reads flags ('?'.toUInt8 :: p) (.any :: ps)
  | unclosed {p : List UInt8} {ps : List Item}
    (he : elems flags p (if negated p then 1 else 0) true = .unclosed)
    (hp : items flags p = some ps) : Reads flags ('['.toUInt8 :: p) (.lit '['.toUInt8 :: ps)
  | closed {p : List UInt8} {ps : List Item} {es : List Elem} {q : ℕ}
    (he : elems flags p (if negated p then 1 else 0) true = .closed es q)
    (hp : items flags (p.drop q) = some ps) :
    Reads flags ('['.toUInt8 :: p) (.bracket (negated p) es :: ps)
  | never (hesc : flags.noescape = false) : Reads flags ['\\'.toUInt8] [.never]
  | escaped {c : UInt8} {p : List UInt8} {ps : List Item} (hesc : flags.noescape = false)
    (hp : items flags p = some ps) : Reads flags ('\\'.toUInt8 :: c :: p) (.lit c :: ps)
  | lit {c : UInt8} {p : List UInt8} {ps : List Item} (hstar : c ≠ '*'.toUInt8)
    (hany : c ≠ '?'.toUInt8) (hbr : c ≠ '['.toUInt8)
    (hesc : ¬ (c = '\\'.toUInt8 ∧ flags.noescape = false)) (hp : items flags p = some ps) :
    Reads flags (c :: p) (.lit c :: ps)

variable {ps : List Item}

theorem items_reads (hp : items flags p = some ps) : Reads flags p ps := by
  rw [items.eq_def] at hp
  cases p with
  | nil =>
    cases hp
    exact .nil
  | cons c p =>
    dsimp only at hp
    by_cases hstar : c = '*'.toUInt8
    · rw [if_pos hstar, map_eq_some_iff] at hp
      obtain ⟨ps₁, h₁, rfl⟩ := hp
      exact hstar ▸ .star h₁
    rw [if_neg hstar] at hp
    by_cases hany : c = '?'.toUInt8
    · rw [if_pos hany, map_eq_some_iff] at hp
      obtain ⟨ps₁, h₁, rfl⟩ := hp
      exact hany ▸ .any h₁
    rw [if_neg hany] at hp
    by_cases hbr : c = '['.toUInt8
    · rw [if_pos hbr] at hp
      subst hbr
      split at hp
      · cases hp
      · obtain ⟨ps₁, h₁, rfl⟩ := map_eq_some_iff.mp hp
        exact .unclosed ‹_› h₁
      · obtain ⟨ps₁, h₁, rfl⟩ := map_eq_some_iff.mp hp
        exact .closed ‹_› h₁
    rw [if_neg hbr] at hp
    by_cases hesc : c = '\\'.toUInt8 ∧ flags.noescape = false
    · rw [if_pos hesc] at hp
      obtain ⟨rfl, hesc⟩ := hesc
      cases p with
      | nil =>
        cases hp
        exact .never hesc
      | cons x p =>
        obtain ⟨ps₁, h₁, rfl⟩ := map_eq_some_iff.mp hp
        exact .escaped hesc h₁
    · rw [if_neg hesc] at hp
      obtain ⟨ps₁, h₁, rfl⟩ := map_eq_some_iff.mp hp
      exact .lit hstar hany hbr hesc h₁

/-! ## Bracket expressions -/

theorem bracketLoop_eq (neg : Bool) (p : List UInt8) (q : ℕ) (first hit : Bool) :
    bracketLoop flags c neg p q first hit =
      match elems flags p q first with
      | .closed es q' => .closed ((hit || es.any (·.has flags c)) != neg) q'
      | .unclosed => .unclosed
      | .malformed => .malformed := by
  fun_induction bracketLoop flags c neg p q first hit with
  | case1 q first hit hq hend =>
    rw [elems, if_pos hq, if_pos hend]
    simp
  | case2 q first hit hq hend he => rw [elems, if_pos hq, if_neg hend, he]
  | case3 q first hit hq hend e k he ih =>
    rw [elems, if_pos hq, if_neg hend, he, ih]
    dsimp only
    cases elems flags p (q + k + 1) false with
    | closed es q' => simp [Bool.or_assoc]
    | unclosed | malformed => rfl
  | case4 q first hit hq => rw [elems, if_neg hq]

theorem bracket_eq (p : List UInt8) : bracket flags p c =
    match elems flags p (if negated p then 1 else 0) true with
    | .closed es q => .closed (es.any (·.has flags c) != negated p) q
    | .unclosed => .unclosed
    | .malformed => .malformed := by
  rw [bracket, bracketLoop_eq, ← negated]
  cases elems flags p (if negated p then 1 else 0) true with
  | closed es q | unclosed | malformed => rfl

theorem strstr_append {a b : UInt8} {e : ℕ} (r : List UInt8) : ∀ {p : List UInt8},
    strstr a b p = some e → strstr a b (p ++ r) = some e ∧ e + 2 ≤ p.length
  | x :: y :: p, h => by
    rw [strstr] at h
    split_ifs at h with hxy
    · cases h
      exact ⟨by rw [cons_append, cons_append, strstr, if_pos hxy], by simp⟩
    · obtain ⟨e', he', rfl⟩ := Option.map_eq_some_iff.mp h
      obtain ⟨h1, h2⟩ := strstr_append r he'
      refine ⟨?_, by simpa using h2⟩
      rw [cons_append] at h1
      rw [cons_append, cons_append, strstr, if_neg hxy, h1]
      rfl

theorem sees_append (hi : i < p.length) (r : List UInt8) (c : Char) :
    sees (p ++ r) i c = sees p i c := by
  rw [sees, sees, getElem?_append_left hi]

/-- An element before the closing bracket does not depend on what follows the bracket. -/
theorem bracketElem_append {e : Elem} (r : List UInt8)
    (h : bracketElem flags p = some (e, k)) (hk : k + 1 < p.length)
    (hend : sees p (k + 1) ']' = true ∨ k + 2 < p.length) :
    bracketElem flags (p ++ r) = some (e, k) := by
  have h0 : ∀ c, sees (p ++ r) 0 c = sees p 0 c := sees_append (by omega) r
  have h1 : ∀ c, sees (p ++ r) 1 c = sees p 1 c := sees_append (by omega) r
  have hdrop : (p ++ r).drop 2 = p.drop 2 ++ r := drop_append_of_le_length (by omega)
  have hget : ∀ i < p.length, (p ++ r).getD i 0 = p.getD i 0 := fun i hi => by
    rw [getD_eq_getElem?_getD, getD_eq_getElem?_getD, getElem?_append_left hi]
  have hskip : ∀ i, i + 1 < p.length → skipEscape flags (p ++ r) i = skipEscape flags p i := by
    intro i hi
    rw [skipEscape, skipEscape, sees_append (by omega), getElem?_append_left hi]
  unfold bracketElem at h ⊢
  simp only [h0, h1, hdrop, hget 1 (by omega)]
  by_cases hsym : (sees p 0 '[' && (sees p 1 '.' || sees p 1 '=')) = true
  · rw [if_pos hsym] at h ⊢
    obtain ⟨e', he', h'⟩ := Option.map_eq_some_iff.mp h
    obtain ⟨h2, h3⟩ := strstr_append r he'
    rw [h2, ← h', Option.map_some, take_append_of_le_length (by omega)]
  rw [if_neg hsym] at h ⊢
  by_cases hcls : (sees p 0 '[' && sees p 1 ':') = true
  · rw [if_pos hcls] at h ⊢
    obtain ⟨e', he', h'⟩ := Option.bind_eq_some_iff.mp h
    obtain ⟨h2, h3⟩ := strstr_append r he'
    rw [h2, ← h', Option.bind_eq_bind, Option.bind_some, take_append_of_le_length (by omega)]
  rw [if_neg hcls] at h ⊢
  rw [hskip 0 (by omega)]
  generalize skipEscape flags p 0 = i at h ⊢
  dsimp only at h ⊢
  split_ifs at h with hdash
  · have hj : i + 2 ≤ skipEscape flags p (i + 2) := by
      unfold skipEscape
      split_ifs <;> omega
    obtain ⟨-, rfl⟩ := Prod.mk.inj (Option.some.inj h)
    rw [sees_append (by omega), sees_append (by omega), getElem?_append_left (by omega),
      if_pos hdash, hskip _ (by omega), hget _ (by omega), hget _ (by omega)]
    exact h
  · obtain ⟨-, rfl⟩ := Prod.mk.inj (Option.some.inj h)
    rw [sees_append hk, hget _ (by omega), if_neg]
    · exact h
    · rcases hend with hend | hend
      · rw [sees, beq_iff_eq] at hend
        rw [show sees p (i + 1) '-' = false by rw [sees, hend]; decide]
        simp
      · rwa [sees_append hend, getElem?_append_left hend]

theorem elems_bounds {q : ℕ} {first : Bool} {es : List Elem} {q' : ℕ}
    (h : elems flags p q first = .closed es q') :
    q < p.length ∧ ((!first && sees p q ']') = true ∨ q + 1 < p.length) := by
  fun_induction elems flags p q first generalizing es q' with
  | case1 q first hq hend => exact ⟨hq, .inl hend⟩
  | case2 => cases h
  | case3 q first hq hend e k he es' q₁ hrest ih =>
    have := (ih hrest).1
    exact ⟨hq, .inr (by omega)⟩
  | case4 q first hq hend e k he hno ih => exact absurd h (hno _ _)
  | case5 => cases h

theorem elems_end {q : ℕ} (hq : q < p.length) (hend : sees p q ']' = true) :
    elems flags p q false = .closed [] (q + 1) := by
  rw [elems, if_pos hq, if_pos (by simpa using hend)]

theorem elems_next {q k q' : ℕ} {first : Bool} {e : Elem} {es : List Elem}
    (hq : q < p.length) (hend : (!first && sees p q ']') = false)
    (he : bracketElem flags (p.drop q) = some (e, k))
    (h : elems flags p (q + k + 1) false = .closed es q') :
    elems flags p q first = .closed (e :: es) q' := by
  rw [elems, if_pos hq, if_neg (by simp [hend]), he]
  dsimp only
  rw [h]

/-- A bracket expression that is closed in `p` is closed there whatever follows. -/
theorem elems_append {q : ℕ} {first : Bool} {es : List Elem} {q' : ℕ}
    (h : elems flags p q first = .closed es q') (r : List UInt8) :
    elems flags (p ++ r) q first = .closed es q' := by
  fun_induction elems flags p q first generalizing es q' with
  | case1 q first hq hend =>
    rw [Bool.and_eq_true, Bool.not_eq_true'] at hend
    obtain ⟨rfl, hend⟩ := hend
    cases h
    exact elems_end (by rw [length_append]; omega) ((sees_append hq r _).trans hend)
  | case2 => cases h
  | case3 q first hq hend e k he es' q₁ hrest ih =>
    obtain ⟨h1, h2⟩ := elems_bounds hrest
    have he' : bracketElem flags ((p ++ r).drop q) = some (e, k) := by
      rw [drop_append_of_le_length hq.le]
      refine bracketElem_append r he (by rw [length_drop]; omega) ?_
      rw [sees, getElem?_drop, length_drop]
      refine h2.imp (fun h => ?_) fun h => by omega
      exact h
    cases h
    exact elems_next (by rw [length_append]; omega) (by simpa [sees_append hq] using hend) he'
      (ih hrest)
  | case4 q first hq hend e k he hno ih => exact absurd h (hno _ _)
  | case5 => cases h

/-! ## Stars, slashes and periods -/

variable {x : UInt8} {p' : List UInt8}

theorem fold_inj (hx : ∀ c : UInt8, tolower c.toUInt32 = tolower x.toUInt32 → c = x)
    (h : fold flags c = fold flags x) : c = x := by
  unfold fold at h
  split_ifs at h
  · exact hx c h
  · exact UInt8.toUInt32_inj.mp h

theorem fold_eq_slash (h : fold flags c = fold flags '/'.toUInt8) : c = '/'.toUInt8 :=
  fold_inj (Byte.forall_byte (by decide +kernel)) h

theorem start_succ (h : ¬ (rules flags str).stop k) : (rules flags str).start (k + 1) := by
  simp only [rules, not_or, Bool.not_eq_true] at h ⊢
  unfold leadingDot
  rw [Nat.add_sub_cancel, show (flags.pathname && sees str k '/') = slash flags str k from rfl, h.2]
  simp

/-- An element accepts only slashes that no star takes, or none of them. -/
theorem accepts_pure (flags : Flags) (str : List UInt8) (it : Item) :
    (rules flags str).Pure fun i => it.Accepts flags str i := by
  have hfree : ∀ {k c}, str[k]? = some c → slash flags str k = false →
      ¬ (rules flags str).stop k := by
    intro k c hc hs
    have := (List.getElem?_eq_some_iff.mp hc).1
    simp only [rules, hs]
    simp
    omega
  cases it with
  | star | never => exact .inl fun k h => h.elim
  | any | bracket neg es => exact .inl fun k ⟨c, hc, hs, _⟩ => hfree hc hs
  | lit x =>
    by_cases hx : x = '/'.toUInt8 ∧ flags.pathname = true
    · refine .inr fun k ⟨c, hc, hf⟩ => .inr ?_
      rw [hx.1] at hf
      rw [slash, hx.2, sees, hc, fold_eq_slash hf.symm]
      rfl
    · refine .inl fun k ⟨c, hc, hf⟩ => hfree hc ?_
      rw [slash, sees, hc]
      by_contra hs
      simp only [Bool.not_eq_false, Bool.and_eq_true, beq_iff_eq, some.injEq] at hs
      rw [hs.2] at hf
      exact hx ⟨fold_eq_slash hf, hs.1⟩

/-! ## One round -/

/-- What a round finds out about the elements `ps`. -/
inductive Finds (flags : Flags) (str p : List UInt8) (ps : List Item) (s : ℕ) : Outcome → Prop
  | next (it : Item) {ps' : List Item} {p' : List UInt8}
    (hps : ps.map (Item.denote flags str) =
      .one (fun i => it.Accepts flags str i) :: ps'.map (Item.denote flags str))
    (hp' : items flags p' = some ps') (hacc : it.Accepts flags str s)
    (hlen : p'.length < p.length) : Finds flags str p ps s (.next p' (s + 1))
  | star {ps' : List Item} {p' : List UInt8} (hp' : items flags p' = some ps')
    (hps : ∀ i, Matches flags str ps i ↔ Matches flags str (.star :: ps') i)
    (hstart : leadingDot flags str s = false) (hlen : p'.length < p.length) :
    Finds flags str p ps s (.star p')
  | backtrack (h : ¬ Matches flags str ps s) : Finds flags str p ps s .backtrack
  | found (h : Matches flags str ps s) : Finds flags str p ps s (.ret 0)
  | never (h : ∀ i, ¬ Matches flags str ps i) : Finds flags str p ps s (.ret 1)

theorem literal_finds
    (hp : items flags p' = some ps) (hlen : p'.length < p.length) :
    Finds flags str p (.lit x :: ps) s (literal flags str x p' s) := by
  unfold literal
  split
  · rename_i hc
    refine .backtrack fun h => ?_
    obtain ⟨⟨c, hc', -⟩, -⟩ := matches_one.mp h
    rw [hc] at hc'
    cases hc'
  · rename_i c hc
    by_cases hf : fold flags x = fold flags c
    · rw [if_neg (not_not.mpr hf)]
      exact .next (.lit x) rfl hp ⟨c, hc, hf⟩ hlen
    · rw [if_pos hf]
      refine .backtrack fun h => ?_
      obtain ⟨⟨c', hc', hf'⟩, -⟩ := matches_one.mp h
      rw [hc] at hc'
      cases hc'
      exact hf hf'

theorem items_stars : ∀ {p : List UInt8}, items flags p = some ps →
    ∃ ps', items flags (p.dropWhile (· = '*'.toUInt8)) = some ps' ∧
      ∀ i, Matches flags str (.star :: ps) i ↔ Matches flags str (.star :: ps') i := by
  intro p
  induction p generalizing ps with
  | nil => exact fun h => ⟨ps, h, fun _ => .rfl⟩
  | cons c p ih =>
    intro h
    by_cases hc : c = '*'.toUInt8
    · subst hc
      cases items_reads h with
      | star h₁ =>
        obtain ⟨ps', h', heq⟩ := ih h₁
        refine ⟨ps', by rw [dropWhile_cons_of_pos (by simp)]; exact h', fun i => ?_⟩
        exact matches_star_star.trans (heq i)
      | lit hstar => exact absurd rfl hstar
    · exact ⟨ps, by rw [dropWhile_cons_of_neg (by simpa using hc)]; exact h, fun _ => .rfl⟩

theorem not_matches_of_not_accepts {it : Item}
    (hden : it.denote flags str = .one fun i => it.Accepts flags str i)
    (h : ¬ it.Accepts flags str s) : ¬ Matches flags str (it :: ps) s := by
  intro hm
  rw [Matches, map_cons, hden] at hm
  exact h (matches_one.mp hm).1

theorem caseBracket_unclosed (hp : items flags p = some ps)
    (he : elems flags p (if negated p then 1 else 0) true = .unclosed) :
    Finds flags str ('['.toUInt8 :: p) (.lit '['.toUInt8 :: ps) s (caseBracket flags str p s) := by
  rw [caseBracket]
  cases hx : str[s]? with
  | none =>
    refine .backtrack (not_matches_of_not_accepts rfl ?_)
    rintro ⟨x, hx', -⟩
    rw [hx] at hx'
    cases hx'
  | some x =>
    dsimp only
    split_ifs with hs
    · refine .backtrack (not_matches_of_not_accepts rfl ?_)
      rintro ⟨x', hx', hf⟩
      rw [slash, sees, Bool.and_eq_true, beq_iff_eq, hx'] at hs
      rw [some.inj hs.2] at hf
      exact absurd (fold_eq_slash hf) (by decide)
    · rw [bracket_eq, he]
      exact literal_finds hp (lt_succ_self _)

theorem caseBracket_closed {es : List Elem} {q : ℕ}
    (hp : items flags (p.drop q) = some ps)
    (he : elems flags p (if negated p then 1 else 0) true = .closed es q)
    (hdot : leadingDot flags str s = false) :
    Finds flags str ('['.toUInt8 :: p) (.bracket (negated p) es :: ps) s
      (caseBracket flags str p s) := by
  have hlen : (p.drop q).length < ('['.toUInt8 :: p).length := by
    rw [length_drop, length_cons]
    omega
  rw [caseBracket]
  cases hx : str[s]? with
  | none =>
    refine .backtrack (not_matches_of_not_accepts rfl ?_)
    rintro ⟨x, hx', -⟩
    rw [hx] at hx'
    cases hx'
  | some x =>
    dsimp only
    split_ifs with hs
    · refine .backtrack (not_matches_of_not_accepts rfl ?_)
      rintro ⟨x', -, hs', -⟩
      rw [hs] at hs'
      cases hs'
    · rw [bracket_eq, he]
      dsimp only
      cases hhit : (es.any (·.has flags x) != negated p) with
      | false =>
        refine .backtrack (not_matches_of_not_accepts rfl ?_)
        rintro ⟨x', hx', -, -, hne⟩
        rw [hx] at hx'
        cases hx'
        exact hne (by simpa using hhit)
      | true =>
        exact .next (.bracket (negated p) es) rfl hp
          ⟨x, hx, Bool.eq_false_iff.mpr hs, hdot, by simpa using hhit⟩ hlen

theorem switch_finds (hp : items flags p = some ps)
    (hdot : leadingDot flags str s = true → ∃ c, ps.head? = some (.lit c) ∨ ps = []) :
    Finds flags str p ps s (switch flags str p s) := by
  -- no leading period at an element other than a literal
  have hnodot : (∀ c, ps.head? ≠ some (.lit c)) → ps ≠ [] → leadingDot flags str s = false := by
    intro h1 h2
    by_contra h
    obtain ⟨c, hc | hnil⟩ := hdot (Bool.of_not_eq_false h)
    · exact h1 c hc
    · exact h2 hnil
  cases items_reads hp with
  | nil =>
    unfold switch
    dsimp only
    split_ifs with hfin
    · exact .found (matches_nil.mpr hfin)
    · exact .backtrack fun h => hfin (matches_nil.mp h)
  | star h₁ =>
    obtain ⟨ps', h', heq⟩ := items_stars h₁
    refine .star h' heq (hnodot (by simp) (by simp)) ?_
    exact lt_succ_of_le (dropWhile_suffix _).length_le
  | any h₁ =>
    change Finds flags str _ _ s
      (if s ≥ str.length ∨ slash flags str s = true then .backtrack else .next _ (s + 1))
    by_cases hs : s ≥ str.length ∨ slash flags str s = true
    · rw [if_pos hs]
      refine .backtrack (not_matches_of_not_accepts rfl ?_)
      rintro ⟨x, hx, hslash, -⟩
      have := (List.getElem?_eq_some_iff.mp hx).1
      simp [hslash] at hs
      omega
    · rw [if_neg hs]
      rw [not_or, ge_iff_le, not_le, Bool.not_eq_true] at hs
      exact .next .any rfl h₁
        ⟨_, List.getElem?_eq_getElem hs.1, hs.2, hnodot (by simp) (by simp)⟩ (lt_succ_self _)
  | unclosed he h₁ => exact caseBracket_unclosed h₁ he
  | closed he h₁ => exact caseBracket_closed h₁ he (hnodot (by simp) (by simp))
  | never hesc =>
    unfold switch
    dsimp only
    rw [if_neg (by decide), if_neg (by decide), if_neg (by decide), if_pos ⟨rfl, hesc⟩]
    exact .never fun i h => (matches_one.mp h).1
  | escaped hesc h₁ =>
    unfold switch
    dsimp only
    rw [if_neg (by decide), if_neg (by decide), if_neg (by decide), if_pos ⟨rfl, hesc⟩]
    exact literal_finds h₁ (by simp only [length_cons]; omega)
  | lit hstar hany hbr hesc h₁ =>
    unfold switch
    dsimp only
    rw [if_neg hstar, if_neg hany, if_neg hbr, if_neg hesc]
    exact literal_finds h₁ (lt_succ_self _)

theorem eq_dot_of_leadingDot (hdot : leadingDot flags str s = true)
    (h : (Item.lit x).Accepts flags str s) : x = '.'.toUInt8 := by
  obtain ⟨c, hc, hf⟩ := h
  simp only [leadingDot, sees, Bool.and_eq_true, beq_iff_eq, hc, some.injEq] at hdot
  rw [hdot.1.2] at hf
  exact fold_inj (Byte.forall_byte (by decide +kernel)) hf

/-- The pattern goes on with a period, or is at its end. -/
def dotAhead (flags : Flags) (p : List UInt8) : Bool :=
  sees p 0 '.' || (sees p 0 '\\' && !flags.noescape && sees p 1 '.') || p.isEmpty

theorem sees_cons (x : UInt8) (p : List UInt8) (c : Char) : sees (x :: p) 0 c = (x == c.toUInt8) :=
  rfl

theorem not_matches_leadingDot (hp : items flags p = some ps)
    (hdot : leadingDot flags str s = true) (hp' : dotAhead flags p = false) :
    ¬ Matches flags str ps s := by
  simp only [dotAhead, Bool.or_eq_false_iff] at hp'
  obtain ⟨⟨h1, h2⟩, h3⟩ := hp'
  have hne : leadingDot flags str s ≠ false := by rw [hdot]; decide
  cases items_reads hp with
  | nil => cases h3
  | star h₁ => exact fun h => hne (matches_star.mp h).1
  | any h₁ => exact not_matches_of_not_accepts rfl fun ⟨_, _, _, h⟩ => hne h
  | unclosed he h₁ =>
    refine not_matches_of_not_accepts rfl fun h => ?_
    exact absurd (eq_dot_of_leadingDot hdot h) (by decide)
  | closed he h₁ => exact not_matches_of_not_accepts rfl fun ⟨_, _, _, h, _⟩ => hne h
  | never hesc => exact not_matches_of_not_accepts rfl id
  | escaped hesc h₁ =>
    refine not_matches_of_not_accepts rfl fun h => ?_
    rw [eq_dot_of_leadingDot hdot h, sees_cons, hesc] at h2
    cases h2
  | lit hstar hany hbr hesc h₁ =>
    refine not_matches_of_not_accepts rfl fun h => ?_
    rw [eq_dot_of_leadingDot hdot h, sees_cons] at h1
    cases h1

theorem head_of_dotAhead (hp : items flags p = some ps)
    (hp' : dotAhead flags p = true) : ∃ c, ps.head? = some (.lit c) ∨ ps = [] := by
  cases items_reads hp with
  | nil => exact ⟨0, .inr rfl⟩
  | star _ | any _ | closed _ _ => cases hp'
  | never hesc =>
    rw [dotAhead, sees_cons, hesc] at hp'
    cases hp'
  | unclosed _ _ | escaped _ _ | lit _ _ _ _ _ => exact ⟨_, .inl rfl⟩

theorem round_finds (hp : items flags p = some ps) :
    Finds flags str p ps s (round flags str p s) := by
  have hcond : (leadingDot flags str s && !sees p 0 '.' &&
      !(sees p 0 '\\' && !flags.noescape && sees p 1 '.') && !p.isEmpty) =
        (leadingDot flags str s && !dotAhead flags p) := by
    simp only [dotAhead, Bool.not_or, Bool.and_assoc]
  rw [round, hcond]
  by_cases h : (leadingDot flags str s && !dotAhead flags p) = true
  · rw [if_pos h]
    rw [Bool.and_eq_true, Bool.not_eq_true'] at h
    exact .backtrack (not_matches_leadingDot hp h.1 h.2)
  · rw [if_neg h]
    refine switch_finds hp fun hdot => head_of_dotAhead hp ?_
    simpa [hdot] using h

/-! ## The loop -/

/-- The tests between the last star and the place in the pattern have accepted what lies between
`star_s` and the place in the string. -/
structure Inv (flags : Flags) (str : List UInt8) (len : ℕ) (st : State) (ps : List Item) :
    Prop where
  items : items flags st.p = some ps
  le : st.p.length ≤ len
  star : ∀ q j, st.star = some (q, j) → q.length ≤ len ∧ leadingDot flags str j = false ∧
    ∃ (qs : List Item) (tests : List (ℕ → Prop)), Fnmatch.items flags q = some qs ∧
      qs.map (Item.denote flags str) =
        tests.map .one ++ ps.map (Item.denote flags str) ∧
      (∀ P ∈ tests, (rules flags str).Pure P) ∧ Ones tests j ∧ st.s = j + tests.length

/-- The pattern matches from here on, or with a last star that takes more. -/
def Goal (flags : Flags) (str : List UInt8) (st : State) (ps : List Item) : Prop :=
  Matches flags str ps st.s ∨ ∃ q j qs j', st.star = some (q, j) ∧ items flags q = some qs ∧
    j < j' ∧ (rules flags str).Free j j' ∧ Matches flags str qs j'

/-- How often the last star can still take more. -/
def room (str : List UInt8) : Option (List UInt8 × ℕ) → ℕ
  | none => str.length + 1
  | some (_, j) => str.length - j

/-- Every round makes this smaller: the last star takes more, or the pattern gets shorter. -/
def weight (str : List UInt8) (len : ℕ) (st : State) : ℕ :=
  room str st.star * (len + 1) + st.p.length

variable {len : ℕ} {st st' : State}

theorem Inv.next {it : Item} {ps' : List Item} (hinv : Inv flags str len st ps)
    (hps : ps.map (Item.denote flags str) =
      .one (fun i => it.Accepts flags str i) :: ps'.map (Item.denote flags str))
    (hp' : Fnmatch.items flags p' = some ps') (hacc : it.Accepts flags str st.s)
    (hlen : p'.length < st.p.length) : Inv flags str len { st with p := p', s := st.s + 1 } ps' ∧
      (Goal flags str st ps ↔ Goal flags str { st with p := p', s := st.s + 1 } ps') := by
  have hle := hinv.le
  refine ⟨⟨hp', by dsimp only; omega, fun q j hq => ?_⟩, ?_⟩
  · obtain ⟨hqlen, hstart, qs, tests, hqs, hden, hpure, hones, hs⟩ := hinv.star q j hq
    refine ⟨hqlen, hstart, qs, tests ++ [fun i => it.Accepts flags str i], hqs, ?_, ?_, ?_, ?_⟩
    · rw [hden, hps]
      simp
    · intro P hP
      rcases mem_append.mp hP with hP | hP
      · exact hpure P hP
      · rw [mem_singleton.mp hP]
        exact accepts_pure flags str it
    · refine Lib.Wildcard.ones_append.mpr ⟨hones, ?_, trivial⟩
      rwa [← hs]
    · simp [hs]
      omega
  · refine or_congr_left ?_
    rw [Matches, hps, matches_one]
    exact and_iff_right hacc

theorem Inv.newStar {ps' : List Item} (hinv : Inv flags str len st ps)
    (hp' : Fnmatch.items flags p' = some ps')
    (hps : ∀ i, Matches flags str ps i ↔ Matches flags str (.star :: ps') i)
    (hstart : leadingDot flags str st.s = false) (hlen : p'.length < st.p.length) :
    Inv flags str len ⟨p', st.s, some (p', st.s)⟩ ps' ∧
      (Goal flags str st ps ↔ Goal flags str ⟨p', st.s, some (p', st.s)⟩ ps') := by
  have hle := hinv.le
  refine ⟨⟨hp', by dsimp only; omega, fun q j hq => ?_⟩, ?_⟩
  · cases hq
    exact ⟨by omega, hstart, ps', [], hp', rfl, by simp, trivial, rfl⟩
  · -- both say that the new star matches
    have hnew : Goal flags str ⟨p', st.s, some (p', st.s)⟩ ps' ↔
        Matches flags str (.star :: ps') st.s := by
      constructor
      · rintro (h | ⟨q, j, qs, j', hq, hqs, hj, hfree, h⟩)
        · exact matches_star.mpr ⟨hstart, st.s, le_rfl, Rules.Free.refl _ _, h⟩
        · cases hq
          rw [hp'] at hqs
          cases hqs
          exact matches_star.mpr ⟨hstart, j', hj.le, hfree, h⟩
      · intro h
        obtain ⟨-, j', hj, hfree, h⟩ := matches_star.mp h
        rcases Nat.eq_or_lt_of_le hj with rfl | hj
        · exact .inl h
        · exact .inr ⟨p', st.s, ps', j', rfl, hp', hj, hfree, h⟩
    rw [hnew]
    constructor
    · rintro (h | ⟨q, j, qs, j', hq, hqs, hj, hfree, h⟩)
      · exact (hps _).mp h
      · obtain ⟨-, hbegin, qs', tests, hqs', hden, hpure, hones, hs⟩ := hinv.star q j hq
        rw [hqs'] at hqs
        cases hqs
        rw [Matches, hden, matches_ones] at h
        rw [Matches, hs]
        refine Lib.Wildcard.Matches.of_earlier (fun _ => start_succ) hpure hbegin hones hj hfree ?_
        exact matches_ones.mpr ⟨h.1, (hps _).mp h.2⟩
    · exact fun h => .inl ((hps _).mpr h)

theorem Inv.retry {q : List UInt8} (hinv : Inv flags str len st ps) (hq : st.star = some (q, j))
    (hno : ¬ Matches flags str ps st.s) (hj : ¬ (rules flags str).stop j) :
    ∃ qs, Inv flags str len ⟨q, j + 1, some (q, j + 1)⟩ qs ∧
      (Goal flags str st ps ↔ Goal flags str ⟨q, j + 1, some (q, j + 1)⟩ qs) := by
  obtain ⟨hqlen, -, qs, -, hqs, -⟩ := hinv.star q j hq
  refine ⟨qs, ⟨hqs, hqlen, fun q' j' hq' => ?_⟩, ?_⟩
  · cases hq'
    exact ⟨hqlen, start_succ hj, qs, [], hqs, rfl, by simp, trivial, rfl⟩
  · have hone : (rules flags str).Free j (j + 1) := fun k hk hk' => by
      obtain rfl : k = j := by omega
      exact hj
    constructor
    · rintro (h | ⟨q', i, qs', j', hq', hqs', hij, hfree, h⟩)
      · exact absurd h hno
      · rw [hq] at hq'
        cases hq'
        rw [hqs] at hqs'
        cases hqs'
        rcases Nat.eq_or_lt_of_le hij with rfl | hlt
        · exact .inl h
        · exact .inr ⟨q, j + 1, qs, j', rfl, hqs, hlt, hfree.mono (by omega) le_rfl, h⟩
    · rintro (h | ⟨q', i, qs', j', hq', hqs', hij, hfree, h⟩)
      · exact .inr ⟨q, j, qs, j + 1, hq, hqs, by omega, hone, h⟩
      · cases hq'
        exact .inr ⟨q, j, qs', j', hq, hqs', by omega, hone.trans hfree, h⟩

theorem not_goal (hno : ¬ Matches flags str ps st.s)
    (hstar : ∀ q j, st.star = some (q, j) → (rules flags str).stop j) :
    ¬ Goal flags str st ps := by
  rintro (h | ⟨q, j, qs, j', hq, -, hj, hfree, -⟩)
  · exact hno h
  · exact hfree j le_rfl hj (hstar q j hq)

theorem Inv.weight_newStar (hinv : Inv flags str len st ps) (hlen : p'.length < st.p.length) :
    weight str len ⟨p', st.s, some (p', st.s)⟩ < weight str len st := by
  have hroom : room str (some (p', st.s)) ≤ room str st.star := by
    cases hs : st.star with
    | none => exact (sub_le _ _).trans (le_succ _)
    | some r =>
      obtain ⟨q, j⟩ := r
      obtain ⟨-, -, -, tests, -, -, -, -, hj⟩ := hinv.star q j hs
      rw [room, room]
      omega
  exact Nat.add_lt_add_of_le_of_lt (Nat.mul_le_mul_right _ hroom) hlen

theorem weight_retry {q : List UInt8} (hq : st.star = some (q, j)) (hj : j < str.length)
    (hlen : q.length ≤ len) :
    weight str len ⟨q, j + 1, some (q, j + 1)⟩ < weight str len st := by
  have hroom : room str st.star = room str (some (q, j + 1)) + 1 := by
    rw [hq, room, room]
    omega
  rw [weight, weight, hroom, succ_mul]
  dsimp only
  omega

theorem Inv.not_goal_of_never (hinv : Inv flags str len st ps)
    (h : ∀ i, ¬ Matches flags str ps i) : ¬ Goal flags str st ps := by
  rintro (hm | ⟨q, j, qs, j', hq, hqs, -, -, hm⟩)
  · exact h _ hm
  · obtain ⟨-, -, qs', tests, hqs', hden, -⟩ := hinv.star q j hq
    rw [hqs'] at hqs
    cases hqs
    rw [Matches, hden, matches_ones] at hm
    exact h _ hm.2

theorem step_spec (hinv : Inv flags str len st ps) :
    (∃ st' ps', step flags str st = .inl st' ∧ Inv flags str len st' ps' ∧
        (Goal flags str st ps ↔ Goal flags str st' ps') ∧
        weight str len st' < weight str len st) ∨
      ∃ r, step flags str st = .inr r ∧
        ((r = 0 ∧ Goal flags str st ps) ∨ (r = 1 ∧ ¬ Goal flags str st ps)) := by
  have hfinds : Finds flags str st.p ps st.s _ := round_finds hinv.items
  rw [step]
  cases hr : round flags str st.p st.s with
  | next p' s' =>
    rw [hr] at hfinds
    cases hfinds with
    | next _ hps hp' hacc hlen =>
      obtain ⟨h1, h2⟩ := hinv.next hps hp' hacc hlen
      exact .inl ⟨_, _, rfl, h1, h2, Nat.add_lt_add_left hlen _⟩
  | star p' =>
    rw [hr] at hfinds
    cases hfinds with
    | star hp' hps hstart hlen =>
      obtain ⟨h1, h2⟩ := hinv.newStar hp' hps hstart hlen
      exact .inl ⟨_, _, rfl, h1, h2, hinv.weight_newStar hlen⟩
  | backtrack =>
    rw [hr] at hfinds
    cases hfinds with
    | backtrack hno =>
      dsimp only
      rw [backtrack]
      cases hq : st.star with
      | none => exact .inr ⟨1, rfl, .inr ⟨rfl, not_goal hno (by simp [hq])⟩⟩
      | some r =>
        obtain ⟨q, j⟩ := r
        obtain ⟨hqlen, hbegin, -⟩ := hinv.star q j hq
        by_cases hstop : (rules flags str).stop j
        · refine .inr ⟨1, if_pos (hstop.imp_right .inl), .inr ⟨rfl, not_goal hno ?_⟩⟩
          intro q' j' hq'
          rw [hq] at hq'
          cases hq'
          exact hstop
        · obtain ⟨qs, h1, h2⟩ := hinv.retry hq hno hstop
          have hj : j < str.length := not_le.mp fun h => hstop (.inl h)
          refine .inl ⟨_, qs, if_neg ?_, h1, h2, weight_retry hq hj hqlen⟩
          rintro (h | h | h)
          · exact hstop (.inl h)
          · exact hstop (.inr h)
          · rw [hbegin] at h
            cases h
  | ret r =>
    rw [hr] at hfinds
    refine .inr ⟨r, rfl, ?_⟩
    cases hfinds with
    | found h => exact .inl ⟨rfl, .inl h⟩
    | never h => exact .inr ⟨rfl, hinv.not_goal_of_never h⟩

theorem run_spec : ∀ (fuel : ℕ) {st : State} {ps : List Item}, Inv flags str len st ps →
    weight str len st < fuel → ∃ r, run flags str fuel st = some r ∧
      ((r = 0 ∧ Goal flags str st ps) ∨ (r = 1 ∧ ¬ Goal flags str st ps))
  | 0, _, _, _, h => absurd h (Nat.not_lt_zero _)
  | fuel + 1, st, ps, hinv, h => by
    rw [run]
    rcases step_spec hinv with ⟨st', ps', hstep, hinv', hgoal, hlt⟩ | ⟨r, hstep, hr⟩
    · rw [hstep, hgoal]
      exact run_spec fuel hinv' (by omega)
    · rw [hstep]
      exact ⟨r, rfl, hr⟩

theorem fnmatch_decides {pat : List UInt8} (hpat : items flags pat = some ps) :
    (fnmatch flags pat str = some 0 ↔ Matches flags str ps 0) ∧
      (fnmatch flags pat str = some 1 ↔ ¬ Matches flags str ps 0) := by
  have hinv : Inv flags str pat.length ⟨pat, 0, none⟩ ps := ⟨hpat, le_rfl, by simp⟩
  have hweight : weight str pat.length ⟨pat, 0, none⟩ < (str.length + 2) * (pat.length + 1) := by
    change (str.length + 1) * (pat.length + 1) + pat.length < _
    rw [succ_mul (str.length + 1)]
    exact Nat.add_lt_add_left (lt_succ_self _) _
  have hgoal : Goal flags str ⟨pat, 0, none⟩ ps ↔ Matches flags str ps 0 := by
    simp [Goal]
  obtain ⟨r, hr, h⟩ := run_spec _ hinv hweight
  rw [hgoal] at h
  rw [fnmatch, hr]
  rcases h with ⟨rfl, h⟩ | ⟨rfl, h⟩
  · simp [h]
  · simp [h]

/-- **`fnmatch`** returns, for every string and all flags. If the bracket expressions of the
pattern are well formed it returns 0 exactly if the pattern matches the string, and `FNM_NOMATCH` if
not. -/
theorem fnmatch_iff (flags : Flags) (pat str : List UInt8) (ps : List Item)
    (hpat : items flags pat = some ps) :
    (fnmatch flags pat str = some 0 ↔ Matches flags str ps 0) ∧
      (fnmatch flags pat str = some 1 ↔ ¬ Matches flags str ps 0) :=
  fnmatch_decides hpat

/-- `*b` matches `ab`. -/
theorem fnmatch_iff_star : fnmatch {} [42, 98] [97, 98] = some 0 := by
  have hpat : items {} [42, 98] = some [.star, .lit 98] := by
    rw [items.eq_def]
    dsimp only
    rw [if_pos (by decide), items.eq_def]
    dsimp only
    rw [if_neg (by decide), if_neg (by decide), if_neg (by decide), if_neg (by decide), items]
    rfl
  have hfree : (rules {} [97, 98]).Free 0 1 := by
    intro k _ hk
    obtain rfl : k = 0 := by omega
    simp [rules, slash]
  have hlit : Matches {} [97, 98] [.lit 98] 1 :=
    matches_one.mpr ⟨⟨98, rfl, rfl⟩, matches_nil.mpr (.inl le_rfl)⟩
  refine (fnmatch_iff {} [42, 98] [97, 98] _ hpat).1.mpr (matches_star.mpr ?_)
  exact ⟨rfl, 1, by decide, hfree, hlit⟩

end Citadel.Fnmatch
