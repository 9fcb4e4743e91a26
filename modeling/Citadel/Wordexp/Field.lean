import Citadel.Fnmatch.Semantics

/-!
# `wordexp.c`: the field being built

`emit` writes each character twice, as text and as a pattern for `glob` and `fnmatch`. Quoting
becomes a backslash before the characters `*?[\`; within a bracket expression `]`, `-`, `!` and `^`
are special too, and stay so when they are quoted. The quoted character of a word is never zero.
-/

namespace Citadel.Wordexp

open Citadel.Fnmatch List

/-- `struct st`, as far as it describes the field being built. -/
structure Field where
  raw : List UInt8 := []
  pat : List UInt8 := []
  inField : Bool := false
  magic : Bool := false
  afterWs : Bool := false
deriving DecidableEq, Repr

/-- The character gets a backslash in the pattern. -/
def escapes (c : UInt8) (q : Bool) : Bool := if q then c ∈ bytes "*?[\\" else c = '\\'.toUInt8

/-- A character in a pattern. -/
def slashed (escaped : Bool) (c : UInt8) : List UInt8 := if escaped then ['\\'.toUInt8, c] else [c]

/-- A literal character of the current field; `q`: it was quoted. -/
def emit (st : Field) (c : UInt8) (q : Bool) : Field :=
  { raw := st.raw ++ [c]
    pat := st.pat ++ slashed (escapes c q) c
    inField := true
    magic := st.magic || (!escapes c q && c ∈ bytes "*?[")
    afterWs := false }

/-- A word: its characters, and whether they are quoted. -/
abbrev Word := List (UInt8 × Bool)

def pattern (w : Word) : List UInt8 := (w.foldl (fun st x => emit st x.1 x.2) {}).pat

/-- The pattern in which every quoted character stands for itself. So does every backslash, which
is unquoted only in the value of an expansion. -/
def literalPattern (w : Word) : List UInt8 :=
  w.flatMap fun x => slashed (x.2 || x.1 = '\\'.toUInt8) x.1

theorem pattern_eq (w : Word) : pattern w = w.flatMap fun x => slashed (escapes x.1 x.2) x.1 := by
  suffices h : ∀ st : Field, (w.foldl (fun st x => emit st x.1 x.2) st).pat =
      st.pat ++ w.flatMap fun x => slashed (escapes x.1 x.2) x.1 from h {}
  induction w with
  | nil => simp
  | cons x w ih =>
    intro st
    rw [foldl_cons, ih, emit, flatMap_cons, append_assoc]

variable {flags : Flags} {p : List UInt8} {es : List Elem}

section Items

variable (hesc : flags.noescape = false) {c : UInt8}
include hesc

end Items

/-- The bytes of `p` are a bracket expression behind its opening bracket, with the elements `es`. -/
def Encloses (flags : Flags) (p : List UInt8) (es : List Elem) : Prop :=
  elems flags p (if negated p then 1 else 0) true = .closed es p.length

theorem Encloses.items (h : Encloses flags p es) (r : List UInt8) :
    items flags ('['.toUInt8 :: (p ++ r)) =
      (items flags r).map (.bracket (negated p) es :: ·) := by
  have hneg : negated (p ++ r) = negated p := by
    have hpos : 0 < p.length := by
      have := (elems_bounds h).1
      omega
    rw [negated, negated, sees_append hpos, sees_append hpos]
  rw [items.eq_def]
  dsimp only
  rw [if_neg (by decide), if_neg (by decide), if_pos rfl, hneg, elems_append h]
  dsimp only
  rw [drop_left]

/-- The bracket expressions of a word are read alike in both patterns: an opening bracket is closed
in neither of them, or behind the same character, and then accepts the same bytes. -/
inductive Alike (flags : Flags) : Word → Prop
  | nil : Alike flags []
  | plain {c : UInt8} {q : Bool} {w : Word} (hbr : c = '['.toUInt8 → q = true) (h : Alike flags w) :
    Alike flags ((c, q) :: w)
  | unclosed {w : Word}
    (hp : elems flags (pattern w) (if negated (pattern w) then 1 else 0) true = .unclosed)
    (hl : elems flags (literalPattern w) (if negated (literalPattern w) then 1 else 0) true =
      .unclosed) (h : Alike flags w) : Alike flags (('['.toUInt8, false) :: w)
  | closed {u v : Word} {es es' : List Elem} (hp : Encloses flags (pattern u) es)
    (hl : Encloses flags (literalPattern u) es')
    (hsame : ∀ c, (es.any (·.has flags c) = negated (pattern u)) ↔
      es'.any (·.has flags c) = negated (literalPattern u)) (h : Alike flags v) :
    Alike flags (('['.toUInt8, false) :: (u ++ v))

/-- The quoted characters of a bracket expression that `emit` escapes make no difference. -/
theorem Alike.escaped {u v : Word}
    (hu : ∀ x ∈ u, x.2 = true → x.1 ∈ bytes "*?[\\") (hp : Encloses flags (pattern u) es)
    (h : Alike flags v) : Alike flags (('['.toUInt8, false) :: (u ++ v)) := by
  have hlit : literalPattern u = pattern u := by
    rw [pattern_eq, literalPattern]
    refine flatMap_congr fun x hx => ?_
    cases hq : x.2 with
    | true => rw [escapes, if_pos rfl, Bool.true_or, decide_eq_true (hu x hx hq)]
    | false => rfl
  exact .closed hp (hlit ▸ hp) (fun c => by rw [hlit]) h

/-- Two patterns have the same elements, up to how the bracket expressions are written. -/
def SameItems (flags : Flags) (p p' : List UInt8) : Prop :=
  ∃ ps ps', items flags p = some ps ∧ items flags p' = some ps' ∧
    ∀ str, ps.map (Item.denote flags str) = ps'.map (Item.denote flags str)

theorem SameItems.cons {p' r r' : List UInt8} {a b : Item} (h : SameItems flags p p')
    (hr : items flags r = (items flags p).map (a :: ·))
    (hr' : items flags r' = (items flags p').map (b :: ·))
    (hab : ∀ str, a.denote flags str = b.denote flags str) : SameItems flags r r' := by
  obtain ⟨ps, ps', h1, h2, h3⟩ := h
  refine ⟨a :: ps, b :: ps', by rw [hr, h1]; rfl, by rw [hr', h2]; rfl, fun str => ?_⟩
  rw [map_cons, map_cons, hab, h3]

/-- What a single bracket expression matches, where slashes and periods are not special. -/
theorem Encloses.fnmatch (h : Encloses flags p es)
    (hpath : flags.pathname = false) (hperiod : flags.period = false) (c : UInt8) :
    fnmatch flags ('['.toUInt8 :: p) [c] = some 0 ↔ ¬ es.any (·.has flags c) = negated p := by
  have hitems := h.items []
  rw [append_nil, show Fnmatch.items flags [] = some [] by rw [items.eq_def]] at hitems
  rw [(fnmatch_decides hitems).1]
  refine Lib.Wildcard.matches_one.trans ?_
  simp [Lib.Wildcard.matches_nil, Item.Accepts, slash, leadingDot, rules, hpath, hperiod]

end Citadel.Wordexp
