import Citadel.Regex.Syntax

/-!
# Programs: the code generation of `regex.c`

A tree is turned into a list of instructions. Jumps forward are emitted first and get their target
when the code behind it is there. The splits of optional copies are chained through their `y` until
the end is known; -1 ends the chain.
-/

namespace Citadel.Regex

def maxInst : ℕ := 50000

/-- The operations `I_CHAR` and so on. -/
inductive Op where
  | char
  | any
  | set
  | assert (kind : Assertion)
  | split
  | jmp
  | save
  | matched
  | bref
  | enter
  | check
deriving DecidableEq, Repr

structure Inst where
  op : Op
  x : ℕ := 0
  y : ℤ := 0
  z : ℕ := 0
deriving DecidableEq, Repr

structure Prog where
  code : List Inst := []
  sets : List CharSet := []
  nsub : ℕ := 0
  nloops : ℕ := 0
  flags : Flags := {}
  backrefs : Bool := false
deriving DecidableEq, Repr

/-! ## Sizes -/

/-- A size that is too large is cut off. -/
def capSize (s : ℤ) : ℤ := if s > maxInst then maxInst + 1 else s

def sizeOf : Node → ℤ
  | .empty => 0
  | .cat a b => capSize (sizeOf a + sizeOf b)
  | .alt a b => capSize (sizeOf a + sizeOf b + 2)
  | .group a _ => capSize (sizeOf a + 2)
  | .rep a mn none => capSize (if mn ≠ 0 then mn * sizeOf a + 2 else sizeOf a + 3)
  | .rep a mn (some mx) => capSize (mn * sizeOf a + ((mx : ℤ) - mn) * (sizeOf a + 1))
  | _ => 1

/-! ## Code -/

/-- The part of a program that `gen` writes. -/
structure Gen where
  code : List Inst := []
  nloops : ℕ := 0
deriving DecidableEq, Repr

namespace Gen

/-- The place of the next instruction. -/
def n (p : Gen) : ℕ := p.code.length

def emit (p : Gen) (i : Inst) : Gen := { p with code := p.code ++ [i] }

/-- `p->code[i].x = t`. -/
def setX (p : Gen) (i t : ℕ) : Gen :=
  { p with code := p.code.modify i fun c => { c with x := t } }

/-- `p->code[i].y = t`. -/
def setY (p : Gen) (i t : ℕ) : Gen :=
  { p with code := p.code.modify i fun c => { c with y := t } }

end Gen

/-- `for (i = 0; i < k; i++) f`. -/
def times (f : Gen → Gen) : ℕ → Gen → Gen
  | 0, p => p
  | k + 1, p => times f k (f p)

/-- The optional copies, and the last split of the chain. -/
def optional (f : Gen → Gen) : ℕ → Gen → ℤ → Gen × ℤ
  | 0, p, chain => (p, chain)
  | k + 1, p, chain =>
    let sp := p.n
    let p := p.emit { op := .split, y := chain }
    let p := p.setX sp p.n
    optional f k (f p) sp

/-- The splits of a chain lead behind the last copy; there are no more than `k` of them. -/
def unchain : ℕ → Gen → ℤ → Gen × ℤ
  | 0, p, chain => (p, chain)
  | k + 1, p, chain =>
    if chain < 0 then (p, chain)
    else unchain k (p.setY chain.toNat p.n) (p.code.getD chain.toNat { op := .matched }).y

/-- The loop of an unbounded repetition; with no iteration required it begins with a split. -/
def genLoop (f : Gen → Gen) (skip : Bool) (p : Gen) : Gen :=
  let id := p.nloops
  let p := { p with nloops := p.nloops + 1 }
  let p := p.emit { op := .enter, x := id }
  let top := p.n
  let p := if skip then p.emit { op := .split } else p
  let body := p.n
  let p := if skip then p.setX top body else p
  let p := f p
  let chk := p.n
  let p := p.emit { op := .check, x := body, z := id }
  let p := p.setY chk p.n
  if skip then p.setY top p.n else p

def gen : Node → Gen → Gen
  | .empty, p => p
  | .char c, p => p.emit { op := .char, x := c }
  | .any, p => p.emit { op := .any }
  | .set idx, p => p.emit { op := .set, x := idx }
  | .assert kind, p => p.emit { op := .assert kind }
  | .bref n, p => p.emit { op := .bref, x := n }
  | .cat a b, p => gen b (gen a p)
  | .alt a b, p =>
    let sp := p.n
    let p := p.emit { op := .split }
    let p := p.setX sp p.n
    let p := gen a p
    let j := p.n
    let p := p.emit { op := .jmp }
    let p := p.setY sp p.n
    let p := gen b p
    p.setX j p.n
  | .group a n, p =>
    (gen a (p.emit { op := .save, x := 2 * n })).emit { op := .save, x := 2 * n + 1 }
  | .rep a mn none, p => genLoop (gen a) (mn == 0) (times (gen a) (mn - 1) p)
  | .rep a mn (some mx), p =>
    let (p, chain) := optional (gen a) (mx - mn) (times (gen a) mn p) (-1)
    (unchain (mx - mn) p chain).1

def genProg (root : Node) : Gen :=
  let p := ({} : Gen).emit { op := .save, x := 0 }
  let p := gen root p
  let p := p.emit { op := .save, x := 1 }
  p.emit { op := .matched }

/-- The tree of a pattern, and the parser at its end. -/
def parse (W : Wide) (pat : List UInt8) (flags : Flags) : Parsed := do
  let ps : Parser := { s := pat, ere := flags.extended, icase := flags.icase }
  let (root, ps) ← parseAlt W (pat.length + 1) ps
  if ps.pos < ps.s.length then .error .eparen else .ok (root, ps)

def regcomp (W : Wide) (pat : List UInt8) (flags : Flags) : Except Err Prog := do
  let (root, ps) ← parse W pat flags
  if sizeOf root + 3 > maxInst then .error .espace
  else
    let g := genProg root
    .ok { code := g.code, sets := ps.sets, nsub := ps.nsub, nloops := g.nloops, flags := flags
          backrefs := ps.backrefs }

end Citadel.Regex
