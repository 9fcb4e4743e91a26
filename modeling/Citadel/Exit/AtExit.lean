import Citadel.Thread.Keys

/-!
# Exit handlers: `atexit`, `__cxa_atexit`, `__cxa_finalize` and `exit` of `runtime.c`

Handlers are kept in a chain of blocks of 62. The chain is a list of blocks with `exit_cur` first,
and a block lists its handlers with the last one first; `exit_cur = NULL` is the empty chain. A
place is then given by what is below it: `b` blocks, and `i` handlers of its own block.

A handler runs with the lock released and may call any of these functions, so a `State` has a stack
of the loops that wait for a handler to return. A program is a list of actions for `step`; what
follows the loop of `exit` is not part of it.
-/

namespace Citadel.Exit

open Citadel.Thread (ptrMangle ptrDemangle ptrDemangle_ptrMangle)

/-! ## The chain -/

/-- `struct exit_fn`. The number of the registration is not in the source; no branch reads it. -/
structure ExitFn where
  fn : BitVec 64
  arg : BitVec 64
  dso : BitVec 64
  cxa : ℤ
  id : ℕ
deriving DecidableEq, Repr

/-- The blocks from `exit_cur` down to `exit_head`. -/
abbrev Chain := List (List ExitFn)

/-- The handler is not marked as run. -/
def ExitFn.live (f : ExitFn) : Bool := 0 ≤ f.cxa

/-- `add_exit`, where `mem` says whether a new block can be mapped. -/
def addExit (f : ExitFn) (mem : Bool) : Chain → Option Chain
  | [] => some [[f]]
  | b :: bs =>
    if b.length = 62 then if mem then some ([f] :: b :: bs) else none
    else some ((f :: b) :: bs)

/-- The test of `__exit_fns_in_range`, with the unsigned differences of the source. -/
def hits (guard lo hi : BitVec 64) (f : ExitFn) : Bool :=
  !(ptrDemangle guard f.fn - lo ≥ hi - lo && f.dso - lo ≥ hi - lo)

/-- The inner loop of `__exit_fns_in_range` over what is left of a block. -/
def scanBlock (guard lo hi : BitVec 64) : List ExitFn → Option (ExitFn × ℕ)
  | [] => none
  | f :: fs =>
    if f.cxa < 0 then scanBlock guard lo hi fs
    else if hits guard lo hi f then some (f, fs.length)
    else scanBlock guard lo hi fs

/-- The loops of `__exit_fns_in_range` over what is left of the chain: the next handler to call, and
its place. -/
def scan (guard lo hi : BitVec 64) : Chain → Option (ExitFn × ℕ × ℕ)
  | [] => none
  | b :: bs =>
    match scanBlock guard lo hi b with
    | some (f, i) => some (f, bs.length, i)
    | none => scan guard lo hi bs

/-- `f->cxa = -1`, at a place of a block. -/
def markBlock (i : ℕ) : List ExitFn → List ExitFn
  | [] => []
  | f :: fs => if fs.length = i then { f with cxa := -1 } :: fs else f :: markBlock i fs

/-- `f->cxa = -1`, at a place of the chain. -/
def mark (b i : ℕ) : Chain → Chain
  | [] => []
  | blk :: bs => if bs.length = b then markBlock i blk :: bs else blk :: mark b i bs

/-- What the loops have still to look at when they are at a place. -/
def below (b i : ℕ) : Chain → Chain
  | [] => []
  | blk :: bs => if bs.length = b then blk.drop (blk.length - i) :: bs else below b i bs

/-- The inner loop of `run_exit_fns`: the next handler to call, and what is left of the block. -/
def popBlock : List ExitFn → Option (ExitFn × List ExitFn)
  | [] => none
  | f :: fs => if f.cxa < 0 then popBlock fs else some (f, fs)

/-- The loops of `run_exit_fns` up to the next call. -/
def popExit : Chain → Option (ExitFn × Chain)
  | [] => none
  | b :: bs =>
    match popBlock b with
    | some (f, fs) => some (f, fs :: bs)
    | none => popExit bs

/-! ## Programs -/

/-- A loop that has called a handler. A range call knows where it is; `since` is how many handlers
had been registered when it began, which the source does not keep. -/
inductive Frame where
  | range (lo hi : BitVec 64) (since b i : ℕ)
  | exit
deriving DecidableEq, Repr

structure State where
  exitCur : Chain := []
  count : ℕ := 0
  stack : List Frame := []
  exiting : Bool := false
  finished : Bool := false
deriving DecidableEq, Repr

inductive Caller where
  | range
  | exit
deriving DecidableEq, Repr

inductive Event where
  | registered (f : ExitFn)
  | refused
  | called (f : ExitFn) (caller : Caller)
  | returned (lo hi : BitVec 64) (since : ℕ)
  | finished
  | nothing
deriving DecidableEq, Repr

/-- What a program does: it calls one of the functions, or the running handler returns. -/
inductive Action where
  | atexit (fn : BitVec 64) (mem : Bool)
  | cxaAtexit (fn arg dso : BitVec 64) (mem : Bool)
  | exitFnsInRange (lo hi : BitVec 64)
  | cxaFinalize (dso : BitVec 64)
  | exit
  | ret
deriving DecidableEq, Repr

section Program

variable (guard : BitVec 64)

/-- A handler is registered, if there is room. -/
def register (s : State) (fn arg dso : BitVec 64) (cxa : ℤ) (mem : Bool) : State × Event :=
  let f : ExitFn := ⟨ptrMangle guard fn, arg, dso, cxa, s.count⟩
  match addExit f mem s.exitCur with
  | some c => ({ s with exitCur := c, count := s.count + 1 }, .registered f)
  | none => (s, .refused)

/-- `__exit_fns_in_range` goes on with `todo`: it marks and calls a handler, or returns to `k`. -/
def goOn (s : State) (lo hi : BitVec 64) (since : ℕ) (todo : Chain) (k : List Frame) :
    State × Event :=
  match scan guard lo hi todo with
  | some (f, b, i) =>
    ({ s with exitCur := mark b i s.exitCur, stack := .range lo hi since b i :: k },
      .called f .range)
  | none => ({ s with stack := k }, .returned lo hi since)

/-- `run_exit_fns` goes on. -/
def runExitFns (s : State) (k : List Frame) : State × Event :=
  match popExit s.exitCur with
  | some (f, c) => ({ s with exitCur := c, stack := .exit :: k }, .called f .exit)
  | none => ({ s with exitCur := [], stack := k, finished := true }, .finished)

def exitFnsInRange (s : State) (lo hi : BitVec 64) : State × Event :=
  goOn guard s lo hi s.count s.exitCur s.stack

/-- An action. A second call of `exit` waits forever. -/
def step (s : State) (a : Action) : Option (State × Event) :=
  if s.finished then none
  else
    match a with
    | .atexit fn mem => some (register guard s fn 0 0 0 mem)
    | .cxaAtexit fn arg dso mem => some (register guard s fn arg dso 1 mem)
    | .exitFnsInRange lo hi => some (exitFnsInRange guard s lo hi)
    | .cxaFinalize dso =>
      if dso = 0 then some (s, .nothing) else some (exitFnsInRange guard s dso (dso + 1))
    | .exit => if s.exiting then none else some (runExitFns { s with exiting := true } s.stack)
    | .ret =>
      match s.stack with
      | [] => none
      | .range lo hi since b i :: k => some (goOn guard s lo hi since (below b i s.exitCur) k)
      | .exit :: k => some (runExitFns s k)

end Program

end Citadel.Exit
