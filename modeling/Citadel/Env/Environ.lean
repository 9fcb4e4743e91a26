import Citadel.Lib.Transition
import Mathlib.Data.Int.Notation

/-!
# The environment: the model of `env.c`

A string is a piece of memory of the program or one that `setenv` allocated; `mem` holds what each
of them contains before its terminating zero. The allocator is part of the input of a call: it may
hand out the address of a string that was released.

The arrays are kept as lists: `environ` is the array `__environ` points to, without the null pointer
at its end, and `ours` says whether it is `env_alloc`.
-/

namespace Citadel.Env

open Function

/-- A string: one of the program's or one that `setenv` allocated. -/
inductive Str where
  | user (k : ℕ)
  | heap (a : ℕ)
deriving DecidableEq, Repr

/-- What happens to allocated strings. -/
inductive Event where
  | malloc (x : Str)
  | free (x : Str)
deriving DecidableEq, Repr

/-- The variables of `env.c`, the contents of the strings and the strings that are allocated. -/
structure State where
  mem : Str → List UInt8
  environ : Option (List Str)
  ours : Bool
  envCap : ℕ
  owned : List Str
  ownedCap : ℕ
  heap : List Str

namespace State

/-- The entries of the array; a null pointer stands for none. -/
def entries (s : State) : List Str := s.environ.getD []

end State

/-! ## Names -/

def eqSign : UInt8 := 61

def nameLen (s : List UInt8) : ℕ := (s.takeWhile (· ≠ eqSign)).length

/-- Not the name of a variable: empty or with a `=`. -/
def badName (name : List UInt8) : Bool := nameLen name = 0 || nameLen name < name.length

/-- `!strncmp(s, e, l) && e[l] == '='`. -/
def hasName (s : List UInt8) (l : ℕ) (e : List UInt8) : Bool :=
  e.take l = s.take l && e[l]? = some eqSign

def getenv (s : State) (name : List UInt8) : Option (List UInt8) :=
  if badName name then none
  else (s.entries.find? fun e => hasName name (nameLen name) (s.mem e)).map fun e =>
    (s.mem e).drop (nameLen name + 1)

/-! ## Strings that are owned -/

/-- `owned[i] = owned[--owned_n]`. -/
def swapRemove (l : List Str) (i : ℕ) : List Str := (l.set i (l.getLastD (.user 0))).dropLast

/-- `release`: a string that is not owned stays. -/
def release (s : State) (x : Str) : State × List Event :=
  if x ∈ s.owned then
    ({ s with owned := swapRemove s.owned (s.owned.idxOf x), heap := s.heap.erase x }, [.free x])
  else (s, [])

/-- `release` of several strings, one after the other; the events with the newest first. -/
def releaseAll : State → List Str → State × List Event
  | s, [] => (s, [])
  | s, x :: xs =>
    let r := release s x
    let rs := releaseAll r.1 xs
    (rs.1, rs.2 ++ r.2)

/-! ## The array -/

/-- `env_put` of the string `x`, whose name has length `l`: the state and the string replaced, or
none if the array could not grow. -/
def envPut (s : State) (x : Str) (l : ℕ) (overwrite grows : Bool) : Option (State × Option Str) :=
  let es := s.entries
  match es.findIdx? fun e => hasName (s.mem x) l (s.mem e) with
  | some i =>
    some (if overwrite then ({ s with environ := some (es.set i x) }, es[i]?) else (s, none))
  | none =>
    let n := es.length
    if s.ours = false ∨ n + 2 > s.envCap then
      if grows then
        some ({ s with environ := some (es ++ [x]), ours := true
                       envCap := if n + 2 > 16 then (n + 2) * 2 else 16 }, none)
      else none
    else some ({ s with environ := some (es ++ [x]) }, none)

/-! ## Calls -/

/-- What the allocator does in a call: the address of a new string, if there is memory for it, and
whether the two arrays can grow. -/
structure Alloc where
  str : Option ℕ := none
  owned : Bool := true
  environ : Bool := true
deriving DecidableEq, Repr

/-- The calls, and what the program does to its own strings. -/
inductive Call where
  | setenv (name value : List UInt8) (overwrite : Bool) (m : Alloc)
  | unsetenv (name : List UInt8)
  | putenv (x : Str) (m : Alloc)
  | clearenv
  | write (k : ℕ) (text : List UInt8)
deriving DecidableEq, Repr

/-- What a call did: the value returned, the contents of the string given to `putenv`, and what
became of the strings allocated, the newest first. -/
structure Done where
  call : Call
  ret : ℤ := 0
  text : List UInt8 := []
  events : List Event := []
deriving DecidableEq, Repr

def growOwned (s : State) : State :=
  if s.owned.length = s.ownedCap then
    { s with ownedCap := if s.ownedCap ≠ 0 then s.ownedCap * 2 else 16 }
  else s

/-- `setenv` once the string is allocated. -/
def setenvPut (s : State) (x : Str) (l : ℕ) (m : Alloc) : State × ℤ × List Event :=
  if s.owned.length = s.ownedCap ∧ m.owned = false then
    ({ s with heap := s.heap.erase x }, -1, [.free x])
  else
    let s := growOwned s
    match envPut s x l true m.environ with
    | none => ({ s with heap := s.heap.erase x }, -1, [.free x])
    | some (s, old) =>
      let r := releaseAll { s with owned := s.owned ++ [x] } old.toList
      (r.1, 0, r.2)

def setenv (s : State) (name value : List UInt8) (overwrite : Bool) (m : Alloc) :
    State × ℤ × List Event :=
  if badName name then (s, -1, [])
  else if overwrite = false ∧ (getenv s name).isSome then (s, 0, [])
  else
    match m.str with
    | none => (s, -1, [])
    | some a =>
      let x := Str.heap a
      let r := setenvPut { s with mem := update s.mem x (name ++ eqSign :: value)
                                  heap := x :: s.heap } x (nameLen name) m
      (r.1, r.2.1, r.2.2 ++ [.malloc x])

def unsetenv (s : State) (name : List UInt8) : State × ℤ × List Event :=
  if badName name then (s, -1, [])
  else
    match s.environ with
    | none => (s, 0, [])
    | some es =>
      let named := fun e => hasName name (nameLen name) (s.mem e)
      let r := releaseAll s (es.filter named)
      ({ r.1 with environ := some (es.filter (!named ·)) }, 0, r.2)

def putenv (s : State) (x : Str) (m : Alloc) : State × ℤ × List Event :=
  let text := s.mem x
  let l := nameLen text
  if l = text.length then unsetenv s text
  else if l = 0 then (s, -1, [])
  else
    match envPut s x l true m.environ with
    | none => (s, -1, [])
    | some (s, old) =>
      let r := releaseAll s old.toList
      (r.1, 0, r.2)

def clearenv (s : State) : State × ℤ × List Event :=
  let r := releaseAll s s.entries
  ({ r.1 with environ := none, ours := true, envCap := 0 }, 0, r.2)

/-- A string in the hands of the program: one of its own or one that is allocated. -/
def State.valid (s : State) : Str → Bool
  | .user _ => true
  | .heap a => .heap a ∈ s.heap

/-- The program writes to its string `k`; in an entry it leaves the name and the `=` as they are. -/
def State.writable (s : State) (k : ℕ) (text : List UInt8) : Bool :=
  let old := s.mem (.user k)
  .user k ∉ s.entries || text.take (nameLen old + 1) = old.take (nameLen old + 1)

/-- A call from a state; not possible when the allocator hands out a string that is in use or
`putenv` is given a string that is none. -/
def step (s : State) (c : Call) : Option (State × Done) :=
  match c with
  | .setenv name value overwrite m =>
    if m.str.any (fun a => .heap a ∈ s.heap) then none
    else
      let r := setenv s name value overwrite m
      some (r.1, { call := c, ret := r.2.1, events := r.2.2 })
  | .unsetenv name =>
    let r := unsetenv s name
    some (r.1, { call := c, ret := r.2.1, events := r.2.2 })
  | .putenv x m =>
    if s.valid x then
      let r := putenv s x m
      some (r.1, { call := c, ret := r.2.1, text := s.mem x, events := r.2.2 })
    else none
  | .clearenv =>
    let r := clearenv s
    some (r.1, { call := c, ret := r.2.1, events := r.2.2 })
  | .write k text =>
    if s.writable k text then
      some ({ s with mem := update s.mem (.user k) text }, { call := c })
    else none

end Citadel.Env
