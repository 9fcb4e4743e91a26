import Citadel.Lib.Graph
import Mathlib.Logic.Function.Basic
import Mathlib.Algebra.Ring.Nat
import Mathlib.Data.Int.Notation

/-!
# The dynamic linker: the objects

An object (`struct dso`) is named by a number, as the source names it by its address; `dso` holds
what is stored there. A number that was freed may be used again.

The files and what the kernel and the allocator answer are part of the input of a call (`World`).
An ELF file is given by what the linker reads from it: the names it needs, the symbols it defines,
its relocations and its thread-local storage.
-/

namespace Citadel.Ldso

open Citadel.Lib.Graph Function

abbrev Name := List UInt8

/-- The address of an object. -/
abbrev Id := ℕ

/-- The program. -/
def app : Id := 0

/-- libc.so, which is its own dynamic linker. -/
def self : Id := 1

/-! ## ELF files -/

inductive Bind where
  | stbLocal
  | stbGlobal
  | stbWeak
deriving DecidableEq, Repr

/-- A symbol that a relocation refers to. -/
structure Symbol where
  name : Name
  bind : Bind
  ifunc : Bool := false
deriving DecidableEq, Repr

inductive RelocType where
  | none
  | relative
  | abs64
  | globDat
  | jumpSlot
  | copy
  | tpoff64
  | dtpmod64
  | dtpoff64
  | tlsdesc
  | irelative
  | unsupported
deriving DecidableEq, Repr

structure Reloc where
  type : RelocType
  sym : Option Symbol
deriving DecidableEq, Repr

/-- A definition that other objects can be bound to. -/
structure Def where
  name : Name
  ifunc : Bool := false
  value : ℕ := 0
deriving DecidableEq, Repr

/-- A segment of thread-local storage. -/
structure TlsSegment where
  memsz : UInt64
  align : UInt64
deriving DecidableEq, Repr

structure Elf where
  soname : Option Name := none
  needed : List Name := []
  nodelete : Bool := false
  pie : Bool := false
  defs : List Def := []
  rela : List Reloc := []
  jmprel : List Reloc := []
  tls : List TlsSegment := []
deriving DecidableEq, Repr

/-! ## Objects -/

structure Dso where
  path : Name := []
  /-- the name it was asked for by -/
  shortname : Option Name := none
  dev : ℕ := 0
  ino : ℕ := 0
  elf : Elf := {}
  /-- its address space is reserved -/
  map : Bool := false
  /-- its `DT_NEEDED`, loaded; `none` until they are -/
  deps : Option (List Id) := none
  /-- the dependency closure of a handle -/
  scope : Option (List Id) := none
  /-- the closure that is searched while it is relocated -/
  lscope : List Id := []
  refcnt : ℤ := 0
  opens : ℤ := 0
  mark : ℕ := 0
  tlsId : ℕ := 0
  tlsOffset : UInt64 := 0
  isGlobal : Bool := false
  permanent : Bool := false
  nodelete : Bool := false
  visited : Bool := false
  relocated : Bool := false
  inited : Bool := false
  doomed : Bool := false
  /-- the objects that its relocated words point into -/
  bound : List Id := []
deriving DecidableEq, Repr

structure TlsMod where
  memsz : UInt64
  align : UInt64
  offset : UInt64
deriving DecidableEq, Repr

/-- The thread-local storage of `__libc`: the modules, and the space they take in every thread. -/
structure Tls where
  mods : List TlsMod := []
  offset : UInt64 := 0
  align : UInt64 := 64
  reserve : UInt64 := 0
deriving DecidableEq, Repr

/-- A handler of `atexit` or `__cxa_atexit`: the objects that hold its function and the object
handle it was registered with. -/
structure ExitFn where
  fn : Option Id
  dso : Option Id
  live : Bool := true
deriving DecidableEq, Repr

/-- What happened: a closure was marked, constructors, destructors or a handler of an object were
started, an object (as it was then) was unmapped, a handle was opened or closed. -/
inductive Event where
  | mark
  | init (d : Id)
  | fini (d : Id)
  | handler (d : Id)
  | unmap (d : Id) (o : Dso)
  | opened (h : Id)
  | closed (h : Id)
deriving DecidableEq, Repr

structure State where
  /-- every object, in load order -/
  list : List Id := []
  dso : Id → Dso := fun _ => {}
  /-- the objects whose destructors are to be run, from `fini_head` on -/
  fini : List Id := []
  markGen : ℕ := 0
  tls : Tls := {}
  started : Bool := false
  exitFns : List ExitFn := []
  /-- what happened so far, the newest first -/
  log : List Event := []

namespace State

def modify (d : Id) (f : Dso → Dso) (s : State) : State :=
  { s with dso := update s.dso d (f (s.dso d)) }

def modifyAll (ds : List Id) (f : Dso → Dso) (s : State) : State :=
  { s with dso := fun d => if d ∈ ds then f (s.dso d) else s.dso d }

/-- Its dependencies: `d->deps[0]` to `d->deps[d->ndeps - 1]`. -/
def depsOf (s : State) (d : Id) : List Id := (s.dso d).deps.getD []

/-- Its closure, if it is a handle. -/
def scopeOf (s : State) (d : Id) : List Id := (s.dso d).scope.getD []

def record (e : Event) (s : State) : State := { s with log := e :: s.log }

end State

/-! ## What the calls are given -/

/-- A file that a search found. -/
structure File where
  path : Name
  dev : ℕ
  ino : ℕ
  regular : Bool := true
  /-- what `map_library` and `decode` find in it, or their message and whether the address space was
  reserved by then -/
  image : Except (Name × Bool) Elf

/-- The places where memory is allocated. -/
inductive Site where
  | object (name : Name)
  | deps (d : Id)
  | scope
  | order
deriving DecidableEq, Repr

/-- The answers of the file system, the allocator and the kernel. -/
structure World where
  /-- the file that a search for a library finds, on behalf of an object with this path -/
  find : Name → Name → Elf → Option File
  noMem : Site → Bool := fun _ => false
  /-- so many objects have their dependencies loaded before memory runs out -/
  room : ℕ
  /-- `mprotect` fails for the object of this path -/
  noProtect : Name → Bool := fun _ => false
  /-- the names in `LD_PRELOAD` -/
  preload : List Name := []

/-- Why a call failed. -/
inductive Error where
  | noMem
  | tooLong (name : Name)
  | notFound (name : Name) (direct : Bool)
  | notRegular (path : Name)
  | image (message : Name)
  | isProgram (path : Name)
  | tlsAlign (path : Name)
  | tlsCount
  | tlsSpace (path : Name)
  | noSymbol (name : Name)
  | ifunc (name : Name)
  | noCopy (name : Name)
  | irelative (path : Name)
  | unsupported (path : Name)
  | noProtect (path : Name)
  | notLoaded (name : Name)
deriving DecidableEq, Repr

/-- A function of the linker that may call `fail`, which keeps what was done so far. -/
abbrev Loader := EStateM Error State

/-! ## The object list -/

/-- An address that `dl_alloc` may hand out. -/
def fresh (l : List Id) : Id := l.foldl max self + 1

def append (d : Id) (o : Dso) (s : State) : State :=
  { s with list := s.list ++ [d], dso := update s.dso d o }

def listSelf (s : State) : State :=
  if self ∈ s.list then s else { s with list := s.list ++ [self] }

def slash : UInt8 := 47

def libcName : Name := [108, 105, 98, 99, 46, 115, 111]

/-- What follows the last slash. -/
def baseName (n : Name) : Name := (n.reverse.takeWhile (· ≠ slash)).reverse

def findLoaded (s : State) (name : Name) : Option Id :=
  if baseName name = libcName then some self
  else s.list.find? fun d =>
    (s.dso d).shortname = some name || (d ≠ app && (s.dso d).elf.soname = some name)

/-! ## Symbol lookup -/

def lookupIn (o : Dso) (n : Name) : Option Def := o.elf.defs.find? (·.name = n)

def lookupScope (s : State) (n : Name) (skip : Option Id) : List Id → Option (Id × Def)
  | [] => none
  | d :: ds =>
    if skip = some d then lookupScope s n skip ds
    else match lookupIn (s.dso d) n with
      | some x => some (d, x)
      | none => lookupScope s n skip ds

/-- The global scope, then `lscope`. -/
def lookup (s : State) (n : Name) (lscope : List Id) (skip : Option Id) : Option (Id × Def) :=
  (lookupScope s n skip (s.list.filter fun d => (s.dso d).isGlobal)).or
    (lookupScope s n skip lscope)

end Citadel.Ldso
