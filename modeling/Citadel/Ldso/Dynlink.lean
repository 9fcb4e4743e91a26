import Citadel.Ldso.Objects

/-!
# The dynamic linker: `dlopen` and `dlclose`

The functions of the source under their names. What can fail is a `Loader`; `fail` leaves it with
what was done so far, and `dlopen` then undoes it by `rollback`.

A call is cut where it runs code of an object: `openPart` is `dlopen` up to the constructors, and
`doom`, `nextFini`, `handlers` and `unmapDoomed` are the parts of `dlclose`. `dlopen` and
`dlclose` put them together for code that does not itself call the linker.
-/

namespace Citadel.Ldso

open Citadel.Lib.Graph Function

/-! ## Loading -/

/-- The same file under another name is the same library. -/
def sameFile (s : State) (f : File) (d : Id) : Bool :=
  d ≠ app && d ≠ self && (s.dso d).dev = f.dev && (s.dso d).ino = f.ino

def newDso (s : State) (f : File) (name : Name) : Dso :=
  { path := f.path, shortname := some name, dev := f.dev, ino := f.ino
    isGlobal := !s.started, permanent := !s.started }

/-- `map_library` and `decode` of the new object `d`. -/
def mapLibrary (f : File) (d : Id) : Loader Unit := do
  match f.image with
  | .error (m, reserved) =>
    modify (State.modify d fun o => { o with map := reserved })
    throw (.image m)
  | .ok elf =>
    modify (State.modify d fun o => { o with elf := elf, nodelete := elf.nodelete, map := true })
    if (← get).started ∧ elf.pie then throw (.isProgram f.path) else pure ()

/-- Load a library that was not found among the loaded ones by its name. -/
def loadFile (w : World) (name : Name) (f : File) : Loader Id := do
  let s ← get
  if !f.regular then throw (.notRegular f.path)
  else match s.list.find? (sameFile s f) with
    | some d => pure d
    | none =>
      if w.noMem (.object name) then throw .noMem
      else do
        modify (append (fresh s.list) (newDso s f name))
        mapLibrary f (fresh s.list)
        pure (fresh s.list)

def loadLibrary (w : World) (name : Name) (needer : Id) (direct : Bool) : Loader Id := do
  let s ← get
  match findLoaded s name with
  | some d => do
    modify fun s => if d = self then listSelf s else s
    pure d
  | none =>
    if slash ∈ name ∧ 4096 ≤ name.length then throw (.tooLong name)
    else match w.find name (s.dso needer).path (s.dso needer).elf with
      | none => throw (.notFound name direct)
      | some f => loadFile w name f

/-- Load libraries as dependencies of `d`. -/
def loadNeeded (w : World) (d : Id) (direct : Bool) : List Name → Loader Unit
  | [] => pure ()
  | n :: ns => do
    let e ← loadLibrary w n d direct
    modify (State.modify d fun o => { o with deps := o.deps.map (· ++ [e]) })
    loadNeeded w d direct ns

def loadDepsOf (w : World) (d : Id) : Loader Unit := do
  let s ← get
  if (s.dso d).deps.isSome then pure ()
  else if w.noMem (.deps d) then throw .noMem
  else do
    modify (State.modify d fun o => { o with deps := some [] })
    loadNeeded w d true (if d = app then w.preload else [])
    loadNeeded w d (d = app) (s.dso d).elf.needed

/-- The dependencies of every object from place `i` of the list on, breadth first. -/
def loadDeps (w : World) : ℕ → ℕ → Loader Unit
  | 0, _ => throw .noMem
  | n + 1, i => do
    match (← get).list[i]? with
    | none => pure ()
    | some d => do
      loadDepsOf w d
      loadDeps w n (i + 1)

/-- `++mark_gen` -/
def nextGen (s : State) : State :=
  { s with markGen := (s.markGen + 1) % 2 ^ 32, log := .mark :: s.log }

/-- The walk along dependencies that marks objects with a generation. -/
def markWalk (gen : ℕ) : Walk State Id where
  seen s d := (s.dso d).mark == gen
  succ s d := s.depsOf d
  enter d s := s.modify d fun o => { o with mark := gen }

/-- A handle's dependency closure, breadth first. -/
def scan (h : Id) (s : State) : State :=
  let c := bfs (markWalk s.markGen) s.list.length 0
    (s.modify h fun o => { o with mark := s.markGen }, [h])
  c.1.modify h fun o => { o with scope := some c.2 }

def makeScope (w : World) (h : Id) : Loader Unit := do
  if ((← get).dso h).scope.isSome then pure ()
  else if w.noMem .scope then throw .noMem
  else modify fun s => scan h (nextGen s)

/-! ## Thread-local storage -/

def tlsModsMax : ℕ := 64

def roundUp (x a : UInt64) : UInt64 := (x + a - 1) &&& ~~~(a - 1)

def tlsMod (p : TlsSegment) : TlsMod :=
  { memsz := p.memsz, align := if p.align = 0 then 1 else p.align, offset := 0 }

def tlsAdd (p : TlsSegment) (t : Tls) : Tls := { t with mods := t.mods ++ [tlsMod p] }

/-- The offsets of the modules one after the other, from `off` on. -/
def tlsOffsets : UInt64 → List TlsMod → List TlsMod
  | _, [] => []
  | off, m :: ms =>
    { m with offset := roundUp (off + m.memsz) m.align } ::
      tlsOffsets (roundUp (off + m.memsz) m.align) ms

def tlsLayout (t : Tls) : Tls :=
  { t with
    mods := tlsOffsets 0 t.mods
    offset := t.mods.foldl (fun off m => roundUp (off + m.memsz) m.align) 0
    align := t.mods.foldl (fun a m => if m.align > a then m.align else a) 64 }

/-- A block for one segment of `d`. -/
def assignSegment (d : Id) (p : TlsSegment) : Loader Unit := do
  let s ← get
  if p.memsz = 0 then pure ()
  else if p.align > s.tls.align then throw (.tlsAlign (s.dso d).path)
  else if tlsModsMax ≤ s.tls.mods.length then throw .tlsCount
  else modify fun s =>
    { s.modify d fun o => { o with tlsId := s.tls.mods.length + 1 } with tls := tlsAdd p s.tls }

def assignTlsOf (d : Id) : Loader Unit := do
  let s ← get
  if (s.dso d).tlsId ≠ 0 ∨ d = app ∨ d = self then pure ()
  else (s.dso d).elf.tls.forM (assignSegment d)

def setOffset (t : Tls) (o : Dso) : Dso :=
  if o.tlsId = 0 then o
  else { o with tlsOffset := ((t.mods[o.tlsId - 1]?).map (·.offset)).getD 0 }

/-- A block for each object from place `i` of the list on that has thread-local storage. -/
def assignTls (i : ℕ) (limit : UInt64) : Loader Unit := do
  ((← get).list.drop i).forM assignTlsOf
  modify fun s => { s with tls := tlsLayout s.tls }
  let s ← get
  if s.tls.offset > limit then
    throw (.tlsSpace ((s.list.getLast?.map fun d => (s.dso d).path).getD []))
  else modify fun s => s.modifyAll (s.list.drop i) (setOffset s.tls)

/-! ## Relocation -/

def markClosure (d : Id) (s : State) : State := dfs (markWalk s.markGen) s.list.length d s

/-- What a symbol is bound to, given the definition that was found. -/
def accept (y : Symbol) : Option (Id × Def) → Except Error (Option (Id × Def))
  | none => if y.bind = .stbWeak then .ok none else .error (.noSymbol y.name)
  | some (dd, x) => if x.ifunc then .error (.ifunc y.name) else .ok (some (dd, x))

/-- What the symbol of a relocation of `d` is bound to. -/
def resolve (s : State) (d : Id) (r : Reloc) : Except Error (Option (Id × Def)) :=
  match r.sym with
  | none => .ok none
  | some y =>
    if y.bind = .stbLocal then
      if y.ifunc then .error (.ifunc y.name) else .ok (some (d, { name := y.name }))
    else accept y (lookup s y.name (s.dso d).lscope (if r.type = .copy then some d else none))

/-- `d` is bound to `dd`, which must outlive it if it is not one of its dependencies. -/
def bindTo (d dd : Id) (s : State) : State :=
  let s := s.modify d fun o => { o with bound := o.bound ++ [dd] }
  if dd ≠ d ∧ (s.dso dd).permanent = false ∧ (s.dso dd).mark ≠ s.markGen then
    s.modify dd fun o => { o with nodelete := true }
  else s

/-- The types that are not supported, or not without a definition. -/
def checkType (path : Name) (r : Reloc) (found : Bool) : Loader Unit :=
  match r.type with
  | .copy => if found then pure () else throw (.noCopy ((r.sym.map (·.name)).getD []))
  | .irelative => throw (.irelative path)
  | .unsupported => throw (.unsupported path)
  | _ => pure ()

def relocateOne (d : Id) (r : Reloc) : Loader Unit := do
  if r.type = .none ∨ r.type = .relative then pure ()
  else do
    let s ← get
    match resolve s d r with
    | .error e => throw e
    | .ok none => checkType (s.dso d).path r false
    | .ok (some (dd, _)) => do
      modify (bindTo d dd)
      checkType (s.dso d).path r true

def relocate (d : Id) : Loader Unit := do
  modify fun s => markClosure d (nextGen s)
  ((← get).dso d).elf.rela.forM (relocateOne d)
  ((← get).dso d).elf.jmprel.forM (relocateOne d)
  modify (State.modify d fun o => { o with relocated := true })

def protectRelro (w : World) (d : Id) : Loader Unit := do
  let s ← get
  if w.noProtect (s.dso d).path then throw (.noProtect (s.dso d).path) else pure ()

/-! ## Constructors -/

/-- The walk that puts the objects not yet visited out, dependencies first. -/
def orderWalk : Walk (State × List Id) Id where
  seen c d := (c.1.dso d).visited
  succ c d := c.1.depsOf d
  enter d c := (c.1.modify d fun o => { o with visited := true }, c.2)
  leave d c := (c.1, c.2 ++ [d])

def orderInit (d : Id) (c : State × List Id) : State × List Id := dfs orderWalk c.1.list.length d c

/-- `run_init` up to the constructors. -/
def runInit (d : Id) (s : State) : State :=
  { s.modify d fun o => { o with inited := true } with
    fini := d :: s.fini
    log := .init d :: s.log }

/-! ## `dlopen` -/

/-- The new objects are searched in the closure of `h` while they are relocated. -/
def setLscope (i : ℕ) (h : Id) (s : State) : State :=
  s.modifyAll (s.list.drop i) fun o => { o with lscope := s.scopeOf h }

/-- Protect the relocated data of `d`, whose closure is no longer needed. -/
def finishObject (w : World) (d : Id) : Loader Unit := do
  protectRelro w d
  modify (State.modify d fun o => { o with lscope := [] })

/-- The objects from place `i` on, that were loaded for the handle `h`. -/
def openNew (w : World) (i : ℕ) (h : Id) : Loader (List Id) := do
  loadDeps w w.room i
  makeScope w h
  modify (setLscope i h)
  assignTls i (← get).tls.reserve
  if w.noMem .order then throw .noMem
  else do
    let c := orderInit h (← get, [])
    set c.1
    c.2.forM relocate
    ((← get).list.drop i).forM (finishObject w)
    pure c.2

/-- The object that `dlopen` was asked for. -/
def openFile (w : World) (file : Name) (noload : Bool) (caller : Id) : Loader Id := do
  if noload then
    match findLoaded (← get) file with
    | none => throw (.notLoaded file)
    | some h => pure h
  else loadLibrary w file caller true

/-- The objects that were loaded for the handle, if there are any. -/
def openRest (w : World) (i : ℕ) (h : Id) : Loader (List Id) := do
  if i < (← get).list.length then openNew w i h else pure []

/-- The part of `dlopen` that can fail: the handle, and the new objects in the order of their
constructors. -/
def openObjects (w : World) (file : Name) (noload : Bool) (caller : Id) :
    Loader (Id × List Id) := do
  let i := (← get).list.length
  let h ← openFile w file noload caller
  let order ← openRest w i h
  makeScope w h
  pure (h, order)

/-- The unmappings of the objects from place `i` of the list on. -/
def unmaps (i : ℕ) (s : State) : List Event :=
  (((s.list.drop i).filter fun d => (s.dso d).map).map fun d => .unmap d (s.dso d)).reverse

def rollback (i count : ℕ) (offset : UInt64) (s : State) : State :=
  { s with
    list := s.list.take i
    dso := fun d => if d ∈ s.list.drop i then {} else s.dso d
    tls := { s.tls with mods := s.tls.mods.take count, offset := offset }
    log := unmaps i s ++ s.log }

structure Mode where
  /-- `RTLD_LAZY` or `RTLD_NOW` -/
  lazyOrNow : Bool := true
  noload : Bool := false
  isGlobal : Bool := false
  nodelete : Bool := false
deriving DecidableEq, Repr

/-- A result of type `int`. -/
def toInt (x : ℤ) : ℤ := x.bmod (2 ^ 32)

/-- What `dlopen` does once nothing can fail any more. -/
def commit (h : Id) (mode : Mode) (s : State) : State :=
  let s := s.modify h fun o => { o with opens := toInt (o.opens + 1) }
  let s := s.modifyAll (s.scopeOf h) fun o =>
    { o with refcnt := toInt (o.refcnt + 1), isGlobal := o.isGlobal || mode.isGlobal }
  let s := s.modify h fun o => { o with nodelete := o.nodelete || mode.nodelete }
  s.record (.opened h)

/-- The object that the call comes from. -/
def callerOf (s : State) (caller : Option Id) : Id := (caller.filter (· ∈ s.list)).getD app

/-- `dlopen` up to the constructors: the handle and the objects to be initialised. The storage of
the threads, which `init_tls` fills before `commit`, is not part of the state. -/
def openPart (w : World) (file : Name) (mode : Mode) (caller : Option Id) (s : State) :
    Except Error (Id × List Id) × State :=
  match openObjects w file mode.noload (callerOf s caller) s with
  | .error e s' => (.error e, rollback s.list.length s.tls.mods.length s.tls.offset s')
  | .ok (h, order) s' => (.ok (h, order), commit h mode s')

/-- `dlopen`, with constructors that do not call the linker. -/
def dlopen (w : World) (file : Option Name) (mode : Mode) (caller : Option Id) (s : State) :
    Option Id × State :=
  match file with
  | none => (some app, s)
  | some file =>
    if mode.lazyOrNow then
      match openPart w file mode caller s with
      | (.error _, s') => (none, s')
      | (.ok (h, order), s') => (some h, order.foldl (fun s d => runInit d s) s')
    else (none, s)

/-! ## `dlclose` -/

/-- The walk that keeps what is needed by an object that stays. -/
def keepWalk : Walk State Id where
  seen s d := !(s.dso d).doomed
  succ s d := s.depsOf d
  enter d s := s.modify d fun o => { o with doomed := false }

def keepDeps (d : Id) (s : State) : State :=
  (s.depsOf d).foldl (fun s e => dfs keepWalk s.list.length e s) s

/-- One reference less; the last one dooms an object that may go. -/
def unref (o : Dso) : Dso :=
  { o with
    refcnt := toInt (o.refcnt - 1)
    doomed := decide (toInt (o.refcnt - 1) = 0) && !o.permanent && !o.nodelete && o.tlsId = 0 }

/-- What stays keeps its dependencies. -/
def keepAll (s : State) : State :=
  s.list.foldl (fun s d => if (s.dso d).doomed then s else keepDeps d s) s

/-- `dlclose` of the handle `h` up to the destructors. -/
def doom (h : Id) (s : State) : State :=
  let s := s.modify h fun o => { o with opens := toInt (o.opens - 1) }
  let s := s.modifyAll (s.scopeOf h) unref
  (keepAll s).record (.closed h)

/-- The next destructors to run. -/
def nextFini (s : State) : Option (Id × State) :=
  (s.fini.find? fun d => (s.dso d).doomed).map fun d =>
    (d, { s with fini := s.fini.erase d, log := .fini d :: s.log })

def inRange (d : Id) (f : ExitFn) : Bool := f.live && (f.fn = some d || f.dso = some d)

/-- The handler at place `i`, one of `d`, is started; it is never run again. -/
def callHandler (d : Id) (i : ℕ) (s : State) : State :=
  { s with exitFns := s.exitFns.modify i ({ · with live := false }), log := .handler d :: s.log }

def unmapDoomed (s : State) : State :=
  { s with
    list := s.list.filter fun d => !(s.dso d).doomed
    dso := fun d => if d ∈ s.list ∧ (s.dso d).doomed then {} else s.dso d
    log := ((s.list.filter fun d => (s.dso d).doomed).map fun d => .unmap d (s.dso d)).reverse ++
      s.log }

/-- The destructors of all doomed objects, where none of them calls the linker. -/
def finis : ℕ → State → State
  | 0, s => s
  | n + 1, s =>
    match nextFini s with
    | none => s
    | some (_, s') => finis n s'

/-- The handlers of `d` in front of place `i`. -/
def exitFnsInRange (d : Id) : ℕ → State → State
  | 0, s => s
  | i + 1, s =>
    exitFnsInRange d i (if (s.exitFns[i]?).any (inRange d) then callHandler d i s else s)

/-- The handlers of all doomed objects. -/
def handlers (s : State) : State :=
  s.list.foldl (fun s d => if (s.dso d).doomed then exitFnsInRange d s.exitFns.length s else s) s

/-- What `dlclose` does with the doomed objects, where their code does not call the linker. -/
def unload (s : State) : State := unmapDoomed (handlers (finis s.fini.length s))

/-- `dlclose`, with destructors and handlers that do not call the linker. -/
def dlclose (p : Id) (s : State) : ℤ × State :=
  if p ∈ s.list then
    if p = app then (0, s)
    else if (s.dso p).opens = 0 then (-1, s)
    else
      let s := doom p s
      if s.list.any fun d => (s.dso d).doomed then (0, unload s) else (0, s)
  else (-1, s)

/-! ## `dlsym` and the rest -/

inductive Handle where
  | default
  | next
  | object (p : Id)
deriving DecidableEq, Repr

/-- The definition that `dlsym` finds. -/
def dlsym (p : Handle) (n : Name) (caller : Option Id) (s : State) : Option (Id × Def) :=
  let caller := caller.filter (· ∈ s.list)
  let found := match p with
    | .default => lookup s n ((caller.map s.scopeOf).getD []) none
    | .next =>
      match caller with
      | none => none
      | some c => lookupScope s n none
          (((s.list.dropWhile (· ≠ c)).drop 1).filter fun d => (s.dso d).isGlobal)
    | .object p =>
      if p = app then lookup s n ((caller.map s.scopeOf).getD []) none
      else if p ∉ s.list ∨ (s.dso p).scope = none ∨
          ((s.dso p).permanent = false ∧ (s.dso p).opens = 0) then none
      else lookupScope s n none (s.scopeOf p)
  found.filter fun r => !r.2.ifunc

/-- `__dl_pin`: an object with a thread-local destructor stays. -/
def dlPin (d : Id) (s : State) : State :=
  if d ∈ s.list then s.modify d fun o => { o with nodelete := true } else s

/-- `exit`: the destructors in the reverse order of the constructors. -/
def dlFini (s : State) : State :=
  { s with fini := [], log := (s.fini.map Event.fini).reverse ++ s.log }

/-! ## The start -/

/-- What the kernel gives: the program and libc.so. -/
structure Program where
  appPath : Name
  appElf : Elf
  selfPath : Name
  selfElf : Elf

/-- The blocks of the segments of the program or libc. -/
def startTls (d : Id) (e : Elf) (s : State) : State :=
  (e.tls.filter fun p => p.memsz ≠ 0).foldl (fun s p =>
    { s.modify d fun o => { o with tlsId := s.tls.mods.length + 1 } with tls := tlsAdd p s.tls }) s

/-- The program and libc before their storage is laid out. -/
def startObjects (p : Program) : State :=
  { list := [app, self]
    dso := update (update (fun _ => {})
      app { path := p.appPath, elf := p.appElf, map := true, nodelete := p.appElf.nodelete
            isGlobal := true, permanent := true })
      self { path := p.selfPath, elf := p.selfElf, map := true, nodelete := p.selfElf.nodelete
             shortname := some libcName, isGlobal := true, permanent := true } }

/-- The state before the libraries are loaded. -/
def startState (p : Program) : State :=
  let s := startTls self p.selfElf (startTls app p.appElf (startObjects p))
  let s := { s with tls := tlsLayout s.tls }
  s.modifyAll [app, self] (setOffset s.tls)

def tlsSurplus : UInt64 := 1048576

/-- The static storage that `__setup_tcb` gives the main thread. -/
def Program.tlsCapacity (p : Program) : UInt64 := (startState p).tls.offset + tlsSurplus

def dlopenTls : UInt64 := 262144

def pageSize : UInt64 := 4096

/-- `__dls_start` up to the constructors: the objects in the order of their constructors. -/
def dlsStart (w : World) (p : Program) : Loader (List Id) := do
  set (startState p)
  relocate self
  modify fun s => { s with list := [app] }
  loadDeps w w.room 0
  modify listSelf
  assignTls 0 p.tlsCapacity
  let s ← get
  let c := s.list.foldl (fun c d => orderInit d c) (orderInit app (s, []))
  set c.1
  (c.2.filter (· ≠ self)).forM relocate
  (← get).list.forM (protectRelro w)
  modify fun s => { s with
    tls := { s.tls with reserve := min (roundUp (s.tls.offset + dlopenTls) pageSize) p.tlsCapacity }
    started := true }
  pure c.2

end Citadel.Ldso
