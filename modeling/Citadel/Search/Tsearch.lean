import Mathlib.Data.Int.Basic

/-!
# `tsearch`, `tfind`, `tdelete`: the pointer program

The nodes of `src/search.c` live in a heap from addresses to `struct node`; a `struct node **` is a
`Slot`: the caller's root variable or one of the two child fields of a node. Every function returns
`none` where the C program would be undefined: a null or freed node is dereferenced, or a slot is
saved past the end of the array `path`. The loops that save slots are bounded by that array, so
they need no other fuel; the loop of `tfind` saves nothing and is given a number of iterations, and
the recursions of `twalk` and `tdestroy` a depth.

`malloc` is what the environment answers: `none` for a failure, or the address of the new node.
-/

namespace Citadel.Search.Tsearch

open Function

variable {K : Type}

structure Node (K : Type) where
  key : K
  a0 : Option ℕ
  a1 : Option ℕ
  h : ℕ

/-- The field `a[d]`; `false` is `a[0]`. -/
def Node.a (n : Node K) (d : Bool) : Option ℕ := if d then n.a1 else n.a0

def Node.setA (n : Node K) (d : Bool) (p : Option ℕ) : Node K :=
  if d then { n with a1 := p } else { n with a0 := p }

abbrev Heap (K : Type) := ℕ → Option (Node K)

/-- Where a `struct node *` is stored. -/
inductive Slot where
  | root
  | child (p : ℕ) (d : Bool)

/-- The heap and the caller's root variable. -/
structure Mem (K : Type) where
  heap : Heap K
  root : Option ℕ

/-- `*pp`. -/
def Mem.load (m : Mem K) : Slot → Option (Option ℕ)
  | .root => some m.root
  | .child p d => (m.heap p).map (·.a d)

/-- `*pp = q`. -/
def Mem.store (m : Mem K) : Slot → Option ℕ → Option (Mem K)
  | .root, q => some { m with root := q }
  | .child p d, q =>
    (m.heap p).map fun n => { m with heap := update m.heap p (some (n.setA d q)) }

def MAXH : ℕ := 100

def height (H : Heap K) : Option ℕ → Option ℕ
  | none => some 0
  | some p => (H p).map (·.h)

/-- `n->h = 1 + max(height(n->a[0]), height(n->a[1]))`. -/
def setHeight (H : Heap K) (n : ℕ) : Option (Heap K) := do
  let nn ← H n
  let hl ← height H nn.a0
  let hr ← height H nn.a1
  return update H n (some { nn with h := 1 + if hl > hr then hl else hr })

/-- `rot`: rotate so the child on side `!dir` becomes the root. -/
def rot (H : Heap K) (n : ℕ) (dir : Bool) : Option (Heap K × ℕ) := do
  let nn ← H n
  let c ← nn.a !dir
  let cn ← H c
  let H := update H n (some (nn.setA (!dir) (cn.a dir)))
  let cn ← H c
  let H := update H c (some (cn.setA dir (some n)))
  let H ← setHeight H n
  let H ← setHeight H c
  return (H, c)

/-- `if (height(c->a[!dir]) > height(c->a[dir])) n->a[dir] = rot(c, dir)` for `c = n->a[dir]`: the
inner rotation of the two unbalanced cases. -/
def rotInner (H : Heap K) (n : ℕ) (dir : Bool) : Option (Heap K) := do
  let nn ← H n
  let c ← nn.a dir
  let cn ← H c
  let hi ← height H (cn.a !dir)
  let ho ← height H (cn.a dir)
  if hi > ho then
    let (H, c) ← rot H c dir
    let nn ← H n
    return update H n (some (nn.setA dir (some c)))
  else return H

def balance (H : Heap K) (n : ℕ) : Option (Heap K × ℕ) := do
  let nn ← H n
  let hl ← height H nn.a0
  let hr ← height H nn.a1
  if hl > hr + 1 then
    let H ← rotInner H n false
    rot H n true
  else if hr > hl + 1 then
    let H ← rotInner H n true
    rot H n false
  else return (update H n (some { nn with h := 1 + if hl > hr then hl else hr }), n)

section Operations

variable (cmp : K → K → ℤ)

/-- The loop of `tfind`, given the number of iterations it may make. -/
def tfindLoop (H : Heap K) (key : K) : ℕ → Option ℕ → Option (Option ℕ)
  | _, none => some none
  | 0, some _ => none
  | fuel + 1, some n => do
    let nn ← H n
    let c := cmp key nn.key
    if c = 0 then return some n else tfindLoop H key fuel (nn.a (decide (c > 0)))

def tfind (fuel : ℕ) (m : Mem K) (key : K) : Option (Option ℕ) :=
  tfindLoop cmp m.heap key fuel m.root

/-- The descent of `tsearch` and `tdelete`: `path` holds the slots saved so far, the last one first,
and `room` more fit into the array. It ends at the slot that is null or holds the key. -/
def descend (m : Mem K) (key : K) : ℕ → List Slot → Slot → Option (List Slot × Slot × Option ℕ)
  | room, path, pp => do
    match ← m.load pp with
    | none => return (path, pp, none)
    | some n =>
      let nn ← m.heap n
      let c := cmp key nn.key
      if c = 0 then return (path, pp, some n)
      else
        match room with
        | 0 => none
        | room + 1 => descend m key room (pp :: path) (.child n (decide (c > 0)))

/-- `while (depth--) if (*path[depth]) *path[depth] = balance(*path[depth])`; `tsearch` has the same
loop without the test, on slots that are never null. -/
def rebalance : List Slot → Mem K → Option (Mem K)
  | [], m => some m
  | s :: path, m => do
    match ← m.load s with
    | none => rebalance path m
    | some n =>
      let (H, c) ← balance m.heap n
      let m ← ({ m with heap := H } : Mem K).store s (some c)
      rebalance path m

/-- The loop at the end of `tsearch`: a null slot would be dereferenced. -/
def rebalanceAll : List Slot → Mem K → Option (Mem K)
  | [], m => some m
  | s :: path, m => do
    let n ← ← m.load s
    let (H, c) ← balance m.heap n
    let m ← ({ m with heap := H } : Mem K).store s (some c)
    rebalanceAll path m

/-- `tsearch`: the memory afterwards, the node returned and the number of slots saved in `path`. -/
def tsearch (malloc : Option ℕ) (m : Mem K) (key : K) : Option (Mem K × Option ℕ × ℕ) := do
  let (path, pp, found) ← descend cmp m key MAXH [] .root
  match found with
  | some n => return (m, some n, path.length)
  | none =>
    match malloc with
    | none => return (m, none, path.length)
    | some n =>
      let m : Mem K := { m with heap := update m.heap n (some ⟨key, none, none, 1⟩) }
      let m ← m.store pp (some n)
      let m ← rebalanceAll path m
      return (m, some n, path.length)

/-- The descent of `tdelete` to the in-order successor: `while ((*sp)->a[0])`. -/
def descendLeft (m : Mem K) : ℕ → List Slot → Slot → Option (List Slot × Slot × ℕ)
  | room, path, sp => do
    let s ← ← m.load sp
    let sn ← m.heap s
    match sn.a0 with
    | none => return (path, sp, s)
    | some _ =>
      match room with
      | 0 => none
      | room + 1 => descendLeft m room (sp :: path) (.child s false)

/-- The in-order successor takes the place of `del` in the slot `pp`: the memory, and the slots
saved below `pp`. `room` slots fit into the array after that of `pp`. -/
def splice (m : Mem K) (room : ℕ) (pp : Slot) (del : ℕ) : Option (Mem K × List Slot) := do
  let (below, sp, s) ← descendLeft m room [] (.child del true)
  let sn ← m.heap s
  let m ← m.store sp sn.a1
  let dn ← m.heap del
  let m ← m.store (.child s false) dn.a0
  let dn ← m.heap del
  let m ← m.store (.child s true) dn.a1
  let m ← m.store pp (some s)
  -- `if (depth > succ_at) path[succ_at] = &s->a[1]`: the first slot saved was `&del->a[1]`
  return (m, if below.isEmpty then below else below.dropLast ++ [.child s true])

/-- The removal of the node `del` in the slot `pp`, before the rebalancing: the memory and the slots
to rebalance, the last one first. `path` holds the slots above `pp`. -/
def unlink (m : Mem K) (path : List Slot) (pp : Slot) (del : ℕ) : Option (Mem K × List Slot) := do
  let dn ← m.heap del
  match dn.a0, dn.a1 with
  | some _, some _ =>
    if path.length < MAXH + 1 then
      let (m, below) ← splice m (MAXH + 1 - (path.length + 1)) pp del
      return (m, below ++ pp :: path)
    else none
  | l, r =>
    let m ← m.store pp (match l with | none => r | some _ => l)
    return (m, path)

/-- What `tdelete` returns for a node that was there: its parent, or `rootp` for the root. -/
inductive Parent where
  | rootp
  | node (p : ℕ)

def Slot.parent : Slot → Parent
  | .root => .rootp
  | .child p _ => .node p

/-- `tdelete`: the memory afterwards, the pointer returned and the number of slots saved. -/
def tdelete (m : Mem K) (key : K) : Option (Mem K × Option Parent × ℕ) := do
  let (path, pp, found) ← descend cmp m key (MAXH + 1) [] .root
  match found with
  | none => return (m, none, path.length)
  | some del =>
    let (m, slots) ← unlink m path pp del
    let m : Mem K := { m with heap := update m.heap del none }
    let m ← rebalance slots m
    return (m, some pp.parent, slots.length)

end Operations

inductive Visit where
  | preorder | postorder | endorder | leaf
deriving DecidableEq

/-- The calls of `act`: the node, the visit and the level. -/
def walk (H : Heap K) : ℕ → Option ℕ → ℕ → Option (List (ℕ × Visit × ℕ))
  | _, none, _ => some []
  | 0, some _, _ => none
  | fuel + 1, some n, level => do
    let nn ← H n
    if nn.a0 = none ∧ nn.a1 = none then return [(n, .leaf, level)]
    let l ← walk H fuel nn.a0 (level + 1)
    let r ← walk H fuel nn.a1 (level + 1)
    return (n, .preorder, level) :: l ++ (n, .postorder, level) :: r ++ [(n, .endorder, level)]

def twalk (fuel : ℕ) (m : Mem K) : Option (List (ℕ × Visit × ℕ)) := walk m.heap fuel m.root 0

/-- The heap afterwards, and the calls of `freekey`. -/
def tdestroy : ℕ → Heap K → Option ℕ → Option (Heap K × List K)
  | _, H, none => some (H, [])
  | 0, _, some _ => none
  | fuel + 1, H, some n => do
    let nn ← H n
    let (H, ks) ← tdestroy fuel H nn.a0
    let nn ← H n
    let (H, ks') ← tdestroy fuel H nn.a1
    let nn ← H n
    return (update H n none, ks ++ ks' ++ [nn.key])

end Citadel.Search.Tsearch
