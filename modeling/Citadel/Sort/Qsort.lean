import Mathlib.Algebra.Ring.Nat

/-!
# `qsort.c`

Memory is a function from addresses to bytes, pointers are addresses. The comparison function is a
function of the bytes of two elements and of its argument.

`Ctx` knows which array is sorted. An access to anything but an element of it fails, and so does
the decrement of a zero index; a recursion on a bound, where the source has none, fails at its end.
-/

namespace Citadel.Sort

/-- The byte at each address. -/
abbrev Memory := ℕ → UInt8

abbrev Elem (w : ℕ) := Fin w → UInt8

def elem (w : ℕ) (m : Memory) (p : ℕ) : Elem w := fun i => m (p + i)

/-! ## Exchanging two elements -/

/-- `memcpy` of `k` bytes. -/
def memcpy (m : Memory) (dst : ℕ) (src : ℕ → UInt8) (k : ℕ) : Memory := fun x =>
  if dst ≤ x ∧ x < dst + k then src (x - dst) else m x

/-- `k` bytes at `a` and at `b` are exchanged through a copy. -/
def exchange (m : Memory) (a b k : ℕ) : Memory :=
  let tmp := fun i => m (a + i)
  let m := memcpy m a (fun i => m (b + i)) k
  memcpy m b tmp k

/-- The loop over words of 8 bytes. -/
def swapLongs (m : Memory) (a b w : ℕ) : Memory :=
  if w = 0 then m else swapLongs (exchange m a b 8) (a + 8) (b + 8) (w - 8)
termination_by w

/-- The loop over pieces that fit into `tmp`. -/
def swapPieces (m : Memory) (a b w : ℕ) : Memory :=
  if w = 0 then m
  else
    let k := if w < 256 then w else 256
    swapPieces (exchange m a b k) (a + k) (b + k) (w - k)
termination_by w
decreasing_by split_ifs <;> omega

def swap (m : Memory) (a b w : ℕ) : Memory :=
  if a = b then m
  else if w % 8 = 0 ∧ a % 8 = 0 ∧ b % 8 = 0 then swapLongs m a b w
  else swapPieces m a b w

/-! ## Access to the array -/

/-- `struct ctx`, and the array of `n` elements at `first`. -/
structure Ctx (A : Type) where
  w : ℕ
  cmp : Elem w → Elem w → A → ℤ
  arg : A
  first : ℕ
  n : ℕ

namespace Ctx

variable {A : Type} (c : Ctx A)

/-- There is an element of the array at `p`. -/
def Inside (p : ℕ) : Prop := c.first ≤ p ∧ p + c.w ≤ c.first + c.n * c.w

instance (p : ℕ) : Decidable (c.Inside p) := inferInstanceAs (Decidable (_ ∧ _))

/-- `CMP`. -/
def cmpAt (m : Memory) (a b : ℕ) : Option ℤ :=
  if c.Inside a ∧ c.Inside b then some (c.cmp (elem c.w m a) (elem c.w m b) c.arg) else none

def swapAt (m : Memory) (a b : ℕ) : Option Memory :=
  if c.Inside a ∧ c.Inside b then some (swap m a b c.w) else none

end Ctx

/-! ## The algorithms -/

section Algorithms

variable {A : Type} (c : Ctx A)

/-- The inner loop of `insertion`. -/
def insert (base : ℕ) : ℕ → Memory → Option Memory
  | 0, m => some m
  | j + 1, m => do
    if (← c.cmpAt m (base + j * c.w) (base + (j + 1) * c.w)) > 0 then
      insert base j (← c.swapAt m (base + j * c.w) (base + (j + 1) * c.w))
    else some m

/-- The outer loop of `insertion`, where `k` values of `i` are left. -/
def insertLoop (base : ℕ) : ℕ → ℕ → Memory → Option Memory
  | 0, _, m => some m
  | k + 1, i, m => do insertLoop base k (i + 1) (← insert c base i m)

def insertion (base n : ℕ) (m : Memory) : Option Memory := insertLoop c base (n - 1) 1 m

/-- The second child of a node is there and larger than the first one, at `child`. -/
def secondLarger (base n child : ℕ) (m : Memory) : Option Bool :=
  if child + 1 < n then
    (c.cmpAt m (base + child * c.w) (base + (child + 1) * c.w)).map fun r => decide (r < 0)
  else some false

def sift (base n root : ℕ) (m : Memory) : Option Memory :=
  let child := 2 * root + 1
  if child ≥ n then some m
  else do
    let next ← secondLarger c base n child m
    let child := if next then child + 1 else child
    if (← c.cmpAt m (base + root * c.w) (base + child * c.w)) ≥ 0 then some m
    else sift base n child (← c.swapAt m (base + root * c.w) (base + child * c.w))
termination_by n - root
decreasing_by split_ifs <;> omega

def heapify (base n : ℕ) : ℕ → Memory → Option Memory
  | 0, m => some m
  | i + 1, m => do heapify base n i (← sift c base n i m)

/-- The second loop of `heapsort_`, where the heap has `e + 1` elements. -/
def drain (base : ℕ) : ℕ → Memory → Option Memory
  | 0, m => some m
  | e + 1, m => do
    let m ← c.swapAt m base (base + (e + 1) * c.w)
    drain base e (← sift c base (e + 1) 0 m)

def heapsort (base n : ℕ) (m : Memory) : Option Memory := do
  drain c base (n - 1) (← heapify c base n (n / 2) m)

/-- `if (CMP(c, a, b) < 0) swap(a, b, w)`. -/
def swapIf (m : Memory) (a b : ℕ) : Option Memory := do
  if (← c.cmpAt m a b) < 0 then c.swapAt m a b else some m

/-- The second step of the median of three. -/
def medianHigh (lo mid hi : ℕ) (m : Memory) : Option Memory := do
  if (← c.cmpAt m hi mid) < 0 then swapIf c (← c.swapAt m hi mid) mid lo else some m

/-- The median of three goes to place 0. -/
def median (base n : ℕ) (m : Memory) : Option Memory := do
  let mid := base + n / 2 * c.w
  let hi := base + (n - 1) * c.w
  let m ← swapIf c m mid base
  let m ← medianHigh c base mid hi m
  c.swapAt m base mid

/-- `do i++; while (i < n && CMP(c, base + i * w, base) < 0)`. -/
def scanUp (base n : ℕ) (m : Memory) (i : ℕ) : Option ℕ :=
  if i + 1 < n then do
    if (← c.cmpAt m (base + (i + 1) * c.w) base) < 0 then scanUp base n m (i + 1)
    else some (i + 1)
  else some (i + 1)
termination_by n - i

/-- `do j--; while (CMP(c, base + j * w, base) > 0)`. -/
def scanDown (base : ℕ) (m : Memory) : ℕ → Option ℕ
  | 0 => none
  | j + 1 => do
    if (← c.cmpAt m (base + j * c.w) base) > 0 then scanDown base m j else some j

/-- The loop of the partition: the place of the pivot, before it is put there. -/
def partitionLoop (base n : ℕ) : ℕ → ℕ → ℕ → Memory → Option (ℕ × Memory)
  | 0, _, _, _ => none
  | fuel + 1, i, j, m => do
    let i ← scanUp c base n m i
    let j ← scanDown c base m j
    if i ≥ j then some (j, m)
    else partitionLoop base n fuel i j (← c.swapAt m (base + i * c.w) (base + j * c.w))

/-- One round of `introsort` splits the array at the place of the pivot. -/
def partition (base n : ℕ) (m : Memory) : Option (ℕ × Memory) := do
  let m ← median c base n m
  let (j, m) ← partitionLoop c base n (n + 1) 0 n m
  let m ← c.swapAt m base (base + j * c.w)
  some (j, m)

/-- `introsort`; the loop on the larger side is a second recursive call. -/
def introsort : ℕ → ℕ → ℕ → Memory → Option Memory
  | depth, base, n, m =>
    if n > 16 then
      match depth with
      | 0 => heapsort c base n m
      | depth + 1 => do
        let (j, m) ← partition c base n m
        let left := j
        let right := n - j - 1
        if left < right then do
          let m ← introsort depth base left m
          introsort depth (base + (j + 1) * c.w) right m
        else do
          let m ← introsort depth (base + (j + 1) * c.w) right m
          introsort depth base left m
    else insertion c base n m

end Algorithms

/-- `__builtin_clzl`. -/
def clzl (n : ℕ) : ℕ := 63 - n.log2

def qsortR {A : Type} {w : ℕ} (m : Memory) (base n : ℕ) (cmp : Elem w → Elem w → A → ℤ) (arg : A) :
    Option Memory :=
  if n < 2 ∨ w = 0 then some m
  else introsort ⟨w, cmp, arg, base, n⟩ (2 * (64 - clzl n)) base n m

def callPlain {w : ℕ} (a b : Elem w) (f : Elem w → Elem w → ℤ) : ℤ := f a b

def qsort {w : ℕ} (m : Memory) (base n : ℕ) (cmp : Elem w → Elem w → ℤ) : Option Memory :=
  qsortR m base n callPlain cmp

end Citadel.Sort
