import Mathlib.Data.BitVec

/-!
# Thread-specific data

The keys of `src/pthread.c`: a table of `NKEYS` slots shared by all threads, and in every thread an
array of values. A value is a pointer, null is `0`; a destructor is kept mangled, null is `0`.

`step` is one move of the process. A running thread calls one of the four functions, each of which
is taken as one move, or exits. An exiting thread is inside `__tsd_run_dtors`: it looks at the slots
one after the other, and while a destructor runs the thread may call the functions again. The array
of a thread is zero until the thread stores into it (new mappings are zero), and is not used once
the thread is gone.
-/

namespace Citadel.Thread

open Function

def NKEYS : ℕ := 128
def DTOR_ITERATIONS : ℕ := 4

def EAGAIN : ℤ := 11
def EINVAL : ℤ := 22

/-! ## Pointer mangling -/

/-- `__ptr_mangle`, for the process secret `guard`. -/
def ptrMangle (guard p : BitVec 64) : BitVec 64 :=
  let q := p ^^^ guard
  (q <<< 17) ||| (q >>> (64 - 17))

def ptrDemangle (guard p : BitVec 64) : BitVec 64 :=
  ((p >>> 17) ||| (p <<< (64 - 17))) ^^^ guard

theorem ptrDemangle_ptrMangle (guard p : BitVec 64) :
    ptrDemangle guard (ptrMangle guard p) = p := by
  unfold ptrDemangle ptrMangle
  ext i hi
  simp only [BitVec.getElem_xor, BitVec.getElem_or, BitVec.getElem_shiftLeft,
    BitVec.getElem_ushiftRight, BitVec.getLsbD_or, BitVec.getLsbD_shiftLeft,
    BitVec.getLsbD_ushiftRight, BitVec.getLsbD_xor]
  have h5 : p.getLsbD (64 - 17 + (17 + i)) = false := BitVec.getLsbD_of_ge _ _ (by omega)
  have h6 : guard.getLsbD (64 - 17 + (17 + i)) = false := BitVec.getLsbD_of_ge _ _ (by omega)
  -- the low 47 bits come back through the right shift, the others through the left shift
  by_cases h : i < 47
  · have h1 : 17 + i < 64 := by omega
    have h3 : ¬ (17 + i < 17) := by omega
    have h4 : 17 + i - 17 = i := by omega
    simp [h, h1, h3, h4, h5, h6, BitVec.getLsbD_eq_getElem hi]
  · have h1 : ¬ (17 + i < 64) := by omega
    have h3 : i - 47 < 17 := by omega
    have h4 : 47 + (i - 47) = i := by omega
    simp [h, h1, h3, h4, h5, h6, BitVec.getLsbD_eq_getElem hi]

/-! ## The four functions -/

/-- One slot of `keys`. -/
structure Key where
  dtor : BitVec 64
  used : Bool

/-- The slot that `pthread_key_create` takes: the first unused one. -/
def freeSlot (keys : ℕ → Key) : Option ℕ := (List.range NKEYS).find? fun i => !(keys i).used

/-- `pthread_key_create`: the table, the return value and the key stored through `k`. -/
def pthreadKeyCreate (guard : BitVec 64) (keys : ℕ → Key) (dtor : BitVec 64) :
    (ℕ → Key) × ℤ × Option ℕ :=
  match freeSlot keys with
  | some i =>
    (update keys i ⟨if dtor = 0 then 0 else ptrMangle guard dtor, true⟩, 0, some i)
  | none => (keys, EAGAIN, none)

def pthreadKeyDelete (keys : ℕ → Key) (k : ℕ) : (ℕ → Key) × ℤ :=
  if k ≥ NKEYS ∨ (keys k).used = false then (keys, EINVAL)
  else (update keys k ⟨0, false⟩, 0)

/-- `pthread_getspecific`, for the array `tsd` of the calling thread. -/
def pthreadGetspecific (tsd : ℕ → ℕ) (k : ℕ) : ℕ := if k < NKEYS then tsd k else 0

def pthreadSetspecific (keys : ℕ → Key) (tsd : ℕ → ℕ) (k v : ℕ) : (ℕ → ℕ) × ℤ :=
  if k ≥ NKEYS ∨ (keys k).used = false then (tsd, EINVAL)
  else (update tsd k v, 0)

/-- The body of the inner loop of `__tsd_run_dtors` for the slot `i`: the array, and the destructor
that is called with its argument. -/
def tsdSlot (guard : BitVec 64) (keys : ℕ → Key) (tsd : ℕ → ℕ) (i : ℕ) :
    (ℕ → ℕ) × Option (BitVec 64 × ℕ) :=
  if tsd i = 0 ∨ (keys i).used = false ∨ (keys i).dtor = 0 then (tsd, none)
  else (update tsd i 0, some (ptrDemangle guard (keys i).dtor, tsd i))

/-! ## The process -/

inductive Phase
  /-- It has not begun to exit. -/
  | running
  /-- In round `it` of `__tsd_run_dtors`, about to look at the slot `i`. -/
  | scanning (it i : ℕ) (ran : Bool)
  /-- In round `it`, inside the destructor called for the slot `i`. -/
  | inDtor (it i : ℕ)
  | gone
  deriving DecidableEq

structure State where
  keys : ℕ → Key
  /-- The arrays of the threads. -/
  tsd : ℕ → ℕ → ℕ
  phase : ℕ → Phase

/-- No key in use, no thread has stored anything. -/
def State.init : State := ⟨fun _ => ⟨0, false⟩, fun _ _ => 0, fun _ => .running⟩

inductive Call
  | create (dtor : BitVec 64)
  | delete (k : ℕ)
  | setspecific (k v : ℕ)
  | getspecific (k : ℕ)

inductive Action
  /-- The thread calls one of the functions. -/
  | call (t : ℕ) (c : Call)
  /-- The thread enters `__tsd_run_dtors`. -/
  | exit (t : ℕ)
  /-- The thread goes on in `__tsd_run_dtors`. -/
  | scan (t : ℕ)
  /-- The destructor that the thread is in returns. -/
  | ret (t : ℕ)

/-- What a move does, as far as the callers can see. -/
inductive Outcome
  | created (k : ℕ) (dtor : BitVec 64)
  | deleted (k : ℕ)
  | stored (k v : ℕ)
  | value (k v : ℕ)
  | error (e : ℤ)
  /-- The destructor `dtor` of the key `k` is called with `v`. -/
  | called (k : ℕ) (dtor : BitVec 64) (v : ℕ)
  | silent
  deriving DecidableEq

/-- A call by the thread `t`. -/
def callStep (guard : BitVec 64) (s : State) (t : ℕ) : Call → State × Outcome
  | .create dtor =>
    match pthreadKeyCreate guard s.keys dtor with
    | (keys, _, some k) => ({ s with keys := keys }, .created k dtor)
    | (_, e, none) => (s, .error e)
  | .delete k =>
    match pthreadKeyDelete s.keys k with
    | (keys, e) => ({ s with keys := keys }, if e = 0 then .deleted k else .error e)
  | .setspecific k v =>
    match pthreadSetspecific s.keys (s.tsd t) k v with
    | (tsd, e) =>
      ({ s with tsd := update s.tsd t tsd }, if e = 0 then .stored k v else .error e)
  | .getspecific k => (s, .value k (pthreadGetspecific (s.tsd t) k))

/-- One step of the loops of `__tsd_run_dtors`, in round `it` at the slot `i`. -/
def scanStep (guard : BitVec 64) (s : State) (t it i : ℕ) (ran : Bool) : State × Outcome :=
  if it ≥ DTOR_ITERATIONS then ({ s with phase := update s.phase t .gone }, .silent)
  else if i < NKEYS then
    match tsdSlot guard s.keys (s.tsd t) i with
    | (_, none) =>
      ({ s with phase := update s.phase t (.scanning it (i + 1) ran) }, .silent)
    | (tsd, some (dtor, v)) =>
      ({ s with tsd := update s.tsd t tsd
                phase := update s.phase t (.inDtor it i) }, .called i dtor v)
  else if ran then
    ({ s with phase := update s.phase t (.scanning (it + 1) 0 false) }, .silent)
  else ({ s with phase := update s.phase t .gone }, .silent)

/-- One move of the process, with the thread that made it; `none` when the thread is not at a point
where it can make this move. -/
def step (guard : BitVec 64) (s : State) : Action → Option (State × ℕ × Outcome)
  | .call t c =>
    match s.phase t with
    | .running | .inDtor _ _ => some ((callStep guard s t c).1, t, (callStep guard s t c).2)
    | .scanning _ _ _ | .gone => none
  | .exit t =>
    match s.phase t with
    | .running =>
      some ({ s with phase := update s.phase t (.scanning 0 0 false) }, t, .silent)
    | .scanning _ _ _ | .inDtor _ _ | .gone => none
  | .scan t =>
    match s.phase t with
    | .scanning it i ran =>
      some ((scanStep guard s t it i ran).1, t, (scanStep guard s t it i ran).2)
    | .running | .inDtor _ _ | .gone => none
  | .ret t =>
    match s.phase t with
    | .inDtor it i =>
      some ({ s with phase := update s.phase t (.scanning it (i + 1) true) }, t, .silent)
    | .running | .scanning _ _ _ | .gone => none

end Citadel.Thread
