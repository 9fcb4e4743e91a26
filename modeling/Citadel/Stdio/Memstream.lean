import Citadel.Stdio.Stream

/-!
# Memory streams

The write side of `src/memstream.c`. `bufferedWrite` is generic in the function that stores bytes,
as in the source; `fmemopen` and `open_memstream` give it theirs.

* `writes_honour`: when the two write functions keep the contract of `src/stdio_impl.h`.
* `memstream_refines`: `open_memstream` is a sparse file (`Sparse`).
* `err_foldl`: no error as long as `realloc` succeeds and the file stays small.
-/

namespace Citadel.Stdio

open Citadel.Lib.Window List Function

def ENOSPC : ℤ := 28

/-- A stream on a memory, not in read mode: the bytes of `[wbase, wpos)`, whether the write pointers
are set, `F_ERR` and the cookie. -/
structure MemFile (σ : Type) where
  pending : List UInt8
  writing : Bool
  err : Bool
  cookie : σ
  idle : writing = false → pending = []

/-! ## Buffered bytes and new ones -/

section Buffered

variable {σ : Type} {base : σ → ℕ} {mem : σ → ℕ → UInt8} {raw : List UInt8 → σ → ℕ × σ}

/-- `raw` is not called for no bytes. -/
def deliver (raw : List UInt8 → σ → ℕ × σ) (s : List UInt8) (c : σ) : ℕ × σ :=
  if s = [] then (0, c) else raw s c

def bufferedWrite (raw : List UInt8 → σ → ℕ × σ) (f : MemFile σ) (s : List UInt8) : ℕ × MemFile σ :=
  let fst := deliver raw f.pending f.cookie
  let snd := deliver raw s fst.2
  if fst.1 < f.pending.length then (0, ⟨[], false, true, fst.2, fun _ => rfl⟩)
  else if snd.1 < s.length then (0, ⟨[], false, true, snd.2, fun _ => rfl⟩)
  else (snd.1, ⟨[], true, f.err, snd.2, fun _ => rfl⟩)

/-- `r` has stored a prefix of `s` where the next byte goes, and counted it. -/
structure Stores (base : σ → ℕ) (mem : σ → ℕ → UInt8) (s : List UInt8) (c : σ) (r : ℕ × σ) :
    Prop where
  le : r.1 ≤ s.length
  base_eq : base r.2 = base c + r.1
  stored : window (mem r.2) (base c) (base r.2) = s.take r.1
  below : ∀ i < base c, mem r.2 i = mem c i

/-- The contract of a write function: a prefix of the buffered bytes and the argument is stored, all
of them if there is no error, the stored bytes of the argument are counted, and the buffer is left
empty. -/
structure Honours (base : σ → ℕ) (mem : σ → ℕ → UInt8) (f : MemFile σ) (s : List UInt8)
    (r : ℕ × MemFile σ) : Prop where
  stored : window (mem r.2.cookie) (base f.cookie) (base r.2.cookie) =
    (f.pending ++ s).take (base r.2.cookie - base f.cookie)
  count : r.1 = base r.2.cookie - base f.cookie - f.pending.length
  empty : r.2.pending = []
  full : r.2.err = false → base r.2.cookie = base f.cookie + (f.pending ++ s).length

theorem Stores.none (s : List UInt8) {c c' : σ} (hb : base c' = base c) (hm : mem c' = mem c) :
    Stores base mem s c (0, c') :=
  ⟨Nat.zero_le _, hb, by simp [hb], fun _ _ => by rw [hm]⟩

theorem deliver_stores (hraw : ∀ s c, s ≠ [] → Stores base mem s c (raw s c)) (s : List UInt8)
    (c : σ) : Stores base mem s c (deliver raw s c) := by
  unfold deliver
  split_ifs with hs
  · exact .none s rfl rfl
  · exact hraw s c hs

theorem bufferedWrite_honours (hraw : ∀ s c, s ≠ [] → Stores base mem s c (raw s c))
    (f : MemFile σ) (s : List UInt8) :
    Honours base mem f s (bufferedWrite raw f s) ↔
      (deliver raw f.pending f.cookie).1 < f.pending.length ∨
      (deliver raw s (deliver raw f.pending f.cookie).2).1 = 0 ∨
      (deliver raw s (deliver raw f.pending f.cookie).2).1 = s.length := by
  have h₁ := deliver_stores hraw f.pending f.cookie
  have h₂ := deliver_stores hraw s (deliver raw f.pending f.cookie).2
  revert h₁ h₂
  unfold bufferedWrite
  dsimp only
  generalize deliver raw f.pending f.cookie = fst
  generalize deliver raw s fst.2 = snd
  intro h₁ h₂
  have e₁ := h₁.base_eq
  have e₂ := h₂.base_eq
  have := h₁.le
  have := h₂.le
  split_ifs with hk hn
  · refine iff_of_true ⟨?_, ?_, rfl, nofun⟩ (.inl hk)
    · rw [h₁.stored, e₁, Nat.add_sub_cancel_left, take_append_of_le_length h₁.le]
    · dsimp only
      omega
  all_goals
    have hstored : window (mem snd.2) (base f.cookie) (base snd.2) =
        (f.pending ++ s).take (base snd.2 - base f.cookie) := by
      rw [window_append (by omega : base f.cookie ≤ base fst.2) (by omega), h₂.stored,
        window_congr fun i _ hi => h₂.below i hi, h₁.stored, take_of_length_le (by omega),
        show base snd.2 - base f.cookie = f.pending.length + snd.1 by omega,
        take_length_add_append]
  · constructor
    · rintro ⟨-, hcount, -, -⟩
      dsimp only at hcount
      omega
    · intro h
      exact ⟨hstored, by dsimp only; omega, rfl, nofun⟩
  · refine iff_of_true ⟨hstored, ?_, rfl, fun _ => ?_⟩ (by omega)
    · dsimp only
      omega
    · rw [length_append]
      dsimp only
      omega

end Buffered

/-! ## `fmemopen` -/

/-- `struct fmem`, and `errno`. -/
structure Fmem where
  pos : ℕ
  len : ℕ
  size : ℕ
  buf : ℕ → UInt8
  append : Bool
  errno : ℤ
  pos_le : pos ≤ size
  len_le : len ≤ size

/-- Where the next byte goes. -/
def Fmem.base (c : Fmem) : ℕ := if c.append then c.len else c.pos

theorem Fmem.base_le (c : Fmem) : c.base ≤ c.size := by
  unfold base
  split_ifs
  exacts [c.len_le, c.pos_le]

def fmemRawWrite (s : List UInt8) (c : Fmem) : ℕ × Fmem :=
  let n := min s.length (c.size - c.base)
  let pos := c.base + n
  let len := max pos c.len
  let buf := fill c.buf c.base (s.take n)
  have hpos : pos ≤ c.size := by have := c.base_le; omega
  (n, { c with
    pos := pos
    len := len
    buf := if len < c.size then update buf len 0 else buf
    errno := if n < s.length then ENOSPC else c.errno
    pos_le := hpos
    len_le := max_le hpos c.len_le })

def fmemWrite : MemFile Fmem → List UInt8 → ℕ × MemFile Fmem := bufferedWrite fmemRawWrite

theorem fmemRawWrite_stores (s : List UInt8) (c : Fmem) :
    Stores Fmem.base Fmem.buf s c (fmemRawWrite s c) := by
  have hbase : (fmemRawWrite s c).2.base = c.base + (fmemRawWrite s c).1 := by
    simp only [Fmem.base, fmemRawWrite]
    split_ifs <;> omega
  -- the terminator is written behind the new bytes
  have hbuf : ∀ i < c.base + (fmemRawWrite s c).1, (fmemRawWrite s c).2.buf i =
      fill c.buf c.base (s.take (fmemRawWrite s c).1) i := by
    intro i hi
    simp only [fmemRawWrite] at hi ⊢
    split_ifs
    · rw [update_of_ne (by omega)]
    · rfl
  have hlen : (s.take (fmemRawWrite s c).1).length = (fmemRawWrite s c).1 := by
    simp [fmemRawWrite]
  refine ⟨Nat.min_le_left _ _, hbase, ?_, fun i hi => ?_⟩
  · rw [hbase, window_congr fun i _ hi => hbuf i hi]
    nth_rewrite 2 [← hlen]
    exact window_fill
  · rw [hbuf i (by omega), fill_outside (.inl hi)]

/-! ## `open_memstream` -/

/-- `struct mstream`, what `sizep` points to, and `errno`. -/
structure Mstream where
  pos : ℕ
  len : ℕ
  space : ℕ
  buf : ℕ → UInt8
  sizep : ℕ
  errno : ℤ
  len_lt : len < space
  nul : buf len = 0
  sizep_eq : sizep = min pos len

/-- The size of the block after there is room for `need` bytes. -/
def grown (space need : ℕ) : ℕ := if space < need then max (space * 2) need else space

theorem le_grown (space need : ℕ) : space ≤ grown space need ∧ need ≤ grown space need := by
  unfold grown
  split_ifs <;> omega

/-- `ms_raw_write`; `alloc` says whether `realloc` gives a block of this size. -/
def msRawWrite (alloc : ℕ → Bool) (s : List UInt8) (c : Mstream) : ℕ × Mstream :=
  let stop := c.pos + s.length
  let space := grown c.space (stop + 1)
  if (sizeLimit - 1) / 2 ≤ stop ∨ c.space < stop + 1 ∧ alloc space = false then
    (0, { c with errno := ENOMEM })
  else
    (s.length,
      { pos := stop
        len := max stop c.len
        space := space
        buf := update (fill (fill c.buf c.len (replicate (c.pos - c.len) 0)) c.pos s)
          (max stop c.len) 0
        sizep := min stop (max stop c.len)
        errno := c.errno
        len_lt := max_lt (le_grown ..).2 (Nat.lt_of_lt_of_le c.len_lt (le_grown ..).1)
        nul := update_self ..
        sizep_eq := rfl })

def msWrite (alloc : ℕ → Bool) : MemFile Mstream → List UInt8 → ℕ × MemFile Mstream :=
  bufferedWrite (msRawWrite alloc)

/-- A sparse file: bytes that have not been written are zero. -/
@[ext]
structure Sparse where
  data : ℕ → UInt8
  len : ℕ
  pos : ℕ

def Sparse.write (a : Sparse) (s : List UInt8) : Sparse :=
  if s = [] then a else ⟨fill a.data a.pos s, max (a.pos + s.length) a.len, a.pos + s.length⟩

/-- The file that a memory stands for. -/
def Mstream.sparse (c : Mstream) : Sparse :=
  ⟨fun i => if i < c.len then c.buf i else 0, c.len, c.pos⟩

theorem Sparse.write_write (a : Sparse) (p s : List UInt8) :
    (a.write p).write s = a.write (p ++ s) := by
  by_cases hp : p = []
  · simp [write, hp]
  by_cases hs : s = []
  · simp [write, hs]
  rw [write, if_neg hs, write, if_neg hp, write, if_neg (by simp [hp]), length_append]
  ext1
  · exact fill_fill
  · dsimp only
    omega
  · exact Nat.add_assoc ..

theorem msRawWrite_cases (alloc : ℕ → Bool) {s : List UInt8} (hs : s ≠ []) (c : Mstream) :
    msRawWrite alloc s c = (0, { c with errno := ENOMEM }) ∨
      (msRawWrite alloc s c).1 = s.length ∧ (msRawWrite alloc s c).2.sparse = c.sparse.write s := by
  unfold msRawWrite
  dsimp only
  split_ifs with hfail
  · exact .inl rfl
  refine .inr ⟨rfl, ?_⟩
  rw [Sparse.write, if_neg hs]
  ext1
  · funext i
    simp only [Mstream.sparse]
    by_cases hi : c.pos ≤ i ∧ i - c.pos < s.length
    · rw [if_pos (by omega), update_of_ne (by omega), fill_of_mem hi.1 hi.2, fill_of_mem hi.1 hi.2]
    rw [fill_outside (M := fun _ => _) (by omega)]
    split_ifs with hmax hlen hlen
    · rw [update_of_ne (by omega), fill_outside (by omega), fill_outside (.inl hlen)]
    · -- behind the end and before the argument: a gap
      rw [update_of_ne (by omega), fill_outside (by omega),
        fill_of_mem (by omega) (by rw [length_replicate]; omega), getElem_replicate]
    · omega
    · rfl
  · rfl
  · rfl

theorem msRawWrite_stores (alloc : ℕ → Bool) (s : List UInt8) (c : Mstream) (hs : s ≠ []) :
    Stores Mstream.pos (fun c => c.sparse.data) s c (msRawWrite alloc s c) := by
  rcases msRawWrite_cases alloc hs c with h | ⟨hlen, hc⟩
  · rw [h]
    exact .none s rfl rfl
  rw [Sparse.write, if_neg hs] at hc
  have hpos : (msRawWrite alloc s c).2.pos = c.pos + s.length := congrArg Sparse.pos hc
  refine ⟨Nat.le_of_eq hlen, by rw [hpos, hlen], ?_, fun i hi => ?_⟩
  · rw [hpos, hc, hlen, take_length]
    exact window_fill
  · rw [hc]
    exact fill_outside (.inl hi)

/-- **The write-function contract**: a stream of `open_memstream` keeps it, whatever `realloc`
answers; one of `fmemopen` does exactly if the end of its memory does not cut the argument in two.
-/
theorem writes_honour (s : List UInt8) :
    (∀ (alloc : ℕ → Bool) (f : MemFile Mstream),
      Honours Mstream.pos (fun c => c.sparse.data) f s (msWrite alloc f s)) ∧
    ∀ f : MemFile Fmem, Honours Fmem.base Fmem.buf f s (fmemWrite f s) ↔
      f.cookie.size ≤ f.cookie.base + f.pending.length ∨
      f.cookie.base + f.pending.length + s.length ≤ f.cookie.size := by
  constructor
  · intro alloc f
    refine (bufferedWrite_honours (msRawWrite_stores alloc) f s).mpr (.inr ?_)
    generalize (deliver (msRawWrite alloc) f.pending f.cookie).2 = c
    unfold deliver
    split_ifs with hs
    · exact .inl rfl
    · exact (msRawWrite_cases alloc hs c).imp (fun h => by rw [h]) And.left
  · intro f
    have hcount : ∀ s c, (deliver fmemRawWrite s c).1 = min s.length (c.size - c.base) := by
      intro s c
      unfold deliver
      split_ifs with hs
      · simp [hs]
      · rfl
    have hsize : ∀ s c, (deliver fmemRawWrite s c).2.size = c.size := by
      intro s c
      unfold deliver
      split_ifs <;> rfl
    have hb := (deliver_stores (fun s c _ => fmemRawWrite_stores s c) f.pending f.cookie).base_eq
    have := f.cookie.base_le
    rw [fmemWrite, bufferedWrite_honours (fun s c _ => fmemRawWrite_stores s c), hcount,
      hcount s, hsize, hb, hcount]
    omega

/-- The memory has room for one of two bytes: it takes it, and the result is 0. -/
theorem fmemWrite_cut : ∃ f : MemFile Fmem, (fmemWrite f [97, 98]).1 = 0 ∧
    (fmemWrite f [97, 98]).2.cookie.buf 0 = 97 ∧
    ¬ Honours Fmem.base Fmem.buf f [97, 98] (fmemWrite f [97, 98]) :=
  ⟨⟨[], true, false, ⟨0, 0, 1, fun _ => 0, false, 0, by decide, by decide⟩, nofun⟩, by decide,
    by decide, fun h => absurd h.count (by decide)⟩

/-! ## The stream over the memory -/

inductive Whence where
  | set
  | cur
  | fin

def Whence.base (pos len : ℕ) : Whence → ℤ
  | set => 0
  | cur => pos
  | fin => len

def newPos (base off max : ℤ) : Option ℕ :=
  if base + off < 0 ∨ max < base + off then none else some (base + off).toNat

def msSeek (off : ℤ) (whence : Whence) (c : Mstream) : Mstream :=
  match newPos (whence.base c.pos c.len) off SSIZE_MAX with
  | none => { c with errno := EINVAL }
  | some p => { c with pos := p, sizep := min p c.len, sizep_eq := rfl }

inductive MemOp where
  | write (s : List UInt8)
  | flush
  | seek (off : ℤ) (whence : Whence)

section Calls

variable (alloc : ℕ → Bool) (size : ℕ)

/-- `__fwritex`; the buffer has `size` bytes. -/
def msFwritex (f : MemFile Mstream) (s : List UInt8) : ℕ × MemFile Mstream :=
  if size - f.pending.length < s.length then msWrite alloc f s
  else (s.length, { f with pending := f.pending ++ s, writing := true, idle := nofun })

/-- `__fflush_unlocked`: whether it succeeds. -/
def msFflush (f : MemFile Mstream) : Bool × MemFile Mstream :=
  if f.pending = [] then (true, { f with pending := [], writing := false, idle := fun _ => rfl })
  else
    let f := (msWrite alloc f []).2
    (f.writing, { f with pending := [], writing := false, idle := fun _ => rfl })

/-- One call; `__fseeko_unlocked` flushes first. -/
def msStep (f : MemFile Mstream) : MemOp → MemFile Mstream
  | .write s => (msFwritex alloc size f s).2
  | .flush => (msFflush alloc f).2
  | .seek off whence =>
    let (ok, f) := msFflush alloc f
    if ok then { f with cookie := msSeek off whence f.cookie } else f

end Calls

/-- `open_memstream`; `space` is the one byte that it allocates. -/
def openMemstream (buf : ℕ → UInt8) : MemFile Mstream where
  pending := []
  writing := false
  err := false
  cookie := ⟨0, 0, 1, update buf 0 0, 0, 0, by decide, update_self .., rfl⟩
  idle := fun _ => rfl

def Sparse.seek (a : Sparse) (off : ℤ) (whence : Whence) : Sparse :=
  { a with pos := (newPos (whence.base a.pos a.len) off SSIZE_MAX).getD a.pos }

def Sparse.step (a : Sparse) : MemOp → Sparse
  | .write s => a.write s
  | .flush => a
  | .seek off whence => a.seek off whence

/-- The file that a stream stands for, with what is buffered. -/
def MemFile.contents (f : MemFile Mstream) : Sparse := f.cookie.sparse.write f.pending

variable {alloc : ℕ → Bool} {size : ℕ} {f : MemFile Mstream} {s : List UInt8}

theorem contents_eq (h : f.pending = []) : f.contents = f.cookie.sparse := by
  rw [MemFile.contents, h]
  rfl

theorem deliver_sparse {c : Mstream} (h : s.length ≤ (deliver (msRawWrite alloc) s c).1) :
    (deliver (msRawWrite alloc) s c).2.sparse = c.sparse.write s := by
  unfold deliver at h ⊢
  split_ifs at h ⊢ with hs
  · rw [hs]
    rfl
  rcases msRawWrite_cases alloc hs c with hc | hc
  · rw [hc] at h
    exact absurd (length_eq_zero_iff.mp (Nat.le_zero.mp h)) hs
  · exact hc.2

theorem msWrite_spec (h : (msWrite alloc f s).2.err = false) : f.err = false ∧
    (msWrite alloc f s).2.pending = [] ∧ (msWrite alloc f s).2.writing = true ∧
    (msWrite alloc f s).2.cookie.sparse = f.contents.write s := by
  unfold msWrite bufferedWrite at h ⊢
  dsimp only at h ⊢
  split_ifs at h ⊢ with h₁ h₂
  refine ⟨h, rfl, rfl, ?_⟩
  rw [deliver_sparse (Nat.le_of_not_lt h₂), deliver_sparse (Nat.le_of_not_lt h₁)]
  rfl

theorem msFflush_spec (h : (msFflush alloc f).2.err = false) : f.err = false ∧
    (msFflush alloc f).1 = true ∧ (msFflush alloc f).2.pending = [] ∧
    (msFflush alloc f).2.cookie.sparse = f.contents := by
  unfold msFflush at h ⊢
  split_ifs at h ⊢ with hp
  · exact ⟨h, rfl, rfl, (contents_eq hp).symm⟩
  · obtain ⟨herr, -, hwriting, hc⟩ := msWrite_spec h
    exact ⟨herr, hwriting, rfl, hc⟩

theorem msSeek_sparse (off : ℤ) (whence : Whence) (c : Mstream) :
    (msSeek off whence c).sparse = c.sparse.seek off whence := by
  have hseek : c.sparse.seek off whence = { c.sparse with
      pos := (newPos (whence.base c.pos c.len) off SSIZE_MAX).getD c.pos } := rfl
  rw [hseek, msSeek]
  cases newPos (whence.base c.pos c.len) off SSIZE_MAX <;> rfl

/-- One call does to the file what it does to the sparse file. -/
theorem contents_msStep (op : MemOp) (h : (msStep alloc size f op).err = false) :
    f.err = false ∧ (msStep alloc size f op).contents = f.contents.step op := by
  cases op with
  | write s =>
    simp only [msStep, msFwritex] at h ⊢
    split_ifs at h ⊢
    · obtain ⟨herr, hp, -, hc⟩ := msWrite_spec h
      exact ⟨herr, (contents_eq hp).trans hc⟩
    · exact ⟨h, (f.cookie.sparse.write_write ..).symm⟩
  | flush =>
    obtain ⟨herr, -, hp, hc⟩ := msFflush_spec h
    exact ⟨herr, (contents_eq hp).trans hc⟩
  | seek off whence =>
    simp only [msStep] at h ⊢
    have hflush : (msFflush alloc f).2.err = false := by
      split_ifs at h <;> exact h
    obtain ⟨herr, hok, hp, hc⟩ := msFflush_spec hflush
    rw [if_pos hok]
    refine ⟨herr, (contents_eq ?_).trans ?_⟩
    · exact hp
    · rw [msSeek_sparse, hc]
      rfl

theorem contents_foldl (ops : List MemOp) (f : MemFile Mstream)
    (h : (ops.foldl (msStep alloc size) f).err = false) :
    f.err = false ∧
      (ops.foldl (msStep alloc size) f).contents = ops.foldl Sparse.step f.contents := by
  induction ops generalizing f with
  | nil => exact ⟨h, rfl⟩
  | cons op ops ih =>
    obtain ⟨herr, hc⟩ := ih _ h
    obtain ⟨herr', hc'⟩ := contents_msStep op herr
    exact ⟨herr', by rw [foldl_cons, hc, hc', foldl_cons]⟩

/-- The position stays where `ms_raw_write` accepts it. -/
def Sparse.Small (a : Sparse) (ops : List MemOp) : Prop :=
  ∀ k, ((ops.take k).foldl step a).pos < (sizeLimit - 1) / 2

section

variable (halloc : ∀ n, alloc n = true)
include halloc

theorem deliver_all {c : Mstream} (h : (c.sparse.write s).pos < (sizeLimit - 1) / 2) :
    (deliver (msRawWrite alloc) s c).1 = s.length := by
  unfold deliver
  split_ifs with hs
  · rw [hs]
    rfl
  · rw [Sparse.write, if_neg hs] at h
    have hroom : ¬ (sizeLimit - 1) / 2 ≤ c.pos + s.length := Nat.not_le.mpr h
    simp [msRawWrite, hroom, halloc]

theorem msWrite_err (h : f.contents.pos < (sizeLimit - 1) / 2)
    (h' : (f.contents.write s).pos < (sizeLimit - 1) / 2) : (msWrite alloc f s).2.err = f.err := by
  have hfst := deliver_all halloc h
  have hsnd := deliver_all halloc (s := s) (c := (deliver (msRawWrite alloc) f.pending f.cookie).2)
    (by rwa [deliver_sparse (Nat.le_of_eq hfst.symm)])
  simp [msWrite, bufferedWrite, hfst, hsnd]

theorem msStep_err (op : MemOp) (h : f.contents.pos < (sizeLimit - 1) / 2)
    (h' : (f.contents.step op).pos < (sizeLimit - 1) / 2) :
    (msStep alloc size f op).err = f.err := by
  have hflush : (msFflush alloc f).2.err = f.err := by
    unfold msFflush
    split_ifs
    · rfl
    · exact msWrite_err halloc (s := []) h h
  cases op with
  | write s =>
    simp only [msStep, msFwritex]
    split_ifs
    · exact msWrite_err halloc h h'
    · rfl
  | flush => exact hflush
  | seek off whence =>
    simp only [msStep]
    split_ifs <;> exact hflush

/-- **No error without a failed allocation**, while the position stays below the limit. -/
theorem err_foldl (ops : List MemOp) (f : MemFile Mstream) (herr : f.err = false)
    (h : f.contents.Small ops) : (ops.foldl (msStep alloc size) f).err = false := by
  induction ops generalizing f with
  | nil => exact herr
  | cons op ops ih =>
    have herr' : (msStep alloc size f op).err = false :=
      (msStep_err halloc op (h 0) (h 1)).trans herr
    refine ih _ herr' fun k => ?_
    rw [(contents_msStep op herr').2]
    exact h (k + 1)

end

/-- **`open_memstream` is a sparse file**: after any calls and a flush without an error, the buffer
holds the bytes of the file and a terminator behind them, and `*sizep` is the smaller of position
and length. -/
theorem memstream_refines (alloc : ℕ → Bool) (size : ℕ) (buf : ℕ → UInt8) (ops : List MemOp)
    (h : (msStep alloc size (ops.foldl (msStep alloc size) (openMemstream buf)) .flush).err =
      false) :
    let c := (msStep alloc size (ops.foldl (msStep alloc size) (openMemstream buf)) .flush).cookie
    let a := ops.foldl Sparse.step ⟨fun _ => 0, 0, 0⟩
    c.len = a.len ∧ (∀ i < c.len, c.buf i = a.data i) ∧ c.buf c.len = 0 ∧
      c.sizep = min a.pos a.len := by
  obtain ⟨herr, -, -, hc⟩ := msFflush_spec h
  intro c a
  have hca : c.sparse = a := hc.trans (contents_foldl ops _ herr).2
  rw [← hca]
  exact ⟨rfl, fun i hi => (if_pos hi).symm, c.nul, c.sizep_eq⟩

/-- A byte, one behind a gap, and a seek back. -/
theorem memstream_refines_gap :
    let ops : List MemOp := [.write [97], .seek 1 .cur, .write [98], .seek 2 .set]
    (msStep (fun _ => true) 8192 (ops.foldl (msStep (fun _ => true) 8192)
      (openMemstream fun _ => 1)) .flush).cookie.sizep = 2 :=
  (memstream_refines (fun _ => true) 8192 (fun _ => 1) _ (by decide)).2.2.2

end Citadel.Stdio
