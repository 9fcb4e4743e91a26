import Citadel.Lib.Window
import Mathlib.Data.Int.Basic

/-!
# Streams: the buffer and the kernel

The state of one stream of `src/stdio.c` on a file descriptor: the fields of `struct __citadel_file`
that the functions below read or write, and what the kernel and `errno` hold. A pointer into the
buffer is an address, the null pointer is `0`; the `UNGET` bytes before `buf` are the reserve for
`ungetc`.

The system calls are answered by a `Kernel`: the number of bytes that the `n`th `writev` or `read`
is willing to transfer, cut to what was asked for and to what the file still has; an answer that is
not positive is a failure of `writev`, a negative one a failure of `read`. Every sequence of short
transfers and failures is the behaviour of some kernel.

The flush of a pending prompt of `stdout` in `__uflow` changes another stream and is left out.
-/

namespace Citadel.Stdio

open Citadel.Lib.Window Function

/-- The bytes reserved before `buf` for `ungetc`. -/
def UNGET : ℕ := 8

def EBADF : ℤ := 9
def ENOMEM : ℤ := 12
def EINVAL : ℤ := 22
def ESPIPE : ℤ := 29
def EOVERFLOW : ℤ := 75

/-- `SIZE_MAX + 1`. -/
def sizeLimit : ℕ := 0x10000000000000000

def SSIZE_MAX : ℕ := 0x7fffffffffffffff

/-- `'\n'`. -/
def newline : UInt8 := 10

/-- `(unsigned char)c`. -/
def uchar (c : ℤ) : UInt8 := UInt8.ofNat (c % 256).toNat

/-- What the environment answers. -/
structure Kernel where
  /-- The result of the `n`th `writev`, before it is cut to what was asked for. -/
  writev : ℕ → ℤ
  /-- The result of the `n`th `read`, before it is cut to what was asked for and what is there. -/
  read : ℕ → ℤ
  isatty : Bool
  seekable : Bool
  /-- Whether `realloc` gives a block of this size. -/
  realloc : ℕ → Bool
  /-- What newly allocated memory contains. -/
  garbage : ℕ → UInt8

structure Stream where
  /- The flags `F_NORD`, `F_NOWR`, `F_EOF`, `F_ERR`, `F_SVB` and `F_TTYCHK`. -/
  nord : Bool
  nowr : Bool
  eof : Bool
  err : Bool
  svb : Bool
  ttychk : Bool
  rpos : ℕ
  rend : ℕ
  wpos : ℕ
  wbase : ℕ
  wend : ℕ
  buf : ℕ
  bufSize : ℕ
  /-- `'\n'` if line buffered, else `-1`. -/
  lbf : ℤ
  mode : ℤ
  /-- The memory that `buf` points into. -/
  mem : ℕ → UInt8
  errno : ℤ
  /-- The bytes handed to the kernel. -/
  sent : List UInt8
  /-- The number of `writev` calls so far. -/
  writes : ℕ
  /-- The bytes of the file that is read, and the offset in it. -/
  data : List UInt8
  off : ℕ
  /-- The number of `read` calls so far. -/
  reads : ℕ

/-- `__file_init`: a stream with a buffer of `size` bytes at `base`, on a file with the bytes
`data`; no system call has been made yet. -/
def fileInit (nord nowr ttychk : Bool) (base size : ℕ) (mem : ℕ → UInt8) (data : List UInt8) :
    Stream where
  nord := nord
  nowr := nowr
  eof := false
  err := false
  svb := false
  ttychk := ttychk
  rpos := 0
  rend := 0
  wpos := 0
  wbase := 0
  wend := 0
  buf := base + UNGET
  bufSize := size - UNGET
  lbf := -1
  mode := 0
  mem := mem
  errno := 0
  sent := []
  writes := 0
  data := data
  off := 0
  reads := 0

/-- The bytes in `[wbase, wpos)`. -/
def pending (s : Stream) : List UInt8 := window s.mem s.wbase s.wpos

/-! ## System calls -/

/-- `writev` of the buffers `v`. -/
def sysWritev (k : Kernel) (s : Stream) (v : List (List UInt8)) : ℤ × Stream :=
  let r := min (k.writev s.writes) v.flatten.length
  (r, { s with sent := s.sent ++ v.flatten.take r.toNat, writes := s.writes + 1 })

/-- `read` of at most `len` bytes: the result and the bytes. -/
def sysRead (k : Kernel) (s : Stream) (len : ℕ) : ℤ × List UInt8 × Stream :=
  let r := k.read s.reads
  let s := { s with reads := s.reads + 1 }
  if r < 0 then (r, [], s)
  else
    let got := (s.data.drop s.off).take (min r.toNat len)
    (got.length, got, { s with off := s.off + got.length })

def sysLseekCur (k : Kernel) (s : Stream) (d : ℤ) : ℤ × Stream :=
  if !k.seekable then (-1, { s with errno := ESPIPE })
  else if s.off + d < 0 then (-1, { s with errno := EINVAL })
  else (s.off + d, { s with off := (s.off + d).toNat })

/-! ## File descriptor operations -/

/-- `__stdio_read`: the bytes read, none at the end of the file or on an error. -/
def stdioRead (k : Kernel) (s : Stream) (len : ℕ) : List UInt8 × Stream :=
  let (r, got, s) := sysRead k s len
  if r > 0 then (got, s)
  else if r = 0 then ([], { s with eof := true })
  else ([], { s with err := true, errno := -r })

/-- The two inner steps after a `writev` of `r` bytes: whole buffers are skipped, the next one is
advanced. -/
def advance : ℕ → List (List UInt8) → List (List UInt8)
  | _, [] => []
  | r, b :: v => if b.length ≤ r then advance (r - b.length) v else b.drop r :: v

/-- The loop of `__stdio_write`: `rem` bytes remain in the buffers `v`, `len` is the length of the
argument. -/
def writeLoop (k : Kernel) (len rem : ℕ) (v : List (List UInt8)) (s : Stream) : ℕ × Stream :=
  if rem = 0 then (len, { s with wpos := s.buf, wbase := s.buf, wend := s.buf + s.bufSize })
  else
    let (r, s) := sysWritev k s v
    if r ≤ 0 then
      (if v.length = 2 then 0 else len - (v.headD []).length,
        { s with wpos := 0, wbase := 0, wend := 0, err := true,
                 errno := if r < 0 then -r else s.errno })
    else writeLoop k len (rem - r.toNat) (advance r.toNat v) s
termination_by rem
decreasing_by omega

/-- `__stdio_write`: the buffered bytes and then `b` are written; the number of bytes of `b` that
were is returned. -/
def stdioWrite (k : Kernel) (s : Stream) (b : List UInt8) : ℕ × Stream :=
  let p := pending s
  writeLoop k b.length (p.length + b.length) (if p.length = 0 then [b] else [p, b]) s

/-! ## Mode switching -/

/-- `__toread`; `true` is `EOF`. -/
def toread (k : Kernel) (s : Stream) : Bool × Stream :=
  let s := { s with mode := if s.mode = 0 then -1 else s.mode }
  let s := if s.wpos ≠ s.wbase then (stdioWrite k s []).2 else s
  let s := { s with wpos := 0, wbase := 0, wend := 0 }
  if s.nord then (true, { s with err := true, errno := EBADF })
  else
    let s := if s.rpos = 0 then { s with rpos := s.buf, rend := s.buf } else s
    (s.eof, s)

/-- `__towrite`; `true` is `EOF`. -/
def towrite (k : Kernel) (s : Stream) : Bool × Stream :=
  let s := { s with mode := if s.mode = 0 then -1 else s.mode }
  if s.nowr then (true, { s with err := true, errno := EBADF })
  else
    let s := if s.ttychk then
        { s with ttychk := false, lbf := if !s.svb && k.isatty then 10 else s.lbf }
      else s
    (false, { s with
      rpos := 0, rend := 0, wpos := s.buf, wbase := s.buf, wend := s.buf + s.bufSize })

/-! ## Output -/

/-- `*f->wpos++ = c`. -/
def pushByte (s : Stream) (c : UInt8) : Stream :=
  { s with mem := update s.mem s.wpos c, wpos := s.wpos + 1 }

/-- `__overflow`; `none` is `EOF`. -/
def overflow (k : Kernel) (s : Stream) (c : UInt8) : Option UInt8 × Stream :=
  let (e, s) := if s.wend = 0 then towrite k s else (false, s)
  if e then (none, s)
  else if s.wpos ≠ s.wend ∧ (c.toNat : ℤ) ≠ s.lbf then (some c, pushByte s c)
  else
    let (n, s) := stdioWrite k s [c]
    (if n ≠ 1 then none else some c, s)

/-- `putc_unlocked_`. -/
def putc (k : Kernel) (s : Stream) (c : ℤ) : Option UInt8 × Stream :=
  if ((uchar c).toNat : ℤ) ≠ s.lbf ∧ s.wpos ≠ s.wend then (some (uchar c), pushByte s (uchar c))
  else overflow k s (uchar c)

/-- `for (i = l; i && s[i - 1] != '\n'; i--)`: the length up to and including the last newline. -/
def lastNewline (src : List UInt8) : ℕ → ℕ
  | 0 => 0
  | i + 1 => if src[i]? = some newline then i + 1 else lastNewline src i

/-- `memcpy(f->wpos, s, l); f->wpos += l`. -/
def pushBytes (s : Stream) (src : List UInt8) : Stream :=
  { s with mem := fill s.mem s.wpos src, wpos := s.wpos + src.length }

def fwritex (k : Kernel) (s : Stream) (src : List UInt8) : ℕ × Stream :=
  let (e, s) := if s.wend = 0 then towrite k s else (false, s)
  if e then (0, s)
  else if src.length > s.wend - s.wpos then stdioWrite k s src
  else
    let i := if 0 ≤ s.lbf then lastNewline src src.length else 0
    if i = 0 then (src.length, pushBytes s src)
    else
      let (n, s) := stdioWrite k s (src.take i)
      if n < i then (n, s) else ((src.drop i).length + i, pushBytes s (src.drop i))

/-- `fwrite` of the `size * nmemb` bytes at `src`. -/
def fwrite (k : Kernel) (s : Stream) (src : List UInt8) (size nmemb : ℕ) : ℕ × Stream :=
  let l := size * nmemb
  if sizeLimit ≤ l then (0, { s with errno := EOVERFLOW })
  else if l = 0 then (0, s)
  else
    let (n, s) := fwritex k s (src.take l)
    (if n = l then nmemb else n / size, s)

/-- `fputs` of the bytes before the terminating zero; `false` is `EOF`. -/
def fputs (k : Kernel) (s : Stream) (str : List UInt8) : Bool × Stream :=
  let (n, s) := fwritex k s str
  (decide (n = str.length), s)

/-- `__fflush_unlocked`; `true` is `EOF`. -/
def fflush (k : Kernel) (s : Stream) : Bool × Stream :=
  let flushed := if s.wpos ≠ s.wbase then (stdioWrite k s []).2 else s
  if s.wpos ≠ s.wbase ∧ flushed.wpos = 0 then (true, flushed)
  else
    let s := if flushed.rpos ≠ flushed.rend then
        (sysLseekCur k flushed ((flushed.rpos : ℤ) - flushed.rend)).2 else flushed
    (false, { s with wpos := 0, wbase := 0, wend := 0, rpos := 0, rend := 0 })

/-! ## Input -/

/-- `__uflow`; `none` is `EOF`. -/
def uflow (k : Kernel) (s : Stream) : Option UInt8 × Stream :=
  let (e, s) := toread k s
  if e then (none, s)
  else
    let (got, s) := stdioRead k s (if s.bufSize ≠ 0 then s.bufSize else 1)
    if got = [] then (none, s)
    else
      let s := { s with mem := fill s.mem s.buf got, rpos := s.buf, rend := s.buf + got.length }
      (some (s.mem s.rpos), { s with rpos := s.rpos + 1 })

def getc (k : Kernel) (s : Stream) : Option UInt8 × Stream :=
  if s.rpos ≠ s.rend then (some (s.mem s.rpos), { s with rpos := s.rpos + 1 }) else uflow k s

def ungetc (k : Kernel) (s : Stream) (c : ℤ) : Option UInt8 × Stream :=
  if c = -1 then (none, s)
  else
    let s := if s.rpos = 0 then (toread k s).2 else s
    if s.rpos = 0 ∨ s.rpos ≤ s.buf - UNGET then (none, s)
    else
      (some (uchar c), { s with mem := update s.mem (s.rpos - 1) (uchar c),
                                rpos := s.rpos - 1, eof := false })

/-- The loop of `fread`: `l` bytes are still wanted, `d` are those stored. A round takes a byte or
fills the buffer for the next one, so twice the length bounds the number of rounds. -/
def freadLoop (k : Kernel) : ℕ → ℕ → List UInt8 → Stream → ℕ × List UInt8 × Stream
  | 0, l, d, s => (l, d, s)
  | rounds + 1, l, d, s =>
    if l = 0 then (l, d, s)
    else if s.rpos ≠ s.rend then
      let n := if s.rend - s.rpos > l then l else s.rend - s.rpos
      freadLoop k rounds (l - n) (d ++ window s.mem s.rpos (s.rpos + n))
        { s with rpos := s.rpos + n }
    else
      let (e, s) := toread k s
      if e then (l, d, s)
      else if l ≥ s.bufSize then
        let (got, s) := stdioRead k s l
        if got = [] then (l, d, s) else freadLoop k rounds (l - got.length) (d ++ got) s
      else
        let (got, s) := stdioRead k s s.bufSize
        if got = [] then (l, d, s)
        else freadLoop k rounds l d
          { s with mem := fill s.mem s.buf got, rpos := s.buf, rend := s.buf + got.length }

/-- `fread`: the number of members, and the bytes stored. -/
def fread (k : Kernel) (s : Stream) (size nmemb : ℕ) : ℕ × List UInt8 × Stream :=
  let len := size * nmemb
  if sizeLimit ≤ len then (0, [], { s with errno := EOVERFLOW })
  else if len = 0 then (0, [], s)
  else
    let (l, d, s) := freadLoop k (2 * len + 2) len [] s
    ((len - l) / size, d, s)

/-- `memchr` of a window: the index of the first `c`. -/
def memchr (w : List UInt8) (c : UInt8) : Option ℕ := w.findIdx? (· == c)

/-- The number of buffered bytes to take: up to and including the first `c`, or all. -/
def chunk (w : List UInt8) (c : UInt8) : ℕ :=
  match memchr w c with
  | some z => z + 1
  | none => w.length

/-- The loop of `fgets`: the bytes stored and `err`. Every round takes at least one byte. -/
def fgetsLoop (k : Kernel) : ℕ → ℕ → List UInt8 → Stream → List UInt8 × Bool × Stream
  | 0, _, p, s => (p, false, s)
  | rounds + 1, room, p, s =>
    if room = 0 then (p, false, s)
    else if s.rpos ≠ s.rend then
      let n := chunk (window s.mem s.rpos s.rend) newline
      let n := if n > room then room else n
      let p := p ++ window s.mem s.rpos (s.rpos + n)
      let s := { s with rpos := s.rpos + n }
      if p.getLast? = some newline then (p, false, s) else fgetsLoop k rounds (room - n) p s
    else
      match uflow k s with
      | (none, s) => (p, s.err, s)
      | (some c, s) =>
        if c = newline then (p ++ [c], false, s) else fgetsLoop k rounds (room - 1) (p ++ [c]) s

/-- `fgets`: the bytes before the terminating zero. -/
def fgets (k : Kernel) (s : Stream) (n : ℤ) : Option (List UInt8) × Stream :=
  if n ≤ 0 then (none, { s with errno := EINVAL })
  else
    let room := (n - 1).toNat
    let (p, err, s) := fgetsLoop k room room [] s
    (if err ∨ (p = [] ∧ n > 1) then none else some p, s)

/-- The caller's `*line` and `*size`. -/
structure Line where
  mem : Option (ℕ → UInt8)
  size : ℕ

/-- The block is made large enough for `m` bytes; the error is the value of `errno`. -/
def growLine (k : Kernel) (ln : Line) (m : ℕ) : Except ℤ ((ℕ → UInt8) × ℕ) :=
  match ln.mem with
  | some M => if m ≤ ln.size then .ok (M, ln.size) else grow M
  | none => grow k.garbage
where
  grow (M : ℕ → UInt8) : Except ℤ ((ℕ → UInt8) × ℕ) :=
    if m > SSIZE_MAX then .error EOVERFLOW
    else
      let m := if m < SSIZE_MAX / 2 then m + (m / 2 + 64) else m
      if k.realloc m then .ok (fun j => if j < ln.size then M j else k.garbage j, m)
      else .error ENOMEM

/-- The exits `fail` and `fail_eof` of `getdelim`. -/
def getdelimFail (ln : Line) (i : ℕ) (s : Stream) : ℤ × Line × Stream :=
  (-1, { ln with mem := ln.mem.map fun M =>
    if ln.size ≠ 0 then update M (if i < ln.size then i else 0) 0 else M }, s)

/-- The loop of `getdelim`: `i` bytes are stored. Every round but the last takes a byte from the
file. -/
def getdelimLoop (k : Kernel) (delim : ℤ) : ℕ → ℕ → Line → Stream → ℤ × Line × Stream
  | 0, i, ln, s => getdelimFail ln i s
  | rounds + 1, i, ln, s =>
    let w := window s.mem s.rpos s.rend
    let z := memchr w (uchar delim)
    let n := chunk w (uchar delim)
    match growLine k ln (i + n + 2) with
    | .error e => getdelimFail ln i { s with err := true, errno := e }
    | .ok (M, size) =>
      let M := fill M i (w.take n)
      let s := { s with rpos := s.rpos + n }
      let i := i + n
      if z.isSome then (i, ⟨some (update M i 0), size⟩, s)
      else
        match uflow k s with
        | (none, s) =>
          if i = 0 ∨ s.err then getdelimFail ⟨some M, size⟩ i s
          else (i, ⟨some (update M i 0), size⟩, s)
        | (some c, s) =>
          let M := update M i c
          let i := i + 1
          if (c.toNat : ℤ) = delim then (i, ⟨some (update M i 0), size⟩, s)
          else getdelimLoop k delim rounds i ⟨some M, size⟩ s

def getdelim (k : Kernel) (s : Stream) (ln : Line) (delim : ℤ) : ℤ × Line × Stream :=
  let ln := if ln.mem.isNone then { ln with size := 0 } else ln
  getdelimLoop k delim (s.data.length - s.off + 1) 0 ln s

end Citadel.Stdio
