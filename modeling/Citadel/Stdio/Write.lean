import Citadel.Stdio.Stream
import Mathlib.Order.Basic

/-!
# Output streams are transparent

`Writable s` is the invariant of a stream that is written to: it is idle, with no write pointers, or
`[wbase, wpos)` is the part in use of its buffer.

* `stdioWrite_spec`: one run of the `writev` loop either hands over everything or stops after `j`
  bytes, and the returned count is the number of argument bytes among these.
* `fwritex_spec`, `overflow_spec`, `putc_spec`, `fflush_spec`: the same for the callers (`Accepts`).
* `output_transparent`: what the kernel has, followed by what is buffered, is what was written.
-/

namespace Citadel.Stdio

open Citadel.Lib.Window List Int Nat

/-! ## The `writev` loop -/

variable {v : List (List UInt8)} {s s' : Stream} {src : List UInt8} {k : Kernel}

theorem sysWritev_cases (k : Kernel) (s : Stream) (h : v.flatten.length ≠ 0) :
    (∃ r, r ≤ 0 ∧ k.writev s.writes ≤ 0 ∧
      sysWritev k s v = (r, { s with writes := s.writes + 1 })) ∨
    ∃ n : ℕ, 0 < n ∧ n ≤ v.flatten.length ∧ sysWritev k s v =
      ((n : ℤ), { s with sent := s.sent ++ v.flatten.take n, writes := s.writes + 1 }) := by
  unfold sysWritev
  by_cases hr : k.writev s.writes ≤ 0
  · refine .inl ⟨k.writev s.writes, hr, hr, ?_⟩
    simp only [Int.min_eq_left (show k.writev s.writes ≤ v.flatten.length by omega),
      toNat_of_nonpos hr, take_zero, append_nil]
  · refine .inr ⟨min (k.writev s.writes).toNat v.flatten.length, by omega, by omega, ?_⟩
    have hmin : min (k.writev s.writes) v.flatten.length =
        ((min (k.writev s.writes).toNat v.flatten.length : ℕ) : ℤ) := by omega
    simp only [hmin, toNat_natCast]

theorem advance_flatten :
    ∀ (v : List (List UInt8)) (r : ℕ), (advance r v).flatten = v.flatten.drop r
  | [], _ => by simp [advance]
  | b :: v, r => by
    unfold advance
    split_ifs with h
    · rw [advance_flatten v, flatten_cons, drop_append, drop_eq_nil_of_le h,
        nil_append]
    · rw [flatten_cons, flatten_cons, drop_append_of_le_length (by omega)]

/-- The buffers the loop works on: none, a rest of the argument, or a rest of the buffered bytes and
the argument. -/
def Shape (len : ℕ) (v : List (List UInt8)) : Prop :=
  v = [] ∨ (∃ c, v = [c] ∧ c.length ≤ len) ∨ ∃ b c, v = [b, c] ∧ b ≠ [] ∧ c.length = len

theorem shape_advance {len : ℕ} (hv : Shape len v) (r : ℕ) : Shape len (advance r v) := by
  have hone : ∀ (c : List UInt8) (r : ℕ), c.length ≤ len → Shape len (advance r [c]) := by
    intro c r hc
    unfold advance
    split_ifs with h
    · exact .inl rfl
    · exact .inr (.inl ⟨c.drop r, rfl, by rw [length_drop]; omega⟩)
  rcases hv with rfl | ⟨c, rfl, hc⟩ | ⟨b, c, rfl, hb, hc⟩
  · exact .inl rfl
  · exact hone c r hc
  · rw [advance]
    split_ifs with h
    · exact hone c _ hc.le
    · refine .inr (.inr ⟨b.drop r, c, rfl, ?_, hc⟩)
      rw [ne_eq, drop_eq_nil_iff]
      omega

theorem shape_count {len : ℕ} (hv : Shape len v) (h0 : v.flatten.length ≠ 0) :
    (if v.length = 2 then 0 else len - (v.headD []).length) = len - v.flatten.length := by
  rcases hv with rfl | ⟨c, rfl, hc⟩ | ⟨b, c, rfl, hb, hc⟩
  · simp at h0
  · simp
  · simp only [length_cons, length_nil, if_true, flatten_cons, flatten_nil,
      append_nil, length_append]
    omega

/-- The stream after `out` has been written and the buffer reset. -/
def written (s : Stream) (out : List UInt8) (w : ℕ) : Stream :=
  { s with sent := s.sent ++ out, writes := w, wpos := s.buf, wbase := s.buf,
           wend := s.buf + s.bufSize }

/-- The stream after a failure, when `out` has been written. -/
def broken (s : Stream) (out : List UInt8) (w : ℕ) (e : ℤ) : Stream :=
  { s with sent := s.sent ++ out, writes := w, wpos := 0, wbase := 0, wend := 0, err := true,
           errno := e }

theorem writeLoop_spec (k : Kernel) (len : ℕ) : ∀ (rem : ℕ) (v : List (List UInt8)) (s : Stream),
    v.flatten.length = rem → Shape len v →
    (∃ w, writeLoop k len rem v s = (len, written s v.flatten w)) ∨
    ((∃ n, k.writev n ≤ 0) ∧ ∃ j w e, j < rem ∧
      writeLoop k len rem v s = (len - (rem - j), broken s (v.flatten.take j) w e)) := by
  intro rem
  induction rem using Nat.strong_induction_on with
  | _ rem ih =>
    intro v s hrem hv
    rw [writeLoop]
    by_cases h0 : rem = 0
    · rw [if_pos h0]
      have hnil : v.flatten = [] := eq_nil_of_length_eq_zero (hrem.trans h0)
      exact .inl ⟨s.writes, by rw [hnil, written, append_nil]⟩
    · rw [if_neg h0]
      rcases sysWritev_cases k s (v := v) (by omega) with ⟨r, hr, hk, hw⟩ | ⟨n, hn0, hn, hw⟩
      · rw [hw]
        simp only
        rw [if_pos hr, shape_count hv (by omega), hrem]
        refine .inr ⟨⟨s.writes, hk⟩, 0, s.writes + 1, if r < 0 then -r else s.errno, by omega, ?_⟩
        rw [Nat.sub_zero, broken, take_zero, append_nil]
      · rw [hw]
        simp only [toNat_natCast]
        rw [if_neg (by omega)]
        rcases ih (rem - n) (by omega) (advance n v)
          { s with sent := s.sent ++ v.flatten.take n, writes := s.writes + 1 }
          (by rw [advance_flatten, length_drop]; omega) (shape_advance hv n) with
          ⟨w, hw⟩ | ⟨hfail, j, w, e, hj, hw⟩
        · refine .inl ⟨w, ?_⟩
          rw [hw, advance_flatten]
          simp only [written, append_assoc, take_append_drop]
        · refine .inr ⟨hfail, n + j, w, e, by omega, ?_⟩
          rw [hw, advance_flatten, Nat.sub_sub, take_add]
          simp only [broken, append_assoc]

theorem stdioWrite_spec (k : Kernel) (s : Stream) (b : List UInt8) :
    (∃ w, stdioWrite k s b = (b.length, written s (pending s ++ b) w)) ∨
    ((∃ n, k.writev n ≤ 0) ∧ ∃ j w e, j < (pending s ++ b).length ∧
      stdioWrite k s b = (j - (pending s).length, broken s ((pending s ++ b).take j) w e)) := by
  set p := pending s with hp
  have hflat : (if p.length = 0 then [b] else [p, b]).flatten = p ++ b := by
    split_ifs with h
    · rw [eq_nil_of_length_eq_zero h]; simp
    · simp
  have hshape : Shape b.length (if p.length = 0 then [b] else [p, b]) := by
    split_ifs with h
    · exact .inr (.inl ⟨b, rfl, le_rfl⟩)
    · exact .inr (.inr ⟨p, b, rfl, fun e => h (by rw [e]; rfl), rfl⟩)
  have hlen : (if p.length = 0 then [b] else [p, b]).flatten.length = p.length + b.length := by
    rw [hflat, length_append]
  have h := writeLoop_spec k b.length _ _ s hlen hshape
  rw [hflat] at h
  unfold stdioWrite
  rw [← hp]
  rcases h with ⟨w, hw⟩ | ⟨hfail, j, w, e, hj, hw⟩
  · exact .inl ⟨w, hw⟩
  · refine .inr ⟨hfail, j, w, e, by rw [length_append]; exact hj, ?_⟩
    rw [hw, show b.length - (p.length + b.length - j) = j - p.length by omega]

/-! ## The invariant -/

/-- The write pointers of a stream are null or delimit the part in use of its buffer. -/
structure Writable (s : Stream) : Prop where
  buf_pos : UNGET < s.buf
  idle_or_active : (s.wbase = 0 ∧ s.wpos = 0 ∧ s.wend = 0) ∨
    (s.wbase = s.buf ∧ s.buf ≤ s.wpos ∧ s.wpos ≤ s.wend ∧ s.wend = s.buf + s.bufSize)

theorem writable_fileInit (nord nowr ttychk : Bool) {base : ℕ} (size : ℕ) (mem : ℕ → UInt8)
    (data : List UInt8) (hb : 0 < base) : Writable (fileInit nord nowr ttychk base size mem data) :=
  ⟨Nat.lt_add_of_pos_left hb, .inl ⟨rfl, rfl, rfl⟩⟩

theorem Writable.written (hs : Writable s) (out : List UInt8) (w : ℕ) :
    Writable (written s out w) :=
  ⟨hs.buf_pos, .inr ⟨rfl, le_rfl, le_add_right _ _, rfl⟩⟩

theorem Writable.broken (hs : Writable s) (out : List UInt8) (w : ℕ) (e : ℤ) :
    Writable (broken s out w e) :=
  ⟨hs.buf_pos, .inl ⟨rfl, rfl, rfl⟩⟩

@[simp] theorem sent_written (s : Stream) (out : List UInt8) (w : ℕ) :
    (written s out w).sent = s.sent ++ out := rfl

@[simp] theorem pending_written (s : Stream) (out : List UInt8) (w : ℕ) :
    pending (written s out w) = [] := window_self

@[simp] theorem pending_broken (s : Stream) (out : List UInt8) (w : ℕ) (e : ℤ) :
    pending (broken s out w e) = [] := window_self

/-- What a call that was to write `src` did. With the count `n = src.length` it accepted all of it.
With a smaller one the stream cannot be written or a `writev` failed, nothing stays in the buffer,
the kernel got the first `j` of the buffered bytes and `src`, and `n` counts those that are of
`src`. -/
structure Accepts (k : Kernel) (s : Stream) (src : List UInt8) (n : ℕ) (s' : Stream) : Prop where
  writable : Writable s'
  nowr_eq : s'.nowr = s.nowr
  outcome : (n = src.length ∧ s'.sent ++ pending s' = s.sent ++ (pending s ++ src)) ∨
    ((s.nowr = true ∨ ∃ i, k.writev i ≤ 0) ∧ n < src.length ∧ pending s' = [] ∧
      ∃ j, s'.sent = s.sent ++ (pending s ++ src).take j ∧ n = j - (pending s).length)

theorem stdioWrite_accepts (k : Kernel) (hs : Writable s)
    (h0 : src ≠ []) : Accepts k s src (stdioWrite k s src).1 (stdioWrite k s src).2 := by
  have hpos := length_pos_of_ne_nil h0
  rcases stdioWrite_spec k s src with ⟨w, hw⟩ | ⟨hfail, j, w, e, hj, hw⟩
  · rw [hw]
    exact ⟨hs.written _ w, rfl, .inl ⟨rfl, by simp⟩⟩
  · rw [hw]
    rw [length_append] at hj
    exact ⟨hs.broken _ w e, rfl,
      .inr ⟨.inr hfail, by simp only; omega, pending_broken .., j, rfl, rfl⟩⟩

def Active (s : Stream) : Prop :=
  s.wbase = s.buf ∧ s.buf ≤ s.wpos ∧ s.wpos ≤ s.wend ∧ s.wend = s.buf + s.bufSize

theorem towrite_nowr (k : Kernel) (h : s.nowr = true) :
    ∃ m, towrite k s = (true, { s with mode := m, err := true, errno := EBADF }) := by
  unfold towrite
  exact ⟨_, if_pos h⟩

theorem towrite_ok (k : Kernel) (h : s.nowr = false) : ∃ m l t, towrite k s = (false,
      { s with mode := m, lbf := l, ttychk := t, rpos := 0, rend := 0,
               wpos := s.buf, wbase := s.buf, wend := s.buf + s.bufSize }) := by
  unfold towrite
  cases ht : s.ttychk
  · exact ⟨if s.mode = 0 then -1 else s.mode, s.lbf, s.ttychk, by simp [h, ht]⟩
  · exact ⟨if s.mode = 0 then -1 else s.mode, if !s.svb && k.isatty then 10 else s.lbf, false,
      by simp [h]⟩

/-- `!f->wend && __towrite(f)`: the first step of every output function. -/
theorem enter_spec (k : Kernel) (hs : Writable s) :
    ∃ e s', (if s.wend = 0 then towrite k s else (false, s)) = (e, s') ∧ Writable s' ∧
      s'.nowr = s.nowr ∧ s'.sent = s.sent ∧ pending s' = pending s ∧
      ((e = true ∧ s.nowr = true ∧ pending s = []) ∨ (e = false ∧ Active s')) := by
  by_cases hw : s.wend = 0
  · have hidle : s.wbase = 0 ∧ s.wpos = 0 := by
      rcases hs.idle_or_active with h | h
      · exact ⟨h.1, h.2.1⟩
      · have := hs.buf_pos
        omega
    have hpend : pending s = [] := by rw [pending, hidle.1, hidle.2, window_self]
    rw [if_pos hw]
    cases hn : s.nowr with
    | true =>
      obtain ⟨m, hm⟩ := towrite_nowr k hn
      exact ⟨true, _, hm, ⟨hs.buf_pos, hs.idle_or_active⟩, hn, rfl, rfl, .inl ⟨rfl, rfl, hpend⟩⟩
    | false =>
      obtain ⟨m, l, t, hm⟩ := towrite_ok k hn
      have hact : s.buf = s.buf ∧ s.buf ≤ s.buf ∧ s.buf ≤ s.buf + s.bufSize ∧
          s.buf + s.bufSize = s.buf + s.bufSize := ⟨rfl, le_rfl, le_add_right _ _, rfl⟩
      exact ⟨false, _, hm, ⟨hs.buf_pos, .inr hact⟩, hn, rfl, by rw [hpend]; exact window_self,
        .inr ⟨rfl, hact⟩⟩
  · rw [if_neg hw]
    refine ⟨false, s, rfl, hs, rfl, rfl, rfl, .inr ⟨rfl, ?_⟩⟩
    rcases hs.idle_or_active with h | h
    · exact absurd h.2.2 hw
    · exact h

/-! ## The output functions -/

theorem pushBytes_accepts (k : Kernel) (hb : UNGET < s.buf) (ha : Active s)
    (hfit : src.length ≤ s.wend - s.wpos) : Accepts k s src src.length (pushBytes s src) := by
  obtain ⟨h1, h2, h3, h4⟩ := ha
  refine ⟨⟨hb, .inr ⟨h1, ?_, ?_, h4⟩⟩, rfl, .inl ⟨rfl, ?_⟩⟩
  · exact le_trans h2 (le_add_right _ _)
  · show s.wpos + src.length ≤ s.wend
    omega
  · show s.sent ++ window (fill s.mem s.wpos src) s.wbase (s.wpos + src.length) = _
    rw [window_fill_append (by omega)]
    rfl

theorem pushByte_eq (s : Stream) (c : UInt8) : pushByte s c = pushBytes s [c] := by
  rw [pushByte, pushBytes, fill_singleton]
  rfl

theorem lastNewline_le (src : List UInt8) : ∀ i, lastNewline src i ≤ i
  | 0 => le_rfl
  | i + 1 => by
    unfold lastNewline
    split_ifs
    · exact le_rfl
    · exact le_trans (lastNewline_le src i) (le_succ i)

theorem Accepts.of_enter {t : Stream} {n : ℕ}
    (hn : s'.nowr = s.nowr) (hsent : s'.sent = s.sent) (hpend : pending s' = pending s)
    (h : Accepts k s' src n t) : Accepts k s src n t := by
  obtain ⟨hw, hnow, hout⟩ := h
  rw [hn, hsent, hpend] at hout
  exact ⟨hw, hnow.trans hn, hout⟩

theorem Accepts.of_nowr (hw : Writable s')
    (hn : s'.nowr = s.nowr) (hsent : s'.sent = s.sent) (hpend : pending s' = pending s)
    (hnow : s.nowr = true) (hnil : pending s = []) : Accepts k s src 0 s' := by
  refine ⟨hw, hn, ?_⟩
  rcases Nat.eq_zero_or_pos src.length with h0 | h0
  · exact .inl ⟨h0.symm, by rw [hsent, hpend, eq_nil_of_length_eq_zero h0, append_nil]⟩
  · exact .inr ⟨.inl hnow, h0, hpend.trans hnil, 0, by simp [hsent], by simp⟩

theorem overflow_spec (k : Kernel) (hs : Writable s) (c : UInt8) :
    Accepts k s [c] (if (overflow k s c).1 = none then 0 else 1) (overflow k s c).2 := by
  obtain ⟨e, s', he, hw, hn, hsent, hpend, h⟩ := enter_spec k hs
  unfold overflow
  rw [he]
  rcases h with ⟨rfl, hnow, hnil⟩ | ⟨rfl, hact⟩
  · exact .of_nowr hw hn hsent hpend hnow hnil
  · refine .of_enter hn hsent hpend ?_
    simp only [Bool.false_eq_true, if_false]
    by_cases h1 : s'.wpos ≠ s'.wend ∧ (c.toNat : ℤ) ≠ s'.lbf
    · rw [if_pos h1, pushByte_eq, if_neg (by simp)]
      refine pushBytes_accepts k hw.buf_pos hact ?_
      have := hact.2.2.1
      simp only [length_singleton]
      omega
    · rw [if_neg h1]
      have h2 := stdioWrite_accepts k hw (cons_ne_nil c [])
      have h3 : (if (if (stdioWrite k s' [c]).1 ≠ 1 then none else some c) = none then 0 else 1) =
          (stdioWrite k s' [c]).1 := by
        have hle : (stdioWrite k s' [c]).1 ≤ 1 := by
          rcases h2.outcome with h | h
          · exact h.1.le
          · exact h.2.1.le
        split_ifs with h4 h5 h5
        · omega
        · simp at h5
        · simp at h5
        · omega
      show Accepts k s' [c]
        (if (if (stdioWrite k s' [c]).1 ≠ 1 then none else some c) = none then 0 else 1) _
      rw [h3]
      exact h2

theorem putc_spec (k : Kernel) (hs : Writable s) (c : ℤ) :
    Accepts k s [uchar c] (if (putc k s c).1 = none then 0 else 1) (putc k s c).2 := by
  unfold putc
  by_cases h : ((uchar c).toNat : ℤ) ≠ s.lbf ∧ s.wpos ≠ s.wend
  · rw [if_pos h, if_neg (by simp), pushByte_eq]
    rcases hs.idle_or_active with h1 | h1
    · omega
    · refine pushBytes_accepts k hs.buf_pos h1 ?_
      simp only [length_singleton]
      omega
  · rw [if_neg h]
    exact overflow_spec k hs (uchar c)

theorem fwritex_spec (k : Kernel) (hs : Writable s) (src : List UInt8) :
    Accepts k s src (fwritex k s src).1 (fwritex k s src).2 := by
  obtain ⟨e, s', he, hw, hn, hsent, hpend, h⟩ := enter_spec k hs
  unfold fwritex
  rw [he]
  rcases h with ⟨rfl, hnow, hnil⟩ | ⟨rfl, hact⟩
  · exact .of_nowr hw hn hsent hpend hnow hnil
  refine .of_enter hn hsent hpend ?_
  simp only [Bool.false_eq_true, if_false]
  by_cases hbig : src.length > s'.wend - s'.wpos
  · rw [if_pos hbig]
    exact stdioWrite_accepts k hw fun h => by simp [h] at hbig
  rw [if_neg hbig]
  set i := if 0 ≤ s'.lbf then lastNewline src src.length else 0 with hi
  by_cases h0 : i = 0
  · rw [if_pos h0]
    exact pushBytes_accepts k hw.buf_pos hact (by omega)
  rw [if_neg h0]
  have hle : i ≤ src.length := by
    rw [hi]
    split_ifs
    · exact lastNewline_le src _
    · exact zero_le _
  have hlen : (src.take i).length = i := by rw [length_take]; omega
  rcases stdioWrite_spec k s' (src.take i) with ⟨w, hrun⟩ | ⟨hfail, j, w, e, hj, hrun⟩
  · rw [hrun, hlen]
    simp only [lt_irrefl, if_false]
    have hact' : Active (written s' (pending s' ++ src.take i) w) :=
      ⟨rfl, le_rfl, le_add_right _ _, rfl⟩
    have hfit : (src.drop i).length ≤ s'.buf + s'.bufSize - s'.buf := by
      have := hact.2
      rw [length_drop]
      omega
    obtain ⟨hw2, hn2, ⟨-, hout⟩ | ⟨-, hlt, -⟩⟩ :=
      pushBytes_accepts k (hw.written _ w).buf_pos hact' hfit
    · refine ⟨hw2, hn2, .inl ⟨by rw [length_drop]; omega, ?_⟩⟩
      rw [hout, pending_written, sent_written]
      simp
    · exact absurd hlt (lt_irrefl _)
  · rw [hrun]
    rw [length_append, hlen] at hj
    have hlt : j - (pending s').length < i := by omega
    simp only [hlt, if_true]
    refine ⟨hw.broken _ w e, rfl, .inr ⟨.inr hfail, by omega, pending_broken .., j, ?_, rfl⟩⟩
    show s'.sent ++ _ = _
    rw [take_append, take_append, take_take, min_eq_left (by omega)]

theorem fwrite_eq (k : Kernel) (s : Stream) (src : List UInt8) {size nmemb : ℕ}
    (hlim : size * nmemb < sizeLimit) (h0 : size * nmemb ≠ 0) :
    fwrite k s src size nmemb =
      (if (fwritex k s (src.take (size * nmemb))).1 = size * nmemb then nmemb
        else (fwritex k s (src.take (size * nmemb))).1 / size,
        (fwritex k s (src.take (size * nmemb))).2) := by
  unfold fwrite
  simp only
  rw [if_neg (by omega), if_neg h0]

theorem fflush_tail (k : Kernel) {t : Stream} (hb : UNGET < s.buf)
    (ht : t = if s.rpos ≠ s.rend then (sysLseekCur k s ((s.rpos : ℤ) - s.rend)).2 else s) :
    let t' := { t with wpos := 0, wbase := 0, wend := 0, rpos := 0, rend := 0 }
    Writable t' ∧ t'.nowr = s.nowr ∧ pending t' = [] ∧ t'.sent = s.sent := by
  have h : t.buf = s.buf ∧ t.nowr = s.nowr ∧ t.sent = s.sent := by
    rw [ht]
    unfold sysLseekCur
    split_ifs <;> exact ⟨rfl, rfl, rfl⟩
  exact ⟨⟨by rw [← h.1] at hb; exact hb, .inl ⟨rfl, rfl, rfl⟩⟩, h.2.1, window_self, h.2.2⟩

/-- **`fflush`**: everything is handed to the kernel and the buffer part is empty. -/
theorem fflush_spec (k : Kernel) (hs : Writable s) :
    Writable (fflush k s).2 ∧ (fflush k s).2.nowr = s.nowr ∧ pending (fflush k s).2 = [] ∧
      (((fflush k s).1 = false ∧ (fflush k s).2.sent = s.sent ++ pending s) ∨
        ((∃ i, k.writev i ≤ 0) ∧ (fflush k s).1 = true ∧
          ∃ j, (fflush k s).2.sent = s.sent ++ (pending s).take j)) := by
  unfold fflush
  by_cases hne : s.wpos ≠ s.wbase
  · rw [if_pos hne]
    rcases stdioWrite_spec k s [] with ⟨w, hrun⟩ | ⟨hfail, j, w, e, hj, hrun⟩
    · rw [hrun]
      have hbuf : s.buf ≠ 0 := by have := hs.buf_pos; omega
      rw [if_neg (by simp [written, hbuf])]
      obtain ⟨h1, h2, h3, h4⟩ := fflush_tail k (s := written s (pending s ++ []) w) hs.buf_pos rfl
      refine ⟨h1, h2, h3, .inl ⟨rfl, h4.trans ?_⟩⟩
      simp
    · rw [hrun]
      rw [if_pos ⟨hne, rfl⟩]
      refine ⟨hs.broken _ w e, rfl, pending_broken .., .inr ⟨hfail, rfl, j, ?_⟩⟩
      rw [append_nil]
      rfl
  · rw [if_neg hne, if_neg (fun h => hne h.1)]
    obtain ⟨h1, h2, h3, h4⟩ := fflush_tail k (s := s) hs.buf_pos rfl
    refine ⟨h1, h2, h3, .inl ⟨rfl, h4.trans ?_⟩⟩
    rw [pending, not_not.mp hne, window_self, append_nil]

/-! ## Runs -/

inductive OutCall where
  | putc (c : ℤ)
  | fwrite (src : List UInt8) (size nmemb : ℕ)
  | fputs (str : List UInt8)
  | fflush

def OutCall.apply (k : Kernel) (s : Stream) : OutCall → Stream
  | .putc c => (Stdio.putc k s c).2
  | .fwrite src size nmemb => (Stdio.fwrite k s src size nmemb).2
  | .fputs str => (Stdio.fputs k s str).2
  | .fflush => (Stdio.fflush k s).2

/-- The bytes a call is to write; the size of a block that overflows `size_t` is refused. -/
def OutCall.bytes : OutCall → List UInt8
  | .putc c => [uchar c]
  | .fwrite src size nmemb => if sizeLimit ≤ size * nmemb then [] else src.take (size * nmemb)
  | .fputs str => str
  | .fflush => []

/-- The kernel never fails: every `writev` transfers something. -/
def Kernel.WritesSucceed (k : Kernel) : Prop := ∀ n, 0 < k.writev n

theorem Accepts.of_succeed (hk : k.WritesSucceed) {n : ℕ}
    (hn : s.nowr = false) (h : Accepts k s src n s') :
    s'.sent ++ pending s' = s.sent ++ (pending s ++ src) := by
  obtain ⟨-, -, ⟨-, h⟩ | ⟨h | ⟨i, hi⟩, -⟩⟩ := h
  · exact h
  · rw [hn] at h
    exact absurd h (by simp)
  · exact absurd (hk i) (by omega)

theorem apply_writable (k : Kernel) (hs : Writable s) (c : OutCall) :
    Writable (c.apply k s) ∧ (c.apply k s).nowr = s.nowr := by
  cases c with
  | putc c => exact ⟨(putc_spec k hs c).writable, (putc_spec k hs c).nowr_eq⟩
  | fputs str => exact ⟨(fwritex_spec k hs str).writable, (fwritex_spec k hs str).nowr_eq⟩
  | fflush => exact ⟨(fflush_spec k hs).1, (fflush_spec k hs).2.1⟩
  | fwrite src size nmemb =>
    by_cases h1 : sizeLimit ≤ size * nmemb
    · rw [OutCall.apply, fwrite, if_pos h1]
      exact ⟨⟨hs.buf_pos, hs.idle_or_active⟩, rfl⟩
    by_cases h0 : size * nmemb = 0
    · rw [OutCall.apply, fwrite, if_neg h1, if_pos h0]
      exact ⟨hs, rfl⟩
    rw [OutCall.apply, fwrite_eq k s src (by omega) h0]
    exact ⟨(fwritex_spec k hs _).writable, (fwritex_spec k hs _).nowr_eq⟩

theorem apply_sent (hk : k.WritesSucceed) (hs : Writable s) (hn : s.nowr = false) (c : OutCall) :
    (c.apply k s).sent ++ pending (c.apply k s) = s.sent ++ (pending s ++ c.bytes) := by
  cases c with
  | putc c => exact (putc_spec k hs c).of_succeed hk hn
  | fputs str => exact (fwritex_spec k hs str).of_succeed hk hn
  | fflush =>
    obtain ⟨-, -, h3, ⟨-, h4⟩ | ⟨⟨i, hi⟩, -⟩⟩ := fflush_spec k hs
    · show (fflush k s).2.sent ++ pending (fflush k s).2 = _
      rw [h3, h4, append_nil, OutCall.bytes, append_nil]
    · exact absurd (hk i) (by omega)
  | fwrite src size nmemb =>
    rw [OutCall.bytes]
    by_cases h1 : sizeLimit ≤ size * nmemb
    · rw [OutCall.apply, fwrite, if_pos h1, if_pos h1, append_nil]
      rfl
    rw [if_neg h1]
    by_cases h0 : size * nmemb = 0
    · rw [OutCall.apply, fwrite, if_neg h1, if_pos h0, h0, take_zero, append_nil]
    rw [OutCall.apply, fwrite_eq k s src (by omega) h0]
    exact (fwritex_spec k hs _).of_succeed hk hn

/-- The stream after a sequence of calls. -/
def runOut (k : Kernel) (s : Stream) (cs : List OutCall) : Stream := cs.foldl (OutCall.apply k) s

theorem runOut_writable (k : Kernel) : ∀ (cs : List OutCall) {s : Stream}, Writable s →
    Writable (runOut k s cs)
  | [], _, hs => hs
  | c :: cs, _, hs => runOut_writable k cs (apply_writable k hs c).1

theorem runOut_sent (hk : k.WritesSucceed) : ∀ (cs : List OutCall) {s : Stream},
    Writable s → s.nowr = false →
    (runOut k s cs).sent ++ pending (runOut k s cs) =
    s.sent ++ (pending s ++ cs.flatMap OutCall.bytes)
  | [], s, _, _ => by simp [runOut]
  | c :: cs, s, hs, hn => by
    obtain ⟨h1, h2⟩ := apply_writable k hs c
    refine (runOut_sent hk cs h1 (h2.trans hn)).trans ?_
    rw [← append_assoc, apply_sent hk hs hn c]
    simp

/-- **Output streams are transparent.** Whatever the buffering mode, the size of the buffer and the
short transfers, after every sequence of calls the kernel has, followed by what is buffered, exactly
the bytes written, and one more `fflush` leaves nothing buffered. When at any point of a run a
`writev` fails inside a `fwrite`, the members that it returns are counted by the bytes `n` of that
call which it accepted: all of them, or those among the first `j` bytes that reached the kernel. -/
theorem output_transparent (k : Kernel) (s : Stream) (hs : Writable s) (cs : List OutCall) :
    (k.WritesSucceed → s.nowr = false →
      (runOut k s cs).sent ++ pending (runOut k s cs) =
        s.sent ++ (pending s ++ cs.flatMap OutCall.bytes) ∧
      pending (fflush k (runOut k s cs)).2 = [] ∧
      (fflush k (runOut k s cs)).2.sent = s.sent ++ (pending s ++ cs.flatMap OutCall.bytes)) ∧
    ∀ (src : List UInt8) (size nmemb : ℕ), src.length = size * nmemb → src.length < sizeLimit →
      src ≠ [] → ∃ n, (fwrite k (runOut k s cs) src size nmemb).1 = n / size ∧
        Accepts k (runOut k s cs) src n (fwrite k (runOut k s cs) src size nmemb).2 := by
  have hw := runOut_writable k cs hs
  constructor
  · intro hk hn
    have hsent := runOut_sent hk cs hs hn
    obtain ⟨-, -, h4, ⟨-, h5⟩ | ⟨⟨i, hi⟩, -⟩⟩ := fflush_spec k hw
    · exact ⟨hsent, h4, h5.trans hsent⟩
    · exact absurd (hk i) (by omega)
  · intro src size nmemb hlen hlim hne
    have hpos := length_pos_of_ne_nil hne
    have hsize : 0 < size := Nat.pos_of_mul_pos_right (by omega : 0 < size * nmemb)
    rw [fwrite_eq k _ src (by omega) (by omega), ← hlen, take_length]
    refine ⟨(fwritex k (runOut k s cs) src).1, ?_, fwritex_spec k hw src⟩
    simp only
    split_ifs with h1
    · rw [h1, hlen, Nat.mul_div_cancel_left nmemb hsize]
    · rfl

/-- A new stream with a buffer of two bytes, on a terminal that takes one byte at a time. -/
theorem output_transparent_tty :
    let k : Kernel := ⟨fun _ => 1, fun _ => 1, true, false, fun _ => true, fun _ => 0⟩
    let s := fileInit true false true 16 (UNGET + 2) (fun _ => 0) []
    let t := runOut k s [.fputs [97, 10, 98], .putc 99]
    t.sent ++ pending t = [97, 10, 98, 99] := by
  intro k s t
  exact ((output_transparent k s (writable_fileInit _ _ _ _ _ _ (by decide)) _).1
    (fun _ => Int.one_pos) rfl).1

end Citadel.Stdio
