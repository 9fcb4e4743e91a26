import Citadel.Stdio.Plain
import Citadel.Stdio.Write

/-!
# Input streams are transparent

`Reads s p` relates a stream to the plain list it stands for: the window `[rpos, rend)` holds the
bytes pushed back and a part of the file, and the plain list goes on with the rest of the file. A
byte pushed back more needs one place before `rpos`, and there are as many as are free of the
`UNGET` places.

* `uflow_spec`, `freadLoop_spec`, `fgetsLoop_spec`, `getdelimLoop_spec`: the loops against the list.
* `apply_in_spec`: one call; `input_transparent`: all calls of a run return what they return on the
  plain list.
-/

namespace Citadel.Stdio

open Citadel.Lib.Window Bool List Nat

/-- The stream `s` stands for the plain list `p`. -/
structure Reads (s : Stream) (p : Plain) : Prop where
  buf_pos : UNGET < s.buf
  nord_eq : s.nord = false
  err_eq : s.err = false
  idle : s.wpos = s.wbase
  eof_rest : s.eof = true → s.data.drop s.off = []
  rpos_le : s.rpos ≤ s.rend
  rend_le : s.rend ≤ s.buf + max s.bufSize 1
  reserve : (s.rpos = 0 ∧ s.rend = 0) ∨ s.buf ≤ s.rpos + p.pushed.length
  depth : p.pushed.length ≤ UNGET
  view : ∃ w, window s.mem s.rpos s.rend = p.pushed ++ w ∧ p.rest = w ++ s.data.drop s.off

theorem reads_fileInit (nowr ttychk : Bool) {base : ℕ} (size : ℕ)
    (mem : ℕ → UInt8) (data : List UInt8)
    (hb : 0 < base) : Reads (fileInit false nowr ttychk base size mem data) ⟨[], data⟩ where
  buf_pos := Nat.lt_add_of_pos_left hb
  nord_eq := rfl
  err_eq := rfl
  idle := rfl
  eof_rest h := by cases h
  rpos_le := le_rfl
  rend_le := zero_le _
  reserve := .inl ⟨rfl, rfl⟩
  depth := zero_le _
  view := ⟨[], window_self, rfl⟩

namespace Reads

variable {s : Stream} {p : Plain}

theorem of_empty (h : Reads s p) (he : s.rpos = s.rend) : p = ⟨[], s.data.drop s.off⟩ := by
  obtain ⟨w, hw, hr⟩ := h.view
  rw [he, window_self] at hw
  obtain ⟨h1, h2⟩ := append_eq_nil_iff.mp hw.symm
  rw [h2, nil_append] at hr
  cases p
  simp only at h1 hr
  rw [h1, hr]

theorem all_eq (h : Reads s p) : p.all = window s.mem s.rpos s.rend ++ s.data.drop s.off := by
  obtain ⟨w, hw, hr⟩ := h.view
  rw [Plain.all, hw, hr, append_assoc]

theorem consume (h : Reads s p) {n : ℕ} (hn : s.rpos + n ≤ s.rend) :
    window s.mem s.rpos (s.rpos + n) = p.all.take n ∧
      Reads { s with rpos := s.rpos + n } (p.drop n) := by
  have hlen : (window s.mem s.rpos s.rend).length = s.rend - s.rpos := length_window
  constructor
  · rw [h.all_eq, take_append_of_le_length (by omega), window_take n hn]
  · obtain ⟨w, hw, hr⟩ := h.view
    refine ⟨h.buf_pos, h.nord_eq, h.err_eq, h.idle, h.eof_rest, hn, h.rend_le, ?_, ?_, ?_⟩
    · rcases h.reserve with h1 | h1
      · exact .inl ⟨by simp only; omega, h1.2⟩
      · refine .inr ?_
        simp only [Plain.drop, length_drop]
        omega
    · have := h.depth
      simp only [Plain.drop, length_drop]
      omega
    · refine ⟨w.drop (n - p.pushed.length), ?_, ?_⟩
      · show window s.mem (s.rpos + n) s.rend = _
        rw [← window_drop n hn, hw, drop_append]
        rfl
      · have hle : n - p.pushed.length ≤ w.length := by
          rw [hw, length_append] at hlen
          omega
        show p.rest.drop _ = _
        rw [hr, drop_append_of_le_length hle]

end Reads

/-! ## Refilling the window -/

/-- Reads succeed until the end of the file. -/
def Kernel.ReadsSucceed (k : Kernel) : Prop := ∀ n, 0 < k.read n

variable {s : Stream} {p : Plain}

theorem toread_spec (k : Kernel) (h : Reads s p) :
    ∃ s', toread k s = (s.eof, s') ∧ Reads s' p ∧ s'.rpos ≠ 0 ∧
      (s.rpos = s.rend → s'.rpos = s'.rend) ∧ s'.eof = s.eof ∧ s'.data = s.data ∧ s'.off = s.off ∧
      s'.bufSize = s.bufSize := by
  have hbuf := h.buf_pos
  have hd := h.depth
  unfold toread
  simp only [h.idle, ne_eq, not_true_eq_false, if_false, h.nord_eq, false_eq_true]
  by_cases h0 : s.rpos = 0
  · have hz : s.rend = 0 := by
      rcases h.reserve with h1 | h1
      · exact h1.2
      · omega
    have hp := h.of_empty (h0.trans hz.symm)
    simp only [h0, if_true]
    refine ⟨_, rfl, ?_, ?_, fun _ => rfl, rfl, rfl, rfl, rfl⟩
    · subst hp
      refine ⟨hbuf, rfl, h.err_eq, rfl, h.eof_rest, le_rfl, le_add_right _ _, .inr le_rfl,
        zero_le _, [], window_self, rfl⟩
    · simp only
      omega
  · simp only [h0, if_false]
    refine ⟨_, rfl, ?_, h0, fun e => e, rfl, rfl, rfl, rfl⟩
    exact { h with buf_pos := hbuf, nord_eq := rfl, idle := rfl }

/-- What a read of the stream can do when the window is empty. -/
theorem stdioRead_spec {k : Kernel} (hk : k.ReadsSucceed) (h : Reads s p)
    (he : s.rpos = s.rend) {len : ℕ} (hlen : 0 < len) :
    (p.rest = [] ∧ ∃ s', stdioRead k s len = ([], s') ∧ Reads s' p) ∨
    ∃ n s', 0 < n ∧ n ≤ len ∧ n ≤ p.rest.length ∧ stdioRead k s len = (p.rest.take n, s') ∧
      Reads s' (p.drop n) ∧ s'.rpos = s'.rend ∧ s'.bufSize = s.bufSize := by
  have hr := hk s.reads
  have hp := h.of_empty he
  subst hp
  unfold stdioRead sysRead
  simp only [if_neg (show ¬ k.read s.reads < 0 by omega)]
  have hwin : window s.mem s.rpos s.rend = [] := by rw [he, window_self]
  by_cases hd : s.data.drop s.off = []
  · refine .inl ⟨hd, ?_⟩
    simp only [hd, take_nil, length_nil, Nat.add_zero]
    refine ⟨_, by rw [if_neg (by decide), if_pos (by decide)], ?_⟩
    exact { h with eof_rest := fun _ => hd, view := ⟨[], hwin, hd.symm⟩ }
  · have hpos := length_pos_of_ne_nil hd
    set n := min (min (k.read s.reads).toNat len) (s.data.drop s.off).length with hn
    have htake :
        (s.data.drop s.off).take (min (k.read s.reads).toNat len) = (s.data.drop s.off).take n := by
      rw [hn, take_eq_take_min]
    have hn0 : 0 < n := by omega
    have hlen' : ((s.data.drop s.off).take n).length = n := by rw [length_take]; omega
    refine .inr ⟨n, { s with reads := s.reads + 1, off := s.off + n }, hn0, by omega, by omega, ?_,
      ?_, he, rfl⟩
    · rw [htake, hlen', if_pos (by omega)]
    · refine ⟨h.buf_pos, h.nord_eq, h.err_eq, h.idle, fun e => absurd (h.eof_rest e) hd, h.rpos_le,
        h.rend_le, ?_, ?_, [], ?_, ?_⟩
      · simpa [Plain.drop] using h.reserve
      · simp [Plain.drop]
      · simpa [Plain.drop] using hwin
      · simp [Plain.drop, drop_drop]

theorem Reads.install {n : ℕ} (hp : p.pushed = []) (h : Reads s (p.drop n))
    (he : s.rpos = s.rend) (hn : n ≤ p.rest.length) (hsize : n ≤ max s.bufSize 1) :
    Reads { s with mem := fill s.mem s.buf (p.rest.take n), rpos := s.buf,
                   rend := s.buf + (p.rest.take n).length } p := by
  have hlen : (p.rest.take n).length = n := by rw [length_take]; omega
  have hdrop := h.of_empty he
  refine ⟨h.buf_pos, h.nord_eq, h.err_eq, h.idle, h.eof_rest, le_add_right _ _, ?_,
    .inr (le_add_right _ _), by rw [hp]; exact zero_le _, p.rest.take n, ?_, ?_⟩
  · simp only
    omega
  · rw [hp]
    exact window_fill
  · have hrest : p.rest.drop n = s.data.drop s.off := by
      have := congrArg Plain.rest hdrop
      simpa [Plain.drop, hp] using this
    show p.rest = p.rest.take n ++ s.data.drop s.off
    rw [← hrest, take_append_drop]

theorem uflow_spec {k : Kernel} (hk : k.ReadsSucceed) (h : Reads s p) (he : s.rpos = s.rend) :
    ∃ s', uflow k s = (p.all.head?, s') ∧ Reads s' (p.drop 1) ∧
      (p.all ≠ [] → (s'.data.drop s'.off).length < (s.data.drop s.off).length) := by
  have hp := h.of_empty he
  obtain ⟨s1, h1, hR1, -, he1, heof1, hd1, ho1, hb1⟩ := toread_spec k h
  unfold uflow
  rw [h1]
  cases heof : s.eof with
  | true =>
    rw [h.eof_rest heof] at hp
    subst hp
    exact ⟨s1, rfl, hR1, fun hne => absurd rfl hne⟩
  | false =>
    simp only [false_eq_true, if_false]
    have hlen : 0 < (if s1.bufSize ≠ 0 then s1.bufSize else 1) := by split_ifs <;> omega
    rcases stdioRead_spec hk hR1 (he1 he) hlen with ⟨hr, s2, h2, hR2⟩ | ⟨n, s2, hn0, hnl, hnr, h2,
      hR2, he2, hb2⟩
    · rw [h2]
      rw [show p = ⟨[], []⟩ by rw [hp] at hr ⊢; simpa using hr] at hR2 ⊢
      exact ⟨s2, rfl, hR2, fun hne => absurd rfl hne⟩
    · rw [h2]
      have hne : p.rest.take n ≠ [] := fun e => by
        have := congrArg length e
        rw [length_take, length_nil] at this
        omega
      rw [if_neg hne]
      have hpush : p.pushed = [] := by rw [hp]
      have hmax : n ≤ max s2.bufSize 1 := by
        rw [hb2]
        split_ifs at hnl <;> omega
      have hR3 := hR2.install hpush he2 hnr hmax
      have hlen : (p.rest.take n).length = n := by rw [length_take]; omega
      obtain ⟨h4, hR4⟩ := hR3.consume (n := 1) (by simp only; omega)
      refine ⟨_, ?_, hR4, fun _ => ?_⟩
      · rw [window_succ (lt_succ_self _), window_self] at h4
        have hhead : p.all.head? = (p.all.take 1).head? := by rw [head?_take, if_neg (by decide)]
        rw [hhead, ← h4]
        rfl
      · have h5 : (p.drop n).rest = s2.data.drop s2.off := congrArg Plain.rest (hR2.of_empty he2)
        have h6 : p.rest = s.data.drop s.off := congrArg Plain.rest hp
        show (s2.data.drop s2.off).length < (s.data.drop s.off).length
        rw [← h5, ← h6, Plain.drop, hpush, length_drop, length_nil]
        omega

/-! ## The loops -/

theorem Plain.drop_of_all_nil (hp : p.all = []) (n : ℕ) : p.drop n = p := by
  obtain ⟨h1, h2⟩ := append_eq_nil_iff.mp hp
  cases p
  simp only at h1 h2
  subst h1 h2
  simp [Plain.drop]

section Loops

variable {k : Kernel} (hk : k.ReadsSucceed)
include hk

variable {s : Stream} {p : Plain} {n room : ℕ} {acc : List UInt8}

theorem getc_spec (h : Reads s p) : ∃ s', getc k s = (p.all.head?, s') ∧ Reads s' (p.drop 1) := by
  unfold getc
  by_cases hne : s.rpos ≠ s.rend
  · have hle := h.rpos_le
    rw [if_pos hne]
    refine ⟨_, ?_, (h.consume (n := 1) (by omega)).2⟩
    rw [h.all_eq, window_succ (by omega)]
    rfl
  · rw [if_neg hne]
    obtain ⟨s', h1, h2, -⟩ := uflow_spec hk h (not_not.mp hne)
    exact ⟨s', h1, h2⟩

omit hk in
theorem Plain.take_add (p : Plain) {m : ℕ} (hm : m ≤ n) :
    p.all.take n = p.all.take m ++ (p.drop m).all.take (n - m) := by
  rw [Plain.all_drop, ← List.take_add, Nat.add_sub_cancel' hm]

/-- What the loop of `fread` is to do from here: `l` more bytes of `p`. -/
def Fetches (p : Plain) (l : ℕ) (d : List UInt8) (r : ℕ × List UInt8 × Stream) : Prop :=
  ∃ s', r = (l - (p.all.take l).length, d ++ p.all.take l, s') ∧
    Reads s' (p.drop (p.all.take l).length)

omit hk in
theorem Fetches.step {l : ℕ} {d : List UInt8} {r : ℕ × List UInt8 × Stream} (hn : n ≤ l)
    (hlen : (p.all.take n).length = n) (h : Fetches (p.drop n) (l - n) (d ++ p.all.take n) r) :
    Fetches p l d r := by
  obtain ⟨s', h1, h2⟩ := h
  have htake := p.take_add hn
  have hl : (p.all.take l).length = n + ((p.drop n).all.take (l - n)).length := by
    rw [htake, length_append, hlen]
  refine ⟨s', ?_, ?_⟩
  · rw [h1, hl, htake, append_assoc, Nat.sub_sub]
  · rwa [hl, ← Plain.drop_drop]

omit hk in
theorem Fetches.stop (hp : p.all = []) (l : ℕ) (d : List UInt8) (h : Reads s p) :
    Fetches p l d (l, d, s) :=
  ⟨s, by simp [hp], by simpa [hp] using h⟩

theorem freadLoop_spec (rounds : ℕ) :
    ∀ (l : ℕ) (d : List UInt8) {s : Stream} {p : Plain}, Reads s p →
      2 * l + (if s.rpos = s.rend then 1 else 0) < rounds →
    Fetches p l d (freadLoop k rounds l d s) := by
  induction rounds with
  | zero => intro l d s p h hr; omega
  | succ rounds ih =>
    intro l d s p h hr
    unfold freadLoop
    by_cases h0 : l = 0
    · rw [if_pos h0, h0]
      exact ⟨s, by simp, by simpa using h⟩
    rw [if_neg h0]
    by_cases hne : s.rpos ≠ s.rend
    · have hle := h.rpos_le
      rw [if_neg hne] at hr
      rw [if_pos hne]
      set n := if s.rend - s.rpos > l then l else s.rend - s.rpos with hn
      have hn1 : 0 < n := by rw [hn]; split_ifs <;> omega
      have hn2 : n ≤ l := by rw [hn]; split_ifs <;> omega
      have hn3 : s.rpos + n ≤ s.rend := by rw [hn]; split_ifs <;> omega
      obtain ⟨hw, hR⟩ := h.consume hn3
      have hlen : (p.all.take n).length = n := by
        rw [← hw, length_window]
        omega
      have h1 := ih (l - n) (d ++ window s.mem s.rpos (s.rpos + n)) hR
        (by split_ifs <;> omega)
      rw [hw] at h1
      simp only [hw]
      exact .step hn2 hlen h1
    rw [if_neg hne]
    have he := not_not.mp hne
    have hp := h.of_empty he
    have hall : p.all = p.rest := by rw [hp]; rfl
    have hpush : p.pushed = [] := by rw [hp]
    rw [if_pos he] at hr
    obtain ⟨s1, h1, hR1, -, he1, -⟩ := toread_spec k h
    rw [h1]
    cases heof : s.eof with
    | true =>
      simp only [if_true]
      exact .stop (by rw [hall, hp]; exact h.eof_rest heof) l d hR1
    | false =>
      simp only [false_eq_true, if_false]
      by_cases hbig : l ≥ s1.bufSize
      · rw [if_pos hbig]
        rcases stdioRead_spec hk hR1 (he1 he) (Nat.pos_of_ne_zero h0) with
          ⟨hrest, s2, h2, hR2⟩ | ⟨n, s2, hn0, hnl, hnr, h2, hR2, he2, -⟩
        · rw [h2]
          exact .stop (hall.trans hrest) l d hR2
        · have hlen : (p.rest.take n).length = n := by rw [length_take]; omega
          have h3 := ih (l - n) (d ++ p.rest.take n) hR2 (by rw [if_pos he2]; omega)
          rw [h2]
          simp only [hlen]
          rw [if_neg fun e => by rw [e, length_nil] at hlen; omega]
          rw [← hall] at h3 hlen ⊢
          exact .step hnl hlen h3
      · rw [if_neg hbig]
        rcases stdioRead_spec hk hR1 (he1 he) (show 0 < s1.bufSize by omega) with
          ⟨hrest, s2, h2, hR2⟩ | ⟨n, s2, hn0, hnl, hnr, h2, hR2, he2, hb2⟩
        · rw [h2]
          exact .stop (hall.trans hrest) l d hR2
        · have hlen : (p.rest.take n).length = n := by rw [length_take]; omega
          have hR3 := hR2.install hpush he2 hnr (by omega)
          rw [h2]
          simp only
          rw [if_neg fun e => by rw [e, length_nil] at hlen; omega]
          refine ih l d hR3 ?_
          simp only [hlen]
          rw [if_neg (by omega)]
          omega

/-- What the loop of `fgets` is to do from here: the rest of the line, but no more than `room`. -/
def Gets (p : Plain) (room : ℕ) (acc : List UInt8) (r : List UInt8 × Bool × Stream) : Prop :=
  ∃ s', r = (acc ++ (upTo newline p.all).take room, false, s') ∧
    Reads s' (p.drop ((upTo newline p.all).take room).length)

omit hk in
theorem Gets.step {r : List UInt8 × Bool × Stream}
    (hn : n ≤ room) (hlen : (p.all.take n).length = n) (hnl : newline ∉ p.all.take n)
    (h : Gets (p.drop n) (room - n) (acc ++ p.all.take n) r) : Gets p room acc r := by
  obtain ⟨s', h1, h2⟩ := h
  have hup : (upTo newline p.all).take room =
      p.all.take n ++ (upTo newline (p.drop n).all).take (room - n) := by
    have h3 := upTo_append_of_notMem (p.all.drop n) hnl
    rw [take_append_drop, ← Plain.all_drop] at h3
    rw [h3, take_append, hlen, take_of_length_le (by rw [hlen]; exact hn)]
  refine ⟨s', ?_, ?_⟩
  · rw [h1, hup, append_assoc]
  · rw [hup, length_append, hlen, ← Plain.drop_drop]
    exact h2

omit hk in
theorem Gets.done {ch : List UInt8} (hup : (upTo newline p.all).take room = ch)
    (h : Reads s (p.drop ch.length)) : Gets p room acc (acc ++ ch, false, s) :=
  ⟨s, by rw [hup], by rw [hup]; exact h⟩

omit hk in
theorem Gets.nothing (hup : (upTo newline p.all).take room = []) (h : Reads s p) :
    Gets p room acc (acc, false, s) :=
  ⟨s, by rw [hup, append_nil], by rw [hup]; simpa using h⟩

theorem fgetsLoop_spec (rounds : ℕ) : ∀ (room : ℕ) (acc : List UInt8) {s : Stream} {p : Plain},
    Reads s p → room ≤ rounds → Gets p room acc (fgetsLoop k rounds room acc s) := by
  induction rounds with
  | zero =>
    intro room acc s p h hr
    exact .nothing (by rw [le_zero.mp hr, take_zero]) h
  | succ rounds ih =>
    intro room acc s p h hr
    unfold fgetsLoop
    by_cases h0 : room = 0
    · rw [if_pos h0]
      exact .nothing (by rw [h0, take_zero]) h
    rw [if_neg h0]
    by_cases hne : s.rpos ≠ s.rend
    · have hle := h.rpos_le
      rw [if_pos hne]
      simp only
      have hall := h.all_eq
      have hwl : (window s.mem s.rpos s.rend).length = s.rend - s.rpos := length_window
      generalize hw : window s.mem s.rpos s.rend = w at hall hwl ⊢
      have hchunk := chunk_le newline w
      have hpos : 0 < chunk w newline := by
        rw [← length_upTo]
        exact length_pos_of_ne_nil fun e => by
          rw [upTo_eq_nil.mp e, length_nil] at hwl
          omega
      generalize hn : (if chunk w newline > room then room else chunk w newline) = n
      have hn1 : 0 < n := by rw [← hn]; split_ifs <;> omega
      have hn2 : n ≤ room := by rw [← hn]; split_ifs <;> omega
      have hn3 : s.rpos + n ≤ s.rend := by rw [← hn]; split_ifs <;> omega
      obtain ⟨htake, hR⟩ := h.consume hn3
      have hlen : (p.all.take n).length = n := by
        rw [← htake, length_window]
        omega
      have hch : p.all.take n = (upTo newline w).take room := by
        rw [← take_chunk, take_take, hall, take_append_of_le_length (by omega)]
        congr 1
        rw [← hn]
        split_ifs <;> omega
      rw [htake]
      rcases take_upTo_cases newline w room with hnl | ⟨a, ha, h1, h2⟩
      · rw [← hch] at hnl
        rw [if_neg]
        · exact .step hn2 hlen hnl (ih (room - n) _ hR (by omega))
        · intro hlast
          rw [getLast?_append_of_ne_nil _ (ne_nil_of_length_pos (hlen.symm ▸ hn1))] at hlast
          exact hnl (mem_of_getLast? hlast)
      · rw [← hch] at h1
        rw [if_pos (by rw [h1]; simp)]
        have hup : upTo newline p.all = p.all.take n := by
          have hmem : newline ∈ w := (upTo_isPrefix newline w).subset (by rw [h2]; simp)
          rw [hall, upTo_append_of_mem _ hmem, h2, ← h1, hall]
        refine .done ?_ (by rw [hlen]; exact hR)
        rw [hup, take_of_length_le (by omega)]
    · rw [if_neg hne]
      obtain ⟨s', h1, hR, -⟩ := uflow_spec hk h (not_not.mp hne)
      rw [h1]
      cases hall : p.all with
      | nil =>
        simp only [head?_nil]
        rw [hR.err_eq]
        rw [Plain.drop_of_all_nil hall] at hR
        exact .nothing (by rw [hall, upTo, take_nil]) hR
      | cons c l =>
        have htake : p.all.take 1 = [c] := by rw [hall]; rfl
        simp only [head?_cons]
        by_cases hc : c = newline
        · rw [if_pos hc]
          refine .done ?_ hR
          rw [hall, upTo, if_pos hc, take_of_length_le]
          simp only [length_singleton]
          omega
        · rw [if_neg hc]
          refine .step (n := 1) (by omega) (by rw [htake]; rfl) ?_ ?_
          · rw [htake]
            simpa using Ne.symm hc
          · rw [htake]
            exact ih (room - 1) (acc ++ [c]) hR (by omega)

end Loops

end Citadel.Stdio
