import Citadel.Stdio.Read

/-!
# Runs of the input functions

`getdelim` and `ungetc`, each input function as a call, and whole sequences of calls: every call
returns what it returns on the plain list of bytes (`apply_in_spec`, `input_transparent`).
-/

namespace Citadel.Stdio

open Citadel.Lib.Window List Function

/-! ## `getdelim` -/

theorem uchar_toNat (d : UInt8) : uchar (d.toNat : ℤ) = d := by
  have hlt := d.toNat_lt
  have h : ((d.toNat : ℤ) % 256).toNat = d.toNat := by omega
  rw [uchar, h, UInt8.ofNat_toNat]

/-- The bytes `acc` are stored in the caller's line. -/
structure Stored (ln : Line) (acc : List UInt8) : Prop where
  fits : acc.length ≤ ln.size
  null : ln.mem = none → acc = []
  bytes : ∀ M, ln.mem = some M → window M 0 acc.length = acc

/-- Memory is available for every line. -/
def Kernel.Allocates (k : Kernel) : Prop := ∀ m, k.realloc m = true

variable {k : Kernel} {acc : List UInt8} {d : UInt8} {p : Plain} {s : Stream}

theorem growLine_spec (hr : k.Allocates) {ln : Line} (h : Stored ln acc)
    {m : ℕ} (hm : m ≤ SSIZE_MAX) :
    ∃ M size, growLine k ln m = .ok (M, size) ∧ m ≤ size ∧ window M 0 acc.length = acc := by
  have hgrow : ∀ M : ℕ → UInt8, (∀ j < acc.length, ln.size ≤ j ∨ acc[j]? = some (M j)) →
      ∃ M' size, growLine.grow k ln m M = .ok (M', size) ∧ m ≤ size ∧
      window M' 0 acc.length = acc := by
    intro M hM
    unfold growLine.grow
    rw [if_neg (by omega)]
    simp only [hr _, if_true]
    refine ⟨_, _, rfl, by split_ifs <;> omega, ?_⟩
    refine ext_getElem (by simp) fun j h1 h2 => ?_
    have hfit := h.fits
    have hj : j < ln.size := by omega
    rcases hM j h2 with h3 | h3
    · omega
    · rw [List.getElem?_eq_getElem h2, Option.some_inj] at h3
      simp [window, hj, h3]
  unfold growLine
  cases hmem : ln.mem with
  | none =>
    simp only
    exact hgrow _ (by rw [h.null hmem]; intro j hj; simp at hj)
  | some M =>
    simp only
    have hb := h.bytes M hmem
    split_ifs with hsize
    · exact ⟨M, ln.size, rfl, hsize, hb⟩
    · refine hgrow M fun j hj => .inr ?_
      rw [← hb]
      simp [window, hj]

/-- What a call of `getdelim` returns: the count and the line with its terminating zero. -/
def lineOf (r : ℤ × Line × Stream) : InResult :=
  .line r.1 (window (r.2.1.mem.getD fun _ => 0) 0 (r.1 + 1).toNat)

/-- What the loop of `getdelim` is to do from here, when `acc` is stored. -/
def Delims (d : UInt8) (p : Plain) (acc : List UInt8) (r : ℤ × Line × Stream) : Prop :=
  (lineOf r = if acc ++ upTo d p.all = [] then .line (-1) []
    else .line (acc ++ upTo d p.all).length (acc ++ upTo d p.all ++ [0])) ∧
  Reads r.2.2 (p.drop (upTo d p.all).length)

theorem Delims.step {n : ℕ} {r : ℤ × Line × Stream}
    (hlen : (p.all.take n).length = n) (hd : d ∉ p.all.take n)
    (h : Delims d (p.drop n) (acc ++ p.all.take n) r) : Delims d p acc r := by
  have hup : upTo d p.all = p.all.take n ++ upTo d (p.drop n).all := by
    have h3 := upTo_append_of_notMem (p.all.drop n) hd
    rwa [take_append_drop, ← Plain.all_drop] at h3
  obtain ⟨h1, h2⟩ := h
  refine ⟨?_, ?_⟩
  · rw [h1, hup, append_assoc]
  · rw [hup, length_append, hlen, ← Plain.drop_drop]
    exact h2

theorem Delims.finish {t : List UInt8} (ht : upTo d p.all = t)
    (hne : acc ++ t ≠ []) {M : ℕ → UInt8} {i : ℕ} (hi : (acc ++ t).length = i)
    (hM : window M 0 i = acc ++ t) (size : ℕ) (h : Reads s (p.drop t.length)) :
    Delims d p acc (i, ⟨some (update M i 0), size⟩, s) := by
  refine ⟨?_, by rw [ht]; exact h⟩
  rw [ht, if_neg hne, lineOf, hi, ← hM]
  congr 1
  exact window_update_append M (Nat.zero_le i) 0

theorem Delims.nothing (hp : p.all = []) (ln : Line) (i : ℕ)
    (h : Reads s p) : Delims d p [] (getdelimFail ln i s) := by
  refine ⟨?_, ?_⟩
  · rw [hp]
    rfl
  · show Reads s _
    rw [hp]
    simpa [upTo] using h

theorem getdelimLoop_spec (hk : k.ReadsSucceed) (hr : k.Allocates) (d : UInt8) (rounds : ℕ) :
    ∀ (acc : List UInt8) {ln : Line} {s : Stream} {p : Plain}, Reads s p → Stored ln acc →
      (s.data.drop s.off).length < rounds → acc.length + p.all.length + 2 ≤ SSIZE_MAX →
      Delims d p acc (getdelimLoop k d.toNat rounds acc.length ln s) := by
  induction rounds with
  | zero => intro acc ln s p _ _ hlt; omega
  | succ rounds ih =>
    intro acc ln s p h hS hlt hmax
    have hall := h.all_eq
    have hle := h.rpos_le
    have hwl : (window s.mem s.rpos s.rend).length = s.rend - s.rpos := length_window
    unfold getdelimLoop
    simp only [uchar_toNat]
    generalize hw : window s.mem s.rpos s.rend = w at hall hwl ⊢
    have hchunk := chunk_le d w
    have hup := take_chunk d w
    have hulen := length_upTo d w
    generalize chunk w d = n at hchunk hup hulen ⊢
    have halllen : w.length ≤ p.all.length := by rw [hall, length_append]; omega
    obtain ⟨M, size, hgrow, hsize, hM⟩ := growLine_spec hr hS (m := acc.length + n + 2) (by omega)
    obtain ⟨htake, hR⟩ := h.consume (n := n) (by omega)
    have hpt : p.all.take n = upTo d w := by
      rw [hall, take_append_of_le_length hchunk, hup]
    rw [hgrow]
    simp only [hup]
    have hM1 : window (fill M acc.length (upTo d w)) 0 (acc.length + n) = acc ++ upTo d w := by
      rw [← hulen, window_fill_append (Nat.zero_le _), hM]
    by_cases hmem : d ∈ w
    · rw [if_pos (mem_of_memchr.mpr hmem)]
      have hne : upTo d w ≠ [] := fun e => by
        rw [upTo_eq_nil.mp e] at hmem
        simp at hmem
      refine .finish (t := upTo d w) ?_ (by simp [hne]) (by rw [length_append, hulen]) hM1 size
        (by rw [hulen]; exact hR)
      rw [hall, upTo_append_of_mem _ hmem]
    · rw [if_neg (fun e => hmem (mem_of_memchr.mp e))]
      have hself := upTo_eq_self hmem
      rw [hself] at hpt hM1 hulen hup ⊢
      have hemp : s.rpos + n = s.rend := by omega
      have hlen : (p.all.take n).length = n := by rw [hpt, hulen]
      refine .step hlen (by rw [hpt]; exact hmem) ?_
      rw [hpt]
      obtain ⟨s', h1, hR1, hprog⟩ := uflow_spec hk hR hemp
      rw [h1]
      have haw : (acc ++ w).length = acc.length + n := by rw [length_append, hulen]
      cases hrest : (p.drop n).all with
      | nil =>
        simp only [List.head?_nil]
        rw [Plain.drop_of_all_nil hrest] at hR1
        rw [hR1.err_eq]
        by_cases h0 : acc.length + n = 0
        · rw [if_pos (.inl h0)]
          have hnil : acc ++ w = [] := eq_nil_of_length_eq_zero (by rw [haw]; exact h0)
          rw [hnil]
          exact .nothing hrest _ _ hR1
        · rw [if_neg (by rintro (e | e); exacts [h0 e, Bool.false_ne_true e])]
          have hnil : upTo d (p.drop n).all = [] := by rw [hrest, upTo]
          refine .finish hnil ?_ (by rw [append_nil, haw]) (by rw [append_nil, hM1]) size
            (by simpa using hR1)
          rw [append_nil]
          exact ne_nil_of_length_pos (by omega)
      | cons c l =>
        simp only [List.head?_cons]
        have hM2 := window_update_append (fill M acc.length w) (Nat.zero_le (acc.length + n)) c
        rw [hM1] at hM2
        have haw1 : (acc ++ w ++ [c]).length = acc.length + n + 1 := by
          rw [length_append, haw, length_singleton]
        have htake1 : (p.drop n).all.take 1 = [c] := by rw [hrest]; rfl
        by_cases hc : c = d
        · rw [if_pos (by rw [hc])]
          refine .finish (t := [c]) (by rw [hrest, upTo, if_pos hc]) (by simp) haw1 hM2 size hR1
        · rw [if_neg (fun e => hc (UInt8.toNat_inj.mp (by exact_mod_cast e)))]
          refine Delims.step (n := 1) (by rw [htake1]; rfl)
            (by rw [htake1]; simpa using Ne.symm hc) ?_
          rw [htake1, ← haw1]
          refine ih (acc ++ w ++ [c]) hR1 ⟨?_, fun e => by simp at e, ?_⟩ ?_ ?_
          · rw [haw1]
            simp only
            omega
          · intro M' hM'
            cases hM'
            rw [haw1]
            exact hM2
          · have := hprog (by rw [hrest]; simp)
            simp only at this
            omega
          · have h2 := congrArg List.length hrest
            rw [Plain.all_drop, length_drop, length_cons] at h2
            rw [haw1, Plain.all_drop, Plain.all_drop, length_drop, length_drop]
            omega

theorem getdelim_spec (hk : k.ReadsSucceed) (hr : k.Allocates)
    (h : Reads s p) (hmax : p.all.length + 2 ≤ SSIZE_MAX) (ln : Line) (d : UInt8) :
    Delims d p [] (getdelim k s ln d.toNat) := by
  unfold getdelim
  refine getdelimLoop_spec hk hr d _ [] h ⟨Nat.zero_le _, fun _ => rfl, fun M _ => window_self⟩ ?_
    (by simpa using hmax)
  rw [length_drop]
  omega

/-! ## `ungetc` -/

/-- **`ungetc`** succeeds while there is a place in the reserve. -/
theorem ungetc_spec (k : Kernel) (h : Reads s p) {c : ℤ} (hc : c ≠ -1)
    (hd : p.pushed.length < UNGET) :
    ∃ s', ungetc k s c = (some (uchar c), s') ∧
      Reads s' { p with pushed := uchar c :: p.pushed } := by
  obtain ⟨s1, hs1, hR, h0⟩ : ∃ s1, (if s.rpos = 0 then (toread k s).2 else s) = s1 ∧ Reads s1 p ∧
      s1.rpos ≠ 0 := by
    by_cases h0 : s.rpos = 0
    · obtain ⟨s1, h1, hR, hne, -⟩ := toread_spec k h
      exact ⟨s1, by rw [if_pos h0, h1], hR, hne⟩
    · exact ⟨s, by rw [if_neg h0], h, h0⟩
  unfold ungetc
  rw [if_neg hc]
  simp only [hs1]
  have hbuf := hR.buf_pos
  have hle := hR.rpos_le
  have hplace : s1.buf ≤ s1.rpos + p.pushed.length := by
    rcases hR.reserve with h1 | h1
    · exact absurd h1.1 h0
    · exact h1
  rw [if_neg (by omega)]
  refine ⟨_, rfl, ?_⟩
  obtain ⟨w, hw, hrest⟩ := hR.view
  refine ⟨hbuf, hR.nord_eq, hR.err_eq, hR.idle, Bool.noConfusion, ?_, hR.rend_le, .inr ?_, ?_, w,
    ?_, hrest⟩
  · exact le_trans (Nat.sub_le _ _) hle
  · simp only [length_cons]
    omega
  · simp only [length_cons]
    omega
  · show window (update s1.mem (s1.rpos - 1) (uchar c)) (s1.rpos - 1) s1.rend = _
    rw [window_succ (by omega), update_self, show s1.rpos - 1 + 1 = s1.rpos by omega,
      ← fill_singleton, window_fill_of_disjoint (.inr (by simp only [length_singleton]; omega)), hw]
    rfl

/-! ## Runs -/

/-- A call on a stream: what it returns, and the stream afterwards. -/
def InCall.apply (k : Kernel) (s : Stream) : InCall → InResult × Stream
  | .getc => (.char (Stdio.getc k s).1, (Stdio.getc k s).2)
  | .ungetc c => (.char (Stdio.ungetc k s c).1, (Stdio.ungetc k s c).2)
  | .fread size nmemb =>
    (.block (Stdio.fread k s size nmemb).1 (Stdio.fread k s size nmemb).2.1,
      (Stdio.fread k s size nmemb).2.2)
  | .fgets n => (.text (Stdio.fgets k s n).1, (Stdio.fgets k s n).2)
  | .getdelim ln d => (lineOf (Stdio.getdelim k s ln d.toNat), (Stdio.getdelim k s ln d.toNat).2.2)

theorem Plain.length_rest_apply (p : Plain) (c : InCall) :
    (p.apply c).2.rest.length ≤ p.rest.length := by
  have hdrop : ∀ n, (p.drop n).rest.length ≤ p.rest.length := fun n => by
    simp only [Plain.drop, length_drop]
    omega
  cases c with
  | getc => exact hdrop 1
  | ungetc c =>
    simp only [Plain.apply]
    split_ifs <;> exact le_rfl
  | fread size nmemb =>
    simp only [Plain.apply]
    split_ifs
    · exact le_rfl
    · exact hdrop _
  | fgets n =>
    simp only [Plain.apply]
    split_ifs
    · exact le_rfl
    · exact hdrop _
    · exact hdrop _
  | getdelim ln d => exact hdrop _

/-- The bytes of the file and of the reserve fit a line. -/
def Plain.Fits (p : Plain) : Prop := p.rest.length + UNGET + 2 ≤ SSIZE_MAX

/-- **One call** returns what it returns on the plain list. -/
theorem apply_in_spec (hk : k.ReadsSucceed) (hr : k.Allocates)
    (h : Reads s p) (hfits : p.Fits) (c : InCall) (hd : (p.apply c).2.pushed.length ≤ UNGET) :
    (c.apply k s).1 = (p.apply c).1 ∧ Reads (c.apply k s).2 (p.apply c).2 := by
  cases c with
  | getc =>
    obtain ⟨s', h1, h2⟩ := getc_spec hk h
    rw [InCall.apply, h1]
    exact ⟨rfl, h2⟩
  | ungetc c =>
    by_cases hc : c = -1
    · rw [InCall.apply, ungetc, if_pos hc, Plain.apply, if_pos hc]
      exact ⟨rfl, h⟩
    · rw [Plain.apply, if_neg hc] at hd ⊢
      obtain ⟨s', h1, h2⟩ := ungetc_spec k h hc hd
      rw [InCall.apply, h1]
      exact ⟨rfl, h2⟩
  | fread size nmemb =>
    simp only [InCall.apply, Plain.apply, fread]
    by_cases h1 : sizeLimit ≤ size * nmemb
    · rw [if_pos h1, if_pos h1]
      exact ⟨rfl, { h with }⟩
    rw [if_neg h1, if_neg h1]
    by_cases h0 : size * nmemb = 0
    · rw [if_pos h0, h0]
      simpa using h
    · rw [if_neg h0]
      obtain ⟨s', h2, h3⟩ := freadLoop_spec hk (2 * (size * nmemb) + 2) (size * nmemb) [] h
        (by split_ifs <;> omega)
      rw [h2]
      have hle : (p.all.take (size * nmemb)).length ≤ size * nmemb := by
        rw [length_take]
        omega
      refine ⟨?_, h3⟩
      simp only [nil_append, Nat.sub_sub_self hle]
  | fgets n =>
    simp only [InCall.apply, Plain.apply, fgets]
    by_cases h0 : n ≤ 0
    · rw [if_pos h0, if_pos h0]
      exact ⟨rfl, { h with }⟩
    · rw [if_neg h0, if_neg h0]
      obtain ⟨s', h2, h3⟩ := fgetsLoop_spec hk (n - 1).toNat (n - 1).toNat [] h le_rfl
      rw [h2]
      refine ⟨?_, h3⟩
      simp only [nil_append, Bool.false_eq_true, false_or]
  | getdelim ln d =>
    have hmax : p.all.length + 2 ≤ SSIZE_MAX := by
      have := h.depth
      rw [Plain.all, length_append]
      unfold Plain.Fits at hfits
      omega
    obtain ⟨h1, h2⟩ := getdelim_spec hk hr h hmax ln d
    exact ⟨h1, h2⟩

/-- The results of a sequence of calls on a stream. -/
def runIn (k : Kernel) : Stream → List InCall → List InResult
  | _, [] => []
  | s, c :: cs => (c.apply k s).1 :: runIn k (c.apply k s).2 cs

/-- **Input streams are transparent.** Whatever the size of the buffer and the chunks in which the
file arrives, a sequence of calls that never has more than `UNGET` bytes pushed back returns what it
returns on the plain list of bytes. -/
theorem input_transparent {k : Kernel} (hk : k.ReadsSucceed) (hr : k.Allocates) :
    ∀ (cs : List InCall) {s : Stream} {p : Plain}, Reads s p → p.Fits → Shallow p cs →
      runIn k s cs = p.run cs
  | [], _, _, _, _, _ => rfl
  | c :: cs, s, p, h, hfits, hsh => by
    obtain ⟨h1, h2⟩ := apply_in_spec hk hr h hfits c hsh.1
    have hfits' : (p.apply c).2.Fits := by
      have := p.length_rest_apply c
      unfold Plain.Fits at hfits ⊢
      omega
    rw [runIn, Plain.run, h1, input_transparent hk hr cs h2 hfits' hsh.2]

/-- A file that arrives one byte at a time, through a buffer of two bytes. -/
theorem input_transparent_bytewise :
    let k : Kernel := ⟨fun _ => 1, fun _ => 1, false, true, fun _ => true, fun _ => 0⟩
    let s := fileInit false true false 16 (UNGET + 2) (fun _ => 0) [97, 98, 10, 99]
    runIn k s [.getc, .ungetc 120, .fgets 10, .fread 1 5, .getc] =
      [.char (some 97), .char (some 120), .text (some [120, 98, 10]), .block 1 [99],
        .char none] := by
  intro k s
  have hR : Reads s ⟨[], [97, 98, 10, 99]⟩ := reads_fileInit _ _ _ _ _ (by decide)
  exact input_transparent (fun _ => Int.one_pos) (fun _ => rfl) _ hR (by unfold Plain.Fits; decide)
    ⟨by decide, by decide, by decide, by decide, by decide, trivial⟩

end Citadel.Stdio
