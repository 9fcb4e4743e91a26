import Citadel.Stdio.Stream

/-!
# Reading from a plain list of bytes

What an input stream is for: the bytes of the file in order, with the bytes pushed back on a stack
in front of them. `Plain.apply` is the meaning of each call on such a list; it knows nothing of
buffers, of system calls and of their chunks.

`upTo c l` is the part of `l` up to and including the first `c`, the unit that `fgets` and
`getdelim` read.
-/

namespace Citadel.Stdio

open Citadel.Lib.Window

/-! ## Delimited prefixes -/

/-- The part of a list up to and including the first `c`. -/
def upTo (c : UInt8) : List UInt8 → List UInt8
  | [] => []
  | x :: l => if x = c then [x] else x :: upTo c l

variable {c : UInt8}

@[simp] theorem upTo_nil : upTo c [] = [] := rfl

theorem upTo_cons (x : UInt8) (l : List UInt8) :
    upTo c (x :: l) = if x = c then [x] else x :: upTo c l := rfl

theorem upTo_append_of_notMem : ∀ {a : List UInt8} (b : List UInt8), c ∉ a →
    upTo c (a ++ b) = a ++ upTo c b
  | [], _, _ => rfl
  | x :: a, b, h => by
    rw [List.mem_cons, not_or] at h
    rw [List.cons_append, upTo_cons, if_neg (Ne.symm h.1), upTo_append_of_notMem b h.2,
      List.cons_append]

theorem upTo_append_of_mem : ∀ {a : List UInt8} (b : List UInt8), c ∈ a → upTo c (a ++ b) = upTo c a
  | x :: a, b, h => by
    rw [List.cons_append, upTo_cons, upTo_cons]
    split_ifs with hx
    · rfl
    · rw [upTo_append_of_mem b ((List.mem_cons.mp h).resolve_left (Ne.symm hx))]

theorem upTo_eq_self {a : List UInt8} (h : c ∉ a) : upTo c a = a := by
  have := upTo_append_of_notMem [] h
  rwa [upTo_nil, List.append_nil] at this

theorem upTo_isPrefix (c : UInt8) : ∀ l : List UInt8, upTo c l <+: l
  | [] => List.prefix_rfl
  | x :: l => by
    rw [upTo_cons]
    split_ifs
    · exact List.prefix_append [x] l
    · exact List.prefix_cons_inj x |>.mpr (upTo_isPrefix c l)

theorem take_upTo_cases (c : UInt8) : ∀ (l : List UInt8) (n : ℕ),
    c ∉ (upTo c l).take n ∨
      ∃ a, c ∉ a ∧ (upTo c l).take n = a ++ [c] ∧ upTo c l = a ++ [c]
  | [], n | x :: l, 0 => by simp
  | x :: l, n + 1 => by
    rw [upTo_cons]
    split_ifs with h
    · subst h
      exact .inr ⟨[], by simp, by simp, rfl⟩
    · rcases take_upTo_cases c l n with h1 | ⟨a, ha, h1, h2⟩
      · exact .inl (by simp [Ne.symm h, h1])
      · exact .inr ⟨x :: a, by simp [Ne.symm h, ha], by simp [h1], by simp [h2]⟩

theorem upTo_eq_nil {l : List UInt8} : upTo c l = [] ↔ l = [] := by
  cases l with
  | nil => simp
  | cons x l =>
    rw [upTo_cons]
    split_ifs <;> simp

theorem mem_of_memchr {w : List UInt8} : (memchr w c).isSome ↔ c ∈ w := by
  rw [memchr, List.findIdx?_isSome, List.any_eq_true]
  simp

theorem take_chunk (c : UInt8) : ∀ w : List UInt8, w.take (chunk w c) = upTo c w
  | [] => by simp
  | x :: w => by
    have ih := take_chunk c w
    unfold chunk memchr at ih ⊢
    rw [List.findIdx?_cons, upTo_cons]
    by_cases h : x = c
    · simp [h]
    · rw [if_neg (by simpa using h), if_neg h]
      cases hz : w.findIdx? (· == c) with
      | none | some z => rw [hz] at ih; simpa using ih

theorem chunk_le (c : UInt8) (w : List UInt8) : chunk w c ≤ w.length := by
  unfold chunk memchr
  cases hz : w.findIdx? (· == c) with
  | none => exact Nat.le_refl _
  | some z =>
    obtain ⟨h, -⟩ := List.findIdx?_eq_some_iff_getElem.mp hz
    exact h

theorem length_upTo (c : UInt8) (w : List UInt8) : (upTo c w).length = chunk w c := by
  rw [← take_chunk, List.length_take, Nat.min_eq_left (chunk_le c w)]

/-! ## The plain stream -/

/-- The bytes pushed back, the last one first, and the bytes of the file not yet read. -/
structure Plain where
  pushed : List UInt8
  rest : List UInt8

namespace Plain

def all (p : Plain) : List UInt8 := p.pushed ++ p.rest

/-- The plain stream without its first `n` bytes. -/
def drop (p : Plain) (n : ℕ) : Plain := ⟨p.pushed.drop n, p.rest.drop (n - p.pushed.length)⟩

@[simp] theorem drop_zero (p : Plain) : p.drop 0 = p := by simp [drop]

@[simp] theorem all_drop (p : Plain) (n : ℕ) : (p.drop n).all = p.all.drop n := by
  rw [all, all, drop, List.drop_append]

theorem drop_drop (p : Plain) (m n : ℕ) : (p.drop m).drop n = p.drop (m + n) := by
  simp only [drop, List.drop_drop, List.length_drop]
  congr 2
  omega

end Plain

inductive InCall where
  | getc
  | ungetc (c : ℤ)
  | fread (size nmemb : ℕ)
  | fgets (n : ℤ)
  | getdelim (ln : Line) (delim : UInt8)

/-- What a call returns: a character, a number of members with the bytes stored, a string, or a
count with the bytes of the line and its terminating zero. -/
inductive InResult where
  | char (c : Option UInt8)
  | block (n : ℕ) (b : List UInt8)
  | text (t : Option (List UInt8))
  | line (n : ℤ) (b : List UInt8)

/-- A call on a plain list. -/
def Plain.apply (p : Plain) : InCall → InResult × Plain
  | .getc => (.char p.all.head?, p.drop 1)
  | .ungetc c => if c = -1 then (.char none, p)
    else (.char (uchar c), { p with pushed := uchar c :: p.pushed })
  | .fread size nmemb =>
    if sizeLimit ≤ size * nmemb then (.block 0 [], p)
    else
      let b := p.all.take (size * nmemb)
      (.block (b.length / size) b, p.drop b.length)
  | .fgets n =>
    if n ≤ 0 then (.text none, p)
    else
      let t := (upTo newline p.all).take (n - 1).toNat
      (.text (if t = [] ∧ n > 1 then none else some t), p.drop t.length)
  | .getdelim _ delim =>
    let t := upTo delim p.all
    (if t = [] then .line (-1) [] else .line t.length (t ++ [0]), p.drop t.length)

/-- No more than `UNGET` bytes are pushed back at any time. -/
def Shallow : Plain → List InCall → Prop
  | _, [] => True
  | p, c :: cs => (p.apply c).2.pushed.length ≤ UNGET ∧ Shallow (p.apply c).2 cs

/-- The results of a sequence of calls on a plain list. -/
def Plain.run : Plain → List InCall → List InResult
  | _, [] => []
  | p, c :: cs => (p.apply c).1 :: Plain.run (p.apply c).2 cs

end Citadel.Stdio
