import Citadel.Lib.Byte
import Citadel.Regex.Syntax

/-!
# Looking backwards

`char_before` of `regex.c` finds the character in front of a place from the bytes there.

* `charBefore_eq`: it is the character that decoding forward gave, in well-formed text or not.
-/

namespace Citadel.Regex

open List Citadel.Lib.Byte

/-- The loop of `char_before`: where the character in front of `pos` would begin. -/
def charStart (s : List UInt8) (beg pos : ℕ) : ℕ → ℕ
  | 0 => 0
  | q + 1 =>
    if q + 1 > beg ∧ pos - (q + 1) < 4 ∧ byte s (q + 1) &&& 0xc0 = 0x80 then charStart s beg pos q
    else q + 1

/-- `char_before`, with none for -1. -/
def charBefore (s : List UInt8) (beg pos : ℕ) : Option ℕ :=
  if pos ≤ beg then none
  else
    let q := charStart s beg pos (pos - 1)
    let d := dec (s.drop q) (pos - q)
    if q + d.2 ≠ pos then some (dec (s.drop (pos - 1)) 1).1 else some d.1

/-- Decoding forward from `beg` reaches a place, with the character in front of it. -/
inductive Reaches (s : List UInt8) (beg fin : ℕ) : ℕ → Option ℕ → Prop
  | refl : Reaches s beg fin beg none
  | next {pos : ℕ} {c : Option ℕ} : Reaches s beg fin pos c → pos < fin →
      Reaches s beg fin (pos + (dec (s.drop pos) (fin - pos)).2) (dec (s.drop pos) (fin - pos)).1

variable {s : List UInt8} {beg fin pos q n : ℕ} {c : Option ℕ}

theorem byte_drop (s : List UInt8) (q i : ℕ) : byte (s.drop q) i = byte s (q + i) := by
  simp [byte, getD_eq_getElem?_getD]

theorem decLoop_tail : ∀ {k i v w : ℕ}, decLoop s k i v = some w →
    ∀ j, i ≤ j → j < i + k → byte s j &&& 0xc0 = 0x80
  | 0, i, v, w, _, j, hi, hj => by omega
  | k + 1, i, v, w, h, j, hi, hj => by
    rw [decLoop] at h
    split_ifs at h with hb
    rcases Nat.eq_or_lt_of_le hi with rfl | hlt
    · exact not_not.mp hb
    · exact decLoop_tail h j hlt (by omega)

/-- The bytes from `q` on begin with a character of `n` bytes. -/
structure IsChar (s : List UInt8) (q n : ℕ) : Prop where
  size : 2 ≤ n ∧ n ≤ 4
  lead : byte s q &&& 0xc0 ≠ 0x80
  tail : ∀ j, q < j → j < q + n → byte s j &&& 0xc0 = 0x80
  whole : ∀ len, n ≤ len → dec (s.drop q) len = dec (s.drop q) n

theorem dec_cases (s : List UInt8) (q len : ℕ) :
    ((dec (s.drop q) len).2 = 1 ∧ dec (s.drop q) len = dec (s.drop q) 1) ∨
      ((dec (s.drop q) len).2 ≤ len ∧ IsChar s q (dec (s.drop q) len).2) := by
  have hlead := forall_byte (P := fun b => 0xc2 ≤ b.toNat → b.toNat &&& 0xc0 ≠ 0x80)
    (by decide +kernel)
  have hq := byte_drop s q
  unfold dec
  by_cases h80 : byte (s.drop q) 0 < 0x80
  · simp [h80]
  simp only [if_neg h80]
  generalize hn : (if byte (s.drop q) 0 ≥ 0xf0 then 4 else if byte (s.drop q) 0 ≥ 0xe0 then 3 else
    if byte (s.drop q) 0 ≥ 0xc2 then 2 else 0) = n
  have hsize : n = 0 ∨ (2 ≤ n ∧ n ≤ 4 ∧ 0xc2 ≤ byte (s.drop q) 0) := by grind
  rw [if_pos (c := n = 0 ∨ byte (s.drop q) 0 > 0xf4 ∨ n > 1) (by omega)]
  split_ifs with h
  · exact .inl ⟨rfl, rfl⟩
  split
  · exact .inl ⟨rfl, rfl⟩
  · rename_i v hv
    split_ifs with hr
    · exact .inl ⟨rfl, rfl⟩
    · refine .inr ⟨by omega, by omega, ?_, ?_, ?_⟩
      · have := (hsize.resolve_left (by omega)).2.2
        rw [hq, add_zero] at this
        exact hlead _ this
      · intro j hj hj'
        have := decLoop_tail hv (j - q) (by omega) (by omega)
        rwa [hq, Nat.add_sub_cancel' hj.le] at this
      · have hval : ∀ l, n ≤ l → dec (s.drop q) l = (v, n) := by
          intro l hl
          rw [dec]
          simp only [if_neg h80, hn]
          rw [if_neg (by omega), hv]
          exact if_neg hr
        exact fun l hl => (hval l hl).trans (hval n le_rfl).symm

theorem charStart_spec (s : List UInt8) (pos : ℕ) (hq : beg ≤ q) : let p := charStart s beg pos q
    beg ≤ p ∧ p ≤ q ∧ (∀ j, p < j → j ≤ q → byte s j &&& 0xc0 = 0x80) ∧
      ¬(p > beg ∧ pos - p < 4 ∧ byte s p &&& 0xc0 = 0x80) := by
  induction q with
  | zero => grind [charStart]
  | succ q ih => grind [charStart]

theorem Reaches.lead (h : Reaches s beg fin pos c) (hq : beg ≤ q) (hlt : q < pos)
    (hlead : byte s q &&& 0xc0 ≠ 0x80) : q + (dec (s.drop q) (fin - q)).2 ≤ pos ∧ pos ≤ fin := by
  induction h with
  | refl => omega
  | @next pos c _ hpos ih =>
    rcases dec_cases s pos (fin - pos) with ⟨h1, -⟩ | ⟨hle, hc⟩
    · grind
    · have := hc.tail q
      grind

theorem Reaches.beg_le (h : Reaches s beg fin pos c) : beg ≤ pos := by
  induction h with
  | refl => exact le_rfl
  | next _ _ ih => omega

/-- **Backwards as forwards**: the character in front of a place that decoding forward reaches is
the one that it gave there. -/
theorem charBefore_eq (h : Reaches s beg fin pos c) : charBefore s beg pos = c := by
  cases h with
  | refl => exact if_pos le_rfl
  | @next p c h hp =>
    have hbeg := h.beg_le
    rcases dec_cases s p (fin - p) with ⟨h1, hd⟩ | ⟨hle, hc⟩
    · rw [hd] at h1 ⊢
      obtain ⟨hb, hle, htail, -⟩ := charStart_spec s (p + 1) hbeg
      rw [h1, charBefore, if_neg (by omega), Nat.add_sub_cancel]
      generalize charStart s beg (p + 1) p = q at *
      dsimp only
      split_ifs with hne
      · rfl
      -- a character of several bytes that ends here would have been decoded
      · rcases dec_cases s q (p + 1 - q) with ⟨h2, h3⟩ | ⟨-, hc⟩
        · obtain rfl : q = p := by omega
          rw [h3]
        · have hlead := h.lead hb (by have := hc.size; omega) hc.lead
          have hwhole := hc.whole (p + 1 - q) (by omega)
          rw [hc.whole (fin - q) (by omega), ← hwhole] at hlead
          omega
    · generalize hd : dec (s.drop p) (fin - p) = d at *
      have hsize := hc.size
      have hstart : charStart s beg (p + d.2) (p + d.2 - 1) = p := by
        obtain ⟨-, hle, htail, hstop⟩ :=
          charStart_spec s (p + d.2) (show beg ≤ p + d.2 - 1 by omega)
        have := hc.lead
        have := hc.tail
        grind
      rw [charBefore, if_neg (by omega), hstart]
      dsimp only
      rw [Nat.add_sub_cancel_left, ← hc.whole _ hle, hd]
      exact if_neg (not_not.mpr rfl)

theorem charBefore_eq_euro : charBefore [0xe2, 0x82, 0xac] 0 3 = some 0x20ac :=
  charBefore_eq (@Reaches.next [0xe2, 0x82, 0xac] 0 3 0 none .refl (by decide))

end Citadel.Regex
