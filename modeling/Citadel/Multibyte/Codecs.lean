import Citadel.Iconv.Convert
import Citadel.Multibyte.Utf8
import Citadel.Regex.Syntax
import Mathlib.Data.List.GetD

/-!
# The UTF-8 codecs of the library

Three decoders and three encoders: `mbrtowc` and `wcrtomb` of `multibyte.c`, `decode` and `encode`
of `iconv.c`, `dec` of `regex.c` and `utf8` of `vfprintf.c`.

* `first_emit_iff`, `decodeUtf8_iff`, `dec_iff`: each decoder finds the character whose encoding
  stands in front.
* `codecs_agree`: they all do the same, and the encoders are their inverse.
-/

namespace Citadel.Vfprintf

/-- `utf8`; `none` is `-1`. -/
def utf8 (c : ℕ) : Option (List UInt8) :=
  if c < 0x80 then some [c.toUInt8]
  else if c < 0x800 then some [(0xc0 ||| c >>> 6).toUInt8, (0x80 ||| (c &&& 0x3f)).toUInt8]
  else if c < 0x10000 then
    if 0xd800 ≤ c ∧ c - 0xd800 < 0x800 then none
    else some [(0xe0 ||| c >>> 12).toUInt8, (0x80 ||| (c >>> 6 &&& 0x3f)).toUInt8,
      (0x80 ||| (c &&& 0x3f)).toUInt8]
  else if c < 0x110000 then
    some [(0xf0 ||| c >>> 18).toUInt8, (0x80 ||| (c >>> 12 &&& 0x3f)).toUInt8,
      (0x80 ||| (c >>> 6 &&& 0x3f)).toUInt8, (0x80 ||| (c &&& 0x3f)).toUInt8]
  else none

end Citadel.Vfprintf

namespace Citadel.Multibyte

open Citadel.Lib.Decoder List Nat

/-! ## The character in front -/

/-- The encoding of the code point `v`, of length `k`, stands in front. -/
def InFront (l : List UInt8) (k v : ℕ) : Prop :=
  ∃ (ch : Char) (t : List UInt8), l = String.utf8EncodeChar ch ++ t ∧
    k = (String.utf8EncodeChar ch).length ∧ v = ch.toNat

variable {b : UInt8} {s l bs : List UInt8} {k v n b1 : ℕ} {st : Mbstate}

theorem inFront_cons : InFront (b :: s) k v ↔
    ∃ bs t, s = bs ++ t ∧ IsSequence b bs v ∧ k = bs.length + 1 := by
  constructor
  · rintro ⟨ch, t, hl, rfl, rfl⟩
    obtain ⟨b', bs, he, hseq⟩ := isSequence_utf8 ch
    rw [he] at hl ⊢
    cases hl
    exact ⟨bs, t, rfl, hseq, rfl⟩
  · rintro ⟨bs, t, rfl, hseq, rfl⟩
    obtain ⟨ch, he, rfl⟩ := hseq.exists_char
    exact ⟨ch, t, by rw [he]; rfl, by rw [he]; rfl, rfl⟩

/-- The characters that the decoders find in front of a sequence that is not empty: a length and a
code point. The result `0` of `mbrtowc` stands for the null character. -/
def mbrtowcChar (l : List UInt8) : Option (ℕ × ℕ) :=
  match mbrtowc (some l) .init with
  | ⟨.count k, some v, _, _⟩ => some (max k 1, v)
  | _ => none

def iconvChar (c : Iconv.Cd) (l : List UInt8) : Option (ℕ × ℕ) :=
  match (Iconv.decode c l).1 with
  | .char k v => some (k, v)
  | _ => none

def decChar (l : List UInt8) : Option (ℕ × ℕ) :=
  let d := Regex.dec l l.length
  if Regex.bad ≤ d.1 then none else some (d.2, d.1)

/-! ## `mbrtowc` -/

theorem feedByte_emit {st' : Mbstate} (hst : st.n &&& 7 = 0 → st = .init)
    (h : feedByte st b = .emit v st') : st' = .init := by
  rw [feedByte] at h
  split_ifs at h with h0 hb
  · cases h
    exact hst h0
  · cases hl : leadByte b.toNat with
    | none | some l =>
      rw [hl] at h
      cases h
  · rw [feedNext] at h
    split_ifs at h
    cases h
    rfl

theorem feedByte_more {st' : Mbstate} (h : feedByte st b = .more st') : st'.n &&& 7 ≠ 0 := by
  rw [feedByte] at h
  split_ifs at h with h0 hb
  · cases hl : leadByte b.toNat with
    | none =>
      rw [hl] at h
      cases h
    | some l =>
      obtain ⟨hne, h8⟩ := leadByte_need hl
      rw [hl] at h
      cases h
      rwa [pending_need _ _ h8]
  · have h8 : st.n &&& 7 < 8 := by
      rw [and_two_pow_sub_one_eq_mod _ 3]
      omega
    rw [feedNext] at h
    split_ifs at h with hn h1
    cases h
    rw [pending_need _ _ (by omega)]
    omega

theorem first_emit_init : ∀ {l : List UInt8} {st st' : Mbstate} {n v : ℕ},
    (st.n &&& 7 = 0 → st = .init) → first feedByte st l = .emit n v st' → st' = .init
  | [], _, _, _, _, _, h => by cases h
  | b :: l, st, st', n, v, hst, h => by
    rw [first] at h
    cases hf : feedByte st b with
    | more s =>
      rw [hf] at h
      obtain ⟨m, -, hm⟩ := First.next_eq_emit h
      exact first_emit_init (fun h0 => absurd h0 (feedByte_more hf)) hm
    | emit c s =>
      rw [hf] at h
      cases h
      exact feedByte_emit hst hf
    | bad =>
      rw [hf] at h
      cases h

theorem Accepts.one (h : Accepts .init l [v]) :
    ∃ ch : Char, l = String.utf8EncodeChar ch ∧ v = ch.toNat := by
  obtain ⟨cs, rfl, hv⟩ := (accepts_iff l [v]).mp h
  match cs, hv with
  | [ch], hv => exact ⟨ch, flatMap_singleton _ _, (List.cons.inj hv).1⟩

theorem first_emit_iff : first feedByte .init l = .emit n v st ↔ InFront l n v ∧ st = .init := by
  constructor
  · intro h
    obtain rfl := first_emit_init (fun _ => rfl) h
    refine ⟨?_, rfl⟩
    obtain ⟨ch, hch, rfl⟩ := Accepts.one (feedAll_take_first feedByte h)
    obtain ⟨-, hle⟩ := first_emit_le feedByte h
    refine ⟨ch, l.drop n, ?_, ?_, rfl⟩
    · rw [← hch, take_append_drop]
    · rw [← hch, length_take, Nat.min_eq_left hle]
  · rintro ⟨⟨ch, t, rfl, rfl, rfl⟩, rfl⟩
    exact first_append feedByte (first_utf8 ch) t

theorem mbrtowcChar_iff : mbrtowcChar (b :: s) = some (k, v) ↔ InFront (b :: s) k v := by
  have hiff : InFront (b :: s) k v ↔ ∃ st, first feedByte .init (b :: s) = .emit k v st :=
    ⟨fun h => ⟨.init, first_emit_iff.mpr ⟨h, rfl⟩⟩, fun ⟨_, h⟩ => (first_emit_iff.mp h).1⟩
  rw [hiff]
  by_cases hb : b = 0
  · subst hb
    have hfirst : first feedByte .init (0 :: s) = .emit 1 0 .init := rfl
    rw [mbrtowcChar, mbrtowc_nul, hfirst]
    constructor
    · intro h
      cases h
      exact ⟨.init, rfl⟩
    · rintro ⟨st, h⟩
      cases h
      rfl
  · rw [mbrtowcChar, mbrtowc_eq_first .init s hb]
    cases hf : first feedByte .init (b :: s) with
    | more st | bad i => exact ⟨nofun, fun ⟨_, h⟩ => nomatch h⟩
    | emit n c st =>
      have hpos := (first_emit_le feedByte hf).1
      simp only [ofFirst, Nat.zero_add, Nat.max_eq_left hpos]
      constructor
      · intro h
        cases h
        exact ⟨st, rfl⟩
      · rintro ⟨st', h⟩
        cases h
        rfl

/-! ## Decoders that check the range at the end -/

/-- The test of a code point of `k` bytes. -/
def InRange (k v : ℕ) : Prop :=
  ¬ ((k = 3 ∧ v < 0x800) ∨ (k = 4 ∧ (v < 0x10000 ∨ 0x10ffff < v)) ∨ (0xd800 ≤ v ∧ v ≤ 0xdfff))

theorem leadByte_eq_some {b c need : ℕ} : leadByte b = some (c, need) ↔ ¬ b < 0x80 ∧
    ¬ (Iconv.utf8Length b = 0 ∨ b > 0xf4) ∧ c = b &&& (0x7f >>> Iconv.utf8Length b) ∧
    need + 1 = Iconv.utf8Length b := by
  unfold leadByte Iconv.utf8Length
  split_ifs <;> simp <;> omega

def Cont (b : ℕ) : Prop := 0x80 ≤ b ∧ b ≤ 0xbf

theorem Cont.mod {b : ℕ} (h : Cont b) : b % 64 = b - 128 := by
  unfold Cont at h
  omega

theorem secondOk_cont {lead b : ℕ} (h : secondOk lead b) : Cont b := by
  unfold secondOk at h
  unfold Cont
  split_ifs at h <;> omega

theorem secondOk_two {b : ℕ} (hb : 0xc2 ≤ b ∧ b ≤ 0xdf) (h1 : Cont b1) :
    secondOk b b1 ↔ InRange 2 (b % 32 * 64 + b1 % 64) := by
  rw [h1.mod, InRange, secondOk]
  unfold Cont at h1
  split_ifs <;> omega

theorem secondOk_three {b b2 : ℕ} (hb : 0xe0 ≤ b ∧ b ≤ 0xef) (h1 : Cont b1) (h2 : Cont b2) :
    secondOk b b1 ↔ InRange 3 ((b % 16 * 64 + b1 % 64) * 64 + b2 % 64) := by
  rw [h1.mod, h2.mod, InRange, secondOk]
  unfold Cont at h1 h2
  split_ifs <;> omega

theorem secondOk_four {b b2 b3 : ℕ} (hb : 0xf0 ≤ b ∧ b ≤ 0xf4) (h1 : Cont b1) (h2 : Cont b2)
    (h3 : Cont b3) :
    secondOk b b1 ↔ InRange 4 (((b % 8 * 64 + b1 % 64) * 64 + b2 % 64) * 64 + b3 % 64) := by
  rw [h1.mod, h2.mod, h3.mod, InRange, secondOk]
  unfold Cont at h1 h2 h3
  split_ifs <;> omega

theorem follows_iff {c : ℕ} (h : leadByte b.toNat = some (c, bs.length)) :
    Follows b.toNat bs ↔ Follows 0 bs ∧ InRange (bs.length + 1) (assemble c bs) := by
  have hlead : ∀ b1 : UInt8, nextOk b.toNat b1.toNat ↔ secondOk b.toNat b1.toNat := fun b1 =>
    nextOk_lead fun h0 => leadByte_ge h (by omega)
  have hcont : ∀ b1 : UInt8, nextOk 0 b1.toNat ↔ Cont b1.toNat := nextOk_zero
  rw [leadByte_eq] at h
  split_ifs at h with h2 h3 h4
  · match bs, h with
    | [b1], h =>
      cases h
      simp only [Follows, hlead, hcont, and_true]
      constructor
      · intro h1
        exact ⟨secondOk_cont h1, (secondOk_two h2 (secondOk_cont h1)).mp h1⟩
      · rintro ⟨h1, hr⟩
        exact (secondOk_two h2 h1).mpr hr
  · match bs, h with
    | [b1, b2], h =>
      cases h
      simp only [Follows, hlead, hcont, and_true]
      constructor
      · rintro ⟨h1, hc2⟩
        exact ⟨⟨secondOk_cont h1, hc2⟩, (secondOk_three h3 (secondOk_cont h1) hc2).mp h1⟩
      · rintro ⟨⟨h1, hc2⟩, hr⟩
        exact ⟨(secondOk_three h3 h1 hc2).mpr hr, hc2⟩
  · match bs, h with
    | [b1, b2, b3], h =>
      cases h
      simp only [Follows, hlead, hcont, and_true]
      constructor
      · rintro ⟨h1, hc2, hc3⟩
        exact ⟨⟨secondOk_cont h1, hc2, hc3⟩,
          (secondOk_four h4 (secondOk_cont h1) hc2 hc3).mp h1⟩
      · rintro ⟨⟨h1, hc2, hc3⟩, hr⟩
        exact ⟨(secondOk_four h4 h1 hc2 hc3).mpr hr, hc2, hc3⟩

theorem isSequence_iff (hb : ¬ b.toNat < 0x80) :
    IsSequence b bs v ↔ ¬ (Iconv.utf8Length b.toNat = 0 ∨ b.toNat > 0xf4) ∧
      bs.length + 1 = Iconv.utf8Length b.toNat ∧ Follows 0 bs ∧
      v = assemble (b.toNat &&& (0x7f >>> Iconv.utf8Length b.toNat)) bs ∧
      InRange (Iconv.utf8Length b.toNat) v := by
  constructor
  · rintro (⟨h, -⟩ | ⟨c, need, hl, rfl, hf, rfl⟩)
    · exact absurd h hb
    · obtain ⟨-, h4, rfl, hk⟩ := leadByte_eq_some.mp hl
      obtain ⟨h0, hr⟩ := (follows_iff hl).mp hf
      exact ⟨h4, hk, h0, rfl, hk ▸ hr⟩
  · rintro ⟨h4, hk, h0, rfl, hr⟩
    have hl := leadByte_eq_some.mpr ⟨hb, h4, rfl, hk⟩
    exact .inr ⟨_, _, hl, rfl, (follows_iff hl).mpr ⟨h0, hk.symm ▸ hr⟩, rfl⟩

/-! ## `decode` of `iconv.c` -/

theorem cont_iff (b : UInt8) : b.toNat &&& 0xc0 = 0x80 ↔ nextOk 0 b.toNat := .rfl

theorem utf8Loop_iff {u : ℕ} : ∀ {j v : ℕ} {s : List UInt8},
    Iconv.utf8Loop k j v s = .char n u ↔ ∃ bs t, s = bs ++ t ∧ bs.length = j ∧ Follows 0 bs ∧
      u = assemble v bs ∧ InRange k u ∧ n = k
  | 0, v, s => by
    rw [Iconv.utf8Loop]
    constructor
    · intro h
      split_ifs at h with hr
      cases h
      exact ⟨[], s, rfl, rfl, trivial, rfl, hr, rfl⟩
    · rintro ⟨bs, t, -, hlen, -, hu, hr, rfl⟩
      obtain rfl := length_eq_zero_iff.mp hlen
      obtain rfl : u = v := hu
      exact if_neg hr
  | j + 1, v, [] => by
    refine ⟨nofun, ?_⟩
    rintro ⟨bs, t, hs, hlen, -⟩
    rw [(append_eq_nil_iff.mp hs.symm).1] at hlen
    cases hlen
  | j + 1, v, b :: s => by
    rw [Iconv.utf8Loop]
    constructor
    · intro h
      split_ifs at h with hb
      obtain ⟨bs, t, rfl, rfl, hf, hu, hr, hn⟩ := utf8Loop_iff.mp h
      rw [join_eq] at hu
      exact ⟨b :: bs, t, rfl, rfl, ⟨(cont_iff b).mp (not_not.mp hb), hf⟩, hu, hr, hn⟩
    · rintro ⟨bs, t, hs, hlen, hf, hu, hr, hn⟩
      match bs, hs, hlen, hf, hu with
      | b' :: bs, hs, hlen, hf, hu =>
        cases hs
        rw [if_neg (not_not.mpr ((cont_iff b).mpr hf.1))]
        refine utf8Loop_iff.mpr ⟨bs, t, rfl, succ.inj hlen, hf.2, ?_, hr, hn⟩
        rw [join_eq]
        exact hu

theorem decodeUtf8_iff : Iconv.decodeUtf8 b.toNat s = .char k v ↔ InFront (b :: s) k v := by
  rw [inFront_cons, Iconv.decodeUtf8]
  by_cases hb : b.toNat < 0x80
  · rw [if_pos hb]
    constructor
    · intro h
      cases h
      exact ⟨[], s, rfl, .inl ⟨hb, rfl, rfl⟩, rfl⟩
    · rintro ⟨bs, t, -, ⟨-, rfl, rfl⟩ | ⟨c, need, hl, -⟩, rfl⟩
      · rfl
      · exact absurd hb (leadByte_ge hl)
  rw [if_neg hb]
  constructor
  · intro h
    split_ifs at h with h4
    obtain ⟨bs, t, rfl, hlen, hf, hu, hr, rfl⟩ := utf8Loop_iff.mp h
    have hk : bs.length + 1 = Iconv.utf8Length b.toNat := by omega
    exact ⟨bs, t, rfl, (isSequence_iff hb).mpr ⟨h4, hk, hf, hu, hr⟩, hk.symm⟩
  · rintro ⟨bs, t, rfl, hseq, rfl⟩
    obtain ⟨h4, hk, hf, hu, hr⟩ := (isSequence_iff hb).mp hseq
    rw [if_neg h4]
    exact utf8Loop_iff.mpr ⟨bs, t, rfl, by omega, hf, hu, hr, hk⟩

theorem iconvChar_iff {c : Iconv.Cd} (hc : c.source = .utf8) :
    iconvChar c (b :: s) = some (k, v) ↔ InFront (b :: s) k v := by
  rw [← decodeUtf8_iff, iconvChar, Iconv.decode, hc]
  cases Iconv.decodeUtf8 b.toNat s with
  | char n u =>
    constructor
    · intro h
      cases h
      rfl
    · intro h
      cases h
      rfl
  | bom | illegal | incomplete => simp

/-! ## `dec` of `regex.c` -/

/-- The loop of `regex.c` with the test behind it is that of `iconv.c`. -/
theorem decLoop_iff {u : ℕ} : ∀ {j i v : ℕ}, (Regex.decLoop s j i v = some u ∧ InRange k u) ↔
    Iconv.utf8Loop k j v (s.drop i) = .char k u
  | 0, i, v => by
    rw [Regex.decLoop, Iconv.utf8Loop]
    constructor
    · rintro ⟨h, hr⟩
      cases h
      exact if_neg hr
    · intro h
      split_ifs at h with hr
      cases h
      exact ⟨rfl, hr⟩
  | j + 1, i, v => by
    rw [Regex.decLoop]
    cases hd : s.drop i with
    | nil =>
      have hbyte : Regex.byte s i = 0 := by
        rw [Regex.byte, getD_eq_default _ _ (drop_eq_nil_iff.mp hd)]
        rfl
      rw [if_pos (by rw [hbyte]; decide)]
      exact ⟨nofun, nofun⟩
    | cons b r =>
      have hlt : i < s.length := by
        by_contra hge
        rw [drop_eq_nil_of_le (by omega)] at hd
        cases hd
      rw [drop_eq_getElem_cons hlt] at hd
      obtain ⟨hget, hr⟩ := List.cons.inj hd
      have hbyte : Regex.byte s i = b.toNat := by
        rw [Regex.byte, getD_eq_getElem _ _ hlt, hget]
      rw [hbyte, Iconv.utf8Loop]
      split_ifs
      · exact ⟨nofun, nofun⟩
      · rw [← hr]
        exact decLoop_iff

theorem dec_eq (hb : ¬ b.toNat < 0x80) : Regex.dec (b :: s) (s.length + 1) =
      if Iconv.utf8Length b.toNat = 0 ∨ b.toNat > 0xf4 ∨
        Iconv.utf8Length b.toNat > s.length + 1 then
        (Regex.bad + b.toNat, 1) else match Regex.decLoop (b :: s) (Iconv.utf8Length b.toNat - 1) 1
            (b.toNat &&& 0x7f >>> Iconv.utf8Length b.toNat) with
        | none => (Regex.bad + b.toNat, 1)
        | some v =>
          if (Iconv.utf8Length b.toNat = 3 ∧ v < 0x800) ∨
              (Iconv.utf8Length b.toNat = 4 ∧ (v < 0x10000 ∨ v > 0x10ffff)) ∨
              (v ≥ 0xd800 ∧ v ≤ 0xdfff) then (Regex.bad + b.toNat, 1)
          else (v, Iconv.utf8Length b.toNat) :=
  if_neg hb

theorem decChar_bad {x : ℕ} (h : Regex.dec l l.length = (Regex.bad + x, n)) : decChar l = none := by
  simp only [decChar, h]
  exact if_pos (Nat.le_add_right _ _)

theorem decChar_good (h : Regex.dec l l.length = (v, n))
    (hv : v < Regex.bad) : decChar l = some (n, v) := by
  simp only [decChar, h]
  exact if_neg (not_le.mpr hv)

theorem InFront.lt_bad (h : InFront l n v) : v < Regex.bad := by
  obtain ⟨ch, -, -, -, rfl⟩ := h
  have := toNat_range ch
  unfold Regex.bad
  omega

theorem decChar_lead (hb : ¬ b.toNat < 0x80) :
    decChar (b :: s) = some (k, v) ↔ Iconv.decodeUtf8 b.toNat s = .char k v := by
  have hdec : Regex.dec (b :: s) (b :: s).length = _ := dec_eq hb
  have hutf8 : Iconv.decodeUtf8 b.toNat s = _ := if_neg hb
  generalize Iconv.utf8Length b.toNat = n at hdec hutf8
  by_cases h4 : n = 0 ∨ b.toNat > 0xf4 ∨ n > s.length + 1
  · rw [if_pos h4] at hdec
    rw [decChar_bad hdec, hutf8]
    refine ⟨nofun, fun h => ?_⟩
    split_ifs at h with h0
    obtain ⟨bs, t, rfl, hlen, -⟩ := utf8Loop_iff.mp h
    rw [length_append] at h4
    omega
  rw [if_neg h4] at hdec
  rw [if_neg fun h => h4 (by tauto)] at hutf8
  -- the loop, then the range
  have hloop := fun u => decLoop_iff (s := b :: s) (k := n) (u := u) (j := n - 1) (i := 1)
    (v := b.toNat &&& 0x7f >>> n)
  have hlen : Iconv.decodeUtf8 b.toNat s = .char k v → k = n := fun h =>
    have ⟨_, _, _, _, _, _, _, hk⟩ := utf8Loop_iff.mp (hutf8 ▸ h)
    hk
  cases hl : Regex.decLoop (b :: s) (n - 1) 1 (b.toNat &&& 0x7f >>> n) with
  | none =>
    rw [hl] at hdec
    rw [decChar_bad hdec]
    refine ⟨nofun, fun h => ?_⟩
    obtain rfl := hlen h
    have := ((hloop v).mpr (hutf8 ▸ h)).1
    rw [hl] at this
    cases this
  | some u =>
    rw [hl] at hdec
    by_cases hr : InRange n u
    · have hchar := hutf8.trans ((hloop u).mp ⟨hl, hr⟩)
      rw [decChar_good (hdec.trans (if_neg hr)) (decodeUtf8_iff.mp hchar).lt_bad, hchar]
      constructor <;>
      · intro h
        cases h
        rfl
    · rw [decChar_bad (hdec.trans (if_pos (not_not.mp hr)))]
      refine ⟨nofun, fun h => ?_⟩
      obtain rfl := hlen h
      obtain ⟨hv, hr'⟩ := (hloop v).mpr (hutf8 ▸ h)
      rw [hl] at hv
      cases hv
      exact absurd hr' hr

theorem decChar_iff : decChar (b :: s) = some (k, v) ↔ InFront (b :: s) k v := by
  rw [← decodeUtf8_iff]
  by_cases hb : b.toNat < 0x80
  · have hdec : Regex.dec (b :: s) (b :: s).length = (b.toNat, 1) := if_pos hb
    have hchar : Iconv.decodeUtf8 b.toNat s = .char 1 b.toNat := if_pos hb
    rw [decChar_good hdec (decodeUtf8_iff.mp hchar).lt_bad, hchar]
    constructor <;>
    · intro h
      cases h
      rfl
  · exact decChar_lead hb

/-! ## The encoders -/

/-- The first byte that `encode` makes for `k` bytes; the tag reaches beyond the byte. -/
theorem byte_lead {i t x : ℕ} (hx : x < 2 ^ i) (hk : 0xf00 >>> k = 2 ^ i * 15)
    (ht : 2 ^ i * 15 % 256 = t) : Iconv.byte (0xf00 >>> k ||| x) = UInt8.ofNat (x + t) := by
  rw [hk]
  refine (tag_eq i 15 hx).trans (UInt8.toNat_inj.mp ?_)
  rw [UInt8.toNat_ofNat', UInt8.toNat_ofNat']
  omega

theorem high_eq (hv : v < 0x100000) : 0xd800 ||| v >>> 10 = 0xd800 + v / 0x400 := by
  rw [shiftRight_eq_div_pow]
  exact (two_pow_add_eq_or_of_lt (i := 10) (by omega) 54).symm

theorem low_eq (v : ℕ) : 0xdc00 ||| v &&& 0x3ff = 0xdc00 + v % 0x400 := by
  rw [and_two_pow_sub_one_eq_mod _ 10]
  exact (two_pow_add_eq_or_of_lt (i := 10) (by omega) 55).symm

theorem encodeUtf8_char (ch : Char) (c : Iconv.Cd) (hn : (String.utf8EncodeChar ch).length ≤ n) :
    Iconv.encodeUtf8 c ch.toNat n = (.bytes (String.utf8EncodeChar ch), c) := by
  have hr := toNat_range ch
  have htail : ∀ k, Iconv.byte (0x80 ||| (k &&& 0x3f)) = UInt8.ofNat (k % 64 + 0x80) := tail_eq
  rw [Iconv.encodeUtf8]
  by_cases h1 : ch.toNat < 0x80
  · rw [utf8EncodeChar_one h1] at hn ⊢
    have hroom : ¬ n < 1 := not_lt.mpr hn
    rw [if_pos h1, if_neg hroom]
    rfl
  rw [if_neg h1]
  by_cases h2 : ch.toNat < 0x800
  · rw [utf8EncodeChar_two (by omega) h2] at hn ⊢
    have hroom : ¬ n < 2 := not_lt.mpr hn
    simp only [if_pos h2, Nat.add_one_sub_one, Iconv.utf8Bytes, htail, shiftRight_eq_div_pow _ 6]
    rw [if_neg hroom, byte_lead (i := 6) (t := 192) (by omega) rfl rfl,
      mod_eq_of_lt (show ch.toNat / 64 < 32 by omega)]
  by_cases h3 : ch.toNat < 0x10000
  · rw [utf8EncodeChar_three (by omega) h3] at hn ⊢
    have hroom : ¬ n < 3 := not_lt.mpr hn
    simp only [if_neg h2, if_pos h3, Nat.add_one_sub_one, Iconv.utf8Bytes, htail,
      shiftRight_eq_div_pow _ 6, Nat.div_div_eq_div_mul]
    rw [if_neg hroom, byte_lead (i := 5) (t := 224) (by omega) rfl rfl,
      mod_eq_of_lt (show ch.toNat / 4096 < 16 by omega)]
  · rw [utf8EncodeChar_four (by omega)] at hn ⊢
    have hroom : ¬ n < 4 := not_lt.mpr hn
    simp only [if_neg h2, if_neg h3, Nat.add_one_sub_one, Iconv.utf8Bytes, htail,
      shiftRight_eq_div_pow _ 6, Nat.div_div_eq_div_mul]
    rw [if_neg hroom, byte_lead (i := 4) (t := 240) (by omega) rfl rfl,
      mod_eq_of_lt (show ch.toNat / 262144 < 8 by omega)]

/-- **The UTF-8 codecs agree.** The decoders find the character whose encoding stands in front, or
none; the encoders make that encoding. -/
theorem codecs_agree :
    (∀ (b : UInt8) (s : List UInt8) (c : Iconv.Cd), c.source = .utf8 →
      iconvChar c (b :: s) = mbrtowcChar (b :: s) ∧ decChar (b :: s) = mbrtowcChar (b :: s) ∧
      ∀ k v, mbrtowcChar (b :: s) = some (k, v) ↔ InFront (b :: s) k v) ∧
    ∀ ch : Char,
      wcrtomb ch.toNat = some (String.utf8EncodeChar ch) ∧
      Vfprintf.utf8 ch.toNat = some (String.utf8EncodeChar ch) ∧
      (∀ (c : Iconv.Cd) (n : ℕ), c.target = .utf8 → (String.utf8EncodeChar ch).length ≤ n →
        Iconv.encode c ch.toNat n = (.bytes (String.utf8EncodeChar ch), c)) ∧
      ∀ c : Iconv.Cd, c.source = .utf8 →
        mbrtowcChar (String.utf8EncodeChar ch) =
          some ((String.utf8EncodeChar ch).length, ch.toNat) ∧
        iconvChar c (String.utf8EncodeChar ch) =
          some ((String.utf8EncodeChar ch).length, ch.toNat) ∧
        decChar (String.utf8EncodeChar ch) =
          some ((String.utf8EncodeChar ch).length, ch.toNat) := by
  refine ⟨fun b s c hc => ⟨?_, ?_, fun k v => mbrtowcChar_iff⟩, fun ch => ⟨wcrtomb_utf8 ch,
    wcrtomb_utf8 ch, fun c n hc hn => ?_, fun c hc => ?_⟩⟩
  · exact Option.ext fun ⟨k, v⟩ => (iconvChar_iff hc).trans mbrtowcChar_iff.symm
  · exact Option.ext fun ⟨k, v⟩ => decChar_iff.trans mbrtowcChar_iff.symm
  · rw [Iconv.encode, hc]
    exact encodeUtf8_char ch c hn
  · obtain ⟨b, bs, he, -⟩ := isSequence_utf8 ch
    have hfront : InFront (b :: bs) (b :: bs).length ch.toNat :=
      ⟨ch, [], by rw [he, append_nil], by rw [he], rfl⟩
    rw [he]
    exact ⟨mbrtowcChar_iff.mpr hfront, (iconvChar_iff hc).mpr hfront, decChar_iff.mpr hfront⟩

end Citadel.Multibyte
