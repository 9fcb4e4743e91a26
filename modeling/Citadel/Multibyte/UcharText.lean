import Citadel.Lib.Code
import Citadel.Multibyte.Codecs
import Citadel.Multibyte.Uchar
import Mathlib.Data.Nat.Bitwise

/-!
# Texts through `uchar.c`

A text is cut into pieces and converted to units, which are converted back.

* `first_more_iff`: an unfinished character is the part of one.
* `reads8`, `reads16`: `c8rtomb` and `c16rtomb` read UTF-8 and UTF-16.
* `units_text`: `mbrtoc8`, `mbrtoc16` and `mbrtoc32` give the units of all characters, however the
  text is cut.
* `uchar_round_trip`: both together, and what is refused.
-/

namespace Citadel.Multibyte

open Citadel.Lib.Decoder Citadel.Lib.Code List Nat
open String (utf8EncodeChar utf8EncodeChar_ne_nil)

variable {st st' : Mbstate} {s p : List UInt8} {b : UInt8} {ch : Char}

/-! ## Unfinished characters -/

/-- A state inside a character. -/
def Unfinished (st : Mbstate) : Prop :=
  ∃ c need lead, 0 < need ∧ need < 4 ∧ (lead = 0 ∨ 0xc2 ≤ lead ∧ lead ≤ 0xf4) ∧
    st = pending c need lead

theorem leadByte_bounds {b c need : ℕ} (h : leadByte b = some (c, need)) :
    0 < need ∧ need < 4 ∧ 0xc2 ≤ b ∧ b ≤ 0xf4 := by
  unfold leadByte at h
  split_ifs at h <;> cases h <;> omega

theorem feedByte_unfinished (hst : st = .init ∨ Unfinished st)
    (h : feedByte st b = .more st') : Unfinished st' := by
  rcases hst with rfl | ⟨c, need, lead, h0, h4, -, rfl⟩
  · rw [feedByte, if_pos (by rfl)] at h
    split_ifs at h
    cases hl : leadByte b.toNat with
    | none =>
      rw [hl] at h
      cases h
    | some l =>
      obtain ⟨c, need⟩ := l
      obtain ⟨h0, h4, hb⟩ := leadByte_bounds hl
      rw [hl] at h
      cases h
      exact ⟨c, need, b.toNat, h0, h4, .inr hb, rfl⟩
  · rw [feedByte_pending c lead b (by omega) (by omega), feedNext] at h
    split_ifs at h
    cases h
    exact ⟨_, need - 1, 0, by omega, by omega, .inl rfl, rfl⟩

/-- A state without pending units. -/
def Plain (st : Mbstate) : Prop := st = .init ∨ Unfinished st

theorem Plain.init_of_need (h : Plain st) (h0 : st.n &&& 7 = 0) : st = .init := by
  rcases h with rfl | ⟨c, need, lead, hpos, h4, -, rfl⟩
  · rfl
  · rw [pending_need c lead (by omega)] at h0
    omega

theorem feedAll_plain {ws : List ℕ} (hst : Plain st)
    (h : feedAll feedByte st s = (ws, .inl st')) : Plain st' :=
  feedAll_invariant feedByte (fun hs hf => .inr (feedByte_unfinished hs hf))
    (fun hs hf => .inl (feedByte_emit hs.init_of_need hf)) hst h

theorem exists_next {lead : ℕ} (h : lead = 0 ∨ 0xc2 ≤ lead ∧ lead ≤ 0xf4) :
    ∃ b : UInt8, nextOk lead b.toNat := by
  rcases h with rfl | h
  · exact ⟨0x80, by decide⟩
  · by_cases he0 : lead = 0xe0
    · exact ⟨0xa0, by rw [he0]; decide⟩
    by_cases hf0 : lead = 0xf0
    · exact ⟨0x90, by rw [hf0]; decide⟩
    refine ⟨0x80, ?_⟩
    rw [nextOk_lead (by omega), secondOk, if_neg he0, show (0x80 : UInt8).toNat = 0x80 from rfl]
    split_ifs <;> omega

theorem exists_follows : ∀ (need : ℕ) {lead : ℕ}, (lead = 0 ∨ 0xc2 ≤ lead ∧ lead ≤ 0xf4) →
    ∃ bs : List UInt8, bs.length = need ∧ Follows lead bs
  | 0, _, _ => ⟨[], rfl, trivial⟩
  | need + 1, lead, h => by
    obtain ⟨b, hb⟩ := exists_next h
    obtain ⟨bs, hlen, hbs⟩ := exists_follows need (.inl rfl)
    exact ⟨b :: bs, congrArg (· + 1) hlen, hb, hbs⟩

theorem first_more_iff {l : List UInt8} : (∃ st, first feedByte .init l = .more st) ↔
    ∃ (ch : Char) (t : List UInt8), t ≠ [] ∧ l ++ t = utf8EncodeChar ch := by
  constructor
  · rintro ⟨st, h⟩
    have hl : feedAll feedByte .init l = ([], .inl st) := by rw [feedAll_eq_first, h]
    -- bytes that complete a character
    obtain ⟨bs, v, hne, hrest⟩ : ∃ bs v, bs ≠ [] ∧ feedAll feedByte st bs = ([v], .inl .init) := by
      rcases feedAll_plain (.inl rfl) hl with rfl | ⟨c, need, lead, h0, h4, hlead, rfl⟩
      · exact ⟨_, _, utf8EncodeChar_ne_nil, by simpa [utf8, Accepts] using accepts_utf8 ['a']⟩
      · obtain ⟨bs, rfl, hbs⟩ := exists_follows need hlead
        have hne : bs ≠ [] := length_pos_iff.mp h0
        have := feedAll_take_first feedByte (first_pending c lead hne (by omega) hbs)
        rw [take_length] at this
        exact ⟨bs, _, hne, this⟩
    have hall : Accepts .init (l ++ bs) [v] := by
      rw [Accepts, feedAll_append, hl]
      simp only [hrest, later_inl, nil_append]
    obtain ⟨ch, hch, -⟩ := hall.one
    exact ⟨ch, bs, hne, hch⟩
  · rintro ⟨ch, t, ht, hl⟩
    have hfirst := first_utf8 ch
    rw [← hl] at hfirst
    cases h : first feedByte .init l with
    | more st => exact ⟨st, rfl⟩
    | emit n v st =>
      rw [first_append feedByte h t] at hfirst
      have hn := (First.emit.inj hfirst).1
      have hle := (first_emit_le feedByte h).2
      have hpos := length_pos_iff.mpr ht
      rw [length_append] at hn
      omega
    | bad i =>
      rw [first_append_bad feedByte h t] at hfirst
      cases hfirst

theorem prefixCode_utf8 : PrefixCode utf8EncodeChar where
  ne_nil _ := utf8EncodeChar_ne_nil
  free := by
    intro c d t h
    have hc := first_append feedByte (first_utf8 c) t
    rw [h, first_utf8 d] at hc
    exact Char.toNat_inj.mp (First.emit.inj hc).2.1.symm

/-! ## Bytes in the state -/

theorem pack_cons (b : UInt8) (bs : List UInt8) : pack (b :: bs) = pack bs * 256 + b.toNat := by
  rw [pack, ← shiftLeft_add_eq_or_of_lt b.toNat_lt, shiftLeft_eq]

theorem pack_lt : ∀ bs : List UInt8, pack bs < 256 ^ bs.length
  | [] => Nat.one_pos
  | b :: bs => by
    have := pack_lt bs
    have hb := b.toNat_lt
    rw [pack_cons, length_cons, pow_succ]
    omega

theorem pack_concat (c : UInt8) : ∀ bs : List UInt8,
    pack (bs ++ [c]) = pack bs + c.toNat * 256 ^ bs.length
  | [] => by
    rw [nil_append, pack_cons, pack, length_nil]
    omega
  | b :: bs => by
    rw [cons_append, pack_cons, pack_cons, pack_concat c bs, length_cons, pow_succ,
      Nat.add_mul, Nat.mul_assoc]
    omega

theorem pack_or (bs : List UInt8) (c : UInt8) :
    pack bs ||| c.toNat <<< (8 * bs.length) = pack (bs ++ [c]) := by
  have hlt : pack bs < 2 ^ (8 * bs.length) := by
    rw [Nat.pow_mul]
    exact pack_lt bs
  rw [Nat.or_comm, ← shiftLeft_add_eq_or_of_lt hlt, shiftLeft_eq, Nat.pow_mul, pack_concat,
    Nat.add_comm]

theorem unpack : ∀ bs : List UInt8,
    (range bs.length).map (fun i => UInt8.ofNat (pack bs >>> (8 * i))) = bs
  | [] => rfl
  | b :: bs => by
    have hb : UInt8.ofNat (pack (b :: bs) >>> (8 * 0)) = b := by
      refine UInt8.toNat_inj.mp ?_
      have := b.toNat_lt
      rw [UInt8.toNat_ofNat', pack_cons, Nat.mul_zero, shiftRight_zero]
      omega
    have htail : ∀ i, pack (b :: bs) >>> (8 * (i + 1)) = pack bs >>> (8 * i) := by
      intro i
      have := b.toNat_lt
      rw [mul_succ, Nat.add_comm, shiftRight_add, pack_cons, shiftRight_eq_div_pow _ 8]
      congr 1
      omega
    rw [length_cons, range_succ_eq_map, map_cons, hb, map_map]
    refine congrArg (b :: ·) (.trans ?_ (unpack bs))
    exact map_congr_left fun i _ => congrArg UInt8.ofNat (htail i)

/-! ## `c8rtomb` -/

/-- The state in which `c8rtomb` has the bytes `p`. -/
def got8 (p : List UInt8) : Mbstate := ⟨pack p, PEND_C8IN ||| p.length⟩

/-- The state after a part of a character. -/
def After8 (p : List UInt8) (st : Mbstate) : Prop :=
  (p = [] ∧ st = .init) ∨ (p ≠ [] ∧ (∃ (ch : Char) (t : List UInt8), t ≠ [] ∧
    p ++ t = utf8EncodeChar ch) ∧ st = got8 p)

theorem length_utf8EncodeChar_le (ch : Char) : (utf8EncodeChar ch).length ≤ 4 := by
  rw [String.length_utf8EncodeChar]
  exact ch.utf8Size_le_four

theorem length_part_lt {p t : List UInt8} (ht : t ≠ []) (h : p ++ t = utf8EncodeChar ch) :
    p.length < 4 := by
  have hle := length_utf8EncodeChar_le ch
  have hpos := length_pos_iff.mpr ht
  rw [← h, length_append] at hle
  omega

theorem c8Length_eq {bs : List UInt8}
    (h : utf8EncodeChar ch = b :: bs) (hbs : bs ≠ []) : c8Length b = bs.length + 1 := by
  obtain ⟨b', bs', he, hseq⟩ := isSequence_utf8 ch
  obtain ⟨rfl, rfl⟩ := cons.inj (he.symm.trans h)
  rcases hseq with ⟨-, hnil, -⟩ | ⟨c, need, hl, hlen, -⟩
  · exact absurd hnil hbs
  · rw [hlen]
    unfold leadByte at hl
    have he0 : b' < 0xe0 ↔ b'.toNat < 0xe0 := UInt8.lt_iff_toNat_lt
    have hf0 : b' < 0xf0 ↔ b'.toNat < 0xf0 := UInt8.lt_iff_toNat_lt
    simp only [c8Length, he0, hf0]
    split_ifs at hl with h2 h3 h4
    · cases hl
      exact if_pos (by omega)
    · cases hl
      rw [if_neg (by omega), if_pos (by omega)]
    · cases hl
      rw [if_neg (by omega), if_neg (by omega)]

theorem got8_bits (h0 : p ≠ []) (h4 : p.length < 4) :
    (got8 p).n &&& PEND_C8IN ≠ 0 ∧ (got8 p).n &&& 3 = p.length := by
  have hpos := length_pos_iff.mpr h0
  have : ∀ k, 0 < k → k < 4 →
      (PEND_C8IN ||| k) &&& PEND_C8IN ≠ 0 ∧ (PEND_C8IN ||| k) &&& 3 = k := by
    intro k hk hk4
    match k, hk, hk4 with
    | 1, _, _ | 2, _, _ | 3, _, _ => decide
  exact this p.length hpos h4

theorem c8rtomb_got (h0 : p ≠ []) (h4 : p.length < 4) (c : UInt8) : c8rtomb true c (got8 p) =
      if (mbrtowc (some (p ++ [c])) .init).ret = .ilseq then ⟨none, [], .init⟩
      else if p.length + 1 < c8Length ((p ++ [c]).headD 0) then ⟨some 0, [], got8 (p ++ [c])⟩
      else ⟨some (c8Length ((p ++ [c]).headD 0)), (p ++ [c]).take (c8Length ((p ++ [c]).headD 0)),
        .init⟩ := by
  obtain ⟨hbit, hgot⟩ := got8_bits h0 h4
  have hne : ¬ p.length = 0 := fun h => h0 (length_eq_zero_iff.mp h)
  have hbytes : (range p.length).map (fun i => UInt8.ofNat ((got8 p).st >>> (8 * i))) = p :=
    unpack p
  have hst : (got8 p).st ||| c.toNat <<< (8 * p.length) = pack (p ++ [c]) := pack_or p c
  have hnext : got8 (p ++ [c]) = ⟨pack (p ++ [c]), PEND_C8IN ||| (p.length + 1)⟩ := by
    rw [got8, length_append, length_singleton]
  simp only [c8rtomb, Bool.not_true, Bool.false_eq_true, if_false, if_pos hbit, hgot, if_neg hne,
    hbytes, hst, hnext]

theorem mbrtowc_ret (hb : b ≠ 0) (s : List UInt8) :
    (mbrtowc (some (b :: s)) .init).ret = .ilseq ↔ ∃ i, first feedByte .init (b :: s) = .bad i := by
  rw [mbrtowc_eq_first .init s hb]
  cases first feedByte .init (b :: s) with
  | more st | emit n v st => exact ⟨nofun, fun ⟨_, h⟩ => nomatch h⟩
  | bad i => exact ⟨fun _ => ⟨i, rfl⟩, fun _ => rfl⟩

/-- A byte that makes the part of a character `p` is refused, or taken, or completes the character.
-/
def Step8 (r : Wrote) (p : List UInt8) : Prop :=
  (r = ⟨none, [], .init⟩ ∧ ¬ ∃ (ch : Char) (t : List UInt8), p ++ t = utf8EncodeChar ch) ∨
  (r = ⟨some 0, [], got8 p⟩ ∧ ∃ (ch : Char) (t : List UInt8), t ≠ [] ∧ p ++ t = utf8EncodeChar ch) ∨
  ∃ ch : Char, p = utf8EncodeChar ch ∧ r = ⟨some p.length, p, .init⟩

theorem c8rtomb_next (h0 : p ≠ []) (hp : ∃ (ch : Char) (t : List UInt8), t ≠ [] ∧
    p ++ t = utf8EncodeChar ch) (c : UInt8) : Step8 (c8rtomb true c (got8 p)) (p ++ [c]) := by
  obtain ⟨st, hmore⟩ := first_more_iff.mpr hp
  obtain ⟨ch₀, t₀, ht₀, hch₀⟩ := hp
  have h4 := length_part_lt ht₀ hch₀
  obtain ⟨b, bs, rfl⟩ := exists_cons_of_ne_nil h0
  have hb : b ≠ 0 := by
    rintro rfl
    cases hmore
  rw [c8rtomb_got h0 h4 c, cons_append, headD_cons]
  by_cases hbad : (mbrtowc (some (b :: (bs ++ [c]))) .init).ret = .ilseq
  · obtain ⟨i, hf⟩ := (mbrtowc_ret hb _).mp hbad
    refine .inl ⟨if_pos hbad, ?_⟩
    rintro ⟨ch, t, hch⟩
    have := first_append_bad feedByte hf t
    rw [hch, first_utf8 ch] at this
    cases this
  rw [if_neg hbad]
  cases hf : first feedByte .init (b :: (bs ++ [c])) with
  | bad i => exact absurd ((mbrtowc_ret hb _).mpr ⟨i, hf⟩) hbad
  | more st' =>
    obtain ⟨ch, t, ht, hch⟩ := first_more_iff.mp ⟨st', hf⟩
    refine .inr (.inl ⟨?_, ch, t, ht, hch⟩)
    have hlen : c8Length b = (bs ++ [c] ++ t).length + 1 := c8Length_eq hch.symm (by simp)
    have hpos := length_pos_iff.mpr ht
    rw [if_pos]
    rw [hlen, length_append, length_append, length_singleton, length_cons]
    omega
  | emit n v st' =>
    obtain ⟨⟨ch, t, hch, -, -⟩, -⟩ := first_emit_iff.mp hf
    -- the character does not end before `c`
    have ht : t = [] := by
      rcases eq_nil_or_concat t with rfl | ⟨t, x, rfl⟩
      · rfl
      · rw [concat_eq_append, ← append_assoc, ← cons_append] at hch
        obtain ⟨hp, -⟩ := append_inj' hch rfl
        have := first_append feedByte (first_utf8 ch) t
        rw [← hp, hmore] at this
        cases this
    rw [ht, append_nil] at hch
    have hlen : c8Length b = (bs ++ [c]).length + 1 := c8Length_eq hch.symm (by simp)
    rw [length_append, length_singleton] at hlen
    refine .inr (.inr ⟨ch, hch, ?_⟩)
    rw [if_neg (by rw [hlen, length_cons]; omega), hlen, length_cons,
      take_of_length_le (by rw [length_cons, length_append, length_singleton]),
      length_append, length_singleton]

theorem c8rtomb_first (c : UInt8) : Step8 (c8rtomb true c .init) [c] := by
  have h80 : c < 0x80 ↔ c.toNat < 0x80 := UInt8.lt_iff_toNat_lt
  have hc2 : c < 0xc2 ↔ c.toNat < 0xc2 := UInt8.lt_iff_toNat_lt
  have hf4 : c > 0xf4 ↔ 0xf4 < c.toNat := UInt8.lt_iff_toNat_lt
  have hcall : c8rtomb true c .init = if c < 0x80 then ⟨some 1, [c], .init⟩
      else if c < 0xc2 ∨ c > 0xf4 then ⟨none, [], .init⟩ else ⟨some 0, [], got8 [c]⟩ := by
    have hst : got8 [c] = ⟨c.toNat, PEND_C8IN ||| 1⟩ := by
      rw [got8, pack_cons, pack, Nat.zero_mul, Nat.zero_add]
      rfl
    rw [hst]
    rfl
  rw [hcall]
  by_cases h1 : c < 0x80
  · obtain ⟨ch, hch, -⟩ := IsSequence.exists_char (.inl ⟨h80.mp h1, rfl, rfl⟩)
    exact .inr (.inr ⟨ch, hch.symm, if_pos h1⟩)
  rw [if_neg h1]
  by_cases h2 : c < 0xc2 ∨ c > 0xf4
  · refine .inl ⟨if_pos h2, ?_⟩
    rintro ⟨ch, t, hch⟩
    obtain ⟨b, bs, he, hseq⟩ := isSequence_utf8 ch
    obtain ⟨rfl, rfl⟩ := cons.inj (hch.trans he)
    rcases hseq with ⟨hb, -⟩ | ⟨v, need, hl, -⟩
    · exact h1 (h80.mpr hb)
    · obtain ⟨-, -, hlo, hhi⟩ := leadByte_bounds hl
      rcases h2 with h2 | h2
      · exact absurd (hc2.mp h2) (not_lt.mpr hlo)
      · exact absurd (hf4.mp h2) (not_lt.mpr hhi)
  · refine .inr (.inl ⟨if_neg h2, first_more_iff.mp ?_⟩)
    rw [hc2, hf4] at h2
    rw [h80] at h1
    obtain ⟨v, need, hl⟩ : ∃ v need, leadByte c.toNat = some (v, need) := by
      unfold leadByte
      split_ifs
      · exact ⟨_, _, rfl⟩
      · exact ⟨_, _, rfl⟩
      · exact ⟨_, _, rfl⟩
      · omega
    exact ⟨pending v need c.toNat, by rw [first, feedByte_lead hl]; rfl⟩

theorem c8rtomb_step (h : After8 p st) (c : UInt8) : Step8 (c8rtomb true c st) (p ++ [c]) := by
  rcases h with ⟨rfl, rfl⟩ | ⟨h0, hp, rfl⟩
  · exact c8rtomb_first c
  · exact c8rtomb_next h0 hp c

theorem reads8 : Reads (fun st u => (c8rtomb true u st).fed) utf8EncodeChar
    utf8EncodeChar .init After8 where
  code := prefixCode_utf8
  start := by
    intro st
    constructor
    · rintro (⟨-, h⟩ | ⟨h, -⟩)
      · exact h
      · exact absurd rfl h
    · exact fun h => .inl ⟨rfl, h⟩
  part := by
    rintro p st (⟨rfl, -⟩ | ⟨-, h, -⟩)
    · exact ⟨'a', utf8EncodeChar 'a', utf8EncodeChar_ne_nil, rfl⟩
    · exact h
  step := by
    intro p st c hst
    rcases c8rtomb_step hst c with ⟨hr, hno⟩ | ⟨hr, hp⟩ | ⟨ch, hch, hr⟩
    · exact .inl ⟨by rw [hr]; rfl, hno⟩
    · exact .inr (.inl ⟨_, by rw [hr]; rfl,
        .inr ⟨append_ne_nil_of_right_ne_nil _ (cons_ne_nil _ _), hp, rfl⟩⟩)
    · refine .inr (.inr ⟨ch, hch, ?_⟩)
      rw [hr, ← hch, length_append]
      rfl

theorem c8rtomb_end (h0 : p ≠ []) (h : After8 p st) : c8rtomb false 0 st = ⟨none, [], .init⟩ := by
  rcases h with ⟨rfl, -⟩ | ⟨-, ⟨ch, t, ht, hch⟩, rfl⟩
  · exact absurd rfl h0
  · exact if_pos (got8_bits h0 (length_part_lt ht hch)).1

/-! ## `c16rtomb` -/

/-- The encoding form UTF-16. -/
def utf16EncodeChar (ch : Char) : List UInt16 :=
  if ch.toNat < 0x10000 then [UInt16.ofNat ch.toNat]
  else [UInt16.ofNat (0xd800 + (ch.toNat - 0x10000) / 0x400),
    UInt16.ofNat (0xdc00 + (ch.toNat - 0x10000) % 0x400)]

theorem toNat_ofNat16 {n : ℕ} (h : n < 0x10000) : (UInt16.ofNat n).toNat = n :=
  UInt16.toNat_ofNat_of_lt' h

theorem utf16_cases (ch : Char) : (∃ u : UInt16, utf16EncodeChar ch = [u] ∧ u.toNat = ch.toNat ∧
      ¬ (0xd800 ≤ u.toNat ∧ u.toNat ≤ 0xdfff)) ∨
    ∃ h l : UInt16, utf16EncodeChar ch = [h, l] ∧ (0xd800 ≤ h.toNat ∧ h.toNat ≤ 0xdbff) ∧
      (0xdc00 ≤ l.toNat ∧ l.toNat ≤ 0xdfff) ∧
      ch.toNat = 0x10000 + (h.toNat - 0xd800) * 0x400 + (l.toNat - 0xdc00) := by
  have hr := toNat_range ch
  by_cases h : ch.toNat < 0x10000
  · refine .inl ⟨UInt16.ofNat ch.toNat, if_pos h, toNat_ofNat16 h, ?_⟩
    rw [toNat_ofNat16 h]
    omega
  · refine .inr ⟨_, _, if_neg h, ?_⟩
    rw [toNat_ofNat16 (by omega), toNat_ofNat16 (by omega)]
    omega

theorem utf16_single {u : UInt16} (h : ¬ (0xd800 ≤ u.toNat ∧ u.toNat ≤ 0xdfff)) :
    ∃ ch : Char, utf16EncodeChar ch = [u] ∧ ch.toNat = u.toNat := by
  have hu := u.toNat_lt
  obtain ⟨ch, hch⟩ := Multibyte.exists_char (v := u.toNat) (by omega)
  refine ⟨ch, ?_, hch⟩
  rw [utf16EncodeChar, if_pos (by omega), hch, UInt16.ofNat_toNat]

theorem utf16_pair {h l : UInt16} (hh : 0xd800 ≤ h.toNat ∧ h.toNat ≤ 0xdbff)
    (hl : 0xdc00 ≤ l.toNat ∧ l.toNat ≤ 0xdfff) : ∃ ch : Char, utf16EncodeChar ch = [h, l] ∧
      ch.toNat = 0x10000 + (h.toNat - 0xd800) * 0x400 + (l.toNat - 0xdc00) := by
  obtain ⟨ch, hch⟩ := Multibyte.exists_char
    (v := 0x10000 + (h.toNat - 0xd800) * 0x400 + (l.toNat - 0xdc00)) (by omega)
  have h1 : 0xd800 + (ch.toNat - 0x10000) / 0x400 = h.toNat := by omega
  have h2 : 0xdc00 + (ch.toNat - 0x10000) % 0x400 = l.toNat := by omega
  refine ⟨ch, ?_, hch⟩
  rw [utf16EncodeChar, if_neg (by omega), h1, h2, UInt16.ofNat_toNat, UInt16.ofNat_toNat]

theorem prefixCode_utf16 : PrefixCode utf16EncodeChar where
  ne_nil := by
    intro ch
    rcases utf16_cases ch with ⟨u, h, -⟩ | ⟨hi, lo, h, -⟩
    · rw [h]
      exact cons_ne_nil _ _
    · rw [h]
      exact cons_ne_nil _ _
  free := by
    intro c d t heq
    rcases utf16_cases c with ⟨u, hc, hcu, hcn⟩ | ⟨h, l, hc, hh, hl, hcv⟩
    · rcases utf16_cases d with ⟨u', hd, hdu, -⟩ | ⟨h', l', hd, hh', -⟩
      · rw [hc, hd] at heq
        obtain ⟨rfl, -⟩ := cons.inj heq
        exact Char.toNat_inj.mp (hcu.symm.trans hdu)
      · rw [hc, hd] at heq
        obtain ⟨rfl, -⟩ := cons.inj heq
        omega
    · rcases utf16_cases d with ⟨u', hd, -, hdn⟩ | ⟨h', l', hd, -, -, hdv⟩
      · rw [hc, hd] at heq
        cases heq
      · rw [hc, hd] at heq
        obtain ⟨rfl, hrest⟩ := cons.inj heq
        obtain ⟨rfl, -⟩ := cons.inj hrest
        exact Char.toNat_inj.mp (hcv.trans hdv.symm)

/-- The state after a part of a character: nothing, or a high surrogate. -/
def After16 (p : List UInt16) (st : Mbstate) : Prop :=
  (p = [] ∧ st = .init) ∨ ∃ h : UInt16, (0xd800 ≤ h.toNat ∧ h.toNat ≤ 0xdbff) ∧ p = [h] ∧
    st = ⟨h.toNat, PEND_HIGH⟩

theorem writeOn_char (ch : Char) (st : Mbstate) : writeOn true ch.toNat st =
    ⟨some (utf8EncodeChar ch).length, utf8EncodeChar ch, st⟩ := by
  rw [writeOn, wcrtomb_utf8]
  rfl

theorem fed_char (ch : Char) (st : Mbstate) :
    (writeOn true ch.toNat st).fed = .emit (utf8EncodeChar ch) st := by
  have hpos := length_pos_iff.mpr (utf8EncodeChar_ne_nil (c := ch))
  rw [writeOn_char, Wrote.fed]
  cases hlen : (utf8EncodeChar ch).length with
  | zero => omega
  | succ n => rfl

theorem c16rtomb_first (u : UInt16) : c16rtomb true u .init =
    if 0xd800 ≤ u.toNat ∧ u.toNat ≤ 0xdbff then ⟨some 0, [], ⟨u.toNat, PEND_HIGH⟩⟩
    else if 0xdc00 ≤ u.toNat ∧ u.toNat ≤ 0xdfff then ⟨none, [], .init⟩
    else writeOn true u.toNat .init := by
  have hbit : ¬ (Mbstate.init.n &&& PEND_HIGH ≠ 0) := by decide
  simp only [c16rtomb, hbit, if_false, if_true]

theorem c16rtomb_second (h u : UInt16) : c16rtomb true u ⟨h.toNat, PEND_HIGH⟩ =
    if u.toNat < 0xdc00 ∨ u.toNat > 0xdfff then ⟨none, [], .init⟩
    else writeOn true (0x10000 + (h.toNat - 0xd800) <<< 10 + (u.toNat - 0xdc00)) .init :=
  if_pos (show PEND_HIGH &&& PEND_HIGH ≠ 0 by decide)

theorem reads16 : Reads (fun st u => (c16rtomb true u st).fed) utf16EncodeChar
    utf8EncodeChar .init After16 where
  code := prefixCode_utf16
  start := by
    intro st
    constructor
    · rintro (⟨-, h⟩ | ⟨h, -, hp, -⟩)
      · exact h
      · cases hp
    · exact fun h => .inl ⟨rfl, h⟩
  part := by
    rintro p st (⟨rfl, -⟩ | ⟨h, hh, rfl, -⟩)
    · exact ⟨'a', utf16EncodeChar 'a', prefixCode_utf16.ne_nil 'a', rfl⟩
    · obtain ⟨ch, hch, -⟩ := utf16_pair (l := 0xdc00) hh (by decide)
      exact ⟨ch, [0xdc00], cons_ne_nil _ _, hch.symm⟩
  step := by
    rintro p st u (⟨rfl, rfl⟩ | ⟨h, hh, rfl, rfl⟩)
    · rw [c16rtomb_first]
      by_cases h1 : 0xd800 ≤ u.toNat ∧ u.toNat ≤ 0xdbff
      · exact .inr (.inl ⟨_, by rw [if_pos h1]; rfl, .inr ⟨u, h1, rfl, rfl⟩⟩)
      rw [if_neg h1]
      by_cases h2 : 0xdc00 ≤ u.toNat ∧ u.toNat ≤ 0xdfff
      · refine .inl ⟨by rw [if_pos h2]; rfl, ?_⟩
        rintro ⟨ch, t, hch⟩
        rcases utf16_cases ch with ⟨v, he, -, hv⟩ | ⟨hi, lo, he, hhi, -⟩
        · obtain ⟨rfl, -⟩ := cons.inj (hch.trans he)
          omega
        · obtain ⟨rfl, -⟩ := cons.inj (hch.trans he)
          omega
      · obtain ⟨ch, he, hv⟩ := utf16_single (u := u) (by omega)
        refine .inr (.inr ⟨ch, he.symm, ?_⟩)
        rw [if_neg h2, ← hv]
        exact fed_char ch .init
    · rw [c16rtomb_second]
      by_cases h1 : u.toNat < 0xdc00 ∨ u.toNat > 0xdfff
      · refine .inl ⟨by rw [if_pos h1]; rfl, ?_⟩
        rintro ⟨ch, t, hch⟩
        rcases utf16_cases ch with ⟨v, he, -, hv⟩ | ⟨hi, lo, he, -, hlo, -⟩
        · cases hch.trans he
        · obtain ⟨-, hrest⟩ := cons.inj (hch.trans he)
          obtain ⟨rfl, -⟩ := cons.inj hrest
          omega
      · obtain ⟨ch, he, hv⟩ := utf16_pair (l := u) hh (by omega)
        refine .inr (.inr ⟨ch, he.symm, ?_⟩)
        rw [if_neg h1, shiftLeft_eq, ← hv]
        exact fed_char ch .init

theorem c16rtomb_end {p : List UInt16} (h0 : p ≠ []) (h : After16 p st) :
    c16rtomb false 0 st = ⟨none, [], .init⟩ := by
  rcases h with ⟨rfl, -⟩ | ⟨h, -, -, rfl⟩
  · exact absurd rfl h0
  · exact (if_pos (show PEND_HIGH &&& PEND_HIGH ≠ 0 by decide)).trans (if_pos (by decide))

/-! ## `c32rtomb` -/

def utf32EncodeChar (ch : Char) : List UInt32 := [UInt32.ofNat ch.toNat]

theorem c32rtomb_char (ch : Char) (st : Mbstate) :
    c32rtomb true (UInt32.ofNat ch.toNat) st = writeOn true ch.toNat st := by
  have hr := toNat_range ch
  have hv : (UInt32.ofNat ch.toNat).toNat = ch.toNat := by
    rw [UInt32.toNat_ofNat']
    omega
  rw [c32rtomb, hv, if_neg (by omega), if_pos rfl]

theorem feed32 (cs : List Char) : feedUnits c32rtomb .init (cs.flatMap utf32EncodeChar) =
    (cs.map utf8EncodeChar, .inl .init) := by
  induction cs with
  | nil => rfl
  | cons ch cs ih =>
    rw [feedUnits] at ih ⊢
    rw [flatMap_cons, utf32EncodeChar, singleton_append, feedAll, c32rtomb_char, fed_char]
    simp only [ih, later_inl, map_cons]

/-! ## From bytes to units -/

/-- What the proofs need of `mbrtoc8`, `mbrtoc16` and `mbrtoc32`: they give the units of the
character that `mbrtowc` finds, first from the call that finds it and then from the state `keep`. -/
structure Expands {α : Type} (f : List UInt8 → Mbstate → UOutcome α) (enc : Char → List α)
    (keep : List α → Mbstate) : Prop where
  keep_nil : keep [] = .init
  length_le : ∀ ch, (enc ch).length ≤ 4
  more : ∀ {s st st'}, Plain st → first feedByte st s = .more st' →
    (f s st).ret = .incomplete ∧ (f s st).st = st'
  emit : ∀ {s st n} {ch : Char}, Plain st → first feedByte st s = .emit n ch.toNat .init →
    ∃ k u us, max k 1 = n ∧ enc ch = u :: us ∧ f s st = ⟨.count k, some u, keep us⟩
  drain : ∀ {ch p u us} (s), enc ch = p ++ u :: us → p ≠ [] →
    f s (keep (u :: us)) = ⟨.stored, some u, keep us⟩

section Expands

variable {α : Type} {f : List UInt8 → Mbstate → UOutcome α} {enc : Char → List α}
  {keep : List α → Mbstate}

theorem Expands.unitsLoop_keep (h : Expands f enc keep) (s : List UInt8) (fuel : ℕ) :
    ∀ {p us : List α}, enc ch = p ++ us → p ≠ [] → unitsLoop f (fuel + us.length) (keep us) s =
      (unitsLoop f fuel .init s).map fun t => (us ++ t.1, t.2)
  | p, [], _, _ => by
    rw [h.keep_nil, length_nil, Nat.add_zero]
    cases unitsLoop f fuel .init s with
    | none | some t => rfl
  | p, u :: us, hch, hp => by
    have hnext : enc ch = (p ++ [u]) ++ us := by rw [hch, append_assoc, singleton_append]
    rw [length_cons, ← Nat.add_assoc, unitsLoop]
    simp only [h.drain s hch hp, Option.toList_some,
      h.unitsLoop_keep s fuel hnext (append_ne_nil_of_right_ne_nil _ (cons_ne_nil _ _))]
    cases unitsLoop f fuel .init s with
    | none | some t => rfl

theorem Expands.unitsLoop_eq (h : Expands f enc keep) {fuel : ℕ}
    {cs : List Char} (hst : Plain st) (hs : feedAll feedByte st s = (cs.map Char.toNat, .inl st'))
    (hfuel : 4 * s.length + 1 ≤ fuel) : unitsLoop f fuel st s = some (cs.flatMap enc, st') := by
  induction fuel using Nat.strong_induction_on generalizing s st cs with
  | _ fuel ih =>
    obtain ⟨fuel, rfl⟩ := exists_eq_succ_of_ne_zero (show fuel ≠ 0 by omega)
    rw [feedAll_eq_first] at hs
    rw [unitsLoop]
    cases hf : first feedByte st s with
    | more r =>
      obtain ⟨hret, hr⟩ := h.more hst hf
      rw [hf] at hs
      obtain ⟨hnil, hst'⟩ := Prod.mk.inj hs
      obtain rfl : cs = [] := map_eq_nil_iff.mp hnil.symm
      simp only [hret, hr]
      rw [Sum.inl.inj hst']
      rfl
    | bad i =>
      rw [hf] at hs
      cases (Prod.mk.inj hs).2
    | emit n v r =>
      obtain rfl := first_emit_init hst.init_of_need hf
      obtain ⟨hpos, hle⟩ := first_emit_le feedByte hf
      rw [hf] at hs
      obtain ⟨hv, he⟩ := Prod.mk.inj hs
      match cs, hv with
      | ch :: cs, hv =>
        obtain ⟨rfl, hrest⟩ := cons.inj hv
        obtain ⟨k, u, us, rfl, hch, hcall⟩ := h.emit hst hf
        have hlen : us.length + 1 ≤ 4 := by
          have := h.length_le ch
          rwa [hch] at this
        obtain ⟨fuel', rfl⟩ : ∃ fuel', fuel = fuel' + us.length := ⟨fuel - us.length, by omega⟩
        have hdrop : (s.drop (max k 1)).length = s.length - max k 1 := length_drop
        simp only [hcall, Option.toList_some]
        rw [h.unitsLoop_keep _ fuel' (p := [u]) hch (cons_ne_nil _ _),
          ih fuel' (by omega) (.inl rfl) (Prod.ext hrest (later_eq_inl.mp he)) (by omega)]
        rw [flatMap_cons, hch]
        rfl

theorem Expands.units_eq (h : Expands f enc keep) : ∀ {ps : List (List UInt8)} {st st' : Mbstate}
    {cs : List Char}, Plain st → feedAll feedByte st ps.flatten = (cs.map Char.toNat, .inl st') →
    units f st ps = some (cs.flatMap enc, st')
  | [], st, st', cs, _, hs => by
    obtain ⟨hnil, hst'⟩ := Prod.mk.inj hs
    obtain rfl : cs = [] := map_eq_nil_iff.mp hnil.symm
    rw [units, Sum.inl.inj hst']
    rfl
  | p :: ps, st, st', cs, hst, hs => by
    rw [flatten_cons, feedAll_append] at hs
    rcases hp : feedAll feedByte st p with ⟨ws, r | i⟩
    · rw [hp] at hs
      obtain ⟨hws, he⟩ := Prod.mk.inj hs
      obtain ⟨cs₁, cs₂, rfl, rfl, h2⟩ := append_eq_map_iff.mp hws
      have hpiece := h.unitsLoop_eq hst hp (show 4 * p.length + 1 ≤ 4 * p.length + 4 by omega)
      have hrest := h.units_eq (feedAll_plain hst hp) (Prod.ext h2.symm (later_eq_inl.mp he))
      rw [units, hpiece]
      simp only [Option.bind_eq_bind, Option.bind_some, hrest]
      rw [flatMap_append]
    · rw [hp] at hs
      cases (Prod.mk.inj hs).2

theorem Expands.units_text (h : Expands f enc keep) {ps : List (List UInt8)} {cs : List Char}
    (hps : ps.flatten = utf8 cs) : units f .init ps = some (cs.flatMap enc, .init) :=
  h.units_eq (.inl rfl) (by rw [hps]; exact accepts_utf8 cs)

end Expands

/-! ## The three conversions -/

theorem Plain.no_bit (h : Plain st) {k : ℕ} (hk : 16 ≤ k) : st.n &&& 2 ^ k = 0 := by
  have hlt : st.n < 2 ^ 16 := by
    rcases h with rfl | ⟨c, need, lead, -, h4, hlead, rfl⟩
    · decide
    · rw [pending_n c lead (by omega)]
      omega
  rw [and_two_pow, testBit_lt_two_pow (hlt.trans_le (Nat.pow_le_pow_right (by decide) hk))]
  exact Nat.zero_mul _

theorem feedByte_zero (h : st.n &&& 7 ≠ 0) : feedByte st 0 = .bad := by
  rw [feedByte, if_neg h, feedNext, if_neg]
  exact fun hok => absurd (nextOk_ge (b := 0) hok) (by decide)

theorem mbrtowc_first (s : List UInt8) (st : Mbstate) : (∀ {st'}, first feedByte st s = .more st' →
      ∃ i, mbrtowc (some s) st = ⟨.incomplete, none, st', i⟩) ∧
    ∀ {n v st'}, first feedByte st s = .emit n v st' →
      ∃ k i, max k 1 = n ∧ mbrtowc (some s) st = ⟨.count k, some v, st', i⟩ := by
  rcases s with _ | ⟨b, s⟩
  · exact ⟨fun h => ⟨0, by cases h; rfl⟩, fun h => by cases h⟩
  by_cases hb : b = 0
  · subst hb
    by_cases h0 : st.n &&& 7 = 0
    · rw [first, feedByte, if_pos h0, if_pos (by decide)]
      exact ⟨fun h => (by cases h), fun h => ⟨0, 1, by cases h; exact ⟨rfl, if_pos h0⟩⟩⟩
    · rw [first, feedByte_zero h0]
      exact ⟨fun h => (by cases h), fun h => by cases h⟩
  · rw [mbrtowc_eq_first st s hb]
    refine ⟨fun h => ⟨_, by rw [h]; rfl⟩, fun {n _ _} h => ?_⟩
    have hpos := (first_emit_le feedByte h).1
    rw [h, ofFirst, Nat.zero_add]
    exact ⟨n, n, Nat.max_eq_left hpos, rfl⟩

theorem expands32 : Expands mbrtoc32 utf32EncodeChar fun _ => .init where
  keep_nil := rfl
  length_le _ := by
    rw [utf32EncodeChar, length_singleton]
    decide
  more := by
    intro s st st' _ h
    obtain ⟨i, hr⟩ := (mbrtowc_first s st).1 h
    simp only [mbrtoc32, hr]
    exact ⟨rfl, rfl⟩
  emit := by
    intro s st n ch _ h
    obtain ⟨k, i, hk, hr⟩ := (mbrtowc_first s st).2 h
    refine ⟨k, UInt32.ofNat ch.toNat, [], hk, rfl, ?_⟩
    simp only [mbrtoc32, hr]
    rfl
  drain := by
    intro ch p u us s hch hp
    have hlen := congrArg length hch
    have hpos := length_pos_iff.mpr hp
    rw [utf32EncodeChar, length_singleton, length_append, length_cons] at hlen
    omega

/-- The state of `mbrtoc16` with the unit that is still to be returned. -/
def keep16 : List UInt16 → Mbstate
  | [] => .init
  | u :: _ => ⟨u.toNat, PEND_LOW⟩

theorem expands16 : Expands mbrtoc16 utf16EncodeChar keep16 where
  keep_nil := rfl
  length_le ch := by
    rcases utf16_cases ch with ⟨u, h, -⟩ | ⟨hi, lo, h, -⟩
    · rw [h, length_singleton]
      decide
    · rw [h, length_cons, length_singleton]
      decide
  more := by
    intro s st st' hst h
    obtain ⟨i, hr⟩ := (mbrtowc_first s st).1 h
    have hbit : ¬ (st.n &&& PEND_LOW ≠ 0) := not_not.mpr (hst.no_bit (k := 31) (by decide))
    simp only [mbrtoc16, if_neg hbit, hr]
    exact ⟨rfl, rfl⟩
  emit := by
    intro s st n ch hst h
    obtain ⟨k, i, hk, hr⟩ := (mbrtowc_first s st).2 h
    have hbit : ¬ (st.n &&& PEND_LOW ≠ 0) := not_not.mpr (hst.no_bit (k := 31) (by decide))
    have hrange := toNat_range ch
    simp only [mbrtoc16, if_neg hbit, hr, Option.getD_some]
    by_cases hch : ch.toNat < 0x10000
    · exact ⟨k, UInt16.ofNat ch.toNat, [], hk, if_pos hch, if_neg (by omega)⟩
    · refine ⟨k, _, _, hk, if_neg hch, ?_⟩
      rw [if_pos (by omega), high_eq (by omega), low_eq, keep16, toNat_ofNat16 (by omega)]
  drain := by
    intro ch p u us s hch hp
    have hus : us = [] := by
      have hlen := congrArg length hch
      have hpos := length_pos_iff.mpr hp
      rw [length_append, length_cons] at hlen
      refine length_eq_zero_iff.mp ?_
      rcases utf16_cases ch with ⟨v, h, -⟩ | ⟨hi, lo, h, -⟩
      · rw [h, length_singleton] at hlen
        omega
      · rw [h, length_cons, length_singleton] at hlen
        omega
    have hbit : (keep16 [u]).n &&& PEND_LOW ≠ 0 := show PEND_LOW &&& PEND_LOW ≠ 0 by decide
    rw [hus, mbrtoc16, if_pos hbit]
    exact congrArg (UOutcome.mk .stored · .init) (congrArg some UInt16.ofNat_toNat)

/-- The state of `mbrtoc8` with the bytes that are still to be returned. -/
def keep8 (us : List UInt8) : Mbstate :=
  if us.length ≠ 0 then ⟨pack us, PEND_C8OUT ||| us.length⟩ else .init

theorem expands8 : Expands mbrtoc8 utf8EncodeChar keep8 where
  keep_nil := rfl
  length_le := length_utf8EncodeChar_le
  more := by
    intro s st st' hst h
    obtain ⟨i, hr⟩ := (mbrtowc_first s st).1 h
    have hbit : ¬ (st.n &&& PEND_C8OUT ≠ 0) := not_not.mpr (hst.no_bit (k := 29) (by decide))
    simp only [mbrtoc8, if_neg hbit, hr]
    exact ⟨rfl, rfl⟩
  emit := by
    intro s st n ch hst h
    obtain ⟨k, i, hk, hr⟩ := (mbrtowc_first s st).2 h
    have hbit : ¬ (st.n &&& PEND_C8OUT ≠ 0) := not_not.mpr (hst.no_bit (k := 29) (by decide))
    obtain ⟨b, bs, hb⟩ := exists_cons_of_ne_nil (utf8EncodeChar_ne_nil (c := ch))
    refine ⟨k, b, bs, hk, hb, ?_⟩
    simp only [mbrtoc8, if_neg hbit, hr, Option.getD_some, wcrtomb_utf8, hb, head?_cons,
      length_cons, tail_cons, Nat.add_sub_cancel, keep8]
    congr 1
    by_cases hlen : bs.length = 0
    · rw [if_neg (by omega), if_neg (by omega)]
    · rw [if_pos (by omega), if_pos hlen]
  drain := by
    intro ch p u us s hch hp
    have hlen : us.length < 3 := by
      have hlen := congrArg length hch
      have hpos := length_pos_iff.mpr hp
      have hle := length_utf8EncodeChar_le ch
      rw [length_append, length_cons] at hlen
      omega
    have hbits : (PEND_C8OUT ||| (us.length + 1)) &&& PEND_C8OUT ≠ 0 ∧
        (PEND_C8OUT ||| (us.length + 1)) &&& 3 = us.length + 1 := by
      match us.length, hlen with
      | 0, _ | 1, _ | 2, _ => decide
    have hkeep : keep8 (u :: us) = ⟨pack (u :: us), PEND_C8OUT ||| (us.length + 1)⟩ :=
      if_pos (succ_ne_zero _)
    have hu := u.toNat_lt
    have hlow : UInt8.ofNat (pack (u :: us) &&& 0xff) = u := by
      refine UInt8.toNat_inj.mp ?_
      rw [UInt8.toNat_ofNat', pack_cons, and_two_pow_sub_one_eq_mod _ 8]
      omega
    have hrest : pack (u :: us) >>> 8 = pack us := by
      rw [pack_cons, shiftRight_eq_div_pow]
      omega
    rw [hkeep, mbrtoc8, if_pos hbits.1]
    simp only [hbits.2, hlow, hrest, Nat.add_sub_cancel, keep8]

/-! ## Both directions -/

/-- Units that are refused at the first one that rules out every text, or, if there is none, at the
end of the conversion; the state is initial again. -/
def Refused {α : Type} (g : Bool → α → Mbstate → Wrote) (zero : α) (enc : Char → List α)
    (us : List α) : Prop :=
  ∃ i out st, feedUnits g .init (us.take i) = (out, .inl st) ∧
    (∃ (cs : List Char) (t : List α), us.take i ++ t = cs.flatMap enc) ∧
    ((∃ u, us[i]? = some u ∧ g true u st = ⟨none, [], .init⟩ ∧
      ¬ ∃ (cs : List Char) (t : List α), us.take (i + 1) ++ t = cs.flatMap enc) ∨
    (i = us.length ∧ g false zero st = ⟨none, [], .init⟩))

theorem Wrote.ret_of_fed {r : Wrote} (h : r.fed = .bad) : r.ret = none := by
  unfold Wrote.fed at h
  split at h
  · assumption
  · cases h
  · cases h

theorem writeOn_none {dst : Bool} {c : ℕ} (h : (writeOn dst c st).ret = none) :
    writeOn dst c st = ⟨none, [], st⟩ := by
  unfold writeOn at h ⊢
  cases hw : wcrtomb c with
  | none => rfl
  | some b =>
    rw [hw] at h
    cases h

theorem c16rtomb_none {p : List UInt16} {u : UInt16} (hp : After16 p st)
    (h : (c16rtomb true u st).ret = none) : c16rtomb true u st = ⟨none, [], .init⟩ := by
  rcases hp with ⟨-, rfl⟩ | ⟨v, -, -, rfl⟩
  · rw [c16rtomb_first] at h ⊢
    split_ifs at h ⊢
    · rfl
    · exact writeOn_none h
  · rw [c16rtomb_second] at h ⊢
    split_ifs at h ⊢
    · rfl
    · exact writeOn_none h

theorem c8rtomb_none {u : UInt8} (hp : After8 p st)
    (h : (c8rtomb true u st).ret = none) : c8rtomb true u st = ⟨none, [], .init⟩ := by
  rcases c8rtomb_step hp u with ⟨hr, -⟩ | ⟨hr, -⟩ | ⟨ch, -, hr⟩
  · exact hr
  · rw [hr] at h
    cases h
  · rw [hr] at h
    cases h

theorem refused_of_reads {α : Type} {g : Bool → α → Mbstate → Wrote} {zero : α}
    {enc : Char → List α} {After : List α → Mbstate → Prop}
    (h : Reads (fun st u => (g true u st).fed) enc utf8EncodeChar .init After)
    (hbad : ∀ {p st u}, After p st → (g true u st).ret = none → g true u st = ⟨none, [], .init⟩)
    (hend : ∀ {p st}, p ≠ [] → After p st → g false zero st = ⟨none, [], .init⟩) {us : List α}
    (hus : ¬ ∃ cs : List Char, us = cs.flatMap enc) : Refused g zero enc us := by
  obtain ⟨i, out, st, q, htake, hq, hpart, hcase⟩ := h.feedAll_no_text hus
  refine ⟨i, out, st, htake, hpart, ?_⟩
  rcases hcase with ⟨u, hu, hr, hno⟩ | ⟨hi, hne⟩
  · exact .inl ⟨u, hu, hbad hq (Wrote.ret_of_fed hr), hno⟩
  · exact .inr ⟨hi, hend hne hq⟩

/-- **The round trips of `uchar.c`.** Every text, cut into any pieces, comes back from its units,
and units that are no text are refused at the first that rules out every text. -/
theorem uchar_round_trip : (∀ (cs : List Char) (ps : List (List UInt8)), ps.flatten = utf8 cs →
      (∃ us out, units mbrtoc16 .init ps = some (us, .init) ∧
        feedUnits c16rtomb .init us = (out, .inl .init) ∧ out.flatten = utf8 cs) ∧
      (∃ us out, units mbrtoc8 .init ps = some (us, .init) ∧
        feedUnits c8rtomb .init us = (out, .inl .init) ∧ out.flatten = utf8 cs) ∧
      (∃ us out, units mbrtoc32 .init ps = some (us, .init) ∧
        feedUnits c32rtomb .init us = (out, .inl .init) ∧ out.flatten = utf8 cs)) ∧
    (∀ us : List UInt16, (¬ ∃ cs : List Char, us = cs.flatMap utf16EncodeChar) →
      Refused c16rtomb 0 utf16EncodeChar us) ∧
    (∀ us : List UInt8, (¬ ∃ cs : List Char, us = cs.flatMap String.utf8EncodeChar) →
      Refused c8rtomb 0 String.utf8EncodeChar us) := by
  refine ⟨fun cs ps hps => ?_, fun us hus => ?_, fun us hus => ?_⟩
  · have hflat : (cs.map String.utf8EncodeChar).flatten = utf8 cs := rfl
    exact ⟨⟨_, _, expands16.units_text hps, reads16.feedAll_encode cs, hflat⟩,
      ⟨_, _, expands8.units_text hps, reads8.feedAll_encode cs, hflat⟩,
      ⟨_, _, expands32.units_text hps, feed32 cs, hflat⟩⟩
  · exact refused_of_reads reads16 c16rtomb_none c16rtomb_end hus
  · exact refused_of_reads reads8 c8rtomb_none c8rtomb_end hus

end Citadel.Multibyte
