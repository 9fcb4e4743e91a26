import Citadel.Lib.Byte
import Citadel.Multibyte.Convert

/-!
# The multibyte conversions are UTF-8

`mbrtowc` keeps an unfinished character in the state, so what it does to a string is told by what
each byte does to the state (`feedByte`); a call feeds bytes up to the first character
(`mbrtowc_eq_first`). The bytes that take the initial state back to itself through one character are
the encodings of the Unicode scalar values (`first_utf8`, `accepts_cons`).

* `decode_eq_feedAll`: decoding in pieces depends on the concatenation only.
* `accepts_iff`: the accepted strings are the well-formed ones.
* `utf8_conversions`: the conversions in both directions.
-/

namespace Citadel.Multibyte

open Citadel.Lib.Byte Citadel.Lib.Decoder List Nat Option UInt8 Prod

/-! ## Byte by byte -/

/-- The state in front of a continuation byte. -/
def pending (c need lead : ℕ) : Mbstate := ⟨c, need ||| lead <<< 8⟩

/-- What a continuation byte does. -/
def feedNext (c need lead b : ℕ) : Fed Mbstate ℕ :=
  if nextOk lead b then
    if need = 1 then .emit (c <<< 6 ||| (b &&& 0x3f)) .init
    else .more (pending (c <<< 6 ||| (b &&& 0x3f)) (need - 1) 0)
  else .bad

/-- What a byte does to the state. -/
def feedByte (st : Mbstate) (b : UInt8) : Fed Mbstate ℕ :=
  if st.n &&& 7 = 0 then
    if b.toNat < 0x80 then .emit b.toNat st
    else
      match leadByte b.toNat with
      | none => .bad
      | some (c, need) => .more (pending c need b.toNat)
  else feedNext st.st (st.n &&& 7) (st.n >>> 8) b.toNat

variable {need c lead n : ℕ} {b : UInt8} {s bs : List UInt8} {cs : List Char}

theorem pending_n (c lead : ℕ) (h : need < 8) : (pending c need lead).n = lead * 256 + need := by
  have := shiftLeft_add_eq_or_of_lt (show need < 2 ^ 8 by omega) lead
  rw [shiftLeft_eq] at this
  rw [pending, Nat.or_comm, shiftLeft_eq, ← this]

theorem pending_need (c lead : ℕ) (h : need < 8) : (pending c need lead).n &&& 7 = need := by
  rw [pending_n c lead h, and_two_pow_sub_one_eq_mod _ 3]
  omega

theorem pending_lead (c lead : ℕ) (h : need < 8) : (pending c need lead).n >>> 8 = lead := by
  rw [pending_n c lead h, shiftRight_eq_div_pow]
  omega

theorem feedByte_pending (c lead : ℕ) (b : UInt8) (h0 : need ≠ 0) (h : need < 8) :
    feedByte (pending c need lead) b = feedNext c need lead b.toNat := by
  rw [feedByte, pending_need c lead h, pending_lead c lead h, if_neg h0]
  rfl

/-! ## One call -/

/-- The outcome of a call that has `i` bytes behind it and `len` before it. -/
def ofFirst (len i : ℕ) : First Mbstate ℕ → Outcome
  | .more st => ⟨.incomplete, none, st, i + len⟩
  | .emit n c st => ⟨.count (i + n), some c, st, i + n⟩
  | .bad j => ⟨.ilseq, none, .init, i + j + 1⟩

theorem ofFirst_next (len i : ℕ) (x : First Mbstate ℕ) :
    ofFirst (len + 1) i x.next = ofFirst len (i + 1) x := by
  cases x <;> simp only [First.next, ofFirst, add_assoc, add_comm 1]

theorem mbrtowcLoop_eq_first (s : List UInt8) (c lead i : ℕ) (h0 : need ≠ 0) (h : need < 8) :
    mbrtowcLoop s c need lead i = ofFirst s.length i (first feedByte (pending c need lead) s) := by
  induction s generalizing need c lead i with
  | nil =>
    obtain ⟨need, rfl⟩ := exists_eq_succ_of_ne_zero h0
    rfl
  | cons b s ih =>
    obtain ⟨need, rfl⟩ := exists_eq_succ_of_ne_zero h0
    rw [mbrtowcLoop, first, feedByte_pending c lead b h0 h, feedNext, length_cons]
    by_cases hb : nextOk lead b.toNat
    · rw [if_pos hb, if_pos hb]
      by_cases hn : need = 0
      · subst hn
        rw [if_pos rfl, mbrtowcLoop]
        rfl
      · rw [if_neg (by omega), ih _ _ _ hn (by omega), ofFirst_next]
        rfl
    · rw [if_neg hb, if_neg hb]
      rfl

theorem leadByte_need {b : ℕ} (h : leadByte b = some (c, need)) : need ≠ 0 ∧ need < 8 := by
  unfold leadByte at h
  split_ifs at h <;> cases h <;> omega

/-- **One call of `mbrtowc`** feeds bytes up to the first character. -/
theorem mbrtowc_eq_first (st : Mbstate) (s : List UInt8) (hb : b ≠ 0) :
    mbrtowc (some (b :: s)) st = ofFirst (s.length + 1) 0 (first feedByte st (b :: s)) := by
  by_cases hn : st.n &&& 7 = 0
  · rw [mbrtowc, if_pos hn, first, feedByte, if_pos hn]
    by_cases hlt : b.toNat < 0x80
    · rw [if_pos hlt, if_pos hlt, if_pos hb]
      rfl
    · rw [if_neg hlt, if_neg hlt]
      cases hl : leadByte b.toNat with
      | none => rfl
      | some l =>
        obtain ⟨h0, h8⟩ := leadByte_need hl
        simp only [ofFirst_next]
        exact mbrtowcLoop_eq_first s _ _ _ h0 h8
  · have h8 : st.n &&& 7 < 8 := by
      rw [and_two_pow_sub_one_eq_mod _ 3]
      omega
    have hfed : feedByte st b = feedByte (pending st.st (st.n &&& 7) (st.n >>> 8)) b := by
      rw [feedByte_pending _ _ _ hn h8, feedByte, if_neg hn]
    rw [mbrtowc, if_neg hn, mbrtowcLoop_eq_first _ _ _ _ hn h8, first, first, hfed]
    rfl

theorem mbrtowc_nul (s : List UInt8) :
    mbrtowc (some (0 :: s)) .init = ⟨.count 0, some 0, .init, 1⟩ :=
  rfl

/-! ## Decoding in pieces -/

theorem decodeLoop_eq_feedAll {fuel : ℕ} (st : Mbstate) (hf : s.length ≤ fuel)
    (hs : 0 ∉ s) : decodeLoop fuel st s = feedAll feedByte st s := by
  induction fuel generalizing st s with
  | zero =>
    obtain rfl := length_eq_zero_iff.mp (le_zero.mp hf)
    rfl
  | succ fuel ih =>
    cases s with
    | nil => rfl
    | cons b s =>
      have hb : b ≠ 0 := fun h => hs (h ▸ mem_cons_self)
      rw [decodeLoop, mbrtowc_eq_first st s hb, feedAll_eq_first]
      cases hfirst : first feedByte st (b :: s) with
      | more st' => rfl
      | bad j => simp [ofFirst]
      | emit n c st' =>
        obtain ⟨hpos, hle⟩ := first_emit_le feedByte hfirst
        have hdrop : ((b :: s).drop n).length ≤ fuel := by
          rw [length_drop]
          omega
        have hmem : 0 ∉ (b :: s).drop n := fun h => hs (mem_of_mem_drop h)
        simp only [ofFirst, zero_add, getD_some, ih st' hdrop hmem]

/-- **Decoding in pieces** is feeding the bytes of all of them. -/
theorem decode_eq_feedAll (st : Mbstate) {ps : List (List UInt8)} (hs : 0 ∉ ps.flatten) :
    decode st ps = feedAll feedByte st ps.flatten := by
  have hps : ∀ p ∈ ps, ∀ st, decodePiece st p = feedAll feedByte st p := fun p hp st =>
    decodeLoop_eq_feedAll st le_rfl fun h => hs (mem_flatten.mpr ⟨p, hp, h⟩)
  rw [decode, feedPieces_congr hps, feedPieces_eq]

/-! ## Code points -/

theorem join_eq (c b : ℕ) : c <<< 6 ||| (b &&& 0x3f) = c * 64 + b % 64 := by
  have hlt : b % 64 < 2 ^ 6 := mod_lt _ (by decide)
  rw [and_two_pow_sub_one_eq_mod _ 6, ← shiftLeft_add_eq_or_of_lt hlt, shiftLeft_eq]

theorem nextOk_zero (b : UInt8) : nextOk 0 b.toNat ↔ 0x80 ≤ b.toNat ∧ b.toNat ≤ 0xbf :=
  forall_byte (P := fun b => nextOk 0 b.toNat ↔ 0x80 ≤ b.toNat ∧ b.toNat ≤ 0xbf)
    (by decide +kernel) b

theorem nextOk_lead {b : ℕ} (h : lead ≠ 0) : nextOk lead b ↔ secondOk lead b := by
  rw [nextOk, if_pos h]

/-- The bytes of a character: a lead byte gives the high bits and each of the others six more. -/
theorem feedNext_eq (c need lead b : ℕ) : feedNext c need lead b =
    if nextOk lead b then
      if need = 1 then .emit (c * 64 + b % 64) .init
      else .more (pending (c * 64 + b % 64) (need - 1) 0)
    else .bad := by
  rw [feedNext, join_eq]

theorem leadByte_eq (b : ℕ) : leadByte b =
    if 0xc2 ≤ b ∧ b ≤ 0xdf then some (b % 32, 1)
    else if 0xe0 ≤ b ∧ b ≤ 0xef then some (b % 16, 2)
    else if 0xf0 ≤ b ∧ b ≤ 0xf4 then some (b % 8, 3)
    else none := by
  rw [leadByte, and_two_pow_sub_one_eq_mod _ 5, and_two_pow_sub_one_eq_mod _ 4,
    and_two_pow_sub_one_eq_mod _ 3]

/-- The code point of the bytes `bs` behind the bits `c`. -/
def assemble (c : ℕ) (bs : List UInt8) : ℕ := bs.foldl (fun c b => c * 64 + b.toNat % 64) c

/-- The bytes that may follow a lead byte. -/
def Follows (lead : ℕ) : List UInt8 → Prop
  | [] => True
  | b :: bs => nextOk lead b.toNat ∧ Follows 0 bs

theorem nextOk_ge (h : nextOk lead b.toNat) : 0x80 ≤ b.toNat := by
  by_cases h0 : lead = 0
  · subst h0
    exact ((nextOk_zero b).mp h).1
  · rw [nextOk_lead h0, secondOk] at h
    split_ifs at h <;> omega

theorem follows_ge (h : Follows lead bs) (hb : b ∈ bs) : 0x80 ≤ b.toNat := by
  induction bs generalizing lead with
  | nil => cases hb
  | cons b' bs ih =>
    rcases mem_cons.mp hb with rfl | hb
    · exact nextOk_ge h.1
    · exact ih h.2 hb

/-- A character as the decoder takes it: an ASCII byte, or a lead byte with what it asks for. -/
def IsSequence (b : UInt8) (bs : List UInt8) (v : ℕ) : Prop :=
  (b.toNat < 0x80 ∧ bs = [] ∧ v = b.toNat) ∨
    ∃ c need, leadByte b.toNat = some (c, need) ∧ bs.length = need ∧ Follows b.toNat bs ∧
      v = assemble c bs

theorem leadByte_ge {b : ℕ} (h : leadByte b = some (c, need)) : ¬ b < 0x80 := by
  unfold leadByte at h
  split_ifs at h <;> omega

theorem feedByte_lead (h : leadByte b.toNat = some (c, need)) :
    feedByte .init b = .more (pending c need b.toNat) := by
  rw [feedByte, if_pos (by rfl), if_neg (leadByte_ge h), h]

theorem first_pending (c lead : ℕ) (hne : bs ≠ []) (h8 : bs.length < 8) (h : Follows lead bs) :
    first feedByte (pending c bs.length lead) bs = .emit bs.length (assemble c bs) .init := by
  induction bs generalizing c lead with
  | nil => exact absurd rfl hne
  | cons b bs ih =>
    obtain ⟨hb, hbs⟩ := h
    rw [length_cons] at h8 ⊢
    rw [first, feedByte_pending c lead b (by omega) h8, feedNext_eq, if_pos hb]
    by_cases hnil : bs = []
    · subst hnil
      rfl
    · have hlen := length_pos_iff.mpr hnil
      rw [if_neg (by omega), Nat.add_sub_cancel]
      simp only [ih _ 0 hnil (by omega) hbs, First.next]
      rfl

theorem first_sequence {v : ℕ} (h : IsSequence b bs v) :
    first feedByte .init (b :: bs) = .emit (bs.length + 1) v .init := by
  rcases h with ⟨hb, rfl, rfl⟩ | ⟨c, need, hl, rfl, hf, rfl⟩
  · rw [first, feedByte, if_pos (by rfl), if_pos hb]
    rfl
  · obtain ⟨h0, h8⟩ := leadByte_need hl
    rw [first, feedByte_lead hl]
    simp only [first_pending c b.toNat (length_pos_iff.mp (by omega)) h8 hf, First.next]

/-- The decoder takes `s` to the characters `w` and is in the initial state again. -/
def Accepts (st : Mbstate) (s : List UInt8) (w : List ℕ) : Prop :=
  feedAll feedByte st s = (w, .inl .init)

theorem pending_ne_init (c lead : ℕ) (h0 : need ≠ 0) (h8 : need < 8) :
    pending c need lead ≠ .init := by
  intro h
  have := pending_need c lead h8
  rw [h] at this
  exact h0 this.symm

theorem accepts_pending {w : List ℕ} (h0 : need ≠ 0)
    (h8 : need < 8) (h : Accepts (pending c need lead) s w) :
    ∃ bs s' w', s = bs ++ s' ∧ bs.length = need ∧ Follows lead bs ∧ w = assemble c bs :: w' ∧
      Accepts .init s' w' := by
  induction need generalizing c lead s w with
  | zero => exact absurd rfl h0
  | succ need ih =>
    cases s with
    | nil => exact absurd (Sum.inl.inj (congrArg snd h)) (pending_ne_init c lead h0 h8)
    | cons b s =>
      rw [Accepts, feedAll, feedByte_pending c lead b h0 h8, feedNext_eq] at h
      by_cases hb : nextOk lead b.toNat
      · rw [if_pos hb] at h
        by_cases hn : need = 0
        · subst hn
          rw [if_pos rfl] at h
          obtain ⟨rfl, he⟩ := Prod.ext_iff.mp h
          exact ⟨[b], s, _, rfl, rfl, ⟨hb, trivial⟩, rfl, Prod.ext rfl (later_eq_inl.mp he)⟩
        · rw [if_neg (by omega), Nat.add_sub_cancel] at h
          obtain ⟨rfl, he⟩ := Prod.ext_iff.mp h
          obtain ⟨bs, s', w', rfl, hlen, hf, hw, hs'⟩ :=
            ih hn (by omega) (Prod.ext rfl (later_eq_inl.mp he))
          exact ⟨b :: bs, s', w', rfl, by rw [length_cons, hlen], ⟨hb, hf⟩, hw, hs'⟩
      · rw [if_neg hb] at h
        cases h

theorem accepts_cons {w : List ℕ} (h : Accepts .init (b :: s) w) :
    ∃ bs s' v w', s = bs ++ s' ∧ IsSequence b bs v ∧ w = v :: w' ∧ Accepts .init s' w' := by
  by_cases hb : b.toNat < 0x80
  · rw [Accepts, feedAll, feedByte, if_pos (by rfl), if_pos hb] at h
    obtain ⟨rfl, he⟩ := Prod.ext_iff.mp h
    exact ⟨[], s, _, _, rfl, .inl ⟨hb, rfl, rfl⟩, rfl, Prod.ext rfl (later_eq_inl.mp he)⟩
  · cases hl : leadByte b.toNat with
    | none =>
      rw [Accepts, feedAll, feedByte, if_pos (by rfl), if_neg hb, hl] at h
      cases h
    | some l =>
      obtain ⟨c, need⟩ := l
      obtain ⟨h0, h8⟩ := leadByte_need hl
      rw [Accepts, feedAll, feedByte_lead hl] at h
      obtain ⟨rfl, he⟩ := Prod.ext_iff.mp h
      obtain ⟨bs, s', w', rfl, hlen, hf, hw, hs'⟩ :=
        accepts_pending h0 h8 (Prod.ext rfl (later_eq_inl.mp he))
      exact ⟨bs, s', _, w', rfl, .inr ⟨c, need, hl, hlen, hf, rfl⟩, hw, hs'⟩

/-! ## Sequences are encodings -/

section Encoding

variable {ch : Char}

theorem utf8EncodeChar_one (h : ch.toNat < 0x80) :
    String.utf8EncodeChar ch = [ofNat ch.toNat] := by
  rw [Char.toNat] at h
  rw [String.utf8EncodeChar, if_pos (by omega)]
  rfl

theorem utf8EncodeChar_two (h1 : 0x80 ≤ ch.toNat) (h2 : ch.toNat < 0x800) :
    String.utf8EncodeChar ch =
      [ofNat (ch.toNat / 64 % 32 + 0xc0), ofNat (ch.toNat % 64 + 0x80)] := by
  rw [Char.toNat] at h1 h2
  rw [String.utf8EncodeChar, if_neg (by omega), if_pos (by omega)]
  rfl

theorem utf8EncodeChar_three (h1 : 0x800 ≤ ch.toNat) (h2 : ch.toNat < 0x10000) :
    String.utf8EncodeChar ch = [ofNat (ch.toNat / 4096 % 16 + 0xe0),
      ofNat (ch.toNat / 64 % 64 + 0x80), ofNat (ch.toNat % 64 + 0x80)] := by
  rw [Char.toNat] at h1 h2
  rw [String.utf8EncodeChar, if_neg (by omega), if_neg (by omega), if_pos (by omega)]
  rfl

theorem utf8EncodeChar_four (h1 : 0x10000 ≤ ch.toNat) :
    String.utf8EncodeChar ch = [ofNat (ch.toNat / 262144 % 8 + 0xf0),
      ofNat (ch.toNat / 4096 % 64 + 0x80), ofNat (ch.toNat / 64 % 64 + 0x80),
      ofNat (ch.toNat % 64 + 0x80)] := by
  rw [Char.toNat] at h1
  rw [String.utf8EncodeChar, if_neg (by omega), if_neg (by omega), if_neg (by omega)]
  rfl

theorem toNat_range (ch : Char) :
    ch.toNat < 0xd800 ∨ 0xdfff < ch.toNat ∧ ch.toNat < 0x110000 := ch.valid

theorem exists_char {v : ℕ} (h : v < 0xd800 ∨ 0xdfff < v ∧ v < 0x110000) :
    ∃ ch : Char, ch.toNat = v := ⟨Char.ofNatAux v h, rfl⟩

variable {n : ℕ}

theorem ofNat_eq (h : n = b.toNat) : UInt8.ofNat n = b := by
  rw [h, UInt8.ofNat_toNat]

theorem IsSequence.exists_char {v : ℕ} (h : IsSequence b bs v) :
    ∃ ch : Char, String.utf8EncodeChar ch = b :: bs ∧ ch.toNat = v := by
  rcases h with ⟨hb, rfl, rfl⟩ | ⟨c, need, hl, hlen, hf, rfl⟩
  · obtain ⟨ch, hch⟩ := Multibyte.exists_char (v := b.toNat) (by omega)
    exact ⟨ch, by rw [utf8EncodeChar_one (by omega), hch, UInt8.ofNat_toNat], hch⟩
  rw [leadByte_eq] at hl
  split_ifs at hl with h2 h3 h4
  · cases hl
    match bs, hlen, hf with
    | [b1], _, ⟨h1, _⟩ =>
      rw [nextOk_lead (by omega), secondOk] at h1
      obtain ⟨ch, hch⟩ := Multibyte.exists_char (v := b.toNat % 32 * 64 + b1.toNat % 64) (by omega)
      refine ⟨ch, ?_, hch⟩
      split_ifs at h1 <;> try omega
      rw [utf8EncodeChar_two (by omega) (by omega), hch, ofNat_eq (b := b) (by omega),
        ofNat_eq (b := b1) (by omega)]
  · cases hl
    match bs, hlen, hf with
    | [b1, b2], _, ⟨h1, h2, _⟩ =>
      rw [nextOk_lead (by omega), secondOk] at h1
      rw [nextOk_zero] at h2
      obtain ⟨ch, hch⟩ := Multibyte.exists_char
        (v := (b.toNat % 16 * 64 + b1.toNat % 64) * 64 + b2.toNat % 64)
        (by split_ifs at h1 <;> omega)
      refine ⟨ch, ?_, hch⟩
      split_ifs at h1 <;>
      rw [utf8EncodeChar_three (by omega) (by omega), hch, ofNat_eq (b := b) (by omega),
        ofNat_eq (b := b1) (by omega), ofNat_eq (b := b2) (by omega)]
  · cases hl
    match bs, hlen, hf with
    | [b1, b2, b3], _, ⟨h1, h2, h3, _⟩ =>
      rw [nextOk_lead (by omega), secondOk] at h1
      rw [nextOk_zero] at h2 h3
      obtain ⟨ch, hch⟩ := Multibyte.exists_char
        (v := ((b.toNat % 8 * 64 + b1.toNat % 64) * 64 + b2.toNat % 64) * 64 + b3.toNat % 64)
        (by split_ifs at h1 <;> omega)
      refine ⟨ch, ?_, hch⟩
      split_ifs at h1 <;>
      rw [utf8EncodeChar_four (by omega), hch, ofNat_eq (b := b) (by omega),
        ofNat_eq (b := b1) (by omega), ofNat_eq (b := b2) (by omega), ofNat_eq (b := b3) (by omega)]

theorem toNat_ofNat_of_lt (h : n < 256) : (ofNat n).toNat = n :=
  toNat_ofNat_of_lt' h

theorem nextOk_ofNat (h0 : lead ≠ 0) (hl : lead < 256) (hn : n < 256)
    (h : secondOk lead n) : nextOk (ofNat lead).toNat (ofNat n).toNat := by
  rw [toNat_ofNat_of_lt hl, toNat_ofNat_of_lt hn, nextOk_lead h0]
  exact h

theorem nextOk_tail (h : n < 64) : nextOk 0 (ofNat (n + 0x80)).toNat := by
  rw [nextOk_zero, toNat_ofNat_of_lt (by omega)]
  omega

theorem isSequence_utf8 (ch : Char) :
    ∃ b bs, String.utf8EncodeChar ch = b :: bs ∧ IsSequence b bs ch.toNat := by
  have hr := toNat_range ch
  have htail : ∀ k : ℕ, k % 64 < 64 := fun k => mod_lt _ (by decide)
  by_cases h1 : ch.toNat < 0x80
  · refine ⟨_, _, utf8EncodeChar_one h1, .inl ?_⟩
    rw [toNat_ofNat_of_lt (by omega)]
    exact ⟨h1, rfl, rfl⟩
  by_cases h2 : ch.toNat < 0x800
  · refine ⟨_, _, utf8EncodeChar_two (by omega) h2, .inr ⟨ch.toNat / 64 % 32, 1, ?_, rfl, ?_, ?_⟩⟩
    · rw [toNat_ofNat_of_lt (by omega), leadByte_eq, if_pos (by omega)]
      congr 2
      omega
    · refine ⟨nextOk_ofNat (by omega) (by omega) (by omega) ?_, trivial⟩
      rw [secondOk]
      split_ifs <;> omega
    · simp only [assemble, foldl_cons, foldl_nil]
      rw [toNat_ofNat_of_lt (by omega)]
      omega
  by_cases h3 : ch.toNat < 0x10000
  · refine ⟨_, _, utf8EncodeChar_three (by omega) h3,
      .inr ⟨ch.toNat / 4096 % 16, 2, ?_, rfl, ?_, ?_⟩⟩
    · rw [toNat_ofNat_of_lt (by omega), leadByte_eq, if_neg (by omega), if_pos (by omega)]
      congr 2
      omega
    · refine ⟨nextOk_ofNat (by omega) (by omega) (by omega) ?_, nextOk_tail (htail _), trivial⟩
      rw [secondOk]
      split_ifs <;> omega
    · simp only [assemble, foldl_cons, foldl_nil]
      rw [toNat_ofNat_of_lt (by omega), toNat_ofNat_of_lt (by omega)]
      omega
  · refine ⟨_, _, utf8EncodeChar_four (by omega),
      .inr ⟨ch.toNat / 262144 % 8, 3, ?_, rfl, ?_, ?_⟩⟩
    · rw [toNat_ofNat_of_lt (by omega), leadByte_eq, if_neg (by omega), if_neg (by omega),
        if_pos (by omega)]
      congr 2
      omega
    · refine ⟨nextOk_ofNat (by omega) (by omega) (by omega) ?_, nextOk_tail (htail _),
        nextOk_tail (htail _), trivial⟩
      rw [secondOk]
      split_ifs <;> omega
    · simp only [assemble, foldl_cons, foldl_nil]
      rw [toNat_ofNat_of_lt (by omega), toNat_ofNat_of_lt (by omega), toNat_ofNat_of_lt (by omega)]
      omega

theorem tag_eq {x : ℕ} (i a : ℕ) (h : x < 2 ^ i) :
    (2 ^ i * a ||| x).toUInt8 = ofNat (x + 2 ^ i * a) := by
  rw [← two_pow_add_eq_or_of_lt h, add_comm]

theorem tail_eq (k : ℕ) : (0x80 ||| (k &&& 0x3f)).toUInt8 = ofNat (k % 64 + 0x80) := by
  rw [and_two_pow_sub_one_eq_mod _ 6]
  exact tag_eq 7 1 (by omega)

theorem wcrtomb_utf8 (ch : Char) : wcrtomb ch.toNat = some (String.utf8EncodeChar ch) := by
  have hr := toNat_range ch
  simp only [wcrtomb, tail_eq, shiftRight_eq_div_pow]
  by_cases h1 : ch.toNat < 0x80
  · rw [if_pos h1, utf8EncodeChar_one h1]
  rw [if_neg h1]
  by_cases h2 : ch.toNat < 0x800
  · rw [if_pos h2, utf8EncodeChar_two (by omega) h2,
      mod_eq_of_lt (show ch.toNat / 64 < 32 by omega)]
    exact congrArg (fun x => some [x, _]) (tag_eq 5 6 (by omega))
  rw [if_neg h2]
  by_cases h3 : ch.toNat < 0x10000
  · rw [if_pos h3, if_neg (by omega), utf8EncodeChar_three (by omega) h3,
      mod_eq_of_lt (show ch.toNat / 4096 < 16 by omega)]
    exact congrArg (fun x => some [x, _, _]) (tag_eq 4 14 (by omega))
  · rw [if_neg h3, if_pos (by omega), utf8EncodeChar_four (by omega),
      mod_eq_of_lt (show ch.toNat / 262144 < 8 by omega)]
    exact congrArg (fun x => some [x, _, _, _]) (tag_eq 3 30 (by omega))

end Encoding

/-! ## Strings -/

/-- The multibyte string of a wide string. -/
def utf8 (cs : List Char) : List UInt8 := cs.flatMap String.utf8EncodeChar

theorem utf8_cons (ch : Char) (cs : List Char) :
    utf8 (ch :: cs) = String.utf8EncodeChar ch ++ utf8 cs :=
  flatMap_cons

theorem first_utf8 (ch : Char) : first feedByte .init (String.utf8EncodeChar ch) =
    .emit (String.utf8EncodeChar ch).length ch.toNat .init := by
  obtain ⟨b, bs, he, hseq⟩ := isSequence_utf8 ch
  rw [he, first_sequence hseq, length_cons]

theorem accepts_utf8 (cs : List Char) : Accepts .init (utf8 cs) (cs.map Char.toNat) := by
  induction cs with
  | nil => rfl
  | cons ch cs ih =>
    rw [Accepts, utf8_cons, feedAll_eq_first, first_append feedByte (first_utf8 ch)]
    simp only [drop_left]
    rw [ih]
    rfl

/-- **The accepted strings are the well-formed ones.** -/
theorem accepts_iff (s : List UInt8) (w : List ℕ) :
    Accepts .init s w ↔ ∃ cs : List Char, s = utf8 cs ∧ w = cs.map Char.toNat := by
  constructor
  · intro h
    induction hn : s.length using Nat.strong_induction_on generalizing s w with
    | _ n ih =>
      cases s with
      | nil => exact ⟨[], rfl, (congrArg fst h).symm⟩
      | cons b s =>
        obtain ⟨bs, s', v, w', rfl, hseq, rfl, hs'⟩ := accepts_cons h
        obtain ⟨ch, hch, rfl⟩ := hseq.exists_char
        have hlt : s'.length < n := by
          rw [← hn, length_cons, length_append]
          omega
        obtain ⟨cs, rfl, rfl⟩ := ih s'.length hlt s' w' hs' rfl
        refine ⟨ch :: cs, ?_, rfl⟩
        rw [utf8_cons, hch]
        rfl
  · rintro ⟨cs, rfl, rfl⟩
    exact accepts_utf8 cs

theorem zero_notMem_utf8EncodeChar {ch : Char} (h : ch.toNat ≠ 0) :
    0 ∉ String.utf8EncodeChar ch := by
  obtain ⟨b, bs, he, hseq⟩ := isSequence_utf8 ch
  rw [he]
  rcases hseq with ⟨hb, rfl, hv⟩ | ⟨c, need, hl, -, hf, -⟩
  · intro h0
    rw [← mem_singleton.mp h0] at hv
    exact h hv
  · intro h0
    rcases mem_cons.mp h0 with rfl | h0
    · exact leadByte_ge hl (by decide)
    · exact absurd (follows_ge hf h0) (by decide)

theorem zero_notMem_utf8 (h : ∀ c ∈ cs, c.toNat ≠ 0) : 0 ∉ utf8 cs := by
  intro h0
  obtain ⟨c, hc, h0⟩ := mem_flatMap.mp h0
  exact zero_notMem_utf8EncodeChar (h c hc) h0

theorem mbrtowc_utf8 {ch : Char} (h : ch.toNat ≠ 0) (t : List UInt8) :
    mbrtowc (some (String.utf8EncodeChar ch ++ t)) .init =
      ⟨.count (String.utf8EncodeChar ch).length, some ch.toNat, .init,
        (String.utf8EncodeChar ch).length⟩ := by
  obtain ⟨b, bs, he, -⟩ := isSequence_utf8 ch
  have hb : b ≠ 0 := fun h0 => zero_notMem_utf8EncodeChar h (by rw [he, h0]; exact mem_cons_self)
  have hfirst := first_append feedByte (first_utf8 ch) t
  rw [he] at hfirst ⊢
  rw [cons_append] at hfirst ⊢
  rw [mbrtowc_eq_first .init _ hb, hfirst, ofFirst, zero_add]

theorem wcsrtombsLoop_utf8 (src : List ℕ) (cs : List Char) (cnt : ℕ) (s : List UInt8)
    (h : cnt + (utf8 cs).length < n) : wcsrtombsLoop (some n) src (cs.map Char.toNat) cnt s =
      ⟨some (cnt + (utf8 cs).length), s ++ utf8 cs ++ [0], none⟩ := by
  induction cs generalizing cnt s with
  | nil =>
    have hfits : ¬ n < cnt + 1 := by
      simp only [utf8, flatMap_nil, length_nil] at h
      omega
    rw [map_nil, wcsrtombsLoop, any_some, decide_eq_false hfits]
    simp [utf8]
  | cons ch cs ih =>
    rw [utf8_cons, length_append] at h ⊢
    have hfits : ¬ n < cnt + (String.utf8EncodeChar ch).length := by omega
    rw [map_cons, wcsrtombsLoop, wcrtomb_utf8]
    simp only [any_some, hfits, decide_false, Bool.false_eq_true, if_false, isSome_some,
      if_true]
    rw [ih _ _ (by omega)]
    simp only [append_assoc, add_assoc]

theorem wcsrtombs_utf8 (cs : List Char) (h : (utf8 cs).length < n) :
    wcsrtombs (some n) (cs.map Char.toNat) = ⟨some (utf8 cs).length, utf8 cs ++ [0], none⟩ := by
  rw [wcsrtombs, wcsrtombsLoop_utf8 _ cs 0 [] (by omega), zero_add, nil_append]

theorem mbsrtowcsLoop_utf8 (src : List UInt8) (hcs : ∀ c ∈ cs, c.toNat ≠ 0)
    (fuel cnt : ℕ) (ws : List ℕ) (hf : (utf8 cs).length < fuel) (hn : cnt + cs.length < n) :
    mbsrtowcsLoop (some n) src fuel (utf8 cs) cnt ws .init =
      (⟨some (cnt + cs.length), ws ++ cs.map Char.toNat ++ [0], none⟩, .init) := by
  induction cs generalizing fuel cnt ws with
  | nil =>
    obtain ⟨fuel, rfl⟩ := exists_eq_succ_of_ne_zero (show fuel ≠ 0 by omega)
    have hroom : cnt < n := hn
    simp [mbsrtowcsLoop, hroom, utf8, mbrtowc_nul]
  | cons ch cs ih =>
    obtain ⟨fuel, rfl⟩ := exists_eq_succ_of_ne_zero (show fuel ≠ 0 by omega)
    have hch : ch.toNat ≠ 0 := hcs ch mem_cons_self
    have hpos := length_pos_iff.mpr (String.utf8EncodeChar_ne_nil (c := ch))
    have hroom : cnt < n := by omega
    -- the four bytes that are looked at hold the whole character
    have hwindow : ∃ t, (utf8 (ch :: cs) ++ [0]).take 4 = String.utf8EncodeChar ch ++ t := by
      have hlen : (String.utf8EncodeChar ch).length ≤ 4 := by
        rw [String.length_utf8EncodeChar]
        exact ch.utf8Size_le_four
      rw [utf8_cons, append_assoc, take_append, take_of_length_le hlen]
      exact ⟨_, rfl⟩
    obtain ⟨t, ht⟩ := hwindow
    rw [utf8_cons, length_append] at hf
    rw [length_cons] at hn
    rw [mbsrtowcsLoop, ht, mbrtowc_utf8 hch]
    simp only [all_some, hroom, decide_true, if_true, getD_some, isSome_some,
      if_neg hch, utf8_cons, drop_left]
    rw [ih (fun c hc => hcs c (mem_cons_of_mem _ hc)) _ _ _ (by omega) (by omega)]
    simp only [map_cons, append_assoc, cons_append, nil_append, length_cons,
      add_assoc, add_comm 1]

theorem mbsrtowcs_utf8 (hcs : ∀ c ∈ cs, c.toNat ≠ 0) (hn : cs.length < n) :
    mbsrtowcs (some n) (utf8 cs) .init =
      (⟨some cs.length, cs.map Char.toNat ++ [0], none⟩, .init) := by
  rw [mbsrtowcs, mbsrtowcsLoop_utf8 _ hcs _ _ _ (by omega) (by omega), zero_add, nil_append]

/-- **The multibyte conversions.** A string that comes in pieces is decoded as the whole: to the
same characters and the same state, or up to the same byte that is refused. The strings that are
decoded completely are the encodings of the strings of Unicode scalar values; `wcsrtombs` gives such
a string back, and `mbsrtowcs` gives back a wide string that `wcsrtombs` has encoded. -/
theorem utf8_conversions (s : List UInt8) (hs : 0 ∉ s) :
    (∀ ps : List (List UInt8), ps.flatten = s → decode .init ps = decode .init [s]) ∧
    (∀ w, decode .init [s] = (w, .inl .init) ↔
      ∃ cs : List Char, s = cs.flatMap String.utf8EncodeChar ∧ w = cs.map Char.toNat) ∧
    (∀ w, decode .init [s] = (w, .inl .init) → ∀ n, s.length < n →
      wcsrtombs (some n) w = ⟨some s.length, s ++ [0], none⟩) ∧
    ∀ cs : List Char, (∀ c ∈ cs, c.toNat ≠ 0) → ∀ n,
      (cs.flatMap String.utf8EncodeChar).length < n → ∃ b : List UInt8, 0 ∉ b ∧
        wcsrtombs (some n) (cs.map Char.toNat) = ⟨some b.length, b ++ [0], none⟩ ∧
        ∀ m, cs.length < m → mbsrtowcs (some m) b .init =
          (⟨some cs.length, cs.map Char.toNat ++ [0], none⟩, .init) := by
  have hwhole : decode .init [s] = feedAll feedByte .init s := by
    rw [decode_eq_feedAll .init (by simpa using hs), flatten_singleton]
  refine ⟨?_, ?_, ?_, ?_⟩
  · rintro ps rfl
    rw [hwhole, decode_eq_feedAll .init hs]
  · intro w
    rw [hwhole]
    exact accepts_iff s w
  · intro w hw n hn
    rw [hwhole] at hw
    obtain ⟨cs, rfl, rfl⟩ := (accepts_iff s w).mp hw
    exact wcsrtombs_utf8 cs hn
  · intro cs hcs n hn
    exact ⟨utf8 cs, zero_notMem_utf8 hcs, wcsrtombs_utf8 cs hn, fun m hm => mbsrtowcs_utf8 hcs hm⟩

theorem utf8_conversions_split :
    decode .init [[0xe2], [0x82, 0xac, 0xed], [0xa0]] =
      decode .init [[0xe2, 0x82, 0xac, 0xed, 0xa0]] :=
  (utf8_conversions [0xe2, 0x82, 0xac, 0xed, 0xa0] (by decide)).1 _ rfl

/-- A surrogate is refused at its second byte, wherever it is cut. -/
example : decode .init [[0xe2], [0x82, 0xac, 0xed], [0xa0]] = ([0x20ac], .inr 4) := by decide

end Citadel.Multibyte
