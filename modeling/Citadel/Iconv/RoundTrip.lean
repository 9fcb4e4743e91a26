import Citadel.Iconv.Restart
import Citadel.Multibyte.Codecs

/-!
# `iconv` there and back

A text that is converted from UTF-8 and back again.

* `iconvLoop_char`, `iconvLoop_bom`: one round of the loop; `iconvLoop_text`: a whole text.
* `decode16_code`, `decode32_code`, `decodeByte_contained`: `decode` reads what `encode` has
  written.
* `iconv_round_trip`: every text comes back from every encoding that has its characters.
-/

namespace Citadel.Iconv

open List Nat

open Citadel.Multibyte (utf8 utf8_cons toNat_range high_eq low_eq decodeUtf8_iff encodeUtf8_char)

/-! ## Rounds of the loop -/

/-- The bytes `w` in front of the input are one character and become the bytes `v`. -/
structure Converts (c : Cd) (w : List UInt8) (c' : Cd) (v : List UInt8) : Prop where
  ne_nil : w ≠ []
  turns : ∀ s, ∃ u c₁, decode c (w ++ s) = (.char w.length u, c₁) ∧
    ∀ n, v.length ≤ n → encode c₁ u n = (.bytes v, c')

variable {c c' : Cd} {w : List UInt8} {n u b : ℕ} {ch : Char} {e : Enc} {cs : List Char}

theorem iconvLoop_char {v : List UInt8} (h : Converts c w c' v) {room : ℕ}
    (hv : v.length ≤ room) (rounds : ℕ) (s out : List UInt8) :
    iconvLoop (rounds + 1) c (w ++ s) room out 0 false =
      iconvLoop rounds c' s (room - v.length) (out ++ v) 0 false := by
  obtain ⟨u, c₁, hd, he⟩ := h.turns s
  have hne : ¬ w ++ s = [] := fun hn => h.ne_nil (append_eq_nil_iff.mp hn).1
  rw [iconvLoop, if_neg hne]
  simp only [hd, he room hv, drop_left]

theorem iconvLoop_bom {s : List UInt8} (hw : w ≠ [])
    (hd : decode c (w ++ s) = (.bom, c')) (hlen : w.length = bomLength c'.source) (rounds room : ℕ)
    (out : List UInt8) : iconvLoop (rounds + 1) c (w ++ s) room out 0 false =
      iconvLoop rounds c' s room out 0 false := by
  have hne : ¬ w ++ s = [] := fun hn => hw (append_eq_nil_iff.mp hn).1
  rw [iconvLoop, if_neg hne]
  simp only [hd, ← hlen, drop_left]

theorem iconvLoop_nil (rounds : ℕ) (c : Cd) (room : ℕ) (out : List UInt8) :
    iconvLoop rounds c [] room out 0 false = ⟨c, .done 0, out, []⟩ := by
  cases rounds with
  | zero | succ rounds => rfl

theorem iconvLoop_text {f g : Char → List UInt8} : ∀ {cs : List Char} {rounds room : ℕ}
    (out : List UInt8), (∀ ch ∈ cs, Converts c (f ch) c (g ch)) → (cs.flatMap f).length ≤ rounds →
    (cs.flatMap g).length ≤ room →
    iconvLoop rounds c (cs.flatMap f) room out 0 false = ⟨c, .done 0, out ++ cs.flatMap g, []⟩
  | [], rounds, room, out, _, _, _ => by
    rw [flatMap_nil, flatMap_nil, iconvLoop_nil, append_nil]
  | ch :: cs, rounds, room, out, h, hrounds, hroom => by
    have hch := h ch mem_cons_self
    have hpos := length_pos_iff.mpr hch.ne_nil
    rw [flatMap_cons, length_append] at hrounds hroom
    obtain ⟨rounds, rfl⟩ := exists_eq_succ_of_ne_zero (show rounds ≠ 0 by omega)
    rw [flatMap_cons, iconvLoop_char hch (by omega),
      iconvLoop_text (out ++ g ch) (fun d hd => h d (mem_cons_of_mem _ hd)) (by omega)
        (by omega), flatMap_cons, append_assoc]

/-! ## UTF-8 -/

theorem decode_utf8 (hc : c.source = .utf8) (ch : Char) (s : List UInt8) :
    decode c (String.utf8EncodeChar ch ++ s) =
      (.char (String.utf8EncodeChar ch).length ch.toNat, c) := by
  obtain ⟨b, bs, hb⟩ := exists_cons_of_ne_nil (String.utf8EncodeChar_ne_nil (c := ch))
  rw [hb, cons_append, decode, hc]
  refine congrArg (·, c) (decodeUtf8_iff.mpr ⟨ch, s, ?_, ?_, rfl⟩)
  · rw [hb, cons_append]
  · rw [hb]

theorem encode_utf8 (hc : c.target = .utf8) (ch : Char)
    (hn : (String.utf8EncodeChar ch).length ≤ n) :
    encode c ch.toNat n = (.bytes (String.utf8EncodeChar ch), c) := by
  rw [encode, hc]
  exact encodeUtf8_char ch c hn

theorem converts_to (hc : c.source = .utf8) {v : List UInt8}
    (h : ∀ n, v.length ≤ n → encode c ch.toNat n = (.bytes v, c')) :
    Converts c (String.utf8EncodeChar ch) c' v :=
  ⟨String.utf8EncodeChar_ne_nil, fun s => ⟨ch.toNat, c, decode_utf8 hc ch s, h⟩⟩

theorem converts_back (hc : c.target = .utf8) (hw : w ≠ [])
    (h : ∀ s, decode c (w ++ s) = (.char w.length ch.toNat, c)) :
    Converts c w c (String.utf8EncodeChar ch) :=
  ⟨hw, fun s => ⟨ch.toNat, c, h s, fun _ hn => encode_utf8 hc ch hn⟩⟩

/-! ## Texts there and back -/

/-- The text `cs` is converted to the encoding `e` without a loss, and back to itself. -/
def Returns (e : Enc) (cs : List Char) : Prop :=
  ∃ y : List UInt8, ∀ translit ignore,
    (∀ room, y.length ≤ room → ∃ c,
      iconv (iconvOpen e .utf8 translit ignore) (some (utf8 cs)) room = ⟨c, .done 0, y, []⟩) ∧
    ∀ room, (utf8 cs).length ≤ room → ∃ c,
      iconv (iconvOpen .utf8 e translit ignore) (some y) room = ⟨c, .done 0, utf8 cs, []⟩

theorem returns_plain (f : Char → List UInt8)
    (hto : ∀ translit ignore, ∀ ch ∈ cs, Converts (iconvOpen e .utf8 translit ignore)
      (String.utf8EncodeChar ch) (iconvOpen e .utf8 translit ignore) (f ch))
    (hback : ∀ translit ignore, ∀ ch ∈ cs, Converts (iconvOpen .utf8 e translit ignore) (f ch)
      (iconvOpen .utf8 e translit ignore) (String.utf8EncodeChar ch)) : Returns e cs :=
  ⟨cs.flatMap f, fun translit ignore =>
    ⟨fun _ hroom => ⟨_, iconvLoop_text [] (hto translit ignore) le_rfl hroom⟩,
    fun _ hroom => ⟨_, iconvLoop_text [] (hback translit ignore) le_rfl hroom⟩⟩⟩

/-- An encoding whose texts begin with the byte-order mark `mark`. -/
theorem returns_marked (f : Char → List UInt8) (mark : List UInt8)
    (hmark : mark ≠ []) (hlen : mark.length = bomLength e)
    (hfirst : ∀ translit ignore ch, Converts (iconvOpen e .utf8 translit ignore)
      (String.utf8EncodeChar ch) { iconvOpen e .utf8 translit ignore with outBomDone := true }
      (mark ++ f ch))
    (hto : ∀ translit ignore ch,
      Converts { iconvOpen e .utf8 translit ignore with outBomDone := true }
        (String.utf8EncodeChar ch) { iconvOpen e .utf8 translit ignore with outBomDone := true }
        (f ch))
    (hbom : ∀ translit ignore s, decode (iconvOpen .utf8 e translit ignore) (mark ++ s) =
      (.bom, { iconvOpen .utf8 e translit ignore with inBomDone := true }))
    (hback : ∀ translit ignore ch,
      Converts { iconvOpen .utf8 e translit ignore with inBomDone := true } (f ch)
        { iconvOpen .utf8 e translit ignore with inBomDone := true } (String.utf8EncodeChar ch)) :
    Returns e cs := by
  match cs with
  | [] => exact ⟨[], fun _ _ => ⟨fun _ _ => ⟨_, rfl⟩, fun _ _ => ⟨_, rfl⟩⟩⟩
  | ch :: cs =>
    refine ⟨mark ++ (ch :: cs).flatMap f, fun translit ignore => ⟨fun room hroom => ?_,
      fun room hroom => ?_⟩⟩
    · have hpos := length_pos_iff.mpr (hfirst translit ignore ch).ne_nil
      rw [flatMap_cons, ← append_assoc, length_append] at hroom
      rw [iconv, utf8_cons, length_append]
      obtain ⟨rounds, hr⟩ := exists_eq_succ_of_ne_zero
        (show (String.utf8EncodeChar ch).length + (utf8 cs).length ≠ 0 by omega)
      rw [hr, iconvLoop_char (hfirst translit ignore ch) (by omega), nil_append, utf8,
        iconvLoop_text _ (fun d _ => hto translit ignore d) (by rw [← utf8]; omega) (by omega),
        flatMap_cons, append_assoc]
      exact ⟨_, rfl⟩
    · have hpos := length_pos_iff.mpr hmark
      rw [iconv, length_append]
      obtain ⟨rounds, hr⟩ := exists_eq_succ_of_ne_zero
        (show mark.length + ((ch :: cs).flatMap f).length ≠ 0 by omega)
      rw [hr, iconvLoop_bom hmark (hbom translit ignore _) hlen,
        iconvLoop_text [] (fun d _ => hback translit ignore d) (by omega) hroom]
      exact ⟨_, rfl⟩

/-! ## 16-bit encodings -/

theorem toNat_byte (v : ℕ) : (byte v).toNat = v % 256 := UInt8.toNat_ofNat'

theorem or_shift {a : ℕ} {i : ℕ} (ha : a < 2 ^ i) (b : ℕ) : a ||| b <<< i = a + b * 2 ^ i := by
  rw [Nat.or_comm, ← shiftLeft_add_eq_or_of_lt ha, shiftLeft_eq, Nat.add_comm]

theorem get16_put16 {v : ℕ} (hv : v < 0x10000) (le : Bool) :
    ∃ b₀ b₁, put16 v le = [b₀, b₁] ∧ get16 b₀ b₁ le = v := by
  have hor : (byte v).toNat ||| (byte (v >>> 8)).toNat <<< 8 = v := by
    rw [or_shift (byte v).toNat_lt, toNat_byte, toNat_byte, shiftRight_eq_div_pow]
    omega
  cases le with
  | true => exact ⟨_, _, rfl, hor⟩
  | false => exact ⟨_, _, rfl, (Nat.or_comm _ _).trans hor⟩

def code16 (le : Bool) (u : ℕ) : List UInt8 :=
  if u > 0xffff then
    put16 (0xd800 ||| (u - 0x10000) >>> 10) le ++ put16 (0xdc00 ||| (u - 0x10000) &&& 0x3ff) le
  else put16 u le

theorem length_code16 (le : Bool) (u : ℕ) : (code16 le u).length = if u > 0xffff then 4 else 2 := by
  rw [code16]
  split_ifs
  · rw [length_append, length_put16, length_put16]
  · rw [length_put16]

theorem code16_ne_nil (le : Bool) (u : ℕ) : code16 le u ≠ [] := by
  refine length_pos_iff.mp ?_
  rw [length_code16]
  split_ifs <;> decide

def writesLe16 (e : Enc) : Bool := e ≠ .utf16be ∧ e ≠ .ucs2be

theorem encode16_code (hu : c.target.isUcs2 = true → u < 0x10000)
    (hbom : ¬ (c.target = .utf16 ∧ (!c.outBomDone) = true))
    (hn : (code16 (writesLe16 c.target) u).length ≤ n) :
    encode16 c u n = (.bytes (code16 (writesLe16 c.target) u), c) := by
  have hucs : ¬ (c.target.isUcs2 = true ∧ u > 0xffff) := fun h => absurd (hu h.1) (by omega)
  rw [length_code16] at hn
  simp only [encode16, if_neg hucs, if_neg hbom, add_zero, if_neg (not_lt.mpr hn), code16]
  by_cases h : u > 0xffff
  · simp only [if_pos h]
    rfl
  · simp only [if_neg h]
    rfl

theorem encode16_mark (hc : c.target = .utf16) (hbom : c.outBomDone = false)
    (hn : (put16 0xfeff true ++ code16 true u).length ≤ n) : encode16 c u n =
      (.bytes (put16 0xfeff true ++ code16 true u), { c with outBomDone := true }) := by
  rw [length_append, length_put16, length_code16, add_comm] at hn
  have hlt := not_lt.mpr hn
  by_cases h : u > 0xffff
  · rw [if_pos h] at hlt
    simp [encode16, Enc.isUcs2, code16, hc, hbom, h, hlt]
  · rw [if_neg h] at hlt
    simp [encode16, Enc.isUcs2, code16, hc, hbom, h, hlt]

theorem sniff_off (h : ¬ (c.source = e ∧ (!c.inBomDone) = true)) (swapped u : ℕ)
    (d : Dec) : sniff c e swapped u d = (d, c) := if_neg h

theorem decode16_code (hch : c.source.isUcs2 = true → ch.toNat < 0x10000)
    (hbom : ¬ (c.source = .utf16 ∧ (!c.inBomDone) = true)) (s : List UInt8) :
    decode16 c (code16 (littleEndian16 c) ch.toNat ++ s) =
      (.char (code16 (littleEndian16 c) ch.toNat).length ch.toNat, c) := by
  have hrange := toNat_range ch
  rw [length_code16, code16]
  by_cases h : ch.toNat > 0xffff
  · have hucs : ¬ c.source.isUcs2 = true := fun hu => absurd (hch hu) (by omega)
    obtain ⟨b₀, b₁, hput, hget⟩ := get16_put16
      (show 0xd800 + (ch.toNat - 0x10000) / 0x400 < 0x10000 by omega) (littleEndian16 c)
    obtain ⟨b₂, b₃, hput', hget'⟩ := get16_put16
      (show 0xdc00 + (ch.toNat - 0x10000) % 0x400 < 0x10000 by omega) (littleEndian16 c)
    rw [if_pos h, if_pos h, high_eq (by omega), low_eq, hput, hput']
    change sniff c .utf16 0xfffe (get16 b₀ b₁ (littleEndian16 c)) (decodeUnit16 c.source
      (littleEndian16 c) (get16 b₀ b₁ (littleEndian16 c)) (b₂ :: b₃ :: s)) = _
    have hsum : 0x10000 + (0xd800 + (ch.toNat - 0x10000) / 0x400 - 0xd800) <<< 10 +
        (0xdc00 + (ch.toNat - 0x10000) % 0x400 - 0xdc00) = ch.toNat := by
      rw [shiftLeft_eq]
      omega
    rw [sniff_off hbom, hget, decodeUnit16, if_neg hucs, if_neg (by omega), if_pos (by omega)]
    simp only [hget', hsum]
    rw [if_neg (by omega)]
  · obtain ⟨b₀, b₁, hput, hget⟩ := get16_put16 (show ch.toNat < 0x10000 by omega) (littleEndian16 c)
    rw [if_neg h, if_neg h, hput]
    change sniff c .utf16 0xfffe (get16 b₀ b₁ (littleEndian16 c)) (decodeUnit16 c.source
      (littleEndian16 c) (get16 b₀ b₁ (littleEndian16 c)) s) = _
    rw [sniff_off hbom, hget]
    unfold decodeUnit16
    by_cases hucs : c.source.isUcs2 = true
    · rw [if_pos hucs, if_neg (by omega)]
    · rw [if_neg hucs, if_neg (by omega), if_neg (by omega)]

/-! ## 32-bit encodings -/

theorem or_four {a c : ℕ} (ha : a < 256) (hb : b < 256) (hc : c < 256) (d : ℕ) :
    a ||| b <<< 8 ||| c <<< 16 ||| d <<< 24 = a + b * 2 ^ 8 + c * 2 ^ 16 + d * 2 ^ 24 := by
  rw [or_shift (show a < 2 ^ 8 from ha), or_shift (show a + b * 2 ^ 8 < 2 ^ 16 by omega),
    or_shift (show a + b * 2 ^ 8 + c * 2 ^ 16 < 2 ^ 24 by omega)]

theorem or_four_swap (a b c d : ℕ) :
    d <<< 24 ||| c <<< 16 ||| b <<< 8 ||| a = a ||| b <<< 8 ||| c <<< 16 ||| d <<< 24 := by
  rw [Nat.or_comm _ a, Nat.or_comm _ (b <<< 8), Nat.or_comm (d <<< 24), ← Nat.or_assoc,
    ← Nat.or_assoc]

theorem get32_put32 {v : ℕ} (hv : v < 0x100000000) (le : Bool) :
    ∃ b₀ b₁ b₂ b₃, put32 v le = [b₀, b₁, b₂, b₃] ∧ get32 b₀ b₁ b₂ b₃ le = v := by
  have hor : (byte v).toNat ||| (byte (v >>> 8)).toNat <<< 8 ||| (byte (v >>> 16)).toNat <<< 16 |||
      (byte (v >>> 24)).toNat <<< 24 = v := by
    rw [or_four (byte v).toNat_lt (byte (v >>> 8)).toNat_lt (byte (v >>> 16)).toNat_lt, toNat_byte,
      toNat_byte, toNat_byte, toNat_byte, shiftRight_eq_div_pow, shiftRight_eq_div_pow,
      shiftRight_eq_div_pow]
    omega
  cases le with
  | true => exact ⟨_, _, _, _, rfl, hor⟩
  | false => exact ⟨_, _, _, _, rfl, (or_four_swap _ _ _ _).trans hor⟩

def writesLe32 (e : Enc) : Bool := e ≠ .utf32be ∧ e ≠ .ucs4

theorem encode32_code (hbom : ¬ (c.target = .utf32 ∧ (!c.outBomDone) = true))
    (hn : (put32 u (writesLe32 c.target)).length ≤ n) :
    encode32 c u n = (.bytes (put32 u (writesLe32 c.target)), c) := by
  rw [length_put32] at hn
  simp only [encode32, if_neg hbom, add_zero, if_neg (not_lt.mpr hn)]
  rfl

theorem encode32_mark (hc : c.target = .utf32) (hbom : c.outBomDone = false)
    (hn : (put32 0xfeff true ++ put32 u true).length ≤ n) : encode32 c u n =
      (.bytes (put32 0xfeff true ++ put32 u true), { c with outBomDone := true }) := by
  rw [length_append, length_put32, length_put32] at hn
  simp [encode32, hc, hbom, not_lt.mpr hn]

theorem decode32_code (hbom : ¬ (c.source = .utf32 ∧ (!c.inBomDone) = true)) (s : List UInt8) :
    decode32 c (put32 ch.toNat (littleEndian32 c) ++ s) =
      (.char (put32 ch.toNat (littleEndian32 c)).length ch.toNat, c) := by
  have hrange := toNat_range ch
  obtain ⟨b₀, b₁, b₂, b₃, hput, hget⟩ := get32_put32 (show ch.toNat < 0x100000000 by omega)
    (littleEndian32 c)
  rw [hput]
  change sniff c .utf32 0xfffe0000 (get32 b₀ b₁ b₂ b₃ (littleEndian32 c)) _ = _
  rw [sniff_off hbom, hget, if_neg (by omega)]
  rfl

/-! ## Single-byte charsets -/

/-- The charset `e` has the character `ch`: some byte is decoded to it. -/
def Contains (e : Enc) (ch : Char) : Prop := ∃ b : UInt8, decodeByte e b.toNat = .char 1 ch.toNat

/-- What a byte is decoded to. -/
def Dec.codePoint : Dec → Option ℕ
  | .char _ u => some u
  | _ => none

theorem decodeByte_contained (he : e.isSingle = true) (hb : b < 256)
    (h : decodeByte e b = .char 1 u) : encodeByte e u = some b := by
  have h9 : ∀ p ∈ latin9Table, (decodeByte .latin9 p.1).codePoint.bind (encodeByte .latin9) =
      some p.1 := by decide
  have h1252 : ∀ i < 32, ∀ u ∈ (decodeByte .cp1252 (0x80 + i)).codePoint,
      encodeByte .cp1252 u = some (0x80 + i) := by decide
  match e, he with
  | .ascii, _ =>
    rw [decodeByte] at h
    split_ifs at h
    cases h
    exact if_pos (by omega)
  | .latin1, _ =>
    cases h
    exact if_pos hb
  | .latin9, _ =>
    by_cases hkey : ∃ p ∈ latin9Table, p.1 = b
    · obtain ⟨p, hp, rfl⟩ := hkey
      have hfound := h9 p hp
      rw [h] at hfound
      exact hfound
    · have hno : ∀ p ∈ latin9Table, p.1 ≠ b := fun p hp hpb => hkey ⟨p, hp, hpb⟩
      rw [decodeByte, foldl_unchanged fun p hp => if_neg (hno p hp)] at h
      cases h
      exact encodeByte_latin9 hb hno
  | .cp1252, _ =>
    by_cases hhi : 0x80 ≤ b ∧ b < 0xa0
    · have hfound := h1252 (b - 0x80) (by omega) u
      rw [show 0x80 + (b - 0x80) = b by omega, h] at hfound
      exact hfound rfl
    · have hdec : decodeByte .cp1252 b = .char 1 b := if_neg hhi
      cases h.symm.trans hdec
      exact encodeByte_cp1252 (by omega)

theorem encodeSingle_code (h : encodeByte c.target u = some b) (hn : 1 ≤ n) :
    encodeSingle c u n = (.bytes [byte b], c) := by
  rw [encodeSingle, h]
  exact if_neg (not_lt.mpr hn)

/-! ## Every encoding -/

def Enc.is16 : Enc → Bool
  | .utf16 | .utf16le | .utf16be | .ucs2 | .ucs2le | .ucs2be => true
  | _ => false

def Enc.is32 : Enc → Bool
  | .utf32 | .utf32le | .utf32be | .ucs4 | .ucs4le | .wchar => true
  | _ => false

theorem decode_16 (h : c.source.is16 = true) (s : List UInt8) : decode c s = decode16 c s := by
  obtain ⟨e, _⟩ := c
  cases s with
  | nil => rfl
  | cons b s => cases e <;> first | rfl | cases h

theorem decode_32 (h : c.source.is32 = true) (s : List UInt8) : decode c s = decode32 c s := by
  obtain ⟨e, _⟩ := c
  cases s with
  | nil => rfl
  | cons b s => cases e <;> first | rfl | cases h

theorem decode_single (h : c.source.isSingle = true) (b : UInt8) (s : List UInt8) :
    decode c (b :: s) = (decodeByte c.source b.toNat, c) := by
  obtain ⟨e, _⟩ := c
  cases e <;> first | rfl | cases h

theorem encode_16 (h : c.target.is16 = true) (u n : ℕ) : encode c u n = encode16 c u n := by
  obtain ⟨_, e, _⟩ := c
  cases e <;> first | rfl | cases h

theorem encode_32 (h : c.target.is32 = true) (u n : ℕ) : encode c u n = encode32 c u n := by
  obtain ⟨_, e, _⟩ := c
  cases e <;> first | rfl | cases h

theorem encode_single (h : c.target.isSingle = true) (u n : ℕ) :
    encode c u n = encodeSingle c u n := by
  obtain ⟨_, e, _⟩ := c
  cases e <;> first | rfl | cases h

theorem returns_utf8 (cs : List Char) : Returns .utf8 cs :=
  returns_plain String.utf8EncodeChar
    (fun _ _ ch _ => converts_to rfl fun _ hn => encode_utf8 rfl ch hn)
    (fun _ _ ch _ => converts_back rfl String.utf8EncodeChar_ne_nil fun s => decode_utf8 rfl ch s)

theorem returns_single (he : e.isSingle = true)
    (hcs : ∀ ch ∈ cs, Contains e ch) : Returns e cs := by
  -- the byte of a character is the one that `encode` finds
  have hbyte : ∀ ch ∈ cs, ∃ b : UInt8, encodeByte e ch.toNat = some b.toNat ∧
      decodeByte e b.toNat = .char 1 ch.toNat := by
    intro ch hch
    obtain ⟨b, hb⟩ := hcs ch hch
    exact ⟨b, decodeByte_contained he b.toNat_lt hb, hb⟩
  refine returns_plain (fun ch => [byte ((encodeByte e ch.toNat).getD 0)]) (fun t i ch hch => ?_)
    (fun t i ch hch => ?_)
  · obtain ⟨b, hb, -⟩ := hbyte ch hch
    refine converts_to rfl fun n hn => ?_
    rw [hb, encode_single he]
    exact encodeSingle_code hb hn
  · obtain ⟨b, hb, hd⟩ := hbyte ch hch
    refine converts_back rfl (cons_ne_nil _ _) fun s => ?_
    rw [hb, singleton_append, decode_single he, Option.getD_some, byte, UInt8.ofNat_toNat]
    exact congrArg (·, iconvOpen .utf8 e t i) hd

theorem returns_16 (he : e.is16 = true)
    (hcs : e.isUcs2 = true → ∀ ch ∈ cs, ch.toNat < 0x10000) : Returns e cs := by
  by_cases hmark : e = .utf16
  · subst hmark
    refine returns_marked (fun ch => code16 true ch.toNat) (put16 0xfeff true)
      (cons_ne_nil _ _) rfl (fun t i ch => ?_) (fun t i ch => ?_) (fun t i s => rfl)
      (fun t i ch => ?_)
    · exact converts_to rfl fun n hn => (encode_16 rfl _ _).trans (encode16_mark rfl rfl hn)
    · refine converts_to rfl fun n hn => (encode_16 rfl _ _).trans (encode16_code ?_ ?_ hn)
      · exact fun h => absurd h Bool.false_ne_true
      · exact fun h => absurd h.2 Bool.false_ne_true
    · refine converts_back rfl (code16_ne_nil _ _) fun s => (decode_16 rfl _).trans ?_
      refine decode16_code ?_ ?_ s
      · exact fun h => absurd h Bool.false_ne_true
      · exact fun h => absurd h.2 Bool.false_ne_true
  · have hle : ∀ t i, littleEndian16 (iconvOpen .utf8 e t i) = writesLe16 e := by
      intro t i
      cases e <;> first | rfl | cases he
    refine returns_plain (fun ch => code16 (writesLe16 e) ch.toNat) (fun t i ch hch => ?_)
      (fun t i ch hch => ?_)
    · exact converts_to rfl fun n hn => (encode_16 he _ _).trans
        (encode16_code (fun h => hcs h ch hch) (fun h => hmark h.1) hn)
    · refine converts_back rfl (code16_ne_nil _ _) fun s => (decode_16 he _).trans ?_
      rw [← hle t i]
      exact decode16_code (fun h => hcs h ch hch) (fun h => hmark h.1) s

theorem returns_32 (he : e.is32 = true) (cs : List Char) : Returns e cs := by
  have hne : ∀ u le, put32 u le ≠ [] := by
    intro u le
    refine length_pos_iff.mp ?_
    rw [length_put32]
    decide
  by_cases hmark : e = .utf32
  · subst hmark
    refine returns_marked (fun ch => put32 ch.toNat true) (put32 0xfeff true)
      (hne _ _) rfl (fun t i ch => ?_) (fun t i ch => ?_) (fun t i s => rfl) (fun t i ch => ?_)
    · exact converts_to rfl fun n hn => (encode_32 rfl _ _).trans (encode32_mark rfl rfl hn)
    · exact converts_to rfl fun n hn => (encode_32 rfl _ _).trans
        (encode32_code (fun h => absurd h.2 Bool.false_ne_true) hn)
    · refine converts_back rfl (hne _ _) fun s => (decode_32 rfl _).trans ?_
      refine decode32_code ?_ s
      exact fun h => absurd h.2 Bool.false_ne_true
  · have hle : ∀ t i, littleEndian32 (iconvOpen .utf8 e t i) = writesLe32 e := by
      intro t i
      cases e <;> first | rfl | cases he
    refine returns_plain (fun ch => put32 ch.toNat (writesLe32 e)) (fun t i ch _ => ?_)
      (fun t i ch _ => ?_)
    · exact converts_to rfl fun n hn => (encode_32 he _ _).trans
        (encode32_code (fun h => hmark h.1) hn)
    · refine converts_back rfl (hne _ _) fun s => (decode_32 he _).trans ?_
      rw [← hle t i]
      exact decode32_code (fun h => hmark h.1) s

/-- **The round trips of `iconv`.** Every text comes back from every encoding: from UCS-2 if its
characters are in the Basic Multilingual Plane, from a single-byte charset if that contains them. -/
theorem iconv_round_trip (e : Enc) (cs : List Char)
    (hplane : e.isUcs2 = true → ∀ ch ∈ cs, ch.toNat < 0x10000)
    (hset : e.isSingle = true → ∀ ch ∈ cs, Contains e ch) : Returns e cs := by
  by_cases h16 : e.is16 = true
  · exact returns_16 h16 hplane
  by_cases h32 : e.is32 = true
  · exact returns_32 h32 cs
  by_cases h1 : e.isSingle = true
  · exact returns_single h1 (hset h1)
  · cases e <;> first | exact returns_utf8 cs | exact absurd rfl h16 | exact absurd rfl h32 |
      exact absurd rfl h1

/-- The euro sign in the charset that has it in the place of the currency sign, a character of three
bytes in UCS-2, and a text that begins with the byte-order mark in UTF-16. -/
theorem iconv_round_trip_texts : Returns .latin9 ['€', 'a'] ∧ Returns .ucs2 ['€', 'a'] ∧
    Returns .utf16 ['\ufeff', 'a', '😀'] := by
  have hset : ∀ ch ∈ ['€', 'a'], Contains .latin9 ch := by
    intro ch hch
    rcases mem_pair.mp hch with rfl | rfl
    · exact ⟨0xa4, rfl⟩
    · exact ⟨0x61, rfl⟩
  have hplane : ∀ ch ∈ ['€', 'a'], ch.toNat < 0x10000 := by
    intro ch hch
    rcases mem_pair.mp hch with rfl | rfl
    · exact le_of_ble_eq_true rfl
    · exact le_of_ble_eq_true rfl
  refine ⟨iconv_round_trip .latin9 _ (fun h => absurd h (by decide)) fun _ => hset,
    iconv_round_trip .ucs2 _ (fun _ => hplane) fun h => absurd h (by decide),
    iconv_round_trip .utf16 _ (fun h => absurd h (by decide)) fun h => absurd h (by decide)⟩

end Citadel.Iconv
