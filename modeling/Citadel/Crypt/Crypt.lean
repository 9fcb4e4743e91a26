import Citadel.Number.Strtol
import Mathlib.Data.List.TakeWhile

/-!
# The model of `crypt.c`

Password hashes: SHA-crypt and bcrypt. The settings are parsed and the hashes printed as the source
does; what is computed between is a parameter, a function of the passphrase, the salt and the cost.

* `shaCrypt_idem`, `bcrypt_idem`: a hash is a setting that gives the hash again.
* `crypt_verifies`: so a stored hash verifies itself, and the token of a failure verifies nothing.
-/

namespace Citadel.Crypt

open List Nat Option UInt8

open Citadel.Number (peek bytes isdigit strtoul fmtU strtoul_fmtU isdigit_peek_fmtU)

def dollar : UInt8 := 36

/-- The hash and bcrypt cores: what they leave in `C` and in `hash`. -/
structure Cores where
  sha : Bool → List UInt8 → List UInt8 → ℕ → List UInt8
  bcrypt : List UInt8 → List UInt8 → ℕ → List UInt8

def maxPassphrase : ℕ := 512

/-! ## SHA-crypt -/

def b64 : List UInt8 := bytes "./0123456789ABCDEFGHIJKLMNOPQRSTUVWXYZabcdefghijklmnopqrstuvwxyz"

def b64Loop : ℕ → ℕ → List UInt8
  | 0, _ => []
  | n + 1, w => b64.getD (w &&& 63) 0 :: b64Loop n (w >>> 6)

def b6424 (b2 b1 b0 : UInt8) (n : ℕ) : List UInt8 :=
  b64Loop n (b2.toNat <<< 16 ||| b1.toNat <<< 8 ||| b0.toNat)

def perm512 : List (ℕ × ℕ × ℕ) :=
  [(0, 21, 42), (22, 43, 1), (44, 2, 23), (3, 24, 45), (25, 46, 4), (47, 5, 26),
    (6, 27, 48), (28, 49, 7), (50, 8, 29), (9, 30, 51), (31, 52, 10), (53, 11, 32),
    (12, 33, 54), (34, 55, 13), (56, 14, 35), (15, 36, 57), (37, 58, 16), (59, 17, 38),
    (18, 39, 60), (40, 61, 19), (62, 20, 41)]

def perm256 : List (ℕ × ℕ × ℕ) :=
  [(0, 10, 20), (21, 1, 11), (12, 22, 2), (3, 13, 23), (24, 4, 14),
    (15, 25, 5), (6, 16, 26), (27, 7, 17), (18, 28, 8), (9, 19, 29)]

/-- The text of the digest `C`. -/
def shaText (C : List UInt8) (is512 : Bool) : List UInt8 :=
  let group (p : ℕ × ℕ × ℕ) := b6424 (C.getD p.1 0) (C.getD p.2.1 0) (C.getD p.2.2 0) 4
  if is512 then perm512.flatMap group ++ b6424 0 0 (C.getD 63 0) 2
  else perm256.flatMap group ++ b6424 0 (C.getD 31 0) (C.getD 30 0) 3

/-- The prefix of the method. -/
def shaMark (is512 : Bool) : List UInt8 := if is512 then bytes "$6$" else bytes "$5$"

/-- The number of rounds, whether it is given in the setting, and what follows. -/
def shaRounds (s : List UInt8) : Option (ℕ × Bool × List UInt8) :=
  if (bytes "rounds=").isPrefixOf s then
    if !isdigit (peek (s.drop 7)) then none
    else
      let r := strtoul (s.drop 7) 10
      if peek r.rest ≠ dollar then none
      else if r.value < 1000 ∨ r.value > 999999999 then none
      else some (r.value, true, r.rest.tail)
  else some (5000, false, s)

/-- The salt: at most 16 characters before a dollar sign. -/
def shaSalt (s : List UInt8) : List UInt8 := (s.takeWhile (· ≠ dollar)).take 16

/-- The characters that a salt may not have: `:`, a line feed, `*` and `!`. -/
def saltRefused (c : UInt8) : Bool := c = 58 ∨ c = 10 ∨ c = 42 ∨ c = 33

def roundsText (rounds : ℕ) (custom : Bool) : List UInt8 :=
  if custom then bytes "rounds=" ++ fmtU rounds 10 false ++ [dollar] else []

def shaCrypt (cores : Cores) (key setting : List UInt8) (is512 : Bool) : Option (List UInt8) :=
  match shaRounds (setting.drop 3) with
  | none => none
  | some (rounds, custom, s) =>
    if (shaSalt s).any saltRefused then none
    else if key.length ≥ maxPassphrase then none
    else some (shaMark is512 ++ (roundsText rounds custom ++ (shaSalt s ++
      dollar :: shaText (cores.sha is512 key (shaSalt s) rounds) is512)))

/-! ## bcrypt -/

def bfb64 : List UInt8 := bytes "./ABCDEFGHIJKLMNOPQRSTUVWXYZabcdefghijklmnopqrstuvwxyz0123456789"

/-- The value of the next character. -/
def bfVal : List UInt8 → Option (ℕ × List UInt8)
  | [] => none
  | c :: s => (bfb64.idxOf? c).map fun i => (i, s)

def bfDecode : ℕ → List UInt8 → Option (List UInt8)
  | 0, _ => some []
  | 1, s => do
    let (c0, s) ← bfVal s
    let (c1, _) ← bfVal s
    some [ofNat (c0 <<< 2 ||| c1 >>> 4)]
  | 2, s => do
    let (c0, s) ← bfVal s
    let (c1, s) ← bfVal s
    let (c2, _) ← bfVal s
    some [ofNat (c0 <<< 2 ||| c1 >>> 4), ofNat (c1 <<< 4 ||| c2 >>> 2)]
  | n + 3, s => do
    let (c0, s) ← bfVal s
    let (c1, s) ← bfVal s
    let (c2, s) ← bfVal s
    let (c3, s) ← bfVal s
    let out ← bfDecode n s
    some (ofNat (c0 <<< 2 ||| c1 >>> 4) :: ofNat (c1 <<< 4 ||| c2 >>> 2) ::
      ofNat (c2 <<< 6 ||| c3) :: out)

def bfChar (i : ℕ) : UInt8 := bfb64.getD i 0

def bfEncode : List UInt8 → List UInt8
  | [] => []
  | [a] => [bfChar (a.toNat >>> 2), bfChar ((a.toNat &&& 3) <<< 4)]
  | [a, b] => [bfChar (a.toNat >>> 2), bfChar ((a.toNat &&& 3) <<< 4 ||| b.toNat >>> 4),
      bfChar ((b.toNat &&& 15) <<< 2)]
  | a :: b :: c :: l =>
      bfChar (a.toNat >>> 2) :: bfChar ((a.toNat &&& 3) <<< 4 ||| b.toNat >>> 4) ::
        bfChar ((b.toNat &&& 15) <<< 2 ||| c.toNat >>> 6) :: bfChar (c.toNat &&& 63) :: bfEncode l

/-- The checks of the first seven characters, and the cost they give. -/
def bcryptCost (setting : List UInt8) : Option ℕ :=
  let ch (i : ℕ) := setting.getD i 0
  if (ch 2 ≠ 97 ∧ ch 2 ≠ 98 ∧ ch 2 ≠ 121) ∨ ch 3 ≠ dollar then none
  else if ch 4 < 48 ∨ ch 4 > 51 ∨ ch 5 < 48 ∨ ch 5 > 57 ∨ ch 6 ≠ dollar then none
  else
    let cost := ((ch 4).toNat - 48) * 10 + ((ch 5).toNat - 48)
    if cost < 4 ∨ cost > 31 then none else some cost

/-- `bcrypt`; `alloc` tells whether there is memory for the tables. -/
def bcrypt (cores : Cores) (alloc : Bool) (key setting : List UInt8) : Option (List UInt8) := do
  let cost ← bcryptCost setting
  let salt ← bfDecode 16 (setting.drop 7)
  if key.length ≥ maxPassphrase then none
  else if !alloc then none
  else some (setting.take 7 ++ (bfEncode salt ++ bfEncode ((cores.bcrypt key salt cost).take 23)))

/-! ## Entry point -/

/-- The output, and whether `errno` is set to `EINVAL`. -/
structure Crypted where
  output : List UInt8
  einval : Bool
deriving DecidableEq, Repr

/-- The method that the setting asks for. -/
def hash (cores : Cores) (alloc : Bool) (key setting : List UInt8) : Option (List UInt8) :=
  if (bytes "$6$").isPrefixOf setting then shaCrypt cores key setting true
  else if (bytes "$5$").isPrefixOf setting then shaCrypt cores key setting false
  else if setting.getD 0 0 = dollar ∧ setting.getD 1 0 = 50 then bcrypt cores alloc key setting
  else none

def cryptR (cores : Cores) (alloc : Bool) (key setting : List UInt8) : Crypted :=
  match hash cores alloc key setting with
  | some out => ⟨out, false⟩
  | none =>
    ⟨if setting.getD 0 0 = 42 ∧ setting.getD 1 0 = 48 then bytes "*1" else bytes "*0", true⟩

/-! ## SHA-crypt verifies itself -/

variable {s key setting h : List UInt8} {cores : Cores} {alloc : Bool}

theorem ne_dollar_of_mem {c : UInt8} (h : c ∈ shaSalt s) : c ≠ dollar := by
  have hc : c ∈ s.takeWhile (· ≠ dollar) := mem_of_mem_take h
  have hne := mem_takeWhile_imp hc
  exact of_decide_eq_true hne

theorem shaSalt_append (s t : List UInt8) : shaSalt (shaSalt s ++ dollar :: t) = shaSalt s := by
  rw [shaSalt, takeWhile_append_of_pos fun c hc => decide_eq_true (ne_dollar_of_mem hc),
    takeWhile_cons_of_neg (by decide), append_nil]
  exact take_of_length_le (length_take_le 16 _)

/-- A salt that is not preceded by rounds does not look like rounds itself. -/
theorem shaSalt_no_rounds (h : ¬ bytes "rounds=" <+: s) (t : List UInt8) :
    ¬ bytes "rounds=" <+: shaSalt s ++ dollar :: t := by
  intro hr
  have htake : shaSalt s <+: s.takeWhile (· ≠ dollar) := take_prefix _ _
  have hsalt : shaSalt s <+: s := htake.trans <| takeWhile_prefix _
  by_cases hlen : (bytes "rounds=").length ≤ (shaSalt s).length
  · exact h ((prefix_of_prefix_length_le hr (prefix_append _ _) hlen).trans hsalt)
  · have hd : shaSalt s ++ [dollar] <+: shaSalt s ++ dollar :: t :=
      ⟨t, by rw [append_assoc, singleton_append]⟩
    have hin : shaSalt s ++ [dollar] <+: bytes "rounds=" :=
      prefix_of_prefix_length_le hd hr (by rw [length_append, length_singleton]; omega)
    exact absurd (hin.subset (mem_append_right _ (mem_singleton_self dollar))) (by decide)

theorem shaRounds_text {s' : List UInt8} {rounds : ℕ} {custom : Bool}
    (h : shaRounds s = some (rounds, custom, s')) (t : List UInt8) :
    shaRounds (roundsText rounds custom ++ (shaSalt s' ++ dollar :: t)) =
      some (rounds, custom, shaSalt s' ++ dollar :: t) := by
  simp only [shaRounds] at h
  split_ifs at h with hr hdig hend hrange
  · cases h
    set x := (strtoul (s.drop 7) 10).value
    set u := shaSalt (strtoul (s.drop 7) 10).rest.tail ++ dollar :: t
    have htext : roundsText x true ++ u = bytes "rounds=" ++ (fmtU x 10 false ++ dollar :: u) := by
      rw [roundsText, if_pos rfl, append_assoc, append_assoc, singleton_append]
    have hdrop : (bytes "rounds=" ++ (fmtU x 10 false ++ dollar :: u)).drop 7 =
        fmtU x 10 false ++ dollar :: u := drop_left' rfl
    have hread : strtoul (fmtU x 10 false ++ dollar :: u) 10 = ⟨x, dollar :: u, none⟩ :=
      strtoul_fmtU (by omega) (show 10 ≤ Number.digitVal dollar by decide)
    rw [htext, shaRounds, hdrop, if_pos (List.isPrefixOf_iff_prefix.mpr (prefix_append _ _)),
      hread, isdigit_peek_fmtU, if_neg (by decide)]
    exact (if_neg (not_not.mpr rfl)).trans (if_neg hrange)
  · cases h
    have hno := shaSalt_no_rounds (fun hp => hr (List.isPrefixOf_iff_prefix.mpr hp)) t
    exact if_neg fun hp => hno (List.isPrefixOf_iff_prefix.mp hp)

/-- **A SHA-crypt hash as the setting gives the hash again.** -/
theorem shaCrypt_idem {is512 : Bool} (hh : shaCrypt cores key setting is512 = some h) :
    shaMark is512 <+: h ∧ shaCrypt cores key h is512 = some h := by
  rw [shaCrypt] at hh
  split at hh
  · cases hh
  · next rounds custom s hs =>
    split_ifs at hh with hsalt hkey
    cases hh
    refine ⟨prefix_append _ _, ?_⟩
    have hmark : (shaMark is512).length = 3 := by
      cases is512 with
      | false | true => rfl
    rw [shaCrypt, drop_left' hmark, shaRounds_text hs]
    simp only [shaSalt_append, hsalt, hkey, if_false, Bool.false_eq_true]

/-! ## bcrypt verifies itself -/

set_option maxRecDepth 4000 in
theorem bfVal_bfChar {i : ℕ} (h : i < 64) (s : List UInt8) :
    bfVal (bfChar i :: s) = some (i, s) := by
  have : ∀ i : Fin 64, bfb64.idxOf? (bfChar i) = some i.val := by decide
  rw [bfVal, this ⟨i, h⟩]
  rfl

theorem or_eq_add {a b k : ℕ} (h : b < 2 ^ k) : a <<< k ||| b = a * 2 ^ k + b := by
  rw [← shiftLeft_add_eq_or_of_lt h, shiftLeft_eq]

theorem and_mask (a k : ℕ) : a &&& (2 ^ k - 1) = a % 2 ^ k := and_two_pow_sub_one_eq_mod a k

theorem bf_first (a : UInt8) : a.toNat >>> 2 < 64 := by
  have := a.toNat_lt
  rw [shiftRight_eq_div_pow]
  omega

theorem bf_second (a b : UInt8) :
    (a.toNat &&& 3) <<< 4 ||| b.toNat >>> 4 = a.toNat % 4 * 16 + b.toNat / 16 := by
  have hb := b.toNat_lt
  have hmask : a.toNat &&& 3 = a.toNat % 4 := and_mask _ 2
  rw [hmask, shiftRight_eq_div_pow, or_eq_add (by omega)]
  rfl

theorem bf_third (b c : UInt8) :
    (b.toNat &&& 15) <<< 2 ||| c.toNat >>> 6 = b.toNat % 16 * 4 + c.toNat / 64 := by
  have hc := c.toNat_lt
  have hmask : b.toNat &&& 15 = b.toNat % 16 := and_mask _ 4
  rw [hmask, shiftRight_eq_div_pow, or_eq_add (by omega)]
  rfl

theorem first_byte (a : UInt8) {r : ℕ} (hr : r < 16) :
    ofNat ((a.toNat >>> 2) <<< 2 ||| (a.toNat % 4 * 16 + r) >>> 4) = a := by
  have ha := a.toNat_lt
  rw [shiftRight_eq_div_pow, shiftRight_eq_div_pow, or_eq_add (by omega)]
  exact (UInt8.ofNat_eq_iff_mod_eq_toNat _ _).mpr (by omega)

theorem second_byte (b : UInt8) {q r : ℕ} (hr : r < 4) :
    ofNat ((q * 16 + b.toNat / 16) <<< 4 ||| (b.toNat % 16 * 4 + r) >>> 2) = b := by
  have hb := b.toNat_lt
  rw [shiftRight_eq_div_pow, or_eq_add (by omega)]
  exact (UInt8.ofNat_eq_iff_mod_eq_toNat _ _).mpr (by omega)

theorem third_byte (c : UInt8) (q : ℕ) :
    ofNat ((q * 4 + c.toNat / 64) <<< 6 ||| (c.toNat &&& 63)) = c := by
  have hc := c.toNat_lt
  have hmask : c.toNat &&& 63 = c.toNat % 64 := and_mask _ 6
  rw [hmask, or_eq_add (by omega)]
  exact (UInt8.ofNat_eq_iff_mod_eq_toNat _ _).mpr (by omega)

/-- **What is encoded is decoded again**, whatever follows. -/
theorem bfDecode_bfEncode (t : List UInt8) : ∀ l : List UInt8,
    bfDecode l.length (bfEncode l ++ t) = some l
  | [] => rfl
  | [a] => by
    have ha := a.toNat_lt
    have h0 := bf_first a
    have h1 : (a.toNat &&& 3) <<< 4 = a.toNat % 4 * 16 + 0 := by
      rw [show a.toNat &&& 3 = a.toNat % 4 from and_mask _ 2, shiftLeft_eq]
      rfl
    have hval : bfVal (bfChar (a.toNat % 4 * 16 + 0) :: t) = some (a.toNat % 4 * 16 + 0, t) :=
      bfVal_bfChar (by omega) t
    simp only [length_singleton, bfEncode, h1, cons_append, nil_append, bfDecode,
      bfVal_bfChar h0, hval, bind_eq_bind, bind_some, first_byte a (zero_lt_succ 15)]
  | [a, b] => by
    have ha := a.toNat_lt
    have hb := b.toNat_lt
    have h0 := bf_first a
    have h1 : a.toNat % 4 * 16 + b.toNat / 16 < 64 := by omega
    have h2 : (b.toNat &&& 15) <<< 2 = b.toNat % 16 * 4 + 0 := by
      rw [show b.toNat &&& 15 = b.toNat % 16 from and_mask _ 4, shiftLeft_eq]
      rfl
    have hval : bfVal (bfChar (b.toNat % 16 * 4 + 0) :: t) = some (b.toNat % 16 * 4 + 0, t) :=
      bfVal_bfChar (by omega) t
    simp only [length_cons, length_nil, bfEncode, bf_second, h2, cons_append,
      nil_append, bfDecode, bfVal_bfChar h0, bfVal_bfChar h1, hval, bind_eq_bind,
      bind_some, first_byte a (show b.toNat / 16 < 16 by omega),
      second_byte b (zero_lt_succ 3)]
  | a :: b :: c :: l => by
    have ha := a.toNat_lt
    have hb := b.toNat_lt
    have hc := c.toNat_lt
    have h0 := bf_first a
    have h1 : a.toNat % 4 * 16 + b.toNat / 16 < 64 := by omega
    have h2 : b.toNat % 16 * 4 + c.toNat / 64 < 64 := by omega
    have h3 : c.toNat &&& 63 < 64 := by
      rw [show c.toNat &&& 63 = c.toNat % 64 from and_mask _ 6]
      omega
    simp only [length_cons, bfEncode, bf_second, bf_third, cons_append, bfDecode,
      bfVal_bfChar h0, bfVal_bfChar h1, bfVal_bfChar h2, bfVal_bfChar h3, bfDecode_bfEncode t l,
      bind_eq_bind, bind_some, first_byte a (show b.toNat / 16 < 16 by omega),
      second_byte b (show c.toNat / 64 < 4 by omega), third_byte c]

theorem length_bfDecode : ∀ {n : ℕ} {s out : List UInt8}, bfDecode n s = some out → out.length = n
  | 0, _, _, h => by
    cases h
    rfl
  | 1, _, _, h => by
    simp only [bfDecode, bind_eq_bind, bind_eq_some_iff] at h
    obtain ⟨_, -, _, -, h⟩ := h
    cases h
    rfl
  | 2, _, _, h => by
    simp only [bfDecode, bind_eq_bind, bind_eq_some_iff] at h
    obtain ⟨_, -, _, -, _, -, h⟩ := h
    cases h
    rfl
  | n + 3, _, _, h => by
    simp only [bfDecode, bind_eq_bind, bind_eq_some_iff] at h
    obtain ⟨_, -, _, -, _, -, _, -, out, hout, h⟩ := h
    cases h
    rw [length_cons, length_cons, length_cons, length_bfDecode hout]

/-- A setting with a cost has seven characters, and the cost depends on them only. -/
theorem bcryptCost_head {cost : ℕ} (h : bcryptCost setting = some cost) :
    7 ≤ setting.length ∧ ∀ t, bcryptCost (setting.take 7 ++ t) = some cost := by
  have hlen : 7 ≤ setting.length := by
    by_contra hlt
    have h6 : setting.getD 6 0 ≠ dollar := by
      rw [getD_eq_default _ _ (by omega)]
      decide
    simp only [bcryptCost] at h
    split_ifs at h with h1 h2
    exact h2 (.inr (.inr (.inr (.inr h6))))
  refine ⟨hlen, fun t => ?_⟩
  have hget : ∀ i, i < 7 → (setting.take 7 ++ t).getD i 0 = setting.getD i 0 := by
    intro i hi
    have htake : i < (setting.take 7).length := by
      rw [length_take]
      omega
    rw [getD_append _ _ _ _ htake, getD_eq_getElem _ _ htake, getElem_take,
      getD_eq_getElem]
  simp only [bcryptCost, hget 2 (by decide), hget 3 (by decide), hget 4 (by decide),
    hget 5 (by decide), hget 6 (by decide)]
  exact h

/-- **A bcrypt hash as the setting gives the hash again.** -/
theorem bcrypt_idem (hh : bcrypt cores alloc key setting = some h) :
    7 ≤ setting.length ∧ setting.take 7 <+: h ∧ bcrypt cores true key h = some h := by
  simp only [bcrypt, bind_eq_bind, bind_eq_some_iff] at hh
  obtain ⟨cost, hcost, salt, hsalt, hh⟩ := hh
  split_ifs at hh with hkey halloc
  cases hh
  obtain ⟨hlen, htake⟩ := bcryptCost_head hcost
  have h7 : (setting.take 7).length = 7 := length_take_of_le hlen
  have hdec := bfDecode_bfEncode (bfEncode ((cores.bcrypt key salt cost).take 23)) salt
  rw [length_bfDecode hsalt] at hdec
  refine ⟨hlen, prefix_append _ _, ?_⟩
  simp only [bcrypt, htake, drop_left' h7, hdec, bind_eq_bind, bind_some, hkey,
    if_false, take_left' h7]
  rfl

/-! ## Stored hashes -/

theorem cryptR_ok (h : (cryptR cores alloc key setting).einval = false) :
    hash cores alloc key setting = some (cryptR cores alloc key setting).output := by
  unfold cryptR at h ⊢
  cases hh : hash cores alloc key setting with
  | some out => rfl
  | none =>
    rw [hh] at h
    cases h

/-- A hash begins with a dollar sign and selects the method that it was made with. -/
theorem hash_idem (hh : hash cores alloc key setting = some h) :
    peek h = dollar ∧ hash cores true key h = some h := by
  rw [hash] at hh
  split_ifs at hh with h6 h5 h2
  · obtain ⟨⟨t, rfl⟩, hidem⟩ := shaCrypt_idem hh
    exact ⟨rfl, hidem⟩
  · obtain ⟨⟨t, rfl⟩, hidem⟩ := shaCrypt_idem hh
    exact ⟨rfl, hidem⟩
  · obtain ⟨hlen, ⟨t, rfl⟩, hidem⟩ := bcrypt_idem hh
    obtain ⟨a, b, r, rfl⟩ : ∃ a b r, setting = a :: b :: r := by
      match setting, hlen with
      | a :: b :: r, _ => exact ⟨a, b, r, rfl⟩
    obtain ⟨rfl, rfl⟩ : a = dollar ∧ b = 50 := h2
    exact ⟨rfl, hidem⟩

/-- **Password hashes verify themselves**, and the token of a failure is no hash. -/
theorem crypt_verifies (cores : Cores) (alloc : Bool) (key setting : List UInt8) :
    ((cryptR cores alloc key setting).einval = false →
      cryptR cores true key (cryptR cores alloc key setting).output =
        ⟨(cryptR cores alloc key setting).output, false⟩) ∧
    ((cryptR cores alloc key setting).einval = true →
      (cryptR cores alloc key setting).output ≠ setting ∧
      ∀ alloc' key' setting', (cryptR cores alloc' key' setting').einval = false →
        (cryptR cores alloc key setting).output ≠ (cryptR cores alloc' key' setting').output) := by
  refine ⟨fun h => ?_, fun h => ?_⟩
  · obtain ⟨-, hidem⟩ := hash_idem (cryptR_ok h)
    rw [cryptR, hidem]
  · have htoken : (cryptR cores alloc key setting).output =
        if setting.getD 0 0 = 42 ∧ setting.getD 1 0 = 48 then bytes "*1" else bytes "*0" := by
      unfold cryptR at h ⊢
      cases hh : hash cores alloc key setting with
      | some out =>
        rw [hh] at h
        cases h
      | none => rfl
    rw [htoken]
    refine ⟨?_, fun alloc' key' setting' h' => ?_⟩
    · split_ifs with hs
      · rintro rfl
        exact absurd hs (by decide)
      · rintro rfl
        exact hs (by decide)
    · intro heq
      have hpeek := (hash_idem (cryptR_ok h')).1
      rw [← heq] at hpeek
      split_ifs at hpeek
      · exact absurd hpeek (by decide)
      · exact absurd hpeek (by decide)

def zeroCores : Cores := ⟨fun _ _ _ _ => [], fun _ _ _ => []⟩

/-- The setting `$6$rounds=01000$ab` and a setting that is refused. -/
theorem crypt_verifies_zero :
    (cryptR zeroCores true [107] (bytes "$6$rounds=01000$ab")).einval = false ∧
    cryptR zeroCores true [107] (cryptR zeroCores true [107] (bytes "$6$rounds=01000$ab")).output =
      ⟨(cryptR zeroCores true [107] (bytes "$6$rounds=01000$ab")).output, false⟩ ∧
    (cryptR zeroCores true [107] (bytes "*0")).einval = true ∧
    (cryptR zeroCores true [107] (bytes "*0")).output ≠ bytes "*0" :=
  ⟨by decide, (crypt_verifies zeroCores true [107] (bytes "$6$rounds=01000$ab")).1 (by decide),
    by decide, ((crypt_verifies zeroCores true [107] (bytes "*0")).2 (by decide)).1⟩

end Citadel.Crypt
