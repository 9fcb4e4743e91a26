import Citadel.Iconv.Restart

/-!
# Sessions of `iconv`

`machine` is the converter as a restartable transducer, and a call of `iconv` is a bounded call of
it (`iconv_eq_bounded`). Hence every session of calls gives what one call with ample room gives
(`iconv_restartable`), up to the report with which `//IGNORE` ends a call that skipped input: that
report is made by each call for itself, so one that is cut by a lack of room makes none
(`ignore_report_lost`).
-/

namespace Citadel.Iconv

open Citadel.Lib.Transducer Bool Prod

/-- The unit that was decoded, converted with ample room. -/
def unitOf : Dec × Cd → Step Cd UInt8
  | (.incomplete, _) => .incomplete
  | (.illegal, c) => if c.ignore then .take 1 [] c else .illegal
  | (.bom, c) => .take (bomLength c.source) [] c
  | (.char k u, c) =>
    match encode c u 8 with
    | (.bytes b, c) => .take k b c
    | (_, c) =>
      if c.translit then
        match translit c u 8 with
        | (.bytes b, c) => .take k b c
        | _ => .illegal
      else if c.ignore then .take k [] c else .illegal

def machine : Machine Cd UInt8 UInt8 where
  step c s := unitOf (decode c s)
  held c s := (decode c s).2

/-- What a character becomes: its bytes, those of its replacement, nothing, or an error. -/
theorem unitOf_char (c : Cd) (k u : ℕ) :
    (∃ b c', b.length ≤ 8 ∧ Same c c' ∧ Writes (encode c u) c b c' ∧
      unitOf (.char k u, c) = .take k b c') ∨
    ((∀ n, encode c u n = (.unrepresentable, c)) ∧
      ((c.translit = true ∧ ∃ b c', b.length ≤ 8 ∧ Same c c' ∧ Writes (translit c u) c b c' ∧
          unitOf (.char k u, c) = .take k b c') ∨
        (c.translit = false ∧
          unitOf (.char k u, c) = if c.ignore then .take k [] c else .illegal))) := by
  rcases encode_cases c u with ⟨hm, hn⟩ | ⟨b, c', -, hb8, -, hsame, hw⟩
  · refine .inr ⟨hn, ?_⟩
    cases ht : c.translit with
    | true =>
      obtain ⟨b, c', -, hb8, hsame, hw⟩ := translit_cases hm
      refine .inl ⟨rfl, b, c', hb8, hsame, hw, ?_⟩
      simp only [unitOf, hn, ht, if_true]
      rw [hw, if_neg (by omega)]
    | false => exact .inr ⟨rfl, by simp [unitOf, hn, ht]⟩
  · refine .inl ⟨b, c', hb8, hsame, hw, ?_⟩
    simp only [unitOf]
    rw [hw, if_neg (by omega)]

variable {x : Dec × Cd}

theorem unitOf_bom (h : x.1 = .bom) : unitOf x = .take (bomLength x.2.source) [] x.2 := by
  obtain ⟨d, c⟩ := x
  cases h
  rfl

theorem unitOf_incomplete (h : x.1 = .incomplete) : unitOf x = .incomplete := by
  obtain ⟨d, c⟩ := x
  cases h
  rfl

theorem bomLength_pos (e : Enc) : 0 < bomLength e := by cases e <;> decide

theorem unitOf_take {n : ℕ} {b : List UInt8} {c' : Cd} (h : unitOf x = .take n b c') :
    b.length ≤ 8 ∧ ((x.1 = .illegal ∧ n = 1) ∨ (x.1 = .bom ∧ n = bomLength x.2.source) ∨
      ∃ u, x.1 = .char n u) := by
  obtain ⟨d, c⟩ := x
  cases d with
  | incomplete => cases h
  | illegal =>
    simp only [unitOf] at h
    split_ifs at h
    cases h
    exact ⟨by simp, .inl ⟨rfl, rfl⟩⟩
  | bom =>
    cases h
    exact ⟨by simp, .inr (.inl ⟨rfl, rfl⟩)⟩
  | char k u =>
    rcases unitOf_char c k u with ⟨b', c'', hb8, -, -, h'⟩ |
      ⟨-, ⟨-, b', c'', hb8, -, -, h'⟩ | ⟨-, h'⟩⟩
    · rw [h'] at h
      cases h
      exact ⟨hb8, .inr (.inr ⟨u, rfl⟩)⟩
    · rw [h'] at h
      cases h
      exact ⟨hb8, .inr (.inr ⟨u, rfl⟩)⟩
    · rw [h'] at h
      split_ifs at h
      cases h
      exact ⟨by simp, .inr (.inr ⟨u, rfl⟩)⟩

theorem machine_lawful : machine.Lawful where
  take_pos := by
    intro c s n b c' hs h
    have hpos := List.length_pos_of_ne_nil hs
    have htake : unitOf (decode c s) = .take n b c' := h
    rcases (unitOf_take htake).2 with ⟨-, rfl⟩ | ⟨hd, rfl⟩ | ⟨u, hd⟩
    · omega
    · rw [((decodes_decode c).same s).source]
      exact ⟨bomLength_pos _, (decodes_decode c).bom_used hd⟩
    · exact (decodes_decode c).used hd
  take_append := by
    intro c s n b c' t hs h
    have htake : unitOf (decode c s) = .take n b c' := h
    have hd : (decode c s).1 ≠ .incomplete := by
      rcases (unitOf_take htake).2 with ⟨hd, -⟩ | ⟨hd, -⟩ | ⟨u, hd⟩ <;> rw [hd] <;> simp
    show unitOf (decode c (s ++ t)) = _
    rw [(decodes_decode c).append t hd]
    exact h
  illegal_append := by
    intro c s t hs h
    have hd : (decode c s).1 ≠ .incomplete := by
      intro hd
      have h' : unitOf (decode c s) = .illegal := h
      rw [unitOf_incomplete hd] at h'
      cases h'
    show unitOf (decode c (s ++ t)) = _
    rw [(decodes_decode c).append t hd]
    exact h
  held_step := by
    intro c s t hs h1 h2
    have hd : (decode c s).1 ≠ .bom := fun hd => h2 _ _ (unitOf_bom hd)
    show unitOf (decode (decode c s).2 (s ++ t)) = unitOf (decode c (s ++ t))
    rw [(decodes_decode c).again t hd]

/-- Why a call of `iconv` stopped: the report of skipped input, made when no input is left, is not a
reason to stop. -/
def whyOf : Ret → List UInt8 → Why
  | .done _, _ => .complete
  | .einval, _ => .incomplete
  | .e2big, _ => .full
  | .eilseq, left => if left = [] then .complete else .illegal

/-- A call of `iconv` as a caller sees it. -/
def call (c : Cd) (s : List UInt8) (room : ℕ) : Cd × Why × List UInt8 × List UInt8 :=
  let r := iconv c (some s) room
  (r.cd, whyOf r.ret r.left, r.out, r.left)

/-- The result of a call that had written `out` is that of the bounded call `q`. Where nothing is
skipped, input is left when an illegal unit is reported. -/
structure Agrees (r : Result) (out : List UInt8) (q : Cd × Why × List UInt8 × List UInt8)
    (strict : Prop) : Prop where
  cd : r.cd = q.1
  why : whyOf r.ret r.left = q.2.1
  out : r.out = out ++ q.2.2.1
  left : r.left = q.2.2.2
  illegal : strict → r.ret = .eilseq → r.left ≠ []

theorem iconvLoop_spec (rounds : ℕ) : ∀ (c : Cd) (s : List UInt8) (room : ℕ) (out : List UInt8)
    (irreversible : ℕ) (ignored : Bool), s.length ≤ rounds →
    Agrees (iconvLoop rounds c s room out irreversible ignored) out (bounded machine c s room)
      (c.ignore = false ∧ ignored = false) := by
  have hfinish : ∀ (c : Cd) (room : ℕ) (out : List UInt8) (irreversible : ℕ) (ignored : Bool),
      Agrees ⟨c, if ignored then .eilseq else .done irreversible, out, []⟩ out
        (bounded machine c [] room) (c.ignore = false ∧ ignored = false) := by
    intro c room out irreversible ignored
    rw [bounded, dif_pos rfl]
    constructor <;> cases ignored <;> simp [whyOf]
  induction rounds with
  | zero =>
    intro c s room out irreversible ignored hs
    rw [List.eq_nil_of_length_eq_zero (Nat.le_zero.mp hs)]
    exact hfinish c room out irreversible ignored
  | succ rounds ih =>
    intro c s room out irreversible ignored hs
    by_cases hnil : s = []
    · subst hnil
      exact hfinish c room out irreversible ignored
    have hpos := List.length_pos_of_ne_nil hnil
    have hstep : machine.step c s = unitOf (decode c s) := rfl
    have hheld : machine.held c s = (decode c s).2 := rfl
    have hsame := ((decodes_decode c).same s).ignore
    -- a unit that is taken
    have htake : ∀ {n b c'}, unitOf (decode c s) = .take n b c' → b.length ≤ room → ∀ irr ign,
        (c.ignore = false ∧ ignored = false → c'.ignore = false ∧ ign = false) →
        Agrees (iconvLoop rounds c' (s.drop n) (room - b.length) (out ++ b) irr ign) out
          (bounded machine c s room) (c.ignore = false ∧ ignored = false) := by
      intro n b c' h hb irr ign hstrict
      have hn := (machine_lawful.take_pos hnil (hstep.trans h)).1
      obtain ⟨h1, h2, h3, h4, h5⟩ := ih c' (s.drop n) (room - b.length) (out ++ b) irr ign
        (by rw [List.length_drop]; omega)
      rw [bounded, dif_neg hnil, hstep, h]
      simp only
      rw [if_neg (by omega), dif_pos hn]
      exact ⟨h1, h2, by rw [h3, List.append_assoc], h4, fun hc => h5 (hstrict hc)⟩
    -- a unit whose bytes do not fit
    have hfull : ∀ {n b c'}, unitOf (decode c s) = .take n b c' → room < b.length →
        bounded machine c s room = ((decode c s).2, .full, [], s) := by
      intro n b c' h hb
      rw [bounded, dif_neg hnil, hstep, h]
      simp only
      rw [if_pos hb, hheld]
    have hill : unitOf (decode c s) = .illegal →
        bounded machine c s room = ((decode c s).2, .illegal, [], s) := by
      intro h
      rw [bounded, dif_neg hnil, hstep, h, hheld]
    rw [iconvLoop, if_neg hnil]
    rcases hd : decode c s with ⟨d, c1⟩
    rw [hd] at htake hfull hill hsame
    cases d with
    | incomplete =>
      rw [bounded, dif_neg hnil, hstep, hd]
      constructor <;> simp [whyOf, unitOf, hheld, hd]
    | illegal =>
      simp only
      by_cases hi : c1.ignore = true
      · rw [if_pos hi]
        simpa using htake (n := 1) (b := []) (by simp [unitOf, hi])
          (Nat.zero_le _) irreversible true
          (by simp [← hsame, hi])
      · rw [if_neg hi, hill (by simp [unitOf, hi])]
        constructor <;> simp [whyOf, hnil]
    | bom =>
      simpa using htake (b := []) rfl (Nat.zero_le _) irreversible ignored
        fun h => ⟨hsame.trans h.1, h.2⟩
    | char k u =>
      have hkeep : ∀ {c'}, Same c1 c' →
          (c.ignore = false ∧ ignored = false → c'.ignore = false ∧ ignored = false) :=
        fun hs' h => ⟨hs'.ignore.trans (hsame.trans h.1), h.2⟩
      simp only
      rcases unitOf_char c1 k u with ⟨b, c', -, hs', hw, hu⟩ |
        ⟨hn, ⟨ht, b, c', -, hs', hw, hu⟩ | ⟨ht, hu⟩⟩
      · rw [hw]
        by_cases hb : room < b.length
        · rw [if_pos hb, hfull hu hb]
          constructor <;> simp [whyOf]
        · rw [if_neg hb]
          exact htake hu (by omega) irreversible ignored (hkeep hs')
      · rw [hn]
        simp only [ht, if_true]
        rw [hw]
        by_cases hb : room < b.length
        · rw [if_pos hb, hfull hu hb]
          constructor <;> simp [whyOf]
        · rw [if_neg hb]
          exact htake hu (by omega) (irreversible + 1) ignored (hkeep hs')
      · rw [hn]
        simp only [ht, false_eq_true, if_false]
        by_cases hi : c1.ignore = true
        · rw [if_pos hi] at hu ⊢
          simpa using htake hu (Nat.zero_le _) (irreversible + 1) true (by simp [← hsame, hi])
        · rw [if_neg hi] at hu ⊢
          rw [hill hu]
          constructor <;> simp [whyOf, hnil]

/-- **A call of `iconv` is a bounded call of the transducer.** -/
theorem call_eq_bounded : call = bounded machine := by
  funext c s room
  obtain ⟨h1, h2, h3, h4, -⟩ := iconvLoop_spec s.length c s room [] 0 false (Nat.le_refl _)
  exact Prod.ext h1 (Prod.ext h2 (Prod.ext h3 h4))

/-- The report of skipped input gets lost when a lack of room ends the call that skipped it: one
call reports it, the two calls that give the same output and leave the same input do not. -/
theorem ignore_report_lost :
    let c := iconvOpen .utf8 .utf8 false true
    let one := iconv c (some [0xff, 0x61, 0x62]) 8
    let first := iconv c (some [0xff, 0x61, 0x62]) 1
    let second := iconv first.cd (some first.left) 8
    (first.ret = .e2big ∧ first.out ++ second.out = one.out ∧ second.left = one.left) ∧
      one.ret = .eilseq ∧ second.ret = .done 0 := by
  decide

/-- **`iconv` is restartable.** A session cuts the input into pieces, gives every call some room
for its output, presents again what a call left and ends when a call found an illegal unit or, the
pieces being used up, when a call was not stopped by a lack of room. It then has written what one
call with ample room writes, has the same input left and stopped for the same reason, where a report
of skipped input is no reason to stop; without `//IGNORE` there is no such report. With room for
eight bytes no call stops for lack of room before it has taken something, so sessions do end. -/
theorem iconv_restartable (c : Cd) (calls : List (List UInt8 × ℕ)) (room : ℕ)
    (hend : (session call c [] calls).2.2 ≠ .full)
    (hone : (iconv c (some (calls.map fst).flatten) room).ret ≠ .e2big) :
    session call c [] calls = ((call c (calls.map fst).flatten room).2.2.1,
      (call c (calls.map fst).flatten room).2.2.2, (call c (calls.map fst).flatten room).2.1) ∧
    (∀ (c : Cd) (s : List UInt8) (room : ℕ), c.ignore = false →
      (iconv c (some s) room).ret = .eilseq → (iconv c (some s) room).left ≠ []) ∧
    ∀ (c : Cd) (s : List UInt8) (room : ℕ), 8 ≤ room → (iconv c (some s) room).ret = .e2big →
      (iconv c (some s) room).left.length < s.length := by
  refine ⟨?_, fun c s room hi => ?_, fun c s room hroom h => ?_⟩
  · have hcall : call c (calls.map fst).flatten room =
        bounded machine c (calls.map fst).flatten room := by rw [call_eq_bounded]
    have hfull : (bounded machine c (calls.map fst).flatten room).2.1 ≠ .full := by
      rw [← hcall]
      intro h
      simp only [call] at h
      cases hr : (iconv c (some (calls.map fst).flatten) room).ret with
      | e2big => exact hone hr
      | done n | einval => rw [hr] at h; cases h
      | eilseq =>
        rw [hr] at h
        simp only [whyOf] at h
        split_ifs at h
    rw [call_eq_bounded] at hend ⊢
    rw [convert_session machine_lawful calls c [] hend, List.nil_append,
      convert_eq_bounded machine_lawful c _ room hfull]
  · exact (iconvLoop_spec s.length c s room [] 0 false (Nat.le_refl _)).illegal ⟨hi, rfl⟩
  · have hb : ∀ c s n b c', machine.step c s = .take n b c' → b.length ≤ 8 := by
      intro c s n b c' h
      exact (unitOf_take (x := decode c s) h).1
    have hcall : call c s room = bounded machine c s room := by rw [call_eq_bounded]
    have hfull : (bounded machine c s room).2.1 = .full := by
      rw [← hcall]
      simp only [call, h, whyOf]
    have hp := bounded_progress machine_lawful hb c s hroom hfull
    rw [← hcall] at hp
    exact hp

/-- A character cut in the middle, on a descriptor that writes a byte-order mark. -/
theorem iconv_restartable_cut :
    session call (iconvOpen .utf16 .utf8 false false) [] [([0xc3], 8), ([0xa9, 0x61], 4), ([], 8)] =
      ([0xff, 0xfe, 0xe9, 0x00, 0x61, 0x00], [], .complete) :=
  (iconv_restartable (iconvOpen .utf16 .utf8 false false) [([0xc3], 8), ([0xa9, 0x61], 4),
    ([], 8)] 64 (by decide) (by decide)).1

end Citadel.Iconv
