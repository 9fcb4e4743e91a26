import Citadel.Lib.Byte
import Citadel.Lib.Positional
import Citadel.Net.Address

/-!
# The grammar of address texts

What `pton4` and `pton6` read, stated without reference to how they read it.

* `IsQuad s v`: `s` is a dotted quad with the values `v`.
* `IsIpv6 s g`: `s` is the text of an IPv6 address with the groups `g`: eight groups of one to four
  hexadecimal digits, or fewer with one `::` for at least one zero group, the last two possibly
  written as a dotted quad.
* `pton4_eq_some_iff`, `pton6Groups_eq_some_iff`: the parsers accept just these texts.
-/

namespace Citadel.Net

open Citadel.Lib.Byte Citadel.Lib.Positional List Nat Option Prod

/-! ## Texts -/

/-- The number spelt in base `b`. -/
def valueOf (b : ℕ) (t : List UInt8) : ℕ := horner b (t.map hexVal)

/-- A number from 0 to 255 in decimal, without leading zeros. -/
structure IsOctet (t : List UInt8) (v : ℕ) : Prop where
  ne_nil : t ≠ []
  short : t.length ≤ 3
  digits : ∀ c ∈ t, isDigit c = true
  no_zero : t.head? = some 48 → t.length = 1
  value : v = valueOf 10 t
  le : v ≤ 255

/-- The parts of `n + 1` octets with dots between them. -/
inductive IsDotted : List UInt8 → List ℕ → Prop
  | last {t : List UInt8} {v : ℕ} (h : IsOctet t v) : IsDotted t [v]
  | cons {t s : List UInt8} {v : ℕ} {vs : List ℕ} (h : IsOctet t v) (hs : IsDotted s vs) :
      IsDotted (t ++ dot :: s) (v :: vs)

def IsQuad (s : List UInt8) (v : List ℕ) : Prop := IsDotted s v ∧ v.length = 4

/-- One to four hexadecimal digits. -/
structure IsGroup (t : List UInt8) (v : ℕ) : Prop where
  ne_nil : t ≠ []
  short : t.length ≤ 4
  digits : ∀ c ∈ t, hexVal c < 16
  value : v = valueOf 16 t

/-- Groups with colons between them, the last two possibly written as a dotted quad. -/
inductive GroupSeq : List UInt8 → List ℕ → Prop
  | group {t : List UInt8} {v : ℕ} (h : IsGroup t v) : GroupSeq t [v]
  | quad {t : List UInt8} {a b c d : ℕ} (h : IsQuad t [a, b, c, d]) :
      GroupSeq t [a * 256 + b, c * 256 + d]
  | cons {t s : List UInt8} {v : ℕ} {vs : List ℕ} (h : IsGroup t v) (hs : GroupSeq s vs) :
      GroupSeq (t ++ colon :: s) (v :: vs)

/-- Groups with a colon behind each. -/
inductive LeftSeq : List UInt8 → List ℕ → Prop
  | nil : LeftSeq [] []
  | cons {t s : List UInt8} {v : ℕ} {vs : List ℕ} (h : IsGroup t v) (hs : LeftSeq s vs) :
      LeftSeq (t ++ colon :: s) (v :: vs)

/-- The groups behind a `::`. -/
def RightSeq (s : List UInt8) (vs : List ℕ) : Prop := (s = [] ∧ vs = []) ∨ GroupSeq s vs

/-- The text of an IPv6 address. -/
inductive IsIpv6 : List UInt8 → List ℕ → Prop
  | full {s : List UInt8} {vs : List ℕ} (h : GroupSeq s vs) (hlen : vs.length = 8) : IsIpv6 s vs
  | gap {l r : List UInt8} {ls rs : List ℕ} (hl : LeftSeq l ls) (hr : RightSeq r rs)
      (hlen : ls.length + rs.length ≤ 7) :
      IsIpv6 ((if ls = [] then [colon] else l) ++ colon :: r)
        (ls ++ List.replicate (8 - (ls.length + rs.length)) 0 ++ rs)

/-! ## Characters -/

@[simp] theorem cur_cons (c : UInt8) (s : List UInt8) : cur (c :: s) = c := rfl

variable {c : UInt8} {s rest t l : List UInt8} {v : ℕ} {vs g ls : List ℕ}

theorem byte_facts : ∀ c : UInt8, (isDigit c = true ↔ hexVal c < 10) ∧
    (isDigit c = true → hexVal c = c.toNat - 48) ∧ (hexVal c < 8 → ¬ c ||| 32 = 120) ∧
    (hexVal c < 16 → c ≠ 0 ∧ c ≠ dot ∧ c ≠ colon ∧ c ≠ space ∧ c ≠ percent) :=
  forall_byte (by decide +kernel)

theorem isDigit_facts (h : isDigit c = true) : hexVal c < 10 ∧ hexVal c = c.toNat - 48 :=
  ⟨(byte_facts c).1.mp h, (byte_facts c).2.1 h⟩

theorem isDigit_of_hexVal (h : hexVal c < 10) : isDigit c = true := (byte_facts c).1.mpr h

theorem hexVal_facts (h : hexVal c < 16) : c ≠ 0 ∧ c ≠ dot ∧ c ≠ colon ∧ c ≠ space ∧ c ≠ percent :=
  (byte_facts c).2.2.2 h

theorem valueOf_append (b : ℕ) (t u : List UInt8) :
    valueOf b (t ++ u) = (u.map hexVal).foldl (fun v d => v * b + d) (valueOf b t) := by
  rw [valueOf, horner, map_append, foldl_append]
  rfl

/-! ## Dotted quads -/

theorem exists_digits {p : UInt8 → Bool} (hp : p 0 = false) : ∀ (n : ℕ) (s : List UInt8),
    ∃ t rest, s = t ++ rest ∧ (∀ c ∈ t, p c = true) ∧ t.length ≤ n ∧
      (t.length = n ∨ p (cur rest) = false)
  | 0, s => ⟨[], s, rfl, by simp, le_refl 0, .inl rfl⟩
  | n + 1, [] => ⟨[], [], rfl, by simp, zero_le _, .inr hp⟩
  | n + 1, c :: s => by
    cases hc : p c with
    | false => exact ⟨[], c :: s, rfl, by simp, zero_le _, .inr hc⟩
    | true =>
      obtain ⟨t, rest, rfl, h1, h2, h3⟩ := exists_digits hp n s
      exact ⟨c :: t, rest, rfl, forall_mem_cons.mpr ⟨hc, h1⟩, succ_le_succ h2,
        h3.imp_left (congrArg succ)⟩

theorem pton4Digits_eq : ∀ (n v : ℕ) (t rest : List UInt8), (∀ c ∈ t, isDigit c = true) →
    t.length ≤ n → (t.length = n ∨ isDigit (cur rest) = false) →
    pton4Digits n v (t ++ rest) = ((t.map hexVal).foldl (fun v d => v * 10 + d) v, rest)
  | 0, v, t, rest, _, hn, _ => by
    obtain rfl : t = [] := eq_nil_of_length_eq_zero (le_zero.mp hn)
    rfl
  | n + 1, v, [], rest, _, _, hr => by
    have hr : isDigit (cur rest) = false := by simpa using hr
    simp [pton4Digits, hr]
  | n + 1, v, c :: t, rest, ht, hn, hr => by
    have hc : isDigit c = true := ht c (by simp)
    have ih := pton4Digits_eq n (v * 10 + hexVal c) t rest (fun d hd => ht d (by simp [hd]))
      (le_of_succ_le_succ hn) (by simpa using hr)
    rw [pton4Digits, if_pos (show isDigit (cur (c :: t ++ rest)) = true from hc)]
    rw [show (cur (c :: t ++ rest)).toNat - 48 = hexVal c from (isDigit_facts hc).2.symm]
    exact ih

theorem pton4Part_eq_some_iff : pton4Part s = some (v, rest) ↔
      ∃ t, s = t ++ rest ∧ IsOctet t v ∧ isDigit (cur rest) = false := by
  constructor
  · intro h
    obtain ⟨t, rest', rfl, hdig, hlen, hstop⟩ := exists_digits (p := isDigit) rfl 3 s
    unfold pton4Part at h
    rw [pton4Digits_eq 3 0 t rest' hdig hlen hstop] at h
    dsimp only at h
    split_ifs at h with h1 h2 h3
    simp only [some.injEq, mk.injEq] at h
    obtain ⟨rfl, rfl⟩ := h
    simp only [not_or, Bool.not_eq_true, not_lt] at h3
    refine ⟨t, rfl, ⟨?_, hlen, hdig, ?_, rfl, h3.2⟩, h3.1⟩
    · rintro rfl
      simp [h3.1] at h1
    · intro hz
      match t, hdig, hz with
      | [_], _, _ => rfl
      | a :: b :: t, hdig, hz =>
        obtain rfl : a = 48 := by simpa using hz
        exact absurd ⟨rfl, hdig b (by simp)⟩ h2
  · rintro ⟨t, rfl, ho, hrest⟩
    obtain ⟨c, t', rfl⟩ := exists_cons_of_ne_nil ho.ne_nil
    have hc : isDigit c = true := ho.digits c (by simp)
    unfold pton4Part
    rw [pton4Digits_eq 3 0 (c :: t') rest ho.digits ho.short (.inr hrest),
      if_neg (by simp [cur, hc]), if_neg]
    · dsimp only
      rw [if_neg]
      · rw [ho.value]; rfl
      · have hle := ho.le
        rw [ho.value] at hle
        simp only [hrest, Bool.false_eq_true, false_or, not_lt]
        exact hle
    · rintro ⟨h1, h2⟩
      have := ho.no_zero (by simpa [cur] using h1)
      obtain rfl : t' = [] := by simpa using this
      simp [hrest] at h2

theorem pton4Loop_eq_some_iff : ∀ {n : ℕ} {s rest : List UInt8} {vs : List ℕ},
    pton4Loop (n + 1) s = some (vs, rest) ↔
      ∃ t, s = t ++ rest ∧ IsDotted t vs ∧ vs.length = n + 1 ∧ isDigit (cur rest) = false
  | n, s, rest, vs => by
    rw [pton4Loop]
    constructor
    · intro h
      cases hp : pton4Part s with
      | none => rw [hp] at h; cases h
      | some r =>
        obtain ⟨v, s'⟩ := r
        obtain ⟨t, rfl, ho, hd⟩ := pton4Part_eq_some_iff.mp hp
        rw [hp] at h
        dsimp only at h
        cases n with
        | zero =>
          simp only [if_true, some.injEq, mk.injEq] at h
          obtain ⟨rfl, rfl⟩ := h
          exact ⟨t, rfl, .last ho, rfl, hd⟩
        | succ n =>
          rw [if_neg (succ_ne_zero n)] at h
          split_ifs at h with hdot
          obtain ⟨⟨vs', rest'⟩, hl, he⟩ := map_eq_some_iff.mp h
          simp only [mk.injEq] at he
          obtain ⟨rfl, rfl⟩ := he
          obtain ⟨t', ht', hd', hlen, hr⟩ := pton4Loop_eq_some_iff.mp hl
          refine ⟨t ++ dot :: t', ?_, .cons ho hd', by simp [hlen], hr⟩
          match s', hdot, ht' with
          | [], hdot, _ => exact absurd hdot (by decide)
          | c :: s', hdot, ht' =>
            obtain rfl : c = dot := hdot
            rw [show s' = t' ++ rest' from ht']
            simp
    · rintro ⟨t, rfl, hd, hlen, hr⟩
      cases hd with
      | @last t v ho =>
        obtain rfl : n = 0 := by simpa using hlen.symm
        rw [pton4Part_eq_some_iff.mpr ⟨t, rfl, ho, hr⟩]
        rfl
      | @cons t u v vs ho hs =>
        cases n with
        | zero =>
          exfalso
          cases hs <;> simp at hlen
        | succ n =>
          have hl : pton4Loop (n + 1) (u ++ rest) = some (vs, rest) :=
            pton4Loop_eq_some_iff.mpr ⟨u, rfl, hs, by simpa using hlen, hr⟩
          rw [append_assoc, cons_append,
            pton4Part_eq_some_iff.mpr ⟨t, rfl, ho, by rfl⟩]
          simp [cur, hl]

/-- `pton4` accepts just the dotted quads that no digit follows. -/
theorem pton4_eq_some_iff :
    pton4 s = some (vs, rest) ↔ ∃ t, s = t ++ rest ∧ IsQuad t vs ∧ isDigit (cur rest) = false := by
  rw [pton4, pton4Loop_eq_some_iff]
  simp only [IsQuad, and_assoc]

/-! ## Groups -/

theorem pton6Digits_eq : ∀ (n v d : ℕ) (t rest : List UInt8), (∀ c ∈ t, hexVal c < 16) →
    t.length ≤ n → (t.length = n ∨ ¬ hexVal (cur rest) < 16) →
    pton6Digits n v d (t ++ rest) =
      ((t.map hexVal).foldl (fun v d => v * 16 + d) v, d + t.length, rest)
  | 0, v, d, t, rest, _, hn, _ => by
    obtain rfl : t = [] := eq_nil_of_length_eq_zero (le_zero.mp hn)
    rfl
  | n + 1, v, d, [], rest, _, _, hr => by
    have hr : ¬ hexVal (cur rest) < 16 := by simpa using hr
    simp [pton6Digits, hr]
  | n + 1, v, d, c :: t, rest, ht, hn, hr => by
    have hc : hexVal c < 16 := ht c (by simp)
    have ih := pton6Digits_eq n (v * 16 + hexVal c) (d + 1) t rest (fun e he => ht e (by simp [he]))
      (le_of_succ_le_succ hn) (by simpa using hr)
    rw [pton6Digits, if_pos (show hexVal (cur (c :: t ++ rest)) < 16 from hc)]
    refine ih.trans ?_
    simp only [length_cons, add_assoc, add_comm 1]
    rfl

theorem pton6Digits_group (h : IsGroup t v)
    (hr : ¬ hexVal (cur rest) < 16) : pton6Digits 5 0 0 (t ++ rest) = (v, t.length, rest) := by
  have hlen := h.short
  rw [pton6Digits_eq 5 0 0 t rest h.digits (by omega) (.inr hr), h.value, zero_add]
  rfl

/-- The digits are not followed by a dot in a group that a colon or the end follows. -/
theorem group_not_quad : ∀ {t rest : List UInt8}, (∀ c ∈ t, hexVal c < 16) →
    (rest = [] ∨ cur rest = colon) → cur ((t ++ rest).dropWhile isDigit) ≠ dot
  | [], rest, _, hr => by
    rcases hr with rfl | hr
    · decide
    · match rest, hr with
      | c :: rest, hr =>
        obtain rfl : c = colon := hr
        rw [nil_append, dropWhile_cons_of_neg (by decide)]
        exact show colon ≠ dot by decide
  | c :: t, rest, ht, hr => by
    have hc := ht c (by simp)
    cases hd : isDigit c with
    | true =>
      rw [cons_append, dropWhile_cons_of_pos hd]
      exact group_not_quad (fun d hd => ht d (by simp [hd])) hr
    | false =>
      rw [cons_append, dropWhile_cons_of_neg (by simp [hd])]
      exact (hexVal_facts hc).2.1

theorem cur_ne_colon (h : IsGroup t v) : cur (t ++ rest) ≠ colon := by
  obtain ⟨c, t', rfl⟩ := exists_cons_of_ne_nil h.ne_nil
  exact (hexVal_facts (h.digits c (by simp))).2.2.1

theorem pton6Loop_group (h : IsGroup t v)
    (hr : rest = [] ∨ cur rest = colon) (fuel : ℕ) (hg : g.length < 8) (gap : Option ℕ) :
    pton6Loop (fuel + 1) (t ++ rest) g gap = if cur rest = colon then
        if rest.tail = [] then none else pton6Loop fuel rest.tail (g ++ [v]) gap
      else pton6Loop fuel rest (g ++ [v]) gap := by
  have hne : t ++ rest ≠ [] := by simp [h.ne_nil]
  have hpos : t.length ≠ 0 := by simp [h.ne_nil]
  have hshort := h.short
  have hhex : ¬ hexVal (cur rest) < 16 := by
    rcases hr with rfl | hr
    · decide
    · rw [hr]; decide
  rw [pton6Loop, if_neg hne, if_neg (cur_ne_colon h), if_neg (by omega),
    if_neg (group_not_quad h.digits hr), pton6Digits_group h hhex]
  dsimp only
  rw [if_neg (by omega)]
  by_cases hc : cur rest = colon
  · rw [if_pos hc, if_pos hc]
  · rw [if_neg hc, if_neg hc, if_neg (by simpa [hc] using hr)]

theorem quad_dot {v : List ℕ} (h : IsQuad s v) :
    cur (s.dropWhile isDigit) = dot ∧ s ≠ [] ∧ cur s ≠ colon := by
  obtain ⟨h, hlen⟩ := h
  cases h with
  | last ho => simp at hlen
  | @cons t s v vs ho hs =>
    rw [dropWhile_append_of_pos ho.digits, dropWhile_cons_of_neg (by decide)]
    obtain ⟨c, t', rfl⟩ := exists_cons_of_ne_nil ho.ne_nil
    refine ⟨rfl, by simp, ?_⟩
    have hc := (isDigit_facts (ho.digits c (by simp))).1
    exact (hexVal_facts (c := c) (by omega)).2.2.1

theorem pton6Loop_colon (h : IsGroup t v) (hs : s ≠ []) (fuel : ℕ) (hg : g.length < 8)
    (gap : Option ℕ) :
    pton6Loop (fuel + 1) (t ++ colon :: s) g gap = pton6Loop fuel s (g ++ [v]) gap := by
  rw [pton6Loop_group h (.inr rfl) fuel hg gap, if_pos (cur_cons _ _), tail_cons, if_neg hs]

theorem pton6Loop_last (h : IsGroup t v) (fuel : ℕ) (hg : g.length < 8) (gap : Option ℕ) :
    pton6Loop (fuel + 2) t g gap = some (g ++ [v], gap) := by
  have := pton6Loop_group h (.inl rfl) (fuel + 1) hg gap
  rw [append_nil, if_neg (by decide)] at this
  rw [this, pton6Loop, if_pos rfl]

theorem GroupSeq.ne_nil (h : GroupSeq s vs) : s ≠ [] := by
  cases h with
  | group h => exact h.ne_nil
  | quad h => exact (quad_dot h).2.1
  | cons h hs => simp

theorem pton6Loop_groupSeq (h : GroupSeq s vs) :
    ∀ (fuel : ℕ) {g : List ℕ} (gap : Option ℕ), g.length + vs.length ≤ 8 →
      pton6Loop (fuel + (vs.length + 1)) s g gap = some (g ++ vs, gap) := by
  induction h with
  | @group t v h =>
    intro fuel g gap hlen
    exact pton6Loop_last h fuel hlen gap
  | @quad t a b c d h =>
    intro fuel g gap hlen
    simp only [length_cons, length_nil] at hlen
    obtain ⟨h1, h2, h3⟩ := quad_dot h
    have h4 : pton4 t = some ([a, b, c, d], []) := pton4_eq_some_iff.mpr ⟨t, by simp, h, rfl⟩
    rw [show fuel + ([a * 256 + b, c * 256 + d].length + 1) = (fuel + 2) + 1 from rfl, pton6Loop,
      if_neg h2, if_neg h3, if_neg (by omega), if_pos h1, h4]
    dsimp only
    rw [if_neg (by omega)]
  | @cons t s v vs h hs ih =>
    intro fuel g gap hlen
    simp only [length_cons] at hlen
    rw [show fuel + ((v :: vs).length + 1) = fuel + (vs.length + 1) + 1 from rfl,
      pton6Loop_colon h hs.ne_nil _ (by omega), ih fuel gap (by simp; omega), append_assoc]
    rfl

theorem pton6Loop_leftSeq (h : LeftSeq l ls) :
    ∀ (fuel : ℕ) {g : List ℕ} (gap : Option ℕ) {rest : List UInt8}, rest ≠ [] →
      g.length + ls.length ≤ 8 →
      pton6Loop (fuel + ls.length) (l ++ rest) g gap = pton6Loop fuel rest (g ++ ls) gap := by
  induction h with
  | nil => intro fuel g gap rest _ _; simp
  | @cons t s v vs h hs ih =>
    intro fuel g gap rest hne hlen
    simp only [length_cons] at hlen
    rw [show fuel + (v :: vs).length = fuel + vs.length + 1 from rfl, append_assoc,
      cons_append, pton6Loop_colon h (by simp [hne]) _ (by omega),
      ih fuel gap hne (by simp; omega), append_assoc]
    rfl

theorem pton6Loop_gap {r : List UInt8} {rs : List ℕ} (h : RightSeq r rs) (fuel : ℕ)
    (hlen : g.length + rs.length ≤ 8) :
    pton6Loop (fuel + (rs.length + 1) + 1) (colon :: r) g none = some (g ++ rs, some g.length) := by
  rw [pton6Loop, if_neg (by simp), if_pos (cur_cons _ _), if_neg (by simp), tail_cons]
  rcases h with ⟨rfl, rfl⟩ | h
  · rw [if_pos rfl, append_nil]
  · rw [if_neg h.ne_nil, pton6Loop_groupSeq h fuel _ hlen]

/-! ## What the loop of `pton6` has read -/

/-- One round over something that is not a colon: a dotted quad at the end, a last group, or a group
with a colon and more behind it. -/
theorem pton6Loop_cases {fuel : ℕ} {gap : Option ℕ}
    {res : List ℕ × Option ℕ} (h : pton6Loop (fuel + 1) s g gap = some res) (hne : s ≠ [])
    (hc : cur s ≠ colon) (hg : g.length ≤ 8) :
    (∃ a b c d, IsQuad s [a, b, c, d] ∧ res = (g ++ [a * 256 + b, c * 256 + d], gap) ∧
      g.length ≤ 6) ∨
    (∃ v, IsGroup s v ∧ pton6Loop fuel [] (g ++ [v]) gap = some res ∧ (g ++ [v]).length ≤ 8) ∨
    ∃ t v s', s = t ++ colon :: s' ∧ IsGroup t v ∧ s' ≠ [] ∧
      pton6Loop fuel s' (g ++ [v]) gap = some res ∧ (g ++ [v]).length ≤ 8 := by
  rw [pton6Loop, if_neg hne, if_neg hc] at h
  by_cases h8 : g.length = 8
  · rw [if_pos h8] at h
    cases h
  rw [if_neg h8] at h
  by_cases hdot : cur (s.dropWhile isDigit) = dot
  · left
    rw [if_pos hdot] at h
    cases hp : pton4 s with
    | none => rw [hp] at h; cases h
    | some r =>
      obtain ⟨vs, rest⟩ := r
      obtain ⟨t, rfl, hq, -⟩ := pton4_eq_some_iff.mp hp
      rw [hp] at h
      match vs, rest, h with
      | [a, b, c, d], [], h =>
        dsimp only at h
        split_ifs at h with h6
        rw [append_nil]
        exact ⟨a, b, c, d, hq, (some.inj h).symm, not_lt.mp h6⟩
  · right
    have hg' : ∀ v, (g ++ [v]).length ≤ 8 := fun v => by simp; omega
    rw [if_neg hdot] at h
    obtain ⟨t, rest, rfl, hdig, hlen, hstop⟩ :=
      exists_digits (p := fun c => hexVal c < 16) rfl 5 s
    simp only [decide_eq_true_eq, decide_eq_false_iff_not] at hdig hstop
    rw [pton6Digits_eq 5 0 0 t rest hdig hlen hstop] at h
    dsimp only at h
    rw [zero_add] at h
    split_ifs at h with h1 h2 h3 h4
    · have hgr : IsGroup t (valueOf 16 t) := ⟨by rintro rfl; simp at h1, by omega, hdig, rfl⟩
      match rest, h2, h3, h with
      | c :: s', h2, h3, h =>
        obtain rfl : c = colon := h2
        exact .inr ⟨t, _, s', rfl, hgr, h3, h, hg' _⟩
    · have hgr : IsGroup t (valueOf 16 t) := ⟨by rintro rfl; simp at h1, by omega, hdig, rfl⟩
      obtain rfl : rest = [] := not_not.mp h4
      rw [append_nil]
      exact .inl ⟨_, hgr, h, hg' _⟩

theorem pton6Loop_nil {fuel : ℕ} {gap : Option ℕ} {res : List ℕ × Option ℕ}
    (h : pton6Loop fuel [] g gap = some res) : res = (g, gap) := by
  cases fuel with
  | zero => cases h
  | succ fuel =>
    rw [pton6Loop, if_pos rfl] at h
    exact (some.inj h).symm

/-- What the loop reads: groups up to the end, or, if there was no gap yet, groups, a gap, and
groups. -/
theorem seq_of_pton6Loop : ∀ {fuel : ℕ} {s : List UInt8} {g : List ℕ} {gap : Option ℕ}
    {res : List ℕ × Option ℕ}, pton6Loop fuel s g gap = some res → g.length ≤ 8 →
    (∃ vs, RightSeq s vs ∧ res = (g ++ vs, gap) ∧ g.length + vs.length ≤ 8) ∨
      gap = none ∧ ∃ l ls r rs, s = l ++ colon :: r ∧ LeftSeq l ls ∧ RightSeq r rs ∧
        res = (g ++ ls ++ rs, some (g.length + ls.length)) ∧ g.length + ls.length + rs.length ≤ 8
  | 0, _, _, _, _, h, _ => by cases h
  | fuel + 1, s, g, gap, res, h, hg8 => by
    by_cases hne : s = []
    · subst hne
      exact .inl ⟨[], .inl ⟨rfl, rfl⟩, by rw [pton6Loop_nil h, append_nil], hg8⟩
    by_cases hc : cur s = colon
    · cases gap with
      | some k =>
        rw [pton6Loop, if_neg hne, if_pos hc, if_pos (by rfl)] at h
        cases h
      | none =>
        obtain ⟨c, r, rfl⟩ := exists_cons_of_ne_nil hne
        obtain rfl : c = colon := hc
        refine .inr ⟨rfl, ?_⟩
        rw [pton6Loop, if_neg hne, if_pos (cur_cons _ _), if_neg (by simp), tail_cons] at h
        split_ifs at h with hr
        · subst hr
          refine ⟨[], [], [], [], rfl, .nil, .inl ⟨rfl, rfl⟩, ?_, hg8⟩
          rw [← some.inj h]
          simp
        · rcases seq_of_pton6Loop h hg8 with ⟨rs, hrs, rfl, hlen⟩ | ⟨hgap, -⟩
          · exact ⟨[], [], r, rs, rfl, .nil, hrs, by simp, hlen⟩
          · cases hgap
    rcases pton6Loop_cases h hne hc hg8 with ⟨a, b, c, d, hq, rfl, h6⟩ | ⟨v, hg, hl, hv⟩ |
      ⟨t, v, s', rfl, hg, hs', hl, hv⟩
    · exact .inl ⟨_, .inr (.quad hq), rfl, by simp; omega⟩
    · exact .inl ⟨_, .inr (.group hg), pton6Loop_nil hl, by simpa using hv⟩
    · rcases seq_of_pton6Loop hl hv with ⟨vs, hr, rfl, hlen⟩ |
        ⟨rfl, l, ls, r, rs, rfl, hls, hrs, rfl, hlen⟩
      all_goals rw [length_append, length_singleton] at hlen
      · have hseq := hr.resolve_left fun e => hs' e.1
        exact .inl ⟨v :: vs, .inr (.cons hg hseq), by rw [append_assoc]; rfl, by simp; omega⟩
      · refine .inr ⟨rfl, t ++ colon :: l, v :: ls, r, rs, by simp, .cons hg hls, hrs, ?_,
          by simp; omega⟩
        simp only [append_assoc, length_append, length_cons, length_nil,
          cons_append, nil_append, mk.injEq, some.injEq, true_and]
        omega

/-! ## The gap is filled -/

theorem fillLoop_none (fill : ℕ) : ∀ (i : ℕ) (g : List ℕ), fillLoop none fill g.length i g = g
  | _, [] => rfl
  | i, v :: g => by
    simp only [length_cons, fillLoop, headD_cons, tail_cons, fillLoop_none fill (i + 1) g]

theorem fillLoop_after (k fill : ℕ) : ∀ {i : ℕ} (g : List ℕ), k + fill ≤ i →
    fillLoop (some k) fill g.length i g = g
  | _, [], _ => rfl
  | i, v :: g, h => by
    have hi : ¬ (k ≤ i ∧ i < k + fill) := by omega
    simp only [length_cons, fillLoop, if_neg hi, headD_cons, tail_cons,
      fillLoop_after k fill (i := i + 1) g (by omega)]

theorem fillLoop_inside (k fill n : ℕ) (g : List ℕ) : ∀ (m : ℕ) {i : ℕ}, k ≤ i → i + m = k + fill →
    fillLoop (some k) fill (m + n) i g = List.replicate m 0 ++ fillLoop (some k) fill n (k + fill) g
  | 0, i, _, hm => by
    rw [add_zero] at hm
    simp [hm]
  | m + 1, i, hk, hm => by
    have hi : k ≤ i ∧ i < k + fill := by omega
    rw [add_right_comm, fillLoop]
    simp only [if_pos hi]
    rw [fillLoop_inside k fill n g m (by omega) (by omega)]
    rfl

theorem fillLoop_before (k fill n : ℕ) (g : List ℕ) : ∀ (a : List ℕ) {i : ℕ}, i + a.length ≤ k →
    fillLoop (some k) fill (a.length + n) i (a ++ g) =
      a ++ fillLoop (some k) fill n (i + a.length) g
  | [], i, _ => by simp
  | v :: a, i, h => by
    rw [length_cons] at h
    have hi : ¬ (k ≤ i ∧ i < k + fill) := by omega
    rw [length_cons, add_right_comm, fillLoop]
    simp only [if_neg hi, cons_append, headD_cons, tail_cons]
    rw [fillLoop_before k fill n g a (by omega),
      show i + 1 + a.length = i + (a.length + 1) by omega]

theorem fillLoop_gap (ls rs : List ℕ) (hlen : ls.length + rs.length ≤ 8) :
    fillLoop (some ls.length) (8 - (ls ++ rs).length) 8 0 (ls ++ rs) =
      ls ++ List.replicate (8 - (ls.length + rs.length)) 0 ++ rs := by
  rw [length_append]
  have h1 := fillLoop_before ls.length (8 - (ls.length + rs.length))
    (8 - (ls.length + rs.length) + rs.length) rs ls (i := 0) (by omega)
  have h2 := fillLoop_inside ls.length (8 - (ls.length + rs.length)) rs.length
    rs (8 - (ls.length + rs.length)) (i := 0 + ls.length) (by omega) (by omega)
  rw [show ls.length + (8 - (ls.length + rs.length) + rs.length) = 8 by omega] at h1
  rw [h1, h2, fillLoop_after _ _ rs (le_refl _), append_assoc]

/-! ## `pton6` -/

theorem IsDotted.length_bounds (h : IsDotted s vs) :
    vs.length ≤ s.length ∧ s.length < 4 * vs.length := by
  induction h with
  | last h => exact ⟨length_pos_iff.mpr h.ne_nil, lt_succ_of_le h.short⟩
  | cons h _ ih =>
    have := h.short
    simp
    omega

theorem GroupSeq.length_bounds (h : GroupSeq s vs) :
    vs.length ≤ s.length ∧ s.length ≤ 5 * vs.length + 5 := by
  induction h with
  | group h => exact ⟨length_pos_iff.mpr h.ne_nil, h.short.trans (by simp)⟩
  | quad h =>
    have := h.1.length_bounds
    simp at this ⊢
    omega
  | cons h _ ih =>
    have := h.short
    simp
    omega

theorem LeftSeq.length_bounds (h : LeftSeq l ls) :
    ls.length ≤ l.length ∧ l.length ≤ 5 * ls.length := by
  induction h with
  | nil => simp
  | cons h _ ih =>
    have := h.short
    simp
    omega

theorem LeftSeq.cur_ne_colon {r : List UInt8} (h : LeftSeq l ls) (hne : ls ≠ []) :
    cur (l ++ r) ≠ colon ∧ l ≠ [] := by
  cases h with
  | nil => exact absurd rfl hne
  | cons h hs =>
    rw [append_assoc]
    exact ⟨Net.cur_ne_colon h, by simp⟩

theorem GroupSeq.cur_ne_colon (h : GroupSeq s vs) : cur s ≠ colon := by
  cases h with
  | group h => simpa using @Net.cur_ne_colon [] _ _ h
  | quad h => exact (quad_dot h).2.2
  | cons h hs => exact Net.cur_ne_colon h

theorem LeftSeq.eq_nil_iff (h : LeftSeq l ls) : l = [] ↔ ls = [] := by
  cases h <;> simp

/-- What `pton6` does before its loop: a text that begins with a colon has to begin with two, of
which the first is skipped. -/
theorem ipv6_of_pton6Groups (h : pton6Groups s = some vs) : IsIpv6 s vs := by
  unfold pton6Groups at h
  by_cases h1 : cur s = colon ∧ cur s.tail ≠ colon
  · rw [if_pos h1] at h; cases h
  rw [if_neg h1] at h
  cases hl : pton6Loop (s.length + 1) (if cur s = colon then s.tail else s) [] none with
  | none => rw [hl] at h; cases h
  | some res =>
    rw [hl] at h
    rcases seq_of_pton6Loop hl (zero_le 8) with ⟨vs', hr, rfl, -⟩ |
      ⟨-, l, ls, r, rs, hs, hls, hrs, rfl, hlen⟩
    · -- no gap
      simp only [nil_append] at h
      split_ifs at h with h8
      rw [not_not] at h8
      have hfill : fillLoop none 0 8 0 vs' = vs' := by
        rw [← h8]
        exact fillLoop_none 0 0 vs'
      rw [hfill] at h
      cases h
      rcases hr with ⟨-, rfl⟩ | hseq
      · simp at h8
      · by_cases hc : cur s = colon
        · rw [if_pos hc] at hseq
          exact absurd (not_not.mp fun hne => h1 ⟨hc, hne⟩) hseq.cur_ne_colon
        · rw [if_neg hc] at hseq
          exact .full hseq h8
    · -- a gap behind `ls`
      simp only [length_nil, zero_add] at hlen
      simp only [nil_append, length_nil, zero_add] at h
      split_ifs at h with h8
      rw [fillLoop_gap ls rs hlen] at h
      cases h
      rw [length_append] at h8
      have hip := IsIpv6.gap hls hrs (by omega)
      by_cases hc : cur s = colon
      · rw [if_pos hc] at hs
        have htail : cur s.tail = colon := not_not.mp fun hne => h1 ⟨hc, hne⟩
        have hnil : ls = [] := by
          by_contra hne
          exact (hls.cur_ne_colon (r := colon :: r) hne).1 (hs ▸ htail)
        obtain rfl := hnil
        obtain rfl := hls.eq_nil_iff.mpr rfl
        match s, hc, hs with
        | c :: s, hc, hs =>
          obtain rfl : c = colon := hc
          rw [tail_cons] at hs
          rwa [hs]
      · rw [if_neg hc] at hs
        have hne : ls ≠ [] := by
          rintro rfl
          obtain rfl := hls.eq_nil_iff.mpr rfl
          exact hc (by rw [hs]; rfl)
        rw [if_neg hne, ← hs] at hip
        exact hip

theorem IsGroup.lt (h : IsGroup t v) : v < 65536 := by
  have hlt : horner 16 (t.map hexVal) < 16 ^ (t.map hexVal).length :=
    horner_lt (forall_mem_map.mpr h.digits)
  rw [length_map] at hlt
  rw [h.value]
  exact hlt.trans_le (Nat.pow_le_pow_right (by decide) h.short)

theorem IsDotted.le (h : IsDotted s vs) : ∀ v ∈ vs, v ≤ 255 := by
  induction h with
  | last h => exact forall_mem_singleton.mpr h.le
  | cons h _ ih => exact forall_mem_cons.mpr ⟨h.le, ih⟩

theorem GroupSeq.lt (h : GroupSeq s vs) : ∀ v ∈ vs, v < 65536 := by
  induction h with
  | group h => exact forall_mem_singleton.mpr h.lt
  | quad h =>
    have := h.1.le
    simp only [forall_mem_cons] at this ⊢
    exact ⟨by omega, by omega, forall_mem_nil _⟩
  | cons h _ ih => exact forall_mem_cons.mpr ⟨h.lt, ih⟩

theorem LeftSeq.lt (h : LeftSeq s vs) : ∀ v ∈ vs, v < 65536 := by
  induction h with
  | nil => exact forall_mem_nil _
  | cons h _ ih => exact forall_mem_cons.mpr ⟨h.lt, ih⟩

theorem IsIpv6.groups (h : IsIpv6 s vs) : vs.length = 8 ∧ ∀ v ∈ vs, v < 65536 := by
  cases h with
  | full h hlen => exact ⟨hlen, h.lt⟩
  | gap hl hr hlen =>
    refine ⟨by simp only [length_append, length_replicate]; omega,
      forall_mem_append.mpr ⟨forall_mem_append.mpr ⟨hl.lt, fun v hv => ?_⟩, ?_⟩⟩
    · rw [eq_of_mem_replicate hv]
      decide
    · rcases hr with ⟨-, rfl⟩ | hr
      · exact forall_mem_nil _
      · exact hr.lt

/-- **The grammar of `pton6`.** It accepts just the texts of IPv6 addresses, and reads the groups
that they denote. -/
theorem pton6Groups_eq_some_iff : pton6Groups s = some vs ↔ IsIpv6 s vs := by
  refine ⟨ipv6_of_pton6Groups, fun h => ?_⟩
  cases h with
  | full h hlen =>
    have hc := h.cur_ne_colon
    have hle := h.length_bounds.1
    have hl := pton6Loop_groupSeq h (s.length - vs.length) (g := []) none (by simp; omega)
    rw [show s.length - vs.length + (vs.length + 1) = s.length + 1 by omega] at hl
    unfold pton6Groups
    rw [if_neg (fun h => hc h.1), if_neg hc, hl]
    simp only [nil_append, hlen, ne_eq, not_true, if_false]
    rw [← hlen, fillLoop_none]
  | @gap l r ls rs hl hr hlen =>
    have hll := hl.length_bounds.1
    have hrl : rs.length ≤ r.length := by
      rcases hr with ⟨rfl, rfl⟩ | hr
      · exact le_refl 0
      · exact hr.length_bounds.1
    -- the loop reads `ls`, the gap and `rs`
    have hloop : ∀ {fuel}, l.length + r.length + 2 ≤ fuel →
        pton6Loop fuel (l ++ colon :: r) [] none = some (ls ++ rs, some ls.length) := by
      intro fuel hfuel
      obtain ⟨n, rfl⟩ : ∃ n, fuel = n + (rs.length + 1) + 1 + ls.length :=
        ⟨fuel - (ls.length + rs.length + 2), by omega⟩
      rw [pton6Loop_leftSeq hl _ _ (by simp) (by simp; omega), nil_append,
        pton6Loop_gap hr n (by omega)]
    have h8 : (ls ++ rs).length ≠ 8 := by simp; omega
    unfold pton6Groups
    by_cases hne : ls = []
    · subst hne
      obtain rfl := hl.eq_nil_iff.mpr rfl
      simp only [if_true, singleton_append, tail_cons, cur_cons, ne_eq, not_true, and_false,
        if_false]
      rw [show (colon :: r) = [] ++ colon :: r from rfl, hloop (by simp)]
      simp only [if_neg h8]
      rw [fillLoop_gap [] rs (by omega)]
    · have hc := (hl.cur_ne_colon (r := colon :: r) hne).1
      rw [if_neg hne, if_neg (fun h => hc h.1), if_neg hc, hloop (by simp)]
      simp only [if_neg h8]
      rw [fillLoop_gap ls rs (by omega)]

/-- **`inet_pton` for IPv6.** The text of an address is accepted and the bytes are those of its
eight groups; any other text is refused and nothing is stored. -/
theorem inetPton_inet6 (s : List UInt8) :
    (∀ g, IsIpv6 s g → g.length = 8 ∧ (∀ v ∈ g, v < 65536) ∧ inetPton .inet6 s =
      (1, some (g.flatMap fun v => [UInt8.ofNat (v / 256), UInt8.ofNat (v % 256)]))) ∧
    ((∀ g, ¬ IsIpv6 s g) → inetPton .inet6 s = (0, none)) := by
  refine ⟨fun g hg => ⟨hg.groups.1, hg.groups.2, ?_⟩, fun hno => ?_⟩
  · have hp : pton6 s = some (groupBytes g) := by
      rw [pton6, pton6Groups_eq_some_iff.mpr hg, map_some]
    simp only [inetPton, hp, groupBytes, shiftRight_eq_div_pow]
    congr 2
    refine flatMap_congr fun v _ => ?_
    congr 2
    apply UInt8.toNat.inj
    simp
  · have hp : pton6 s = none := by
      rw [pton6, map_eq_none_iff, eq_none_iff_forall_ne_some]
      exact fun g hg => hno g (pton6Groups_eq_some_iff.mp hg)
    simp only [inetPton, hp]

end Citadel.Net
