import Citadel.Net.Grammar

/-!
# Numeric hosts

Which strings `numeric_host`, and with it `getaddrinfo` and `gethostbyname`, take for an address.

* `IsIpv4 s a`: `s` is the classic text of the IPv4 address `a`: one to four parts in decimal, octal
  or hexadecimal, the last of which fills the remaining bytes.
* `inetAton_eq_some_iff`: `inet_aton` accepts such a text, and also one that a space and anything
  else follow.
* `numericWhole_iff`: a host is taken for numeric only as a whole, except where an IPv4 address is
  followed by a space.
-/

namespace Citadel.Net

open Citadel.Lib.Byte Citadel.Lib.Positional List Option

/-! ## The classic text of an IPv4 address -/

/-- One part: a decimal number without leading zeros, an octal number behind a zero, or a
hexadecimal number behind `0x`. -/
inductive IsPart : List UInt8 → ℕ → Prop
  | decimal {t : List UInt8} (hne : t ≠ []) (hz : t.head? ≠ some 48) (ht : ∀ c ∈ t, hexVal c < 10)
      (hv : valueOf 10 t ≤ 0xffffffff) : IsPart t (valueOf 10 t)
  | octal {t : List UInt8} (ht : ∀ c ∈ t, hexVal c < 8) (hv : valueOf 8 (48 :: t) ≤ 0xffffffff) :
      IsPart (48 :: t) (valueOf 8 (48 :: t))
  | hexadecimal {t : List UInt8} {x : UInt8} (hx : x ||| 32 = 120) (hne : t ≠ [])
      (ht : ∀ c ∈ t, hexVal c < 16) (hv : valueOf 16 t ≤ 0xffffffff) :
      IsPart (48 :: x :: t) (valueOf 16 t)

/-- Parts with dots between them. -/
inductive IsParts : List UInt8 → List ℕ → Prop
  | last {t : List UInt8} {v : ℕ} (h : IsPart t v) : IsParts t [v]
  | cons {t s : List UInt8} {v : ℕ} {vs : List ℕ} (h : IsPart t v) (hs : IsParts s vs) :
      IsParts (t ++ dot :: s) (v :: vs)

/-- The address of at most four parts: all but the last are bytes, the last fills the rest. -/
def PartsValue (vs : List ℕ) (a : ℕ) : Prop :=
  vs ≠ [] ∧ vs.length ≤ 4 ∧ (∀ v ∈ vs.dropLast, v ≤ 255) ∧
    vs.getLastD 0 < 256 ^ (5 - vs.length) ∧
      a = horner 256 vs.dropLast * 256 ^ (5 - vs.length) + vs.getLastD 0

/-- The classic text of the address `a`. -/
def IsIpv4 (t : List UInt8) (a : ℕ) : Prop := ∃ vs, IsParts t vs ∧ PartsValue vs a

/-! ## Parts -/

theorem le_foldl_base (b : ℕ) (hb : 0 < b) : ∀ (ds : List ℕ) (v : ℕ),
    v ≤ ds.foldl (fun v d => v * b + d) v
  | [], v => le_refl v
  | d :: ds, v => by
    have h1 : v ≤ v * b + d := (Nat.le_mul_of_pos_right v hb).trans (Nat.le_add_right _ _)
    exact h1.trans (le_foldl_base b hb ds (v * b + d))

theorem atonDigits_eq {b : ℕ} (hb : 0 < b) : ∀ (t rest : List UInt8) (v : ℕ) (any : Bool),
    (∀ c ∈ t, hexVal c < b) → ¬ hexVal (cur rest) < b →
    (t.map hexVal).foldl (fun v d => v * b + d) v ≤ 0xffffffff →
    atonDigits b v any (t ++ rest) =
      some ((t.map hexVal).foldl (fun v d => v * b + d) v, any || !t.isEmpty, rest)
  | [], rest, v, any, _, hr, _ => by
    cases rest with
    | nil => simp [atonDigits]
    | cons c rest =>
      rw [cur_cons] at hr
      rw [nil_append, atonDigits, if_neg hr]
      simp
  | c :: t, rest, v, any, ht, hr, hv => by
    have hc := ht c (by simp)
    have hle : v * b + hexVal c ≤ 0xffffffff := (le_foldl_base b hb _ _).trans hv
    rw [cons_append, atonDigits, if_pos hc, if_neg (not_lt.mpr hle),
      atonDigits_eq hb t rest _ true (fun d hd => ht d (by simp [hd])) hr hv]
    simp

theorem digits_of_atonDigits {b : ℕ} : ∀ (s : List UInt8) {v w : ℕ} {any any' : Bool}
    {rest : List UInt8}, atonDigits b v any s = some (w, any', rest) →
    ∃ t, s = t ++ rest ∧ (∀ c ∈ t, hexVal c < b) ∧
      w = (t.map hexVal).foldl (fun v d => v * b + d) v ∧ (any' = (any || !t.isEmpty)) ∧
        (t ≠ [] → w ≤ 0xffffffff) ∧ (rest = [] ∨ ¬ hexVal (cur rest) < b)
  | [], v, w, any, any', rest, h => by
    simp only [atonDigits, some.injEq, Prod.mk.injEq] at h
    obtain ⟨rfl, rfl, rfl⟩ := h
    exact ⟨[], rfl, by simp, rfl, by simp, by simp, .inl rfl⟩
  | c :: s, v, w, any, any', rest, h => by
    rw [atonDigits] at h
    split_ifs at h with hc hv
    · obtain ⟨t, rfl, h1, h2, h3, h4, h5⟩ := digits_of_atonDigits s h
      refine ⟨c :: t, rfl, forall_mem_cons.mpr ⟨hc, h1⟩, h2, by simp [h3], fun _ => ?_, h5⟩
      by_cases ht : t = []
      · subst ht
        rw [h2]
        exact not_lt.mp hv
      · exact h4 ht
    · simp only [some.injEq, Prod.mk.injEq] at h
      obtain ⟨rfl, rfl, rfl⟩ := h
      exact ⟨[], rfl, by simp, rfl, by simp, by simp, .inr hc⟩

theorem atonPart_cons {c : UInt8} (hc : isDigit c = true) (s : List UInt8) :
    atonPart (c :: s) =
      if c = 48 then
        if cur s ||| 32 = 120 then
          (atonDigits 16 0 false s.tail).bind fun (v, any, r) => if any then some (v, r) else none
        else (atonDigits 8 0 false (48 :: s)).map fun (v, _, r) => (v, r)
      else (atonDigits 10 0 false (c :: s)).bind fun (v, any, r) => if any then some (v, r)
        else none := by
  unfold atonPart
  rw [if_neg (by simp [hc])]
  simp only [cur_cons, tail_cons, drop_succ_cons]
  by_cases h0 : c = 48
  · subst h0
    by_cases hx : cur s ||| 32 = 120
    · simp only [if_true, hx, drop_one]
      cases h : atonDigits 16 0 false s.tail with
      | none => rfl
      | some r =>
        obtain ⟨v, any, r⟩ := r
        cases any <;> simp
    · simp only [if_true, hx, if_false]
      cases h : atonDigits 8 0 false (48 :: s) with
      | none => simp [h]
      | some r =>
        obtain ⟨v, any, r⟩ := r
        simp [h]
  · simp only [h0, if_false]
    cases h : atonDigits 10 0 false (c :: s) with
    | none => simp [h]
    | some r =>
      obtain ⟨v, any, r⟩ := r
      cases any <;> simp [h]

variable {s t rest : List UInt8} {v : ℕ} {vs : List ℕ}

theorem digits_of_bind {b : ℕ} (h : ((atonDigits b 0 false s).bind
      fun (v, any, r) => if any then some (v, r) else none) = some (v, rest)) :
    ∃ t, s = t ++ rest ∧ t ≠ [] ∧ (∀ c ∈ t, hexVal c < b) ∧ v = valueOf b t ∧ v ≤ 0xffffffff := by
  obtain ⟨⟨w, any, r⟩, hdig, he⟩ := bind_eq_some_iff.mp h
  dsimp only at he
  split_ifs at he with hany
  simp only [some.injEq, Prod.mk.injEq] at he
  obtain ⟨rfl, rfl⟩ := he
  obtain ⟨t, ht, h1, h2, h3, h4, -⟩ := digits_of_atonDigits _ hdig
  have hne : t ≠ [] := by
    rintro rfl
    simp [hany] at h3
  exact ⟨t, ht, hne, h1, h2, h4 hne⟩

theorem part_of_atonPart (h : atonPart s = some (v, rest)) :
    ∃ t, s = t ++ rest ∧ IsPart t v := by
  by_cases hd : isDigit (cur s) = true
  · obtain ⟨c, s, rfl⟩ :=
      exists_cons_of_ne_nil (l := s) (by rintro rfl; exact absurd hd (by decide))
    rw [cur_cons] at hd
    rw [atonPart_cons hd] at h
    split_ifs at h with h0 hx
    · -- hexadecimal
      obtain ⟨t, ht, hne, h1, rfl, h4⟩ := digits_of_bind h
      cases s with
      | nil => exact absurd hx (by decide)
      | cons x s =>
        rw [tail_cons] at ht
        exact ⟨48 :: x :: t, by rw [h0, ht]; rfl, .hexadecimal hx hne h1 h4⟩
    · -- octal
      obtain ⟨⟨w, any, r⟩, hdig, he⟩ := map_eq_some_iff.mp h
      simp only [Prod.mk.injEq] at he
      obtain ⟨rfl, rfl⟩ := he
      obtain ⟨t, ht, h1, h2, -, h4, h5⟩ := digits_of_atonDigits _ hdig
      cases t with
      | nil =>
        rw [nil_append] at ht
        subst ht
        rcases h5 with h5 | h5
        · cases h5
        · exact absurd (show hexVal 48 < 8 by decide) h5
      | cons d t =>
        cases ht
        refine ⟨48 :: t, by rw [h0]; rfl, ?_⟩
        rw [h2]
        exact .octal (fun c hc => h1 c (by simp [hc])) (by rw [h2] at h4; exact h4 (by simp))
    · -- decimal
      obtain ⟨t, ht, hne, h1, rfl, h4⟩ := digits_of_bind h
      refine ⟨t, ht, .decimal hne ?_ h1 h4⟩
      obtain ⟨d, t, rfl⟩ := exists_cons_of_ne_nil hne
      obtain ⟨rfl, -⟩ := List.cons.inj ht
      simpa using h0
  · unfold atonPart at h
    rw [if_pos (by simpa using hd)] at h
    cases h

/-- A part is read back when a dot, a space or the end follows. -/
theorem atonPart_of_part (h : IsPart t v)
    (hr : ∀ b ≤ 16, ¬ hexVal (cur rest) < b) (hx : cur rest ||| 32 ≠ 120) :
    atonPart (t ++ rest) = some (v, rest) := by
  cases h with
  | decimal hne hz ht hv =>
    obtain ⟨c, t, rfl⟩ := exists_cons_of_ne_nil hne
    have hc : c ≠ 48 := by simpa using hz
    rw [cons_append, atonPart_cons (isDigit_of_hexVal (ht c (by simp))), if_neg hc,
      ← cons_append, atonDigits_eq (by decide) (c :: t) rest 0 false ht (hr 10 (by decide)) hv]
    rfl
  | @octal t ht hv =>
    have ht' : ∀ c ∈ (48 : UInt8) :: t, hexVal c < 8 := forall_mem_cons.mpr ⟨by decide, ht⟩
    have hnx : ¬ cur (t ++ rest) ||| 32 = 120 := by
      cases t with
      | nil => exact hx
      | cons c t => exact (byte_facts c).2.2.1 (ht c (by simp))
    rw [cons_append, atonPart_cons (by decide), if_pos rfl, if_neg hnx, ← cons_append,
      atonDigits_eq (by decide) (48 :: t) rest 0 false ht' (hr 8 (by decide)) hv]
    rfl
  | @hexadecimal t x hx' hne ht hv =>
    rw [cons_append, cons_append, atonPart_cons (by decide), if_pos rfl, cur_cons,
      if_pos hx', tail_cons, atonDigits_eq (by decide) t rest 0 false ht (hr 16 (by decide)) hv]
    simp [hne, valueOf, horner]

/-! ## Texts -/

theorem parts_of_atonParts : ∀ {n : ℕ} {s rest : List UInt8} {vs : List ℕ},
    atonParts (n + 1) s = some (vs, rest) → ∃ t, s = t ++ rest ∧ IsParts t vs ∧ vs.length ≤ n + 1
  | n, s, rest, vs, h => by
    rw [atonParts] at h
    cases hp : atonPart s with
    | none => rw [hp] at h; cases h
    | some r =>
      obtain ⟨v, s'⟩ := r
      obtain ⟨t, rfl, hpart⟩ := part_of_atonPart hp
      rw [hp] at h
      dsimp only at h
      split_ifs at h with hd
      · obtain ⟨hdot, hn⟩ := hd
        obtain ⟨n, rfl⟩ := Nat.exists_eq_succ_of_ne_zero hn
        obtain ⟨⟨vs', rest'⟩, hl, he⟩ := map_eq_some_iff.mp h
        simp only [Prod.mk.injEq] at he
        obtain ⟨rfl, rfl⟩ := he
        obtain ⟨t', ht', hs, hlen⟩ := parts_of_atonParts hl
        cases s' with
        | nil => exact absurd hdot (by decide)
        | cons c s' =>
          obtain rfl : c = dot := hdot
          rw [tail_cons] at ht'
          exact ⟨t ++ dot :: t', by rw [ht']; simp, .cons hpart hs, by simpa using hlen⟩
      · simp only [some.injEq, Prod.mk.injEq] at h
        obtain ⟨rfl, rfl⟩ := h
        exact ⟨t, rfl, .last hpart, by simp⟩

theorem stop_facts (h : s = [] ∨ cur s = dot ∨ cur s = space) :
    (∀ b ≤ 16, ¬ hexVal (cur s) < b) ∧ cur s ||| 32 ≠ 120 := by
  have hcur : cur s = 0 ∨ cur s = dot ∨ cur s = space := by
    rcases h with rfl | h
    · exact .inl rfl
    · exact .inr h
  have hval : hexVal (cur s) = 99 ∧ cur s ||| 32 ≠ 120 := by
    rcases hcur with h | h | h <;> rw [h] <;> decide
  exact ⟨fun b hb => by omega, hval.2⟩

theorem atonParts_of_parts : ∀ {n : ℕ} {t rest : List UInt8} {vs : List ℕ}, IsParts t vs →
    vs.length ≤ n + 1 → (rest = [] ∨ cur rest = space) →
    atonParts (n + 1) (t ++ rest) = some (vs, rest)
  | n, _, rest, _, .last (t := t) (v := v) h, _, hr => by
    have hstop : rest = [] ∨ cur rest = dot ∨ cur rest = space := by tauto
    have hdot : ¬ (cur rest = dot ∧ n ≠ 0) := by
      rintro ⟨hd, -⟩
      rcases hr with rfl | hr
      · exact absurd hd (by decide)
      · exact absurd (hd.symm.trans hr) (by decide)
    rw [atonParts, atonPart_of_part h (stop_facts hstop).1 (stop_facts hstop).2]
    dsimp only
    rw [if_neg hdot]
  | n, _, rest, _, @IsParts.cons t s v vs h hs, hlen, hr => by
    have hpos : 0 < vs.length := by cases hs <;> simp
    rw [length_cons] at hlen
    obtain ⟨n, rfl⟩ := Nat.exists_eq_succ_of_ne_zero (show n ≠ 0 by omega)
    have hstop := stop_facts (s := dot :: (s ++ rest)) (.inr (.inl rfl))
    rw [append_assoc, cons_append, atonParts, atonPart_of_part h hstop.1 hstop.2]
    dsimp only
    rw [if_pos ⟨cur_cons _ _, by omega⟩, tail_cons, atonParts_of_parts hs (by omega) hr]
    rfl

theorem shiftLeft_or {p q k : ℕ} (h : q < 2 ^ k) : p <<< k ||| q = p * 2 ^ k + q := by
  rw [← Nat.shiftLeft_add_eq_or_of_lt h, Nat.shiftLeft_eq]

theorem shiftLeft_or_shiftLeft {p q j k : ℕ} (h : q < 2 ^ j) :
    p <<< (j + k) ||| q <<< k = (p * 2 ^ j + q) <<< k := by
  rw [Nat.shiftLeft_add, ← Nat.shiftLeft_or_distrib, shiftLeft_or h]

theorem atonValue_eq_some_iff {a : ℕ} (hle : ∀ v ∈ vs, v ≤ 0xffffffff) :
    atonValue vs = some a ↔ PartsValue vs a := by
  match vs, hle with
  | [], _ => exact ⟨fun h => (by cases h), fun h => absurd rfl h.1⟩
  | [p], hle =>
    have hp := hle p (by simp)
    simp only [atonValue, PartsValue, horner, some.injEq]
    simp
    omega
  | [p, q], _ =>
    by_cases h : p > 255 ∨ q > 0xffffff
    · simp only [atonValue, if_pos h, PartsValue]
      simp
      omega
    · have h1 : p <<< 24 ||| q = p * 2 ^ 24 + q := shiftLeft_or (by omega)
      simp only [atonValue, if_neg h, PartsValue, horner, h1, some.injEq]
      simp
      omega
  | [p, q, r], _ =>
    by_cases h : p > 255 ∨ q > 255 ∨ r > 0xffff
    · simp only [atonValue, if_pos h, PartsValue]
      simp
      omega
    · have h1 : p <<< (8 + 16) ||| q <<< 16 ||| r = (p * 2 ^ 8 + q) * 2 ^ 16 + r := by
        rw [shiftLeft_or_shiftLeft (by omega), shiftLeft_or (by omega)]
      simp only [atonValue, if_neg h, PartsValue, horner, h1, some.injEq]
      simp
      omega
  | [p, q, r, t], _ =>
    by_cases h : p > 255 ∨ q > 255 ∨ r > 255 ∨ t > 255
    · simp only [atonValue, if_pos h, PartsValue]
      simp
      omega
    · have h1 : p <<< (8 + (8 + 8)) ||| q <<< (8 + 8) ||| r <<< 8 ||| t =
          ((p * 2 ^ 8 + q) * 2 ^ 8 + r) * 2 ^ 8 + t := by
        rw [shiftLeft_or_shiftLeft (by omega), shiftLeft_or_shiftLeft (by omega),
          shiftLeft_or (by omega)]
      simp only [atonValue, if_neg h, PartsValue, horner, h1, some.injEq]
      simp
      omega
  | _ :: _ :: _ :: _ :: _ :: _, _ => simp [atonValue, PartsValue]

theorem IsPart.le (h : IsPart t v) : v ≤ 0xffffffff := by
  cases h with
  | decimal _ _ _ hv | octal _ hv | hexadecimal _ _ _ hv => exact hv

theorem IsParts.le (h : IsParts t vs) : ∀ v ∈ vs, v ≤ 0xffffffff := by
  induction h with
  | last h => exact forall_mem_singleton.mpr h.le
  | cons h hs ih => exact forall_mem_cons.mpr ⟨h.le, ih⟩

/-- What `inet_aton` accepts: an address text, and also one that a space and anything follow. -/
theorem inetAton_eq_some_iff {a : ℕ} :
    inetAton s = some a ↔ ∃ t rest, s = t ++ rest ∧ IsIpv4 t a ∧
      (rest = [] ∨ cur rest = space) := by
  constructor
  · intro h
    unfold inetAton at h
    cases hp : atonParts 4 s with
    | none => rw [hp] at h; cases h
    | some r =>
      obtain ⟨vs, rest⟩ := r
      obtain ⟨t, rfl, hparts, -⟩ := parts_of_atonParts hp
      rw [hp] at h
      dsimp only at h
      split_ifs at h with hr
      refine ⟨t, rest, rfl, ⟨vs, hparts, (atonValue_eq_some_iff hparts.le).mp h⟩, ?_⟩
      tauto
  · rintro ⟨t, rest, rfl, ⟨vs, hparts, hv⟩, hr⟩
    unfold inetAton
    rw [atonParts_of_parts hparts hv.2.1 hr]
    dsimp only
    rw [if_neg (by tauto)]
    exact (atonValue_eq_some_iff hparts.le).mpr hv

/-! ## Whole strings -/

theorem IsPart.no_space (h : IsPart t v) : space ∉ t := by
  have hd : ∀ {b : ℕ}, b ≤ 16 → ∀ {c : UInt8}, hexVal c < b → c ≠ space :=
    fun hb c hc => (hexVal_facts (by omega)).2.2.2.1
  cases h with
  | decimal _ _ ht _ => exact fun hm => hd (by decide) (ht _ hm) rfl
  | octal ht _ =>
    exact not_mem_cons_of_ne_of_not_mem (by decide) fun hm => hd (by decide) (ht _ hm) rfl
  | hexadecimal hx _ ht _ =>
    refine not_mem_cons_of_ne_of_not_mem (by decide) (not_mem_cons_of_ne_of_not_mem ?_ fun hm => ?_)
    · rintro rfl
      exact absurd hx (by decide)
    · exact hd (by decide) (ht _ hm) rfl

theorem IsParts.no_space (h : IsParts t vs) : space ∉ t := by
  induction h with
  | last h => exact h.no_space
  | cons h hs ih =>
    rw [mem_append, not_or]
    exact ⟨h.no_space, not_mem_cons_of_ne_of_not_mem (by decide) ih⟩

/-- The whole string is the text of an address of the family, for IPv6 with an optional scope. -/
def IsAddressText (family : Family) (host : List UInt8) : Prop :=
  match family with
  | .inet => ∃ a, IsIpv4 host a
  | .inet6 => ∃ t g, IsIpv6 t g ∧ (host = t ∨ ∃ scope, host = t ++ percent :: scope)
  | .unspec | .other => False

/-- The host is taken for numeric only as a whole: by `numeric_host`, and with `AI_NUMERICHOST` by
`getaddrinfo`. -/
def NumericWhole (env : Scopes) (host : List UInt8) : Prop :=
  (∀ a, numericHost env host = .numeric a → IsAddressText a.family host) ∧
    ∀ lookup flags family as, flags &&& AI_NUMERICHOST ≠ 0 →
      getaddrinfoHost env lookup flags family host = .ok as →
      ∀ a ∈ as, IsAddressText a.family host

theorem numericHost_ipv6 {env : Scopes} {host : List UInt8} {a : DnsAddr}
    (hno : inetAton host = none) (h : numericHost env host = .numeric a) :
    a.family = .inet6 ∧ IsAddressText .inet6 host := by
  unfold numericHost at h
  rw [hno] at h
  dsimp only at h
  split_ifs at h with hlen
  cases hp : pton6 (host.takeWhile (· ≠ percent)) with
  | none => rw [hp] at h; cases h
  | some addr =>
    rw [hp] at h
    obtain ⟨g, hg, -⟩ := map_eq_some_iff.mp hp
    have hip := pton6Groups_eq_some_iff.mp hg
    have hsplit := takeWhile_append_dropWhile (p := (· ≠ percent)) (l := host)
    cases hd : host.dropWhile (· ≠ percent) with
    | nil =>
      rw [hd] at h hsplit
      cases h
      rw [append_nil] at hsplit
      exact ⟨rfl, _, g, hip, .inl hsplit.symm⟩
    | cons c scope =>
      have hc : c = percent := by
        have := List.head?_dropWhile_not (· ≠ percent) host
        rw [hd] at this
        simpa using this
      subst hc
      rw [hd] at h hsplit
      dsimp only at h
      split_ifs at h
      all_goals
        cases h
        exact ⟨rfl, _, g, hip, .inr ⟨scope, hsplit.symm⟩⟩

/-- **Numeric hosts.** A host is taken for numeric only as a whole, exactly when it is not an IPv4
address text with a space behind it. -/
theorem numericWhole_iff (env : Scopes) (host : List UInt8) :
    NumericWhole env host ↔ ¬ ∃ t rest a, host = t ++ space :: rest ∧ IsIpv4 t a := by
  have hnum : (∀ a, numericHost env host = .numeric a → IsAddressText a.family host) ↔
      ¬ ∃ t rest a, host = t ++ space :: rest ∧ IsIpv4 t a := by
    constructor
    · rintro h ⟨t, rest, a, rfl, ha⟩
      have hv : inetAton (t ++ space :: rest) = some a :=
        inetAton_eq_some_iff.mpr ⟨t, _, rfl, ha, .inr rfl⟩
      have hn : numericHost env (t ++ space :: rest) = .numeric ⟨.inet, networkOrder a, 0⟩ := by
        unfold numericHost
        rw [hv]
      obtain ⟨b, vs, hparts, -⟩ := h _ hn
      exact hparts.no_space (by simp)
    · intro h a ha
      cases hv : inetAton host with
      | none =>
        obtain ⟨h1, h2⟩ := numericHost_ipv6 hv ha
        rwa [h1]
      | some b =>
        obtain ⟨t, rest, rfl, ht, hr⟩ := inetAton_eq_some_iff.mp hv
        cases rest with
        | nil =>
          unfold numericHost at ha
          rw [hv] at ha
          cases ha
          rw [append_nil]
          exact ⟨b, ht⟩
        | cons c rest =>
          obtain rfl : c = space := by simpa using hr
          exact absurd ⟨t, rest, b, rfl, ht⟩ h
  rw [← hnum]
  refine ⟨fun h => h.1, fun h => ⟨h, ?_⟩⟩
  intro lookup flags family as hf hget a ha
  unfold getaddrinfoHost at hget
  cases hn : numericHost env host with
  | name =>
    rw [hn] at hget
    dsimp only at hget
    rw [if_pos hf] at hget
    cases hget
  | invalid => rw [hn] at hget; cases hget
  | numeric b =>
    rw [hn] at hget
    dsimp only at hget
    split_ifs at hget
    cases hget
    rw [mem_singleton.mp ha]
    exact h b hn

/-- The text `127.0.0.1` is taken as a whole. -/
theorem numericWhole_loopback : NumericWhole ⟨fun s => (0, s), fun _ => 0⟩
    [49, 50, 55, 46, 48, 46, 48, 46, 49] := by
  refine (numericWhole_iff _ _).mpr ?_
  rintro ⟨t, rest, a, h, -⟩
  have hm : space ∈ t ++ space :: rest := by simp
  rw [← h] at hm
  exact absurd hm (by decide)

/-- The host `127.0.0.1 foo` is taken for the address in front of the space. -/
theorem trailing_text_ignored : ¬ NumericWhole ⟨fun s => (0, s), fun _ => 0⟩
    [49, 50, 55, 46, 48, 46, 48, 46, 49, 32, 102, 111, 111] := by
  rintro ⟨h, -⟩
  obtain ⟨b, vs, hparts, -⟩ := h ⟨.inet, [127, 0, 0, 1], 0⟩ rfl
  exact hparts.no_space (by decide)

end Citadel.Net
