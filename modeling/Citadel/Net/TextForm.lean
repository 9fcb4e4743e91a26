import Citadel.Net.Grammar
import Mathlib.Data.List.GetD

/-!
# The text form of addresses

`inet_ntop` prints an address so that `inet_pton` reads it back, and an IPv6 address without an
embedded IPv4 address in the one canonical form: the groups in lower case without leading zeros,
with `::` for the first of the longest runs of at least two zero groups.

* `findRun_spec`: the scan finds that run.
* `text6_canonical`, `text6_ipv6`: the text of an IPv6 address, and that it is one for the grammar.
* `inet_ntop_pton`: the round trips.
-/

namespace Citadel.Net

open Citadel.Lib.Byte Citadel.Lib.Positional Nat Option
open List hiding Vector

/-! ## Numbers -/

theorem hexVal_digitChar {d : ℕ} (hd : d < 16) : hexVal (d.digitChar.toNat.toUInt8) = d := by
  interval_cases d <;> decide

/-- A digit as `%u` and `%x` print it: in lower case. -/
def isLowerHex (c : UInt8) : Bool := (48 ≤ c ∧ c ≤ 57) ∨ (97 ≤ c ∧ c ≤ 102)

theorem isLowerHex_digitChar {d : ℕ} (hd : d < 16) :
    isLowerHex (d.digitChar.toNat.toUInt8) = true := by
  interval_cases d <;> decide

theorem numText_of_lt {b n : ℕ} (h : n < b) : numText b n = [n.digitChar.toNat.toUInt8] := by
  rw [numText, toDigits_of_lt_base h]
  rfl

theorem numText_of_le {b n : ℕ} (hb : 1 < b) (h : b ≤ n) :
    numText b n = numText b (n / b) ++ [(n % b).digitChar.toNat.toUInt8] := by
  rw [numText, toDigits_of_base_le hb h, map_append]
  rfl

section
variable {b : ℕ} (hb : 1 < b) (hb' : b ≤ 16)
include hb hb'

/-- The facts about the text of a number: it denotes the number, its digits are printed in lower
case, and the only text that begins with a zero is that of zero. -/
theorem numText_facts (n : ℕ) : numText b n ≠ [] ∧ valueOf b (numText b n) = n ∧
    (∀ c ∈ numText b n, hexVal c < b ∧ isLowerHex c = true) ∧
      ((numText b n).head? = some 48 → n = 0) := by
  induction n using Nat.strong_induction_on with
  | _ n ih =>
    by_cases hn : n < b
    · have h16 : n < 16 := by omega
      have hval := hexVal_digitChar h16
      rw [numText_of_lt hn]
      refine ⟨by simp, by simp [valueOf, horner, hval], ?_, ?_⟩
      · intro c hc
        rw [mem_singleton.mp hc, hval]
        exact ⟨hn, isLowerHex_digitChar h16⟩
      · intro h
        have : n.digitChar.toNat.toUInt8 = 48 := by simpa using h
        rw [← hval, this]
        decide
    · have hle : b ≤ n := not_lt.mp hn
      obtain ⟨h1, h2, h3, h4⟩ := ih (n / b) (div_lt_self (by omega) hb)
      have hmod : n % b < b := mod_lt _ (by omega)
      have hval := hexVal_digitChar (show n % b < 16 by omega)
      rw [numText_of_le hb hle]
      refine ⟨by simp, ?_, ?_, ?_⟩
      · rw [valueOf_append, h2]
        simp only [map_cons, map_nil, foldl_cons, foldl_nil, hval]
        rw [mul_comm]
        exact div_add_mod n b
      · intro c hc
        rcases mem_append.mp hc with hc | hc
        · exact h3 c hc
        · rw [mem_singleton.mp hc, hval]
          exact ⟨hmod, isLowerHex_digitChar (by omega)⟩
      · intro h
        rw [List.head?_append_of_ne_nil _ h1] at h
        have := h4 h
        have hpos : 0 < n / b := div_pos hle (by omega)
        omega

end

theorem length_numText (b n : ℕ) : (numText b n).length = (toDigits b n).length := by
  simp [numText]

theorem numText_octet (v : UInt8) : IsOctet (numText 10 v.toNat) v.toNat := by
  have hv := v.toNat_lt
  obtain ⟨h1, h2, h3, h4⟩ := numText_facts (b := 10) (by decide) (by decide) v.toNat
  refine ⟨h1, ?_, fun c hc => isDigit_of_hexVal (h3 c hc).1, fun h => ?_, h2.symm, by omega⟩
  · rw [length_numText]
    exact (length_toDigits_le_iff (by decide) (by decide)).mpr (by omega)
  · rw [h4 h]
    rfl

theorem numText_group {v : ℕ} (hv : v < 65536) : IsGroup (numText 16 v) v := by
  obtain ⟨h1, h2, h3, -⟩ := numText_facts (b := 16) (by decide) (by decide) v
  refine ⟨h1, ?_, fun c hc => (h3 c hc).1, h2.symm⟩
  rw [length_numText]
  exact (length_toDigits_le_iff (by decide) (by decide)).mpr (by omega)

/-! ## Dotted quads -/

theorem quadText_quad (a b c d : UInt8) :
    IsQuad (quadText a b c d) [a.toNat, b.toNat, c.toNat, d.toNat] :=
  ⟨.cons (numText_octet a) (.cons (numText_octet b) (.cons (numText_octet c)
    (.last (numText_octet d)))), rfl⟩

/-! ## Runs of zero groups -/

/-- The `l` groups from `k` on are zero. -/
def IsRun (g : List ℕ) (k l : ℕ) : Prop :=
  k + l ≤ g.length ∧ ∀ j, k ≤ j → j < k + l → g.getD j 0 = 0

/-- The first of the longest runs, of at least two groups. -/
def FirstLongest (g : List ℕ) (k l : ℕ) : Prop :=
  2 ≤ l ∧ IsRun g k l ∧ ∀ k' l', IsRun g k' l' → l' < l ∨ l' = l ∧ k ≤ k'

/-- The scan has looked at the groups before `i`: no run reaches over `i`, and among the runs before
`i` the first longest of at least two groups is `best`, if there is one. -/
structure Scanned (g : List ℕ) (i : ℕ) (best : Option ℕ) (blen : ℕ) : Prop where
  bound : i ≤ g.length
  cut : ∀ k l, IsRun g k l → k < i → k + l ≤ i
  found : ∀ b, best = some b → 2 ≤ blen ∧ IsRun g b blen ∧ b + blen ≤ i
  missing : best = none → blen = 1
  longest : ∀ k l, IsRun g k l → k + l ≤ i → l ≤ blen ∧ ∀ b, best = some b → l = blen → b ≤ k

theorem Scanned.start (g : List ℕ) : Scanned g 0 none 1 :=
  ⟨zero_le _, fun k l _ h => absurd h (not_lt_zero k), fun b h => (by cases h), fun _ => rfl,
    fun k l _ h => ⟨by omega, fun b h => (by cases h)⟩⟩

variable {g : List ℕ} {blen : ℕ} {best : Option ℕ} {a : List UInt8}

theorem Scanned.next {i : ℕ} (hs : Scanned g i best blen)
    (hi : i < g.length) (hg : g.getD i 0 ≠ 0) : Scanned g (i + 1) best blen := by
  have apart : ∀ k l, IsRun g k l → k ≤ i → k + l ≤ i := by
    intro k l hr hk
    by_contra hlt
    exact hg (hr.2 i hk (by omega))
  refine ⟨hi, fun k l hr hk => ?_, fun b hb => ?_, hs.missing, fun k l hr hl => ?_⟩
  · have := apart k l hr (by omega)
    omega
  · obtain ⟨h1, h2, h3⟩ := hs.found b hb
    exact ⟨h1, h2, by omega⟩
  · by_cases hk : k ≤ i
    · exact hs.longest k l hr (apart k l hr hk)
    · -- the empty run at `i + 1`
      obtain rfl : l = 0 := by omega
      refine ⟨zero_le _, fun b hb hl0 => ?_⟩
      have := (hs.found b hb).1
      omega

theorem Scanned.run {i j : ℕ} (hs : Scanned g i best blen)
    (hr : IsRun g i (j - i)) (hij : i < j) (hj : j < g.length → g.getD j 0 ≠ 0) :
    if j - i > blen then Scanned g j (some i) (j - i) else Scanned g j best blen := by
  have hjl : j ≤ g.length := by
    have := hr.1
    omega
  have cut : ∀ k l, IsRun g k l → k < j → k + l ≤ j := by
    intro k l hkl hk
    by_contra hlt
    have hlen := hkl.1
    exact hj (by omega) (hkl.2 j (by omega) (by omega))
  -- a run that ends before `j` ends before `i`, or begins at `i` or later
  have inside : ∀ k l, IsRun g k l → k + l ≤ j → k + l ≤ i ∨ i ≤ k := by
    intro k l hkl _
    by_cases hk : k < i
    · exact .inl (hs.cut k l hkl hk)
    · exact .inr (not_lt.mp hk)
  have hblen : 1 ≤ blen := by
    cases hb : best with
    | none => rw [hs.missing hb]
    | some b => have := (hs.found b hb).1; omega
  split_ifs with hlong
  · refine ⟨hjl, cut, fun b hb => ?_, fun h => (by cases h), fun k l hkl hl => ?_⟩
    · obtain rfl := some.inj hb
      exact ⟨by omega, hr, by omega⟩
    · rcases inside k l hkl hl with h | h
      · have := (hs.longest k l hkl h).1
        exact ⟨by omega, fun b hb e => by omega⟩
      · refine ⟨by omega, fun b hb e => ?_⟩
        obtain rfl := some.inj hb
        exact h
  · refine ⟨hjl, cut, fun b hb => ?_, hs.missing, fun k l hkl hl => ?_⟩
    · obtain ⟨h1, h2, h3⟩ := hs.found b hb
      exact ⟨h1, h2, by omega⟩
    · rcases inside k l hkl hl with h | h
      · exact hs.longest k l hkl h
      · refine ⟨by omega, fun b hb _ => ?_⟩
        have := (hs.found b hb).2.2
        omega

theorem takeWhile_zero : ∀ l : List ℕ, (l.takeWhile (· = 0)).length ≤ l.length ∧
    (∀ j < (l.takeWhile (· = 0)).length, l.getD j 0 = 0) ∧
      ((l.takeWhile (· = 0)).length < l.length → l.getD (l.takeWhile (· = 0)).length 0 ≠ 0)
  | [] => by simp
  | v :: l => by
    by_cases hv : v = 0
    · obtain ⟨h1, h2, h3⟩ := takeWhile_zero l
      rw [takeWhile_cons_of_pos (by simpa using hv), length_cons, length_cons]
      refine ⟨by omega, fun j hj => ?_, fun h => h3 (by omega)⟩
      cases j with
      | zero => simpa using hv
      | succ j => exact h2 j (by omega)
    · rw [takeWhile_cons_of_neg (by simpa using hv)]
      exact ⟨zero_le _, fun j hj => absurd hj (not_lt_zero j), fun _ => by simpa using hv⟩

theorem findRun_scanned (hg : g.length = 8) : ∀ (fuel i : ℕ) (best : Option ℕ) (blen : ℕ),
    Scanned g i best blen → 8 ≤ i + fuel →
      Scanned g 8 (findRun g fuel i best blen).1 (findRun g fuel i best blen).2
  | 0, i, best, blen, hs, hf => by
    obtain rfl : i = 8 := by have := hs.bound; omega
    exact hs
  | fuel + 1, i, best, blen, hs, hf => by
    unfold findRun
    by_cases h8 : 8 ≤ i
    · obtain rfl : i = 8 := by have := hs.bound; omega
      rw [if_pos h8]
      exact hs
    rw [if_neg h8]
    by_cases hz : g.getD i 0 ≠ 0
    · rw [if_pos hz]
      exact findRun_scanned hg fuel (i + 1) best blen (hs.next (by omega) hz) (by omega)
    rw [if_neg hz]
    rw [not_not] at hz
    obtain ⟨h1, h2, h3⟩ := takeWhile_zero (g.drop i)
    rw [length_drop] at h1 h3
    simp only [getD_eq_getElem?_getD, List.getElem?_drop] at h2 h3
    simp only [← getD_eq_getElem?_getD] at h2 h3
    generalize hm : ((g.drop i).takeWhile (· = 0)).length = m at h1 h2 h3
    have hpos : 0 < m := by
      rcases Nat.eq_zero_or_pos m with h0 | h0
      · rw [h0] at h3
        exact absurd hz (h3 (by omega))
      · exact h0
    have hrun :=
      hs.run (j := i + m) ⟨by omega, fun j hj hj' => ?_⟩ (by omega) (fun h => h3 (by omega))
    · dsimp only
      split_ifs at hrun ⊢ with hlong
      · exact findRun_scanned hg fuel _ _ _ hrun (by omega)
      · exact findRun_scanned hg fuel _ _ _ hrun (by omega)
    · have := h2 (j - i) (by omega)
      rwa [show i + (j - i) = j by omega] at this

/-- **The scan for zero groups.** It finds the first of the longest runs of at least two zero
groups, or there is no such run. -/
theorem findRun_spec (hg : g.length = 8) :
    (∃ k, (findRun g 8 0 none 1).1 = some k ∧ FirstLongest g k (findRun g 8 0 none 1).2) ∨
      ((findRun g 8 0 none 1).1 = none ∧ ∀ k l, IsRun g k l → l ≤ 1) := by
  have hs := findRun_scanned hg 8 0 none 1 (.start g) (by omega)
  have hle : ∀ k l, IsRun g k l → k + l ≤ 8 := fun k l hr => by have := hr.1; omega
  cases hb : (findRun g 8 0 none 1).1 with
  | none =>
    refine .inr ⟨rfl, fun k l hr => ?_⟩
    rw [← hs.missing hb]
    exact (hs.longest k l hr (hle k l hr)).1
  | some k =>
    obtain ⟨h1, h2, -⟩ := hs.found k hb
    refine .inl ⟨k, rfl, h1, h2, fun k' l' hr => ?_⟩
    obtain ⟨h3, h4⟩ := hs.longest k' l' hr (hle k' l' hr)
    rcases lt_or_eq_of_le h3 with h | h
    · exact .inl h
    · exact .inr ⟨h, h4 k hb h⟩

/-! ## Printing the groups -/

def sepText : List ℕ → List UInt8
  | [] => []
  | [v] => numText 16 v
  | v :: w :: vs => numText 16 v ++ colon :: sepText (w :: vs)

def leftText (g : List ℕ) : List UInt8 := g.flatMap fun v => numText 16 v ++ [colon]

/-- The canonical text of eight groups: `::` stands for the first of the longest runs of at least
two zero groups, if there is one. -/
def Canonical (g : List ℕ) (t : List UInt8) : Prop :=
  (∃ k l, FirstLongest g k l ∧
    t = (if k = 0 then [colon] else leftText (g.take k)) ++ colon :: sepText (g.drop (k + l))) ∨
  (∀ k l, IsRun g k l → l ≤ 1) ∧ t = sepText g

theorem sepText_cons (v : ℕ) {vs : List ℕ} (h : vs ≠ []) :
    sepText (v :: vs) = numText 16 v ++ colon :: sepText vs := by
  obtain ⟨w, vs, rfl⟩ := exists_cons_of_ne_nil h
  rfl

theorem printGroups_sep (hg : g.length = 8) (blen : ℕ) :
    ∀ (fuel i : ℕ), 8 ≤ i + fuel → (∀ b, best = some b → b < i) →
      printGroups g best blen fuel i = sepText (g.drop i)
  | 0, i, hf, _ => by
    rw [drop_of_length_le (by omega)]
    rfl
  | fuel + 1, i, hf, hb => by
    unfold printGroups
    by_cases h8 : 8 ≤ i
    · rw [if_pos h8, drop_of_length_le (by omega)]
      rfl
    rw [if_neg h8, if_neg (fun e => absurd (hb i e) (lt_irrefl i)),
      printGroups_sep hg blen fuel (i + 1) (by omega) (fun b e => (hb b e).trans (lt_succ_self i)),
      drop_eq_getElem_cons (show i < g.length by omega), getD_eq_getElem _ _ (by omega)]
    by_cases h7 : i < 7
    · rw [if_pos h7, sepText_cons _ (by simp; omega)]
      rfl
    · rw [if_neg h7, drop_of_length_le (show g.length ≤ i + 1 by omega)]
      simp [sepText]

theorem printGroups_left (hg : g.length = 8) {k : ℕ} (hk : k < 7) :
    ∀ (fuel i : ℕ), i ≤ k → k - i ≤ fuel → printGroups g (some k) blen fuel i =
      leftText ((g.drop i).take (k - i)) ++ printGroups g (some k) blen (fuel - (k - i)) k
  | fuel, i, hi, hf => by
    by_cases hik : i = k
    · subst hik
      simp [leftText]
    obtain ⟨fuel, rfl⟩ := Nat.exists_eq_add_of_le' (show 1 ≤ fuel by omega)
    have hne : ¬ some k = some i := fun e => hik (some.inj e).symm
    have hstep : k - i = (k - (i + 1)) + 1 := by omega
    rw [printGroups, if_neg (by omega), if_neg hne, if_pos (by omega),
      printGroups_left hg hk fuel (i + 1) (by omega) (by omega),
      drop_eq_getElem_cons (show i < g.length by omega), getD_eq_getElem _ _ (by omega),
      hstep, take_succ_cons, Nat.add_sub_add_right]
    simp [leftText]
  termination_by _ i _ _ => k - i

theorem printGroups_canonical (hg : g.length = 8) :
    Canonical g (printGroups g (findRun g 8 0 none 1).1 (findRun g 8 0 none 1).2 8 0) := by
  rcases findRun_spec hg with ⟨k, hk, hrun⟩ | ⟨hk, hno⟩
  · left
    generalize (findRun g 8 0 none 1).2 = l at hrun
    rw [hk]
    have hl := hrun.1
    have hlen := hrun.2.1.1
    refine ⟨k, l, hrun, ?_⟩
    rw [printGroups_left hg (by omega) 8 0 (Nat.zero_le k) (by omega), Nat.sub_zero, drop_zero]
    obtain ⟨fuel, hfuel⟩ := Nat.exists_eq_add_of_le' (show 1 ≤ 8 - k by omega)
    rw [hfuel, printGroups, if_neg (by omega), if_pos rfl,
      printGroups_sep hg l fuel (k + l) (by omega)
        (fun b e => by obtain rfl := some.inj e; omega)]
    by_cases h0 : k = 0
    · rw [if_pos h0, if_pos h0, h0]
      simp [leftText]
    · rw [if_neg h0, if_neg h0]
      simp
  · right
    refine ⟨hno, ?_⟩
    rw [hk, printGroups_sep hg _ 8 0 (by omega) (fun b e => by cases e), drop_zero]

/-! ## The text is an address -/

theorem leftText_seq : ∀ {g : List ℕ}, (∀ v ∈ g, v < 65536) → LeftSeq (leftText g) g
  | [], _ => .nil
  | v :: g, h => by
    have ih := leftText_seq (g := g) fun w hw => h w (by simp [hw])
    have : leftText (v :: g) = numText 16 v ++ colon :: leftText g := by simp [leftText]
    rw [this]
    exact .cons (numText_group (h v (by simp))) ih

theorem sepText_seq : ∀ {g : List ℕ}, (∀ v ∈ g, v < 65536) → RightSeq (sepText g) g
  | [], _ => .inl ⟨rfl, rfl⟩
  | [v], h => .inr (.group (numText_group (h v (by simp))))
  | v :: w :: g, h => by
    right
    rcases sepText_seq (g := w :: g) (fun u hu => h u (by simp [hu])) with ⟨-, e⟩ | ih
    · cases e
    · exact .cons (numText_group (h v (by simp))) ih

theorem eq_of_isRun {k l : ℕ} (h : IsRun g k l) :
    g.take k ++ List.replicate l 0 ++ g.drop (k + l) = g := by
  have hmid : (g.drop k).take l = List.replicate l 0 := by
    refine ext_getElem (by have := h.1; simp; omega) fun j hj hj' => ?_
    rw [length_replicate] at hj'
    have hz := h.2 (k + j) (by omega) (by omega)
    rw [getD_eq_getElem _ _ (by have := h.1; omega)] at hz
    simpa using hz
  rw [← hmid, append_assoc, ← drop_drop, take_append_drop, take_append_drop]

theorem Canonical.ipv6 {t : List UInt8} (hg : g.length = 8) (hv : ∀ v ∈ g, v < 65536)
    (h : Canonical g t) : IsIpv6 t g := by
  rcases h with ⟨k, l, hrun, rfl⟩ | ⟨-, rfl⟩
  · have hl := hrun.1
    have hlen := hrun.2.1.1
    have hleft := leftText_seq (g := g.take k) fun v hm => hv v (mem_of_mem_take hm)
    have hright := sepText_seq (g := g.drop (k + l)) fun v hm => hv v (mem_of_mem_drop hm)
    have hk : (g.take k).length = k := by simp; omega
    have hr : (g.drop (k + l)).length = 8 - (k + l) := by simp [hg]
    have := IsIpv6.gap hleft hright (by omega)
    rw [hk, hr, show 8 - (k + (8 - (k + l))) = l by omega, eq_of_isRun hrun.2.1] at this
    have hnil : g.take k = [] ↔ k = 0 := by
      rw [← length_eq_zero_iff, hk]
    simpa only [hnil] using this
  · rcases sepText_seq hv with ⟨-, rfl⟩ | h
    · simp at hg
    · exact .full h hg

/-! ## Bytes and groups -/

theorem group_eq (a b : UInt8) : a.toNat <<< 8 ||| b.toNat = a.toNat * 256 + b.toNat := by
  have hb := b.toNat_lt
  rw [shiftLeft_eq, mul_comm, ← two_pow_add_eq_or_of_lt (by omega), mul_comm]

theorem toUInt8_toNat (b : UInt8) : b.toNat.toUInt8 = b := by simp

theorem group_bytes (a b : UInt8) :
    [((a.toNat <<< 8 ||| b.toNat) >>> 8).toUInt8, (a.toNat <<< 8 ||| b.toNat).toUInt8] =
      [a, b] := by
  have hb := b.toNat_lt
  have h1 : (a.toNat * 256 + b.toNat) / 2 ^ 8 = a.toNat := by omega
  have h2 : (a.toNat * 256 + b.toNat).toUInt8 = b := by
    apply UInt8.toNat.inj
    simp
  rw [group_eq, shiftRight_eq_div_pow, h1, h2, toUInt8_toNat]

theorem groupsOf_facts : ∀ (n : ℕ) (a : List UInt8), a.length = 2 * n → (groupsOf a).length = n ∧
    (∀ v ∈ groupsOf a, v < 65536) ∧ groupBytes (groupsOf a) = a
  | 0, a, h => by
    obtain rfl := eq_nil_of_length_eq_zero h
    simp [groupsOf, groupBytes]
  | n + 1, a, h => by
    rcases a with _ | ⟨x, _ | ⟨y, a⟩⟩
    · cases h
    · simp at h
      omega
    · obtain ⟨h1, h2, h3⟩ := groupsOf_facts n a (by simp at h; omega)
      refine ⟨by simp [groupsOf, h1], ?_, ?_⟩
      · intro v hv
        rcases mem_cons.mp hv with rfl | hv
        · have hx := x.toNat_lt
          have hy := y.toNat_lt
          rw [group_eq]
          omega
        · exact h2 v hv
      · rw [groupsOf, groupBytes, flatMap_cons, group_bytes, ← groupBytes, h3]
        rfl

/-! ## IPv6 -/

theorem text6_quad (ha : a.length = 16) (hq : hasQuad (groupsOf a) = true) :
    IsIpv6 (text6 a) (groupsOf a) := by
  match a, ha with
  | [a0, a1, a2, a3, a4, a5, a6, a7, a8, a9, a10, a11, a12, a13, a14, a15], _ =>
    have hffff : IsGroup [102, 102, 102, 102] 0xffff :=
      ⟨by decide, by decide, fun c hc => by rw [eq_of_mem_replicate (n := 4) hc]; decide, by decide⟩
    have hquad := GroupSeq.quad (quadText_quad a12 a13 a14 a15)
    unfold text6
    rw [if_pos hq]
    simp only [hasQuad, groupsOf, group_eq, take_succ_cons, take_zero, List.cons.injEq,
      and_true, getD_cons_succ, getD_cons_zero, decide_eq_true_eq] at hq ⊢
    obtain ⟨⟨h0, h1, h2, h3, h4⟩, h5⟩ := hq
    simp only [h0, h1, h2, h3, h4]
    rcases h5 with h5 | ⟨h5, -⟩
    · have := IsIpv6.gap .nil (.inr (.cons hffff hquad)) (by simp)
      simpa [h5] using this
    · have := IsIpv6.gap .nil (.inr hquad) (by simp)
      simpa [h5] using this

theorem text6_canonical (ha : a.length = 16) (hq : hasQuad (groupsOf a) = false) :
    Canonical (groupsOf a) (text6 a) := by
  have h := printGroups_canonical (groupsOf_facts 8 a ha).1
  unfold text6
  rw [if_neg (by simp [hq])]
  exact h

theorem text6_ipv6 (ha : a.length = 16) : IsIpv6 (text6 a) (groupsOf a) := by
  obtain ⟨h1, h2, -⟩ := groupsOf_facts 8 a ha
  cases hq : hasQuad (groupsOf a) with
  | true => exact text6_quad ha hq
  | false => exact (text6_canonical ha hq).ipv6 h1 h2

theorem IsIpv6.length_lt {s : List UInt8} (h : IsIpv6 s g) : s.length < INET6_ADDRSTRLEN := by
  unfold INET6_ADDRSTRLEN
  cases h with
  | full h hlen =>
    have := h.length_bounds.2
    omega
  | gap hl hr hlen =>
    have h1 := hl.length_bounds.2
    rcases hr with ⟨rfl, -⟩ | hr
    · split_ifs <;> simp
      omega
    · have h2 := hr.length_bounds.2
      split_ifs <;> simp <;> omega

/-! ## The round trips -/

theorem ntop_pton6 (ha : a.length = 16) :
    inetNtop .inet6 a INET6_ADDRSTRLEN = .ok (text6 a) ∧
      inetPton .inet6 (text6 a) = (1, some a) := by
  have hp : pton6 (text6 a) = some a := by
    rw [pton6, pton6Groups_eq_some_iff.mpr (text6_ipv6 ha), map_some,
      (groupsOf_facts 8 a ha).2.2]
  refine ⟨?_, ?_⟩
  · simp only [inetNtop]
    rw [if_neg (not_le.mpr (text6_ipv6 ha).length_lt)]
  · simp only [inetPton, hp]

theorem ntop_pton4 (a b c d : UInt8) :
    inetNtop .inet [a, b, c, d] INET_ADDRSTRLEN = .ok (quadText a b c d) ∧
      inetPton .inet (quadText a b c d) = (1, some [a, b, c, d]) := by
  have hlen := (quadText_quad a b c d).1.length_bounds.2
  have hp : pton4 (quadText a b c d) = some ([a.toNat, b.toNat, c.toNat, d.toNat], []) :=
    pton4_eq_some_iff.mpr ⟨_, by simp, quadText_quad a b c d, rfl⟩
  refine ⟨?_, ?_⟩
  · simp only [inetNtop, getD_cons_zero, getD_cons_succ]
    exact if_neg (not_le.mpr hlen)
  · simp only [inetPton, hp, map_cons, map_nil, toUInt8_toNat]

/-- A group as the canonical form has it: lower case, no leading zeros. -/
def IsShortestHex (t : List UInt8) (v : ℕ) : Prop :=
  IsGroup t v ∧ (∀ c ∈ t, isLowerHex c = true) ∧ (t.head? = some 48 → t = [48])

theorem numText_shortest {v : ℕ} (hv : v < 65536) : IsShortestHex (numText 16 v) v := by
  obtain ⟨-, -, h3, h4⟩ := numText_facts (b := 16) (by decide) (by decide) v
  refine ⟨numText_group hv, fun c hc => (h3 c hc).2, fun h => ?_⟩
  rw [h4 h]
  rfl

/-- **Addresses and their texts.** Every address has a text that fits the buffer size for its
family and is read back as the address, so different addresses have different texts. The text of an
IPv6 address without an embedded IPv4 address is canonical. -/
theorem inet_ntop_pton :
    (∀ a : Vector UInt8 16, ∃ t, inetNtop .inet6 a.toList INET6_ADDRSTRLEN = .ok t ∧
      inetPton .inet6 t = (1, some a.toList) ∧
      (hasQuad (groupsOf a.toList) = false → Canonical (groupsOf a.toList) t ∧
        ∀ v ∈ groupsOf a.toList, IsShortestHex (numText 16 v) v)) ∧
    (∀ a b : Vector UInt8 16, inetNtop .inet6 a.toList INET6_ADDRSTRLEN =
      inetNtop .inet6 b.toList INET6_ADDRSTRLEN → a = b) ∧
    (∀ a : Vector UInt8 4, ∃ t, inetNtop .inet a.toList INET_ADDRSTRLEN = .ok t ∧
      inetPton .inet t = (1, some a.toList) ∧ IsQuad t (a.toList.map UInt8.toNat)) ∧
    (∀ a b : Vector UInt8 4, inetNtop .inet a.toList INET_ADDRSTRLEN =
      inetNtop .inet b.toList INET_ADDRSTRLEN → a = b) := by
  have h6 : ∀ a : Vector UInt8 16, a.toList.length = 16 := fun a => a.length_toList
  have h4 : ∀ a : Vector UInt8 4, ∃ p q r s, a.toList = [p, q, r, s] := by
    intro a
    match h : a.toList, a.length_toList with
    | [p, q, r, s], _ => exact ⟨p, q, r, s, rfl⟩
  refine ⟨fun a => ?_, fun a b h => ?_, fun a => ?_, fun a b h => ?_⟩
  · obtain ⟨h1, h2⟩ := ntop_pton6 (h6 a)
    refine ⟨_, h1, h2, fun hq => ⟨text6_canonical (h6 a) hq, fun v hv => ?_⟩⟩
    exact numText_shortest ((groupsOf_facts 8 _ (h6 a)).2.1 v hv)
  · obtain ⟨ha, ha'⟩ := ntop_pton6 (h6 a)
    obtain ⟨hb, hb'⟩ := ntop_pton6 (h6 b)
    rw [ha, hb, Except.ok.injEq] at h
    rw [h, hb', Prod.mk.injEq, some.injEq] at ha'
    exact Vector.toList_inj.mp ha'.2.symm
  · obtain ⟨p, q, r, s, e⟩ := h4 a
    obtain ⟨h1, h2⟩ := ntop_pton4 p q r s
    rw [e]
    exact ⟨_, h1, h2, quadText_quad p q r s⟩
  · obtain ⟨p, q, r, s, ea⟩ := h4 a
    obtain ⟨p', q', r', s', eb⟩ := h4 b
    obtain ⟨ha, ha'⟩ := ntop_pton4 p q r s
    obtain ⟨hb, hb'⟩ := ntop_pton4 p' q' r' s'
    rw [ea, eb, ha, hb, Except.ok.injEq] at h
    rw [h, hb', Prod.mk.injEq, some.injEq] at ha'
    refine Vector.toList_inj.mp ?_
    rw [ea, eb, ha'.2]

end Citadel.Net
