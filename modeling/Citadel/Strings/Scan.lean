import Citadel.Lib.Lanes
import Mathlib.Data.Nat.Bitwise
import Mathlib.Data.UInt

/-!
# Scanning memory a word at a time

`memchr`, `strlen` and `strchrnul` of `src/string.c`: bytes up to an aligned address, words of eight
bytes up to one that holds a byte sought, bytes again. Memory is a function from addresses to bytes.

* `hasZero_load`: the test of a word answers for its eight bytes.
* `search_spec`: the three loops together stop where a loop over bytes does.
* `scan_first`: the functions find the first byte sought.
-/

namespace Citadel.Strings

open Citadel.Lib List Nat

def ONES : UInt64 := (0 - 1) / 255

def HIGHS : UInt64 := ONES * (255 / 2 + 1)

def HASZERO (x : UInt64) : UInt64 := (x - ONES) &&& ~~~x &&& HIGHS

/-- The loop `for (; !stop(s); s += step)`. -/
def scan (stop : ℕ → Bool) (step : ℕ) : ℕ → ℕ → Option ℕ
  | 0, _ => none
  | fuel + 1, s => if stop s then some s else scan stop step fuel (s + step)

/-- The loops over bytes, over words unless `done`, and over bytes again. Where `strlen` returns out
of the first loop, the last one stops at once. -/
def search (stop done word : ℕ → Bool) (fuel s : ℕ) : Option ℕ := do
  let s ← scan (fun s => s % 8 = 0 || stop s) 1 fuel s
  let w ← if done s then some s else scan word 8 fuel s
  scan stop 1 fuel w

section Functions

variable (m : ℕ → UInt8)

/-- The bytes of the word at `p`, the first one lowest. -/
def wordBytes (p : ℕ) : List ℕ := (range 8).map fun i => (m (p + i)).toNat

def load (p : ℕ) : UInt64 := UInt64.ofNat (ofDigits 256 (wordBytes m p))

/-- The `n` bytes left end at `src + n`. -/
def memchr (src : ℕ) (c : UInt8) (n : ℕ) : Option ℕ := do
  let stop s : Bool := s = src + n || m s = c
  let s ← search stop stop
    (fun w => src + n < w + 8 || HASZERO (load m w ^^^ ONES * c.toUInt64) ≠ 0) (n + 1) src
  if s ≠ src + n then some s else none

def strlen (fuel a : ℕ) : Option ℕ :=
  (search (fun s => m s = 0) (fun s => s % 8 ≠ 0) (fun w => HASZERO (load m w) ≠ 0) fuel a).map
    (· - a)

def strchrnul (fuel s : ℕ) (c : UInt8) : Option ℕ :=
  if c = 0 then (strlen m fuel s).map (s + ·)
  else
    search (fun s => m s = 0 || m s = c) (fun s => s % 8 ≠ 0)
      (fun w => HASZERO (load m w) ≠ 0 || HASZERO (load m w ^^^ ONES * c.toUInt64) ≠ 0) fuel s

/-- `p` is the first address from `s` on whose byte satisfies `P`. -/
def First (P : UInt8 → Prop) (s p : ℕ) : Prop := s ≤ p ∧ P (m p) ∧ ∀ q, s ≤ q → q < p → ¬ P (m q)

end Functions

variable {m : ℕ → UInt8} {c : UInt8} {stop done word : ℕ → Bool} {n p s fuel : ℕ}

/-! ## One word -/

theorem toNat_hasZero (x : UInt64) : (HASZERO x).toNat = Lanes.hasZero 8 x.toNat := by
  unfold HASZERO
  rw [UInt64.toNat_and, UInt64.toNat_and, UInt64.toNat_sub, UInt64.toNat_not]
  rfl

/-- **The test of a word.** -/
theorem hasZero_load (m : ℕ → UInt8) (p : ℕ) (c : UInt8) :
    HASZERO (load m p ^^^ ONES * c.toUInt64) ≠ 0 ↔ ∃ i < 8, m (p + i) = c := by
  have hlt : ∀ d ∈ wordBytes m p, d < 256 := by
    intro d hd
    obtain ⟨i, -, rfl⟩ := mem_map.mp hd
    exact (m (p + i)).toNat_lt
  have hmap : ∀ d ∈ (wordBytes m p).map (· ^^^ c.toNat), d < 256 := by
    intro d hd
    obtain ⟨e, he, rfl⟩ := mem_map.mp hd
    exact xor_lt_two_pow (n := 8) (hlt e he) c.toNat_lt
  have hlen : (wordBytes m p).length = 8 := by simp [wordBytes]
  have hload : (load m p).toNat = ofDigits 256 (wordBytes m p) := by
    have := ofDigits_lt_base_pow_length (b := 256) (by norm_num) hlt
    rw [hlen] at this
    exact UInt64.toNat_ofNat_of_lt' this
  have hk : (ONES * c.toUInt64).toNat = Lanes.ones 8 * c.toNat := by
    have hc := c.toNat_lt
    rw [UInt64.toNat_mul, UInt8.toNat_toUInt64, show ONES.toNat = Lanes.ones 8 from rfl,
      show Lanes.ones 8 = 72340172838076673 from rfl, mod_eq_of_lt]
    omega
  have hzero := Lanes.hasZero_ofDigits hmap
  rw [length_map, ← Lanes.xor_ofDigits c.toNat_lt hlt, hlen, ← hload, ← hk, ← UInt64.toNat_xor,
    ← toNat_hasZero] at hzero
  rw [ne_eq, ← UInt64.toNat_inj]
  refine hzero.trans ?_
  simp [wordBytes, UInt8.toNat_inj]

/-! ## The loops -/

theorem scan_eq (step j : ℕ) (hstop : stop (s + step * j) = true)
    (hgo : ∀ i < j, stop (s + step * i) = false) (hf : j < fuel) :
    scan stop step fuel s = some (s + step * j) := by
  induction fuel generalizing s j with
  | zero => omega
  | succ fuel ih =>
    rw [scan]
    cases j with
    | zero => exact if_pos hstop
    | succ j =>
      have hshift : ∀ i, s + step + step * i = s + step * (i + 1) := fun i => by ring
      have h0 : stop s = false := hgo 0 (by omega)
      rw [h0, if_neg Bool.false_ne_true, ih j (by rwa [hshift])
        (fun i hi => by rw [hshift]; exact hgo (i + 1) (by omega)) (by omega), hshift]

/-- **The three loops stop where a loop over bytes does**, with the fuel that it needs. -/
theorem search_spec (hp : s ≤ p) (hstop : stop p = true) (hgo : ∀ q, s ≤ q → q < p → stop q = false)
    (hword : ∀ w ≤ p, word w = true ↔ ∃ i < 8, stop (w + i) = true) (hf : p - s < fuel) :
    search stop done word fuel s = some p := by
  have hlast : ∀ q, s ≤ q → q ≤ p → scan stop 1 fuel q = some p := by
    intro q h1 h2
    obtain ⟨j, rfl⟩ := Nat.exists_eq_add_of_le h2
    rw [scan_eq 1 j (by rwa [Nat.one_mul]) (fun i hi => hgo _ (by omega) (by omega)) (by omega),
      Nat.one_mul]
  -- the first loop stops at `p` or at the next aligned address
  obtain ⟨d, hd, hd'⟩ :
      ∃ d, (s + d = p ∨ s + d < p ∧ (s + d) % 8 = 0) ∧ ∀ i < d, (s + i) % 8 ≠ 0 := by
    rcases le_or_gt p (s + (8 - s % 8) % 8) with h | h
    · exact ⟨p - s, .inl (by omega), fun i hi => by omega⟩
    · exact ⟨(8 - s % 8) % 8, .inr (by omega), fun i hi => by omega⟩
  have hhead : (s + d) % 8 = 0 ∨ stop (s + d) = true :=
    hd.elim (fun h => .inr (h ▸ hstop)) fun h => .inl h.2
  unfold search
  rw [scan_eq 1 d (by simpa using hhead) (fun i hi => by
    simp [hd' i hi, hgo (s + i) (by omega) (by omega)]) (by omega)]
  simp only [Option.bind_eq_bind, Option.bind_some, Nat.one_mul]
  split_ifs with hdo
  · exact hlast _ (by omega) (by omega)
  · rw [scan_eq 8 ((p - (s + d)) / 8) ((hword _ (by omega)).mpr ⟨(p - (s + d)) % 8, by omega, by
        rwa [show s + d + 8 * ((p - (s + d)) / 8) + (p - (s + d)) % 8 = p by omega]⟩)
      (fun i hi => by
        rw [← Bool.not_eq_true, hword _ (by omega)]
        rintro ⟨j, hj, hj'⟩
        rw [hgo _ (by omega) (by omega)] at hj'
        exact Bool.noConfusion hj') (by omega)]
    exact hlast _ (by omega) (by omega)

/-- **The first byte sought.** `memchr` finds it among `n` bytes and answers that there is none if
so; `strlen` and `strchrnul` find it in memory that holds one. -/
theorem scan_first (m : ℕ → UInt8) (s : ℕ) (c : UInt8) :
    (∀ n p, First m (· = c) s p → p < s + n → memchr m s c n = some p) ∧
    (∀ n, (∀ q, s ≤ q → q < s + n → m q ≠ c) → memchr m s c n = none) ∧
    (∀ fuel p, First m (· = 0) s p → p - s < fuel → strlen m fuel s = some (p - s)) ∧
    ∀ fuel p, First m (fun b => b = 0 ∨ b = c) s p → p - s < fuel →
      strchrnul m fuel s c = some p := by
  have hmem : ∀ n p, s ≤ p → p ≤ s + n → (p = s + n ∨ m p = c) →
      (∀ q, s ≤ q → q < p → m q ≠ c) → memchr m s c n = if p ≠ s + n then some p else none := by
    intro n p h1 h2 h3 h4
    unfold memchr
    simp only
    rw [search_spec h1 (by simpa using h3)
      (fun q h5 h6 => by simp [h4 q h5 h6, show q ≠ s + n by omega]) (fun w hw => ?_) (by omega)]
    · rfl
    · simp only [Bool.or_eq_true, decide_eq_true_eq, hasZero_load, and_or_left, exists_or]
      refine or_congr_left ⟨fun h => ⟨s + n - w, by omega, by omega⟩, ?_⟩
      rintro ⟨i, hi, h⟩
      omega
  have hzero : ∀ p, HASZERO (load m p) ≠ 0 ↔ ∃ i < 8, m (p + i) = 0 := by
    intro p
    simpa using hasZero_load m p 0
  have hlen : ∀ fuel p, First m (· = 0) s p → p - s < fuel → strlen m fuel s = some (p - s) := by
    rintro fuel p ⟨h1, h2, h3⟩ hf
    unfold strlen
    rw [search_spec h1 (by simpa using h2) (by simpa using h3)
      (fun w _ => by simpa using hzero w) hf]
    rfl
  refine ⟨fun n p h hn => ?_, fun n h => ?_, hlen, fun fuel p h hf => ?_⟩
  · rw [hmem n p h.1 hn.le (.inr h.2.1) h.2.2, if_pos hn.ne]
  · rw [hmem n (s + n) (by omega) le_rfl (.inl rfl) h, if_neg (not_not.mpr rfl)]
  · unfold strchrnul
    split_ifs with hc
    · subst hc
      simp only [or_self] at h
      rw [hlen fuel p h hf, Option.map_some, Nat.add_sub_cancel' h.1]
    · refine search_spec h.1 (by simpa using h.2.1) (fun q h1 h2 => by simpa using h.2.2 q h1 h2)
        (fun w _ => ?_) hf
      simp only [Bool.or_eq_true, decide_eq_true_eq, hzero, hasZero_load, and_or_left, exists_or]

/-- Bytes with the high bit set around the one sought; the string ends at address 20. -/
theorem scan_first_high :
    let m : ℕ → UInt8 := fun p => if p = 20 then 0 else if p = 11 then 0x80 else 0x81
    memchr m 3 0x80 30 = some 11 ∧ memchr m 3 0x82 30 = none ∧ strlen m 18 3 = some 17 ∧
      strchrnul m 18 3 0x80 = some 11 := by
  intro m
  obtain ⟨hfound, -, hlen, hchr⟩ := scan_first m 3 0x80
  obtain ⟨-, hnone, -⟩ := scan_first m 3 0x82
  have hhigh : ∀ q < 11, m q = 0x81 := fun q hq => by simp only [m]; grind
  have hnz : ∀ q < 20, m q ≠ 0 := fun q hq => by simp only [m]; grind
  have hother : ∀ q, m q ≠ 0x82 := fun q => by simp only [m]; grind
  refine ⟨hfound 30 11 ⟨by decide, rfl, fun q _ hq => ?_⟩ (by decide),
    hnone 30 fun q _ _ => hother q, hlen 18 20 ⟨by decide, rfl, fun q _ hq => hnz q hq⟩ (by decide),
    hchr 18 11 ⟨by decide, .inr rfl, fun q _ hq => ?_⟩ (by decide)⟩
  · simp [hhigh q hq]
  · simp [hhigh q hq]

end Citadel.Strings
