import Mathlib.Data.List.Nodup
import Mathlib.Data.List.Range
import Mathlib.Data.Nat.Bitwise
import Mathlib.Data.UInt

/-!
# RELR relocations

The loops of `__self_relocate` (`src/start.c`) and of `relocate` (`src/ldso/dynlink.c`) over a RELR
section. The memory is a function from aligned addresses to words; the entries are read
beforehand.

* `Encodes`: what an encoding of a list of addresses is.
* `relr_exact`: both loops add the base once to the words that are encoded, and to no others.
-/

namespace Citadel.Ldso.Relr

open Function List

/-- `*p += base`. -/
def add (base : UInt64) (m : UInt64 → UInt64) (p : UInt64) : UInt64 → UInt64 :=
  update m p (m p + base)

/-- `for (j = 0; (e >>= 1) != 0; j++) if (e & 1) where[j] += base`, where `p` is `where + j`; an
entry has no more than 63 bits after the first. -/
def bitmap (base : UInt64) : ℕ → UInt64 → ℕ → (UInt64 → UInt64) → UInt64 → UInt64
  | 0, _, _, m => m
  | n + 1, p, e, m =>
    if e / 2 = 0 then m
    else bitmap base n (p + 8) (e / 2) (if (e / 2) % 2 = 1 then add base m p else m)

/-- The loop over the entries, from `where` on. -/
def loop (base : UInt64) : List UInt64 → UInt64 → (UInt64 → UInt64) → UInt64 → UInt64
  | [], _, m => m
  | e :: r, p, m =>
    if e &&& 1 = 0 then loop base r (base + e + 8) (add base m (base + e))
    else loop base r (p + 8 * 63) (bitmap base 63 p e.toNat m)

/-- The part of `__self_relocate`; a section that is absent is none. -/
def selfRelocate (base : UInt64) (relr : Option (List UInt64)) (m : UInt64 → UInt64) :
    UInt64 → UInt64 :=
  relr.elim m fun r => loop base r 0 m

/-- The part of `relocate`. -/
def relocate (base : UInt64) (relr : Option (List UInt64)) (selfDone : Bool) (m : UInt64 → UInt64) :
    UInt64 → UInt64 :=
  if selfDone then m else loop base (relr.getD []) 0 m

/-- The words of a bitmap: bit `j + 1` stands for the word `j` from `p` on. -/
def covered (n : ℕ) (p : UInt64) (e : ℕ) : List UInt64 :=
  ((range n).filter fun j => e.testBit (j + 1)).map fun j => p + 8 * UInt64.ofNat j

/-- The entries stand for the addresses; a bitmap goes on where the entry before it ended. -/
inductive Encodes : Option UInt64 → List UInt64 → List UInt64 → Prop
  | nil {o : Option UInt64} : Encodes o [] []
  | address {o : Option UInt64} {e : UInt64} {r as : List UInt64} (he : e &&& 1 = 0) :
    Encodes (some (e + 8)) r as → Encodes o (e :: r) (e :: as)
  | bitmap {p e : UInt64} {r as : List UInt64} (he : e &&& 1 ≠ 0) :
    Encodes (some (p + 8 * 63)) r as → Encodes (some p) (e :: r) (covered 63 p e.toNat ++ as)

variable {base p x : UInt64} {m : UInt64 → UInt64}
  {as r : List UInt64} {o : Option UInt64} {e n : ℕ}

theorem covered_succ : covered (n + 1) p e =
    (if (e / 2) % 2 = 1 then [p] else []) ++ covered n (p + 8) (e / 2) := by
  have hstep : ∀ j, p + 8 * UInt64.ofNat (j + 1) = p + 8 + 8 * UInt64.ofNat j := by
    intro j
    rw [UInt64.ofNat_add, UInt64.mul_add, add_comm (8 * _), ← add_assoc]
    rfl
  unfold covered
  rw [range_succ_eq_map, filter_cons, filter_map, Nat.testBit_succ, Nat.testBit_zero]
  split_ifs <;> simp_all [comp_def, Nat.testBit_succ]

theorem covered_of_zero (h : e / 2 = 0) : covered n p e = [] := by
  simp [covered, Nat.testBit_succ, h]

theorem bitmap_eq (he : e < 2 ^ (n + 1)) :
    bitmap base n p e m = (covered n p e).foldl (add base) m := by
  induction n generalizing p e m with
  | zero => rfl
  | succ n ih =>
    rw [bitmap]
    split_ifs with h0 h1
    · rw [covered_of_zero h0]
      rfl
    · rw [ih (by omega), covered_succ, if_pos h1]
      rfl
    · rw [ih (by omega), covered_succ, if_neg h1]
      rfl

theorem loop_eq (h : Encodes o r as) (hp : ∀ q ∈ o, p = base + q) :
    loop base r p m = (as.map (base + ·)).foldl (add base) m := by
  induction h generalizing p m with
  | nil => rfl
  | @address o e r as he _ ih =>
    rw [loop, if_pos he, ih fun q hq => by rw [← Option.some.inj hq, add_assoc]]
    rfl
  | @bitmap q e r as he _ ih =>
    have hcov : covered 63 (base + q) e.toNat = (covered 63 q e.toNat).map (base + ·) := by
      simp [covered, add_assoc]
    rw [loop, if_neg he, hp q rfl, ih fun q' hq => by rw [← Option.some.inj hq, add_assoc],
      bitmap_eq e.toNat_lt, hcov, map_append, foldl_append]

theorem foldl_add (h : as.Nodup) :
    as.foldl (add base) m x = if x ∈ as then m x + base else m x := by
  induction as generalizing m with
  | nil => rfl
  | cons a as ih =>
    obtain ⟨ha, h⟩ := nodup_cons.mp h
    rw [foldl_cons, ih h]
    rcases eq_or_ne x a with rfl | hx
    · simp [add, ha]
    · simp [add, hx]

/-- **RELR relocations are applied once each**: to the words at the addresses that are encoded,
moved by the base, and to no others. -/
theorem relr_exact (h : Encodes none r as) (hnd : as.Nodup) (base : UInt64) (m : UInt64 → UInt64)
    (x : UInt64) :
    selfRelocate base (some r) m x = (if x - base ∈ as then m x + base else m x) ∧
      relocate base (some r) false m x = if x - base ∈ as then m x + base else m x := by
  have hmem : x ∈ as.map (base + ·) ↔ x - base ∈ as := by
    simp [mem_map, ← eq_sub_iff_add_eq']
  have hloop : loop base r 0 m x = if x - base ∈ as then m x + base else m x := by
    rw [loop_eq h (by simp), foldl_add (hnd.map (add_right_injective base))]
    simp only [hmem]
  exact ⟨hloop, hloop⟩

/-- An address, a bitmap for the words 0 and 2 behind it and one for none. -/
theorem relr_exact_three : selfRelocate 0x5000 (some [0x10, 0xb, 1]) (fun a => a) 0x5028 = 0xa028 ∧
    relocate 0x5000 (some [0x10, 0xb, 1]) false (fun a => a) 0x5020 = 0x5020 :=
  have h : Encodes none [0x10, 0xb, 1] [0x10, 0x18, 0x28] :=
    .address (by decide)
      (@Encodes.bitmap _ _ _ [] (by decide) (@Encodes.bitmap _ _ _ [] (by decide) .nil))
  ⟨(relr_exact h (by decide) 0x5000 _ 0x5028).1, (relr_exact h (by decide) 0x5000 _ 0x5020).2⟩

end Citadel.Ldso.Relr
