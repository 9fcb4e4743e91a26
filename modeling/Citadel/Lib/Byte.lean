import Mathlib.Data.UInt

/-!
# Statements about bytes

A decidable statement about one byte is checked on all of them.
-/

namespace Citadel.Lib.Byte

theorem forall_byte {P : UInt8 → Prop} (h : ∀ i : Fin 256, P (UInt8.ofNat i)) (c : UInt8) :
    P c := by
  have := h ⟨c.toNat, c.toNat_lt⟩
  simpa using this

end Citadel.Lib.Byte
