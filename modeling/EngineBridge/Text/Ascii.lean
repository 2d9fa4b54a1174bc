/-! Text compared without regard to the case of its ASCII letters. Only the letters `A` to `Z` are
    folded, so a byte outside ASCII is equal to itself alone. -/

namespace EngineBridge

/-- A byte string, as the engine hands it over. -/
abbrev Bytes := List UInt8

namespace Ascii

/-- A byte with an upper-case ASCII letter made lower-case. -/
def foldByte (b : UInt8) : UInt8 := if 65 ≤ b ∧ b ≤ 90 then b + 32 else b

/-- Equality of two byte strings up to ASCII case. -/
def sameBytes (a b : Bytes) : Bool := a.map foldByte == b.map foldByte

/-- Equality of two texts up to ASCII case. -/
def sameText (a b : String) : Bool := a.toList.map Char.toLower == b.toList.map Char.toLower

theorem sameBytes_refl (a : Bytes) : sameBytes a a = true := beq_self_eq_true _

theorem sameBytes_comm (a b : Bytes) : sameBytes a b = sameBytes b a := by
  simp only [sameBytes, Bool.beq_comm]

theorem sameText_refl (a : String) : sameText a a = true := beq_self_eq_true _

theorem sameText_comm (a b : String) : sameText a b = sameText b a := by
  simp only [sameText, Bool.beq_comm]

theorem toNat_toLower (c : Char) :
    c.toLower.toNat = if 65 ≤ c.toNat ∧ c.toNat ≤ 90 then c.toNat + 32 else c.toNat := by
  have hA : 'A'.val.toNat = 65 := rfl
  have hZ : 'Z'.val.toNat = 90 := rfl
  have hgap : ('a'.val - 'A'.val).toNat = 32 := rfl
  delta Char.toLower
  simp only [Char.toNat, ge_iff_le, UInt32.le_iff_toNat_le, hA, hZ]
  split
  · rw [UInt32.toNat_add, hgap]
    omega
  · rfl

end Ascii
end EngineBridge
