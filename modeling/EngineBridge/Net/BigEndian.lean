/-! Words of sixteen bits as two bytes in network order. -/

namespace EngineBridge.Net.BigEndian

/-- The two bytes of a word, the more significant one first. -/
def bytes (word : UInt16) : UInt8 × UInt8 := ((word / 256).toUInt8, word.toUInt8)

/-- The word that two bytes stand for, the more significant one first. -/
def ofBytes (high low : UInt8) : UInt16 := high.toUInt16 * 256 + low.toUInt16

theorem toNat_ofBytes (high low : UInt8) :
    (ofBytes high low).toNat = high.toNat * 256 + low.toNat := by
  have hh := high.toNat_lt
  have hl := low.toNat_lt
  simp only [ofBytes, UInt16.toNat_add, UInt16.toNat_mul, UInt8.toNat_toUInt16, UInt16.reduceToNat]
  omega

theorem ofBytes_bytes (word : UInt16) : ofBytes (bytes word).1 (bytes word).2 = word := by
  apply UInt16.toNat_inj.mp
  have hp := word.toNat_lt
  rw [toNat_ofBytes]
  simp only [bytes, UInt16.toNat_toUInt8, UInt16.toNat_div, UInt16.reduceToNat]
  omega

theorem bytes_ofBytes (high low : UInt8) : bytes (ofBytes high low) = (high, low) := by
  have hh := high.toNat_lt
  have hl := low.toNat_lt
  simp only [bytes, Prod.mk.injEq, ← UInt8.toNat_inj, UInt16.toNat_toUInt8, UInt16.toNat_div,
    toNat_ofBytes, UInt16.reduceToNat]
  omega

end EngineBridge.Net.BigEndian
