import EngineBridge.Text.Numeral

/-! Port numbers. A port is written in decimal; it is read with a plus sign allowed before it and with
    any number of leading zeros. -/

namespace EngineBridge.Net.Port
open Numeral

/-- The port that a text names. -/
def ofChars? (cs : List Char) : Option UInt16 :=
  let digits := match cs with
    | '+' :: rest => rest
    | _ => cs
  match decimal? digits with
  | some n => if n < 65536 then some (UInt16.ofNat n) else none
  | none => none

/-- The written form of a port. -/
def text (port : UInt16) : List Char := Numeral.text 10 port.toNat

end EngineBridge.Net.Port
