import EngineBridge.Text.Numeral

/-! IPv4 addresses and their dotted form, which is read strictly: four numbers of at most three digits,
    none beyond 255 and none with a leading zero. -/

namespace EngineBridge.Net
open Numeral

/-- An IPv4 address, most significant byte first. -/
structure IPv4 where
  a : UInt8
  b : UInt8
  c : UInt8
  d : UInt8
deriving DecidableEq, Repr

namespace IPv4

/-- The four bytes of an address in network order. -/
def octets (ip : IPv4) : List UInt8 := [ip.a, ip.b, ip.c, ip.d]

/-- Reads one of the four numbers from the head of a text. -/
def readOctet (cs : List Char) : Option (UInt8 × List Char) :=
  let (ds, rest) := leading 10 cs
  let n := ofDigits 10 ds
  if ds = [] ∨ 3 < ds.length ∨ (1 < ds.length ∧ ds.head? = some 0) ∨ 255 < n then none
  else some (UInt8.ofNat n, rest)

/-- Reads the point between two numbers, and the number after it. -/
def readPointed : List Char → Option (UInt8 × List Char)
  | '.' :: cs => readOctet cs
  | _ => none

/-- Reads an address from the head of a text. -/
def read (cs : List Char) : Option (IPv4 × List Char) := do
  let (a, cs) ← readOctet cs
  let (b, cs) ← readPointed cs
  let (c, cs) ← readPointed cs
  let (d, cs) ← readPointed cs
  return (⟨a, b, c, d⟩, cs)

/-- The address that a whole text names. -/
def ofChars? (cs : List Char) : Option IPv4 :=
  match read cs with
  | some (ip, []) => some ip
  | _ => none

/-- The dotted form of an address. -/
def text (ip : IPv4) : List Char :=
  let octet (n : UInt8) := Numeral.text 10 n.toNat
  octet ip.a ++ '.' :: octet ip.b ++ '.' :: octet ip.c ++ '.' :: octet ip.d

end IPv4
end EngineBridge.Net
