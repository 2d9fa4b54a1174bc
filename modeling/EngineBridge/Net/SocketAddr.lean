import EngineBridge.Net.IPv6
import EngineBridge.Net.Port

/-! Addresses with a port, as a program hands them to the bridge. -/

namespace EngineBridge.Net
open Numeral

/-- An address of either family. -/
inductive IP
  | v4 (ip : IPv4)
  | v6 (ip : IPv6)
deriving DecidableEq, Repr

/-- The written form of an address. -/
def IP.text : IP → List Char
  | .v4 ip => ip.text
  | .v6 ip => ip.text

/-- An IPv4 address with a port. -/
structure SocketV4 where
  ip : IPv4
  port : UInt16
deriving DecidableEq, Repr

/-- An IPv6 address with a port, a flow label and a scope. -/
structure SocketV6 where
  ip : IPv6
  port : UInt16
  flow : UInt32
  scope : UInt32
deriving DecidableEq, Repr

/-- An address of either family with a port. -/
inductive SocketAddr
  | v4 (addr : SocketV4)
  | v6 (addr : SocketV6)
deriving DecidableEq, Repr

namespace SocketAddr

/-- The address with a port, without flow label and scope. -/
def of : IP → UInt16 → SocketAddr
  | .v4 ip, port => .v4 ⟨ip, port⟩
  | .v6 ip, port => .v6 ⟨ip, port, 0, 0⟩

/-- The written form, an IPv6 address standing in brackets with its scope, if it has one. -/
def text : SocketAddr → List Char
  | .v4 a => a.ip.text ++ ':' :: Port.text a.port
  | .v6 a =>
    let scope := if a.scope = 0 then [] else '%' :: Numeral.text 10 a.scope.toNat
    '[' :: a.ip.text ++ scope ++ ']' :: ':' :: Port.text a.port

/-- Reads the colon and the port that end a text. Here the port has digits only. -/
def readPort? : List Char → Option UInt16
  | ':' :: cs => (decimal? cs).bind fun n => if n < 65536 then some (UInt16.ofNat n) else none
  | _ => none

/-- Reads the scope of an IPv6 address, if there is one. -/
def readScope? : List Char → Option (UInt32 × List Char)
  | '%' :: cs =>
    match leading 10 cs with
    | ([], _) => none
    | (ds, rest) =>
      let n := ofDigits 10 ds
      if n < 4294967296 then some (UInt32.ofNat n, rest) else none
  | cs => some (0, cs)

/-- The address with a port that a text names. -/
def ofChars? : List Char → Option SocketAddr
  | '[' :: cs => do
    let inside (c : Char) : Bool := c != '%' && c != ']'
    let ip ← IPv6.ofChars? (cs.takeWhile inside)
    let (scope, rest) ← readScope? (cs.dropWhile inside)
    match rest with
    | ']' :: rest => return .v6 ⟨ip, ← readPort? rest, 0, scope⟩
    | _ => none
  | cs => do
    let (ip, rest) ← IPv4.read cs
    return .v4 ⟨ip, ← readPort? rest⟩

/-- The address with a port that a text names. -/
def parse? (s : String) : Option SocketAddr := ofChars? s.toList

end SocketAddr
end EngineBridge.Net
