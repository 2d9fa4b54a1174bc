import EngineBridge.Net.SocketAddr

/-! Peers, the servers to which requests are sent on, in the fixed layout in which the engine stores
    them, and their text. The text of a peer is the engine's name for it: `1.2.3.4:80` or `[::1]:80`. -/

namespace EngineBridge
open Net

/-- The family of a peer's address. -/
inductive Family
  | v4
  | v6
deriving DecidableEq, Repr

/-- The address of a server as the engine stores it. The address is in network order and fills sixteen
    bytes, of which IPv4 takes the first four and leaves the others zero; so does the port, in two. -/
structure Peer where
  family : Family
  addr : Vector UInt8 16
  port : Vector UInt8 2
deriving DecidableEq, Repr

namespace Peer

/-- The two bytes of a port as the record holds them. -/
def portField (port : UInt16) : Vector UInt8 2 := #v[(BigEndian.bytes port).1, (BigEndian.bytes port).2]

/-- The peer at an IPv4 address. -/
def v4 (ip : IPv4) (port : UInt16) : Peer where
  family := .v4
  addr := #v[ip.a, ip.b, ip.c, ip.d, 0, 0, 0, 0, 0, 0, 0, 0, 0, 0, 0, 0]
  port := portField port

/-- The peer at an IPv6 address. -/
def v6 (ip : IPv6) (port : UInt16) : Peer where
  family := .v6
  addr :=
    let high (g : UInt16) := (BigEndian.bytes g).1
    let low (g : UInt16) := (BigEndian.bytes g).2
    #v[high ip.a, low ip.a, high ip.b, low ip.b, high ip.c, low ip.c, high ip.d, low ip.d,
      high ip.e, low ip.e, high ip.f, low ip.f, high ip.g, low ip.g, high ip.h, low ip.h]
  port := portField port

/-- The peer at an IPv4 address with a port. -/
def ofSocketV4 (addr : SocketV4) : Peer := v4 addr.ip addr.port

/-- The peer at an IPv6 address with a port. Flow label and scope have no place in the record. -/
def ofSocketV6 (addr : SocketV6) : Peer := v6 addr.ip addr.port

/-- The peer at an address with a port. -/
def ofSocketAddr : SocketAddr → Peer
  | .v4 addr => ofSocketV4 addr
  | .v6 addr => ofSocketV6 addr

/-- The bytes of the address that its family uses. -/
def addrBytes (p : Peer) : List UInt8 :=
  match p.family with
  | .v4 => p.addr.toList.take 4
  | .v6 => p.addr.toList

/-- The port of a peer. -/
def portNumber (p : Peer) : UInt16 := BigEndian.ofBytes p.port[0] p.port[1]

/-- The address of a peer. -/
def ip (p : Peer) : IP :=
  match p.family with
  | .v4 => .v4 ⟨p.addr[0], p.addr[1], p.addr[2], p.addr[3]⟩
  | .v6 =>
    let group (high low : UInt8) := BigEndian.ofBytes high low
    .v6 ⟨group p.addr[0] p.addr[1], group p.addr[2] p.addr[3], group p.addr[4] p.addr[5],
      group p.addr[6] p.addr[7], group p.addr[8] p.addr[9], group p.addr[10] p.addr[11],
      group p.addr[12] p.addr[13], group p.addr[14] p.addr[15]⟩

/-- The address of a peer with its port. -/
def socketAddr (p : Peer) : SocketAddr := .of p.ip p.portNumber

/-- The engine's name of a peer. -/
def chars (p : Peer) : List Char :=
  match p.ip with
  | .v4 ip => ip.text ++ ':' :: Port.text p.portNumber
  | .v6 ip => '[' :: ip.text ++ ']' :: ':' :: Port.text p.portNumber

/-- The engine's name of a peer. -/
def text (p : Peer) : String := String.ofList p.chars

/-- A text without the brackets around it, if it has both. -/
def unbracket (cs : List Char) : List Char :=
  match cs with
  | '[' :: rest => if rest.getLast? = some ']' then rest.dropLast else cs
  | _ => cs

/-- The peer with a literal address, in brackets or not, and a port. A colon tells IPv6 from IPv4. -/
def ofHostPort? (host : List Char) (port : UInt16) : Option Peer :=
  let host := unbracket host
  if ':' ∈ host then (IPv6.ofChars? host).map (v6 · port)
  else (IPv4.ofChars? host).map (v4 · port)

/-- A text before and after the last colon in it. -/
def atLastColon? : List Char → Option (List Char × List Char)
  | [] => none
  | c :: cs =>
    match atLastColon? cs with
    | some (host, port) => some (c :: host, port)
    | none => if c = ':' then some ([], cs) else none

/-- The peer that a text names. The port is what follows the last colon. -/
def ofChars? (cs : List Char) : Option Peer := do
  let (host, port) ← atLastColon? cs
  ofHostPort? host (← Port.ofChars? port)

/-- The peer that a text names. -/
def parse? (s : String) : Option Peer := ofChars? s.toList

end Peer
end EngineBridge
