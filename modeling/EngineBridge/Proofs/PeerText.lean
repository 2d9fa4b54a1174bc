import EngineBridge.Peer
import EngineBridge.Proofs.Addresses

/-! Peers and their text. A peer is its address and its port, in whatever way it was made: the record holds both,
    and what it does not use of its sixteen bytes is zero. Its name, its address with a port and the text of its
    address give it back. -/

namespace EngineBridge
open Net Numeral

/-! ### The characters of an address -/

namespace Net
variable {c : Char} {ip : IP}

theorem IPv6.mem_colonText {gs : List UInt16} (hc : c ∈ IPv6.colonText gs) : c = ':' ∨ ∃ d, c = Nat.digitChar d := by
  cases gs with
  | nil => cases hc
  | cons g gs =>
    have hdigit : ∀ g : UInt16, c ∈ Numeral.text 16 g.toNat → ∃ d, c = Nat.digitChar d := fun g hg =>
      exists_digitChar (by decide) hg
    rw [IPv6.colonText_cons, List.mem_append] at hc
    rcases hc with hg | htail
    · exact .inr (hdigit g hg)
    · obtain ⟨g', -, hg'⟩ := List.mem_flatMap.mp htail
      rcases List.mem_cons.mp hg' with rfl | hg'
      · exact .inl rfl
      · exact .inr (hdigit g' hg')

theorem IPv6.mem_text {ip : IPv6} (hc : c ∈ ip.text) : c = ':' ∨ c = '.' ∨ ∃ d, c = Nat.digitChar d := by
  have hhead : "::ffff:".toList = [':', ':', Nat.digitChar 15, Nat.digitChar 15, Nat.digitChar 15, Nat.digitChar 15, ':'] := by
    decide
  have hcolons : "::".toList = [':', ':'] := by decide
  have hgroups : ∀ gs, c ∈ IPv6.colonText gs → c = ':' ∨ c = '.' ∨ ∃ d, c = Nat.digitChar d := fun gs hgs =>
    (mem_colonText hgs).imp_right .inr
  have hwritten := IPv6.written_text ip
  generalize ip.text = cs at hwritten hc
  cases hwritten with
  | dotted v4 =>
    rcases List.mem_append.mp hc with hc | hc
    · rw [hhead] at hc
      simp only [List.mem_cons, List.not_mem_nil, or_false] at hc
      rcases hc with hc | hc | hc | hc | hc | hc | hc
      iterate 2 exact .inl hc
      iterate 4 exact .inr (.inr ⟨15, hc⟩)
      exact .inl hc
    · exact .inr (IPv4.mem_text hc)
  | shortened run =>
    rw [hcolons] at hc
    rcases List.mem_append.mp hc with hc | hc
    · rcases List.mem_append.mp hc with hc | hc
      · exact hgroups _ hc
      · simp only [List.mem_cons, List.not_mem_nil, or_false, or_self] at hc
        exact .inl hc
    · exact hgroups _ hc
  | full => exact hgroups _ hc

theorem IPv6.colon_mem_text (ip : IPv6) : ':' ∈ ip.text := by
  have hwritten := IPv6.written_text ip
  generalize ip.text = cs at hwritten
  cases hwritten with
  | dotted v4 => exact List.mem_append_left _ (by decide)
  | shortened run => exact List.mem_append_left _ (List.mem_append_right _ (by decide))
  | full =>
    rw [IPv6.groups, IPv6.colonText_cons]
    exact List.mem_append_right _ (by simp [IPv6.colonTail])

theorem IPv4.colon_not_mem_text (ip : IPv4) : ':' ∉ ip.text := by
  intro hc
  rcases IPv4.mem_text hc with hc | ⟨d, hc⟩
  · cases hc
  · simp at hc

theorem IP.bracket_not_mem_text (ip : IP) : '[' ∉ ip.text := by
  intro hc
  cases ip with
  | v4 ip =>
    rcases IPv4.mem_text hc with hc | ⟨d, hc⟩
    · cases hc
    · simp at hc
  | v6 ip =>
    rcases IPv6.mem_text hc with hc | hc | ⟨d, hc⟩
    · cases hc
    · cases hc
    · simp at hc

/-- The texts of an address: one for IPv4, which is read strictly, and the shortest one for IPv6. -/
def IP.Written : IP → List Char → Prop
  | .v4 ip, cs => IPv4.ofChars? cs = some ip
  | .v6 ip, cs => ip.Written cs

theorem IP.written_iff {cs : List Char} : ip.Written cs ↔ cs = ip.text := by
  cases ip with
  | v4 ip => exact IPv4.ofChars?_eq_some_iff
  | v6 ip => exact ⟨IPv6.Written.eq, fun hcs => hcs ▸ ip.written_text⟩

namespace Port

theorem ofChars?_text (port : UInt16) : ofChars? (text port) = some port := by
  have hread := decimal?_text port.toNat
  have hlt := port.toNat_lt
  unfold ofChars?
  split
  · next rest hplus =>
    have hmem : '+' ∈ text port := hplus ▸ List.mem_cons_self
    obtain ⟨d, hd⟩ := exists_digitChar (by decide) hmem
    simp at hd
  · dsimp only
    rw [text, hread]
    dsimp only
    rw [if_pos (by omega), UInt16.ofNat_toNat]

theorem colon_not_mem_text (port : UInt16) : ':' ∉ text port := by
  intro hc
  obtain ⟨d, hd⟩ := exists_digitChar (by decide) hc
  simp at hd

end Port
end Net

/-! ### The record -/

namespace Peer
variable {cs host port : List Char} {p q : Peer}

/-- The peer at an address of either family. -/
def of : IP → UInt16 → Peer
  | .v4 ip, port => v4 ip port
  | .v6 ip, port => v6 ip port

@[simp] theorem portNumber_of (ip : IP) (port : UInt16) : (of ip port).portNumber = port := by
  cases ip <;> exact BigEndian.ofBytes_bytes port

@[simp] theorem ip_of (ip : IP) (port : UInt16) : (of ip port).ip = ip := by
  cases ip with
  | v4 ip => rfl
  | v6 ip => simp [of, v6, Peer.ip, BigEndian.ofBytes_bytes]

theorem ofSocketAddr_of (ip : IP) (port : UInt16) : ofSocketAddr (.of ip port) = of ip port := by
  cases ip <;> rfl

/-- The ways to make a peer. -/
inductive Built : Peer → Prop
  | v4 (ip : IPv4) (port : UInt16) : Built (v4 ip port)
  | v6 (ip : IPv6) (port : UInt16) : Built (v6 ip port)
  | ofSocketV4 (addr : SocketV4) : Built (ofSocketV4 addr)
  | ofSocketV6 (addr : SocketV6) : Built (ofSocketV6 addr)
  | ofSocketAddr (addr : SocketAddr) : Built (ofSocketAddr addr)
  | ofHostPort {host : List Char} {port : UInt16} {p : Peer} : ofHostPort? host port = some p → Built p
  | parse {s : String} {p : Peer} : parse? s = some p → Built p

theorem exists_of_ofHostPort? {number : UInt16} (hp : ofHostPort? host number = some p) : ∃ ip, p = of ip number := by
  unfold ofHostPort? at hp
  dsimp only at hp
  split at hp
  · obtain ⟨ip, -, rfl⟩ := Option.map_eq_some_iff.mp hp
    exact ⟨.v6 ip, rfl⟩
  · obtain ⟨ip, -, rfl⟩ := Option.map_eq_some_iff.mp hp
    exact ⟨.v4 ip, rfl⟩

theorem Built.exists_of (hp : Built p) : ∃ ip port, p = of ip port := by
  cases hp with
  | v4 ip port => exact ⟨.v4 ip, port, rfl⟩
  | v6 ip port => exact ⟨.v6 ip, port, rfl⟩
  | ofSocketV4 addr => exact ⟨.v4 addr.ip, addr.port, rfl⟩
  | ofSocketV6 addr => exact ⟨.v6 addr.ip, addr.port, rfl⟩
  | ofSocketAddr addr =>
    cases addr with
    | v4 addr => exact ⟨.v4 addr.ip, addr.port, rfl⟩
    | v6 addr => exact ⟨.v6 addr.ip, addr.port, rfl⟩
  | ofHostPort hp =>
    obtain ⟨ip, rfl⟩ := exists_of_ofHostPort? hp
    exact ⟨ip, _, rfl⟩
  | parse hp =>
    simp only [parse?, ofChars?, Option.bind_eq_bind, Option.bind_eq_some_iff, Prod.exists] at hp
    obtain ⟨_, _, -, number, -, hp⟩ := hp
    obtain ⟨ip, rfl⟩ := exists_of_ofHostPort? hp
    exact ⟨ip, number, rfl⟩

/-- A peer is its address and its port. -/
theorem Built.eq_of (hp : Built p) : p = of p.ip p.portNumber := by
  obtain ⟨ip, port, rfl⟩ := hp.exists_of
  rw [ip_of, portNumber_of]

/-! ### The text -/

theorem atLastColon?_eq_none (hcs : ':' ∉ cs) : atLastColon? cs = none := by
  induction cs with
  | nil => rfl
  | cons c cs ih =>
    obtain ⟨hc, hcs⟩ := not_or.mp (List.mem_cons.not.mp hcs)
    unfold atLastColon?
    rw [ih hcs]
    exact if_neg (Ne.symm hc)

theorem atLastColon?_append (host : List Char) (hport : ':' ∉ port) :
    atLastColon? (host ++ ':' :: port) = some (host, port) := by
  induction host with
  | nil =>
    rw [List.nil_append]
    unfold atLastColon?
    rw [atLastColon?_eq_none hport]
    exact if_pos rfl
  | cons c host ih =>
    rw [List.cons_append]
    unfold atLastColon?
    rw [ih]

theorem unbracket_brackets (cs : List Char) : unbracket ('[' :: cs ++ [']']) = cs := by
  simp [unbracket]

theorem unbracket_of_not_mem (hcs : '[' ∉ cs) : unbracket cs = cs := by
  unfold unbracket
  split
  · exact absurd List.mem_cons_self hcs
  · rfl

/-- The text of an address names it, bare or in brackets. -/
theorem ofHostPort?_of_unbracket {ip : IP} (number : UInt16) (hhost : unbracket host = ip.text) :
    ofHostPort? host number = some (of ip number) := by
  unfold ofHostPort?
  rw [hhost]
  cases ip with
  | v4 ip =>
    rw [show (IP.v4 ip).text = ip.text from rfl, if_neg ip.colon_not_mem_text, IPv4.ofChars?_eq_some_iff.mpr rfl]
    rfl
  | v6 ip =>
    rw [show (IP.v6 ip).text = ip.text from rfl, if_pos ip.colon_mem_text, ip.ofChars?_text]
    rfl

theorem ofHostPort?_text (ip : IP) (number : UInt16) : ofHostPort? ip.text number = some (of ip number) :=
  ofHostPort?_of_unbracket number (unbracket_of_not_mem ip.bracket_not_mem_text)

theorem ofHostPort?_brackets (ip : IP) (number : UInt16) :
    ofHostPort? ('[' :: ip.text ++ [']']) number = some (of ip number) :=
  ofHostPort?_of_unbracket number (unbracket_brackets ip.text)

theorem parse?_text (ip : IP) (number : UInt16) : parse? (of ip number).text = some (of ip number) := by
  have hport := Port.colon_not_mem_text number
  unfold parse? text
  rw [String.toList_ofList]
  unfold ofChars? chars
  rw [ip_of, portNumber_of]
  cases ip with
  | v4 ip =>
    have hread := ofHostPort?_text (.v4 ip) number
    dsimp only
    rw [atLastColon?_append ip.text hport]
    simp only [Option.bind_eq_bind, Option.bind_some, Port.ofChars?_text]
    exact hread
  | v6 ip =>
    have hread := ofHostPort?_brackets (.v6 ip) number
    dsimp only
    rw [show '[' :: ip.text ++ ']' :: ':' :: Port.text number = ('[' :: ip.text ++ [']']) ++ ':' :: Port.text number by
      simp, atLastColon?_append _ hport]
    simp only [Option.bind_eq_bind, Option.bind_some, Port.ofChars?_text]
    exact hread

/-- A peer made from an address and a port has both and no more: its name is read as the peer, the socket address
    that it gives makes the peer, and so does the text of its address with its port, bare or in brackets. Addresses
    are written in one way. Peers made in whatever way are equal records just if they have the same address and the
    same port. -/
theorem address_law (ip : IP) (port : UInt16) (hp : Built p) (hq : Built q) :
    (of ip port).ip = ip ∧ (of ip port).portNumber = port ∧
      parse? (of ip port).text = some (of ip port) ∧
      ofSocketAddr (of ip port).socketAddr = of ip port ∧
      ofHostPort? (of ip port).ip.text (of ip port).portNumber = some (of ip port) ∧
      ofHostPort? ('[' :: (of ip port).ip.text ++ [']']) (of ip port).portNumber = some (of ip port) ∧
      (∀ cs, ip.Written cs ↔ cs = ip.text) ∧
      (p = q ↔ p.ip = q.ip ∧ p.portNumber = q.portNumber) := by
  have hequal : p = q ↔ p.ip = q.ip ∧ p.portNumber = q.portNumber := by
    constructor
    · rintro rfl
      exact ⟨rfl, rfl⟩
    · rintro ⟨hip, hport⟩
      rw [hp.eq_of, hq.eq_of, hip, hport]
  refine ⟨ip_of ip port, portNumber_of ip port, parse?_text ip port, ?_, ?_, ?_, fun cs => IP.written_iff, hequal⟩
  · rw [socketAddr, ip_of, portNumber_of, ofSocketAddr_of]
  · rw [ip_of, portNumber_of, ofHostPort?_text]
  · rw [ip_of, portNumber_of, ofHostPort?_brackets]

/-- Two spellings of an IPv4-mapped address, a port with a zero before it, and a socket address with a scope make
    one peer. -/
theorem address_law_when_mapped :
    let ip : IPv6 := ⟨0, 0, 0, 0, 0, 0xFFFF, 0x0102, 0x0304⟩
    (of (.v6 ip) 80).text = "[::ffff:1.2.3.4]:80" ∧
      parse? "[0:0::0:FFFF:102:304]:080" = some (of (.v6 ip) 80) ∧
      ofSocketV6 ⟨ip, 80, 0, 7⟩ = of (.v6 ip) 80 := by
  intro ip
  have hparsed : parse? "[0:0::0:FFFF:102:304]:080" = some (ofSocketV6 ⟨ip, 80, 0, 7⟩) := by decide +kernel
  have hlaw := address_law (.v6 ip) 80 (.parse hparsed) (.v6 ip 80)
  have hsame := hlaw.2.2.2.2.2.2.2.mpr ⟨rfl, rfl⟩
  exact ⟨by decide +kernel, hparsed.trans (congrArg some hsame), hsame⟩

end Peer
end EngineBridge
