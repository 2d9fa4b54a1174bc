import EngineBridge.Net.BigEndian
import EngineBridge.Net.IPv4

/-! IPv6 addresses and their text. Reading takes groups of one to four hexadecimal digits, `::` once for
    a run of zero groups, and an IPv4 address in the place of the last two groups. Writing shortens the
    first of the longest runs of at least two zero groups, and gives an IPv4-mapped address its dotted
    tail. -/

namespace EngineBridge.Net
open Numeral

/-- An IPv6 address as its eight groups, most significant first. -/
structure IPv6 where
  a : UInt16
  b : UInt16
  c : UInt16
  d : UInt16
  e : UInt16
  f : UInt16
  g : UInt16
  h : UInt16
deriving DecidableEq, Repr

namespace IPv6

/-- The eight groups of an address. -/
def groups (ip : IPv6) : List UInt16 := [ip.a, ip.b, ip.c, ip.d, ip.e, ip.f, ip.g, ip.h]

/-- The address with the given groups, if there are eight. -/
def ofGroups? : List UInt16 → Option IPv6
  | [a, b, c, d, e, f, g, h] => some ⟨a, b, c, d, e, f, g, h⟩
  | _ => none

@[simp] theorem ofGroups?_groups (ip : IPv6) : ofGroups? ip.groups = some ip := rfl

@[simp] theorem length_groups (ip : IPv6) : ip.groups.length = 8 := rfl

/-! ### Reading -/

/-- Reads a group of one to four digits from the head of a text. -/
def readGroup (cs : List Char) : Option (UInt16 × List Char) :=
  let (ds, rest) := leading 16 cs
  if ds = [] ∨ 4 < ds.length then none else some (UInt16.ofNat (ofDigits 16 ds), rest)

/-- Steps over the colon before an element that is not the first of its part. -/
def separator (first : Bool) (cs : List Char) : Option (List Char) :=
  if first then some cs
  else match cs with
    | ':' :: cs => some cs
    | _ => none

/-- One part of an address: its groups, whether the last two of them were written as an IPv4 address,
    and the text after it. -/
structure Part where
  groups : List UInt16
  dotted : Bool
  rest : List Char

/-- Reads groups as long as there is room and the text has one. An IPv4 address takes the room of two
    groups and ends the part. -/
def readPart : (room : Nat) → (first : Bool) → List Char → Part
  | 0, _, cs => ⟨[], false, cs⟩
  | room + 1, first, cs =>
    match (if room = 0 then none else (separator first cs).bind IPv4.read) with
    | some (ip, rest) =>
      ⟨[BigEndian.ofBytes ip.a ip.b, BigEndian.ofBytes ip.c ip.d], true, rest⟩
    | none =>
      match (separator first cs).bind readGroup with
      | some (group, rest) =>
        let part := readPart room false rest
        ⟨group :: part.groups, part.dotted, part.rest⟩
      | none => ⟨[], false, cs⟩

/-- The address that a whole text names. What stands before `::` ends in no IPv4 address, and `::`
    stands for one group at least. -/
def ofChars? (cs : List Char) : Option IPv6 :=
  let front := readPart 8 true cs
  match front.groups.length, front.dotted, front.rest with
  | 8, _, [] => ofGroups? front.groups
  | 8, _, _ => none
  | n, false, ':' :: ':' :: cs =>
    let back := readPart (7 - n) true cs
    match back.rest with
    | [] =>
      ofGroups? (front.groups ++ List.replicate (8 - n - back.groups.length) 0 ++ back.groups)
    | _ => none
  | _, _, _ => none

/-! ### Writing -/

/-- A run of zero groups: where it begins and how many there are. -/
structure Run where
  start : Nat
  length : Nat

/-- The first of the longest runs of zero groups from position `i` on, `current` being the run that
    reaches up to there and `best` the longest one before. -/
def longestRun : (i : Nat) → (current best : Run) → List UInt16 → Run
  | _, _, best, [] => best
  | i, current, best, g :: gs =>
    if g = 0 then
      let current : Run := if current.length = 0 then ⟨i, 1⟩ else ⟨current.start, current.length + 1⟩
      longestRun (i + 1) current (if best.length < current.length then current else best) gs
    else longestRun (i + 1) ⟨0, 0⟩ best gs

/-- Groups with colons between them. -/
def colonText (gs : List UInt16) : List Char :=
  [':'].intercalate (gs.map fun g => Numeral.text 16 g.toNat)

/-- The IPv4 address that an IPv4-mapped address carries. -/
def mapped? (ip : IPv6) : Option IPv4 :=
  if ip.groups.take 6 = [0, 0, 0, 0, 0, 0xFFFF] then
    some ⟨(BigEndian.bytes ip.g).1, (BigEndian.bytes ip.g).2, (BigEndian.bytes ip.h).1, (BigEndian.bytes ip.h).2⟩
  else none

/-- The written form of an address. -/
def text (ip : IPv6) : List Char :=
  match mapped? ip with
  | some v4 => "::ffff:".toList ++ v4.text
  | none =>
    let run := longestRun 0 ⟨0, 0⟩ ⟨0, 0⟩ ip.groups
    if 1 < run.length then
      colonText (ip.groups.take run.start) ++ "::".toList ++
        colonText (ip.groups.drop (run.start + run.length))
    else colonText ip.groups

end IPv6
end EngineBridge.Net
