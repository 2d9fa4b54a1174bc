import EngineBridge.Text.Ascii

/-! UTF-8, written and read. Reading never fails: each maximal part that begins a well-formed
    sequence and is broken off, and each byte that begins none, is read as one U+FFFD. -/

namespace EngineBridge.Utf8

/-- The UTF-8 bytes of a text. -/
def encode (s : String) : Bytes := s.toList.flatMap String.utf8EncodeChar

/-- What a byte announces when it begins a sequence of several bytes: the bits it carries itself,
    how many bytes have to follow, and the range that the first of those must lie in. -/
structure Lead where
  bits : Nat
  more : Nat
  low : UInt8
  high : UInt8

/-- The announcement of a byte, if it may begin a sequence of several bytes. The narrowed ranges
    shut out overlong forms, surrogates and values beyond U+10FFFF. -/
def Lead.of? (b : UInt8) : Option Lead :=
  if 0xC2 ≤ b ∧ b ≤ 0xDF then some ⟨b.toNat - 0xC0, 1, 0x80, 0xBF⟩
  else if b = 0xE0 then some ⟨0, 2, 0xA0, 0xBF⟩
  else if b = 0xED then some ⟨0xD, 2, 0x80, 0x9F⟩
  else if 0xE1 ≤ b ∧ b ≤ 0xEF then some ⟨b.toNat - 0xE0, 2, 0x80, 0xBF⟩
  else if b = 0xF0 then some ⟨0, 3, 0x90, 0xBF⟩
  else if 0xF1 ≤ b ∧ b ≤ 0xF3 then some ⟨b.toNat - 0xF0, 3, 0x80, 0xBF⟩
  else if b = 0xF4 then some ⟨4, 3, 0x80, 0x8F⟩
  else none

/-- What stands in the text for a part that cannot be read. -/
def replacement : Char := '\uFFFD'

/-- A byte read where no sequence is open: the characters it completes, and the sequence it opens. -/
def start (b : UInt8) : List Char × Option Lead :=
  if b < 0x80 then ([Char.ofNat b.toNat], none)
  else match Lead.of? b with
    | some l => ([], some l)
    | none => ([replacement], none)

/-- A byte read while `l` is open. A byte that cannot go on ends the broken part and is read afresh. -/
def extend (l : Lead) (b : UInt8) : List Char × Option Lead :=
  if l.low ≤ b ∧ b ≤ l.high then
    let bits := l.bits * 64 + (b.toNat - 0x80)
    if l.more ≤ 1 then ([Char.ofNat bits], none)
    else ([], some ⟨bits, l.more - 1, 0x80, 0xBF⟩)
  else
    let (cs, l') := start b
    (replacement :: cs, l')

/-- Reads the rest of a byte string while the given sequence, if any, is open. -/
def readFrom : Option Lead → Bytes → List Char
  | none, [] => []
  | some _, [] => [replacement]
  | none, b :: bs => let (cs, l) := start b; cs ++ readFrom l bs
  | some l, b :: bs => let (cs, l') := extend l b; cs ++ readFrom l' bs

/-- The text of a byte string, with U+FFFD for what is not UTF-8. -/
def decode (bs : Bytes) : String := String.ofList (readFrom none bs)

@[simp] theorem decode_nil : decode [] = "" := rfl

end EngineBridge.Utf8
