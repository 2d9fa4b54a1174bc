/-! Text laid out in a field of a given width. -/

namespace EngineBridge.Text

/-- Where a text stands in a field that is wider than it. -/
inductive Align
  | left
  | right
  | center
deriving DecidableEq, Repr

/-- A field: its width counts characters, and a precision cuts the text before it is laid out. -/
structure Field where
  align : Align
  width : Nat
  precision : Option Nat
deriving DecidableEq, Repr

/-- A field that leaves every text as it is. -/
def Field.plain : Field := ⟨.left, 0, none⟩

/-- A text cut to the precision of its field, then filled up with spaces to its width. In the middle
    the smaller half of the spaces stands before the text. -/
def Field.lay (f : Field) (s : String) : String :=
  let cs := match f.precision with
    | some p => s.toList.take p
    | none => s.toList
  let gap := f.width - cs.length
  let before := match f.align with
    | .left => 0
    | .right => gap
    | .center => gap / 2
  String.ofList (List.replicate before ' ' ++ cs ++ List.replicate (gap - before) ' ')

@[simp] theorem Field.lay_plain (s : String) : Field.plain.lay s = s := by
  simp [Field.lay, Field.plain]

end EngineBridge.Text
