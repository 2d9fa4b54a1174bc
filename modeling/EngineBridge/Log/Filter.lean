import EngineBridge.Log.Level
import EngineBridge.Text.Field
import EngineBridge.Text.Parts

/-! Sets of severities that are logged. A filter is built from severities, each of which brings in
    every severity above it. -/

namespace EngineBridge.Log
open Text

/-- A set of severities as a word of bits, the bit of a severity standing at its number. -/
structure Filter where
  bits : UInt32
deriving DecidableEq, Repr

namespace Filter

/-- The filter that lets nothing through. -/
def none : Filter := ⟨0⟩

/-- The bit of a severity. -/
def bit (l : Level) : UInt32 := 1 <<< UInt32.ofNat l.number

/-- A severity and all that are more severe: the bits from one up to its number. -/
def upTo (l : Level) : Filter := ⟨((1 <<< UInt32.ofNat (l.number + 1)) - 1) &&& ~~~1⟩

/-- What either of two filters lets through. -/
def union (a b : Filter) : Filter := ⟨a.bits ||| b.bits⟩

instance : OrOp Filter := ⟨union⟩

/-- What the filter of at least one of the severities lets through. -/
def all (ls : List Level) : Filter := ls.foldl (fun f l => f ||| upTo l) none

/-- Whether a severity is let through. -/
def allows (f : Filter) (l : Level) : Bool := f.bits &&& bit l != 0

/-- Whether nothing is let through. -/
def isEmpty (f : Filter) : Bool := f.bits == 0

/-- The severities let through, most severe first. -/
def levels (f : Filter) : List Level := Level.all.filter f.allows

/-- The written form of a filter, each of its pieces laid out in a field of its own. -/
def render (field : Field) (f : Filter) : String :=
  field.lay "LogFilter(" ++
    (field.lay ",").intercalate (f.levels.map fun l => field.lay l.name) ++ field.lay ")"

/-- The written form of a filter. -/
def text (f : Filter) : String := f.render .plain

/-- The filter that a text names: each piece between commas names a severity, which is brought in together
    with those above it, and the first piece that names none makes the whole text invalid. -/
def parse? (s : String) : Option Filter :=
  (splitAt ',' s.toList).foldlM (fun f piece => (Level.ofPiece? piece).map fun l => f ||| upTo l) none

theorem allows_upTo (l m : Level) : (upTo l).allows m = decide (m.number ≤ l.number) := by
  cases l <;> cases m <;> decide

theorem allows_none (l : Level) : none.allows l = false := by cases l <;> decide

end Filter
end EngineBridge.Log
