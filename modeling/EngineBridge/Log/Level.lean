import EngineBridge.Text.Ascii
import EngineBridge.Text.Blank

/-! The eight severities of a log line, from the most to the least severe, with the numbers by which
    the engine knows them. -/

namespace EngineBridge.Log
open Text

/-- The severity of a log line. -/
inductive Level
  | emerg
  | alert
  | crit
  | error
  | warn
  | notice
  | info
  | debug
deriving DecidableEq, Repr

namespace Level

/-- The severities, most severe first. -/
def all : List Level := [emerg, alert, crit, error, warn, notice, info, debug]

theorem mem_all (l : Level) : l ∈ all := by cases l <;> decide

/-- The engine's number of a severity, from one for the most severe. -/
def number : Level → Nat
  | emerg => 1
  | alert => 2
  | crit => 3
  | error => 4
  | warn => 5
  | notice => 6
  | info => 7
  | debug => 8

/-- A severity comes before those that are less severe. -/
instance : Ord Level := ⟨fun a b => compare a.number b.number⟩

/-- The name of a severity. -/
def name : Level → String
  | emerg => "EMERG"
  | alert => "ALERT"
  | crit => "CRIT"
  | error => "ERROR"
  | warn => "WARN"
  | notice => "NOTICE"
  | info => "INFO"
  | debug => "DEBUG"

/-- The severities whose names begin with a letter of either case. -/
def startingWith (c : Char) : List Level :=
  match c.toLower with
  | 'e' => [emerg, error]
  | 'a' => [alert]
  | 'c' => [crit]
  | 'w' => [warn]
  | 'n' => [notice]
  | 'i' => [info]
  | 'd' => [debug]
  | _ => []

/-- The severity that a piece of text names, in letters of any case and with blanks around it. The
    first letter decides which names are tried. -/
def ofPiece? (cs : List Char) : Option Level :=
  match trim cs with
  | [] => none
  | c :: cs => (startingWith c).find? fun l => Ascii.sameText l.name (String.ofList (c :: cs))

/-- The severity that a text names. -/
def parse? (s : String) : Option Level := ofPiece? s.toList

/-- What is said of a text that names no severity. -/
def invalidMessage : String := "invalid logging level"

theorem number_pos (l : Level) : 0 < l.number := by cases l <;> decide

theorem number_le (l : Level) : l.number ≤ 8 := by cases l <;> decide

theorem number_inj {a b : Level} (h : a.number = b.number) : a = b := by
  cases a <;> cases b <;> simp_all [number]

theorem name_inj {a b : Level} (h : a.name = b.name) : a = b := by
  cases a <;> cases b <;> simp_all [name]

end Level
end EngineBridge.Log
