/-! Numbers written in digits, read and written. -/

namespace EngineBridge.Numeral

/-- The value of a digit in a base of at most sixteen, letters of either case counting from ten. -/
def digit? (base : Nat) (c : Char) : Option Nat :=
  let n := c.toNat
  let d :=
    if 48 ≤ n ∧ n ≤ 57 then some (n - 48)
    else if 97 ≤ n ∧ n ≤ 102 then some (n - 87)
    else if 65 ≤ n ∧ n ≤ 70 then some (n - 55)
    else none
  d.filter (· < base)

/-- The digits at the head of a text, and what comes after them. -/
def leading (base : Nat) : List Char → List Nat × List Char
  | [] => ([], [])
  | c :: cs =>
    match digit? base c with
    | some d => let (ds, rest) := leading base cs; (d :: ds, rest)
    | none => ([], c :: cs)

/-- The number that a list of digits stands for, most significant first. -/
def ofDigits (base : Nat) (ds : List Nat) : Nat := ds.foldl (fun n d => n * base + d) 0

/-- The digits of a number in a base, most significant first, letters in lower case. -/
def text (base n : Nat) : List Char := Nat.toDigits base n

/-- The whole of a text read as decimal digits, if there are any and nothing else stands there. -/
def decimal? (cs : List Char) : Option Nat :=
  match leading 10 cs with
  | ([], _) => none
  | (ds, []) => some (ofDigits 10 ds)
  | (_, _ :: _) => none

end EngineBridge.Numeral
