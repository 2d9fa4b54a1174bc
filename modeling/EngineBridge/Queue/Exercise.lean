import EngineBridge.Queue.Ring
import EngineBridge.Text.Ascii

/-! An exercise of the ring that a byte string directs. Runs of items are pushed, with partial and full
    drains between them; nothing may be lost, doubled or reordered, and a push may be refused only when
    the ring is full. Each call is noted, and so is the first check that fails. -/

namespace EngineBridge.Queue.Exercise

/-- One call made on the ring, with its result. -/
inductive Call
  | new (requested : UInt64) (retries : UInt32)
  | capacity (n : Nat)
  | pushed
  | full
  | popped
  | none
  | length (n : Nat)
deriving DecidableEq, Repr

/-- The note of a call. -/
def Call.text : Call → String
  | .new requested retries => "new " ++ toString requested.toNat ++ " " ++ toString retries.toNat
  | .capacity n => "cap " ++ toString n
  | .pushed => "+"
  | .full => "full"
  | .popped => "-"
  | .none => "none"
  | .length n => toString n

/-- What is checked on the way. -/
inductive Check
  | capacity
  | order
  | payload
  | lost
  | refusal
  | handedBack
  | length
  | unending
deriving DecidableEq, Repr

/-- What is said when a check fails. -/
def Check.text : Check → String
  | .capacity => "capacity is no power of two of at least two"
  | .order => "item out of order"
  | .payload => "item damaged"
  | .lost => "item lost"
  | .refusal => "push failed on a non-full queue"
  | .handedBack => "another item handed back"
  | .length => "wrong length"
  | .unending => "queue does not run empty"

/-- A pushed item: its number in the sequence and a payload of words, from which both the number and
    the length can be checked. -/
structure Item where
  seq : UInt16
  payload : List UInt16
deriving DecidableEq, Repr

/-- The sum of the first and the last word of a payload. -/
def sealWord : UInt16 := 44444

/-- The item with the given number and payload length. -/
def Item.make (seq : UInt16) : Nat → Item
  | 0 => ⟨seq, []⟩
  | 1 => ⟨seq, [22222]⟩
  | n + 2 => ⟨seq, seq :: List.replicate n 0 ++ [sealWord - seq]⟩

/-- What is remembered of an item that was pushed: its number and payload length. -/
abbrev Expected := UInt16 × Nat

/-- Checks a popped item against the oldest one expected. -/
def Item.check (item : Item) (expected : Option Expected) : Except Check Unit :=
  if some (item.seq, item.payload.length) ≠ expected then .error .order
  else match item.payload with
    | a :: b :: rest =>
      if a + (b :: rest).getLast (List.cons_ne_nil b rest) = sealWord then .ok ()
      else .error .payload
    | _ => .ok ()

/-- The ring, what is expected in it, the number of the byte last read, and the calls made, latest
    first. -/
structure State where
  ring : Ring Item
  expected : List Expected
  seq : UInt16
  calls : List Call

namespace State

/-- The state with one more call noted. -/
def note (s : State) (c : Call) : State := { s with calls := c :: s.calls }

/-- Pops an item and checks it; `false` when there was none. -/
def pop (s : State) : Except (Check × State) (Bool × State) :=
  let (popped, ring) := s.ring.pop
  let s := { s with ring }
  match popped with
  | some item =>
    let rest := { s with expected := s.expected.tail }.note .popped
    match item.check s.expected.head? with
    | .ok () => .ok (true, rest)
    | .error c => .error (c, rest)
  | Option.none => .ok (false, s.note .none)

/-- Pops up to a number of items. The ring may run empty only when nothing is expected. -/
def popRun (s : State) : Nat → Except (Check × State) State
  | 0 => .ok s
  | n + 1 =>
    match s.pop with
    | .ok (true, s) => s.popRun n
    | .ok (false, s) => if s.expected.isEmpty then .ok s else .error (.lost, s)
    | .error e => .error e

/-- Pushes the item with the present number. A refusal is right only when the ring is full, and then
    the item itself comes back. -/
def push (s : State) (length : Nat) : Except (Check × State) State :=
  let (pushed, ring) := s.ring.push (.make s.seq length)
  let s := { s with ring }
  match pushed with
  | .ok () => .ok ({ s with expected := s.expected ++ [(s.seq, length)] }.note .pushed)
  | .error item =>
    let s := s.note .full
    if s.expected.length ≠ s.ring.capacity then .error (.refusal, s)
    else if item.seq ≠ s.seq then .error (.handedBack, s)
    else .ok s

/-- Does what one byte asks for: below four it drains that many items, zero meaning all of them; any
    other byte pushes an item whose payload length is the byte's lower half. -/
def feed (s : State) (b : UInt8) : Except (Check × State) State := do
  let s := { s with seq := s.seq + 1 }
  let s ←
    if b < 4 then s.popRun (if b = 0 then UInt64.size - 1 else b.toNat)
    else s.push (b &&& 15).toNat
  let s := s.note (.length s.ring.length)
  if s.expected.length = s.ring.length then .ok s else .error (.length, s)

/-- Pops all items; the ring has to run empty within `limit` pops. -/
def finish (s : State) : (limit : Nat) → Except (Check × State) State
  | 0 => .error (.unending, s)
  | n + 1 =>
    match s.pop with
    | .ok (true, s) => s.finish n
    | .ok (false, s) =>
      if s.expected.isEmpty && s.ring.length == 0 then .ok s else .error (.lost, s)
    | .error e => .error e

end State

/-- The calls made and the check that failed, if any. -/
structure Report where
  calls : List Call
  failed : Option Check
deriving DecidableEq, Repr

/-- The notes of the calls made. -/
def Report.text (r : Report) : String := " ".intercalate (r.calls.map Call.text)

/-- Exercises a ring as the bytes after the first direct; the first one gives the requested size. -/
def steps (head : UInt8) (data : Bytes) : Except (Check × State) State := do
  let requested := (head &&& 63).toUInt64
  let ring : Ring Item := .new requested 8
  let s : State := ⟨ring, [], 0, [.capacity ring.capacity, .new requested 8]⟩
  if ring.capacity < 2 ∨ ring.capacity &&& (ring.capacity - 1) ≠ 0 then throw (.capacity, s)
  let s ← data.foldlM State.feed s
  s.finish (ring.capacity + 1)

/-- Exercises a ring as a byte string directs. Without a byte nothing is done. -/
def run : Bytes → Report
  | [] => ⟨[], Option.none⟩
  | head :: data =>
    match steps head data with
    | .ok s => ⟨s.calls.reverse, Option.none⟩
    | .error (check, s) => ⟨s.calls.reverse, some check⟩

end EngineBridge.Queue.Exercise
