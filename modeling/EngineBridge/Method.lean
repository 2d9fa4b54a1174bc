/-! Request methods, which the engine reports as a word of bits. -/

namespace EngineBridge

/-- The method of a request. -/
inductive Method
  | unknown
  | get
  | head
  | post
  | put
  | delete
  | mkcol
  | copy
  | move
  | options
  | propfind
  | proppatch
  | lock
  | unlock
  | patch
  | trace
  | connect
deriving DecidableEq, Repr

namespace Method

/-- The methods in the order in which the engine looks for their bits. -/
def all : List Method :=
  [unknown, get, head, post, put, delete, mkcol, copy, move, options, propfind, proppatch, lock,
    unlock, patch, trace, connect]

/-- The bit of a method, one bit for each in the order of `all`. -/
def mask : Method → UInt32
  | unknown => 0x00001
  | get => 0x00002
  | head => 0x00004
  | post => 0x00008
  | put => 0x00010
  | delete => 0x00020
  | mkcol => 0x00040
  | copy => 0x00080
  | move => 0x00100
  | options => 0x00200
  | propfind => 0x00400
  | proppatch => 0x00800
  | lock => 0x01000
  | unlock => 0x02000
  | patch => 0x04000
  | trace => 0x08000
  | connect => 0x10000

/-- The name of a method. -/
def name : Method → String
  | unknown => "Unknown"
  | get => "Get"
  | head => "Head"
  | post => "Post"
  | put => "Put"
  | delete => "Delete"
  | mkcol => "Mkcol"
  | copy => "Copy"
  | move => "Move"
  | options => "Options"
  | propfind => "Propfind"
  | proppatch => "Proppatch"
  | lock => "Lock"
  | unlock => "Unlock"
  | patch => "Patch"
  | trace => "Trace"
  | connect => "Connect"

/-- The first method whose bit is set, and `unknown` if none is. -/
def ofMask (mask : UInt32) : Method := (all.find? fun m => mask &&& m.mask != 0).getD unknown

theorem mem_all (m : Method) : m ∈ all := by cases m <;> decide

theorem ofMask_mask (m : Method) : ofMask m.mask = m := by cases m <;> decide

end Method
end EngineBridge
