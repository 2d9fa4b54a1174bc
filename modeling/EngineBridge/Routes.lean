import EngineBridge.Code.Basic

/-! The table of application callbacks: handlers by the number of their location, resolvers by the
    number of the pool of servers whose peers they pick. It is built once. -/

namespace EngineBridge

/-- The callbacks of an application. -/
structure Routes (δ ω : Type) where
  handlers : Std.ExtTreeMap UInt64 (Callback δ ω)
  resolvers : Std.ExtTreeMap UInt64 (Resolver δ ω)

/-- One entry of the table. -/
inductive Route (δ ω : Type)
  | handler (location : UInt64) (code : Callback δ ω)
  | resolver (pool : UInt64) (code : Resolver δ ω)

namespace Routes
variable {δ ω : Type}

/-- The table without entries. -/
def empty : Routes δ ω := ⟨∅, ∅⟩

/-- The handler of a location. -/
def handler? (r : Routes δ ω) (location : UInt64) : Option (Callback δ ω) := r.handlers[location]?

/-- The resolver of a pool. -/
def resolver? (r : Routes δ ω) (pool : UInt64) : Option (Resolver δ ω) := r.resolvers[pool]?

/-- A table being built, with the first number found taken, if there is one. -/
structure Builder (δ ω : Type) where
  routes : Routes δ ω
  duplicate : Option Error

namespace Builder

/-- A table being built, without entries. -/
def new : Builder δ ω := ⟨.empty, none⟩

/-- Adds an entry. Of the entries whose number is taken the first one is remembered. -/
def add (b : Builder δ ω) : Route δ ω → Builder δ ω
  | .handler location code =>
    { routes := { b.routes with handlers := b.routes.handlers.insert location code }
      duplicate :=
        if b.routes.handlers.contains location then
          b.duplicate.or (some (.duplicateRoute "handler" location))
        else b.duplicate }
  | .resolver pool code =>
    { routes := { b.routes with resolvers := b.routes.resolvers.insert pool code }
      duplicate :=
        if b.routes.resolvers.contains pool then
          b.duplicate.or (some (.duplicateRoute "resolver" pool))
        else b.duplicate }

/-- The finished table, unless a number was taken twice. -/
def build (b : Builder δ ω) : Except Error (Routes δ ω) :=
  match b.duplicate with
  | some e => .error e
  | none => .ok b.routes

end Builder

/-- The table with the given entries. -/
def ofList (entries : List (Route δ ω)) : Except Error (Routes δ ω) :=
  (entries.foldl Builder.add .new).build

end Routes
end EngineBridge
