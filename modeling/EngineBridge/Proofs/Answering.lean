import EngineBridge.Proofs.Deeds

/-! Whatever application code asks of its request, it is answered in steps of four kinds: the registration is read,
    flags and data are kept in it, the engine is called on behalf of it, and lines are logged. What holds of
    these steps and of actions made of such holds of every answer. -/

namespace EngineBridge

/-- What has been read for a registration. -/
def Registration.memory (r : Registration) : Option String × Option (List (String × String)) × Option Bytes :=
  (r.uri, r.headers, r.body)

namespace Host
open EngineBridge.Action Registry
variable {δ ω α : Type} {h : Host δ ω} {k : Nat} {r : Registration}

/-- Something holds of the steps that are taken for the registration in a slot, of which something is known, and of
    actions that are made of such steps. -/
structure Answering (h : Host δ ω) (k : Nat) (known : Registration → Prop)
    (J : ∀ {α : Type}, Action δ ω α → Prop) : Prop where
  pure : ∀ {α : Type} (x : α), J (pure x)
  bind : ∀ {α β : Type} {a : Action δ ω α} {f : α → Action δ ω β}, J a → (∀ x, J (f x)) → J (a >>= f)
  registration : ∀ {α : Type} {f : Registration → Action δ ω α}, (∀ r, known r → J (f r)) → J (registration k >>= f)
  keep : ∀ {f : Registration → Registration}, (∀ r, (f r).course = r.course) → J (modifyRegistration k f)
  call : ∀ {r c}, known r → c.req? = some r.id → c.branches = false → J (h.call (some r.serial) c)
  bodyInFile : ∀ req, J (h.log .bodyInFile req)
  application : ∀ level text req, J (h.log (.application level text) req)

/-! ### Calls of which nothing is remembered -/

/-- Something holds of the steps in which the calls are answered that leave what has been read as it is. -/
structure Forgetful (h : Host δ ω) (k : Nat) (known : Registration → Prop)
    (J : ∀ {α : Type}, Action δ ω α → Prop) : Prop where
  pure : ∀ {α : Type} (x : α), J (pure x)
  bind : ∀ {α β : Type} {a : Action δ ω α} {f : α → Action δ ω β}, J a → (∀ x, J (f x)) → J (a >>= f)
  registration : ∀ {α : Type} {f : Registration → Action δ ω α}, (∀ r, known r → J (f r)) → J (registration k >>= f)
  mark : ∀ {f : Registration → Registration}, (∀ r, (f r).course = r.course) → (∀ r, (f r).memory = r.memory) →
    J (modifyRegistration k f)
  call : ∀ {r c}, known r → c.req? = some r.id → c.branches = false → J (h.call (some r.serial) c)

namespace Forgetful
variable {known : Registration → Prop} {J : ∀ {α : Type}, Action δ ω α → Prop} (hj : h.Forgetful k known J)
include hj

theorem method : J (h.method k) :=
  hj.registration fun _ hr => hj.bind (hj.call hr rfl rfl) fun _ => hj.pure _

theorem args : J (h.args k) :=
  hj.registration fun _ hr => hj.bind (hj.call hr rfl rfl) fun _ => hj.pure _

theorem setStatus (code : UInt16) : J (h.setStatus k code) := by
  refine hj.registration fun r hr => ?_
  split
  · exact hj.pure _
  · exact hj.bind (hj.call hr rfl rfl) fun _ => hj.pure _

theorem addHeader (name value : String) : J (h.addHeader k name value) := by
  refine hj.registration fun r hr => ?_
  split
  · exact hj.pure _
  · exact hj.bind (hj.call hr rfl rfl) fun _ => hj.pure _

theorem ensureHeaderSent : J (h.ensureHeaderSent k) := by
  refine hj.registration fun r hr => ?_
  split
  · exact hj.pure _
  · exact hj.bind (hj.mark (fun _ => rfl) fun _ => rfl) fun _ => hj.bind (hj.call hr rfl rfl) fun _ => hj.pure _

theorem sendShared (data : Bytes) (flush : Bool) : J (h.sendShared k data flush) := by
  refine hj.registration fun r hr => ?_
  split
  · exact hj.pure _
  · split
    · exact hj.pure _
    · refine hj.bind hj.ensureHeaderSent fun sent => ?_
      split
      · exact hj.pure _
      · exact hj.bind (hj.call hr rfl rfl) fun _ => hj.pure _

theorem send (data : Bytes) (flush : Bool) : J (h.send k data flush) := by
  unfold Host.send
  split
  · refine hj.registration fun r hr => ?_
    split <;> exact hj.pure _
  · exact hj.sendShared data flush

theorem outputLast (hr : known r) (data : Bytes) : J (h.outputLast r data) :=
  hj.bind (hj.call hr rfl rfl) fun _ => hj.pure _

theorem announce (hr : known r) (data : Bytes) : J (h.announce r data) := by
  refine hj.bind (hj.call hr rfl rfl) fun _ => ?_
  split
  · exact hj.call hr rfl rfl
  · exact hj.pure _

theorem conclude (data : Bytes) : J (h.conclude k data) := by
  refine hj.registration fun r hr => ?_
  split
  · exact hj.pure _
  · refine hj.bind (hj.mark (fun _ => rfl) fun _ => rfl) fun _ => ?_
    split
    · exact hj.outputLast hr data
    · refine hj.bind (hj.announce hr data) fun _ => hj.bind hj.ensureHeaderSent fun sent => ?_
      split
      · exact hj.pure _
      · split
        · exact hj.pure _
        · exact hj.outputLast hr data

end Forgetful

/-! ### All calls -/

namespace Answering
variable {known : Registration → Prop} {J : ∀ {α : Type}, Action δ ω α → Prop} (hj : h.Answering k known J)
include hj

theorem uri : J (h.uri k) := by
  refine hj.registration fun r hr => ?_
  split
  · exact hj.pure _
  · exact hj.bind (hj.call hr rfl rfl) fun _ => hj.bind (hj.keep fun _ => rfl) fun _ => hj.pure _

theorem headers : J (h.headers k) := by
  refine hj.registration fun r hr => ?_
  split
  · exact hj.pure _
  · exact hj.bind (hj.call hr rfl rfl) fun _ => hj.bind (hj.keep fun _ => rfl) fun _ => hj.pure _

theorem header (name : String) : J (h.header k name) := hj.bind hj.headers fun _ => hj.pure _

theorem readBody (hr : known r) : J (h.readBody r) := by
  refine hj.bind (hj.call hr rfl rfl) fun buffers => ?_
  split
  · exact hj.bind (hj.bodyInFile _) fun _ => hj.pure _
  · exact hj.bind (hj.call hr rfl rfl) fun _ => hj.pure _

theorem body : J (h.body k) := by
  refine hj.registration fun r hr => ?_
  split
  · exact hj.pure _
  · exact hj.bind (hj.readBody hr) fun _ => hj.bind (hj.keep fun _ => rfl) fun _ => hj.pure _

theorem forgetful : h.Forgetful k known J where
  pure := hj.pure
  bind := hj.bind
  registration := hj.registration
  mark hf _ := hj.keep hf
  call := hj.call

theorem answer (c : RequestCall) : J (h.answer k c) := by
  cases c with
  | id | phase | isAnchor | resumer => exact hj.registration fun _ _ => hj.pure _
  | method => exact hj.forgetful.method
  | uri => exact hj.uri
  | args => exact hj.forgetful.args
  | headers => exact hj.headers
  | header name => exact hj.header name
  | body => exact hj.body
  | setStatus code => exact hj.forgetful.setStatus code
  | addHeader name value => exact hj.forgetful.addHeader name value
  | send data flush => exact hj.forgetful.send data flush
  | sendShared data flush => exact hj.forgetful.sendShared data flush
  | conclude data | concludeShared data => exact hj.forgetful.conclude data
  | log level text => exact hj.registration fun r _ => hj.application level text (some r.id)

end Answering
end Host
end EngineBridge
