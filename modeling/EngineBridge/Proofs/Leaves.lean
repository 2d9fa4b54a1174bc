import EngineBridge.Worker.Tick

/-! What an action comes to, and what holds of the state it leaves. An action that is stopped by a panic
    leaves a state too, so a property of the state left is kept by each part of an action before it can
    be kept by the whole. -/

namespace EngineBridge
open Registry

namespace Action
variable {δ ω α β : Type} {s t : State δ ω}

/-! ### Executing -/

theorem exec_bind (a : Action δ ω α) (f : α → Action δ ω β) :
    (a >>= f).exec s =
      match a.exec s with
      | (.ok x, t) => (f x).exec t
      | (.error e, t) => (.error e, t) := by
  show (ExceptT.run (a >>= f)).run s = _
  simp only [ExceptT.run_bind, StateT.run_bind, exec]
  rcases (a.run.run s : Except Stop α × State δ ω) with ⟨_ | _, t⟩ <;> rfl

theorem exec_bind_of_ok {a : Action δ ω α} {f : α → Action δ ω β} {x : α} (ha : a.exec s = (.ok x, t)) :
    (a >>= f).exec s = (f x).exec t := by
  rw [exec_bind, ha]

theorem exec_bind_of_error {a : Action δ ω α} {f : α → Action δ ω β} {e : Stop}
    (ha : a.exec s = (.error e, t)) : (a >>= f).exec s = (.error e, t) := by
  rw [exec_bind, ha]

/-- What comes to an answer has come to one part after the other. -/
theorem exec_bind_eq_ok {a : Action δ ω α} {f : α → Action δ ω β} {y : β} {u : State δ ω}
    (he : (a >>= f).exec s = (.ok y, u)) : ∃ x t, a.exec s = (.ok x, t) ∧ (f x).exec t = (.ok y, u) := by
  rw [exec_bind] at he
  rcases ha : a.exec s with ⟨_ | x, t⟩ <;> rw [ha] at he
  · cases he
  · exact ⟨x, t, rfl, he⟩

@[simp] theorem exec_get : (get : Action δ ω (State δ ω)).exec s = (.ok s, s) := rfl

@[simp] theorem exec_worker : (worker : Action δ ω (Worker δ ω)).exec s = (.ok s.worker, s) := rfl

@[simp] theorem exec_modifyWorker (f : Worker δ ω → Worker δ ω) :
    (modifyWorker f).exec s = (.ok (), { s with worker := f s.worker }) := rfl

@[simp] theorem exec_shared (f : Shared δ ω → α × Shared δ ω) :
    (shared f).exec s = (.ok (f s.shared).1, { s with shared := (f s.shared).2 }) := rfl

@[simp] theorem exec_record (e : Entry) :
    (record e).exec s = (.ok (), { s with shared := s.shared.record e }) := rfl

theorem exec_tryCatch (a : Action δ ω α) (f : Stop → Action δ ω α) :
    (tryCatch a f).exec s =
      match a.exec s with
      | (.ok x, t) => (.ok x, t)
      | (.error e, t) => (f e).exec t := by
  show (ExceptT.run (ExceptT.tryCatch a f)).run s = _
  simp only [ExceptT.tryCatch, ExceptT.run_mk, StateT.run_bind, exec]
  simp only [ExceptT.run]
  rcases (StateT.run a s : Except Stop α × State δ ω) with ⟨_ | _, t⟩ <;> rfl

theorem exec_onPanic_of_ok {a : Action δ ω α} {cleanup : Action δ ω Unit} {x : α}
    (ha : a.exec s = (.ok x, t)) : (a.onPanic cleanup).exec s = (.ok x, t) := by
  unfold onPanic
  rw [exec_tryCatch, ha]

theorem exec_onPanic_of_panic {a : Action δ ω α} {cleanup : Action δ ω Unit} {u : State δ ω} {message : String}
    (ha : a.exec s = (.error (.panic message), t)) (hc : cleanup.exec t = (.ok (), u)) :
    (a.onPanic cleanup).exec s = (.error (.panic message), u) := by
  unfold onPanic
  rw [exec_tryCatch, ha]
  exact exec_bind_of_ok hc

/-! ### What holds of the state left -/

/-- The state that an action leaves, started in a given state, has a property. -/
def Leaves (a : Action δ ω α) (P : State δ ω → Prop) (s : State δ ω) : Prop := P (a.exec s).2

namespace Leaves
variable {P Q : State δ ω → Prop}

theorem of_exec {a : Action δ ω α} {r : Except Stop α} (ha : a.exec s = (r, t)) (ht : P t) : a.Leaves P s := by
  unfold Leaves
  rw [ha]
  exact ht

theorem exec {a : Action δ ω α} {r : Except Stop α} (ha : a.Leaves P s) (he : a.exec s = (r, t)) : P t := by
  unfold Leaves at ha
  rw [he] at ha
  exact ha

theorem mono {a : Action δ ω α} (ha : a.Leaves P s) (hPQ : ∀ t, P t → Q t) : a.Leaves Q s := hPQ _ ha

theorem pure {x : α} (hs : P s) : (pure x : Action δ ω α).Leaves P s := hs

theorem raise {message : String} (hs : P s) : (raise message : Action δ ω α).Leaves P s := hs

theorem throw {e : Stop} (hs : P s) : (throw e : Action δ ω α).Leaves P s := hs

/-- An action and what follows its answer, which can make use of more than is to be shown. -/
theorem bind_mono {a : Action δ ω α} {f : α → Action δ ω β} (ha : a.Leaves P s) (hPQ : ∀ t, P t → Q t)
    (hf : ∀ x t, a.exec s = (.ok x, t) → P t → (f x).Leaves Q t) : (a >>= f).Leaves Q s := by
  unfold Leaves at ha ⊢
  rw [exec_bind]
  rcases hr : a.exec s with ⟨_ | x, t⟩ <;> rw [hr] at ha
  · exact hPQ t ha
  · exact hf x t hr ha

/-- An action and what follows its answer, the property being carried along. -/
theorem bind {a : Action δ ω α} {f : α → Action δ ω β} (ha : a.Leaves P s)
    (hf : ∀ x t, a.exec s = (.ok x, t) → P t → (f x).Leaves P t) : (a >>= f).Leaves P s :=
  ha.bind_mono (fun _ => id) hf

/-- An action whose answer is known, and what follows it. -/
theorem bind_of_ok {a : Action δ ω α} {f : α → Action δ ω β} {x : α} (ha : a.exec s = (.ok x, t))
    (hf : (f x).Leaves P t) : (a >>= f).Leaves P s := by
  unfold Leaves
  rw [exec_bind_of_ok ha]
  exact hf

theorem map {a : Action δ ω α} {f : α → β} (ha : a.Leaves P s) : (f <$> a).Leaves P s := by
  rw [map_eq_pure_bind]
  exact ha.bind fun _ _ _ ht => pure ht

theorem discard {a : Action δ ω α} (ha : a.Leaves P s) : (discard a).Leaves P s := map ha

theorem tryCatch {a : Action δ ω α} {f : Stop → Action δ ω α} (ha : a.Leaves P s)
    (hf : ∀ e t, a.exec s = (.error e, t) → P t → (f e).Leaves P t) : (tryCatch a f).Leaves P s := by
  unfold Leaves at ha ⊢
  rw [exec_tryCatch]
  rcases hr : a.exec s with ⟨e | _, t⟩ <;> rw [hr] at ha
  · exact hf e t hr ha
  · exact ha

theorem onPanic {a : Action δ ω α} {cleanup : Action δ ω Unit} (ha : a.Leaves P s)
    (hc : ∀ t, P t → cleanup.Leaves P t) : (a.onPanic cleanup).Leaves P s := by
  refine ha.tryCatch fun e t _ ht => ?_
  cases e with
  | panic message => exact (hc t ht).bind fun _ _ _ hu => raise hu
  | overrun => exact throw ht

theorem ensuring {a : Action δ ω α} {cleanup : Action δ ω Unit} (ha : a.Leaves P s)
    (hc : ∀ t, P t → cleanup.Leaves P t) : (a.ensuring cleanup).Leaves P s :=
  (ha.onPanic hc).bind fun _ t _ ht => (hc t ht).bind fun _ _ _ hu => pure hu

theorem hold {a : Action δ ω α} (ha : a.Leaves P s) : a.hold.Leaves P s := by
  refine (ha.bind fun _ _ _ ht => pure ht).tryCatch fun e t _ ht => ?_
  cases e with
  | panic message => exact pure ht
  | overrun => exact throw ht

theorem forM {γ : Type} {f : γ → Action δ ω PUnit} (hf : ∀ x t, P t → (f x).Leaves P t) :
    ∀ (l : List γ) {s : State δ ω}, P s → (l.forM f).Leaves P s
  | [], _, hs => pure hs
  | x :: l, s, hs => (hf x s hs).bind fun _ _ _ ht => forM hf l ht

end Leaves
end Action

/-! ### The guard around application code -/

namespace Host
open EngineBridge.Action
variable {δ ω α : Type} {s : State δ ω}

/-- What a guard makes of what application code has come to: a message that tells of a fault or a panic,
    unless the making of the text of a fault panics. -/
def explained (h : Host δ ω) : Except String (Except Fault α) → Except Stop (Except String α)
  | .ok (.ok result) => .ok (.ok result)
  | .ok (.error f) =>
    match h.text f with
    | .ok text => .ok (.error text)
    | .error message => .error (.panic message)
  | .error message => .ok (.error message)

variable (h : Host δ ω)

section
variable {h} {f : Fault} {text message : String}

theorem explained_of_text (htext : h.text f = .ok text) :
    h.explained (.ok (.error f) : Except String (Except Fault α)) = .ok (.error text) := by
  simp only [explained, htext]

theorem explained_of_stumble (htext : h.text f = .error message) :
    h.explained (.ok (.error f) : Except String (Except Fault α)) = .error (.panic message) := by
  simp only [explained, htext]

end

theorem exec_explain (x : Except String (Except Fault α)) : (h.explain x).exec s = (h.explained x, s) := by
  rcases x with message | f | result
  · rfl
  · unfold explain explained display
    cases htext : h.text f <;> simp only [htext] <;> rfl
  · rfl

/-- It is the text of a fault that cannot be made. -/
theorem explained_eq_error {x : Except String (Except Fault α)} {stop : Stop} (hx : h.explained x = .error stop) :
    ∃ f message, x = .ok (.error f) ∧ h.text f = .error message ∧ stop = .panic message := by
  rcases x with message | f | result
  · cases hx
  · unfold explained at hx
    cases htext : h.text f <;> simp only [htext] at hx <;> cases hx
    exact ⟨f, _, rfl, htext, rfl⟩
  · cases hx

section
variable {h} {β : Type} {x : Except String (Except Fault α)} {f : Except String α → Action δ ω β}

theorem exec_explain_bind_of_ok {result : Except String α} (hx : h.explained x = .ok result) :
    (h.explain x >>= f).exec s = (f result).exec s :=
  exec_bind_of_ok (by rw [h.exec_explain, hx])

theorem exec_explain_bind_of_error {stop : Stop} (hx : h.explained x = .error stop) :
    (h.explain x >>= f).exec s = (.error stop, s) :=
  exec_bind_of_error (by rw [h.exec_explain, hx])

/-- What follows a result, or its message, and what is left where the text of a fault cannot be made. -/
theorem leaves_explain_bind {P : State δ ω → Prop} (hok : ∀ result, h.explained x = .ok result → (f result).Leaves P s)
    (herror : ∀ message, h.explained x = .error (.panic message) → P s) : (h.explain x >>= f).Leaves P s := by
  cases hx : h.explained x with
  | ok result => exact .bind_of_ok (by rw [h.exec_explain, hx]) (hok result hx)
  | error stop =>
    obtain ⟨-, message, -, -, rfl⟩ := h.explained_eq_error hx
    exact .of_exec (exec_explain_bind_of_error hx) (herror message hx)

/-- The application's code never panics when it is to make the text of a fault. -/
def Displays (h : Host δ ω) : Prop := ∀ f, ∃ text, h.text f = .ok text

theorem Displays.explained (hd : h.Displays) (x : Except String (Except Fault α)) :
    ∃ result, h.explained x = .ok result := by
  cases hx : h.explained x with
  | ok result => exact ⟨result, rfl⟩
  | error stop =>
    obtain ⟨f, message, -, htext, -⟩ := h.explained_eq_error hx
    obtain ⟨text, htext'⟩ := hd f
    cases htext.symm.trans htext'

theorem Displays.plain (engine : Engine δ ω) (routes : Routes δ ω) (waker : Waker ω) :
    (plain engine routes waker).Displays := fun f => ⟨f.message, rfl⟩

end

/-- A guard does nothing of its own to the worker. -/
theorem leaves_guarded {a : Action δ ω (Except Fault α)} {P : State δ ω → Prop} (ha : a.Leaves P s) :
    (h.guarded a).Leaves P s :=
  ha.hold.bind fun x _ _ ht => .of_exec (h.exec_explain x) ht

end Host

/-! ### The arena of registrations -/

namespace Registry
open EngineBridge.Action
variable {δ ω : Type} {s : State δ ω} {slot : Nat} {r : Registration}

theorem exec_registration_of_some (hr : s.worker.requests.get? slot = some r) :
    (registration slot).exec s = (.ok r, s) := by
  unfold registration
  rw [exec_bind_of_ok exec_worker, hr]
  rfl

theorem exec_registration_of_none (hr : s.worker.requests.get? slot = none) :
    (registration slot).exec s = (.error (.panic "invalid key"), s) := by
  unfold registration
  rw [exec_bind_of_ok exec_worker, hr]
  rfl

theorem exec_registration_eq_ok {t : State δ ω} (he : (registration slot).exec s = (.ok r, t)) :
    s.worker.requests.get? slot = some r ∧ t = s := by
  cases hr : s.worker.requests.get? slot with
  | none =>
    rw [exec_registration_of_none hr] at he
    cases he
  | some r' =>
    rw [exec_registration_of_some hr] at he
    cases he
    exact ⟨rfl, rfl⟩

/-- Reads the registration in a slot and goes on with it; an empty slot ends the action. -/
theorem leaves_registration {β : Type} {P : State δ ω → Prop} {f : Registration → Action δ ω β} (hs : P s)
    (hf : ∀ r, s.worker.requests.get? slot = some r → (f r).Leaves P s) :
    (registration slot >>= f).Leaves P s := by
  cases hr : s.worker.requests.get? slot with
  | none => exact .of_exec (exec_bind_of_error (exec_registration_of_none hr)) hs
  | some r => exact .bind_of_ok (exec_registration_of_some hr) (hf r hr)

@[simp] theorem exec_freshSerial : (freshSerial : Action δ ω Nat).exec s =
    (.ok s.worker.nextSerial, { s with worker := { s.worker with nextSerial := s.worker.nextSerial + 1 } }) := rfl

@[simp] theorem exec_slotOf? (req : ReqId) : (slotOf? req).exec s = (.ok s.worker.slots[req]?, s) := rfl

/-- The state with the registration in a slot changed. -/
def changed (s : State δ ω) (slot : Nat) (f : Registration → Registration) : State δ ω :=
  { s with worker := { s.worker with requests := s.worker.requests.modify slot f } }

@[simp] theorem exec_modifyRegistration (f : Registration → Registration) :
    (modifyRegistration slot f).exec s = (.ok (), changed s slot f) := rfl

/-- The state with the registration in a slot, which has the given serial number, moved to a phase. -/
def moved (s : State δ ω) (slot serial : Nat) (phase : Phase) : State δ ω :=
  { changed s slot (fun r => { r with phase }) with shared := s.shared.record (.moved serial phase) }

theorem get?_moved (serial : Nat) (phase : Phase) (k : Nat) :
    (moved s slot serial phase).worker.requests.get? k =
      if k = slot then (s.worker.requests.get? k).map fun r => { r with phase } else s.worker.requests.get? k :=
  Arena.get?_modify _ _ _ _

theorem get?_moved_self {phase : Phase} (hr : s.worker.requests.get? slot = some r) :
    (moved s slot r.serial phase).worker.requests.get? slot = some { r with phase } := by
  rw [get?_moved, if_pos rfl, hr]
  rfl

theorem exec_setPhase {phase : Phase} (hr : s.worker.requests.get? slot = some r) :
    (setPhase slot phase).exec s = (.ok (), moved s slot r.serial phase) := by
  unfold setPhase
  rw [exec_bind_of_ok (exec_registration_of_some hr)]
  rfl

/-- The state with a request registered in the next slot, under the next serial number. -/
def registered (s : State δ ω) (req : ReqId) (phase : Phase) (location : Option UInt64) (anchor : Bool) :
    State δ ω where
  worker :=
    { s.worker with
      nextSerial := s.worker.nextSerial + 1
      requests := s.worker.requests.insert { id := req, serial := s.worker.nextSerial, phase, location, anchor }
      slots := s.worker.slots.insert req s.worker.requests.nextSlot }
  shared := s.shared.record (.registered s.worker.nextSerial req s.worker.requests.nextSlot phase)

theorem exec_register (req : ReqId) (phase : Phase) (location : Option UInt64) (anchor : Bool) :
    (register req phase location anchor).exec s =
      (.ok s.worker.requests.nextSlot, registered s req phase location anchor) := rfl

section
variable {req : ReqId} {phase : Phase} {location : Option UInt64} {anchor : Bool}

theorem get?_registered (k : Nat) : (registered s req phase location anchor).worker.requests.get? k =
    if k = s.worker.requests.nextSlot then some { id := req, serial := s.worker.nextSerial, phase, location, anchor }
    else s.worker.requests.get? k :=
  Arena.get?_insert _ _ _

theorem get?_registered_self :
    (registered s req phase location anchor).worker.requests.get? s.worker.requests.nextSlot =
      some { id := req, serial := s.worker.nextSerial, phase, location, anchor } :=
  (get?_registered _).trans (if_pos rfl)

/-- What has been registered before stays where it is. -/
theorem get?_registered_of_some (hr : s.worker.requests.get? slot = some r) :
    (registered s req phase location anchor).worker.requests.get? slot = some r := by
  rw [get?_registered, if_neg, hr]
  rintro rfl
  rw [Arena.get?_nextSlot] at hr
  cases hr

theorem slots_registered (req' : ReqId) : (registered s req phase location anchor).worker.slots[req']? =
    if req = req' then some s.worker.requests.nextSlot else s.worker.slots[req']? :=
  ReqMap.get?_insert _ _ _ _

end

theorem isOpen_iff {req : ReqId} : s.worker.isOpen req = true ↔
    ∃ k r, s.worker.slots[req]? = some k ∧ s.worker.requests.get? k = some r ∧ r.phase ≠ .finalized := by
  unfold Worker.isOpen Worker.registration?
  cases hk : s.worker.slots[req]? with
  | none => simp
  | some k => cases hr : s.worker.requests.get? k <;> simp [hr]

theorem exec_openSlot?_of_open {req : ReqId} (hk : s.worker.slots[req]? = some slot)
    (hr : s.worker.requests.get? slot = some r) (ho : r.phase ≠ .finalized) :
    (openSlot? req).exec s = (.ok (some slot), s) := by
  unfold openSlot?
  rw [exec_bind_of_ok (exec_slotOf? req), hk]
  dsimp only
  rw [exec_bind_of_ok (exec_registration_of_some hr), if_neg ho]
  rfl

/-- A request that is not open has no open slot, where every name leads to a registration. -/
theorem exec_openSlot?_of_not_open {req : ReqId} (ho : s.worker.isOpen req = false)
    (hn : ∀ k, s.worker.slots[req]? = some k → ∃ r, s.worker.requests.get? k = some r) :
    (openSlot? req).exec s = (.ok none, s) := by
  unfold openSlot?
  rw [exec_bind_of_ok (exec_slotOf? req)]
  cases hk : s.worker.slots[req]? with
  | none => rfl
  | some k =>
    obtain ⟨r, hr⟩ := hn k hk
    dsimp only
    rw [exec_bind_of_ok (exec_registration_of_some hr), if_pos]
    · rfl
    · refine Decidable.byContradiction fun hp => ?_
      rw [isOpen_iff.mpr ⟨k, r, hk, hr, hp⟩] at ho
      cases ho

theorem leaves_openSlot? {P : State δ ω → Prop} (hs : P s) (req : ReqId) :
    (openSlot? req : Action δ ω (Option Nat)).Leaves P s := by
  refine .bind_of_ok (exec_slotOf? req) ?_
  split
  · exact leaves_registration hs fun _ _ => .pure hs
  · exact .pure hs

/-- The state without the registration in a slot, to which a request's name led. -/
def removed (s : State δ ω) (req : ReqId) (slot serial : Nat) : State δ ω where
  worker :=
    { s.worker with requests := s.worker.requests.remove slot, slots := s.worker.slots.erase req }
  shared := s.shared.record (.removed serial)

theorem get?_removed (req : ReqId) (serial k : Nat) : (removed s req slot serial).worker.requests.get? k =
    if k = slot then none else s.worker.requests.get? k :=
  Arena.get?_remove _ _ _

theorem slots_removed (req : ReqId) (serial : Nat) (req' : ReqId) :
    (removed s req slot serial).worker.slots[req']? = if req = req' then none else s.worker.slots[req']? :=
  ReqMap.get?_erase _ _ _

theorem exec_unregister_of_none {req : ReqId} (hk : s.worker.slots[req]? = none) :
    (unregister req).exec s = (.ok (), s) := by
  unfold unregister
  rw [exec_bind_of_ok exec_worker, hk]
  rfl

theorem exec_unregister_of_some {req : ReqId} {r : Registration} (hk : s.worker.slots[req]? = some slot)
    (hr : s.worker.requests.get? slot = some r) :
    (unregister req).exec s = (.ok (), removed s req slot r.serial) := by
  unfold unregister
  rw [exec_bind_of_ok exec_worker, hk]
  exact (exec_bind_of_ok (exec_registration_of_some hr)).trans rfl

end Registry
end EngineBridge
