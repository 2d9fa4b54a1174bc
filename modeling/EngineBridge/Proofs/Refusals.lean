import EngineBridge.Proofs.Responding

/-! Calls on a response that come at the wrong time. Whether one does depends on whether the request is over
    and on whether the body or its last chunk has been handed over before. Such a call is refused before
    anything is done; what is said of a call that is not refused is the engine's own error, if any. -/

namespace EngineBridge
open EngineBridge.Action Registry Response
variable {δ ω α β : Type} {h : Host δ ω} {s t u : State δ ω} {k : Nat} {r : Registration} {c : RequestCall}

/-! ### Refusing -/

/-- Errors that refuse a call on a response. -/
def Error.refuses : Error → Bool
  | finalized _ | headersSent | ended | emptyChunk => true
  | engine _ _ | duplicateRoute _ _ | config _ | spawn _ => false

/-- The error with which a call on a response has been refused, if it has been. -/
def Error.refusal? : Except Stop (Except Error α) → Option Error
  | .ok (.error e) => if e.refuses then some e else none
  | _ => none

theorem Error.refusal?_error (e : Error) :
    Error.refusal? (.ok (.error e) : Except Stop (Except Error α)) = if e.refuses then some e else none := rfl

namespace RequestCall

/-- Calls that hand over a chunk of the body. -/
def writes : RequestCall → Bool
  | send _ _ | sendShared _ _ | conclude _ | concludeShared _ => true
  | _ => false

/-- Calls that hand over the last chunk of the body. -/
def concludes : RequestCall → Bool
  | conclude _ | concludeShared _ => true
  | _ => false

/-- The error with which a call on a request has been refused, if it has been. -/
def refusal? : (c : RequestCall) → Except Stop c.Result → Option Error
  | setStatus _, x | addHeader _ _, x | send _ _, x | sendShared _ _, x => Error.refusal? x
  | conclude _, x | concludeShared _, x => Error.refusal? x
  | _, _ => none

/-- Why a call on a request comes at the wrong time: the request is over, its last chunk has been handed over
    already, or some chunk has been and it is too late for status and headers, or there is nothing to hand
    over. Of several reasons the first one counts. -/
def untimely? (req : ReqId) (closed begun ended : Bool) : RequestCall → Option Error
  | setStatus _ | addHeader _ _ =>
    if closed then some (.finalized req) else if ended then some .ended
    else if begun then some .headersSent else none
  | send data _ | sendShared data _ =>
    if closed then some (.finalized req) else if ended then some .ended
    else if data = [] then some .emptyChunk else none
  | conclude _ | concludeShared _ => if closed then some (.finalized req) else if ended then some .ended else none
  | _ => none

end RequestCall

/-- The error with which a call on the request in a slot is refused, if it is. -/
def Host.refusal? (h : Host δ ω) (s : State δ ω) (k : Nat) (c : RequestCall) : Option Error :=
  c.refusal? ((h.answer k c).exec s).1

/-! ### The checks -/

namespace Registration

/-- Why a call on a registered request comes at the wrong time. -/
def objection (r : Registration) (c : RequestCall) : Option Error :=
  c.untimely? r.id (r.phase = .finalized) (r.headersSent || r.ended) r.ended

theorem checkWritable_eq (r : Registration) (data : Bytes) :
    r.checkWritable = (r.objection (.conclude data)).elim (.ok ()) .error := by
  simp only [checkWritable, checkLive, objection, RequestCall.untimely?, decide_eq_true_eq]
  split
  · rfl
  · split <;> rfl

theorem checkHeaderOpen_eq (r : Registration) (code : UInt16) :
    r.checkHeaderOpen = (r.objection (.setStatus code)).elim (.ok ()) .error := by
  simp only [checkHeaderOpen, checkWritable, checkLive, objection, RequestCall.untimely?, decide_eq_true_eq]
  split
  · rfl
  · cases r.ended <;> cases r.headersSent <;> rfl

/-- A piece is refused for the same reasons as the last chunk, and if it is empty. -/
theorem objection_sendShared (r : Registration) (data : Bytes) (flush : Bool) :
    r.objection (.sendShared data flush) =
      (r.objection (.conclude data)).or (if data = [] then some .emptyChunk else none) := by
  simp only [objection, RequestCall.untimely?]
  split
  · rfl
  · split <;> rfl

theorem writable_of_objection {data : Bytes} {flush : Bool} (ho : r.objection (.sendShared data flush) = none) :
    r.checkWritable = .ok () ∧ ¬data.isEmpty := by
  rw [r.objection_sendShared, Option.or_eq_none_iff] at ho
  refine ⟨by rw [r.checkWritable_eq data, ho.1]; rfl, fun hd => ?_⟩
  simp [List.isEmpty_iff.mp hd] at ho

/-- A chunk is not refused only while the request is open and its last chunk has not been handed over. -/
theorem open_of_objection (hc : c.writes) (ho : r.objection c = none) : r.phase ≠ .finalized ∧ r.ended = false := by
  cases c with
  | send | sendShared | conclude | concludeShared =>
    simp only [objection, RequestCall.untimely?, decide_eq_true_eq] at ho
    by_cases hp : r.phase = .finalized
    · simp [hp] at ho
    · exact ⟨hp, Bool.eq_false_iff.mpr fun he => by simp [hp, he] at ho⟩
  | _ => cases hc

end Registration

/-! ### Calls that come at the wrong time -/

namespace Host

theorem exec_setStatus_of_objection {e : Error} {code : UInt16} (hr : s.worker.requests.get? k = some r)
    (he : r.objection (.setStatus code) = some e) : (h.setStatus k code).exec s = (.ok (.error e), s) := by
  unfold setStatus
  rw [exec_bind_of_ok (exec_registration_of_some hr), r.checkHeaderOpen_eq code, he]
  rfl

theorem exec_addHeader_of_objection {e : Error} {name value : String} (hr : s.worker.requests.get? k = some r)
    (he : r.objection (.addHeader name value) = some e) :
    (h.addHeader k name value).exec s = (.ok (.error e), s) := by
  have he : r.objection (.setStatus 0) = some e := he
  unfold addHeader
  rw [exec_bind_of_ok (exec_registration_of_some hr), r.checkHeaderOpen_eq 0, he]
  rfl

theorem exec_sendShared_of_objection {e : Error} {data : Bytes} {flush : Bool}
    (hr : s.worker.requests.get? k = some r) (he : r.objection (.sendShared data flush) = some e) :
    (h.sendShared k data flush).exec s = (.ok (.error e), s) := by
  unfold sendShared
  rw [exec_bind_of_ok (exec_registration_of_some hr), r.checkWritable_eq data]
  rw [r.objection_sendShared] at he
  rcases hw : r.objection (.conclude data) with _ | e'
  · rw [hw, Option.none_or] at he
    split at he
    · next hd =>
      cases he
      subst hd
      rfl
    · cases he
  · rw [hw, Option.some_or] at he
    cases he
    rfl

theorem exec_conclude_of_objection {e : Error} {data : Bytes} (hr : s.worker.requests.get? k = some r)
    (he : r.objection (.conclude data) = some e) : (h.conclude k data).exec s = (.ok (.error e), s) := by
  unfold conclude
  rw [exec_bind_of_ok (exec_registration_of_some hr), r.checkWritable_eq data, he]
  rfl

/-- Sending a copy comes to the same as sending what is shared. -/
theorem exec_send_eq (h : Host δ ω) (s : State δ ω) (k : Nat) (data : Bytes) (flush : Bool) :
    (h.send k data flush).exec s = (h.sendShared k data flush).exec s := by
  unfold send
  split
  · next hd =>
    unfold sendShared
    cases hr : s.worker.requests.get? k with
    | none =>
      rw [exec_bind_of_error (exec_registration_of_none hr), exec_bind_of_error (exec_registration_of_none hr)]
    | some r =>
      rw [exec_bind_of_ok (exec_registration_of_some hr), exec_bind_of_ok (exec_registration_of_some hr)]
      split
      · rfl
      · rw [if_pos hd]
  · rfl

end Host

/-! ### Calls that come at the right time -/

/-- No error that comes out is one that refuses a call. -/
def Action.Passes (a : Action δ ω (Except Error α)) : Prop := ∀ s, Error.refusal? (a.exec s).1 = none

namespace Action.Passes

theorem ok (x : α) : (pure (.ok x) : Action δ ω (Except Error α)).Passes := fun _ => rfl

theorem bind {a : Action δ ω β} {f : β → Action δ ω (Except Error α)} (hf : ∀ x, (f x).Passes) :
    (a >>= f).Passes := by
  intro s
  rw [exec_bind]
  rcases a.exec s with ⟨_ | x, t⟩
  · rfl
  · exact hf x t

/-- What the engine answers refuses nothing. -/
theorem engine (a : Action δ ω (Except EngineError α)) (operation : String) :
    (do return (← a).mapError (.engine operation) : Action δ ω (Except Error α)).Passes :=
  bind fun x _ => by cases x <;> rfl

/-- Goes on unless there has been an error. -/
theorem andThen {a : Action δ ω (Except Error Unit)} {b : Action δ ω (Except Error α)} (ha : a.Passes)
    (hb : b.Passes) : Action.Passes (do
      match ← a with
      | .error e => return Except.error e
      | .ok () => b) := by
  intro s
  have hs := ha s
  rw [exec_bind]
  rcases hx : a.exec s with ⟨_ | e | _, t⟩ <;> rw [hx] at hs
  · rfl
  · exact (Error.refusal?_error e).trans hs
  · exact hb t

variable (h : Host δ ω)

theorem ensureHeaderSent : (h.ensureHeaderSent k).Passes := by
  refine bind fun r => ?_
  split
  · exact ok ()
  · exact bind fun _ => engine _ _

theorem outputLast (data : Bytes) : (h.outputLast r data).Passes :=
  bind fun x _ => by cases x <;> rfl

end Action.Passes

namespace Host
variable (h : Host δ ω)

theorem passes_of_no_objection (hr : s.worker.requests.get? k = some r) (hc : r.objection c = none) :
    h.refusal? s k c = none := by
  have run : ∀ {γ : Type} {f : Registration → Action δ ω (Except Error γ)}, (f r).Passes →
      Error.refusal? ((registration k >>= f).exec s).1 = none := fun hf => by
    rw [exec_bind_of_ok (exec_registration_of_some hr)]
    exact hf s
  have send : ∀ {data flush}, r.objection (.sendShared data flush) = none →
      Error.refusal? ((h.sendShared k data flush).exec s).1 = none := fun hc => by
    obtain ⟨hw, hd⟩ := r.writable_of_objection hc
    refine run ?_
    rw [hw]
    dsimp only
    rw [if_neg hd]
    exact .andThen (.ensureHeaderSent h) (.engine _ _)
  have conclude : ∀ {data}, r.objection (.conclude data) = none →
      Error.refusal? ((h.conclude k data).exec s).1 = none := fun {data} hc => by
    refine run ?_
    rw [r.checkWritable_eq data, hc]
    refine .bind fun _ => ?_
    split
    · exact .outputLast h data
    · refine .bind fun _ => .andThen (.ensureHeaderSent h) ?_
      split
      · exact .ok _
      · exact .outputLast h data
  cases c with
  | setStatus code =>
    refine run ?_
    rw [r.checkHeaderOpen_eq code, hc]
    exact .bind fun _ => .ok ()
  | addHeader name value =>
    refine run ?_
    have hc : r.objection (.setStatus 0) = none := hc
    rw [r.checkHeaderOpen_eq 0, hc]
    exact .engine _ _
  | send data flush =>
    show Error.refusal? ((h.send k data flush).exec s).1 = none
    rw [h.exec_send_eq]
    exact send hc
  | sendShared data flush => exact send hc
  | conclude data => exact conclude hc
  | concludeShared data => exact conclude hc
  | _ => rfl

theorem refused_of_exec {a : Action δ ω (Except Error α)} {e : Error} (he : e.refuses)
    (ha : a.exec s = (.ok (.error e), s)) : Error.refusal? (a.exec s).1 = some e ∧ (a.exec s).2 = s := by
  rw [ha]
  exact ⟨(Error.refusal?_error e).trans (if_pos he), rfl⟩

/-- A call to which there is something to object is refused for that, and nothing else happens. -/
theorem refused_of_objection {e : Error} (hr : s.worker.requests.get? k = some r) (he : r.objection c = some e) :
    h.refusal? s k c = some e ∧ ((h.answer k c).exec s).2 = s := by
  have hrefuses : e.refuses := by
    cases c with
    | setStatus | addHeader | send | sendShared | conclude | concludeShared =>
      simp only [Registration.objection, RequestCall.untimely?] at he
      grind [Error.refuses]
    | _ => cases he
  cases c with
  | setStatus code => exact refused_of_exec hrefuses (exec_setStatus_of_objection hr he)
  | addHeader name value => exact refused_of_exec hrefuses (exec_addHeader_of_objection hr he)
  | send data flush =>
    exact refused_of_exec hrefuses ((h.exec_send_eq s k data flush).trans (exec_sendShared_of_objection hr he))
  | sendShared data flush => exact refused_of_exec hrefuses (exec_sendShared_of_objection hr he)
  | conclude data => exact refused_of_exec hrefuses (exec_conclude_of_objection hr he)
  | concludeShared data =>
    have he : r.objection (.conclude data) = some e := he
    exact refused_of_exec hrefuses (exec_conclude_of_objection hr he)
  | _ => cases he

/-- A call is refused just for what there is to object to it. -/
theorem refusal?_eq (hr : s.worker.requests.get? k = some r) (c : RequestCall) :
    h.refusal? s k c = r.objection c := by
  cases he : r.objection c with
  | none => exact h.passes_of_no_objection hr he
  | some e => exact (h.refused_of_objection hr he).1

end Host
end EngineBridge
