import EngineBridge.Proofs.Serving

/-! What stops an action that cannot tick is a panic, and the guard around application code holds that. -/

namespace EngineBridge
open EngineBridge.Action Registry
variable {δ ω α β : Type}

namespace Action

/-- Whatever stops an action is a panic. -/
def Contained (a : Action δ ω α) : Prop := ∀ s t, a.exec s ≠ (.error .overrun, t)

namespace Contained

theorem pure (x : α) : (pure x : Action δ ω α).Contained := fun _ _ he => by cases he

theorem raise (message : String) : (raise message : Action δ ω α).Contained := fun _ _ he => by cases he

theorem worker : (worker : Action δ ω (Worker δ ω)).Contained := fun _ _ he => by cases he

theorem modifyWorker (f : Worker δ ω → Worker δ ω) : (modifyWorker f).Contained := fun _ _ he => by cases he

theorem shared (f : Shared δ ω → α × Shared δ ω) : (shared f).Contained := fun _ _ he => by cases he

theorem record (e : Entry) : (record e : Action δ ω Unit).Contained := fun _ _ he => by cases he

theorem bind {a : Action δ ω α} {f : α → Action δ ω β} (ha : a.Contained) (hf : ∀ x, (f x).Contained) :
    (a >>= f).Contained := by
  intro s t he
  rw [exec_bind] at he
  rcases hr : a.exec s with ⟨e | x, u⟩ <;> rw [hr] at he
  · cases he
    exact ha s t hr
  · exact hf x u t he

theorem map {a : Action δ ω α} {f : α → β} (ha : a.Contained) : (f <$> a).Contained := by
  rw [map_eq_pure_bind]
  exact ha.bind fun x => pure (f x)

theorem discard {a : Action δ ω α} (ha : a.Contained) : (discard a).Contained := map ha

theorem onPanic {a : Action δ ω α} {cleanup : Action δ ω Unit} (ha : a.Contained) (hc : cleanup.Contained) :
    (a.onPanic cleanup).Contained := by
  intro s t he
  unfold Action.onPanic at he
  rw [exec_tryCatch] at he
  rcases hr : a.exec s with ⟨(message | _) | x, u⟩ <;> rw [hr] at he
  · exact (hc.bind fun _ => raise message) u t he
  · exact ha s u hr
  · cases he

end Contained

/-- What an action has come to, with its panic held, if it has been stopped by panics only. -/
def held : Except Stop α → Except String α
  | .ok x => .ok x
  | .error (.panic message) => .error message
  | .error .overrun => .error ""

namespace Contained
variable {h : Host δ ω}

theorem exec_hold {a : Action δ ω α} (ha : a.Contained) (s : State δ ω) :
    a.hold.exec s = (.ok (held (a.exec s).1), (a.exec s).2) := by
  unfold hold
  rw [exec_tryCatch, exec_bind]
  rcases hr : a.exec s with ⟨(message | _) | x, t⟩
  · rfl
  · exact absurd hr (ha s t)
  · rfl

/-- What application code comes to under a guard, if that has been stopped by panics only. -/
theorem exec_guarded {a : Action δ ω (Except Fault α)} (ha : a.Contained) (s : State δ ω) :
    (h.guarded a).exec s = (h.explained (held (a.exec s).1), (a.exec s).2) := by
  unfold Host.guarded
  rw [exec_bind_of_ok (ha.exec_hold s), h.exec_explain]

theorem exec_guarded_bind {a : Action δ ω (Except Fault α)} {f : Except String α → Action δ ω β} (ha : a.Contained)
    (s : State δ ω) : (h.guarded a >>= f).exec s = (h.explain (held (a.exec s).1) >>= f).exec (a.exec s).2 := by
  rw [exec_bind, exec_bind, ha.exec_guarded, h.exec_explain]

theorem guarded {a : Action δ ω (Except Fault α)} (ha : a.Contained) : (h.guarded a).Contained := by
  intro s t he
  rw [ha.exec_guarded] at he
  unfold Host.explained at he
  split at he
  · cases he
  · split at he <;> cases he
  · cases he

/-- What follows an action whether it ends or panics is done once, if panics only stop the action. -/
theorem exec_ensuring {a : Action δ ω α} {cleanup : Action δ ω Unit} {f : State δ ω → State δ ω}
    (ha : a.Contained) (hc : ∀ s, cleanup.exec s = (.ok (), f s)) (s : State δ ω) :
    (a.ensuring cleanup).exec s = ((a.exec s).1, f (a.exec s).2) := by
  unfold ensuring
  rcases hr : a.exec s with ⟨(message | _) | x, t⟩
  · exact exec_bind_of_error (exec_onPanic_of_panic hr (hc t))
  · exact absurd hr (ha s t)
  · rw [exec_bind_of_ok (exec_onPanic_of_ok hr), exec_bind_of_ok (hc t)]
    rfl

end Contained
end Action

/-! ### Faults without a text -/

namespace Host
variable {h : Host δ ω} {a : Action δ ω (Except Fault α)} {s : State δ ω} {message : String}

/-- Application code returns a fault whose text cannot be made, and this is the panic of its making. -/
def Stumbles (h : Host δ ω) (a : Action δ ω (Except Fault α)) (s : State δ ω) (message : String) : Prop :=
  ∃ f, (a.exec s).1 = .ok (.error f) ∧ h.text f = .error message

theorem stumbles_iff : h.Stumbles a s message ↔ h.explained (held (a.exec s).1) = .error (.panic message) := by
  constructor
  · rintro ⟨f, hx, htext⟩
    rw [hx]
    exact explained_of_stumble htext
  · intro hx
    obtain ⟨f, message', hheld, htext, hstop⟩ := h.explained_eq_error hx
    cases hstop
    rcases he : (a.exec s).1 with (_ | _) | _ <;> rw [he] at hheld <;> cases hheld
    exact ⟨f, he, htext⟩

theorem exists_explained (hn : ∀ message, ¬h.Stumbles a s message) :
    ∃ result, h.explained (held (a.exec s).1) = .ok result := by
  cases hx : h.explained (held (a.exec s).1) with
  | ok result => exact ⟨result, rfl⟩
  | error stop =>
    obtain ⟨-, message, -, -, rfl⟩ := h.explained_eq_error hx
    exact absurd (stumbles_iff.mpr hx) (hn message)

/-- A guard around application code, and what follows it. -/
theorem leaves_guarded_bind {f : Except String α → Action δ ω β} {P : State δ ω → Prop} (ha : a.Contained)
    (hok : ∀ result, (f result).Leaves P (a.exec s).2)
    (hstumbles : ∀ message, h.Stumbles a s message → P (a.exec s).2) :
    (h.guarded a >>= f).Leaves P s := by
  unfold Leaves
  rw [ha.exec_guarded_bind]
  exact leaves_explain_bind (fun result _ => hok result) fun message hx => hstumbles message (stumbles_iff.mpr hx)

theorem Displays.not_stumbles (hd : h.Displays) : ¬h.Stumbles a s message := by
  rintro ⟨f, -, htext⟩
  obtain ⟨text, htext'⟩ := hd f
  cases htext.symm.trans htext'

end Host

/-! ### The engine and the log -/

namespace Action.Contained
variable {h : Host δ ω}

theorem call (serial : Option Nat) (c : Call) : (h.call serial c).Contained := by
  intro s t he
  rw [h.exec_call] at he
  rcases hr : (h.engine c s.shared.world).1 with message | x <;> rw [hr] at he <;> cases he

theorem log (notice : Log.Notice) (req : Option ReqId) : (h.log notice req).Contained := by
  refine worker.bind fun w => ?_
  split
  · refine (record _).bind fun _ => ?_
    split
    · refine (shared _).bind fun x => ?_
      split
      · exact pure _
      · exact raise _
    · exact call _ _
  · exact pure _

theorem failedCount : (Host.failedCount : Action δ ω UInt64).Contained := fun _ _ he => by cases he

end Action.Contained
end EngineBridge
