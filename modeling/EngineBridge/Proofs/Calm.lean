import EngineBridge.Proofs.Course
import EngineBridge.Proofs.Lifecycle
import EngineBridge.Proofs.Reach

/-! What holds when neither the engine nor the logger panics. Every subrequest that has not completed has
    a child then, and the calls of the engine and of the logger come to their end. -/

namespace EngineBridge
open EngineBridge.Action Registry
variable {δ ω : Type} {h : Host δ ω} {s t : State δ ω} {k : Nat} {r : Registration}

/-- The engine never panics. -/
def Host.Calm (h : Host δ ω) : Prop := ∀ c w, ∃ x, (h.engine c w).1 = .ok x

/-- The logger, if one is set, never panics. -/
def Worker.LogsCalmly (w : Worker δ ω) : Prop :=
  ∀ logger, w.logger = some logger → ∀ line world, (logger line world).1 = .ok ()

theorem Host.Calm.prompt (made : ReqId) (handler : Callback δ ω) : (Host.prompt made handler).Calm := by
  intro c w
  cases c <;> exact ⟨_, rfl⟩

namespace Worker.LogsCalmly
variable {w w' : Worker δ ω}

theorem of_isNone (hn : w.logger.isNone) : w.LogsCalmly := by
  intro logger heq
  rw [heq] at hn
  cases hn

theorem congr (hl : w.LogsCalmly) (heq : w'.logger = w.logger) : w'.LogsCalmly := by
  unfold LogsCalmly
  rw [heq]
  exact hl

end Worker.LogsCalmly

/-- Every subrequest whose record is kept has a child. -/
def State.Childed (s : State δ ω) : Prop :=
  ∀ {i p}, s.worker.subrequests.get? i = some p → p.child.isSome

/-! ### Children -/

/-- The record of a subrequest remains only if it has got its child. -/
theorem Service.childed {slot : Option Nat} {a b : List Nat × State δ ω} (hc : h.Calm) (hs : a.2.Childed)
    (hab : Service h slot a b) : b.2.Childed := by
  cases hab with
  | spoken hst =>
    unfold State.Childed
    rw [hst.spoken.worker]
    exact hs
  | issued =>
    intro i q hq
    rw [Host.get?_childSet, Host.get?_recorded] at hq
    split at hq
    · obtain ⟨q', -, rfl⟩ := Option.map_eq_some_iff.mp hq
      rfl
    · exact hs hq
  | unissued =>
    intro i q hq
    obtain ⟨hne, hq⟩ := Arena.get?_of_remove hq
    rw [Host.get?_recorded, if_neg hne] at hq
    exact hs hq
  | @broken X s k r sub p message _ _ _ _ he =>
    obtain ⟨x, hx⟩ := hc (Host.childCall s r sub p) (h.rooted s r).shared.world
    rw [hx] at he
    cases he
  | _ => exact hs

theorem Deed.childed {a b : List Nat × State δ ω} (hc : h.Calm) (hs : a.2.Childed) (hab : Deed h a b) :
    b.2.Childed := by
  cases hab with
  | service hab => exact hab.childed hc hs
  | completed => exact fun hp => hs (Arena.get?_of_remove hp).2
  | _ => exact hs

/-- Where the engine never panics, every subrequest that has not completed has a child. -/
theorem Reachable.childed (hc : h.Calm) (hs : Reachable h s) : s.Childed :=
  hs.invariant (P := fun a => a.2.Childed) (fun _ _ _ _ => nofun) fun _ hs hab => hab.childed hc hs

/-! ### Calls that come to their end -/

/-- The engine never panics when it is to log a line. -/
def Host.LogsCalmly (h : Host δ ω) : Prop := ∀ level text w, ∃ x, (h.engine (.log level text) w).1 = .ok x

theorem Host.Calm.logs (hc : h.Calm) : h.LogsCalmly := fun level text => hc (.log level text)

theorem Host.LogsCalmly.exec_log (hc : h.LogsCalmly) (hl : s.worker.LogsCalmly) (notice : Log.Notice)
    (req : Option ReqId) : ∃ t, (h.log notice req).exec s = (.ok (), t) ∧ Spoken none s t := by
  suffices hok : ∃ t, (h.log notice req).exec s = (.ok (), t) by
    obtain ⟨t, ht⟩ := hok
    exact ⟨t, ht, (Spoken.log notice req).exec ht⟩
  unfold Host.log
  rw [exec_bind_of_ok exec_worker]
  split
  · rw [exec_bind_of_ok (exec_record _)]
    dsimp only
    cases hlogger : s.worker.logger with
    | none =>
      obtain ⟨x, hx⟩ := hc notice.level (Log.Record.line ⟨s.worker.id, notice.level, req, notice.text⟩) s.shared.world
      exact ⟨_, h.exec_call_of_ok hx⟩
    | some logger =>
      dsimp only
      unfold callLogger
      rw [exec_bind_of_ok (exec_shared _)]
      dsimp only
      rw [hl logger hlogger]
      exact ⟨_, rfl⟩
  · exact ⟨s, rfl⟩

namespace Host.Calm

theorem exec_call (hc : h.Calm) (serial : Option Nat) (c : Call) :
    ∃ x, (h.call serial c).exec s = (.ok x, h.asked serial c s) := by
  obtain ⟨x, hx⟩ := hc c s.shared.world
  exact ⟨x, h.exec_call_of_ok hx⟩

theorem exec_log (hc : h.Calm) (hl : s.worker.LogsCalmly) (notice : Log.Notice) (req : Option ReqId) :
    ∃ t, (h.log notice req).exec s = (.ok (), t) ∧ Spoken none s t :=
  hc.logs.exec_log hl notice req

end Host.Calm
end EngineBridge
