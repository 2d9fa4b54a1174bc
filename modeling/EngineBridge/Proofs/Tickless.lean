import EngineBridge.Proofs.Ends
import EngineBridge.Proofs.Reach

/-! Only a tick takes closures from the queue, and only ticks can be nested too deep. Whatever else is asked
    of a worker is an errand: it takes nothing from the queue, and only a panic stops it. -/

namespace EngineBridge
open EngineBridge.Action Registry
variable {δ ω α β : Type} {h : Host δ ω} {R C : Prop}

/-- The closure that an entry tells to have been taken from the queue. -/
def Entry.takes? : Entry → Option Nat
  | .taken ticket => some ticket
  | _ => none

/-- The closures that ticks have taken from the queue. -/
def Journal.takes : Journal → List Nat := Journal.tell Entry.takes?

theorem Journal.takes_append_of_none (es : Journal) (hes : ∀ e ∈ es, e.takes? = none) (j : Journal) :
    Journal.takes (es ++ j) = j.takes := by
  unfold Journal.takes
  rw [Journal.tell_append, Journal.tell_eq_nil hes, List.append_nil]

/-- What serves a registration takes nothing. -/
theorem Served.takes {slot : Option Nat} {s t : State δ ω} (hst : Served slot s t) :
    t.shared.journal.takes = s.shared.journal.takes := by
  obtain ⟨es, hes, hm⟩ := hst.entries
  rw [hes]
  refine Journal.takes_append_of_none es (fun e he => ?_) _
  have := hm e he
  cases e <;> first | rfl | cases this

/-- A chore takes nothing. -/
theorem Chore.takes {s t : State δ ω} (hst : Chore h R C s t) : t.shared.journal.takes = s.shared.journal.takes := by
  cases hst with
  | aside es _ _ _ hj hes =>
    rw [hj]
    refine Journal.takes_append_of_none es (fun e he => ?_) _
    have := hes e he
    cases e <;> first | rfl | cases this
  | sent p =>
    obtain ⟨es, hj, hm⟩ := Shared.send_minor h.waker s.shared p
    refine (congrArg Journal.takes hj).trans (Journal.takes_append_of_none es (fun e he => ?_) _)
    have := hm e he
    cases e <;> first | rfl | cases this
  | registered => exact Journal.takes_append_of_none [.registered _ _ _ _] (by simp [Entry.takes?]) _

theorem Chores.takes {s t : State δ ω} (hst : Chores h R C s t) :
    t.shared.journal.takes = s.shared.journal.takes := by
  induction hst with
  | refl => rfl
  | tail _ hst ih => exact hst.takes.trans ih

namespace Action

/-- An action takes nothing from the queue, and whatever stops it is a panic. -/
structure Tickless (a : Action δ ω α) : Prop where
  contained : a.Contained
  keeps : ∀ {j : List Nat} {s : State δ ω}, s.shared.journal.takes = j →
    a.Leaves (fun t => t.shared.journal.takes = j) s

namespace Tickless

theorem takes {a : Action δ ω α} (ha : a.Tickless) (s : State δ ω) :
    (a.exec s).2.shared.journal.takes = s.shared.journal.takes :=
  ha.keeps rfl

theorem of_errand {a : Action δ ω α} (ha : a.Errand h R C) : a.Tickless :=
  ⟨ha.contained, fun {_ s} hs => (ha.chores s).mono fun _ hst => hst.takes.trans hs⟩

theorem pure (x : α) : (pure x : Action δ ω α).Tickless := ⟨.pure x, id⟩

theorem bind {a : Action δ ω α} {f : α → Action δ ω β} (ha : a.Tickless) (hf : ∀ x, (f x).Tickless) :
    (a >>= f).Tickless where
  contained := ha.contained.bind fun x => (hf x).contained
  keeps hs := (ha.keeps hs).bind fun x _ _ ht => (hf x).keeps ht

theorem log (notice : Log.Notice) (req : Option ReqId) : (h.log notice req).Tickless :=
  ⟨.log notice req, fun {_ s} hs => Leaves.mono (Spoken.log notice req) fun _ (hst : Spoken none s _) =>
    hst.served.takes.trans hs⟩

theorem failedCount : (Host.failedCount : Action δ ω UInt64).Tickless := ⟨.failedCount, id⟩

theorem reportFailed : (h.reportFailed).Tickless := by
  refine failedCount.bind fun failed => bind ⟨.worker, id⟩ fun w => ?_
  dsimp only
  split
  · exact (log _ _).bind fun _ => ⟨.modifyWorker _, id⟩
  · exact pure _

end Tickless

/-- An errand takes nothing. -/
theorem Errand.takes {a : Action δ ω α} (ha : a.Errand h R C) (s : State δ ω) :
    (a.exec s).2.shared.journal.takes = s.shared.journal.takes :=
  (Tickless.of_errand ha).takes s

end Action
end EngineBridge
