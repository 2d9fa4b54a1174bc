import Mathlib.Data.UInt
import EngineBridge.Proofs.Custody
import EngineBridge.Proofs.Ticking

/-! Pushes that the queue refuses. Each push wakes the event loop once, and each refused one is counted, so
    that a tick can tell how many have been lost since the tick before: what all ticks together have told is
    the count that the last of them has seen. The count is a word and comes round; so all this is said of words, and
    of the numbers that they stand for until there are more refused pushes than words. -/

namespace EngineBridge
open EngineBridge.Action Registry
variable {δ ω : Type} {h : Host δ ω} {R C : Prop} {a b : List Nat × State δ ω} {X Y : List Nat} {s t u v : State δ ω}
  {sh : Shared δ ω}

/-! ### What the journal tells of pushes -/

/-- Entries that tell of a push. -/
def Entry.ofPush : Entry → Bool
  | .queued _ | .refused _ | .woken => true
  | _ => false

/-- The number of lost closures that an entry tells to have been logged. -/
def Entry.loses? : Entry → Option UInt64
  | .logged (.pushesLost n) _ => some n
  | _ => none

namespace Journal

/-- How many pushes have been made. -/
def pushCount (j : Journal) : Nat := j.countP fun e => e matches .queued _ | .refused _

/-- How many pushes the queue has refused. -/
def refusedCount (j : Journal) : Nat := j.countP fun e => e matches .refused _

/-- How often the event loop has been woken. -/
def wakeCount (j : Journal) : Nat := j.countP fun e => e matches .woken

/-- The numbers of lost closures that have been logged. -/
def losses : Journal → List UInt64 := tell Entry.loses?

theorem losses_append_of_none (es : Journal) (hes : ∀ e ∈ es, e.loses? = none) (j : Journal) :
    losses (es ++ j) = j.losses := by
  unfold losses
  rw [tell_append, tell_eq_nil hes, List.append_nil]

theorem refusedCount_le {j j' : Journal} (hj : j <:+ j') : j.refusedCount ≤ j'.refusedCount :=
  hj.sublist.countP_le

end Journal

/-! ### Every push wakes the event loop -/

/-- The event loop has been woken once for each push, and the refused ones have been counted. -/
structure Shared.Tallied (sh : Shared δ ω) : Prop where
  wakes : sh.journal.wakeCount = sh.journal.pushCount
  failed : sh.failed = .ofNat sh.journal.refusedCount

/-- What a push does: it wakes the event loop once, and is counted if it is refused. -/
structure Shared.Pushes (waker : Waker ω) (sh sh' : Shared δ ω) (accepted : Bool) : Prop where
  world : sh'.world = waker sh.world
  pushCount : sh'.journal.pushCount = sh.journal.pushCount + 1
  wakeCount : sh'.journal.wakeCount = sh.journal.wakeCount + 1
  refusedCount : sh'.journal.refusedCount = sh.journal.refusedCount + if accepted then 0 else 1
  failed : sh'.failed = sh.failed + if accepted then 0 else 1

/-- From one moment to another no refused push is forgotten, and the count of them does not get less unless it comes
    round. -/
structure Shared.Onward (sh sh' : Shared δ ω) : Prop where
  refusedCount : sh.journal.refusedCount ≤ sh'.journal.refusedCount
  failed : sh'.journal.refusedCount < UInt64.size → sh.failed ≤ sh'.failed

namespace Shared

/-- A closure is sent with these entries, whatever the queue is like. -/
theorem send_eq (waker : Waker ω) (sh : Shared δ ω) (p : Parcel δ ω) : ∃ queue x,
    sh.send waker p = (true, { sh with queue, world := waker sh.world,
                                       journal := .woken :: .queued x :: sh.journal }) ∨
    sh.send waker p = (false, { sh with queue, world := waker sh.world, failed := sh.failed + 1,
                                        journal := .destroyed p.ticket :: .woken :: .refused x :: sh.journal }) := by
  unfold send enqueue
  rcases sh.queue.push p with ⟨q | _, queue⟩
  · exact ⟨queue, q.ticket, .inr rfl⟩
  · exact ⟨queue, p.ticket, .inl rfl⟩

theorem pushes_send (waker : Waker ω) (sh : Shared δ ω) (p : Parcel δ ω) :
    Pushes waker sh (sh.send waker p).2 (sh.send waker p).1 := by
  obtain ⟨queue, x, hsend | hsend⟩ := sh.send_eq waker p <;>
  · rw [hsend]
    constructor <;> simp [Journal.pushCount, Journal.wakeCount, Journal.refusedCount]

namespace Tallied

/-- Entries that tell of no push. -/
theorem of_entries {sh' : Shared δ ω} (hs : sh.Tallied) (es : Journal) (hes : ∀ e ∈ es, e.ofPush = false)
    (hj : sh'.journal = es ++ sh.journal) (hfailed : sh'.failed = sh.failed) : sh'.Tallied := by
  have none : ∀ q : Entry → Bool, (∀ e, q e = true → e.ofPush = true) →
      (es ++ sh.journal).countP q = sh.journal.countP q := by
    intro q hq
    rw [List.countP_append, List.countP_eq_zero.mpr fun e he hqe => ?_, Nat.zero_add]
    have := hes e he
    rw [hq e hqe] at this
    cases this
  have hwakes : sh'.journal.wakeCount = sh.journal.wakeCount := by
    rw [hj]
    exact none _ fun e he => by cases e <;> first | rfl | cases he
  have hpushes : sh'.journal.pushCount = sh.journal.pushCount := by
    rw [hj]
    exact none _ fun e he => by cases e <;> first | rfl | cases he
  have hrefused : sh'.journal.refusedCount = sh.journal.refusedCount := by
    rw [hj]
    exact none _ fun e he => by cases e <;> first | rfl | cases he
  exact ⟨by rw [hwakes, hpushes, hs.wakes], by rw [hfailed, hrefused, hs.failed]⟩

theorem send (hs : sh.Tallied) (waker : Waker ω) (p : Parcel δ ω) : (sh.send waker p).2.Tallied := by
  have hp := sh.pushes_send waker p
  refine ⟨by rw [hp.wakeCount, hp.pushCount, hs.wakes], ?_⟩
  rw [hp.failed, hp.refusedCount, hs.failed, UInt64.ofNat_add]
  split <;> rfl

/-- Until it comes round, the count is that of the refused pushes. -/
theorem toNat_failed (hs : sh.Tallied) (hlt : sh.journal.refusedCount < UInt64.size) :
    sh.failed.toNat = sh.journal.refusedCount := by
  rw [hs.failed, UInt64.toNat_ofNat_of_lt' hlt]

theorem onward {sh' : Shared δ ω} (hs : sh.Tallied) (hs' : sh'.Tallied)
    (hle : sh.journal.refusedCount ≤ sh'.journal.refusedCount) : sh.Onward sh' := by
  refine ⟨hle, fun hlt => ?_⟩
  rw [UInt64.le_iff_toNat_le, hs.toNat_failed (Nat.lt_of_le_of_lt hle hlt), hs'.toNat_failed hlt]
  exact hle

end Tallied
end Shared

/-- Every deed sends a closure to the worker, or tells of no push and leaves the count of failed ones. -/
theorem Deed.sends (hab : Deed h a b) : (∃ p, b.2 = h.sent a.2 p) ∨
    b.2.shared.failed = a.2.shared.failed ∧
      ∃ es, b.2.shared.journal = es ++ a.2.shared.journal ∧ ∀ e ∈ es, e.ofPush = false := by
  cases hab with
  | service hab =>
    cases hab with
    | spoken hst =>
      obtain ⟨es, hes, ht⟩ := hst.spoken.entries
      refine .inr ⟨by rw [hst.spoken.shared], es, hes, fun e he => ?_⟩
      have htalk := (ht e he).1
      cases e <;> first | rfl | cases htalk
    | sent => exact .inl ⟨_, rfl⟩
    | data | numbered | offloaded | offloadEnded => exact .inr ⟨rfl, [], rfl, by simp⟩
    | handed | destroyed => exact .inr ⟨rfl, [_], rfl, by simp [Entry.ofPush]⟩
    | issued | unissued => exact .inr ⟨rfl, [_, _, _], rfl, by simp [Entry.ofPush]⟩
    | broken => exact .inr ⟨rfl, [_, _], rfl, by simp [Entry.ofPush]⟩
  | taken htake =>
    obtain ⟨queue, -, rfl⟩ := Shared.pop_of_take htake
    exact .inr ⟨rfl, [_], rfl, by simp [Entry.ofPush]⟩
  | looked htake =>
    obtain ⟨queue, -, rfl⟩ := Shared.pop_of_take_none htake
    exact .inr ⟨rfl, [], rfl, by simp⟩
  | uncounted | untargeted | filtered | seen => exact .inr ⟨rfl, [], rfl, by simp⟩
  | ended | unread | begun => exact .inr ⟨rfl, [_, _], rfl, by simp [Entry.ofPush]⟩
  | _ => exact .inr ⟨rfl, [_], rfl, by simp [Entry.ofPush]⟩

theorem Deed.tallied (hs : a.2.shared.Tallied) (hab : Deed h a b) : b.2.shared.Tallied := by
  rcases hab.sends with ⟨p, hp⟩ | ⟨hfailed, es, hj, hes⟩
  · rw [hp]
    exact hs.send h.waker p
  · exact hs.of_entries es hes hj hfailed

theorem Deeds.tallied (hs : a.2.shared.Tallied) (hab : Relation.ReflTransGen (Deed h) a b) : b.2.shared.Tallied :=
  invariant (P := fun b => b.2.shared.Tallied) (fun hb hbc => hbc.tallied hb) hs hab

theorem Reachable.tallied (hs : Reachable h s) : s.shared.Tallied :=
  hs.invariant (P := fun a => a.2.shared.Tallied) (fun _ _ _ _ => ⟨rfl, rfl⟩) fun _ hs hab => hab.tallied hs

/-- A deed leaves what the last tick has seen, or sets it to what there is. -/
theorem Deed.lastFailed (hab : Deed h a b) :
    b.2.worker.lastFailed = a.2.worker.lastFailed ∨ b.2.worker.lastFailed = a.2.shared.failed := by
  cases hab with
  | seen => exact .inr rfl
  | service hab =>
    cases hab with
    | spoken hst => exact .inl (by rw [hst.spoken.worker])
    | _ => exact .inl rfl
  | taken htake =>
    obtain ⟨queue, -, rfl⟩ := Shared.pop_of_take htake
    exact .inl rfl
  | looked htake =>
    obtain ⟨queue, -, rfl⟩ := Shared.pop_of_take_none htake
    exact .inl rfl
  | _ => exact .inl rfl

/-- No tick has seen more failed pushes than there are. -/
theorem Reachable.lastFailed_le (hs : Reachable h s) :
    s.worker.lastFailed.toNat ≤ s.shared.journal.refusedCount := by
  suffices hboth : s.shared.Tallied ∧ s.worker.lastFailed.toNat ≤ s.shared.journal.refusedCount from hboth.2
  refine hs.invariant
    (P := fun a => a.2.shared.Tallied ∧ a.2.worker.lastFailed.toNat ≤ a.2.shared.journal.refusedCount)
    (fun _ _ _ _ => ⟨⟨rfl, rfl⟩, Nat.le_refl 0⟩) fun {a b} _ ⟨htallied, hle⟩ hab => ⟨hab.tallied htallied, ?_⟩
  have hgrows := Journal.refusedCount_le hab.grows
  rcases hab.lastFailed with hlast | hlast <;> rw [hlast]
  · exact Nat.le_trans hle hgrows
  · rw [htallied.failed, UInt64.toNat_ofNat']
    exact Nat.le_trans (Nat.mod_le _ _) hgrows

theorem Shared.Tallied.close (hs : s.shared.Tallied) : s.close.Tallied ∧ s.shared.journal <:+ s.close.journal := by
  let tickets := s.shared.queue.drain.1.map Parcel.ticket ++ s.worker.subrequests.values.map Pending.ticket
  have heq : s.close = { s.shared with
      queue := s.shared.queue.drain.2, journal := (tickets.map Entry.destroyed).reverse ++ s.shared.journal } :=
    Shared.destroyAll_eq tickets { s.shared with queue := s.shared.queue.drain.2 }
  rw [heq]
  refine ⟨hs.of_entries _ (fun e he => ?_) rfl rfl, List.suffix_append _ _⟩
  obtain ⟨x, -, rfl⟩ := List.mem_map.mp (List.mem_reverse.mp he)
  rfl

/-- What the handles to a worker do when that has been dropped is counted like before. -/
theorem Left.tallied (hs : s.shared.Tallied) (hl : Left h s sh) : sh.Tallied ∧ s.shared.Onward sh := by
  suffices hboth : sh.Tallied ∧ s.shared.journal.refusedCount ≤ sh.journal.refusedCount from
    ⟨hboth.1, hs.onward hboth.1 hboth.2⟩
  have sent : ∀ {sh : Shared δ ω} (p : Parcel δ ω),
      sh.Tallied ∧ s.shared.journal.refusedCount ≤ sh.journal.refusedCount →
      (sh.send h.waker p).2.Tallied ∧ s.shared.journal.refusedCount ≤ (sh.send h.waker p).2.journal.refusedCount := by
    intro sh p ⟨htallied, hle⟩
    have hsend := (sh.pushes_send h.waker p).refusedCount
    exact ⟨htallied.send h.waker p, by omega⟩
  induction hl with
  | closed => exact ⟨hs.close.1, Journal.refusedCount_le hs.close.2⟩
  | @push sh work _ ih =>
    have hhand : sh.hand.2.Tallied := ih.1.of_entries [.handed _] (by simp [Entry.ofPush]) rfl rfl
    exact sent _ ⟨hhand, Nat.le_trans ih.2 (Journal.refusedCount_le (List.suffix_cons _ _))⟩
  | @awaitOffload sh index _ ih =>
    unfold Shared.awaitOffload
    split
    · exact sent _ ⟨ih.1.of_entries [] (by simp) rfl rfl, ih.2⟩
    · exact ih

/-! ### Only ticks report losses -/

/-- From one state to another, no losses have been reported. -/
structure State.Silent (s t : State δ ω) : Prop where
  losses : t.shared.journal.losses = s.shared.journal.losses
  lastFailed : t.worker.lastFailed = s.worker.lastFailed

namespace State.Silent

theorem refl (s : State δ ω) : s.Silent s := ⟨rfl, rfl⟩

theorem trans (h₁ : s.Silent t) (h₂ : t.Silent u) : s.Silent u :=
  ⟨h₂.losses.trans h₁.losses, h₂.lastFailed.trans h₁.lastFailed⟩

theorem of_entries (es : Journal) (hes : ∀ e ∈ es, e.loses? = none) (hj : t.shared.journal = es ++ s.shared.journal)
    (hlast : t.worker.lastFailed = s.worker.lastFailed) : s.Silent t :=
  ⟨by rw [hj, Journal.losses_append_of_none es hes], hlast⟩

theorem looks (hst : s.Looks t) : s.Silent t := by
  rcases hst with rfl | ⟨_ | p, sh, htake, rfl⟩
  · exact refl _
  · obtain ⟨queue, -, rfl⟩ := Shared.pop_of_take_none htake
    exact ⟨rfl, rfl⟩
  · obtain ⟨queue, -, rfl⟩ := Shared.pop_of_take htake
    exact of_entries [.taken p.ticket] (by simp [Entry.loses?]) rfl rfl

theorem chores (hst : Chores h R C s t) : s.Silent t := by
  induction hst with
  | refl => exact refl s
  | @tail u v _ huv ih =>
    refine ih.trans ?_
    cases huv with
    | aside es _ _ hlast hj hes =>
      refine of_entries es (fun e he => ?_) hj hlast
      have hplain := hes e he
      unfold Entry.loses?
      split
      · cases hplain
      · rfl
    | sent p =>
      unfold Host.sent
      obtain ⟨queue, x, hsend | hsend⟩ := u.shared.send_eq h.waker p <;> rw [hsend]
      · exact of_entries [.woken, .queued _] (by simp [Entry.loses?]) rfl rfl
      · exact of_entries [.destroyed _, .woken, .refused _] (by simp [Entry.loses?]) rfl rfl
    | registered req phase location anchor =>
      exact of_entries [.registered _ _ _ _] (by simp [Entry.loses?]) rfl rfl

end State.Silent

/-- Nothing but the end of a tick reports losses. -/
theorem Step.silent (hst : Step h s t) : s.Silent t ∨ t = (h.reportFailed.exec s).2 := by
  rcases hst.chores with ⟨k, hk, rfl⟩ | hreported | ⟨u, hsu, hut⟩
  · have hne : k ≠ .tick := by
      rintro rfl
      cases hk
    exact .inl (.chores ((Errand.perform (R := True) (C := True) hne (fun _ => trivial) (fun _ => trivial) _).chores s))
  · exact .inr hreported
  · exact .inl ((State.Silent.looks hsu).trans (.chores hut))

/-! ### The end of a tick -/

/-- What the end of a tick tells of failed pushes, if they are to be logged: nothing, if there are no more than
    the last tick has seen, or else how many more. -/
def State.toReport (s : State δ ω) : List UInt64 :=
  if s.shared.failed = s.worker.lastFailed then [] else [s.shared.failed - s.worker.lastFailed]

/-- From one state to another, the end of a tick has reported the failed pushes. -/
structure State.Reports (s t : State δ ω) : Prop where
  stored : t.worker.lastFailed = s.shared.failed
  failed : t.shared.failed = s.shared.failed
  losses : t.shared.journal.losses = s.shared.journal.losses ++
    if s.worker.filter.allows .crit then s.toReport else []

theorem State.reports (he : h.reportFailed.exec s = (.ok (), t)) : s.Reports t := by
  unfold Host.reportFailed at he
  rw [exec_bind_of_ok (show Host.failedCount.exec s = (.ok s.shared.failed, s) from rfl),
    exec_bind_of_ok exec_worker] at he
  dsimp only at he
  split at he
  · next hne =>
    obtain ⟨_, u, hlog, hstored⟩ := exec_bind_eq_ok he
    cases hstored
    have hst : Spoken none s u := (Spoken.log _ _).exec hlog
    have hlosses := (Journal.tell_of_log (f := Entry.loses?) (fun _ _ => rfl) _ _).exec hlog
    refine ⟨rfl, by rw [hst.shared], hlosses.trans ?_⟩
    unfold toReport
    rw [if_neg hne]
    rfl
  · next heq =>
    cases he
    rw [not_not] at heq
    refine ⟨heq.symm, rfl, ?_⟩
    unfold toReport
    rw [if_pos heq, ite_self, List.append_nil]

/-! ### What all ticks together report -/

/-- Losses are logged: the filter lets them through, and the logger, if one is set, never panics. -/
structure State.Hears (s : State δ ω) : Prop where
  allows : s.worker.filter.allows .crit
  calm : s.worker.LogsCalmly

theorem Host.LogsCalmly.exec_reportFailed (hlog : h.LogsCalmly) (hl : s.worker.LogsCalmly) :
    ∃ t, h.reportFailed.exec s = (.ok (), t) := by
  unfold Host.reportFailed
  rw [exec_bind_of_ok (show Host.failedCount.exec s = (.ok s.shared.failed, s) from rfl),
    exec_bind_of_ok exec_worker]
  dsimp only
  split
  · obtain ⟨u, hu, -⟩ := hlog.exec_log hl (.pushesLost (s.shared.failed - s.worker.lastFailed)) none
    rw [exec_bind_of_ok hu]
    exact ⟨_, rfl⟩
  · exact ⟨s, rfl⟩

/-- The end of a tick is heard, and what it has to report is added to what has been reported. -/
theorem State.Hears.reports (hlog : h.LogsCalmly) (hs : s.Hears) :
    let t := (h.reportFailed.exec s).2
    t.worker.lastFailed = s.shared.failed ∧ t.shared.journal.losses = s.shared.journal.losses ++ s.toReport := by
  intro t
  obtain ⟨u, hu⟩ := hlog.exec_reportFailed hs.calm
  obtain rfl : t = u := congrArg Prod.snd hu
  have hreports := State.reports hu
  have hlosses := hreports.losses
  rw [if_pos hs.allows] at hlosses
  exact ⟨hreports.stored, hlosses⟩

/-- The losses that ticks have reported add up to what the last of them has seen. -/
theorem Reached.sum_losses (hlog : h.LogsCalmly) (hs : Reached h State.Hears s) :
    s.shared.journal.losses.sum = s.worker.lastFailed := by
  induction hs with
  | opened hs =>
    obtain rfl := State.open_eq hs
    rfl
  | @step s t hs hst _ ih =>
    rcases hst.silent with hsilent | rfl
    · rw [hsilent.losses, hsilent.lastFailed, ih]
    · obtain ⟨hstored, hlosses⟩ := hs.holds.reports hlog
      rw [hstored, hlosses, List.sum_append, ih]
      unfold State.toReport
      split
      · next heq => rw [List.sum_nil, heq, UInt64.add_zero]
      · rw [List.sum_singleton, UInt64.add_comm, UInt64.sub_add_cancel]

/-- Until the count comes round, the numbers add up that the words stand for. -/
theorem Reached.sum_toNat_losses (hlog : h.LogsCalmly) (hs : Reached h State.Hears s)
    (hlt : s.shared.journal.refusedCount < UInt64.size) :
    (s.shared.journal.losses.map UInt64.toNat).sum = s.worker.lastFailed.toNat := by
  induction hs with
  | opened hs =>
    obtain rfl := State.open_eq hs
    rfl
  | @step s t hs hst _ ih =>
    have hgrows := Journal.refusedCount_le (Deeds.grows (Steps.one hst |>.deeds hs.reachable))
    have hlt' := Nat.lt_of_le_of_lt hgrows hlt
    rcases hst.silent with hsilent | rfl
    · rw [hsilent.losses, hsilent.lastFailed, ih hlt']
    · obtain ⟨hstored, hlosses⟩ := hs.holds.reports hlog
      rw [hstored, hlosses, List.map_append, List.sum_append, ih hlt']
      unfold State.toReport
      split
      · next heq => rw [List.map_nil, List.sum_nil, heq, Nat.add_zero]
      · have hle : s.worker.lastFailed ≤ s.shared.failed := by
          rw [UInt64.le_iff_toNat_le, hs.reachable.tallied.toNat_failed hlt']
          exact hs.reachable.lastFailed_le
        rw [List.map_singleton, List.sum_singleton, UInt64.toNat_sub_of_le _ _ hle]
        exact Nat.add_sub_cancel' (UInt64.le_iff_toNat_le.mp hle)

end EngineBridge
