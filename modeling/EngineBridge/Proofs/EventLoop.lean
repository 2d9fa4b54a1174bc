import EngineBridge.Notify
import EngineBridge.Proofs.Reach
import Mathlib.Logic.Function.Basic

/-! The event loop among the threads that push onto its queue. Each event is one atomic step of one thread: a push
    puts its closure into the queue, counts it if it is refused, and then wakes the loop; the loop waits to be
    woken and then ticks, and a tick looks how long the queue is, takes as many closures at most, reads the count
    of failed pushes and stores it. Between these steps the other threads take theirs. -/

namespace EngineBridge
open EngineBridge.Action Registry

/-- How far a push has got that is under way. -/
inductive Push
  /-- The queue has taken the closure. -/
  | queued
  /-- The queue has refused the closure, and that is to be counted. -/
  | refused (ticket : Nat)
  /-- The refusal has been counted. -/
  | counted (ticket : Nat)
deriving DecidableEq

/-- How far a tick has got. -/
inductive Stage
  | begun
  /-- So many closures more can be taken from the queue. -/
  | draining (rounds : Nat)
  | drained
  /-- The count of failed pushes has been read. -/
  | counted (failed : UInt64)
deriving DecidableEq

/-- An event loop and the threads that push onto its queue. -/
structure EventLoop (ι δ ω : Type) where
  state : State δ ω
  /-- What a push sends to and the loop waits for. -/
  channel : Notify
  /-- The push in which each thread is. The thread of the loop itself, where tasks push, is `none`. -/
  pushes : Option ι → Option Push
  /-- The ticks that are under way, the innermost one first. When there is none, the loop is to wait. -/
  ticks : List Stage
  /-- How often the channel has been sent to since the loop was woken last. -/
  unseen : Nat

namespace EventLoop
variable {ι δ ω : Type} [DecidableEq ι]

/-- A change of what is shared. -/
def withShared (l : EventLoop ι δ ω) (sh : Shared δ ω) : EventLoop ι δ ω :=
  { l with state := { l.state with shared := sh } }

/-- A thread may push: it is another one than that of the loop, or a tick is running closures. -/
def MayPush (l : EventLoop ι δ ω) (i : Option ι) : Prop := i = none → ∃ n rest, l.ticks = .draining n :: rest

/-- One step of one thread. The loop goes on only when its own thread is in no push. -/
inductive Event (h : Host δ ω) (l : EventLoop ι δ ω) : EventLoop ι δ ω → Prop
  /-- Anything that has to do neither with the queue nor with the counts of failed pushes, by any thread. -/
  | aside {s : State δ ω} : s.shared.queue = l.state.shared.queue → s.shared.failed = l.state.shared.failed →
      s.worker.lastFailed = l.state.worker.lastFailed → Event h l { l with state := s }
  /-- A push begins: the queue takes the closure. -/
  | queued {i : Option ι} {p : Parcel δ ω} {sh : Shared δ ω} : l.pushes i = none → l.MayPush i →
      l.state.shared.enqueue p = (true, sh) →
      Event h l { l.withShared sh with pushes := Function.update l.pushes i (some .queued) }
  /-- A push begins: the queue refuses the closure. -/
  | refused {i : Option ι} {p : Parcel δ ω} {sh : Shared δ ω} : l.pushes i = none → l.MayPush i →
      l.state.shared.enqueue p = (false, sh) →
      Event h l { l.withShared sh with pushes := Function.update l.pushes i (some (.refused p.ticket)) }
  | counted {i : Option ι} {x : Nat} : l.pushes i = some (.refused x) →
      Event h l
        { l.withShared l.state.shared.countFailed with pushes := Function.update l.pushes i (some (.counted x)) }
  /-- A push ends: it wakes the loop. -/
  | woken {i : Option ι} : l.pushes i = some .queued →
      Event h l
        { l.withShared (l.state.shared.wake h.waker) with
          channel := l.channel.send, pushes := Function.update l.pushes i none, unseen := l.unseen + 1 }
  /-- A push whose closure has been refused ends: it wakes the loop, and the closure is destroyed. -/
  | wokenRefused {i : Option ι} {x : Nat} : l.pushes i = some (.counted x) →
      Event h l
        { l.withShared ((l.state.shared.wake h.waker).record (.destroyed x)) with
          channel := l.channel.send, pushes := Function.update l.pushes i none, unseen := l.unseen + 1 }
  /-- The loop has waited, and a tick begins. -/
  | waited {channel : Notify} : l.ticks = [] → l.channel.wait? = some channel →
      Event h l { l with channel, ticks := [.begun], unseen := 0 }
  /-- A tick looks how long the queue is. -/
  | looked {rest : List Stage} : l.ticks = .begun :: rest → l.pushes none = none →
      Event h l { l with ticks := .draining l.state.shared.queue.length :: rest }
  | took {n : Nat} {rest : List Stage} {p : Parcel δ ω} {sh : Shared δ ω} : l.ticks = .draining (n + 1) :: rest →
      l.pushes none = none → l.state.shared.take = (some p, sh) →
      Event h l { l.withShared sh with ticks := .draining n :: rest }
  /-- A tick finds the queue empty. -/
  | emptied {n : Nat} {rest : List Stage} {sh : Shared δ ω} : l.ticks = .draining (n + 1) :: rest →
      l.pushes none = none → l.state.shared.take = (none, sh) →
      Event h l { l.withShared sh with ticks := .drained :: rest }
  /-- A tick has taken as many closures as there were when it looked. -/
  | drained {rest : List Stage} : l.ticks = .draining 0 :: rest → l.pushes none = none →
      Event h l { l with ticks := .drained :: rest }
  /-- A closure that a tick runs ticks itself. -/
  | nested {n : Nat} {rest : List Stage} : l.ticks = .draining n :: rest → l.pushes none = none →
      Event h l { l with ticks := .begun :: .draining n :: rest }
  /-- A tick reads the count of failed pushes. -/
  | read {rest : List Stage} : l.ticks = .drained :: rest → l.pushes none = none →
      Event h l { l with ticks := .counted l.state.shared.failed :: rest }
  /-- A tick ends: it stores the count that it has read. -/
  | stored {failed : UInt64} {rest : List Stage} : l.ticks = .counted failed :: rest → l.pushes none = none →
      Event h l
        { l with
          state := { l.state with worker := { l.state.worker with lastFailed := failed } }, ticks := rest }
  /-- A panic stops a tick that is nested in another one. -/
  | stopped {stage outer : Stage} {rest : List Stage} : l.ticks = stage :: outer :: rest → l.pushes none = none →
      Event h l { l with ticks := outer :: rest }

/-- Any number of events. -/
abbrev Events (h : Host δ ω) : EventLoop ι δ ω → EventLoop ι δ ω → Prop := Relation.ReflTransGen (Event h)

/-- What the loop and the threads can come to, from the opening of the worker on. -/
inductive Reachable (h : Host δ ω) : EventLoop ι δ ω → Prop
  | opened {store : Queue.Store} {config : Config} {data : δ} {world : ω} {s : State δ ω} :
      State.open store config data world = .ok s → Reachable h ⟨s, .new, fun _ => none, [], 0⟩
  | event {l l' : EventLoop ι δ ω} : Reachable h l → Event h l l' → Reachable h l'

theorem Reachable.events {h : Host δ ω} {l l' : EventLoop ι δ ω} (hl : l.Reachable h) (hevents : Events h l l') :
    l'.Reachable h := by
  induction hevents with
  | refl => exact hl
  | tail _ he ih => exact ih.event he

/-! ### What the worker does are events -/

/-- Events lead to a state with these ticks under way, and with the pushes that were under way before. -/
def Leads (h : Host δ ω) (l : EventLoop ι δ ω) (ticks : List Stage) (t : State δ ω) : Prop :=
  ∃ l', Events h l l' ∧ l'.state = t ∧ l'.ticks = ticks ∧ l'.pushes = l.pushes

variable {h : Host δ ω} {l : EventLoop ι δ ω} {s t : State δ ω} {ticks rest : List Stage} {n : Nat} {α β : Type}

/-- A closure is sent in two or three steps, and wakes the loop. -/
theorem Events.sent {i : Option ι} (hi : l.pushes i = none) (hmay : l.MayPush i) (p : Parcel δ ω) :
    Events h l { l with state := h.sent l.state p, channel := l.channel.send, unseen := l.unseen + 1 } := by
  have hdone : ∀ x, Function.update (Function.update l.pushes i x) i none = l.pushes := fun x => by
    rw [Function.update_idem, ← hi, Function.update_eq_self]
  have hdone' : ∀ x y, Function.update (Function.update (Function.update l.pushes i x) i y) i none = l.pushes :=
    fun x y => by rw [Function.update_idem, hdone]
  unfold Host.sent Shared.send
  rcases he : l.state.shared.enqueue p with ⟨_ | _, sh⟩
  · have hrefused : Event h l _ := .refused hi hmay he
    have hcounted := Event.counted (h := h) (i := i) (x := p.ticket)
      (l := { l.withShared sh with pushes := Function.update l.pushes i (some (.refused p.ticket)) })
      (Function.update_self _ _ _)
    have hwoken := Event.wokenRefused (h := h) (i := i) (x := p.ticket)
      (l := { l.withShared sh.countFailed with
              pushes := Function.update (Function.update l.pushes i (some (.refused p.ticket))) i
                (some (.counted p.ticket)) })
      (Function.update_self _ _ _)
    dsimp only at hwoken
    rw [hdone'] at hwoken
    exact .tail (.tail (.single hrefused) hcounted) hwoken
  · have hqueued : Event h l _ := .queued hi hmay he
    have hwoken := Event.woken (h := h) (i := i)
      (l := { l.withShared sh with pushes := Function.update l.pushes i (some .queued) }) (Function.update_self _ _ _)
    dsimp only at hwoken
    rw [hdone] at hwoken
    exact .tail (.single hqueued) hwoken

namespace Leads

theorem refl (l : EventLoop ι δ ω) : l.Leads h l.ticks l.state := ⟨l, .refl, rfl, rfl, rfl⟩

/-- Events that lead on from where others have led. -/
theorem after {l' : EventLoop ι δ ω} (hevents : Events h l l') (hpushes : l'.pushes = l.pushes)
    (hl : l'.Leads h ticks t) : l.Leads h ticks t := by
  obtain ⟨l'', hevents', hstate, hticks, hpushes'⟩ := hl
  exact ⟨l'', hevents.trans hevents', hstate, hticks, hpushes'.trans hpushes⟩

theorem of_event {l' : EventLoop ι δ ω} (he : Event h l l') (hpushes : l'.pushes = l.pushes) :
    l.Leads h l'.ticks l'.state :=
  ⟨l', .single he, rfl, rfl, hpushes⟩

theorem chores {R C : Prop} (hown : l.pushes none = none) (hticks : l.ticks = .draining n :: rest)
    (hst : Chores h R C l.state t) : l.Leads h l.ticks t := by
  induction hst with
  | refl => exact refl l
  | tail _ huv ih =>
    obtain ⟨l', hevents, rfl, hticks', hpushes⟩ := ih
    have hown' : l'.pushes none = none := hpushes ▸ hown
    refine after hevents hpushes ?_
    rw [← hticks']
    cases huv with
    | aside es hqueue hfailed hlast => exact of_event (.aside hqueue hfailed hlast) rfl
    | sent p => exact ⟨_, .sent hown' (fun _ => ⟨n, rest, hticks'.trans hticks⟩) p, rfl, rfl, rfl⟩
    | registered req phase location anchor =>
      have haside : Event h l' { l' with state := registered l'.state req phase location anchor } :=
        .aside rfl rfl rfl
      exact of_event haside rfl

end Leads

/-! ### Ticks are events -/

/-- What an action does while a tick runs it are events within that tick, unless ticks are nested too deep. -/
structure Follows (ι : Type) [DecidableEq ι] (h : Host δ ω) (a : Action δ ω α) : Prop where
  leads : ∀ {l : EventLoop ι δ ω} {n rest r t}, l.pushes none = none → l.ticks = .draining n :: rest →
    a.exec l.state = (r, t) → r ≠ .error .overrun → l.Leads h l.ticks t

namespace Follows

theorem errand {a : Action δ ω α} (ha : a.Errand h True True) : Follows ι h a where
  leads hown hticks he _ := .chores hown hticks ((ha.chores _).exec he)

theorem bind {a : Action δ ω α} {f : α → Action δ ω β} (ha : Follows ι h a) (hf : ∀ x, Follows ι h (f x)) :
    Follows ι h (a >>= f) := by
  refine ⟨fun {l n rest r t} hown hticks he hr => ?_⟩
  rw [exec_bind] at he
  rcases hx : a.exec l.state with ⟨e | x, u⟩ <;> rw [hx] at he
  · cases he
    exact ha.leads hown hticks hx fun heq => hr (by cases heq; rfl)
  · obtain ⟨l', hevents, rfl, hticks', hpushes⟩ := ha.leads hown hticks hx nofun
    rw [← hticks']
    exact .after hevents hpushes ((hf x).leads (hpushes ▸ hown) (hticks'.trans hticks) he hr)

theorem runTask {tick : Action δ ω (List Nat)} (ht : Follows ι h tick) :
    ∀ code : Task δ ω, Follows ι h (h.runTask tick code)
  | .done => errand (.pure ())
  | .panic message => errand (.raise message)
  | .hook k next => by
    refine bind ?_ fun x => runTask ht (next x)
    by_cases hk : k = .tick
    · subst hk
      exact ht.bind fun _ => errand (.pure _)
    · exact errand (.perform hk (fun _ => trivial) (fun _ => trivial) tick)
  | .request req code next => (errand (.useRequest req code)).bind fun x => runTask ht (next x)
  | .data change next => (errand (.changeData change)).bind fun x => runTask ht (next x)
  | .world change next => (errand (.changeWorld change)).bind fun x => runTask ht (next x)
  | .push work next => (errand (.push work)).bind fun x => runTask ht (next x)
  | .failedCount next => (errand .failedCount).bind fun x => runTask ht (next x)
  | .awaitOffload index next => (errand (.awaitOffload index)).bind fun x => runTask ht (next x)

theorem runContained {tick : Action δ ω (List Nat)} (ht : Follows ι h tick) (p : Parcel δ ω) :
    Follows ι h (h.runContained tick p) := by
  have run : Follows ι h (h.runParcel tick p) := by
    obtain ⟨x, code | ⟨target, code⟩⟩ := p
    · exact (errand (.record rfl rfl)).bind fun _ => runTask ht code
    · exact errand (.resume target x code)
  refine ⟨fun {l n rest r t} hown hticks he hr => ?_⟩
  unfold Host.runContained at he
  rw [exec_tryCatch] at he
  rcases hx : (h.runParcel tick p).exec l.state with ⟨(message | _) | x, u⟩ <;> rw [hx] at he
  · obtain ⟨l', hevents, rfl, hticks', hpushes⟩ := run.leads hown hticks hx nofun
    rw [← hticks']
    exact .after hevents hpushes ((errand (.log rfl)).leads (hpushes ▸ hown) (hticks'.trans hticks) he hr)
  · cases he
    exact absurd rfl hr
  · cases he
    exact run.leads hown hticks hx nofun

end Follows

/-- A part of a tick has led to its end, or to some stage of the tick in which a panic has stopped it. -/
structure Passes (h : Host δ ω) (l : EventLoop ι δ ω) (after rest : List Stage) (r : Except Stop α)
    (t : State δ ω) : Prop where
  ok : ∀ x, r = .ok x → l.Leads h after t
  panic : ∀ message, r = .error (.panic message) → ∃ stage, l.Leads h (stage :: rest) t

namespace Passes
variable {after : List Stage} {r : Except Stop α}

theorem of_ok {x : α} (hl : l.Leads h after t) : l.Passes h after rest (.ok x) t :=
  ⟨fun _ _ => hl, nofun⟩

theorem after_events {l' : EventLoop ι δ ω} (hevents : Events h l l') (hpushes : l'.pushes = l.pushes)
    (hl : l'.Passes h after rest r t) : l.Passes h after rest r t where
  ok x hx := .after hevents hpushes (hl.ok x hx)
  panic message hm := by
    obtain ⟨stage, hs⟩ := hl.panic message hm
    exact ⟨stage, .after hevents hpushes hs⟩

theorem of_follows {a : Action δ ω α} (ha : Follows ι h a) (hown : l.pushes none = none)
    (hticks : l.ticks = .draining n :: rest) (he : a.exec l.state = (r, t)) :
    l.Passes h (.draining n :: rest) rest r t := by
  rw [← hticks]
  exact ⟨fun x hx => ha.leads hown hticks he (hx ▸ nofun),
    fun message hm => ⟨.draining n, hticks ▸ ha.leads hown hticks he (hm ▸ nofun)⟩⟩

theorem bind {m : List Stage} {a : Action δ ω α} {f : α → Action δ ω β} {r : Except Stop β}
    (ha : ∀ {r t}, a.exec l.state = (r, t) → l.Passes h m rest r t)
    (hf : ∀ x {l' : EventLoop ι δ ω} {r t}, l'.ticks = m → l'.pushes = l.pushes → (f x).exec l'.state = (r, t) →
      l'.Passes h after rest r t) (he : (a >>= f).exec l.state = (r, t)) : l.Passes h after rest r t := by
  rw [exec_bind] at he
  rcases hx : a.exec l.state with ⟨e | x, u⟩ <;> rw [hx] at he
  · cases he
    exact ⟨nofun, fun message hm => (ha hx).panic message (by cases hm; rfl)⟩
  · obtain ⟨l', hevents, rfl, hticks', hpushes⟩ := (ha hx).ok x rfl
    exact after_events hevents hpushes (hf x hticks' hpushes he)

theorem pure {x : α} (hticks : l.ticks = after) (he : (pure x : Action δ ω α).exec l.state = (r, t)) :
    l.Passes h after rest r t := by
  cases he
  exact of_ok (hticks ▸ .refl l)

theorem drain {tick : Action δ ω (List Nat)} (ht : Follows ι h tick) :
    ∀ (n : Nat) {l : EventLoop ι δ ω} {r t}, l.pushes none = none → l.ticks = .draining n :: rest →
      (Host.drain (h.runContained tick) n).exec l.state = (r, t) → l.Passes h (.drained :: rest) rest r t
  | 0, l, r, t, hown, hticks, he => by
    cases he
    exact of_ok (.of_event (.drained hticks hown) rfl)
  | n + 1, l, r, t, hown, hticks, he => by
    unfold Host.drain at he
    rw [exec_bind_of_ok (exec_shared _)] at he
    rcases htake : l.state.shared.take with ⟨_ | p, sh⟩ <;> rw [htake] at he
    · cases he
      exact of_ok (.of_event (.emptied hticks hown htake) rfl)
    · let taken : EventLoop ι δ ω := { l.withShared sh with ticks := .draining n :: rest }
      have htook : Event h l taken := .took hticks hown htake
      have run : Follows ι h (h.runContained tick p) := .runContained ht p
      refine after_events (.single htook) rfl (bind (l := taken) (of_follows run hown rfl) ?_ he)
      intro _ l' r t hticks' hpushes he
      refine bind (fun he => drain ht n (hpushes ▸ hown) hticks' he) ?_ he
      exact fun _ _ _ _ hticks'' _ he => pure hticks'' he

/-- The end of a tick reads the count of failed pushes and stores it; in between it may log. -/
theorem reportFailed (hown : l.pushes none = none) (hticks : l.ticks = .drained :: rest)
    {r : Except Stop Unit} (he : h.reportFailed.exec l.state = (r, t)) : l.Passes h rest rest r t := by
  let counted : EventLoop ι δ ω := { l with ticks := .counted l.state.shared.failed :: rest }
  have hread : Event h l counted := .read hticks hown
  refine after_events (.single hread) rfl ?_
  unfold Host.reportFailed at he
  rw [exec_bind_of_ok (show Host.failedCount.exec l.state = (.ok l.state.shared.failed, l.state) from rfl),
    exec_bind_of_ok exec_worker] at he
  dsimp only at he
  split at he
  · refine bind (l := counted) (m := counted.ticks) ?_ ?_ he
    · intro r t he
      have hst : Spoken none l.state t := (Spoken.log _ _).exec he
      have hlogged : Event h counted { counted with state := t } :=
        .aside (by rw [hst.shared]) (by rw [hst.shared]) (by rw [hst.worker])
      have hleads : counted.Leads h counted.ticks t := .of_event hlogged rfl
      exact ⟨fun _ _ => hleads, fun _ _ => ⟨_, hleads⟩⟩
    · intro _ l' r t hticks' hpushes he
      cases he
      exact of_ok (.of_event (.stored hticks' (hpushes ▸ hown)) rfl)
  · next heq =>
    cases he
    rw [not_not] at heq
    -- Storing the count that is there already changes nothing.
    have hsame : { l.state with worker := { l.state.worker with lastFailed := l.state.shared.failed } } = l.state := by
      rw [heq]
    have hstored : Event h counted { counted with
        state := { l.state with worker := { l.state.worker with lastFailed := l.state.shared.failed } },
        ticks := rest } := .stored rfl hown
    have hleads := Leads.of_event hstored rfl
    rw [hsame] at hleads
    exact of_ok hleads

/-- A tick that has begun goes through its stages to its end. -/
theorem tickWithin : ∀ (depth : Nat) {l : EventLoop ι δ ω} {rest r t}, l.pushes none = none →
    l.ticks = .begun :: rest → (h.tickWithin depth).exec l.state = (r, t) → l.Passes h rest rest r t
  | 0, l, rest, r, t, _, _, he => by
    cases he
    exact ⟨nofun, nofun⟩
  | depth + 1, l, rest, r, t, hown, hticks, he => by
    -- A tick within a closure that this one runs comes back to this one, also when it is stopped.
    have nested : Follows ι h (h.tickWithin depth) := by
      refine ⟨fun {l n rest r t} hown hticks he hr => ?_⟩
      let inner : EventLoop ι δ ω := { l with ticks := .begun :: .draining n :: rest }
      have hnested : Event h l inner := .nested hticks hown
      have hpasses := tickWithin depth (l := inner) hown rfl he
      rw [hticks]
      refine .after (.single hnested) rfl ?_
      match r, hr with
      | .ok x, _ => exact hpasses.ok x rfl
      | .error (.panic message), _ =>
        obtain ⟨stage, l', hevents, hstate, hticks', hpushes⟩ := hpasses.panic message rfl
        have hstopped := Event.stopped (h := h) hticks' (hpushes ▸ hown)
        exact .after hevents hpushes (hstate ▸ .of_event hstopped rfl)
    let looked : EventLoop ι δ ω := { l with ticks := .draining l.state.shared.queue.length :: rest }
    have hlooked : Event h l looked := .looked hticks hown
    unfold Host.tickWithin at he
    rw [exec_bind_of_ok exec_get] at he
    refine after_events (.single hlooked) rfl (bind (l := looked) (drain nested _ hown rfl) ?_ he)
    intro _ l' r t hticks' hpushes he
    refine bind (fun he => reportFailed (hpushes ▸ hown) hticks' he) ?_ he
    exact fun _ _ _ _ hticks'' _ he => pure hticks'' he

end Passes
end EventLoop
end EngineBridge
