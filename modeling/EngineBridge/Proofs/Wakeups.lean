import EngineBridge.Proofs.EventLoop
import EngineBridge.Proofs.Custody

/-! No wake-up is lost. When the loop waits and nothing has been sent since it was woken last, nothing is queued
    and no failed push is unreported, unless a push is still under way. For each push ends by waking the loop, and
    what comes too late for a tick has woken the loop after that tick began. -/

namespace EngineBridge

/-- A tick that is at a stage still sees to all that is queued and to all that have failed, by their numbers. -/
def Stage.SeesTo (queued : Nat) (failed : UInt64) : Stage → Prop
  | .begun => True
  | .draining rounds => queued ≤ rounds
  | .drained => queued = 0
  | .counted seen => queued = 0 ∧ seen = failed

/-- With no more queued than before, it sees to all that it has seen to before. -/
theorem Stage.SeesTo.mono {stage : Stage} {queued queued' : Nat} {failed : UInt64} (hs : stage.SeesTo queued failed)
    (hle : queued' ≤ queued) : stage.SeesTo queued' failed := by
  cases stage with
  | begun => trivial
  | draining rounds => exact Nat.le_trans hle hs
  | drained => exact Nat.le_zero.mp (Nat.le_trans hle (Nat.le_of_eq hs))
  | counted seen => exact ⟨Nat.le_zero.mp (Nat.le_trans hle (Nat.le_of_eq hs.1)), hs.2⟩

namespace EventLoop
open EngineBridge.Action Registry

/-- The ticks that are under way see to all that is queued and to all that have failed: the outermost one does,
    which goes on when the others have ended. When there is none, all has been seen to. -/
def SeeTo (queued : Nat) (failed seen : UInt64) : List Stage → Prop
  | [] => queued = 0 ∧ seen = failed
  | [stage] => stage.SeesTo queued failed
  | _ :: ticks => SeeTo queued failed seen ticks

namespace SeeTo
variable {queued queued' : Nat} {failed seen seen' : UInt64} {stage stage' : Stage} {rest : List Stage}

/-- Neither taking closures nor storing the count is amiss while a tick is under way. -/
theorem mono (hs : SeeTo queued failed seen (stage :: rest)) (hle : queued' ≤ queued) :
    SeeTo queued' failed seen' (stage :: rest) := by
  induction rest generalizing stage with
  | nil => exact Stage.SeesTo.mono hs hle
  | cons outer rest ih => exact ih hs

/-- The innermost tick comes to its next stage. -/
theorem next (hs : SeeTo queued failed seen (stage :: rest)) (hle : queued' ≤ queued)
    (hlast : stage.SeesTo queued failed → stage'.SeesTo queued' failed) :
    SeeTo queued' failed seen' (stage' :: rest) := by
  cases rest with
  | nil => exact hlast hs
  | cons outer rest =>
    have hs : SeeTo queued failed seen (outer :: rest) := hs
    exact hs.mono hle

end SeeTo

end EventLoop

/-! ### The queue -/

namespace Shared
variable {δ ω : Type} {sh sh' : Shared δ ω} {items : List (Parcel δ ω)} {p : Parcel δ ω} {accepted : Bool}
  {taken : Option (Parcel δ ω)}

theorem holds_enqueue (hq : sh.queue.Holds items) (he : sh.enqueue p = (accepted, sh')) :
    ∃ items', sh'.queue.Holds items' := by
  unfold enqueue at he
  rcases Nat.lt_or_ge items.length sh.queue.capacity with hlt | hle
  · obtain ⟨queue, hpush, hq', -⟩ := hq.push_of_lt hlt p
    rw [hpush] at he
    cases he
    exact ⟨_, hq'⟩
  · rw [hq.push_of_le hle] at he
    cases he
    exact ⟨_, hq⟩

theorem capacity_enqueue (he : sh.enqueue p = (accepted, sh')) : sh'.queue.capacity = sh.queue.capacity := by
  rw [← sh.queue.capacity_push p]
  unfold enqueue at he
  rcases hpush : sh.queue.push p with ⟨_ | _, queue⟩ <;> rw [hpush] at he <;> cases he <;> rfl

theorem capacity_take (he : sh.take = (taken, sh')) : sh'.queue.capacity = sh.queue.capacity := by
  rw [← sh.queue.capacity_pop]
  unfold take at he
  rcases hpop : sh.queue.pop with ⟨_ | _, queue⟩ <;> rw [hpop] at he <;> cases he <;> rfl

end Shared

/-! ### The invariant -/

namespace EventLoop
variable {ι δ ω : Type} {h : Host δ ω} {l l' : EventLoop ι δ ω}

/-- Nothing is left behind: the ticks that are under way see to everything, or the loop has been woken since, or
    will be when a push ends. -/
def Attended (l : EventLoop ι δ ω) (items : List (Parcel δ ω)) : Prop :=
  SeeTo items.length l.state.shared.failed l.state.worker.lastFailed l.ticks ∨ 0 < l.unseen ∨ ∃ i, l.pushes i ≠ none

/-- The invariant of the event loop. -/
structure Sound (l : EventLoop ι δ ω) : Prop where
  attended : ∃ items, l.state.shared.queue.Holds items ∧ l.Attended items
  /-- The channel tells how often it has been sent to since the loop was woken, up to whole turns of the word. -/
  channel : l.channel.sent = l.channel.seen + UInt64.ofNat l.unseen
  /-- The thread of the loop waits in no push. -/
  own : l.ticks = [] → l.pushes none = none

theorem MayPush.ticks {i : Option ι} (hmay : l.MayPush i) (hi : i = none) : l.ticks ≠ [] := by
  obtain ⟨n, rest, hticks⟩ := hmay hi
  rw [hticks]
  nofun

/-- The loop goes on, while nothing becomes of the pushes and the channel. -/
theorem Sound.goOn {s : State δ ω} {ticks : List Stage} {items : List (Parcel δ ω)} (hs : l.Sound)
    (hi : l.pushes none = none) (hq : s.shared.queue.Holds items)
    (hsee : ∀ {items'}, l.state.shared.queue.Holds items' →
      SeeTo items'.length l.state.shared.failed l.state.worker.lastFailed l.ticks →
      SeeTo items.length s.shared.failed s.worker.lastFailed ticks) : Sound { l with state := s, ticks } := by
  obtain ⟨items', hq', hatt⟩ := hs.attended
  exact ⟨⟨items, hq, hatt.imp_left (hsee hq')⟩, hs.channel, fun _ => hi⟩

/-- When the loop would wait, having been sent to less often than the word can tell, it has not been sent to since
    it was woken. -/
theorem Sound.unseen_eq_zero (hs : l.Sound) (hblocks : l.channel.blocks) (hnear : l.unseen < 2 ^ 64) :
    l.unseen = 0 := by
  have hsame : l.channel.sent = l.channel.seen := beq_iff_eq.mp hblocks
  have hsent := congrArg UInt64.toNat (hsame.symm.trans hs.channel)
  rw [UInt64.toNat_add, UInt64.toNat_ofNat'] at hsent
  have hseen := l.channel.seen.toNat_lt
  omega

section
variable [DecidableEq ι]

theorem own_of_update {i : Option ι} {x : Option Push} (hi : i = none → x = none ∨ l.ticks ≠ [])
    (hown : l.ticks = [] → l.pushes none = none) (hticks : l.ticks = []) :
    Function.update l.pushes i x none = none := by
  by_cases heq : i = none
  · subst heq
    rw [Function.update_self]
    exact (hi rfl).resolve_right fun hne => hne hticks
  · rw [Function.update_of_ne (Ne.symm heq)]
    exact hown hticks

namespace Sound

/-- A push goes on. -/
theorem push {i : Option ι} {x : Push} {sh : Shared δ ω} (hs : l.Sound) (hi : i = none → l.ticks ≠ [])
    (hq : ∃ items, sh.queue.Holds items) :
    Sound { l.withShared sh with pushes := Function.update l.pushes i (some x) } := by
  obtain ⟨items, hq⟩ := hq
  exact ⟨⟨items, hq, .inr (.inr ⟨i, by simp⟩)⟩, hs.channel, own_of_update (fun heq => .inr (hi heq)) hs.own⟩

/-- The loop is woken. -/
theorem woken {i : Option ι} {sh : Shared δ ω} (hs : l.Sound) (hqueue : sh.queue = l.state.shared.queue) :
    Sound { l.withShared sh with
            channel := l.channel.send, pushes := Function.update l.pushes i none, unseen := l.unseen + 1 } where
  attended := by
    obtain ⟨items, hq, -⟩ := hs.attended
    exact ⟨items, hqueue ▸ hq, .inr (.inl (Nat.succ_pos _))⟩
  channel := by
    show l.channel.sent + 1 = l.channel.seen + UInt64.ofNat (l.unseen + 1)
    rw [hs.channel, UInt64.ofNat_add, UInt64.add_assoc]
    rfl
  own := own_of_update (fun _ => .inl rfl) hs.own

end Sound

theorem Event.sound (hsize : l.state.shared.queue.capacity < UInt64.size) (hs : l.Sound) (he : Event h l l') :
    l'.Sound := by
  obtain ⟨items, hq, hatt⟩ := hs.attended
  have same : ∀ {items'}, l.state.shared.queue.Holds items' → items' = items := fun hq' => hq'.unique hq
  cases he with
  | aside hqueue hfailed hlast =>
    refine ⟨⟨items, hqueue ▸ hq, ?_⟩, hs.channel, hs.own⟩
    unfold Attended
    rwa [hfailed, hlast]
  | queued _ hmay he | refused _ hmay he => exact hs.push hmay.ticks (Shared.holds_enqueue hq he)
  | @counted i x hi =>
    refine hs.push (fun heq hticks => ?_) ⟨items, hq⟩
    rw [heq, hs.own hticks] at hi
    cases hi
  | woken => exact hs.woken rfl
  | wokenRefused => exact hs.woken rfl
  | @waited channel hticks hwait =>
    have hseen : channel.sent = channel.seen := beq_iff_eq.mp (Notify.blocks_of_wait? hwait)
    refine ⟨⟨items, hq, .inl trivial⟩, hseen.trans (UInt64.add_zero _).symm, nofun⟩
  | looked hticks hi =>
    refine hs.goOn hi hq fun hq' hsee => ?_
    obtain rfl := same hq'
    rw [hticks] at hsee
    exact hsee.next (Nat.le_refl _) fun _ => Nat.le_of_eq (hq.length_eq hsize).symm
  | took hticks hi htake =>
    obtain ⟨rest, queue, rfl, hq', -, rfl⟩ := Shared.take_eq_some hq htake
    refine hs.goOn hi hq' fun hq'' hsee => ?_
    obtain rfl := same hq''
    rw [hticks] at hsee
    exact hsee.next (Nat.le_succ _) Nat.le_of_succ_le_succ
  | emptied hticks hi htake =>
    obtain ⟨rfl, rfl⟩ := Shared.take_eq_none hq htake
    refine hs.goOn hi hq fun hq' hsee => ?_
    obtain rfl := same hq'
    rw [hticks] at hsee
    exact hsee.next (Nat.le_refl _) fun _ => rfl
  | drained hticks hi =>
    refine hs.goOn hi hq fun hq' hsee => ?_
    obtain rfl := same hq'
    rw [hticks] at hsee
    exact hsee.next (Nat.le_refl _) Nat.le_zero.mp
  | nested hticks hi =>
    refine hs.goOn hi hq fun hq' hsee => ?_
    obtain rfl := same hq'
    rw [hticks] at hsee
    exact hsee
  | read hticks hi =>
    refine hs.goOn hi hq fun hq' hsee => ?_
    obtain rfl := same hq'
    rw [hticks] at hsee
    exact hsee.next (Nat.le_refl _) fun hz => ⟨hz, rfl⟩
  | @stored failed rest hticks hi =>
    refine hs.goOn hi hq fun hq' hsee => ?_
    obtain rfl := same hq'
    rw [hticks] at hsee
    cases rest with
    | nil => exact hsee
    | cons outer rest =>
      have hsee : SeeTo _ _ _ (outer :: rest) := hsee
      exact hsee.mono (Nat.le_refl _)
  | stopped hticks hi =>
    refine hs.goOn hi hq fun hq' hsee => ?_
    obtain rfl := same hq'
    rw [hticks] at hsee
    exact hsee

theorem Event.capacity (he : Event h l l') :
    l'.state.shared.queue.capacity = l.state.shared.queue.capacity := by
  cases he with
  | aside hqueue => rw [hqueue]
  | queued _ _ he | refused _ _ he => exact Shared.capacity_enqueue he
  | took _ _ htake | emptied _ _ htake => exact Shared.capacity_take htake
  | _ => rfl

theorem Reachable.sound (hl : l.Reachable h) : l.state.shared.queue.capacity < UInt64.size → l.Sound := by
  induction hl with
  | opened hs =>
    obtain rfl := State.open_eq hs
    exact fun _ => ⟨⟨[], Queue.Channel.holds_new _ _ _, .inl ⟨rfl, rfl⟩⟩, rfl, fun _ => rfl⟩
  | event _ he ih =>
    intro hsize
    rw [he.capacity] at hsize
    exact he.sound hsize (ih hsize)

/-- No wake-up is lost. However the steps of the threads that push and of the loop come one after the other:
    whenever the loop would wait, has been sent to less than `2 ^ 64` times since it was woken last, and no other
    thread is in a push, the queue is empty and the last tick has seen every failed push. What the worker does are
    such steps: it sends a closure in two or three of them, which wake the loop once, and a tick that comes to its
    end has gone from its beginning to its end in them. -/
theorem Reachable.no_wakeup_lost (hl : l.Reachable h) (hsize : l.state.shared.queue.capacity < UInt64.size) :
    (l.ticks = [] → l.channel.blocks → l.unseen < 2 ^ 64 → (∀ i, l.pushes (some i) = none) →
      l.state.shared.queue.held = [] ∧ l.state.worker.lastFailed = l.state.shared.failed) ∧
    (∀ i p, l.pushes i = none → l.MayPush i →
      Events h l { l with state := h.sent l.state p, channel := l.channel.send, unseen := l.unseen + 1 }) ∧
    (∀ depth rest xs t, l.pushes none = none → l.ticks = .begun :: rest →
      (h.tickWithin depth).exec l.state = (.ok xs, t) → l.Leads h rest t) := by
  refine ⟨fun hticks hblocks hnear hquiet => ?_, fun i p hi hmay => .sent hi hmay p,
    fun depth rest xs t hown hticks he => (Passes.tickWithin depth hown hticks he).ok xs rfl⟩
  have hs := hl.sound hsize
  obtain ⟨items, hq, hsee | hunseen | ⟨i, hi⟩⟩ := hs.attended
  · rw [hticks] at hsee
    obtain ⟨hlength, hseen⟩ := hsee
    rw [hq.held_eq hsize]
    exact ⟨List.length_eq_zero_iff.mp hlength, hseen⟩
  · rw [hs.unseen_eq_zero hblocks hnear] at hunseen
    exact absurd hunseen (Nat.lt_irrefl 0)
  · cases i with
    | none => exact absurd (hs.own hticks) hi
    | some i => exact absurd (hquiet i) hi

/-- A thread pushes three closures onto a queue with room for two, and the loop ticks. -/
theorem no_wakeup_lost_when_full :
    let h : Host Unit Unit := .prompt ⟨9⟩ (.finish (.ok .ok))
    ∃ l : EventLoop Unit Unit Unit, l.Reachable h ∧ l.state.shared.failed = 1 ∧ l.channel.blocks ∧
      l.state.shared.queue.held = [] ∧ l.state.worker.lastFailed = l.state.shared.failed := by
  intro h
  let pushed : EventLoop Unit Unit Unit → EventLoop Unit Unit Unit := fun l =>
    { l with state := h.sent l.state ⟨0, .task .done⟩, channel := l.channel.send, unseen := l.unseen + 1 }
  have push : ∀ {l}, l.Reachable h → l.pushes (some ()) = none → (pushed l).Reachable h := fun hl hi =>
    hl.events (.sent hi nofun _)
  have take : ∀ {l : EventLoop Unit Unit Unit} {n}, l.Reachable h → l.ticks = [.draining (n + 1)] →
      l.pushes none = none → l.state.shared.take.1.isSome →
      Reachable h { l.withShared l.state.shared.take.2 with ticks := [.draining n] } := by
    intro l n hl hticks hown htake
    obtain ⟨p, hp⟩ := Option.isSome_iff_exists.mp htake
    exact hl.event (.took hticks hown (Prod.ext hp rfl))
  have h₀ : Reachable h (⟨State.narrow, .new, fun _ => none, [], 0⟩ : EventLoop Unit Unit Unit) :=
    .opened (rfl : State.open .array { queueCapacity := 1 } () () = .ok State.narrow)
  have hpushed := push (push (push h₀ rfl) rfl) rfl
  have hwaited := hpushed.event (.waited rfl (by decide : _ = some (⟨3, 3⟩ : Notify)))
  have hlooked := hwaited.event (.looked rfl rfl)
  have htook := take (take (n := 1) hlooked (by decide +kernel) rfl (by decide +kernel)) rfl rfl (by decide +kernel)
  have hread := (htook.event (.drained rfl rfl)).event (.read rfl rfl)
  have hl := hread.event (.stored (rfl : _ = [Stage.counted 1]) rfl)
  obtain ⟨hsafe, -, -⟩ := Reachable.no_wakeup_lost hl (by decide +kernel)
  have hblocks : (⟨3, 3⟩ : Notify).blocks := by decide
  obtain ⟨hempty, hseen⟩ := hsafe rfl hblocks (by decide) fun _ => rfl
  exact ⟨_, hl, by decide +kernel, hblocks, hempty, hseen⟩

end
end EventLoop
end EngineBridge
