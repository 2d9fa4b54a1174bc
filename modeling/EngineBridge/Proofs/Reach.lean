import EngineBridge.Proofs.Course
import EngineBridge.Proofs.Errands
import EngineBridge.Proofs.Lifecycle

/-! The runs of a worker, taken apart into steps. Code that acts on a worker, be it the engine's loop or
    a task, does one thing after another with it; a tick takes closures from the queue, runs them and
    reports what has been lost. Every run of such code, with all ticks nested in it, is a chain of these
    steps, so what each step keeps holds wherever such code is at work. -/

namespace EngineBridge
open EngineBridge.Action Registry
variable {δ ω : Type} {h : Host δ ω} {s t : State δ ω}

/-- One thing that is done with a worker. The steps of a tick are single steps here, in whatever order:
    a closure is taken from the queue and begun, a panic of a task is logged, lost pushes are reported. -/
inductive Step (h : Host δ ω) (s : State δ ω) : State δ ω → Prop
  | hook (k : Hook ω) : Step h s ((h.perform (throw .overrun) k).exec s).2
  | request (req : ReqId) (code : Callback δ ω) : Step h s ((h.useRequest req code).exec s).2
  | data (change : δ → δ) : Step h s ((Host.changeData change).exec s).2
  | world (change : ω → ω) : Step h s ((Host.changeWorld change).exec s).2
  | push (work : Work δ ω) : Step h s ((h.push work).exec s).2
  | awaitOffload (index : Nat) : Step h s ((h.awaitOffload index).exec s).2
  | nothing {sh : Shared δ ω} : s.shared.take = (none, sh) → Step h s { s with shared := sh }
  | task {x : Nat} {code : Task δ ω} {sh : Shared δ ω} : s.shared.take = (some ⟨x, .task code⟩, sh) →
      Step h s { s with shared := sh.record (.ran x) }
  | continuation {x : Nat} {target : Resumer} {code : Callback δ ω} {sh : Shared δ ω} :
      s.shared.take = (some ⟨x, .continuation target code⟩, sh) →
      Step h s ((h.resume target x code).exec { s with shared := sh }).2
  | contained (message : String) : Step h s ((h.log (.taskPanicked message) none).exec s).2
  | reported : Step h s (h.reportFailed.exec s).2

/-- Any number of steps. -/
abbrev Steps (h : Host δ ω) : State δ ω → State δ ω → Prop := Relation.ReflTransGen (Step h)

/-- The states that a worker can be in when code acts on it, from its opening on. -/
inductive Reachable (h : Host δ ω) : State δ ω → Prop
  | opened {store : Queue.Store} {config : Config} {data : δ} {world : ω} {s : State δ ω} :
      State.open store config data world = .ok s → Reachable h s
  | step {s t : State δ ω} : Reachable h s → Step h s t → Reachable h t

/-! ### Runs are made of steps -/

namespace Steps

theorem one (hst : Step h s t) : Steps h s t := .single hst

theorem andThen {α : Type} {a : Action δ ω α} (hst : Steps h s t) (ha : a.Leaves (Steps h t) t) :
    a.Leaves (Steps h s) t :=
  ha.mono fun _ => hst.trans

/-- What a hook asks for is one step, unless it is a tick. -/
theorem perform {tick : Action δ ω (List Nat)} (ht : ∀ s, tick.Leaves (Steps h s) s) (k : Hook ω) :
    (h.perform tick k).Leaves (Steps h s) s := by
  by_cases hk : k = .tick
  · subst hk
    exact (ht s).bind fun _ _ _ hu => .pure hu
  · have hp : h.perform tick k = h.perform (throw .overrun) k := by
      cases k <;> first | rfl | contradiction
    rw [hp]
    exact one (.hook k)

theorem runTask {tick : Action δ ω (List Nat)} (ht : ∀ s, tick.Leaves (Steps h s) s) :
    ∀ (code : Task δ ω) {s : State δ ω}, (h.runTask tick code).Leaves (Steps h s) s
  | .done, _ => .pure .refl
  | .panic _, _ => .raise .refl
  | .hook k next, _ =>
    (perform ht k).bind fun x _ _ hu => hu.andThen (runTask ht (next x))
  | .request req code next, _ =>
    .bind (one (.request req code)) fun x _ _ hu => hu.andThen (runTask ht (next x))
  | .data change next, _ => .bind (one (.data change)) fun x _ _ hu => hu.andThen (runTask ht (next x))
  | .world change next, _ => .bind (one (.world change)) fun x _ _ hu => hu.andThen (runTask ht (next x))
  | .push work next, _ => .bind (one (.push work)) fun x _ _ hu => hu.andThen (runTask ht (next x))
  | .failedCount next, _ => .bind_of_ok rfl (runTask ht (next _))
  | .awaitOffload index next, _ =>
    .bind (one (.awaitOffload index)) fun x _ _ hu => hu.andThen (runTask ht (next x))

theorem runContained {tick : Action δ ω (List Nat)} (ht : ∀ s, tick.Leaves (Steps h s) s) {p : Parcel δ ω}
    {sh : Shared δ ω} (hp : s.shared.take = (some p, sh)) :
    (h.runContained tick p).Leaves (Steps h s) { s with shared := sh } := by
  have run : (h.runParcel tick p).Leaves (Steps h s) { s with shared := sh } := by
    obtain ⟨x, code | ⟨target, code⟩⟩ := p
    · exact .bind_of_ok (exec_record _) ((one (.task hp)).andThen (runTask ht code))
    · exact one (.continuation hp)
  refine run.tryCatch fun e u _ hu => ?_
  cases e with
  | panic message => exact hu.trans (one (.contained message))
  | overrun => exact .throw hu

theorem drain {tick : Action δ ω (List Nat)} (ht : ∀ s, tick.Leaves (Steps h s) s) :
    ∀ (n : Nat) {s : State δ ω}, (Host.drain (h.runContained tick) n).Leaves (Steps h s) s
  | 0, _ => .pure .refl
  | n + 1, s => by
    refine .bind_of_ok (exec_shared _) ?_
    rcases htake : s.shared.take with ⟨_ | p, sh⟩
    · exact .pure (one (.nothing htake))
    · exact (runContained ht htake).bind fun _ _ _ hu =>
        (hu.andThen (drain ht n)).bind fun _ _ _ hv => .pure hv

theorem tickWithin : ∀ (depth : Nat) (s : State δ ω), (h.tickWithin depth).Leaves (Steps h s) s
  | 0, _ => .throw .refl
  | depth + 1, _ =>
    .bind_of_ok exec_get <| (drain (tickWithin depth) _).bind fun _ _ _ hu =>
      Leaves.bind (hu.trans (one .reported)) fun _ _ _ hv => .pure hv

/-- A run of code that acts on a worker is a chain of steps, however it ends. -/
theorem run (code : Task δ ω) : (h.run code).Leaves (Steps h s) s :=
  runTask (tickWithin Host.nestingLimit) code

end Steps

namespace Reachable

theorem steps (hs : Reachable h s) (hst : Steps h s t) : Reachable h t := by
  induction hst with
  | refl => exact hs
  | tail _ hst ih => exact ih.step hst

/-- What a run leaves of a reachable state is reachable. -/
theorem run (hs : Reachable h s) (code : Task δ ω) : Reachable h ((h.run code).exec s).2 :=
  hs.steps (Steps.run code)

end Reachable

/-! ### Steps are made of turns -/

namespace Spoken
variable {slot : Option Nat}

theorem ask {c : Call} (hc : c.asks) : (h.call none c).Leaves (Spoken slot s) s :=
  h.leaves_call.mpr (asked_none hc)

theorem answerPeer (req : ReqId) (pool : UInt64) (c : PeerCall) :
    (h.answerPeer req pool c).Leaves (Spoken slot s) s := by
  cases c with
  | req | pool => exact .pure (refl s)
  | method | uri | header name => exact (ask rfl).bind fun _ _ _ ht => .pure ht
  | log level text => exact log _ _

theorem runResolver (req : ReqId) (pool : UInt64) :
    ∀ (code : Resolver δ ω) {s : State δ ω}, (h.runResolver req pool code).Leaves (Spoken slot s) s
  | .finish _, s => .pure (refl s)
  | .panic _, s => .raise (refl s)
  | .call c next, _ =>
    (answerPeer req pool c).bind fun x _ _ ht => ht.andThen (runResolver req pool (next x))
  | .data next, _ => .bind_of_ok exec_worker (runResolver req pool (next _))
  | .world change next, s =>
    .bind (world (change s.shared.world)) fun x _ _ ht => ht.andThen (runResolver req pool (next x))

theorem resolvePeer (req : ReqId) (pool : UInt64) : (h.resolvePeer req pool).Leaves (Spoken slot s) s := by
  unfold Host.resolvePeer
  split
  · exact (log _ _).bind fun _ _ _ ht => .pure ht
  · refine (h.leaves_guarded (runResolver req pool _)).bind fun result t _ ht => ?_
    split
    · exact .pure ht
    · exact (ht.andThen (log _ _)).bind fun _ _ _ hu => .pure hu
    · exact (ht.andThen (log _ _)).bind fun _ _ _ hu => .pure hu

theorem storePeer (req : ReqId) (picked : Option Peer) : (h.storePeer req picked).Leaves (Spoken slot s) s := by
  unfold Host.storePeer
  split
  · exact .pure (refl s)
  · refine (ask rfl).bind fun reply t _ ht => ?_
    split
    · exact .pure ht
    · exact (ht.andThen (log _ _)).bind fun _ _ _ hu => .pure hu

theorem selectPeer (req : ReqId) (pool : UInt64) : (h.selectPeer req pool).Leaves (Spoken slot s) s := by
  have pick : (h.pickPeer req pool).Leaves (Spoken slot s) s := by
    refine .bind_of_ok exec_worker ?_
    split
    · exact .pure (refl s)
    · exact resolvePeer req pool
  exact pick.bind fun picked _ _ ht => ht.andThen (storePeer req picked)

end Spoken

namespace Turns
variable {a : List Nat × State δ ω} {X : List Nat}

theorem reportFailed (hs : Turns h none a X s) : (h.reportFailed).Leaves (Turns h none a X) s := by
  refine .bind_of_ok rfl (.bind_of_ok exec_worker ?_)
  dsimp only
  split
  · refine (log hs _ _).bind fun _ t he ht => ?_
    have hst : Spoken none s t := (Spoken.log _ _).exec he
    have hf : t.shared.failed = s.shared.failed := by rw [hst.shared]
    have hu := ht.tail .seen
    rw [hf] at hu
    exact hu
  · exact .pure hs

theorem useRequest (hs : Turns h none a X s) (req : ReqId) (code : Callback δ ω) :
    (h.useRequest req code).Leaves (Turns h none a X) s := by
  refine .bind_of_ok (exec_slotOf? req) ?_
  split
  · exact ((Services.runCallback code .refl).mono fun _ => services hs).bind fun _ _ _ ht => .pure ht
  · exact .pure hs

/-- All hooks but completions are served in turns that are taken on behalf of none. -/
theorem perform (hs : Turns h none a X s) {k : Hook ω} (hk : ∀ token completion, k ≠ .subrequestDone token completion) :
    (h.perform (throw .overrun) k).Leaves (Turns h none a X) s := by
  cases k with
  | contentPhase req => exact contentPhase hs req
  | bodyReady req => exact bodyReady hs req
  | released req => exact released hs req
  | newAnchor server => exact newAnchor hs server
  | tick => exact hs
  | subrequestDone token completion => exact absurd rfl (hk token completion)
  | selectPeer req pool => exact speak hs (.selectPeer req pool)
  | log level text => exact log hs _ _
  | setFilter filter => exact hs.tail (.filtered filter s.worker.logger)
  | setLogger filter logger => exact hs.tail (.filtered filter (some logger))
  | workerId | activeRequests | liveSubrequests => exact hs

end Turns

/-- Every step is made of turns that are taken on behalf of none, or is the completion of a subrequest. It
    leaves no closure in hand. -/
theorem Step.turns (hc : Course s) (hst : Step h s t) :
    Turns h none ([], s) [] t ∨ ∃ token p, Completes h s token p t := by
  have serve : ∀ {α : Type} {act : Action δ ω α}, act.Leaves (Services h none ([], s) []) s →
      act.Leaves (Turns h none ([], s) []) s := fun ha => ha.mono fun _ => Turns.services .refl
  cases hst with
  | hook k =>
    by_cases hk : ∃ token completion, k = .subrequestDone token completion
    · obtain ⟨token, completion, rfl⟩ := hk
      by_cases hp : ∃ p, s.worker.subrequests.get? token.slot = some p ∧ p.serial = token.serial
      · obtain ⟨p, hp, hserial⟩ := hp
        exact .inr ⟨token, p, Completes.of_subrequestDone hc hp hserial completion⟩
      · have hdead := Host.exec_subrequestDone_of_dead (h := h) (fun p hp' hserial => hp ⟨p, hp', hserial⟩) completion
        refine .inl ?_
        show Turns h none ([], s) [] ((h.subrequestDone token completion).exec s).2
        rw [hdead]
    · exact .inl (Turns.perform .refl fun token completion heq => hk ⟨token, completion, heq⟩)
  | request req code => exact .inl (Turns.useRequest .refl req code)
  | data change => exact .inl (serve (Services.changeData .refl change))
  | world change => exact .inl (serve (Services.changeWorld .refl change))
  | push work => exact .inl (serve (Services.push .refl work))
  | awaitOffload index => exact .inl (serve (Services.awaitOffload .refl index))
  | nothing hp => exact .inl (.single (.looked hp))
  | task hp => exact .inl (.tail (.single (.taken hp)) .ran)
  | continuation hp => exact .inl (Turns.resume (.single (.taken hp)) _ _)
  | contained message => exact .inl (Turns.log .refl _ _)
  | reported => exact .inl (Turns.reportFailed .refl)

/-- Every step is made of deeds, and leaves no closure in hand. -/
theorem Step.deeds (hc : Course s) (hst : Step h s t) : Deeds h ([], s) [] t := by
  rcases hst.turns hc with ht | ⟨token, p, ht⟩
  · exact ht.deeds
  · exact ht.deeds

/-! ### Steps are errands -/

/-- From one state to another, a closure has been taken from the queue, or the queue has been looked into, or
    nothing has been done. -/
def State.Looks (s t : State δ ω) : Prop :=
  t = s ∨ ∃ taken sh, s.shared.take = (taken, sh) ∧ t = { s with shared := sh }

/-- Every step registers a request, or reports lost pushes, or does its chores after a look into the queue. -/
theorem Step.chores (hst : Step h s t) :
    (∃ k : Hook ω, k.Registers ∧ t = ((h.perform (throw .overrun) k).exec s).2) ∨ t = (h.reportFailed.exec s).2 ∨
      ∃ u, s.Looks u ∧ Chores h False True u t := by
  have errand : ∀ {α : Type} {a : Action δ ω α} {u : State δ ω}, s.Looks u → a.Errand h False True →
      ∃ v, s.Looks v ∧ Chores h False True v (a.exec u).2 := fun hu ha => ⟨_, hu, ha.chores _⟩
  cases hst with
  | hook k =>
    by_cases hk : k = .tick
    · subst hk
      exact .inr (.inr ⟨s, .inl rfl, .refl⟩)
    · by_cases hr : k.Registers
      · exact .inl ⟨k, hr, rfl⟩
      · exact .inr (.inr (errand (.inl rfl) (.perform hk hr (fun _ => trivial) _)))
  | request req code => exact .inr (.inr (errand (.inl rfl) (.useRequest req code)))
  | data change => exact .inr (.inr (errand (.inl rfl) (.changeData change)))
  | world change => exact .inr (.inr (errand (.inl rfl) (.changeWorld change)))
  | push work => exact .inr (.inr (errand (.inl rfl) (.push work)))
  | awaitOffload index => exact .inr (.inr (errand (.inl rfl) (.awaitOffload index)))
  | nothing htake => exact .inr (.inr ⟨_, .inr ⟨_, _, htake, rfl⟩, .refl⟩)
  | task htake => exact .inr (.inr (errand (a := Action.record (.ran _)) (.inr ⟨_, _, htake, rfl⟩) (.record rfl rfl)))
  | continuation htake => exact .inr (.inr (errand (.inr ⟨_, _, htake, rfl⟩) (.resume _ _ _)))
  | contained message => exact .inr (.inr (errand (.inl rfl) (.log rfl)))
  | reported => exact .inr (.inl rfl)

/-! ### Reachable states -/

theorem State.open_eq {store : Queue.Store} {config : Config} {data : δ} {world : ω}
    (hs : State.open store config data world = .ok s) : s = ⟨.new config data, .new store config world⟩ := by
  unfold State.open at hs
  cases hv : config.validate with
  | error e => rw [hv] at hs; cases hs
  | ok u => rw [hv] at hs; exact (Except.ok.inj hs).symm

theorem Course.opened {store : Queue.Store} {config : Config} {data : δ} {world : ω}
    (hs : State.open store config data world = .ok s) : Course s := by
  obtain rfl := State.open_eq hs
  refine ⟨⟨trivial, fun hr => ?_, fun hr => ?_, fun hn => ?_, fun ⟨_, _, _, hm⟩ => ?_, fun hk => ?_⟩,
    fun _ ⟨_, hm⟩ => ?_⟩
  · cases hr
  · cases hr
  · cases hn
  · cases hm
  · simp [Worker.new] at hk
  · cases hm

/-- In every reachable state the requests are on their course. -/
theorem Reachable.course (hs : Reachable h s) : Course s := by
  induction hs with
  | opened hs => exact .opened hs
  | step _ hst ih => exact Deeds.course ih (hst.deeds ih)

/-- What holds of a worker that has been opened, and is kept by each deed with a worker whose requests are
    on their course, holds in every reachable state. -/
theorem Reachable.invariant {P : List Nat × State δ ω → Prop}
    (hopen : ∀ store config data world, P ([], ⟨.new config data, .new store config world⟩))
    (hdeed : ∀ {a b}, Course a.2 → P a → Deed h a b → P b) (hs : Reachable h s) : P ([], s) := by
  have along : ∀ {a b}, Course a.2 ∧ P a → Relation.ReflTransGen (Deed h) a b → Course b.2 ∧ P b :=
    Deeds.invariant (P := fun a => Course a.2 ∧ P a) fun ⟨hc, ha⟩ hab => ⟨hab.course hc, hdeed hc ha hab⟩
  induction hs with
  | opened hs =>
    obtain rfl := State.open_eq hs
    exact hopen _ _ _ _
  | step hs hst ih => exact (along ⟨hs.course, ih⟩ (hst.deeds hs.course)).2

/-- What holds of a worker that has been opened, is kept by each turn, and passes from the beginning of a
    completion through its turns to its end, holds in every reachable state. It may say something else of a
    worker that acts on a completion than of one that does not. -/
theorem Reachable.by_turns {P : Option (Pending δ ω) → State δ ω → Prop}
    (hopen : ∀ store config data world, P none ⟨.new config data, .new store config world⟩)
    (hturn : ∀ {c a b}, Course a.2 → P c a.2 → Turn h c a b → P c b.2)
    (hbegin : ∀ {s token p}, s.worker.subrequests.get? token.slot = some p → p.serial = token.serial → P none s →
      P (some p) (Host.completed s token))
    (hend : ∀ {s p}, P (some p) s → P none (Host.uncounted s)) (hs : Reachable h s) : P none s := by
  induction hs with
  | opened hs =>
    obtain rfl := State.open_eq hs
    exact hopen _ _ _ _
  | @step s t hs hst ih =>
    rcases hst.turns hs.course with ht | ⟨token, p, hp, hserial, hu⟩
    · exact Turns.invariant (P := fun a => P none a.2) hturn hs.course ih ht
    · have hc : Course (Host.completed s token) :=
        Deeds.course (h := h) (a := ([], s)) hs.course (.single (.completed hp hserial) : Deeds h ([], s) _ _)
      exact hend (Turns.invariant (P := fun a => P (some p) a.2) hturn hc (hbegin hp hserial ih) hu)

/-- What is done from a reachable state on is done in deeds, and leaves no closure in hand. -/
theorem Steps.deeds (hs : Reachable h s) (hst : Steps h s t) : Deeds h ([], s) [] t := by
  induction hst with
  | refl => exact .refl
  | tail hst hu ih => exact ih.trans (hu.deeds (hs.steps hst).course)

/-- The states that a worker can be in when code acts on it and some property has held of all of them so far. -/
inductive Reached (h : Host δ ω) (P : State δ ω → Prop) : State δ ω → Prop
  | opened {store : Queue.Store} {config : Config} {data : δ} {world : ω} {s : State δ ω} :
      State.open store config data world = .ok s → P s → Reached h P s
  | step {s t : State δ ω} : Reached h P s → Step h s t → P t → Reached h P t

namespace Reached
variable {P : State δ ω → Prop}

theorem reachable (hs : Reached h P s) : Reachable h s := by
  induction hs with
  | opened hs => exact .opened hs
  | step _ hst _ ih => exact ih.step hst

theorem holds (hs : Reached h P s) : P s := by
  cases hs with
  | opened _ hp => exact hp
  | step _ _ hp => exact hp

end Reached

/-! ### An engine that does everything at once -/

/-- An engine to which every request belongs to the first location and has its body already, and which
    gives each request that it makes the same name. -/
def Engine.prompt (made : ReqId) : Engine δ ω := fun c w =>
  (match c with
    | .location _ => .ok (some 1)
    | .method _ => .ok 2
    | .uri _ => .ok []
    | .args _ => .ok none
    | .headers _ => .ok []
    | .readBody _ => .ok .complete
    | .body _ => .ok []
    | .mainOf req => .ok req
    | .addHeader _ _ _ | .sendHeader _ | .output _ _ | .setPeer _ _ => .ok (.ok ())
    | .subrequest _ _ _ | .newAnchor _ => .ok (.ok made)
    | .runPosted _ => .ok []
    | .log _ _ | .setStatus _ _ | .setContentLength _ _ | .setHeaderOnly _ | .finalize _ _ => .ok (),
  w)

/-- A host over that engine, with a handler for the first location. -/
def Host.prompt (made : ReqId) (handler : Callback δ ω) : Host δ ω :=
  .plain (Engine.prompt made) ⟨(∅ : Std.ExtTreeMap UInt64 (Callback δ ω)).insert 1 handler, ∅⟩ id

/-- Code that issues a subrequest and leaves its request open until that has completed. -/
def Callback.waiting (done : Completion → Callback δ ω) : Callback δ ω :=
  .sendRequest ⟨⟨.get, "", none, [], none⟩, none, none⟩ done fun _ => .finish (.ok .async)

/-- A worker that has just been opened. -/
def State.fresh : State Unit Unit := ⟨.new {} (), .new .array {} ()⟩

/-- A worker that has just been opened, with room for two closures in its queue. -/
def State.narrow : State Unit Unit := ⟨.new { queueCapacity := 1 } (), .new .array { queueCapacity := 1 } ()⟩

theorem Reachable.fresh {h : Host Unit Unit} : Reachable h State.fresh :=
  .opened (rfl : State.open .array {} () () = .ok State.fresh)

end EngineBridge
