import EngineBridge.Proofs.Answering
import EngineBridge.Proofs.Contained

/-! Everything that is asked of a worker, ticks apart, is an errand: whatever stops it is a panic, it takes
    nothing from the queue and sends closures at most, it leaves the count that the last tick has seen to the
    ticks, and only two errands register a request. Two others remove records of subrequests or forget where
    their children are to be sent; all that the rest does to subrequests is to issue some. -/

namespace EngineBridge
open EngineBridge.Action Registry
variable {δ ω α β : Type} {h : Host δ ω} {R C : Prop} {s t : State δ ω} {k : Nat}

/-! ### Chores -/

/-- Entries that tell neither of the queue nor of lost pushes, and register no request. -/
def Entry.plain : Entry → Bool
  | .queued _ | .refused _ | .woken | .taken _ | .registered _ _ _ _ | .logged (.pushesLost _) _ => false
  | _ => true

/-- Entries that tell neither that the child of a subrequest has been made nor that its completion has begun. -/
def Entry.unrelated : Entry → Bool
  | .issued _ _ | .completed _ => false
  | _ => true

/-- What one part of an errand does to the subrequests and to where their children are to be sent: nothing, or it
    records a subrequest, whose child the engine then makes, refuses to make, or panics over. If `C` holds it may
    be anything. -/
inductive Branching (h : Host δ ω) (C : Prop) (s : State δ ω) : State δ ω → Prop
  | idle {t : State δ ω} (es : Journal) : t.worker.subrequests = s.worker.subrequests →
      t.worker.targets = s.worker.targets → s.worker.nextSerial ≤ t.worker.nextSerial →
      t.shared.journal = es ++ s.shared.journal → (∀ e ∈ es, e.unrelated) → Branching h C s t
  | issued {r : Registration} {sub : Subrequest} {p : Pending δ ω} {child : ReqId} : h.Records s r p →
      Branching h C s (Host.childSet (h.recorded s r sub p) (Host.tokenOf s p) p.target child)
  | unissued {r : Registration} {sub : Subrequest} {p : Pending δ ω} : h.Records s r p →
      Branching h C s (Host.withdrawn (h.recorded s r sub p) (Host.tokenOf s p).slot p.ticket)
  | broken {r : Registration} {sub : Subrequest} {p : Pending δ ω} : h.Records s r p →
      Branching h C s (h.recorded s r sub p)
  | free {t : State δ ω} : C → Branching h C s t

/-- One part of an errand, which may be the registration of a request if `R` holds, and do anything to the
    subrequests if `C` holds. -/
inductive Chore (h : Host δ ω) (R C : Prop) (s : State δ ω) : State δ ω → Prop
  /-- Anything that has to do neither with the queue nor with the counts of failed pushes. -/
  | aside {t : State δ ω} (es : List Entry) : t.shared.queue = s.shared.queue → t.shared.failed = s.shared.failed →
      t.worker.lastFailed = s.worker.lastFailed → t.shared.journal = es ++ s.shared.journal →
      (∀ e ∈ es, e.plain) → Branching h C s t → Chore h R C s t
  | sent (p : Parcel δ ω) : Chore h R C s (h.sent s p)
  | registered (req : ReqId) (phase : Phase) (location : Option UInt64) (anchor : Bool) : R →
      Chore h R C s (registered s req phase location anchor)

/-- Any number of chores. -/
abbrev Chores (h : Host δ ω) (R C : Prop) : State δ ω → State δ ω → Prop := Relation.ReflTransGen (Chore h R C)

/-- An action is stopped by panics only, and whatever it does, it does in chores. -/
structure Action.Errand (h : Host δ ω) (R C : Prop) (a : Action δ ω α) : Prop where
  contained : a.Contained
  chores : ∀ s, a.Leaves (Chores h R C s) s

/-- A chore that has to do neither with the queue, nor with lost pushes, nor with subrequests. -/
theorem Chore.idle (es : Journal) (hqueue : t.shared.queue = s.shared.queue) (hfailed : t.shared.failed = s.shared.failed)
    (hlast : t.worker.lastFailed = s.worker.lastFailed) (hsub : t.worker.subrequests = s.worker.subrequests)
    (htargets : t.worker.targets = s.worker.targets) (hnext : s.worker.nextSerial ≤ t.worker.nextSerial)
    (hj : t.shared.journal = es ++ s.shared.journal) (hes : ∀ e ∈ es, e.plain ∧ e.unrelated) : Chore h R C s t :=
  .aside es hqueue hfailed hlast hj (fun e he => (hes e he).1)
    (.idle es hsub htargets hnext hj fun e he => (hes e he).2)

theorem Branching.sent (s : State δ ω) (p : Parcel δ ω) : Branching h C s (h.sent s p) := by
  unfold Host.sent Shared.send Shared.enqueue
  rcases s.shared.queue.push p with ⟨_ | _, queue⟩
  · exact .idle [.destroyed _, .woken, .refused _] rfl rfl (Nat.le_refl _) rfl (by simp [Entry.unrelated])
  · exact .idle [.woken, .queued _] rfl rfl (Nat.le_refl _) rfl (by simp [Entry.unrelated])

theorem Chore.branching (hst : Chore h R C s t) : Branching h C s t := by
  cases hst with
  | aside _ _ _ _ _ _ hst => exact hst
  | sent p => exact .sent s p
  | registered => exact .idle [.registered _ _ _ _] rfl rfl (Nat.le_succ _) rfl (by simp [Entry.unrelated])

namespace Action.Errand

/-! ### Actions made of errands -/

theorem of_idle {a : Action δ ω α} (hc : a.Contained)
    (ha : ∀ s, ∃ es, (a.exec s).2.shared.queue = s.shared.queue ∧ (a.exec s).2.shared.failed = s.shared.failed ∧
      (a.exec s).2.worker = s.worker ∧ (a.exec s).2.shared.journal = es ++ s.shared.journal ∧
      ∀ e ∈ es, e.plain ∧ e.unrelated) : a.Errand h R C := by
  refine ⟨hc, fun s => ?_⟩
  obtain ⟨es, hqueue, hfailed, hworker, hj, hes⟩ := ha s
  exact .single (.idle es hqueue hfailed (by rw [hworker]) (by rw [hworker]) (by rw [hworker])
    (Nat.le_of_eq (by rw [hworker])) hj hes)

theorem pure (x : α) : (pure x : Action δ ω α).Errand h R C := ⟨.pure x, fun _ => .pure .refl⟩

theorem raise (message : String) : (raise message : Action δ ω α).Errand h R C := ⟨.raise message, fun _ => .raise .refl⟩

theorem worker : (worker : Action δ ω (Worker δ ω)).Errand h R C := ⟨.worker, fun _ => .refl⟩

/-- A change of the worker that has to do neither with lost pushes nor with subrequests. -/
theorem modifyWorker {f : Worker δ ω → Worker δ ω} (hf : ∀ w, (f w).lastFailed = w.lastFailed ∧
    (f w).subrequests = w.subrequests ∧ (f w).targets = w.targets ∧ w.nextSerial ≤ (f w).nextSerial) :
    (modifyWorker f).Errand h R C := by
  refine ⟨.modifyWorker f, fun s => ?_⟩
  obtain ⟨hlast, hsub, htargets, hnext⟩ := hf s.worker
  exact .single (.idle [] rfl rfl hlast hsub htargets hnext rfl (by simp))

theorem record {e : Entry} (he : e.plain) (hu : e.unrelated) : (record e : Action δ ω Unit).Errand h R C :=
  of_idle (.record e) fun _ => ⟨[e], rfl, rfl, rfl, rfl, by simpa using ⟨he, hu⟩⟩

/-- An action that has to do neither with the queue nor with lost pushes, if the subrequests may change. -/
theorem of_free {a : Action δ ω α} (hC : C) (hc : a.Contained)
    (ha : ∀ s, ∃ es, (a.exec s).2.shared.queue = s.shared.queue ∧ (a.exec s).2.shared.failed = s.shared.failed ∧
      (a.exec s).2.worker.lastFailed = s.worker.lastFailed ∧
      (a.exec s).2.shared.journal = es ++ s.shared.journal ∧ ∀ e ∈ es, e.plain) : a.Errand h R C := by
  refine ⟨hc, fun s => ?_⟩
  obtain ⟨es, hqueue, hfailed, hlast, hj, hes⟩ := ha s
  exact .single (.aside es hqueue hfailed hlast hj hes (.free hC))

theorem shared {f : Shared δ ω → α × Shared δ ω}
    (hf : ∀ s : State δ ω, Chores h R C s { s with shared := (f s.shared).2 }) :
    (shared f).Errand h R C :=
  ⟨.shared f, hf⟩

/-- A change that has to do neither with the queue nor with failed pushes, and that the journal does not tell. -/
theorem shared_idle {f : Shared δ ω → α × Shared δ ω} (hf : ∀ sh, (f sh).2.queue = sh.queue ∧
    (f sh).2.failed = sh.failed ∧ (f sh).2.journal = sh.journal) : (Action.shared f).Errand h R C := by
  refine shared fun s => ?_
  obtain ⟨hqueue, hfailed, hj⟩ := hf s.shared
  exact .single (.idle [] hqueue hfailed rfl rfl rfl (Nat.le_refl _) hj (by simp))

theorem bind {a : Action δ ω α} {f : α → Action δ ω β} (ha : a.Errand h R C) (hf : ∀ x, (f x).Errand h R C) :
    (a >>= f).Errand h R C where
  contained := ha.contained.bind fun x => (hf x).contained
  chores s := (ha.chores s).bind fun x t _ ht => ((hf x).chores t).mono fun _ => ht.trans

theorem discard {a : Action δ ω α} (ha : a.Errand h R C) : (discard a).Errand h R C :=
  ⟨ha.contained.discard, fun s => (ha.chores s).discard⟩

theorem onPanic {a : Action δ ω α} {cleanup : Action δ ω Unit} (ha : a.Errand h R C) (hc : cleanup.Errand h R C) :
    (a.onPanic cleanup).Errand h R C where
  contained := ha.contained.onPanic hc.contained
  chores s := (ha.chores s).onPanic fun t ht => (hc.chores t).mono fun _ => ht.trans

theorem ensuring {a : Action δ ω α} {cleanup : Action δ ω Unit} (ha : a.Errand h R C) (hc : cleanup.Errand h R C) :
    (a.ensuring cleanup).Errand h R C :=
  (ha.onPanic hc).bind fun x => hc.bind fun _ => pure x

theorem guarded {a : Action δ ω (Except Fault α)} (ha : a.Errand h R C) : (h.guarded a).Errand h R C :=
  ⟨ha.contained.guarded, fun s => h.leaves_guarded (ha.chores s)⟩

theorem forM {f : β → Action δ ω PUnit} (hf : ∀ x, (f x).Errand h R C) : ∀ l : List β, (l.forM f).Errand h R C
  | [] => pure _
  | x :: l => (hf x).bind fun _ => forM hf l

/-! ### The engine, the log and the queue -/

theorem call (serial : Option Nat) (c : Call) : (h.call serial c).Errand h R C :=
  of_idle (.call serial c) fun s => by
    rw [h.exec_call]
    exact ⟨[_], rfl, rfl, rfl, rfl, by simp [Entry.plain, Entry.unrelated]⟩

theorem log {notice : Log.Notice} {req : Option ReqId} (hn : (Entry.logged notice req).plain) :
    (h.log notice req).Errand h R C := by
  have logger : ∀ (l : Logger ω) (line : Log.Record), (Host.callLogger l line : Action δ ω Unit).Errand h R C := by
    intro l line
    refine (shared_idle fun _ => ⟨rfl, rfl, rfl⟩).bind fun x => ?_
    split
    · exact pure _
    · exact raise _
  refine worker.bind fun w => ?_
  split
  · refine (record hn rfl).bind fun _ => ?_
    split
    · exact logger _ _
    · exact call _ _
  · exact pure _

theorem hand : (Host.hand : Action δ ω Nat).Errand h R C :=
  shared fun _ => .single (.idle [_] rfl rfl rfl rfl rfl (Nat.le_refl _) rfl (by simp [Entry.plain, Entry.unrelated]))

theorem push (work : Work δ ω) : (h.push work).Errand h R C := by
  refine shared fun s => ?_
  have hhand : Chore h R C s (Host.handed s) :=
    .idle [_] rfl rfl rfl rfl rfl (Nat.le_refl _) rfl (by simp [Entry.plain, Entry.unrelated])
  exact .tail (.single hhand) (.sent ⟨s.shared.nextTicket, work⟩)

theorem awaitOffload (index : Nat) : (h.awaitOffload index).Errand h R C := by
  refine shared fun s => ?_
  unfold Shared.awaitOffload
  split
  · next o _ =>
    have hended : Chore h R C s (Host.offloadEnded s index) :=
      .idle [] rfl rfl rfl rfl rfl (Nat.le_refl _) rfl (by simp)
    exact .tail (.single hended) (.sent ⟨o.ticket, _⟩)
  · exact .refl

theorem failedCount : (Host.failedCount : Action δ ω UInt64).Errand h R C := ⟨.failedCount, fun _ => .refl⟩

/-! ### Requests -/

theorem registration : (registration k : Action δ ω Registration).Errand h R C := by
  refine worker.bind fun w => ?_
  split
  · exact pure _
  · exact raise _

theorem modifyRegistration (f : Registration → Registration) :
    (modifyRegistration k f : Action δ ω Unit).Errand h R C := modifyWorker fun _ => ⟨rfl, rfl, rfl, Nat.le_refl _⟩

theorem setPhase (p : Phase) : (setPhase k p : Action δ ω Unit).Errand h R C :=
  registration.bind fun _ => (modifyRegistration _).bind fun _ => record rfl rfl

theorem freshSerial : (freshSerial : Action δ ω Nat).Errand h R C :=
  worker.bind fun _ => (modifyWorker fun _ => by exact ⟨rfl, rfl, rfl, Nat.le_succ _⟩).bind fun _ => pure _

theorem slotOf? (req : ReqId) : (slotOf? req : Action δ ω (Option Nat)).Errand h R C := worker.bind fun _ => pure _

theorem openSlot? (req : ReqId) : (openSlot? req : Action δ ω (Option Nat)).Errand h R C := by
  refine (slotOf? req).bind fun slot => ?_
  split
  · exact registration.bind fun _ => pure _
  · exact pure _

theorem register (hR : R) (req : ReqId) (phase : Phase) (location : Option UInt64) (anchor : Bool) :
    (register req phase location anchor : Action δ ω Nat).Errand h R C where
  contained := (freshSerial (h := h) (R := R) (C := C)).contained.bind fun _ => .bind .worker fun _ =>
    .bind (.modifyWorker _) fun _ => .bind (.record _) fun _ => .pure _
  chores _ := .single (.registered req phase location anchor hR)

theorem unregister (req : ReqId) : (unregister req : Action δ ω Unit).Errand h R C := by
  refine worker.bind fun w => ?_
  split
  · exact registration.bind fun _ => (modifyWorker fun _ => by exact ⟨rfl, rfl, rfl, Nat.le_refl _⟩).bind fun _ => record rfl rfl
  · exact pure _

/-! ### Calls on a request -/

theorem answering : h.Answering k (fun _ => True) fun a => a.Errand h R C where
  pure := pure
  bind := bind
  registration hf := registration.bind fun r => hf r trivial
  keep _ := modifyRegistration _
  call _ _ _ := call _ _
  bodyInFile _ := log rfl
  application _ _ _ := log rfl

theorem answer (c : RequestCall) : (h.answer k c).Errand h R C := answering.answer c

/-! ### Closures that are run later -/

theorem runPosted (r : Registration) : (h.runPosted r).Errand h R C := by
  unfold Host.runPosted
  split
  · exact (call _ _).bind fun posted => forM (fun _ => (push _).discard) posted
  · exact pure _

/-- The engine is asked for the child of a subrequest that has been recorded: all in all one chore, and what is
    posted, or the line that is logged. -/
theorem chores_createChild {r : Registration} {sub : Subrequest} {p : Pending δ ω} (hp : h.Records s r p)
    (htarget : p.target = sub.target.map Peer.ofSocketAddr) :
    (h.createChild r sub p.ticket (Host.tokenOf s p)).Leaves (Chores h R C s) (Host.pended (h.rooted s r) p) := by
  refine Host.leaves_createChild htarget (fun message _ => ?_) (fun cause _ => ?_) fun child _ => ?_
  · exact .single (.aside [.called _ _ _, .called _ _ _] rfl rfl rfl rfl (by simp [Entry.plain]) (.broken hp))
  · have hone : Chore h R C s (Host.withdrawn (h.recorded s r sub p) (Host.tokenOf s p).slot p.ticket) :=
      .aside [.destroyed _, .called _ _ _, .called _ _ _] rfl rfl rfl rfl (by simp [Entry.plain]) (.unissued hp)
    exact ((log rfl).chores _).mono fun _ hst => .head hone hst
  · have hone : Chore h R C s (Host.childSet (h.recorded s r sub p) (Host.tokenOf s p) p.target child) :=
      .aside [.issued _ _, .called _ _ _, .called _ _ _] rfl rfl rfl rfl (by simp [Entry.plain]) (.issued hp)
    exact ((runPosted r).chores _).mono fun _ hst => .head hone hst

theorem contained_createChild (r : Registration) (sub : Subrequest) (ticket : Nat) (token : SubToken) :
    (h.createChild r sub ticket token).Contained := by
  refine (Contained.call _ _).bind fun reply => ?_
  split
  · have hset : (Host.setChild token (sub.target.map Peer.ofSocketAddr) ‹_› : Action δ ω Unit).Contained :=
      (Contained.modifyWorker _).bind fun _ => .record _
    exact hset.bind fun _ => (runPosted (R := False) (C := False) r).contained.bind fun _ => .pure _
  · exact (Contained.modifyWorker _).bind fun _ => (Contained.record _).bind fun _ =>
      (Contained.modifyWorker _).bind fun _ => (Contained.log _ _).bind fun _ => .pure _

theorem sendRequest (sub : Subrequest) (done : Completion → Callback δ ω) : (h.sendRequest k sub done).Errand h R C where
  contained := by
    refine (registration (h := h) (R := R) (C := C)).contained.bind fun r => (Contained.shared _).bind fun ticket => ?_
    split
    · exact (Contained.record _).bind fun _ => .pure _
    · refine (freshSerial (h := h) (R := R) (C := C)).contained.bind fun serial => ?_
      refine ((Contained.call _ _).onPanic (.record _)).bind fun root => ?_
      have hadd : ∀ p : Pending δ ω, (Host.addPending p).Contained := fun p =>
        Contained.worker.bind fun _ => (Contained.modifyWorker _).bind fun _ => .pure _
      exact (hadd _).bind fun slot => contained_createChild r sub ticket _
  chores s := by
    have hhanded : Chores h R C s (Host.handed s) := by
      have := (hand (h := h) (R := R) (C := C)).chores s
      exact this.exec (Host.exec_hand s)
    cases hr : s.worker.requests.get? k with
    | none => exact .of_exec (exec_bind_of_error (exec_registration_of_none hr)) .refl
    | some r =>
      refine Host.leaves_sendRequest hr ?_ (fun _ _ _ => ?_) fun root _ hp => ?_
      · exact hhanded.tail (.idle [.destroyed _] rfl rfl rfl rfl rfl (Nat.le_refl _) rfl
          (by simp [Entry.plain, Entry.unrelated]))
      · exact hhanded.tail (.idle [.destroyed _, .called _ _ _] rfl rfl rfl rfl rfl (Nat.le_succ _) rfl
          (by simp [Entry.plain, Entry.unrelated]))
      · exact (chores_createChild (p := Host.recordOf s sub done root) hp rfl).mono fun _ => hhanded.trans

theorem offload (work : String → Except String String) (done : Except String String → Callback δ ω) :
    (h.offload k work done).Errand h R C := by
  refine registration.bind fun r => hand.bind fun ticket => ?_
  split
  · exact (record rfl rfl).bind fun _ => pure _
  · refine (shared_idle fun _ => ⟨rfl, rfl, rfl⟩).bind fun started => ?_
    split
    · exact (shared_idle fun _ => ⟨rfl, rfl, rfl⟩).bind fun _ => pure _
    · exact (record rfl rfl).bind fun _ => pure _

theorem changeData (change : δ → δ) : (Host.changeData change : Action δ ω δ).Errand h R C :=
  worker.bind fun _ => (modifyWorker fun _ => by exact ⟨rfl, rfl, rfl, Nat.le_refl _⟩).bind fun _ => pure _

theorem changeWorld (change : ω → ω) : (Host.changeWorld change : Action δ ω ω).Errand h R C :=
  shared_idle fun _ => ⟨rfl, rfl, rfl⟩

theorem runCallback : ∀ code : Callback δ ω, (h.runCallback k code).Errand h R C
  | .finish _ => pure _
  | .panic message => raise message
  | .call c next => (answer c).bind fun x => runCallback (next x)
  | .data change next => (changeData change).bind fun x => runCallback (next x)
  | .world change next => (changeWorld change).bind fun x => runCallback (next x)
  | .sendRequest sub done next => (sendRequest sub done).bind fun x => runCallback (next x)
  | .offload work done next => (offload work done).bind fun x => runCallback (next x)
  | .push work next => (push work).bind fun x => runCallback (next x)
  | .failedCount next => failedCount.bind fun x => runCallback (next x)
  | .awaitOffload index next => (awaitOffload index).bind fun x => runCallback (next x)

/-! ### The course of a request -/

theorem finalize (rc : Int32) : (h.finalize k rc).Errand h R C := by
  refine registration.bind fun r => ?_
  split
  · exact raise _
  · exact (setPhase _).bind fun _ => call _ _

theorem finalizeId (req : ReqId) (rc : Int32) : (h.finalizeId req rc).Errand h R C := by
  refine (slotOf? req).bind fun slot => ?_
  split
  · refine registration.bind fun r => ?_
    split
    · exact log rfl
    · exact finalize rc
  · exact log rfl

theorem apply (result : Except String Outcome) : (h.apply k result).Errand h R C := by
  unfold Host.apply
  split
  · refine registration.bind fun r => ?_
    split
    · exact setPhase _
    · exact pure _
  · exact finalize _
  · exact registration.bind fun _ => (log rfl).bind fun _ => finalize _

theorem runAs (role : Role) (code : Callback δ ω) : (h.runAs k role code).Errand h R C :=
  registration.bind fun _ => (record rfl rfl).bind fun _ => (runCallback code).guarded.bind apply

theorem dispatch : (h.dispatch k).Errand h R C := by
  refine (setPhase _).bind fun _ => registration.bind fun r => ?_
  split
  · exact runAs _ _
  · exact apply _

theorem rejectBody (req : ReqId) (rc : Int32) : (h.rejectBody k req rc).Errand h R C := by
  refine (setPhase _).bind fun _ => ?_
  split
  · exact pure _
  · exact (log rfl).bind fun _ => pure _

theorem startBody (req : ReqId) : (h.startBody k req).Errand h R C := by
  refine registration.bind fun r => (call _ _).bind fun x => ?_
  split
  · exact dispatch.bind fun _ => pure _
  · exact pure _
  · exact rejectBody req _

theorem contentPhase (hR : R) (req : ReqId) : (h.contentPhase req).Errand h R C := by
  refine (call _ _).bind fun location => ?_
  split
  · exact (log rfl).bind fun _ => pure _
  · exact (unregister req).bind fun _ => (register hR req _ _ _).bind fun _ => startBody req

theorem bodyReady (req : ReqId) : (h.bodyReady req).Errand h R C := by
  refine (slotOf? req).bind fun slot => ?_
  split
  · refine registration.bind fun r => ?_
    split
    · exact dispatch
    · exact raise _
  · exact log rfl

theorem released (hC : C) (req : ReqId) : (Host.released req : Action δ ω Unit).Errand h R C :=
  (unregister req).bind fun _ => of_free hC (.modifyWorker _) fun _ => ⟨[], rfl, rfl, rfl, rfl, by simp⟩

theorem newAnchor (hR : R) (server : UInt64) : (h.newAnchor server).Errand h R C := by
  refine (call _ _).bind fun reply => ?_
  split
  · exact (register hR _ _ _ _).discard.bind fun _ => pure _
  · exact pure _

theorem resume (target : Resumer) (ticket : Nat) (code : Callback δ ω) : (h.resume target ticket code).Errand h R C := by
  refine worker.bind fun w => ?_
  split
  · exact (record rfl rfl).bind fun _ => log rfl
  · split
    · exact (setPhase _).bind fun _ => (record rfl rfl).bind fun _ => runAs _ _
    · exact (setPhase _).bind fun _ => (record rfl rfl).bind fun _ => runAs _ _
    · exact (record rfl rfl).bind fun _ => log rfl
    · exact (record rfl rfl).bind fun _ => log rfl
    · exact (record rfl rfl).bind fun _ => log rfl

/-! ### Completions -/

theorem finalizeBoth (p : Pending δ ω) (rc : Int32) : (h.finalizeBoth p rc).Errand h R C := by
  refine (finalizeId p.root rc).bind fun _ => ?_
  split
  · split
    · exact finalizeId _ rc
    · exact pure _
  · exact pure _

theorem abandon (p : Pending δ ω) : (h.abandon p).Errand h R C := by
  refine (record rfl rfl).bind fun _ => (log rfl).bind fun _ => (openSlot? p.root).bind fun root => ?_
  split
  · exact finalizeId _ _
  · exact pure _

theorem settle (p : Pending δ ω) (resumed : Bool) (result : Except String Outcome) :
    (h.settle p k resumed result).Errand h R C := by
  unfold Host.settle
  split
  · refine registration.bind fun r => ?_
    split
    · exact setPhase _
    · exact pure _
  · exact finalizeBoth p _
  · exact (log rfl).bind fun _ => finalizeBoth p _

theorem resumeWaiting : (Host.resumeWaiting k : Action δ ω Bool).Errand h R C := by
  refine registration.bind fun r => ?_
  split
  · exact (setPhase _).bind fun _ => pure _
  · exact pure _

theorem callBack (p : Pending δ ω) (completion : Completion) : (h.callBack p k completion).Errand h R C :=
  resumeWaiting.bind fun _ => (record rfl rfl).bind fun _ => registration.bind fun _ => (record rfl rfl).bind fun _ =>
    (runCallback _).guarded.bind fun _ => settle p _ _

theorem complete (p : Pending δ ω) (completion : Completion) : (h.complete p completion).Errand h R C := by
  refine (openSlot? p.caller).bind fun slot => ?_
  split
  · exact abandon p
  · exact callBack p completion

theorem completeChild (hC : C) (p : Pending δ ω) (completion : Completion) :
    (h.completeChild p completion).Errand h R C := by
  unfold Host.completeChild
  split
  · exact (record rfl rfl).bind fun _ => raise _
  · have forget : (Action.modifyWorker fun w => { w with targets := w.targets.erase ‹_› } : Action δ ω Unit).Errand h R C :=
      of_free hC (.modifyWorker _) fun _ => ⟨[], rfl, rfl, rfl, rfl, by simp⟩
    exact forget.bind fun _ => complete p completion

theorem subrequestDone (hC : C) (token : SubToken) (completion : Completion) :
    (h.subrequestDone token completion).Errand h R C := by
  have remove : (Host.removePending token.slot : Action δ ω Unit).Errand h R C :=
    of_free hC (.modifyWorker _) fun _ => ⟨[], rfl, rfl, rfl, rfl, by simp⟩
  have begin : (Action.record (.completed token) : Action δ ω Unit).Errand h R C :=
    of_free hC (.record _) fun _ => ⟨[_], rfl, rfl, rfl, rfl, by simp [Entry.plain]⟩
  have release : (Host.releaseLive : Action δ ω Unit).Errand h R C := modifyWorker fun _ => ⟨rfl, rfl, rfl, Nat.le_refl _⟩
  refine worker.bind fun w => ?_
  split
  · exact raise _
  · exact remove.bind fun _ => begin.bind fun _ => (completeChild hC _ completion).ensuring release

/-! ### Peers -/

theorem answerPeer (req : ReqId) (pool : UInt64) (c : PeerCall) : (h.answerPeer req pool c).Errand h R C := by
  cases c with
  | req | pool => exact pure _
  | method | uri | header name => exact (call _ _).bind fun _ => pure _
  | log level text => exact log rfl

theorem runResolver (req : ReqId) (pool : UInt64) : ∀ code : Resolver δ ω, (h.runResolver req pool code).Errand h R C
  | .finish _ => pure _
  | .panic message => raise message
  | .call c next => (answerPeer req pool c).bind fun x => runResolver req pool (next x)
  | .data next => worker.bind fun _ => runResolver req pool (next _)
  | .world change next => (changeWorld change).bind fun x => runResolver req pool (next x)

theorem resolvePeer (req : ReqId) (pool : UInt64) : (h.resolvePeer req pool).Errand h R C := by
  unfold Host.resolvePeer
  split
  · exact (log rfl).bind fun _ => pure _
  · refine (runResolver req pool _).guarded.bind fun result => ?_
    split
    · exact pure _
    · exact (log rfl).bind fun _ => pure _
    · exact (log rfl).bind fun _ => pure _

theorem selectPeer (req : ReqId) (pool : UInt64) : (h.selectPeer req pool).Errand h R C := by
  have pick : (h.pickPeer req pool).Errand h R C := by
    refine worker.bind fun w => ?_
    split
    · exact pure _
    · exact resolvePeer req pool
  refine pick.bind fun picked => ?_
  unfold Host.storePeer
  split
  · exact pure _
  · refine (call _ _).bind fun reply => ?_
    split
    · exact pure _
    · exact (log rfl).bind fun _ => pure _

end Action.Errand

/-! ### What is asked of a worker -/

/-- Hooks that register a request. -/
def Hook.Registers : Hook ω → Prop
  | .contentPhase _ | .newAnchor _ => True
  | _ => False

/-- Hooks that remove the record of a subrequest or forget where a request is to be sent. -/
def Hook.Frees : Hook ω → Prop
  | .released _ | .subrequestDone _ _ => True
  | _ => False

namespace Action.Errand

/-- Every hook but the tick. -/
theorem perform {hook : Hook ω} (hk : hook ≠ .tick) (hR : hook.Registers → R) (hC : hook.Frees → C)
    (tick : Action δ ω (List Nat)) : (h.perform tick hook).Errand h R C := by
  cases hook with
  | contentPhase req => exact contentPhase (hR trivial) req
  | bodyReady req => exact bodyReady req
  | released req => exact released (hC trivial) req
  | newAnchor server => exact newAnchor (hR trivial) server
  | tick => contradiction
  | subrequestDone token completion => exact subrequestDone (hC trivial) token completion
  | selectPeer req pool => exact selectPeer req pool
  | log level text => exact log rfl
  | setFilter filter => exact modifyWorker (f := fun w => { w with filter }) fun _ => ⟨rfl, rfl, rfl, Nat.le_refl _⟩
  | setLogger filter logger =>
    exact modifyWorker (f := fun w => { w with filter, logger := some logger }) fun _ => ⟨rfl, rfl, rfl, Nat.le_refl _⟩
  | workerId | activeRequests | liveSubrequests => exact worker.bind fun _ => pure _

theorem useRequest (req : ReqId) (code : Callback δ ω) : (h.useRequest req code).Errand h R C := by
  refine (slotOf? req).bind fun slot => ?_
  split
  · exact (runCallback code).bind fun _ => pure _
  · exact pure _

end Action.Errand

namespace Action.Contained

/-- Code that runs against a request is stopped by panics only. -/
theorem runCallback (code : Callback δ ω) : (h.runCallback k code).Contained :=
  (Errand.runCallback (h := h) (R := False) (C := False) code).contained

theorem completeChild (p : Pending δ ω) (completion : Completion) : (h.completeChild p completion).Contained :=
  (Errand.completeChild (R := False) (C := True) trivial p completion).contained

end Action.Contained
end EngineBridge
