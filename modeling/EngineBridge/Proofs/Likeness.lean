import EngineBridge.Proofs.Closures

/-! Two runs that differ in slots of subrequests only. Tokens are opaque: code and engine pass them on and make
    nothing of the slots in them. Code of that kind, run against the same request in two states that are alike,
    comes to the same result and leaves states that are alike, whatever slots the subrequests get that it
    issues. -/

namespace EngineBridge
open EngineBridge.Action Registry
variable {δ ω α β α' β' : Type}

/-! ### What is alike -/

/-- What it is for data, or for worlds, to be the same but for slots in the tokens that they contain. -/
structure Likeness (δ ω : Type) where
  data : δ → δ → Prop
  world : ω → ω → Prop
  data_refl : ∀ d, data d d
  world_refl : ∀ w, world w w

/-- Codes that do the same but for slots in the tokens that they contain or are given. What is to be run later
    does not matter, apart from callbacks of subrequests. -/
inductive Callback.Alike (L : Likeness δ ω) : Callback δ ω → Callback δ ω → Prop
  | finish (result : Except Fault Outcome) : Alike L (.finish result) (.finish result)
  | panic (message : String) : Alike L (.panic message) (.panic message)
  | call (c : RequestCall) {next next' : c.Result → Callback δ ω} : (∀ x, Alike L (next x) (next' x)) →
      Alike L (.call c next) (.call c next')
  | data {change change' : δ → δ} {next next' : δ → Callback δ ω} :
      (∀ {d d'}, L.data d d' → L.data (change d) (change' d')) →
      (∀ {d d'}, L.data d d' → Alike L (next d) (next' d')) → Alike L (.data change next) (.data change' next')
  | world {change change' : ω → ω} {next next' : ω → Callback δ ω} :
      (∀ {w w'}, L.world w w' → L.world (change w) (change' w')) →
      (∀ {w w'}, L.world w w' → Alike L (next w) (next' w')) → Alike L (.world change next) (.world change' next')
  | sendRequest (sub : Subrequest) {done done' : Completion → Callback δ ω}
      {next next' : Except Error SubToken → Callback δ ω} : (∀ x, Alike L (done x) (done' x)) →
      (∀ e, Alike L (next (.error e)) (next' (.error e))) →
      (∀ {token token' : SubToken}, token.serial = token'.serial → Alike L (next (.ok token)) (next' (.ok token'))) →
      Alike L (.sendRequest sub done next) (.sendRequest sub done' next')
  | offload {work work' : String → Except String String} {done done' : Except String String → Callback δ ω}
      {next next' : Except Error Outcome → Callback δ ω} : (∀ x, Alike L (next x) (next' x)) →
      Alike L (.offload work done next) (.offload work' done' next')
  | push {work work' : Work δ ω} {next next' : Bool → Callback δ ω} : (∀ x, Alike L (next x) (next' x)) →
      Alike L (.push work next) (.push work' next')
  | failedCount {next next' : UInt64 → Callback δ ω} : (∀ x, Alike L (next x) (next' x)) →
      Alike L (.failedCount next) (.failedCount next')
  | awaitOffload (index : Nat) {next next' : Bool → Callback δ ω} : (∀ x, Alike L (next x) (next' x)) →
      Alike L (.awaitOffload index next) (.awaitOffload index next')

/-- Whether a call has the engine run what it has posted. -/
def Call.posts : Call → Bool
  | .runPosted _ => true
  | _ => false

/-- The engine, the waker and the system that starts threads make nothing of the slots in tokens. -/
structure Host.Blind (h : Host δ ω) (L : Likeness δ ω) : Prop where
  call : ∀ {c w w'}, c.posts = false → L.world w w' →
    (h.engine c w).1 = (h.engine c w').1 ∧ L.world (h.engine c w).2 (h.engine c w').2
  /-- The tasks that are posted may contain tokens. -/
  runPosted : ∀ (req : ReqId) {w w'}, L.world w w' →
    (h.engine (.runPosted req) w).1.map List.length = (h.engine (.runPosted req) w').1.map List.length ∧
      L.world (h.engine (.runPosted req) w).2 (h.engine (.runPosted req) w').2
  subrequest : ∀ (req : ReqId) (child : ChildRequest) {token token' w w'}, token.serial = token'.serial → L.world w w' →
    (h.engine (.subrequest req child token) w).1 = (h.engine (.subrequest req child token') w').1 ∧
      L.world (h.engine (.subrequest req child token) w).2 (h.engine (.subrequest req child token') w').2
  waker : ∀ {w w'}, L.world w w' → L.world (h.waker w) (h.waker w')
  spawn : ∀ (req : ReqId) {w w'}, L.world w w' →
    (h.spawn req w).1 = (h.spawn req w').1 ∧ L.world (h.spawn req w).2 (h.spawn req w').2

/-- The logger, if one is set, makes nothing of the slots in tokens. -/
def Worker.LogsBlindly (w : Worker δ ω) (L : Likeness δ ω) : Prop :=
  ∀ logger, w.logger = some logger → ∀ {line world world'}, L.world world world' →
    (logger line world).1 = (logger line world').1 ∧ L.world (logger line world).2 (logger line world').2

/-- Records of the same subrequest, whose callbacks are the same or at least alike. -/
structure Pending.Alike (L : Likeness δ ω) (p q : Pending δ ω) : Prop where
  serial : q.serial = p.serial
  root : q.root = p.root
  main : q.main = p.main
  target : q.target = p.target
  child : q.child = p.child
  ticket : q.ticket = p.ticket
  done : q.done = p.done ∨ ∀ x, (p.done x).Alike L (q.done x)

theorem Pending.Alike.refl {L : Likeness δ ω} (p : Pending δ ω) : p.Alike L p :=
  ⟨rfl, rfl, rfl, rfl, rfl, rfl, .inl rfl⟩

/-! ### Calls of the engine -/

/-- A call without the slot in its token, if there is one. -/
def Call.unslotted : Call → Call
  | .subrequest parent child token => .subrequest parent child ⟨0, token.serial⟩
  | c => c

/-- The call of the engine that an entry tells of, other than to log a line, without a slot. -/
def Entry.call? : Entry → Option (Option Nat × Call × Upshot)
  | .called _ (.log _ _) _ => none
  | .called serial c u => some (serial, c.unslotted, u)
  | _ => none

/-- The calls of the engine other than to log a line, the latest first. -/
def Journal.calls (j : Journal) : List (Option Nat × Call × Upshot) := j.filterMap Entry.call?

theorem Journal.calls_record_of_none {s t : Shared δ ω} (hst : t.journal.calls = s.journal.calls) {e e' : Entry}
    (he : e.call? = none) (he' : e'.call? = none) : (t.record e').journal.calls = (s.record e).journal.calls := by
  show List.filterMap Entry.call? (e' :: t.journal) = List.filterMap Entry.call? (e :: s.journal)
  rw [List.filterMap_cons_none he, List.filterMap_cons_none he']
  exact hst

/-! ### States -/

/-- What two runs are compared by: a likeness, the serial number from which on subrequests may have other slots in
    the second run, and a subrequest, with its child, that only the first run keeps. -/
structure Comparison (δ ω : Type) extends Likeness δ ω where
  since : Nat
  gone : Nat
  child : ReqId

variable {c : Comparison δ ω} {h : Host δ ω} {s t : State δ ω} {k : Nat} {r : Registration}

/-- The records that are kept are alike, but for the one that only the first run keeps. Those that both runs started
    with are in the same slots. -/
structure Comparison.Records (c : Comparison δ ω) (a b : Arena (Pending δ ω)) : Prop where
  kept : ∀ {slot p}, a.get? slot = some p → p.serial ≠ c.gone →
    ∃ slot' q, b.get? slot' = some q ∧ p.Alike c.toLikeness q ∧ (slot' = slot ∨ c.since ≤ p.serial)
  only : ∀ {slot q}, b.get? slot = some q →
    ∃ slot' p, a.get? slot' = some p ∧ p.serial ≠ c.gone ∧ p.Alike c.toLikeness q

namespace Comparison.Records
variable {a a' b b' : Arena (Pending δ ω)}

theorem of_get? (hab : c.Records a b) (ha : ∀ slot, a'.get? slot = a.get? slot)
    (hb : ∀ slot, b'.get? slot = b.get? slot) : c.Records a' b' where
  kept hp hne := by
    obtain ⟨slot', q, hq, hrest⟩ := hab.kept (ha _ ▸ hp) hne
    exact ⟨slot', q, hb _ ▸ hq, hrest⟩
  only hq := by
    obtain ⟨slot', p, hp, hrest⟩ := hab.only (hb _ ▸ hq)
    exact ⟨slot', p, ha _ ▸ hp, hrest⟩

/-- Records of a new subrequest are put into free slots, which need not be the same. -/
theorem put (hab : c.Records a b) {i j : Nat} {p q : Pending δ ω} (hi : a.get? i = none) (hj : b.get? j = none)
    (ha : ∀ slot, a'.get? slot = if slot = i then some p else a.get? slot)
    (hb : ∀ slot, b'.get? slot = if slot = j then some q else b.get? slot) (hpq : p.Alike c.toLikeness q)
    (hsince : c.since ≤ p.serial) (hgone : c.gone < c.since) : c.Records a' b' where
  kept := by
    intro slot p' hp' hne
    rw [ha] at hp'
    split at hp'
    · cases hp'
      exact ⟨j, q, by rw [hb, if_pos rfl], hpq, .inr hsince⟩
    · obtain ⟨slot', q', hq', hrest⟩ := hab.kept hp' hne
      refine ⟨slot', q', ?_, hrest⟩
      rwa [hb, if_neg]
      rintro rfl
      rw [hj] at hq'
      cases hq'
  only := by
    intro slot q' hq'
    rw [hb] at hq'
    split at hq'
    · cases hq'
      exact ⟨i, p, by rw [ha, if_pos rfl], Nat.ne_of_gt (Nat.lt_of_lt_of_le hgone hsince), hpq⟩
    · obtain ⟨slot', p', hp', hrest⟩ := hab.only hq'
      refine ⟨slot', p', ?_, hrest⟩
      rwa [ha, if_neg]
      rintro rfl
      rw [hi] at hp'
      cases hp'

end Comparison.Records

/-- The requests, the data, the subrequests and the targets of two workers are the same, as far as they are to be,
    and the engine has been called alike. -/
structure State.Same (c : Comparison δ ω) (s t : State δ ω) : Prop where
  data : c.data s.worker.data t.worker.data
  requests : t.worker.requests = s.worker.requests
  slots : t.worker.slots = s.worker.slots
  nextSerial : t.worker.nextSerial = s.worker.nextSerial
  records : c.Records s.worker.subrequests t.worker.subrequests
  targets : ∀ {req}, req ≠ c.child → t.worker.targets[req]? = s.worker.targets[req]?
  calls : t.shared.journal.calls = s.shared.journal.calls

/-- Two queues take in, or refuse, alike many closures. -/
def Queue.Channel.Alike (q q' : Queue.Channel α) : Prop :=
  ∃ items items', q.Holds items ∧ q'.Holds items' ∧ items'.length = items.length ∧ q'.capacity = q.capacity

/-- To code two states are the same but for slots of subrequests. -/
structure State.Alike (c : Comparison δ ω) (s t : State δ ω) : Prop extends Same c s t where
  world : c.world s.shared.world t.shared.world
  gone : c.gone < c.since
  since : c.since ≤ s.worker.nextSerial
  live : t.worker.live = s.worker.live
  id : t.worker.id = s.worker.id
  filter : t.worker.filter = s.worker.filter
  logger : t.worker.logger = s.worker.logger
  blind : s.worker.LogsBlindly c.toLikeness
  nextTicket : t.shared.nextTicket = s.shared.nextTicket
  failed : t.shared.failed = s.shared.failed
  queue : s.shared.queue.Alike t.shared.queue
  size : t.shared.offloads.size = s.shared.offloads.size
  offloads : ∀ i : Nat, t.shared.offloads[i]?.join.isSome = s.shared.offloads[i]?.join.isSome

namespace State.Alike

/-- Entries that tell of no call are noted. -/
theorem noted (hst : s.Alike c t) (e e' : Entry) (he : e.call? = none) (he' : e'.call? = none) :
    (Host.noted s e).Alike c (Host.noted t e') :=
  { hst with calls := Journal.calls_record_of_none hst.calls he he' }

theorem changed (hst : s.Alike c t) (f : Registration → Registration) :
    (Registry.changed s k f).Alike c (Registry.changed t k f) :=
  { hst with requests := congrArg (Arena.modify · k f) hst.requests }

theorem numbered (hst : s.Alike c t) : (Host.numbered s).Alike c (Host.numbered t) :=
  { hst with
    nextSerial := congrArg (· + 1) hst.nextSerial
    since := Nat.le_succ_of_le hst.since }

theorem handed (hst : s.Alike c t) : (Host.handed s).Alike c (Host.handed t) :=
  { hst with
    nextTicket := congrArg (· + 1) hst.nextTicket
    calls := Journal.calls_record_of_none hst.calls rfl rfl }

theorem inWorld (hst : s.Alike c t) {w w' : ω} (hw : c.world w w') :
    State.Alike c { s with shared := { s.shared with world := w } }
      { t with shared := { t.shared with world := w' } } :=
  { hst with world := hw }

/-- The engine is called, and answers alike. -/
theorem asked (hst : s.Alike c t) (serial : Option Nat) (q q' : Call) (hq : q'.unslotted = q.unslotted)
    (hlog : (∃ level line, q = .log level line) ↔ ∃ level line, q' = .log level line)
    (hu : q'.upshot (h.engine q' t.shared.world).1 = q.upshot (h.engine q s.shared.world).1)
    (hw : c.world (h.engine q s.shared.world).2 (h.engine q' t.shared.world).2) :
    (h.asked serial q s).Alike c (h.asked serial q' t) := by
  refine { hst with world := hw, calls := ?_ }
  show List.filterMap Entry.call? (_ :: t.shared.journal) = List.filterMap Entry.call? (_ :: s.shared.journal)
  by_cases hl : ∃ level line, q = .log level line
  · obtain ⟨_, _, rfl⟩ := hlog.mp hl
    obtain ⟨_, _, rfl⟩ := hl
    exact hst.calls
  · have tells : ∀ {q : Call} {u : Upshot}, (¬∃ level line, q = .log level line) →
        Entry.call? (.called serial q u) = some (serial, q.unslotted, u) := by
      intro q u hne
      unfold Entry.call?
      split
      · next heq =>
        cases heq
        exact absurd ⟨_, _, rfl⟩ hne
      · next heq => cases heq; rfl
      · next hno => exact absurd rfl (hno _ _ _)
    rw [List.filterMap_cons_some (tells hl), List.filterMap_cons_some (tells (fun hl' => hl (hlog.mpr hl'))), hq, hu]
    exact congrArg _ hst.calls

end State.Alike

/-! ### Actions -/

/-- Two answers are related, or two actions have been stopped by the same, and the states left are alike. -/
inductive Answers (c : Comparison δ ω) (V : α → β → Prop) : Except Stop α × State δ ω → Except Stop β × State δ ω → Prop
  | ok {x : α} {y : β} {s t : State δ ω} : V x y → s.Alike c t → Answers c V (.ok x, s) (.ok y, t)
  | error {e : Stop} {s t : State δ ω} : s.Alike c t → Answers c V (.error e, s) (.error e, t)

namespace Action

/-- In states that are alike, two actions come to related answers and leave states that are alike. -/
def Alike (c : Comparison δ ω) (V : α → β → Prop) (a : Action δ ω α) (b : Action δ ω β) : Prop :=
  ∀ ⦃s t : State δ ω⦄, s.Alike c t → Answers c V (a.exec s) (b.exec t)

/-- In states that are alike, an action comes to the same answer and leaves states that are alike. -/
abbrev Uniform (c : Comparison δ ω) (a : Action δ ω α) : Prop := a.Alike c Eq a

namespace Alike
variable {V : α → β → Prop} {W : α' → β' → Prop}

theorem pure {x : α} {y : β} (hxy : V x y) : (pure x : Action δ ω α).Alike c V (pure y) := fun _ _ hst => .ok hxy hst

theorem raise (message : String) : (raise message : Action δ ω α).Alike c V (raise message) := fun _ _ hst => .error hst

theorem bind {a : Action δ ω α} {b : Action δ ω β} {f : α → Action δ ω α'} {g : β → Action δ ω β'}
    (ha : a.Alike c V b) (hf : ∀ {x y}, V x y → (f x).Alike c W (g y)) : (a >>= f).Alike c W (b >>= g) := by
  intro s t hst
  rw [exec_bind, exec_bind]
  have hab := ha hst
  generalize a.exec s = left at hab ⊢
  generalize b.exec t = right at hab ⊢
  cases hab with
  | ok hxy hst' => exact hf hxy hst'
  | error hst' => exact .error hst'

/-- What comes to the same answer, and what follows it. -/
theorem andThen {a b : Action δ ω α} {f : α → Action δ ω α'} {g : α → Action δ ω β'} (ha : a.Alike c Eq b)
    (hf : ∀ x, (f x).Alike c W (g x)) : (a >>= f).Alike c W (b >>= g) :=
  ha.bind fun {x _} hxy => hxy ▸ hf x

theorem discard {a : Action δ ω α} {b : Action δ ω β} (ha : a.Alike c V b) : (discard a).Alike c Eq (discard b) := by
  show Action.Alike c Eq ((fun _ => ()) <$> a) ((fun _ => ()) <$> b)
  rw [map_eq_pure_bind, map_eq_pure_bind]
  exact ha.bind fun _ => pure rfl

theorem onPanic {a : Action δ ω α} {b : Action δ ω β} {cleanup : Action δ ω Unit} (ha : a.Alike c V b)
    (hc : cleanup.Uniform c) : (a.onPanic cleanup).Alike c V (b.onPanic cleanup) := by
  intro s t hst
  unfold Action.onPanic
  rw [exec_tryCatch, exec_tryCatch]
  have hab := ha hst
  generalize a.exec s = left at hab ⊢
  generalize b.exec t = right at hab ⊢
  cases hab with
  | ok hxy hst' => exact .ok hxy hst'
  | @error e s' t' hst' =>
    cases e with
    | panic message => exact (hc.andThen (W := V) fun _ => raise message) hst'
    | overrun => exact .error hst'

end Alike

namespace Uniform

theorem pure (x : α) : (pure x : Action δ ω α).Uniform c := Alike.pure rfl

theorem bind {a : Action δ ω α} {f : α → Action δ ω β} (ha : a.Uniform c) (hf : ∀ x, (f x).Uniform c) :
    (a >>= f).Uniform c :=
  Alike.andThen ha hf

theorem record {e : Entry} (he : e.call? = none) : (record e : Action δ ω Unit).Uniform c :=
  fun _ _ hst => .ok rfl (hst.noted _ _ he he)

theorem registration : (registration k : Action δ ω Registration).Uniform c := by
  intro s t hst
  cases hr : s.worker.requests.get? k with
  | none =>
    rw [exec_registration_of_none hr, exec_registration_of_none (hst.requests ▸ hr)]
    exact .error hst
  | some r =>
    rw [exec_registration_of_some hr, exec_registration_of_some (hst.requests ▸ hr)]
    exact .ok rfl hst

theorem modifyRegistration (f : Registration → Registration) :
    (modifyRegistration k f : Action δ ω Unit).Uniform c :=
  fun _ _ hst => .ok rfl (hst.changed f)

/-- New subrequests get serial numbers from those on that mark what may have other slots. -/
theorem freshSerial : (freshSerial : Action δ ω Nat).Alike c (fun n m => n = m ∧ c.since ≤ n) freshSerial :=
  fun s t hst => by
    rw [exec_freshSerial, exec_freshSerial]
    exact .ok ⟨hst.nextSerial.symm, hst.since⟩ hst.numbered

theorem hand : (Host.hand : Action δ ω Nat).Uniform c :=
  fun s t hst => by
    rw [Host.exec_hand, Host.exec_hand]
    exact .ok hst.nextTicket.symm hst.handed

theorem failedCount : (Host.failedCount : Action δ ω UInt64).Uniform c :=
  fun s t hst => by
    show Answers c Eq (.ok s.shared.failed, s) (.ok t.shared.failed, t)
    exact .ok hst.failed.symm hst

end Uniform
end Action
end EngineBridge
