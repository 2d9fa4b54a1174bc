import EngineBridge.Proofs.Order
import Mathlib.Data.List.Infix

/-! The tick. Its loop runs one closure after another, each to its end, and what the closures do to the queue
    meanwhile, ticks of their own included, only brings the ones that were queued before nearer. -/

namespace EngineBridge
open EngineBridge.Action Registry
variable {δ ω α β : Type} {h : Host δ ω} {s t u : State δ ω} {items : List (Parcel δ ω)} {p : Parcel δ ω}
  {depth n : Nat}

/-! ### How deep ticks are nested -/

/-- How many closures ticks have taken. -/
def State.takeCount (s : State δ ω) : Nat := s.shared.journal.takes.length

/-- An action only adds to the closures taken, and takes at least a number of them before it is stopped because
    ticks are nested too deep. -/
structure Action.Deep (d : Nat) (a : Action δ ω α) : Prop where
  grows : ∀ {n s}, n ≤ s.takeCount → a.Leaves (fun t => n ≤ t.takeCount) s
  overrun : ∀ {s t}, a.exec s = (.error .overrun, t) → s.takeCount + d ≤ t.takeCount

namespace Action.Deep
variable {d : Nat}

theorem of_tickless {a : Action δ ω α} (ha : a.Tickless) : a.Deep d where
  grows {n s} hs := (ha.keeps rfl).mono fun t ht => by
    unfold State.takeCount at hs ⊢
    rwa [ht]
  overrun he := absurd he (ha.contained _ _)

theorem of_errand {a : Action δ ω α} (ha : a.Errand h True True) : a.Deep d := of_tickless (.of_errand ha)

theorem pure (x : α) : (pure x : Action δ ω α).Deep d := of_tickless (.pure x)

theorem bind {a : Action δ ω α} {f : α → Action δ ω β} (ha : a.Deep d) (hf : ∀ x, (f x).Deep d) :
    (a >>= f).Deep d where
  grows hs := (ha.grows hs).bind fun x _ _ ht => (hf x).grows ht
  overrun {s t} he := by
    rw [exec_bind] at he
    rcases hr : a.exec s with ⟨e | x, u⟩ <;> rw [hr] at he
    · cases he
      exact ha.overrun hr
    · have hsu : s.takeCount ≤ u.takeCount := (ha.grows (Nat.le_refl _)).exec hr
      exact Nat.le_trans (Nat.add_le_add_right hsu d) ((hf x).overrun he)

theorem runTask {tick : Action δ ω (List Nat)} (ht : tick.Deep d) : ∀ code : Task δ ω, (h.runTask tick code).Deep d
  | .done => pure ()
  | .panic message => of_errand (h := h) (.raise message)
  | .hook k next => by
    refine bind ?_ fun x => runTask ht (next x)
    by_cases hk : k = .tick
    · subst hk
      exact ht.bind fun _ => pure _
    · exact of_errand (.perform hk (fun _ => trivial) (fun _ => trivial) tick)
  | .request req code next => (of_errand (.useRequest req code)).bind fun x => runTask ht (next x)
  | .data change next => (of_errand (h := h) (.changeData change)).bind fun x => runTask ht (next x)
  | .world change next => (of_errand (h := h) (.changeWorld change)).bind fun x => runTask ht (next x)
  | .push work next => (of_errand (.push work)).bind fun x => runTask ht (next x)
  | .failedCount next => (of_errand (h := h) .failedCount).bind fun x => runTask ht (next x)
  | .awaitOffload index next => (of_errand (.awaitOffload index)).bind fun x => runTask ht (next x)

theorem runContained {tick : Action δ ω (List Nat)} (ht : tick.Deep d) (p : Parcel δ ω) :
    (h.runContained tick p).Deep d := by
  have run : (h.runParcel tick p).Deep d := by
    obtain ⟨x, code | ⟨target, code⟩⟩ := p
    · exact (of_errand (h := h) (.record rfl rfl)).bind fun _ => runTask ht code
    · exact of_errand (.resume target x code)
  refine ⟨fun hs => (run.grows hs).tryCatch fun e u _ hu => ?_, fun {s t} he => ?_⟩
  · cases e with
    | panic message => exact (of_tickless (.log _ _) : Deep d _).grows hu
    | overrun => exact .throw hu
  · unfold Host.runContained at he
    rw [exec_tryCatch] at he
    rcases hr : (h.runParcel tick p).exec s with ⟨(message | _) | x, u⟩ <;> rw [hr] at he
    · exact absurd he ((Tickless.log _ _).contained u t)
    · cases he
      exact run.overrun hr
    · cases he

theorem takeCount_of_take {sh : Shared δ ω} (hp : s.shared.take = (some p, sh)) :
    State.takeCount { s with shared := sh } = s.takeCount + 1 := by
  unfold State.takeCount
  rw [(Shared.takes_of_take hp).1, List.length_append]
  rfl

/-- The loop of a tick takes one closure more than the tick that is nested too deep. -/
theorem drain {tick : Action δ ω (List Nat)} (ht : tick.Deep d) (n : Nat) :
    (Host.drain (h.runContained tick) n).Deep (d + 1) := by
  induction n with
  | zero => exact pure _
  | succ n ih =>
    refine ⟨fun {m s} hs => ?_, fun {s t} he => ?_⟩
    · refine .bind_of_ok (exec_shared _) ?_
      rcases htake : s.shared.take with ⟨_ | p, sh⟩
      · obtain ⟨queue, -, rfl⟩ := Shared.pop_of_take_none htake
        exact .pure hs
      · have hs' : m ≤ State.takeCount { s with shared := sh } := by
          rw [takeCount_of_take htake]
          exact Nat.le_succ_of_le hs
        exact ((runContained ht p).grows hs').bind fun _ _ _ hu => (ih.grows hu).bind fun _ _ _ hv => .pure hv
    · unfold Host.drain at he
      rw [exec_bind_of_ok (exec_shared _)] at he
      rcases htake : s.shared.take with ⟨_ | p, sh⟩ <;> rw [htake] at he
      · cases he
      · -- The closure taken counts one; the others count where the stop comes from, its run or the rest of the loop.
        have hcount := takeCount_of_take htake
        dsimp only at he
        rw [exec_bind] at he
        rcases hr : (h.runContained tick p).exec { s with shared := sh } with ⟨e | x, u⟩ <;> rw [hr] at he
        · cases he
          have := (runContained ht p).overrun hr
          omega
        · have hu : State.takeCount { s with shared := sh } ≤ u.takeCount :=
            ((runContained ht p).grows (Nat.le_refl _)).exec hr
          have := (ih.bind fun _ => pure _).overrun he
          omega

/-- Ticks that are nested to some depth have taken that many closures. -/
theorem tickWithin : ∀ depth, (h.tickWithin depth).Deep depth
  | 0 => ⟨fun hs => .throw hs, fun he => by cases he; exact Nat.le_refl _⟩
  | depth + 1 => by
    have hget : (get : Action δ ω (State δ ω)).Tickless := ⟨fun _ _ he => (by cases he), id⟩
    exact (of_tickless hget).bind fun _ => (drain (tickWithin depth) _).bind fun _ =>
      (of_tickless .reportFailed).bind fun _ => pure _

end Action.Deep

/-! ### Closures that have been queued -/

namespace Steps

theorem takes_prefix (hs : Reachable h s) (hst : Steps h s t) :
    s.shared.journal.takes <+: t.shared.journal.takes :=
  Deeds.takes_prefix (hst.deeds hs)

theorem accepted_prefix (hs : Reachable h s) (hst : Steps h s t) :
    s.shared.journal.accepted <+: t.shared.journal.accepted :=
  Journal.tell_prefix _ (Deeds.grows (hst.deeds hs))

/-- A closure stays in the queue until it has been taken and has come to its fate. -/
theorem queued (hs : Reachable h s) (hst : Steps h s t) (hq : s.shared.queue.Holds items) (hp : p ∈ items) :
    p.Done t.shared.journal ∨ ∃ items', t.shared.queue.Holds items' ∧ p ∈ items' := by
  induction hst with
  | refl => exact .inr ⟨items, hq, hp⟩
  | @tail u t hsu hut ih =>
    have hu := (hs.steps hsu).course
    rcases ih with hdone | ⟨items', hq', hp'⟩
    · exact .inl (hdone.mono (Deeds.grows (hut.deeds hu)).subset)
    · rcases hut.parted with htakes | ⟨q, sh, htake, hdeeds, htakes, hdone, -⟩
      · obtain ⟨more, hmore⟩ := Deeds.adds (hut.deeds hu) htakes hq'
        exact .inr ⟨_, hmore, List.mem_append_left more hp'⟩
      · -- The step takes the first closure of the queue: this one, or one before it.
        obtain ⟨rest, queue, rfl, hrest, -, rfl⟩ := Shared.take_eq_some hq' htake
        rcases List.mem_cons.mp hp' with rfl | hp'
        · exact .inl hdone
        · obtain ⟨more, hmore⟩ := Deeds.adds hdeeds htakes hrest
          exact .inr ⟨_, hmore, List.mem_append_left more hp'⟩

/-- A closure that has been queued and has been taken has come to its fate. -/
theorem done (hs : Reachable h s) (hst : Steps h s t) (hq : s.shared.queue.Holds items) (hp : p ∈ items)
    (htaken : p.ticket ∈ t.shared.journal.takes) : p.Done t.shared.journal := by
  refine (queued hs hst hq hp).resolve_right ?_
  -- Were it queued still, its ticket would stand in the line twice.
  rintro ⟨items', hq', hp'⟩
  have ht := hs.steps hst
  obtain ⟨items'', hq'', heq⟩ := ht.lined.each
  obtain rfl := hq'.unique hq''
  have hn := ht.accepted_nodup
  rw [heq] at hn
  exact (List.nodup_append.mp hn).2.2 _ htaken _ (List.mem_map_of_mem hp') rfl

end Steps

/-! ### The loop -/

/-- The loop of a tick in which ticks can be nested to the given depth: up to a number of rounds, or until the
    queue is empty, it takes the first closure from the queue and runs it to its end. -/
inductive Rounds (h : Host δ ω) (depth : Nat) : Nat → State δ ω → List (Parcel δ ω) → State δ ω → Prop
  | stop {s : State δ ω} : Rounds h depth 0 s [] s
  | empty {n : Nat} {s : State δ ω} {sh : Shared δ ω} : s.shared.take = (none, sh) →
      Rounds h depth (n + 1) s [] { s with shared := sh }
  | round {n : Nat} {s u t : State δ ω} {p : Parcel δ ω} {ps : List (Parcel δ ω)} {sh : Shared δ ω} :
      s.shared.take = (some p, sh) →
      (h.runContained (h.tickWithin depth) p).exec { s with shared := sh } = (.ok (), u) → Rounds h depth n u ps t →
      Rounds h depth (n + 1) s (p :: ps) t

theorem rounds_of_drain {xs : List Nat}
    (he : (Host.drain (h.runContained (h.tickWithin depth)) n).exec s = (.ok xs, t)) :
    ∃ ps, Rounds h depth n s ps t ∧ xs = ps.map Parcel.ticket := by
  induction n generalizing s xs with
  | zero =>
    cases he
    exact ⟨[], .stop, rfl⟩
  | succ n ih =>
    unfold Host.drain at he
    rw [exec_bind_of_ok (exec_shared _)] at he
    rcases htake : s.shared.take with ⟨_ | p, sh⟩ <;> rw [htake] at he
    · cases he
      exact ⟨[], .empty htake, rfl⟩
    · obtain ⟨_, u, hrun, he⟩ := exec_bind_eq_ok he
      obtain ⟨ys, v, hdrain, he⟩ := exec_bind_eq_ok he
      cases he
      obtain ⟨ps, hps, rfl⟩ := ih hdrain
      exact ⟨p :: ps, .round htake hrun hps, rfl⟩

/-- A tick that comes to its end has gone through its loop, and then reports the failed pushes. -/
theorem rounds_of_tick {xs : List Nat} (he : (h.tickWithin (depth + 1)).exec s = (.ok xs, t)) :
    ∃ ps u, Rounds h depth s.shared.queue.length s ps u ∧ xs = ps.map Parcel.ticket ∧
      h.reportFailed.exec u = (.ok (), t) := by
  unfold Host.tickWithin at he
  rw [exec_bind_of_ok exec_get] at he
  obtain ⟨ys, u, hdrain, he⟩ := exec_bind_eq_ok he
  obtain ⟨_, v, hreport, he⟩ := exec_bind_eq_ok he
  cases he
  obtain ⟨ps, hr, rfl⟩ := rounds_of_drain hdrain
  exact ⟨ps, u, hr, rfl, hreport⟩

namespace Rounds
variable {ps : List (Parcel δ ω)}

theorem steps (hr : Rounds h depth n s ps t) : Steps h s t := by
  induction hr with
  | stop => exact .refl
  | empty htake => exact .single (.nothing htake)
  | round htake hrun _ ih =>
    exact ((Steps.runContained (Steps.tickWithin depth) htake).exec hrun).trans ih

/-- What a round takes is taken when it is over, and all that has been taken before it. -/
theorem taken {sh : Shared δ ω} {u : State δ ω} (hs : Reachable h s) (htake : s.shared.take = (some p, sh))
    (hrun : (h.runContained (h.tickWithin depth) p).exec { s with shared := sh } = (.ok (), u)) :
    s.shared.journal.takes ++ [p.ticket] <+: u.shared.journal.takes := by
  have hsu : Steps h s u := (Steps.runContained (Steps.tickWithin depth) htake).exec hrun
  have hu := hs.steps hsu
  have hlen : s.takeCount + 1 ≤ u.takeCount := by
    have := ((Deep.runContained (Deep.tickWithin depth) p).grows (Nat.le_refl _)).exec hrun
    rwa [Deep.takeCount_of_take htake] at this
  -- Both lists are beginnings of what the queue has taken in.
  obtain ⟨items, hq, heq⟩ := hs.lined.each
  obtain ⟨rest, queue, rfl, -, -⟩ := Shared.take_eq_some hq htake
  obtain ⟨items', -, heq'⟩ := hu.lined.each
  have hleft : s.shared.journal.takes ++ [p.ticket] <+: u.shared.journal.accepted := by
    refine .trans ⟨rest.map Parcel.ticket, ?_⟩ (hsu.accepted_prefix hs)
    rw [heq, List.append_assoc]
    rfl
  refine List.prefix_of_prefix_length_le hleft ⟨_, heq'.symm⟩ ?_
  rw [List.length_append]
  exact hlen

/-- The loop takes a closure in each of its rounds, in order. -/
theorem sublist (hs : Reachable h s) (hr : Rounds h depth n s ps t) :
    (s.shared.journal.takes ++ ps.map Parcel.ticket).Sublist t.shared.journal.takes := by
  induction hr with
  | stop => rw [List.map_nil, List.append_nil]
  | empty htake =>
    obtain ⟨queue, -, rfl⟩ := Shared.pop_of_take_none htake
    rw [List.map_nil, List.append_nil]
  | @round n s u t p ps sh htake hrun _ ih =>
    have hsu : Steps h s u := (Steps.runContained (Steps.tickWithin depth) htake).exec hrun
    rw [List.map_cons, List.append_cons]
    exact ((taken hs htake hrun).sublist.append (.refl _)).trans (ih (hs.steps hsu))

/-- What the loop takes comes to its fate in its round. -/
theorem done (hs : Reachable h s) (hr : Rounds h depth n s ps t) : ∀ p ∈ ps, p.Done t.shared.journal := by
  induction hr with
  | stop | empty => simp
  | @round n s u t p ps sh htake hrun hr ih =>
    have hsu : Steps h s u := (Steps.runContained (Steps.tickWithin depth) htake).exec hrun
    have hu := hs.steps hsu
    obtain ⟨items, hq, -⟩ := hs.lined.each
    obtain ⟨rest, queue, rfl, -, -⟩ := Shared.take_eq_some hq htake
    have hp : p.Done u.shared.journal :=
      hsu.done hs hq List.mem_cons_self ((taken hs htake hrun).subset (by simp))
    rintro q (_ | ⟨_, hq'⟩)
    · exact hp.mono (Deeds.grows (hr.steps.deeds hu)).subset
    · exact ih hu q hq'

/-- A loop of as many rounds as there are closures in the queue takes all of them, itself or through ticks
    nested in it. -/
theorem reach (hs : Reachable h s) (hr : Rounds h depth n s ps t) :
    s.shared.journal.accepted.take (s.shared.journal.takes.length + n) <+: t.shared.journal.takes := by
  induction hr with
  | stop =>
    obtain ⟨items, -, heq⟩ := hs.lined.each
    rw [heq, Nat.add_zero, List.take_left]
  | empty htake =>
    obtain ⟨items, hq, heq⟩ := hs.lined.each
    obtain ⟨rfl, rfl⟩ := Shared.take_eq_none hq htake
    rw [heq, List.map_nil, List.append_nil]
    exact List.take_prefix _ _
  | @round n s u t p ps sh htake hrun _ ih =>
    have hsu : Steps h s u := (Steps.runContained (Steps.tickWithin depth) htake).exec hrun
    have hlen := (taken hs htake hrun).length_le
    rw [List.length_append, List.length_singleton] at hlen
    -- The round has taken a closure at least, so the rounds that are left get as far.
    refine .trans ?_ (ih (hs.steps hsu))
    have hmore : s.shared.journal.accepted <+: u.shared.journal.accepted := hsu.accepted_prefix hs
    exact (hmore.take _).trans (List.take_prefix_take_left (by omega))

end Rounds

/-! ### Ticks that are stopped -/

/-- Whatever panics in an action is the logger that the action leaves set. -/
def Action.LogPanics (a : Action δ ω α) : Prop :=
  ∀ s t message, a.exec s = (.error (.panic message), t) → ¬ t.worker.LogsCalmly

namespace Action.LogPanics

theorem of_ok {a : Action δ ω α} (ha : ∀ s, ∃ x t, a.exec s = (.ok x, t)) : a.LogPanics := by
  intro s t message he
  obtain ⟨x, u, hu⟩ := ha s
  rw [hu] at he
  cases he

theorem pure (x : α) : (pure x : Action δ ω α).LogPanics := of_ok fun s => ⟨x, s, rfl⟩

theorem bind {a : Action δ ω α} {f : α → Action δ ω β} (ha : a.LogPanics) (hf : ∀ x, (f x).LogPanics) :
    (a >>= f).LogPanics := by
  intro s t message he
  rw [exec_bind] at he
  rcases hr : a.exec s with ⟨e | x, u⟩ <;> rw [hr] at he
  · cases he
    exact ha s t message hr
  · exact hf x u t message he

theorem log (hc : h.Calm) (notice : Log.Notice) (req : Option ReqId) : (h.log notice req).LogPanics := by
  intro s t message he hl
  have hst : Spoken none s t := (Spoken.log notice req).exec he
  rw [hst.worker] at hl
  obtain ⟨u, hu, -⟩ := hc.exec_log (s := s) hl notice req
  rw [hu] at he
  cases he

theorem runContained (hc : h.Calm) (tick : Action δ ω (List Nat)) (p : Parcel δ ω) :
    (h.runContained tick p).LogPanics := by
  intro s t message he
  unfold Host.runContained at he
  rw [exec_tryCatch] at he
  rcases hr : (h.runParcel tick p).exec s with ⟨(cause | _) | x, u⟩ <;> rw [hr] at he
  · exact log hc (.taskPanicked cause) none u t message he
  · cases he
  · cases he

theorem drain (hc : h.Calm) (tick : Action δ ω (List Nat)) :
    ∀ n, (Host.drain (h.runContained tick) n).LogPanics
  | 0 => pure _
  | n + 1 => by
    refine bind (of_ok fun s => ⟨_, _, exec_shared _⟩) fun taken => ?_
    split
    · exact pure _
    · exact (runContained hc tick _).bind fun _ => (drain hc tick n).bind fun _ => pure _

theorem reportFailed (hc : h.Calm) : (h.reportFailed : Action δ ω Unit).LogPanics := by
  refine bind (of_ok fun s => ⟨_, s, rfl⟩) fun failed => bind (of_ok fun s => ⟨_, s, exec_worker⟩) fun w => ?_
  dsimp only
  split
  · exact (log hc _ _).bind fun _ => of_ok fun s => ⟨(), _, exec_modifyWorker _⟩
  · exact pure _

/-- The panics of tasks are contained, so a tick panics only with the logger. -/
theorem tickWithin (hc : h.Calm) : ∀ depth, (h.tickWithin depth).LogPanics
  | 0 => fun _ _ _ he => by cases he
  | depth + 1 => bind (of_ok fun s => ⟨s, s, exec_get⟩) fun _ => (drain hc _ _).bind fun _ =>
      (reportFailed hc).bind fun _ => pure _

end Action.LogPanics

/-- An action does the same as another one, unless it is stopped because ticks are nested too deep. -/
def Action.Agrees (a b : Action δ ω α) : Prop :=
  ∀ s, a.exec s = b.exec s ∨ ∃ t, a.exec s = (.error .overrun, t)

namespace Action.Agrees

theorem refl (a : Action δ ω α) : a.Agrees a := fun _ => .inl rfl

theorem bind {a a' : Action δ ω α} {f f' : α → Action δ ω β} (ha : a.Agrees a') (hf : ∀ x, (f x).Agrees (f' x)) :
    (a >>= f).Agrees (a' >>= f') := by
  intro s
  rcases ha s with heq | ⟨t, ht⟩
  · rw [exec_bind, exec_bind, ← heq]
    rcases a.exec s with ⟨e | x, u⟩
    · exact .inl rfl
    · exact hf x u
  · exact .inr ⟨t, exec_bind_of_error ht⟩

variable {tick tick' : Action δ ω (List Nat)}

theorem runTask (ht : tick.Agrees tick') : ∀ code : Task δ ω, (h.runTask tick code).Agrees (h.runTask tick' code)
  | .done | .panic _ => refl _
  | .hook k next => by
    refine bind ?_ fun x => runTask ht (next x)
    cases k with
    | tick => exact ht.bind fun _ => refl _
    | _ => exact refl _
  | .request _ _ next => (refl _).bind fun x => runTask ht (next x)
  | .data _ next => (refl _).bind fun x => runTask ht (next x)
  | .world _ next => (refl _).bind fun x => runTask ht (next x)
  | .push _ next => (refl _).bind fun x => runTask ht (next x)
  | .failedCount next => (refl _).bind fun x => runTask ht (next x)
  | .awaitOffload _ next => (refl _).bind fun x => runTask ht (next x)

theorem runContained (ht : tick.Agrees tick') (p : Parcel δ ω) :
    (h.runContained tick p).Agrees (h.runContained tick' p) := by
  have run : (h.runParcel tick p).Agrees (h.runParcel tick' p) := by
    obtain ⟨x, code | ⟨target, code⟩⟩ := p
    · exact (refl _).bind fun _ => runTask ht code
    · exact refl _
  intro s
  unfold Host.runContained
  rw [exec_tryCatch, exec_tryCatch]
  rcases run s with heq | ⟨t, ht⟩
  · rw [heq]
    exact .inl rfl
  · rw [ht]
    exact .inr ⟨t, rfl⟩

theorem drain (ht : tick.Agrees tick') :
    ∀ n, (Host.drain (h.runContained tick) n).Agrees (Host.drain (h.runContained tick') n)
  | 0 => refl _
  | n + 1 => by
    refine (refl _).bind fun taken => ?_
    split
    · exact refl _
    · exact (runContained ht _).bind fun _ => (drain ht n).bind fun _ => refl _

/-- How deep ticks may be nested makes no difference until they are nested so deep. -/
theorem tickWithin : ∀ {depth depth' : Nat}, depth ≤ depth' → (h.tickWithin depth).Agrees (h.tickWithin depth')
  | 0, _, _ => fun s => .inr ⟨s, rfl⟩
  | _ + 1, _ + 1, hd => (refl _).bind fun _ =>
      (drain (tickWithin (Nat.le_of_succ_le_succ hd)) _).bind fun _ => refl _

end Action.Agrees

/-! ### The law of the tick -/

/-- Closures that go through the queue have been run in the order in which it has taken them in, none of them
    twice, and what it has refused has not been run. -/
structure Journal.InOrder (j : Journal) : Prop where
  accepted_once : j.accepted.Nodup
  run_once : j.runs.Nodup
  order : (j.runs.filter (· ∈ j.accepted)).Sublist j.accepted
  /-- None is passed over: the first ones have been run, or destroyed as continuations that came too late. -/
  first : j.fates.filter (· ∈ j.accepted) <+: j.accepted
  refused : ∀ {x}, .refused x ∈ j → x ∉ j.runs

theorem Reachable.inOrder (hs : Reachable h s) : s.shared.journal.InOrder where
  accepted_once := hs.accepted_nodup
  run_once := hs.runs_nodup
  order := hs.runs_sublist
  first := by
    obtain ⟨items, -, heq⟩ := hs.lined.each
    rw [hs.fates_filter]
    exact ⟨_, heq.symm⟩
  refused hx := hs.not_run_of_refused hx

/-- What a push has done: its closure is the last one that the queue has taken in, or it has been refused. -/
def State.Pushed (s : State δ ω) (accepted : Bool) (t : State δ ω) : Prop :=
  if accepted then t.shared.journal.accepted = s.shared.journal.accepted ++ [s.shared.nextTicket]
  else t.shared.journal.accepted = s.shared.journal.accepted ∧ .refused s.shared.nextTicket ∈ t.shared.journal

theorem State.pushed (hq : s.shared.queue.Holds items) (work : Work δ ω) :
    ∃ accepted t, (h.push work).exec s = (.ok accepted, t) ∧ s.Pushed accepted t := by
  refine ⟨_, _, exec_shared _, ?_⟩
  unfold Shared.push Shared.hand
  have hq' : ({ s.shared with nextTicket := s.shared.nextTicket + 1 }.record
      (.handed s.shared.nextTicket)).queue.Holds items := hq
  rcases Shared.send_cases hq' h.waker ⟨s.shared.nextTicket, work⟩ with ⟨queue, world, -, -, hsend⟩ | ⟨world, -, hsend⟩
  · dsimp only
    rw [hsend]
    exact Journal.tell_append _ [.woken, .queued _, .handed _] _
  · dsimp only
    rw [hsend]
    refine ⟨(Journal.tell_append _ [.destroyed _, .woken, .refused _, .handed _] _).trans (List.append_nil _), ?_⟩
    simp

/-- What a tick that has come to its end has done. -/
structure Ticked (h : Host δ ω) (depth : Nat) (s t : State δ ω) (count : Nat) : Prop where
  /-- Whatever was in the queue has come to its fate. -/
  all : ∀ p ∈ s.shared.queue.held, p.Done t.shared.journal
  /-- The answer is the number of the rounds of its own loop, each of which has taken a closure. -/
  rounds : ∃ ps u, Rounds h depth s.shared.queue.length s ps u ∧ count = ps.length ∧
    (s.shared.journal.takes ++ ps.map Parcel.ticket).Sublist t.shared.journal.takes ∧
    ∀ p ∈ ps, p.Done t.shared.journal

theorem Reachable.ticked (hs : Reachable h s) (hsize : s.shared.queue.capacity < UInt64.size)
    (he : (h.perform (h.tickWithin (depth + 1)) .tick).exec s = (.ok n, t)) : Ticked h depth s t n := by
  obtain ⟨items, hq, heq⟩ := hs.lined.each
  obtain ⟨xs, v, htick, he⟩ := exec_bind_eq_ok he
  cases he
  obtain ⟨ps, u, hr, rfl, hreport⟩ := rounds_of_tick htick
  have hu := hs.steps hr.steps
  have hut : Steps h u t := .single (by
    have := Step.reported (h := h) (s := u)
    rwa [hreport] at this)
  have hmore : u.shared.journal ⊆ t.shared.journal := (Deeds.grows (hut.deeds hu)).subset
  refine ⟨fun p hp => ?_, ps, u, hr, List.length_map _, ?_, fun p hp => (hr.done hs p hp).mono hmore⟩
  · rw [hq.held_eq hsize] at hp
    refine (hr.steps.done hs hq hp ?_).mono hmore
    -- There were as many rounds as closures in the queue, so the loop has got to the last of them.
    have hreach := hr.reach hs
    rw [hq.length_eq hsize, heq, List.take_of_length_le (by simp)] at hreach
    exact hreach.subset (List.mem_append_right _ (List.mem_map_of_mem hp))
  · exact (hr.sublist hs).trans (hut.takes_prefix hu).sublist

/-- The order of the runs. A push puts its closure at the end of the queue or has it refused. Closures are run
    in the order in which the queue has taken them in, none twice and none that it has refused. When a tick
    comes to its end, every closure that was queued when it began has come to its fate, whatever
    panicked meanwhile, was pushed or ticked, and it answers how many closures its own loop has run.
    It always comes to its end where the engine and the logger do not panic, unless ticks are nested too
    deep, and then each of them has taken a closure. -/
theorem Reachable.tick_law (hs : Reachable h s) (hsize : s.shared.queue.capacity < UInt64.size) :
    s.shared.journal.InOrder ∧
    (∀ work, ∃ accepted t, (h.push work).exec s = (.ok accepted, t) ∧ s.Pushed accepted t) ∧
    (∀ depth n t, (h.perform (h.tickWithin (depth + 1)) .tick).exec s = (.ok n, t) → Ticked h depth s t n) ∧
    (∀ depth message t, (h.perform (h.tickWithin depth) .tick).exec s = (.error (.panic message), t) →
      h.Calm → ¬ t.worker.LogsCalmly) ∧
    (∀ depth t, (h.perform (h.tickWithin depth) .tick).exec s = (.error .overrun, t) →
      s.takeCount + depth ≤ t.takeCount) ∧
    ∀ depth depth', depth ≤ depth' → (h.tickWithin depth).Agrees (h.tickWithin depth') := by
  refine ⟨hs.inOrder, fun work => ?_, fun depth n t he => hs.ticked hsize he,
    fun depth message t he hc => ?_, fun depth t he => ?_, fun _ _ => Action.Agrees.tickWithin⟩
  · obtain ⟨items, hq, -⟩ := hs.lined.each
    exact State.pushed hq work
  · exact ((Action.LogPanics.tickWithin hc depth).bind fun _ => .pure _) s t message he
  · exact ((Action.Deep.tickWithin depth).bind fun _ => .pure _).overrun he

/-- Code that queues a task that panics, one that pushes a further task and ticks itself, and one that does
    nothing. -/
def Task.queueing : Task Unit Unit :=
  .push (.task (.panic "oops")) fun _ =>
    .push (.task (.push (.task .done) fun _ => .hook .tick fun _ => .done)) fun _ =>
      .push (.task .done) fun _ => .done

/-- A tick over a task that panics and one that ticks itself: its own loop runs two of the three. -/
theorem tick_law_when_nested :
    let h : Host Unit Unit := .prompt ⟨9⟩ (.finish (.ok .ok))
    ∃ s t, Reachable h s ∧ s.shared.journal.accepted = [0, 1, 2] ∧ t.shared.journal.runs = [0, 1, 2, 3] ∧
      s.shared.journal.InOrder ∧ Ticked h 2 s t 2 := by
  intro h
  let s := ((h.run .queueing).exec State.fresh).2
  have hs : Reachable h s := Reachable.fresh.run _
  have hsize : s.shared.queue.capacity < UInt64.size := by decide +kernel
  have hn : ((h.perform (h.tickWithin 3) .tick).exec s).1.toOption = some 2 := by decide +kernel
  obtain ⟨horder, -, hticked, -⟩ := Reachable.tick_law hs hsize
  rcases he : (h.perform (h.tickWithin 3) .tick).exec s with ⟨_ | n, t⟩
  · rw [he] at hn
    cases hn
  · rw [he] at hn
    cases hn
    have ht : t = ((h.perform (h.tickWithin 3) .tick).exec s).2 := by rw [he]
    exact ⟨s, t, hs, by decide +kernel, ht ▸ by decide +kernel, horder, hticked 2 2 t he⟩

end EngineBridge
