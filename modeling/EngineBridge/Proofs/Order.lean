import EngineBridge.Proofs.Resumption
import EngineBridge.Proofs.Tickless

/-! The order of the closures that go through the queue. What the queue has taken in is what ticks have
    taken out, and after it what the queue holds. A closure that is taken is run or destroyed before the
    next one is taken, so closures meet their fates in the order in which they have been taken, whatever
    the code does that runs meanwhile. -/

namespace EngineBridge
open EngineBridge.Action Registry
variable {δ ω : Type} {h : Host δ ω} {a b : List Nat × State δ ω} {X : List Nat} {s t : State δ ω}
  {items : List (Parcel δ ω)} {p : Parcel δ ω}

/-! ### What the journal tells of the queue -/

/-- The closure that an entry tells to have been taken in by the queue. -/
def Entry.accepts? : Entry → Option Nat
  | .queued ticket => some ticket
  | _ => none

/-- Entries that tell nothing of the queue. -/
def Entry.OffQueue : Entry → Prop
  | .queued _ | .refused _ | .taken _ => False
  | _ => True

namespace Journal

/-- The closures that the queue has taken in. -/
def accepted : Journal → List Nat := tell Entry.accepts?

/-- The closures that have been run or destroyed. -/
def fates : Journal → List Nat := tell Entry.spends?

theorem tell_prefix {α : Type} (f : Entry → Option α) {j j' : Journal} (hj : j <:+ j') : tell f j <+: tell f j' := by
  obtain ⟨es, rfl⟩ := hj
  rw [tell_append]
  exact List.prefix_append _ _

theorem tell_sublist {α : Type} {f g : Entry → Option α} (hfg : ∀ {e x}, f e = some x → g e = some x) (j : Journal) :
    (tell f j).Sublist (tell g j) := by
  unfold tell
  induction j.reverse with
  | nil => exact .slnil
  | cons e es ih =>
    cases hf : f e with
    | some x =>
      rw [List.filterMap_cons_some hf, List.filterMap_cons_some (hfg hf)]
      exact ih.cons_cons x
    | none =>
      rw [List.filterMap_cons_none hf]
      refine ih.trans ?_
      rw [List.filterMap_cons]
      split
      · exact .refl _
      · exact List.sublist_cons_self _ _

theorem runs_sublist_fates (j : Journal) : j.runs.Sublist j.fates :=
  tell_sublist (fun {e x} he => by cases e <;> cases he; rfl) j

theorem fates_eq (j : Journal) : j.fates = j.spent.reverse := List.filterMap_reverse

theorem mem_fates {j : Journal} {x : Nat} : x ∈ j.fates ↔ .ran x ∈ j ∨ .destroyed x ∈ j := by
  unfold fates
  rw [mem_tell]
  constructor
  · rintro ⟨e, he, hx⟩
    cases e <;> cases hx
    · exact .inl he
    · exact .inr he
  · rintro (he | he)
    · exact ⟨_, he, rfl⟩
    · exact ⟨_, he, rfl⟩

theorem mem_runs {j : Journal} {x : Nat} : x ∈ j.runs ↔ .ran x ∈ j := by
  unfold runs
  rw [mem_tell]
  constructor
  · rintro ⟨e, he, hx⟩
    cases e <;> cases hx
    exact he
  · exact fun he => ⟨_, he, rfl⟩

theorem accepts?_of_off {e : Entry} (he : e.OffQueue) : e.accepts? = none := by
  cases e <;> first | rfl | cases he

theorem takes?_of_off {e : Entry} (he : e.OffQueue) : e.takes? = none := by
  cases e <;> first | rfl | cases he

end Journal

/-! ### The line of the closures -/

/-- The queue has taken in the closures that ticks have taken out, and after them those that it holds; one
    that it has refused has been destroyed. -/
structure Lined (s : State δ ω) : Prop where
  each : ∃ items, s.shared.queue.Holds items ∧
    s.shared.journal.accepted = s.shared.journal.takes ++ items.map Parcel.ticket
  refused : ∀ {x}, .refused x ∈ s.shared.journal → .destroyed x ∈ s.shared.journal

namespace Lined

/-- Entries and a queue that go together: what has been taken in comes to the end of the line, and what has been
    taken out leaves it at its head. -/
theorem change (hs : Lined s) (es : Journal) (hj : t.shared.journal = es ++ s.shared.journal)
    (hrefused : ∀ x, .refused x ∈ es → .destroyed x ∈ es)
    (hline : ∀ items, s.shared.queue.Holds items → ∃ items', t.shared.queue.Holds items' ∧
      items.map Parcel.ticket ++ Journal.accepted es = Journal.takes es ++ items'.map Parcel.ticket) : Lined t where
  each := by
    obtain ⟨items, hq, heq⟩ := hs.each
    obtain ⟨items', hq', hmove⟩ := hline items hq
    refine ⟨items', hq', ?_⟩
    calc t.shared.journal.accepted
      _ = s.shared.journal.accepted ++ Journal.accepted es := by rw [hj]; exact Journal.tell_append _ _ _
      _ = s.shared.journal.takes ++ (items.map Parcel.ticket ++ Journal.accepted es) := by
        rw [heq, List.append_assoc]
      _ = s.shared.journal.takes ++ Journal.takes es ++ items'.map Parcel.ticket := by
        rw [hmove, List.append_assoc]
      _ = t.shared.journal.takes ++ items'.map Parcel.ticket := by
        rw [hj]
        exact congrArg (· ++ _) (Journal.tell_append _ _ _).symm
  refused hx := by
    rw [hj] at hx ⊢
    rcases List.mem_append.mp hx with hx | hx
    · exact List.mem_append_left _ (hrefused _ hx)
    · exact List.mem_append_right es (hs.refused hx)

theorem off (hs : Lined s) (es : Journal) (hes : ∀ e ∈ es, e.OffQueue)
    (hj : t.shared.journal = es ++ s.shared.journal) (hqueue : t.shared.queue = s.shared.queue) : Lined t := by
  have haccepted : Journal.accepted es = [] := Journal.tell_eq_nil fun e he => Journal.accepts?_of_off (hes e he)
  have htakes : Journal.takes es = [] := Journal.tell_eq_nil fun e he => Journal.takes?_of_off (hes e he)
  refine hs.change es hj (fun x hx => (hes _ hx).elim) fun items hq => ⟨items, hqueue ▸ hq, ?_⟩
  rw [haccepted, htakes, List.append_nil, List.nil_append]

theorem asked (hs : Lined s) (n : Option Nat) (c : Call) : Lined (h.asked n c s) :=
  hs.off [.called n c _] (by simp [Entry.OffQueue]) rfl rfl

theorem recorded (hs : Lined s) (r : Registration) (sub : Subrequest) (p : Pending δ ω) :
    Lined (h.recorded s r sub p) := by
  have ht := (hs.off (t := Host.numbered s) [] (by simp) rfl rfl).asked (h := h) (some r.serial) (.mainOf r.id)
  exact (ht.off (t := Host.pended (h.rooted s r) p) [] (by simp) rfl rfl).asked _ _

theorem sent (hs : Lined s) (p : Parcel δ ω) : Lined (h.sent s p) := by
  obtain ⟨items, hq, -⟩ := hs.each
  unfold Host.sent
  rcases Shared.send_cases hq h.waker p with ⟨queue, world, hq', -, hsend⟩ | ⟨world, -, hsend⟩ <;> rw [hsend]
  · refine hs.change [.woken, .queued p.ticket] rfl (by simp) fun items' hi => ⟨items ++ [p], hq', ?_⟩
    obtain rfl := hq.unique hi
    rw [List.map_append]
    rfl
  · refine hs.change [.destroyed p.ticket, .woken, .refused p.ticket] rfl (by simp) fun items' hi => ⟨items', hi, ?_⟩
    exact List.append_nil _

theorem taken {sh : Shared δ ω} (hs : Lined s) (hp : s.shared.take = (some p, sh)) :
    Lined { s with shared := sh } := by
  obtain ⟨items, hq, -⟩ := hs.each
  obtain ⟨rest, queue, rfl, hq', -, rfl⟩ := Shared.take_eq_some hq hp
  refine hs.change [.taken p.ticket] rfl (by simp) fun items' hi => ⟨rest, hq', ?_⟩
  obtain rfl := hq.unique hi
  exact List.append_nil _

end Lined

theorem Service.lined {slot : Option Nat} (hs : Lined a.2) (hab : Service h slot a b) : Lined b.2 := by
  cases hab with
  | spoken hst =>
    obtain ⟨es, hes, ht⟩ := hst.spoken.entries
    refine hs.off es (fun e he => ?_) hes (by rw [hst.spoken.shared])
    have htalk := (ht e he).1
    cases e <;> trivial
  | data | numbered | offloaded | offloadEnded => exact hs.off [] (by simp) rfl rfl
  | handed => exact hs.off [.handed _] (by simp [Entry.OffQueue]) rfl rfl
  | destroyed => exact hs.off [.destroyed _] (by simp [Entry.OffQueue]) rfl rfl
  | sent => exact hs.sent _
  | @issued X s k r sub p =>
    exact (hs.recorded (h := h) r sub p).off [.issued _ _] (by simp [Entry.OffQueue]) rfl rfl
  | @unissued X s k r sub p =>
    exact (hs.recorded (h := h) r sub p).off [.destroyed _] (by simp [Entry.OffQueue]) rfl rfl
  | @broken X s k r sub p => exact hs.recorded r sub p

theorem Deed.lined (hs : Lined a.2) (hab : Deed h a b) : Lined b.2 := by
  cases hab with
  | service hab => exact hab.lined hs
  | moved => exact hs.off [.moved _ _] (by simp [Entry.OffQueue]) rfl rfl
  | ended => exact hs.off [.called _ _ _, .moved _ _] (by simp [Entry.OffQueue]) rfl rfl
  | read => exact hs.asked _ _
  | unread => exact hs.off [.moved _ _, .called _ _ _] (by simp [Entry.OffQueue]) rfl rfl
  | registered => exact hs.off [.registered _ _ _ _] (by simp [Entry.OffQueue]) rfl rfl
  | removed => exact hs.off [.removed _] (by simp [Entry.OffQueue]) rfl rfl
  | started => exact hs.off [.started _ _] (by simp [Entry.OffQueue]) rfl rfl
  | begun => exact hs.off [.started _ _, .ran _] (by simp [Entry.OffQueue]) rfl rfl
  | ran => exact hs.off [.ran _] (by simp [Entry.OffQueue]) rfl rfl
  | taken htake => exact hs.taken htake
  | looked htake =>
    obtain ⟨items, hq, -⟩ := hs.each
    obtain ⟨-, rfl⟩ := Shared.take_eq_none hq htake
    exact hs
  | completed => exact hs.off [.completed _] (by simp [Entry.OffQueue]) rfl rfl
  | uncounted | untargeted | filtered | seen => exact hs.off [] (by simp) rfl rfl

theorem Reachable.lined (hs : Reachable h s) : Lined s :=
  hs.invariant (P := fun a => Lined a.2)
    (fun _ _ _ _ => ⟨⟨[], Queue.Channel.holds_new _ _ _, rfl⟩, fun hx => by cases hx⟩)
    fun _ hs hab => hab.lined hs

/-! ### One closure after the other -/

/-- What is done without taking from the queue can only add to it. -/
theorem Deed.adds (hab : Deed h a b) (htakes : b.2.shared.journal.takes = a.2.shared.journal.takes)
    (hq : a.2.shared.queue.Holds items) : ∃ more, b.2.shared.queue.Holds (items ++ more) := by
  have same : b.2.shared.queue = a.2.shared.queue → ∃ more, b.2.shared.queue.Holds (items ++ more) := fun heq =>
    ⟨[], by rwa [List.append_nil, heq]⟩
  cases hab with
  | service hab =>
    cases hab with
    | spoken hst => exact same (by rw [hst.spoken.shared])
    | @sent X s p =>
      unfold Host.sent
      rcases Shared.send_cases hq h.waker p with ⟨queue, world, hq', -, hsend⟩ | ⟨world, -, hsend⟩ <;> rw [hsend]
      · exact ⟨[p], hq'⟩
      · exact ⟨[], by rwa [List.append_nil]⟩
    | _ => exact same rfl
  | @taken X s p sh htake =>
    obtain ⟨queue, -, rfl⟩ := Shared.pop_of_take htake
    have hmore : Journal.takes (.taken p.ticket :: s.shared.journal) = s.shared.journal.takes ++ [p.ticket] :=
      Journal.tell_append _ [.taken p.ticket] _
    have := hmore.symm.trans htakes
    simp at this
  | looked htake =>
    obtain ⟨rfl, rfl⟩ := Shared.take_eq_none hq htake
    exact ⟨[], hq⟩
  | _ => exact same rfl

theorem Deeds.takes_prefix (hab : Relation.ReflTransGen (Deed h) a b) :
    a.2.shared.journal.takes <+: b.2.shared.journal.takes :=
  Journal.tell_prefix _ (Deeds.grows hab)

theorem Deeds.adds (hab : Relation.ReflTransGen (Deed h) a b)
    (htakes : b.2.shared.journal.takes = a.2.shared.journal.takes) (hq : a.2.shared.queue.Holds items) :
    ∃ more, b.2.shared.queue.Holds (items ++ more) := by
  induction hab with
  | refl => exact ⟨[], by rwa [List.append_nil]⟩
  | @tail b c hab hbc ih =>
    -- The takes only grow, so they are the same all along.
    have hmid : b.2.shared.journal.takes = a.2.shared.journal.takes := by
      have hle := (Deeds.takes_prefix (.single hbc)).length_le
      rw [htakes] at hle
      exact ((Deeds.takes_prefix hab).eq_of_length_le hle).symm
    obtain ⟨more, hb⟩ := ih hmid
    obtain ⟨more', hc⟩ := hbc.adds (htakes.trans hmid.symm) hb
    exact ⟨more ++ more', by rwa [← List.append_assoc]⟩

/-- What a closure that has been taken from the queue has come to: a task has been run, and a continuation
    has been run or destroyed. -/
def Parcel.Done (p : Parcel δ ω) (j : Journal) : Prop :=
  match p.work with
  | .task _ => .ran p.ticket ∈ j
  | .continuation _ _ => .ran p.ticket ∈ j ∨ .destroyed p.ticket ∈ j

theorem Parcel.Done.mono {j j' : Journal} (hp : p.Done j) (hj : j ⊆ j') : p.Done j' := by
  unfold Parcel.Done at hp ⊢
  split at hp
  · exact hj hp
  · exact hp.imp (fun he => hj he) fun he => hj he

/-- A continuation that is taken is the next closure to be run or destroyed. -/
theorem Host.fates_resume (s : State δ ω) (target : Resumer) (x : Nat) (code : Callback δ ω) :
    s.shared.journal.fates ++ [x] <+: ((h.resume target x code).exec s).2.shared.journal.fates := by
  -- It is told to be destroyed before the log line, and to be run before its code is at work.
  by_cases hn : ∀ r, s.worker.requests.get? target.slot = some r → r.serial = target.serial →
      r.phase ≠ .handling ∧ r.phase ≠ .suspended
  · obtain ⟨notice, req, hexec⟩ := exec_resume_of_rejected (h := h) hn x code
    have hlog : (h.log notice req).Leaves (Spoken none (noted s (.destroyed x))) (noted s (.destroyed x)) :=
      .log notice req
    obtain ⟨es, hes, -⟩ := Spoken.entries hlog
    have hfates : Journal.fates (.destroyed x :: s.shared.journal) = s.shared.journal.fates ++ [x] :=
      Journal.tell_append _ [.destroyed x] _
    rw [hexec, ← hfates]
    exact Journal.tell_prefix _ ⟨es, hes.symm⟩
  · simp only [not_forall, not_and_or, not_not] at hn
    obtain ⟨r, hr, hserial, hp⟩ := hn
    have hfates : Journal.fates (resuming s target x).shared.journal = s.shared.journal.fates ++ [x] :=
      Journal.tell_append _ [.started (.continuation x) target.serial, .ran x, .moved target.serial .resumed] _
    rw [← hfates]
    exact Journal.tell_prefix _ (Deeds.resumed hr hserial hp x code)

/-- A step takes nothing from the queue, or it takes the first closure that the queue holds, which is then the
    next one to be run or destroyed. -/
theorem Step.parted (hst : Step h s t) :
    t.shared.journal.takes = s.shared.journal.takes ∨
    ∃ p sh, s.shared.take = (some p, sh) ∧ Deeds h ([p.ticket], { s with shared := sh }) [] t ∧
      t.shared.journal.takes = sh.journal.takes ∧ p.Done t.shared.journal ∧
      sh.journal.fates ++ [p.ticket] <+: t.shared.journal.fates := by
  cases hst with
  | hook k =>
    by_cases hk : k = .tick
    · subst hk
      exact .inl rfl
    · exact .inl ((Errand.perform (R := True) (C := True) hk (fun _ => trivial) (fun _ => trivial) _).takes s)
  | request req code => exact .inl ((Errand.useRequest (R := True) (C := True) req code).takes s)
  | data change => exact .inl rfl
  | world change => exact .inl rfl
  | push work => exact .inl ((Errand.push (R := True) (C := True) work).takes s)
  | awaitOffload index => exact .inl ((Errand.awaitOffload (R := True) (C := True) index).takes s)
  | nothing hp =>
    obtain ⟨queue, -, rfl⟩ := Shared.pop_of_take_none hp
    exact .inl rfl
  | @task x code sh hp =>
    refine .inr ⟨_, sh, hp, .single .ran, ?_, List.mem_cons_self, ?_⟩
    · exact Journal.takes_append_of_none [.ran x] (by simp [Entry.takes?]) _
    · have hfates : Journal.fates (.ran x :: sh.journal) = sh.journal.fates ++ [x] := Journal.tell_append _ [.ran x] _
      exact hfates ▸ List.prefix_rfl
  | @continuation x target code sh hp =>
    have hfates := Host.fates_resume (h := h) { s with shared := sh } target x code
    have htakes := (Errand.resume (h := h) (R := True) (C := True) target x code).takes { s with shared := sh }
    refine .inr ⟨_, sh, hp, (Turns.resume .refl _ _).deeds, htakes, ?_, hfates⟩
    exact Journal.mem_fates.mp (hfates.subset (by simp))
  | contained message => exact .inl ((Tickless.log _ _).takes s)
  | reported => exact .inl (Tickless.reportFailed.takes s)

theorem Shared.takes_of_take {sh sh' : Shared δ ω} (hp : sh.take = (some p, sh')) :
    sh'.journal.takes = sh.journal.takes ++ [p.ticket] ∧ sh'.journal.fates = sh.journal.fates := by
  obtain ⟨queue, -, rfl⟩ := pop_of_take hp
  exact ⟨Journal.tell_append _ [.taken p.ticket] _,
    (Journal.tell_append _ [.taken p.ticket] _).trans (List.append_nil _)⟩

/-- Between steps, what has been taken has been run or destroyed, in the same order. -/
theorem Reachable.takes_sublist (hs : Reachable h s) : s.shared.journal.takes.Sublist s.shared.journal.fates := by
  induction hs with
  | opened hs =>
    obtain rfl := State.open_eq hs
    exact .slnil
  | @step s t hs hst ih =>
    rcases hst.parted with htakes | ⟨p, sh, hp, -, htakes, -, hfates⟩
    · rw [htakes]
      exact ih.trans (Journal.tell_prefix _ (Deeds.grows (hst.deeds hs.course))).sublist
    · obtain ⟨hmore, hsame⟩ := Shared.takes_of_take hp
      rw [htakes, hmore]
      rw [hsame] at hfates
      exact (ih.append (.refl [p.ticket])).trans hfates.sublist

/-! ### The order of the runs -/

/-- What the queue holds has neither been run nor destroyed. -/
theorem Accounted.apart (hs : Accounted X s) (hq : s.shared.queue.Holds items) :
    (items.map Parcel.ticket).Nodup ∧ s.shared.journal.fates.Nodup ∧
      ∀ x ∈ items.map Parcel.ticket, x ∉ s.shared.journal.fates := by
  obtain ⟨items', hq', hperm⟩ := hs.each
  obtain rfl := hq.unique hq'
  have hn := hperm.nodup_iff.mpr hs.nodup
  unfold State.waiting at hn
  rw [Journal.fates_eq, List.nodup_reverse]
  obtain ⟨hleft, hspent, hdisjoint⟩ := List.nodup_append.mp hn
  have hline := (List.nodup_append.mp (List.nodup_append.mp (List.nodup_append.mp hleft).2.1).1).1
  refine ⟨hline, hspent, fun x hx hf => hdisjoint x ?_ x (List.mem_reverse.mp hf) rfl⟩
  simp [hx]

/-- A part of a list without repetitions, picked out of it again. -/
theorem filter_mem_of_sublist {l l' : List Nat} (hl : l.Sublist l') (hn : l'.Nodup) : l'.filter (· ∈ l) = l := by
  have hsub : l.Sublist (l'.filter (· ∈ l)) := by
    have := hl.filter (· ∈ l)
    rwa [List.filter_eq_self.mpr (by simp)] at this
  refine (hsub.eq_of_length ?_).symm
  refine ((List.perm_ext_iff_of_nodup (hl.nodup hn) (hn.filter _)).mpr fun x => ?_).length_eq
  rw [List.mem_filter, decide_eq_true_eq]
  exact ⟨fun hx => ⟨hl.subset hx, hx⟩, And.right⟩

namespace Reachable

theorem accepted_nodup (hs : Reachable h s) : s.shared.journal.accepted.Nodup := by
  obtain ⟨items, hq, heq⟩ := hs.lined.each
  obtain ⟨hline, hfates, hapart⟩ := hs.accounted.apart hq
  rw [heq]
  refine List.nodup_append.mpr ⟨hs.takes_sublist.nodup hfates, hline, ?_⟩
  rintro x hx _ hy rfl
  exact hapart x hy (hs.takes_sublist.subset hx)

/-- Of the closures that the queue has taken in, those that have been run or destroyed are the ones that
    ticks have taken out, in the same order. -/
theorem fates_filter (hs : Reachable h s) :
    s.shared.journal.fates.filter (· ∈ s.shared.journal.accepted) = s.shared.journal.takes := by
  obtain ⟨items, hq, heq⟩ := hs.lined.each
  obtain ⟨-, hfates, hapart⟩ := hs.accounted.apart hq
  rw [heq]
  refine Eq.trans (List.filter_congr fun x hx => ?_) (filter_mem_of_sublist hs.takes_sublist hfates)
  have hn : x ∉ items.map Parcel.ticket := fun hm => hapart x hm hx
  simp only [List.mem_append, hn, or_false]

/-- Closures that go through the queue are run in the order in which the queue has taken them in. -/
theorem runs_sublist (hs : Reachable h s) :
    (s.shared.journal.runs.filter (· ∈ s.shared.journal.accepted)).Sublist s.shared.journal.accepted := by
  obtain ⟨items, -, heq⟩ := hs.lined.each
  have hsub := s.shared.journal.runs_sublist_fates.filter (· ∈ s.shared.journal.accepted)
  rw [hs.fates_filter] at hsub
  have hpre : s.shared.journal.takes.Sublist s.shared.journal.accepted := heq ▸ List.sublist_append_left _ _
  exact hsub.trans hpre

/-- A closure that the queue has refused is not run. -/
theorem not_run_of_refused (hs : Reachable h s) {x : Nat} (hx : .refused x ∈ s.shared.journal) :
    x ∉ s.shared.journal.runs := by
  obtain ⟨hran, -⟩ := hs.accounted.count_of_destroyed (hs.lined.refused hx)
  exact fun hm => List.count_eq_zero.mp hran (Journal.mem_runs.mp hm)

theorem runs_nodup (hs : Reachable h s) : s.shared.journal.runs.Nodup := by
  obtain ⟨items, hq, -⟩ := hs.lined.each
  exact s.shared.journal.runs_sublist_fates.nodup (hs.accounted.apart hq).2.1

end Reachable
end EngineBridge
