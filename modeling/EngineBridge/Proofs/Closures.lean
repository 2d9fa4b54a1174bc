import EngineBridge.Proofs.Queue
import EngineBridge.Proofs.Reach
import Mathlib.Data.List.Nodup

/-! What becomes of the closures that are handed to the bridge. Each is in one place at a time: in the
    queue, with an offload, with a subrequest, or in the hand of the code at work. From there it goes once,
    to be run or to be destroyed, and the journal tells of both. -/

namespace EngineBridge
open EngineBridge.Action Registry
variable {δ ω : Type} {h : Host δ ω} {X Y : List Nat} {s t : State δ ω} {k : Nat} {r : Registration}

/-! ### Where closures are -/

/-- The closure that an entry tells to have been handed over. -/
def Entry.gives? : Entry → Option Nat
  | .handed ticket => some ticket
  | _ => none

/-- The closure that an entry tells to have been run or destroyed. -/
def Entry.spends? : Entry → Option Nat
  | .ran ticket | .destroyed ticket => some ticket
  | _ => none

/-- The closure that an entry tells to have started to run against a registration. -/
def Entry.begins? : Entry → Option Nat
  | .started role _ => role.ticket?
  | _ => none

namespace Journal

/-- The closures that have been handed over. -/
def given (j : Journal) : List Nat := j.filterMap Entry.gives?

/-- The closures that have been run or destroyed. -/
def spent (j : Journal) : List Nat := j.filterMap Entry.spends?

/-- The closures that have started to run against registrations. -/
def begun (j : Journal) : List Nat := j.filterMap Entry.begins?

/-- Nothing is told of what becomes of a closure. -/
def Aside (j : Journal) : Prop := j.given = [] ∧ j.spent = [] ∧ j.begun = []

theorem aside_of_talk {j : Journal} (hj : ∀ e ∈ j, e.Talk) : j.Aside := by
  refine ⟨List.filterMap_eq_nil_iff.mpr ?_, List.filterMap_eq_nil_iff.mpr ?_, List.filterMap_eq_nil_iff.mpr ?_⟩ <;>
  · intro e he
    have := hj e he
    cases e <;> first | rfl | cases this

theorem count_spent (j : Journal) (x : Nat) : j.spent.count x = j.count (.ran x) + j.count (.destroyed x) := by
  induction j with
  | nil => rfl
  | cons e j ih =>
    cases e with
    | ran y | destroyed y =>
      show (y :: spent j).count x = _
      rw [List.count_cons, List.count_cons, List.count_cons, ih]
      simp
      omega
    | _ =>
      show (spent j).count x = _
      rw [ih, List.count_cons_of_ne (by simp), List.count_cons_of_ne (by simp)]

theorem count_begun_cons (e : Entry) (j : Journal) (x : Nat) :
    (begun (e :: j)).count x = j.begun.count x + if e.begins? = some x then 1 else 0 := by
  unfold begun
  rw [List.filterMap_cons]
  cases e.begins? with
  | none => simp
  | some y => simp [List.count_cons]

theorem count_le_begun {e : Entry} {x : Nat} (he : e.begins? = some x) (j : Journal) :
    j.count e ≤ j.begun.count x := by
  induction j with
  | nil => exact Nat.le_refl 0
  | cons f j ih =>
    rw [count_begun_cons, List.count_cons]
    by_cases hf : f = e
    · subst hf
      simp [he, ih]
    · simp [hf]
      omega

/-- Two ways in which one closure starts are two starts. -/
theorem count_add_le_begun {e e' : Entry} {x : Nat} (hne : e ≠ e') (he : e.begins? = some x)
    (he' : e'.begins? = some x) (j : Journal) : j.count e + j.count e' ≤ j.begun.count x := by
  induction j with
  | nil => exact Nat.le_refl 0
  | cons f j ih =>
    rw [count_begun_cons, List.count_cons, List.count_cons]
    by_cases hf : f = e
    · subst hf
      simp [he, hne]
      omega
    · by_cases hf' : f = e'
      · subst hf'
        simp [he', hf]
        omega
      · simp [hf, hf']
        omega

end Journal

/-! ### What the queue does with a closure -/

namespace Shared
variable {sh sh' : Shared δ ω} {items : List (Parcel δ ω)} {p : Parcel δ ω}

/-- A closure that is sent to the worker is put at the end of the queue, if there is room; else it is
    refused and destroyed. -/
theorem send_cases (hq : sh.queue.Holds items) (waker : Waker ω) (p : Parcel δ ω) :
    (∃ queue world, queue.Holds (items ++ [p]) ∧ queue.capacity = sh.queue.capacity ∧ sh.send waker p =
      (true, { sh with queue, world, journal := .woken :: .queued p.ticket :: sh.journal })) ∨
    ∃ world, sh.queue.capacity ≤ items.length ∧ sh.send waker p =
      (false, { sh with failed := sh.failed + 1, world,
                        journal := .destroyed p.ticket :: .woken :: .refused p.ticket :: sh.journal }) := by
  unfold send enqueue
  rcases Nat.lt_or_ge items.length sh.queue.capacity with hlt | hle
  · obtain ⟨queue, hpush, hq', hcapacity⟩ := hq.push_of_lt hlt p
    rw [hpush]
    exact .inl ⟨queue, _, hq', hcapacity, rfl⟩
  · rw [hq.push_of_le hle]
    exact .inr ⟨_, hle, rfl⟩

/-- What is taken from the queue is the first that it holds. -/
theorem take_eq_some (hq : sh.queue.Holds items) (hp : sh.take = (some p, sh')) :
    ∃ rest queue, items = p :: rest ∧ queue.Holds rest ∧ queue.capacity = sh.queue.capacity ∧
      sh' = { sh with queue }.record (.taken p.ticket) := by
  obtain ⟨queue, hpop, rfl⟩ := pop_of_take hp
  cases items with
  | nil =>
    rw [hq.pop_nil] at hpop
    cases hpop
  | cons q rest =>
    obtain ⟨_, hc, hq', hcapacity⟩ := hq.pop_cons
    rw [hpop] at hc
    cases hc
    exact ⟨rest, queue, rfl, hq', hcapacity, rfl⟩

/-- From an empty queue nothing is taken. -/
theorem take_eq_none (hq : sh.queue.Holds items) (hp : sh.take = (none, sh')) : items = [] ∧ sh' = sh := by
  obtain ⟨queue, hpop, rfl⟩ := pop_of_take_none hp
  cases items with
  | nil =>
    rw [hq.pop_nil] at hpop
    cases hpop
    exact ⟨rfl, rfl⟩
  | cons q rest =>
    obtain ⟨_, hc, -⟩ := hq.pop_cons
    rw [hpop] at hc
    cases hc

end Shared

/-! ### The account -/

/-- The tickets of the closures that wait, those in the queue being given. -/
def State.waiting (s : State δ ω) (items : List (Parcel δ ω)) : List Nat :=
  items.map Parcel.ticket ++ (s.shared.offloads.toList.filterMap id).map Offload.ticket ++
    s.worker.subrequests.values.map Pending.ticket

/-- The closures in hand, those that wait, and those that have been run or destroyed are the ones that
    have been handed over, each of them once. None starts to run against a registration but when it is
    run. -/
structure Accounted (X : List Nat) (s : State δ ω) : Prop where
  each : ∃ items, s.shared.queue.Holds items ∧
    (X ++ s.waiting items ++ s.shared.journal.spent).Perm s.shared.journal.given
  given : s.shared.journal.given = (List.range s.shared.nextTicket).reverse
  begun : ∀ x, s.shared.journal.begun.count x ≤ s.shared.journal.count (.ran x)

namespace Accounted

theorem nodup (hs : Accounted X s) : s.shared.journal.given.Nodup := by
  rw [hs.given]
  exact List.nodup_reverse.mpr List.nodup_range

/-- A closure is run or destroyed once at most. -/
theorem count_spent_le (hs : Accounted X s) (x : Nat) : s.shared.journal.spent.count x ≤ 1 := by
  obtain ⟨items, -, hperm⟩ := hs.each
  have hn := hperm.nodup_iff.mpr hs.nodup
  exact List.nodup_iff_count_le_one.mp (List.nodup_append.mp hn).2.1 x

/-- A closure that has been run has been run once, and has not been destroyed. -/
theorem count_of_ran (hs : Accounted X s) {x : Nat} (hm : .ran x ∈ s.shared.journal) :
    s.shared.journal.count (.ran x) = 1 ∧ s.shared.journal.count (.destroyed x) = 0 := by
  have hle := hs.count_spent_le x
  have hpos := List.count_pos_iff.mpr hm
  rw [Journal.count_spent] at hle
  omega

/-- A closure that has been destroyed has been destroyed once, and has not been run. -/
theorem count_of_destroyed (hs : Accounted X s) {x : Nat} (hm : .destroyed x ∈ s.shared.journal) :
    s.shared.journal.count (.ran x) = 0 ∧ s.shared.journal.count (.destroyed x) = 1 := by
  have hle := hs.count_spent_le x
  have hpos := List.count_pos_iff.mpr hm
  rw [Journal.count_spent] at hle
  omega

/-- A closure that has started against a registration has started in no other way. -/
theorem count_started (hs : Accounted X s) {x n : Nat} {role : Role} (hrole : role.ticket? = some x)
    (hm : .started role n ∈ s.shared.journal) (m : Nat) :
    s.shared.journal.count (.started role m) = if m = n then 1 else 0 := by
  have hpos := List.count_pos_iff.mpr hm
  have hbegun := hs.begun x
  have hspent := hs.count_spent_le x
  rw [Journal.count_spent] at hspent
  have hadd : ∀ m ≠ n, s.shared.journal.count (.started role m) + s.shared.journal.count (.started role n) ≤
      s.shared.journal.begun.count x := by
    intro m hne
    have hne : Entry.started role m ≠ .started role n := by
      rintro ⟨⟩
      exact hne rfl
    exact Journal.count_add_le_begun hne hrole hrole _
  split
  · next heq =>
    subst heq
    have := hadd (m + 1) (Nat.succ_ne_self m)
    omega
  · next hne =>
    have := hadd m hne
    omega

/-- Closures go from place to place, and some of them are run or destroyed. -/
theorem change (hs : Accounted X s) (es : Journal) (hj : t.shared.journal = es ++ s.shared.journal)
    (hnext : t.shared.nextTicket = s.shared.nextTicket) (hgiven : es.given = [])
    (hbegun : ∀ x, es.begun.count x ≤ es.count (.ran x))
    (hwaiting : ∀ items, s.shared.queue.Holds items → ∃ items', t.shared.queue.Holds items' ∧
      (Y ++ t.waiting items' ++ es.spent).Perm (X ++ s.waiting items)) : Accounted Y t where
  each := by
    obtain ⟨items, hq, hperm⟩ := hs.each
    obtain ⟨items', hq', hperm'⟩ := hwaiting items hq
    refine ⟨items', hq', ?_⟩
    unfold Journal.given Journal.spent at *
    rw [hj, List.filterMap_append, List.filterMap_append, hgiven, List.nil_append, ← List.append_assoc]
    exact (hperm'.append_right _).trans hperm
  given := by
    unfold Journal.given at *
    rw [hj, List.filterMap_append, hgiven, hnext]
    exact hs.given
  begun x := by
    have he := hbegun x
    have hx := hs.begun x
    unfold Journal.begun at *
    rw [hj, List.filterMap_append, List.count_append, List.count_append]
    exact Nat.add_le_add he hx

/-- Entries that tell nothing of closures. -/
theorem aside (hs : Accounted X s) {es : Journal} (hes : es.Aside)
    (hj : t.shared.journal = es ++ s.shared.journal) (hnext : t.shared.nextTicket = s.shared.nextTicket)
    (hwaiting : ∀ items, s.shared.queue.Holds items → ∃ items', t.shared.queue.Holds items' ∧
      (Y ++ t.waiting items').Perm (X ++ s.waiting items)) : Accounted Y t := by
  obtain ⟨hgiven, hspent, hbegun⟩ := hes
  refine hs.change es hj hnext hgiven (fun x => ?_) fun items hq => ?_
  · rw [hbegun]
    exact Nat.zero_le _
  · obtain ⟨items', hq', hperm⟩ := hwaiting items hq
    refine ⟨items', hq', ?_⟩
    rwa [hspent, List.append_nil]

/-- What concerns no closure leaves them where they are. -/
theorem of_eq (hs : Accounted X s) (hqueue : t.shared.queue = s.shared.queue)
    (hwaiting : ∀ items, t.waiting items = s.waiting items) (hnext : t.shared.nextTicket = s.shared.nextTicket)
    (es : Journal) (hes : es.Aside) (hj : t.shared.journal = es ++ s.shared.journal) : Accounted X t :=
  hs.aside hes hj hnext fun items hq => ⟨items, hqueue ▸ hq, .of_eq (by rw [hwaiting])⟩

theorem hand (hs : Accounted X s) : Accounted (s.shared.nextTicket :: X) (Host.handed s) where
  each := by
    obtain ⟨items, hq, hperm⟩ := hs.each
    exact ⟨items, hq, hperm.cons _⟩
  given := by
    show s.shared.nextTicket :: s.shared.journal.given = _
    rw [hs.given]
    show _ = (List.range (s.shared.nextTicket + 1)).reverse
    rw [List.range_succ, List.reverse_append]
    rfl
  begun x := by
    have hx := hs.begun x
    show s.shared.journal.begun.count x ≤ (Entry.handed _ :: s.shared.journal).count (.ran x)
    rwa [List.count_cons_of_ne (by simp)]

/-- A closure in hand is run or destroyed. -/
theorem spend {x : Nat} (hs : Accounted (x :: X) s) (es : Journal) (hspent : es.spent = [x])
    (hgiven : es.given = []) (hbegun : ∀ x, es.begun.count x ≤ es.count (.ran x))
    (hj : t.shared.journal = es ++ s.shared.journal) (hnext : t.shared.nextTicket = s.shared.nextTicket)
    (hqueue : t.shared.queue = s.shared.queue) (hwaiting : ∀ items, t.waiting items = s.waiting items) :
    Accounted X t := by
  refine hs.change es hj hnext hgiven hbegun fun items hq => ⟨items, hqueue ▸ hq, ?_⟩
  rw [hspent, hwaiting]
  exact List.perm_append_singleton x _

/-- A closure in hand is put where it waits. -/
theorem put {x : Nat} (hs : Accounted (x :: X) s) (es : Journal) (hes : es.Aside)
    (hj : t.shared.journal = es ++ s.shared.journal) (hnext : t.shared.nextTicket = s.shared.nextTicket)
    (hwaiting : ∀ items, s.shared.queue.Holds items → ∃ items', t.shared.queue.Holds items' ∧
      (t.waiting items').Perm (x :: s.waiting items)) : Accounted X t := by
  refine hs.aside hes hj hnext fun items hq => ?_
  obtain ⟨items', hq', hperm⟩ := hwaiting items hq
  exact ⟨items', hq', (hperm.append_left X).trans List.perm_middle⟩

/-- A closure that waits is taken in hand. -/
theorem get {x : Nat} (hs : Accounted X s) (es : Journal) (hes : es.Aside)
    (hj : t.shared.journal = es ++ s.shared.journal) (hnext : t.shared.nextTicket = s.shared.nextTicket)
    (hwaiting : ∀ items, s.shared.queue.Holds items → ∃ items', t.shared.queue.Holds items' ∧
      (s.waiting items).Perm (x :: t.waiting items')) : Accounted (x :: X) t := by
  refine hs.aside hes hj hnext fun items hq => ?_
  obtain ⟨items', hq', hperm⟩ := hwaiting items hq
  exact ⟨items', hq', (List.perm_middle.symm.trans (hperm.symm.append_left X))⟩

/-! ### Closures in the queue -/

/-- A closure in hand is sent to the worker: it is put into the queue, or refused and destroyed. -/
theorem send {p : Parcel δ ω} (hs : Accounted (p.ticket :: X) s) : Accounted X (h.sent s p) := by
  obtain ⟨items, hq, -⟩ := hs.each
  unfold Host.sent
  rcases Shared.send_cases hq h.waker p with ⟨queue, world, hq', -, heq⟩ | ⟨world, -, heq⟩ <;> rw [heq]
  · refine hs.put [.woken, .queued p.ticket] ⟨rfl, rfl, rfl⟩ rfl rfl fun items' hi => ⟨items ++ [p], hq', ?_⟩
    obtain rfl := hq.unique hi
    unfold State.waiting
    rw [List.map_append]
    exact ((List.perm_append_singleton p.ticket _).append_right _).append_right _
  · exact hs.spend [.destroyed p.ticket, .woken, .refused p.ticket] rfl rfl (fun x => Nat.zero_le _) rfl rfl rfl
      fun _ => rfl

theorem take {p : Parcel δ ω} {sh : Shared δ ω} (hs : Accounted X s) (hp : s.shared.take = (some p, sh)) :
    Accounted (p.ticket :: X) { s with shared := sh } := by
  obtain ⟨items, hq, -⟩ := hs.each
  obtain ⟨rest, queue, rfl, hq', -, rfl⟩ := Shared.take_eq_some hq hp
  refine hs.get [.taken p.ticket] ⟨rfl, rfl, rfl⟩ rfl rfl fun items hi => ⟨rest, hq', ?_⟩
  obtain rfl := hq.unique hi
  exact .refl _

theorem look {sh : Shared δ ω} (hs : Accounted X s) (hp : s.shared.take = (none, sh)) :
    Accounted X { s with shared := sh } := by
  obtain ⟨items, hq, -⟩ := hs.each
  obtain ⟨-, rfl⟩ := Shared.take_eq_none hq hp
  exact hs

/-! ### Closures of offloads and subrequests -/

theorem startOffload {o : Offload δ ω} (hs : Accounted (o.ticket :: X) s) : Accounted X (Host.offloaded s o) := by
  refine hs.put [] ⟨rfl, rfl, rfl⟩ rfl rfl fun items hq => ⟨items, hq, ?_⟩
  unfold State.waiting Host.offloaded
  rw [Array.toList_push, List.filterMap_append, List.map_append]
  have hperm := List.perm_append_singleton o.ticket ((s.shared.offloads.toList.filterMap id).map Offload.ticket)
  exact ((hperm.append_left _).trans List.perm_middle).append_right _

theorem endOffload {o : Offload δ ω} {index : Nat} (hs : Accounted X s)
    (ho : s.shared.offloads[index]? = some (some o)) : Accounted (o.ticket :: X) (Host.offloadEnded s index) := by
  refine hs.get [] ⟨rfl, rfl, rfl⟩ rfl rfl fun items hq => ⟨items, hq, ?_⟩
  have hl : s.shared.offloads.toList[index]? = some (some o) := by rwa [Array.getElem?_toList]
  have hperm := ((Arena.perm_set hl none).map Offload.ticket).symm
  unfold State.waiting Host.offloadEnded
  rw [Array.toList_setIfInBounds]
  exact ((hperm.append_left _).trans List.perm_middle).append_right _

theorem pend {p : Pending δ ω} (hs : Accounted (p.ticket :: X) s) : Accounted X (Host.pended s p) := by
  refine hs.put [] ⟨rfl, rfl, rfl⟩ rfl rfl fun items hq => ⟨items, hq, ?_⟩
  have hperm := (s.worker.subrequests.values_insert p).map Pending.ticket
  exact (hperm.append_left _).trans List.perm_middle

theorem unpend {p : Pending δ ω} {slot : Nat} (hs : Accounted X s) (hp : s.worker.subrequests.get? slot = some p)
    (hsub : t.worker.subrequests = s.worker.subrequests.remove slot) (es : Journal) (hes : es.Aside)
    (hshared : t.shared = { s.shared with journal := es ++ s.shared.journal }) : Accounted (p.ticket :: X) t := by
  refine hs.get es hes (by rw [hshared]) (by rw [hshared]) fun items hq => ⟨items, by rwa [hshared], ?_⟩
  have hperm := (Arena.values_remove hp).map Pending.ticket
  unfold State.waiting
  rw [hsub, hshared]
  exact (hperm.append_left _).trans List.perm_middle

theorem setChild (hs : Accounted X s) (token : SubToken) (target : Option Peer) (child : ReqId) :
    Accounted X (Host.childSet s token target child) := by
  refine hs.of_eq rfl (fun items => ?_) rfl [.issued token child] ⟨rfl, rfl, rfl⟩ rfl
  have hsame := Arena.map_values_modify (f := fun p : Pending δ ω => { p with child := some child })
    (g := Pending.ticket) (fun _ => rfl) s.worker.subrequests token.slot
  exact congrArg (_ ++ ·) hsame

end Accounted

/-! ### Every deed accounts for the closures -/

namespace Accounted

theorem asked (hs : Accounted X s) (n : Option Nat) (c : Call) : Accounted X (h.asked n c s) :=
  hs.of_eq rfl (fun _ => rfl) rfl [.called n c _] ⟨rfl, rfl, rfl⟩ rfl

theorem recorded {p : Pending δ ω} (hs : Accounted (p.ticket :: X) s) (r : Registration) (sub : Subrequest) :
    Accounted X (h.recorded s r sub p) := by
  have ht : Accounted (p.ticket :: X) (Host.numbered s) := hs.of_eq rfl (fun _ => rfl) rfl [] ⟨rfl, rfl, rfl⟩ rfl
  exact (ht.asked _ _).pend.asked _ _

theorem spoken {slot : Option Nat} {t : State δ ω} (hs : Accounted X s) (hst : Spoken slot s t) :
    Accounted X t := by
  obtain ⟨es, hes, ht⟩ := hst.entries
  refine hs.of_eq (by rw [hst.shared]) (fun items => ?_) (by rw [hst.shared]) es
    (Journal.aside_of_talk fun e he => (ht e he).1) hes
  unfold State.waiting
  rw [hst.worker, hst.shared]

end Accounted

theorem Service.accounted {slot : Option Nat} {a b : List Nat × State δ ω} (hs : Accounted a.1 a.2)
    (hab : Service h slot a b) : Accounted b.1 b.2 := by
  cases hab with
  | spoken hst => exact hs.spoken hst.spoken
  | data | numbered => exact hs.of_eq rfl (fun _ => rfl) rfl [] ⟨rfl, rfl, rfl⟩ rfl
  | handed => exact hs.hand
  | destroyed =>
    exact hs.spend [.destroyed _] rfl rfl (fun _ => Nat.zero_le _) rfl rfl rfl fun _ => rfl
  | sent => exact hs.send
  | offloaded => exact hs.startOffload
  | offloadEnded ho => exact hs.endOffload ho
  | issued => exact (hs.recorded _ _).setChild _ _ _
  | @unissued X s k r sub p =>
    have hget : (s.worker.subrequests.insert p).get? s.worker.subrequests.nextSlot = some p := by
      rw [Arena.get?_insert, if_pos rfl]
    have ht := (hs.recorded (h := h) r sub).unpend hget (t := ⟨(Host.withdrawn _ _ p.ticket).worker, _⟩) rfl []
      ⟨rfl, rfl, rfl⟩ rfl
    exact ht.spend [.destroyed p.ticket] rfl rfl (fun _ => Nat.zero_le _) rfl rfl rfl fun _ => rfl
  | broken => exact hs.recorded _ _

theorem Deed.accounted {a b : List Nat × State δ ω} (hs : Accounted a.1 a.2) (hab : Deed h a b) :
    Accounted b.1 b.2 := by
  cases hab with
  | service hab => exact hab.accounted hs
  | moved => exact hs.of_eq rfl (fun _ => rfl) rfl [.moved _ _] ⟨rfl, rfl, rfl⟩ rfl
  | ended => exact hs.of_eq rfl (fun _ => rfl) rfl [.called _ _ _, .moved _ _] ⟨rfl, rfl, rfl⟩ rfl
  | read => exact hs.of_eq rfl (fun _ => rfl) rfl [.called _ _ _] ⟨rfl, rfl, rfl⟩ rfl
  | unread => exact hs.of_eq rfl (fun _ => rfl) rfl [.moved _ _, .called _ _ _] ⟨rfl, rfl, rfl⟩ rfl
  | registered => exact hs.of_eq rfl (fun _ => rfl) rfl [.registered _ _ _ _] ⟨rfl, rfl, rfl⟩ rfl
  | removed => exact hs.of_eq rfl (fun _ => rfl) rfl [.removed _] ⟨rfl, rfl, rfl⟩ rfl
  | started => exact hs.of_eq rfl (fun _ => rfl) rfl [.started .handler _] ⟨rfl, rfl, rfl⟩ rfl
  | @begun X s k r x role hrole =>
    refine hs.spend [.started role _, .ran x] rfl rfl (fun y => ?_) rfl rfl rfl fun _ => rfl
    have hrole : Entry.begins? (.started role r.serial) = some x := hrole
    have hbegun : Journal.begun [.started role r.serial, .ran x] = [x] := List.filterMap_cons_some hrole
    rw [hbegun]
    simp [List.count_cons]
  | ran => exact hs.spend [.ran _] rfl rfl (fun _ => Nat.zero_le _) rfl rfl rfl fun _ => rfl
  | taken htake => exact hs.take htake
  | looked htake => exact hs.look htake
  | completed hp hserial => exact hs.unpend hp rfl [.completed _] ⟨rfl, rfl, rfl⟩ rfl
  | uncounted | untargeted | filtered | seen => exact hs.of_eq rfl (fun _ => rfl) rfl [] ⟨rfl, rfl, rfl⟩ rfl

/-- In every reachable state each closure is accounted for, and none is in hand. -/
theorem Reachable.accounted (hs : Reachable h s) : Accounted [] s :=
  hs.invariant (P := fun a => Accounted a.1 a.2)
    (fun _ _ _ _ => ⟨⟨[], Queue.Channel.holds_new _ _ _, .refl _⟩, rfl, fun _ => Nat.zero_le _⟩)
    fun _ hs hab => hab.accounted hs

end EngineBridge
