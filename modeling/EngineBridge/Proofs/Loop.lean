import EngineBridge.Proofs.Ticking

/-! What the loop of a tick takes. It makes as many rounds at most as there were closures in the queue when the
    tick began, and in each of them it takes whatever is first by then. Ticks that are nested in it take closures
    too, and then its rounds outlast what was queued and reach closures that have been pushed since. -/

namespace EngineBridge
open EngineBridge.Action Registry
variable {δ ω : Type} {h : Host δ ω} {s t v : State δ ω} {p : Parcel δ ω} {sh : Shared δ ω} {depth n i : Nat}

/-! ### Closures that come to be first -/

/-- An element of a list without repetitions is in a beginning of the list just if that reaches to its place. -/
theorem mem_prefix_iff {l l' : List Nat} {x : Nat} (hl : l <+: l') (hn : l'.Nodup) (hx : l'[i]? = some x) :
    x ∈ l ↔ i < l.length := by
  obtain ⟨more, rfl⟩ := hl
  constructor
  · intro hm
    obtain ⟨j, hj, hget⟩ := List.getElem_of_mem hm
    have hplace : (l ++ more)[j]? = some x := by
      rw [List.getElem?_append_left hj, ← hget]
      exact List.getElem?_eq_getElem hj
    have hlt : j < (l ++ more).length := (List.getElem?_eq_some_iff.mp hplace).1
    rwa [← (List.getElem?_inj hlt hn).mp (hplace.trans hx.symm)]
  · intro hlt
    rw [List.getElem?_append_left hlt] at hx
    exact List.mem_of_getElem? hx

/-- The first closure of the queue is in its line right after those that have been taken. -/
theorem Reachable.accepted_of_take (hv : Reachable h v) (htake : v.shared.take = (some p, sh)) :
    v.shared.journal.accepted[v.takeCount]? = some p.ticket := by
  obtain ⟨items, hq, heq⟩ := hv.lined.each
  obtain ⟨rest, -, rfl, -, -⟩ := Shared.take_eq_some hq htake
  rw [heq]
  exact (List.getElem?_append_right (Nat.le_refl _)).trans (by simp)

theorem Parcel.Done.mem_fates {j : Journal} (hp : p.Done j) : p.ticket ∈ j.fates := by
  unfold Parcel.Done at hp
  rw [Journal.mem_fates]
  split at hp
  · exact .inl hp
  · exact hp

namespace Steps

/-- A closure that comes to be the first of the queue was queued before just if the queue had taken it in before. -/
theorem queued_iff {items : List (Parcel δ ω)} (hs : Reachable h s) (hsv : Steps h s v)
    (hq : s.shared.queue.Holds items) (htake : v.shared.take = (some p, sh)) :
    p ∈ items ↔ p.ticket ∈ s.shared.journal.accepted := by
  have hv := hs.steps hsv
  obtain ⟨items', hq', heq⟩ := hs.lined.each
  obtain rfl := hq.unique hq'
  obtain ⟨line, hline, -⟩ := hv.lined.each
  obtain ⟨rest, -, rfl, -, -⟩ := Shared.take_eq_some hline htake
  obtain ⟨hn, -, hapart⟩ := hv.accounted.apart hline
  have hwaits : p.ticket ∉ v.shared.journal.fates := hapart p.ticket (by simp)
  refine ⟨fun hm => heq ▸ List.mem_append_right _ (List.mem_map_of_mem hm), fun hm => ?_⟩
  -- It had not been taken before, nor has the closure of that ticket come to its fate since.
  rw [heq] at hm
  rcases List.mem_append.mp hm with hm | hm
  · exact absurd (hv.takes_sublist.subset ((hsv.takes_prefix hs).subset hm)) hwaits
  · obtain ⟨q, hm, hticket⟩ := List.mem_map.mp hm
    rcases hsv.queued hs hq hm with hdone | ⟨line', hline', hm'⟩
    · exact absurd (hticket ▸ hdone.mem_fates) hwaits
    · obtain rfl := hline'.unique hline
      rwa [← List.inj_on_of_nodup_map hn hm' List.mem_cons_self hticket]

end Steps

/-! ### The rounds of the loop -/

/-- In the round of this number, a loop of some rounds that has begun in one state takes a closure in another: in
    each round before, it has taken the first closure of the queue and has run it to its end. -/
inductive LoopTakes (h : Host δ ω) (depth : Nat) : Nat → State δ ω → Nat → State δ ω → Parcel δ ω → Prop
  | first {n : Nat} {s : State δ ω} {p : Parcel δ ω} {sh : Shared δ ω} : s.shared.take = (some p, sh) →
      LoopTakes h depth (n + 1) s 0 s p
  | later {n i : Nat} {s u v : State δ ω} {p q : Parcel δ ω} {sh : Shared δ ω} : s.shared.take = (some p, sh) →
      (h.runContained (h.tickWithin depth) p).exec { s with shared := sh } = (.ok (), u) →
      LoopTakes h depth n u i v q → LoopTakes h depth (n + 1) s (i + 1) v q

namespace LoopTakes

theorem lt (hv : LoopTakes h depth n s i v p) : i < n := by
  induction hv with
  | first => exact Nat.succ_pos _
  | later _ _ _ ih => exact Nat.succ_lt_succ ih

theorem take (hv : LoopTakes h depth n s i v p) : ∃ sh, v.shared.take = (some p, sh) := by
  induction hv with
  | first htake => exact ⟨_, htake⟩
  | later _ _ _ ih => exact ih

theorem steps (hv : LoopTakes h depth n s i v p) : Steps h s v := by
  induction hv with
  | first => exact .refl
  | later htake hrun _ ih => exact ((Steps.runContained (Steps.tickWithin depth) htake).exec hrun).trans ih

/-- Each round takes a closure at least. -/
theorem count (hs : Reachable h s) (hv : LoopTakes h depth n s i v p) : s.takeCount + i ≤ v.takeCount := by
  induction hv with
  | first => exact Nat.le_refl _
  | @later n i s u v p q sh htake hrun hv ih =>
    have hu := hs.steps ((Steps.runContained (Steps.tickWithin depth) htake).exec hrun)
    have hone := (Rounds.taken hs htake hrun).length_le
    rw [List.length_append, List.length_singleton] at hone
    have hrest := ih hu
    unfold State.takeCount at hrest ⊢
    omega

end LoopTakes

namespace Rounds
variable {ps : List (Parcel δ ω)}

theorem length_le (hr : Rounds h depth n s ps t) : ps.length ≤ n := by
  induction hr with
  | stop => exact Nat.le_refl _
  | empty => exact Nat.zero_le _
  | round _ _ _ ih => exact Nat.succ_le_succ ih

/-- The closures that a loop has taken when it is over are those that it has taken in its rounds. -/
theorem loopTakes (hr : Rounds h depth n s ps t) (hi : ps[i]? = some p) :
    ∃ v, LoopTakes h depth n s i v p := by
  induction hr generalizing i with
  | stop | empty => cases hi
  | round htake hrun _ ih =>
    cases i with
    | zero =>
      cases hi
      exact ⟨_, .first htake⟩
    | succ i =>
      obtain ⟨v, hv⟩ := ih hi
      exact ⟨v, .later htake hrun hv⟩

end Rounds

/-- A loop that is stopped is stopped by the closure that it has taken in one of its rounds. -/
theorem loopTakes_of_stopped {e : Stop}
    (he : (Host.drain (h.runContained (h.tickWithin depth)) n).exec s = (.error e, t)) :
    ∃ i v p sh, LoopTakes h depth n s i v p ∧ v.shared.take = (some p, sh) ∧
      (h.runContained (h.tickWithin depth) p).exec { v with shared := sh } = (.error e, t) := by
  induction n generalizing s with
  | zero => cases he
  | succ n ih =>
    unfold Host.drain at he
    rw [exec_bind_of_ok (exec_shared _)] at he
    rcases htake : s.shared.take with ⟨_ | p, sh⟩ <;> rw [htake] at he
    · cases he
    · dsimp only at he
      rw [exec_bind] at he
      rcases hrun : (h.runContained (h.tickWithin depth) p).exec { s with shared := sh } with ⟨_ | _, u⟩ <;>
        rw [hrun] at he
      · cases he
        exact ⟨0, s, p, sh, .first htake, htake, hrun⟩
      · dsimp only at he
        rw [exec_bind] at he
        rcases hrest : (Host.drain (h.runContained (h.tickWithin depth)) n).exec u with ⟨_ | _, w⟩ <;> rw [hrest] at he
        · cases he
          obtain ⟨i, v, q, sh', hv, hstop⟩ := ih hrest
          exact ⟨i + 1, v, q, sh', .later htake hrun hv, hstop⟩
        · cases he

/-! ### What was queued and what was not -/

/-- How a closure that the loop of a tick takes stands to the beginning of that tick: it was queued then, unless
    nested ticks have taken as many closures by now as the loop had rounds left for those that were. -/
structure InTurn (s : State δ ω) (i : Nat) (v : State δ ω) (p : Parcel δ ω) (nested : Nat) : Prop where
  /-- What the loop has not taken itself nested ticks have taken. -/
  count : v.takeCount = s.takeCount + i + nested
  queued : p ∈ s.shared.queue.held ↔ i + nested < s.shared.queue.length
  /-- What was not queued then has been pushed since. -/
  pushed : p ∉ s.shared.queue.held ↔ p.ticket ∉ s.shared.journal.accepted

theorem LoopTakes.inTurn (hs : Reachable h s) (hsize : s.shared.queue.capacity < UInt64.size)
    (hv : LoopTakes h depth n s i v p) : InTurn s i v p (v.takeCount - (s.takeCount + i)) := by
  obtain ⟨sh, htake⟩ := hv.take
  obtain ⟨items, hq, heq⟩ := hs.lined.each
  have hqueued := hv.steps.queued_iff hs hq htake
  have hplace := mem_prefix_iff (hv.steps.accepted_prefix hs) (hs.steps hv.steps).accepted_nodup
    ((hs.steps hv.steps).accepted_of_take htake)
  have hlength : s.shared.journal.accepted.length = s.takeCount + items.length := by
    rw [heq, List.length_append, List.length_map]
    rfl
  have hcount := hv.count hs
  refine ⟨by omega, ?_, ?_⟩
  · rw [hq.held_eq hsize, hq.length_eq hsize, hqueued, hplace, hlength]
    omega
  · rw [hq.held_eq hsize, hqueued]

/-- A tick in which no other one takes anything runs what was queued when it began, all of it and in order. -/
theorem Reachable.tick_alone {xs : List Nat} (hs : Reachable h s) (hsize : s.shared.queue.capacity < UInt64.size)
    (he : (h.tickWithin (depth + 1)).exec s = (.ok xs, t)) (hcount : t.takeCount = s.takeCount + xs.length) :
    xs = s.shared.queue.held.map Parcel.ticket := by
  obtain ⟨items, hq, heq⟩ := hs.lined.each
  obtain ⟨ps, u, hr, rfl, hreport⟩ := rounds_of_tick he
  have hut : t.shared.journal.takes = u.shared.journal.takes := by
    have := (Tickless.reportFailed (h := h)).takes u
    rwa [hreport] at this
  have htaken : s.shared.journal.takes ++ ps.map Parcel.ticket = u.shared.journal.takes := by
    refine (hr.sublist hs).eq_of_length ?_
    unfold State.takeCount at hcount
    rw [← hut, hcount, List.length_append]
  -- The loop gets to the last one that was queued, and has no round for a further one.
  have hreach := hr.reach hs
  rw [hq.length_eq hsize, heq, List.take_of_length_le (by simp), ← htaken,
    List.prefix_append_right_inj] at hreach
  rw [hq.held_eq hsize]
  refine (hreach.eq_of_length_le ?_).symm
  have hle := hr.length_le
  rw [hq.length_eq hsize] at hle
  simpa using hle

/-- What the loop of a tick takes. Whatever it takes was queued when the tick began, unless ticks that are nested
    in it have taken as many closures by then as it had rounds left for those that were queued; then, and only
    then, it takes one that has been pushed since. If no other tick takes anything, it runs just what was queued.
    A tick that is stopped is stopped by a closure that its loop has taken, or when it reports lost pushes. -/
theorem Reachable.loop_law (hs : Reachable h s) (hsize : s.shared.queue.capacity < UInt64.size) :
    (∀ {depth i v p}, LoopTakes h depth s.shared.queue.length s i v p →
      i < s.shared.queue.length ∧ InTurn s i v p (v.takeCount - (s.takeCount + i))) ∧
    (∀ {depth xs t}, (h.tickWithin (depth + 1)).exec s = (.ok xs, t) →
      (∀ {i x}, xs[i]? = some x → ∃ v p, p.ticket = x ∧ LoopTakes h depth s.shared.queue.length s i v p) ∧
      (t.takeCount = s.takeCount + xs.length → xs = s.shared.queue.held.map Parcel.ticket)) ∧
    ∀ {depth e t}, (h.tickWithin (depth + 1)).exec s = (.error e, t) →
      (∃ i v p sh, LoopTakes h depth s.shared.queue.length s i v p ∧ v.shared.take = (some p, sh) ∧
        (h.runContained (h.tickWithin depth) p).exec { v with shared := sh } = (.error e, t)) ∨
      ∃ ps u, Rounds h depth s.shared.queue.length s ps u ∧ h.reportFailed.exec u = (.error e, t) := by
  refine ⟨fun hv => ⟨hv.lt, hv.inTurn hs hsize⟩, fun {depth xs t} he => ⟨fun {i x} hx => ?_, hs.tick_alone hsize he⟩,
    fun {depth e t} he => ?_⟩
  · obtain ⟨ps, u, hr, rfl, -⟩ := rounds_of_tick he
    rw [List.getElem?_map] at hx
    obtain ⟨p, hp, hticket⟩ := Option.map_eq_some_iff.mp hx
    obtain ⟨v, hv⟩ := hr.loopTakes hp
    exact ⟨v, p, hticket, hv⟩
  · unfold Host.tickWithin at he
    rw [exec_bind_of_ok exec_get, exec_bind] at he
    rcases hdrain : (Host.drain (h.runContained (h.tickWithin depth)) s.shared.queue.length).exec s with ⟨_ | xs, u⟩ <;>
      rw [hdrain] at he
    · cases he
      exact .inl (loopTakes_of_stopped hdrain)
    · dsimp only at he
      rw [exec_bind] at he
      obtain ⟨ps, hr, -⟩ := rounds_of_drain hdrain
      rcases hreport : h.reportFailed.exec u with ⟨_ | _, w⟩ <;> rw [hreport] at he
      · cases he
        exact .inr ⟨ps, u, hr, hreport⟩
      · cases he

/-- Code that queues a task that ticks and pushes a further one afterwards, and a task that does nothing. -/
def Task.outlasting : Task Unit Unit :=
  .push (.task (.hook .tick fun _ => .push (.task .done) fun _ => .done)) fun _ =>
    .push (.task .done) fun _ => .done

/-- The tick that is nested in the first round of a loop takes the second closure of the two that were queued; the
    second round then takes a third one, which has been pushed meanwhile. -/
theorem loop_law_when_outlasting :
    let h : Host Unit Unit := .prompt ⟨9⟩ (.finish (.ok .ok))
    ∃ s v p, Reachable h s ∧ s.shared.queue.length = 2 ∧ LoopTakes h 2 2 s 1 v p ∧ p.ticket = 2 ∧
      InTurn s 1 v p (v.takeCount - (s.takeCount + 1)) ∧ p ∉ s.shared.queue.held := by
  intro h
  let s := ((h.run .outlasting).exec State.fresh).2
  have hs : Reachable h s := Reachable.fresh.run _
  have hsize : s.shared.queue.capacity < UInt64.size := by decide +kernel
  have hlength : s.shared.queue.length = 2 := by decide +kernel
  have hticks : ((h.tickWithin 3).exec s).1.toOption = some [0, 2] := by decide +kernel
  obtain ⟨hturn, hticked, -⟩ := Reachable.loop_law hs hsize
  rcases he : (h.tickWithin 3).exec s with ⟨_ | xs, t⟩
  · rw [he] at hticks
    cases hticks
  · rw [he] at hticks
    cases hticks
    obtain ⟨v, p, hp, hv⟩ := (hticked he).1 (i := 1) (x := 2) rfl
    obtain ⟨-, hin⟩ := hturn hv
    rw [hlength] at hv
    have hnew : p.ticket ∉ s.shared.journal.accepted := hp ▸ by decide +kernel
    exact ⟨s, v, p, hs, hlength, hv, hp, hin, hin.pushed.mpr hnew⟩

end EngineBridge
