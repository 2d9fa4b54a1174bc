import EngineBridge.Proofs.Reach

/-! When handlers run. A registration waits for its body until its handler starts, and no registration comes to
    wait for its body again, so a handler is started once at most for each registration. -/

namespace EngineBridge
open EngineBridge.Action Registry
variable {δ ω : Type} {h : Host δ ω} {s : State δ ω}

/-- Entries that neither start a handler nor take a registration back to where it waits for its body. -/
def Entry.Onward : Entry → Prop
  | .started .handler _ | .moved _ .received => False
  | _ => True

theorem Entry.Minor.onward {who : Option Registration} {e : Entry} (he : e.Minor who) : e.Onward := by
  cases e with
  | started | moved => cases he
  | _ => trivial

/-! ### The journal -/

namespace Journal
variable {j : Journal} {e : Entry} {n : Nat}

theorem Lawful.knows_of_started (hl : j.Lawful) {role : Role} (hm : .started role n ∈ j) : j.Knows n := by
  induction j with
  | nil => cases hm
  | cons e j ih =>
    rcases List.mem_cons.mp hm with rfl | hm
    · obtain ⟨p, hp, -⟩ := hl.1
      exact (hl.2.knows_of_phase? hp).cons
    · exact (ih hl.2 hm).cons

/-- Each handler has been started once, and right after its registration has left the point where it waits for
    its body. -/
structure Handled (j : Journal) : Prop where
  once : ∀ n, j.count (.started .handler n) ≤ 1
  unstarted : ∀ {n}, j.phase? n = some .received → .started .handler n ∉ j
  since : ∀ {later earlier : Journal} {n}, j = later ++ .started .handler n :: earlier →
    ∃ before : Journal, earlier = .moved n .handling :: before ∧ before.phase? n = some .received

namespace Handled

theorem onward (hj : j.Handled) (hl : j.Lawful) (he : e.Onward) (ha : j.Admits e) : Handled (e :: j) := by
  have hstarted : ∀ n, e ≠ .started .handler n := by
    rintro n rfl
    exact he
  refine ⟨fun n => ?_, fun {n} hn hcons => ?_, fun {later earlier n} heq => ?_⟩
  · rw [List.count_cons_of_ne (hstarted n)]
    exact hj.once n
  · have hm : .started .handler n ∈ j := (List.mem_cons.mp hcons).resolve_left fun heq => hstarted n heq.symm
    have hknows := hl.knows_of_started hm
    cases e with
    | registered n' req slot p =>
      -- The serial number is a new one.
      have hne : n' ≠ n := fun heq => ha.1 (heq ▸ hknows)
      rw [phase?, if_neg hne] at hn
      exact hj.unstarted hn hm
    | moved n' p =>
      rw [phase?] at hn
      split at hn
      · cases hn
        exact he
      · exact hj.unstarted hn hm
    | removed n' =>
      rw [phase?] at hn
      split at hn
      · cases hn
      · exact hj.unstarted hn hm
    | _ => exact hj.unstarted hn hm
  · cases later with
    | nil => exact absurd (List.cons.inj heq).1 (hstarted n)
    | cons _ later => exact hj.since (List.cons.inj heq).2

theorem append {es : List Entry} (hj : j.Handled) (hl : Lawful (es ++ j)) (hes : ∀ e ∈ es, e.Onward) :
    Handled (es ++ j) := by
  induction es with
  | nil => exact hj
  | cons e es ih =>
    exact (ih hl.2 fun e' he' => hes e' (List.mem_cons_of_mem e he')).onward hl.2 (hes e List.mem_cons_self) hl.1

/-- A registration that waits for its body has its handler started. -/
theorem handled (hj : j.Handled) (hn : j.phase? n = some .received) :
    Handled (.started .handler n :: .moved n .handling :: j) := by
  have hnot : .started .handler n ∉ (.moved n .handling :: j) := fun hm =>
    hj.unstarted hn ((List.mem_cons.mp hm).resolve_left fun heq => by cases heq)
  have hother : ∀ {m}, m ≠ n → .started .handler m ∈ (.started .handler n :: .moved n .handling :: j) →
      .started .handler m ∈ j := by
    intro m hne hm
    rcases List.mem_cons.mp hm with heq | hm
    · cases heq
      exact absurd rfl hne
    · exact (List.mem_cons.mp hm).resolve_left fun heq => by cases heq
  refine ⟨fun m => ?_, fun {m} hm hstarted => ?_, fun {later earlier m} heq => ?_⟩
  · by_cases hne : m = n
    · subst hne
      rw [List.count_cons_self]
      exact Nat.le_of_eq (congrArg (· + 1) (List.count_eq_zero_of_not_mem hnot))
    · rw [List.count_cons_of_ne fun heq => hne (by cases heq; rfl), List.count_cons_of_ne fun heq => by cases heq]
      exact hj.once m
  · by_cases hne : n = m
    · subst hne
      simp [phase?] at hm
    · have hm : phase? (.moved n .handling :: j) m = some .received := hm
      rw [phase?, if_neg hne] at hm
      exact hj.unstarted hm (hother (Ne.symm hne) hstarted)
  · cases later with
    | nil =>
      cases heq
      exact ⟨j, rfl, hn⟩
    | cons _ later =>
      cases later with
      | nil => cases (List.cons.inj heq).2
      | cons _ later => exact hj.since (List.cons.inj (List.cons.inj heq).2).2

end Handled
end Journal

/-! ### Turns -/

theorem Turn.handlers {c : Option (Pending δ ω)} {a b : List Nat × State δ ω} (hc : Course a.2)
    (ha : a.2.shared.journal.Handled) (hab : Turn h c a b) : b.2.shared.journal.Handled := by
  have hl : b.2.shared.journal.Lawful := (Deeds.course hc hab.deeds).lawful
  have onward : ∀ es, b.2.shared.journal = es ++ a.2.shared.journal → (∀ e ∈ es, e.Onward) →
      b.2.shared.journal.Handled := by
    intro es hes hon
    rw [hes] at hl ⊢
    exact ha.append hl hon
  cases hab with
  | service hab =>
    obtain ⟨es, hes, hm⟩ := hab.served.entries
    exact onward es hes fun e he => (hm e he).onward
  | handled hr hp =>
    have hphase := hc.phase hr
    rw [hp] at hphase
    exact ha.handled hphase
  | left | registered | anchored | removed | read | unhandled | ran => exact onward [_] rfl (by simp [Entry.Onward])
  | unread | ended | closed => exact onward [_, _] rfl (by simp [Entry.Onward])
  | continued => exact onward [_, _, _] rfl (by simp [Entry.Onward])
  | @called p X s k r =>
    rcases Deeds.waited_cases s k r with ⟨hwaited, -⟩ | ⟨hwaited, -⟩
    · refine onward [.started (.callback p.ticket) r.serial, .ran p.ticket, .moved r.serial .resumed] ?_
        (by simp [Entry.Onward])
      rw [hwaited]
      rfl
    · refine onward [.started (.callback p.ticket) r.serial, .ran p.ticket] ?_ (by simp [Entry.Onward])
      rw [hwaited]
      rfl
  | taken htake =>
    obtain ⟨queue, -, rfl⟩ := Shared.pop_of_take htake
    exact onward [_] rfl (by simp [Entry.Onward])
  | looked htake =>
    obtain ⟨queue, -, rfl⟩ := Shared.pop_of_take_none htake
    exact ha
  | untargeted | filtered | seen => exact ha

theorem Reachable.handlers (hs : Reachable h s) : s.shared.journal.Handled := by
  have hempty : Journal.Handled [] :=
    ⟨fun _ => Nat.zero_le 1, nofun, fun {later _ _} heq => by cases later <;> cases heq⟩
  refine (hs.by_turns (P := fun _ s => s.shared.journal.Lawful ∧ s.shared.journal.Handled)
    (fun _ _ _ _ => ⟨trivial, hempty⟩) (fun hc ⟨_, ha⟩ hab => ⟨(Deeds.course hc hab.deeds).lawful, hab.handlers hc ha⟩)
    (fun _ _ ⟨hl, ha⟩ => ⟨⟨trivial, hl⟩, ?_⟩) id).2
  exact ha.onward hl trivial trivial

end EngineBridge
