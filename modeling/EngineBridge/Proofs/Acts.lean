import EngineBridge.Proofs.Reach

/-! Runs of a worker as lists of what is done with it. A step relates the states before and after it; an act
    tells besides what it is that has been done, so that what happened earlier in a run can be spoken of even
    where neither the state nor the journal shows it. -/

namespace EngineBridge
open EngineBridge.Action Registry
variable {δ ω : Type} {h : Host δ ω} {s t : State δ ω}

/-- One thing that can be done with a worker. What a tick does is told in acts of its own. -/
inductive Act (δ ω : Type)
  | hook (k : Hook ω)
  | request (req : ReqId) (code : Callback δ ω)
  | data (change : δ → δ)
  | world (change : ω → ω)
  | push (work : Work δ ω)
  | awaitOffload (index : Nat)
  /-- A tick takes the first closure from the queue, if there is one, and begins it. A task then goes on with
      further acts. -/
  | next
  /-- A tick logs the panic of a task. -/
  | contained (message : String)
  /-- A tick reports lost pushes. -/
  | reported

namespace Host

/-- Begins a closure that has been taken from the queue. -/
def begin (h : Host δ ω) (p : Parcel δ ω) : Action δ ω Unit :=
  match p.work with
  | .task _ => record (.ran p.ticket)
  | .continuation target code => h.resume target p.ticket code

/-- The state after a closure has been taken from the queue and begun, if there was one. -/
def advanced (h : Host δ ω) (s : State δ ω) : State δ ω :=
  match s.shared.take with
  | (none, sh) => { s with shared := sh }
  | (some p, sh) => ((h.begin p).exec { s with shared := sh }).2

/-- The state after an act. -/
def act (h : Host δ ω) (s : State δ ω) : Act δ ω → State δ ω
  | .hook k => ((h.perform (throw .overrun) k).exec s).2
  | .request req code => ((h.useRequest req code).exec s).2
  | .data change => ((changeData change).exec s).2
  | .world change => ((changeWorld change).exec s).2
  | .push work => ((h.push work).exec s).2
  | .awaitOffload index => ((h.awaitOffload index).exec s).2
  | .next => h.advanced s
  | .contained message => ((h.log (.taskPanicked message) none).exec s).2
  | .reported => (h.reportFailed.exec s).2

/-- The state after a run, which is given with the latest act first. -/
def after (h : Host δ ω) (s : State δ ω) : List (Act δ ω) → State δ ω
  | [] => s
  | a :: acts => h.act (h.after s acts) a

end Host

theorem Step.advanced (h : Host δ ω) (s : State δ ω) : Step h s (h.advanced s) := by
  unfold Host.advanced
  split
  · next htake => exact .nothing htake
  · next p sh htake =>
    obtain ⟨x, code | ⟨target, code⟩⟩ := p
    · exact .task htake
    · exact .continuation htake

/-- The steps are the acts. -/
theorem Step.iff_act : Step h s t ↔ ∃ a, t = h.act s a := by
  constructor
  · intro hst
    have next : ∀ {taken sh}, s.shared.take = (taken, sh) → h.advanced s =
        match (taken, sh) with
        | (none, sh) => { s with shared := sh }
        | (some p, sh) => ((h.begin p).exec { s with shared := sh }).2 := by
      intro taken sh htake
      unfold Host.advanced
      rw [htake]
    cases hst with
    | hook k => exact ⟨.hook k, rfl⟩
    | request req code => exact ⟨.request req code, rfl⟩
    | data change => exact ⟨.data change, rfl⟩
    | world change => exact ⟨.world change, rfl⟩
    | push work => exact ⟨.push work, rfl⟩
    | awaitOffload index => exact ⟨.awaitOffload index, rfl⟩
    | nothing htake | task htake | continuation htake => exact ⟨.next, (next htake).symm⟩
    | contained message => exact ⟨.contained message, rfl⟩
    | reported => exact ⟨.reported, rfl⟩
  · rintro ⟨a, rfl⟩
    cases a with
    | hook k => exact .hook k
    | request req code => exact .request req code
    | data change => exact .data change
    | world change => exact .world change
    | push work => exact .push work
    | awaitOffload index => exact .awaitOffload index
    | next => exact .advanced h s
    | contained message => exact .contained message
    | reported => exact .reported

/-- Chains of steps are lists of acts, so every run of code that acts on a worker is one. -/
theorem Steps.iff_after : Steps h s t ↔ ∃ acts, t = h.after s acts := by
  constructor
  · intro hst
    induction hst with
    | refl => exact ⟨[], rfl⟩
    | tail _ hst ih =>
      obtain ⟨acts, rfl⟩ := ih
      obtain ⟨a, rfl⟩ := Step.iff_act.mp hst
      exact ⟨a :: acts, rfl⟩
  · rintro ⟨acts, rfl⟩
    induction acts with
    | nil => exact .refl
    | cons a acts ih => exact ih.tail (Step.iff_act.mpr ⟨a, rfl⟩)

theorem Reachable.after (hs : Reachable h s) (acts : List (Act δ ω)) : Reachable h (h.after s acts) :=
  hs.steps (Steps.iff_after.mpr ⟨acts, rfl⟩)

/-! ### What acts do to subrequests -/

/-- What is done to the subrequests, and to where their children are to be sent, part after part. -/
abbrev Branchings (h : Host δ ω) : State δ ω → State δ ω → Prop := Relation.ReflTransGen (Branching h False)

/-- Acts that remove the record of a subrequest or forget where a request is to be sent. -/
def Act.Frees : Act δ ω → Prop
  | .hook k => k.Frees
  | _ => False

theorem Branching.grows (hst : Branching h False s t) : s.shared.journal <:+ t.shared.journal := by
  cases hst with
  | idle es _ _ _ hj => exact ⟨es, hj.symm⟩
  | issued hp | unissued hp => exact ⟨[_, .called _ _ _, .called _ _ _], rfl⟩
  | broken hp => exact ⟨[.called _ _ _, .called _ _ _], rfl⟩
  | free hC => cases hC

theorem Chores.branchings {R : Prop} (hst : Chores h R False s t) : Branchings h s t :=
  Relation.ReflTransGen.mono (fun _ _ => Chore.branching) _ _ hst

namespace Branchings

theorem grows (hst : Branchings h s t) : s.shared.journal <:+ t.shared.journal := by
  induction hst with
  | refl => exact List.suffix_rfl
  | tail _ hut ih => exact ih.trans hut.grows

theorem of_errand {α : Type} {a : Action δ ω α} (ha : a.Errand h True False) (s : State δ ω) :
    Branchings h s (a.exec s).2 :=
  (ha.chores s).branchings

theorem taken {p : Parcel δ ω} {sh : Shared δ ω} (htake : s.shared.take = (some p, sh)) :
    Branching h False s { s with shared := sh } := by
  obtain ⟨queue, -, rfl⟩ := Shared.pop_of_take htake
  exact .idle [.taken p.ticket] rfl rfl (Nat.le_refl _) rfl (by simp [Entry.unrelated])

theorem advanced (h : Host δ ω) (s : State δ ω) : Branchings h s (h.advanced s) := by
  unfold Host.advanced
  split
  · next htake =>
    obtain ⟨queue, -, rfl⟩ := Shared.pop_of_take_none htake
    exact .single (.idle [] rfl rfl (Nat.le_refl _) rfl (by simp))
  · next p sh htake =>
    refine .head (taken htake) ?_
    obtain ⟨x, code | ⟨target, code⟩⟩ := p
    · exact of_errand (.record rfl rfl) _
    · exact of_errand (.resume target x code) _

theorem reportFailed (h : Host δ ω) (s : State δ ω) : h.reportFailed.Leaves (Branchings h s) s := by
  have last : ∀ {t : State δ ω} n, Branchings h s t →
      Branchings h s { t with worker := { t.worker with lastFailed := n } } := fun n ht =>
    ht.tail (.idle [] rfl rfl (Nat.le_refl _) rfl (by simp))
  have lost : ∀ n, (h.log (.pushesLost n) none).Leaves (Branchings h s) s := fun n =>
    (Spoken.log (h := h) (.pushesLost n) none).mono fun t (ht : Spoken none s t) => by
      obtain ⟨es, hes, htalk⟩ := ht.entries
      refine .single (.idle es (by rw [ht.worker]) (by rw [ht.worker]) (Nat.le_of_eq (by rw [ht.worker])) hes ?_)
      intro e he
      have := (htalk e he).1
      cases e <;> first | rfl | cases this
  refine .bind_of_ok rfl (.bind_of_ok exec_worker ?_)
  dsimp only
  split
  · exact (lost _).bind fun _ _ _ ht => last _ ht
  · exact .pure .refl

/-- Most acts issue subrequests at most. -/
theorem act {a : Act δ ω} (ha : ¬a.Frees) (s : State δ ω) : Branchings h s (h.act s a) := by
  cases a with
  | hook k =>
    by_cases hk : k = .tick
    · subst hk
      exact .refl
    · exact of_errand (.perform hk (fun _ => trivial) ha _) s
  | request req code => exact of_errand (.useRequest req code) s
  | data change => exact of_errand (.changeData change) s
  | world change => exact of_errand (.changeWorld change) s
  | push work => exact of_errand (.push work) s
  | awaitOffload index => exact of_errand (.awaitOffload index) s
  | next => exact advanced h s
  | contained message => exact of_errand (.log rfl) s
  | reported => exact reportFailed h s

end Branchings
end EngineBridge
