import EngineBridge.Proofs.Served

/-! The law of the journal. A registration is made once under its serial number and removed at most once;
    while it is there and not over, it moves from phase to phase, callbacks start against it, and the
    engine is called to write for it; it moves to its end once, and the engine is told so then or never.
    Each entry has to be admitted by the entries before it. -/

namespace EngineBridge.Journal

/-! ### What a journal tells of a registration -/

/-- The phase of a registration after the entries, if it is there. -/
def phase? : Journal → Nat → Option Phase
  | [], _ => none
  | .registered m _ _ p :: j, n => if m = n then some p else phase? j n
  | .moved m p :: j, n => if m = n then some p else phase? j n
  | .removed m :: j, n => if m = n then none else phase? j n
  | _ :: j, n => phase? j n

/-- A registration has been made under a serial number. -/
def Knows (j : Journal) (n : Nat) : Prop := ∃ req slot p, .registered n req slot p ∈ j

/-- A registration is there and not over. -/
def Open (j : Journal) (n : Nat) : Prop := ∃ p, j.phase? n = some p ∧ p ≠ .finalized

/-- A registration has been made and is over or no longer there. -/
def Over (j : Journal) (n : Nat) : Prop := j.Knows n ∧ ¬j.Open n

/-- The engine has failed to read the body for a registration. -/
def BodyFailed (j : Journal) (n : Nat) : Prop := ∃ req, .called (some n) (.readBody req) .failed ∈ j

/-- Whether an entry tells that the engine has been told of the end of a registration. -/
def isFinalize (n : Nat) : Entry → Bool
  | .called (some m) (.finalize _ _) _ => m == n
  | _ => false

theorem isFinalize_iff {n : Nat} {e : Entry} :
    isFinalize n e = true ↔ ∃ req rc u, e = .called (some n) (.finalize req rc) u := by
  constructor
  · intro hf
    unfold isFinalize at hf
    split at hf
    · next m req rc u => exact ⟨req, rc, u, by rw [beq_iff_eq.mp hf]⟩
    · cases hf
  · rintro ⟨req, rc, u, rfl⟩
    exact beq_self_eq_true n

/-- How often the engine has been told of the end of a registration. -/
def finalizeCount (j : Journal) (n : Nat) : Nat := j.countP (isFinalize n)

/-- What an entry stirs: a registration that it moves, against which it starts a callback, or for which
    it calls the engine other than to ask or to finalize. -/
def Stirs (n : Nat) : Entry → Prop
  | .moved m _ | .started _ m => m = n
  | .called (some _) (.finalize _ _) _ => False
  | .called (some m) c _ => m = n ∧ ¬c.asks
  | _ => False

/-! ### The law -/

/-- The entries so far admit a further one. -/
def Admits (j : Journal) : Entry → Prop
  | .registered n _ _ p => ¬j.Knows n ∧ p ≠ .finalized
  | .moved n _ | .started _ n => j.Open n
  | .removed n => (j.phase? n).isSome
  | .called (some n) (.finalize req _) _ =>
    j.head? = some (.moved n .finalized) ∧ ¬j.BodyFailed n ∧ ∃ slot p, .registered n req slot p ∈ j
  | .called (some n) c _ => c.asks ∨ j.Open n
  | .called none c _ => c.asks
  | _ => True

/-- Each entry is admitted by those before it. -/
def Lawful : Journal → Prop
  | [] => True
  | e :: j => Admits j e ∧ Lawful j

variable {j later earlier : Journal} {e : Entry} {n : Nat}

theorem Lawful.of_append (h : (later ++ earlier).Lawful) : earlier.Lawful := by
  induction later with
  | nil => exact h
  | cons e later ih => exact ih h.2

theorem Knows.cons (h : j.Knows n) : Knows (e :: j) n := by
  obtain ⟨req, slot, p, hm⟩ := h
  exact ⟨req, slot, p, List.mem_cons_of_mem e hm⟩

theorem Knows.append (h : earlier.Knows n) : (later ++ earlier).Knows n := by
  obtain ⟨req, slot, p, hm⟩ := h
  exact ⟨req, slot, p, List.mem_append_right later hm⟩

/-- A registration that is there has been made. -/
theorem Lawful.knows_of_phase? (h : j.Lawful) {p : Phase} (hp : j.phase? n = some p) : j.Knows n := by
  induction j generalizing p with
  | nil => cases hp
  | cons e j ih =>
    have next : ∀ {q}, phase? j n = some q → Knows (e :: j) n := fun hq => (ih h.2 hq).cons
    cases e with
    | registered m req slot q =>
      simp only [phase?] at hp
      split at hp
      · next hm => exact ⟨req, slot, q, hm ▸ List.mem_cons_self⟩
      · exact next hp
    | moved m q =>
      simp only [phase?] at hp
      split at hp
      · next hm =>
        obtain ⟨q', hq', -⟩ := h.1
        exact next (hm ▸ hq')
      · exact next hp
    | removed m =>
      simp only [phase?] at hp
      split at hp
      · cases hp
      · exact next hp
    | _ => exact next hp

/-- A body is read only for a registration that has been made. -/
theorem Lawful.knows_of_bodyFailed (h : j.Lawful) (hb : j.BodyFailed n) : j.Knows n := by
  obtain ⟨req, hb⟩ := hb
  induction j with
  | nil => cases hb
  | cons e j ih =>
    rcases List.mem_cons.mp hb with rfl | hb
    · rcases h.1 with hc | ⟨p, hp, -⟩
      · cases hc
      · exact (h.2.knows_of_phase? hp).cons
    · exact (ih h.2 hb).cons

/-- Of a registration only its own entries change the phase. -/
theorem phase?_cons (hr : ∀ req slot p, e ≠ .registered n req slot p) (hm : ∀ p, e ≠ .moved n p)
    (hd : e ≠ .removed n) : phase? (e :: j) n = phase? j n := by
  cases e with
  | registered m req slot p => exact if_neg fun heq : m = n => hr req slot p (heq ▸ rfl)
  | moved m p => exact if_neg fun heq : m = n => hm p (heq ▸ rfl)
  | removed m => exact if_neg fun heq : m = n => hd (heq ▸ rfl)
  | _ => rfl

/-- What is over stays over. -/
theorem Over.cons (h : j.Over n) (ha : Admits j e) : Over (e :: j) n := by
  refine ⟨h.1.cons, fun ⟨p, hp, hpf⟩ => ?_⟩
  by_cases hd : e = .removed n
  · subst hd
    simp [phase?] at hp
  rw [phase?_cons ?_ ?_ hd] at hp
  · exact h.2 ⟨p, hp, hpf⟩
  · rintro req slot q rfl
    exact ha.1 h.1
  · rintro q rfl
    exact h.2 ha

theorem Over.append (h : earlier.Over n) (hl : (later ++ earlier).Lawful) : (later ++ earlier).Over n := by
  induction later with
  | nil => exact h
  | cons e later ih => exact (ih hl.2).cons hl.1

/-- What is over is not stirred any more. -/
theorem Over.not_stirs (h : earlier.Over n) (hl : (later ++ earlier).Lawful) : ∀ e ∈ later, ¬Stirs n e := by
  induction later with
  | nil => simp
  | cons e later ih =>
    intro e' he'
    rcases List.mem_cons.mp he' with rfl | he'
    · have hno := (h.append hl.2).2
      have ha := hl.1
      unfold Stirs
      split
      · rintro rfl
        exact hno ha
      · rintro rfl
        exact hno ha
      · exact id
      · next m c u hc =>
        rintro ⟨rfl, hask⟩
        unfold Admits at ha
        split at ha <;> simp_all
      · exact id
    · exact ih hl.2 e' he'

/-- A registration that is over remains in its last phase until it is removed. -/
theorem Over.phase?_append (h : earlier.Over n) (hl : (later ++ earlier).Lawful) :
    (later ++ earlier).phase? n = earlier.phase? n ∨ .removed n ∈ later := by
  induction later with
  | nil => exact .inl rfl
  | cons e later ih =>
    rcases ih hl.2 with hp | hd
    · by_cases hd : e = .removed n
      · exact .inr (hd ▸ List.mem_cons_self)
      · refine .inl (.trans (phase?_cons ?_ ?_ hd) hp)
        · rintro req slot p rfl
          exact hl.1.1 (h.append hl.2).1
        · rintro p rfl
          exact (h.append hl.2).2 hl.1
    · exact .inr (List.mem_cons_of_mem e hd)

theorem Lawful.over_of_finalized (hl : j.Lawful) (hp : j.phase? n = some .finalized) : j.Over n :=
  ⟨hl.knows_of_phase? hp, fun ⟨_, hp', hne⟩ => hne (Option.some.inj (hp' ▸ hp))⟩

/-! ### The end of a registration -/

theorem over_of_moved (hl : Lawful (.moved n .finalized :: j)) : Over (.moved n .finalized :: j) n :=
  hl.over_of_finalized (if_pos rfl)

/-- The engine is told of an end only when it has come. -/
theorem Lawful.over_of_isFinalize (hl : j.Lawful) (he : e ∈ j) (hf : isFinalize n e) : j.Over n := by
  induction j with
  | nil => cases he
  | cons e' j ih =>
    rcases List.mem_cons.mp he with rfl | he
    · obtain ⟨req, rc, u, rfl⟩ := isFinalize_iff.mp hf
      cases j with
      | nil => cases hl.1.1
      | cons e' j =>
        obtain rfl := Option.some.inj hl.1.1
        exact (over_of_moved hl.2).cons hl.1
    · exact (ih hl.2 he).cons hl.1

/-- The engine is told of the end of a registration at most once. -/
theorem Lawful.finalizeCount_le_one (hl : j.Lawful) : j.finalizeCount n ≤ 1 := by
  induction j with
  | nil => exact Nat.zero_le _
  | cons e j ih =>
    unfold finalizeCount at ih ⊢
    rw [List.countP_cons]
    split
    · next hf =>
      obtain ⟨req, rc, u, rfl⟩ := isFinalize_iff.mp hf
      -- Before the move that the entry follows, the registration was open, so nothing was told yet.
      suffices j.countP (isFinalize n) = 0 by omega
      rw [List.countP_eq_zero]
      intro e he hf'
      cases j with
      | nil => cases he
      | cons e' j =>
        obtain rfl := Option.some.inj hl.1.1
        rcases List.mem_cons.mp he with rfl | he
        · cases hf'
        · exact (hl.2.2.over_of_isFinalize he hf').2 hl.2.1
    · exact ih hl.2

/-- The engine is not told of the end of a registration whose body it has failed to read. -/
theorem Lawful.finalizeCount_of_bodyFailed (hl : j.Lawful) (hb : j.BodyFailed n) : j.finalizeCount n = 0 := by
  obtain ⟨req, hb⟩ := hb
  refine List.countP_eq_zero.mpr fun e he hf => ?_
  induction j with
  | nil => cases he
  | cons e' j ih =>
    rcases List.mem_cons.mp he with rfl | he'
    · obtain ⟨req', rc, u, rfl⟩ := isFinalize_iff.mp hf
      rcases List.mem_cons.mp hb with hb | hb
      · cases hb
      · exact hl.1.2.1 ⟨req, hb⟩
    · rcases List.mem_cons.mp hb with rfl | hb
      · -- The failure comes while the registration is open.
        rcases hl.1 with hc | ho
        · cases hc
        · exact (hl.2.over_of_isFinalize he' hf).2 ho
      · exact ih hl.2 hb he'

/-- The engine is told of the end of a request that has been registered. -/
theorem Lawful.registered_of_finalize (hl : j.Lawful) {req : ReqId} {rc : Int32} {u : Upshot}
    (hm : .called (some n) (.finalize req rc) u ∈ j) : ∃ slot p, .registered n req slot p ∈ j := by
  induction j with
  | nil => cases hm
  | cons e j ih =>
    rcases List.mem_cons.mp hm with rfl | hm
    · obtain ⟨slot, p, hr⟩ := hl.1.2.2
      exact ⟨slot, p, List.mem_cons_of_mem _ hr⟩
    · obtain ⟨slot, p, hr⟩ := ih hl.2 hm
      exact ⟨slot, p, List.mem_cons_of_mem _ hr⟩

/-- What is called on behalf of no registration only asks. -/
theorem Lawful.asks_of_none (hl : j.Lawful) {c : Call} {u : Upshot} (hm : .called none c u ∈ j) : c.asks := by
  induction j with
  | nil => cases hm
  | cons e j ih =>
    rcases List.mem_cons.mp hm with rfl | hm
    · exact hl.1
    · exact ih hl.2 hm

/-- The engine is told of an end on behalf of a registration only. -/
theorem Lawful.not_mem_finalize_none (hl : j.Lawful) {req : ReqId} {rc : Int32} {u : Upshot} :
    .called none (.finalize req rc) u ∉ j := by
  intro hm
  cases hl.asks_of_none hm

/-- A serial number is given to one registration. -/
theorem Lawful.registered_inj (hl : j.Lawful) {req req' : ReqId} {slot slot' : Nat} {p p' : Phase}
    (h : .registered n req slot p ∈ j) (h' : .registered n req' slot' p' ∈ j) :
    req = req' ∧ slot = slot' ∧ p = p' := by
  induction j with
  | nil => cases h
  | cons e j ih =>
    rcases List.mem_cons.mp h with rfl | hm
    · rcases List.mem_cons.mp h' with h' | h'
      · cases h'
        exact ⟨rfl, rfl, rfl⟩
      · exact absurd ⟨_, _, _, h'⟩ hl.1.1
    · rcases List.mem_cons.mp h' with rfl | h'
      · exact absurd ⟨_, _, _, hm⟩ hl.1.1
      · exact ih hl.2 hm h'

end EngineBridge.Journal
