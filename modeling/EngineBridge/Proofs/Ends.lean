import EngineBridge.Proofs.Calm
import EngineBridge.Proofs.Names

/-! What a stretch of a run tells: which requests the engine is told the end of, which code is started
    against which registration, and which closures are run. A request that ends is open no longer, and
    all others are open as before. -/

namespace EngineBridge
open EngineBridge.Action Registry
variable {δ ω : Type} {h : Host δ ω} {s t u : State δ ω} {k : Nat} {r : Registration}

/-! ### What entries tell -/

namespace Journal

/-- What some of the entries tell, the first one first. -/
def tell {α : Type} (f : Entry → Option α) (j : Journal) : List α := j.reverse.filterMap f

theorem tell_append {α : Type} (f : Entry → Option α) (later earlier : Journal) :
    tell f (later ++ earlier) = tell f earlier ++ tell f later := by
  simp [tell]

theorem tell_eq_nil {α : Type} {f : Entry → Option α} {j : Journal} (hj : ∀ e ∈ j, f e = none) :
    tell f j = [] := by
  unfold tell
  rw [List.filterMap_eq_nil_iff]
  exact fun e he => hj e (List.mem_reverse.mp he)

theorem tell_singleton {α : Type} (f : Entry → Option α) (e : Entry) : tell f [e] = (f e).toList := by
  cases he : f e <;> simp [tell, he]

theorem mem_tell {α : Type} {f : Entry → Option α} {j : Journal} {x : α} :
    x ∈ tell f j ↔ ∃ e ∈ j, f e = some x := by
  unfold tell
  rw [List.mem_filterMap]
  simp only [List.mem_reverse]

/-- The requests of whose end the engine has been told, each with the code. -/
def finalizes : Journal → List (ReqId × Int32) := tell fun
  | .called _ (.finalize req rc) _ => some (req, rc)
  | _ => none

/-- The roles in which code has started to run, each with the registration that it runs against. -/
def starts : Journal → List (Role × Nat) := tell fun
  | .started role serial => some (role, serial)
  | _ => none

/-- The closures that have been run. -/
def runs : Journal → List Nat := tell fun
  | .ran ticket => some ticket
  | _ => none

variable {j : Journal}

theorem mem_starts {role : Role} {n : Nat} : (role, n) ∈ j.starts ↔ .started role n ∈ j := by
  unfold starts
  rw [mem_tell]
  constructor
  · rintro ⟨e, he, hf⟩
    split at hf
    · cases hf
      exact he
    · cases hf
  · exact fun he => ⟨_, he, rfl⟩

theorem mem_finalizes {req : ReqId} {rc : Int32} :
    (req, rc) ∈ j.finalizes ↔ ∃ n u, .called n (.finalize req rc) u ∈ j := by
  unfold finalizes
  rw [mem_tell]
  constructor
  · rintro ⟨e, he, hf⟩
    split at hf
    · cases hf
      exact ⟨_, _, he⟩
    · cases hf
  · exact fun ⟨n, u, he⟩ => ⟨_, he, rfl⟩

/-- A line of the log tells what it tells, if the filter lets it through, whatever then becomes of it. -/
theorem tell_of_log {α : Type} {f : Entry → Option α} (hf : ∀ c v, f (.called none c v) = none) (notice : Log.Notice)
    (req : Option ReqId) : (h.log notice req).Leaves (fun t => tell f t.shared.journal = tell f s.shared.journal ++
      if s.worker.filter.allows notice.level then (f (.logged notice req)).toList else []) s := by
  refine .bind_of_ok exec_worker ?_
  split
  · have hrecord : tell f (.logged notice req :: s.shared.journal) =
        tell f s.shared.journal ++ (f (.logged notice req)).toList := by
      rw [← tell_singleton, ← tell_append, List.singleton_append]
    refine .bind_of_ok (exec_record _) ?_
    dsimp only
    split
    · refine .bind_of_ok (exec_shared _) ?_
      split
      · exact .pure hrecord
      · exact .raise hrecord
    · refine h.leaves_call.mpr (Eq.trans ?_ hrecord)
      show tell f ([.called none _ _] ++ _) = _
      rw [tell_append, tell_singleton, hf]
      exact List.append_nil _
  · exact .pure (List.append_nil _).symm

end Journal

/-- From one state to another, the engine has been told of these ends, each for the registration to which
    the request's name leads, code has been started like this, and these closures have been run. No name
    leads to another registration. -/
structure Tells (s t : State δ ω) (ends : List (ReqId × Int32)) (starts : List (Role × Nat)) (runs : List Nat) :
    Prop where
  entries : ∃ es, t.shared.journal = es ++ s.shared.journal ∧ es.finalizes = ends ∧ es.starts = starts ∧
    es.runs = runs ∧ ∀ {n req rc u}, .called n (.finalize req rc) u ∈ es → n = s.worker.serial? req
  serials : ∀ req, t.worker.serial? req = s.worker.serial? req

namespace Tells
variable {ends ends' : List (ReqId × Int32)} {starts starts' : List (Role × Nat)} {runs runs' : List Nat}

theorem trans (h₁ : Tells s t ends starts runs) (h₂ : Tells t u ends' starts' runs') :
    Tells s u (ends ++ ends') (starts ++ starts') (runs ++ runs') where
  entries := by
    obtain ⟨es, hes, rfl, rfl, rfl, hm⟩ := h₁.entries
    obtain ⟨es', hes', rfl, rfl, rfl, hm'⟩ := h₂.entries
    refine ⟨es' ++ es, by rw [hes', hes, List.append_assoc], Journal.tell_append _ _ _,
      Journal.tell_append _ _ _, Journal.tell_append _ _ _, fun he => ?_⟩
    rcases List.mem_append.mp he with he | he
    · exact (hm' he).trans (h₁.serials _)
    · exact hm he
  serials req := (h₂.serials req).trans (h₁.serials req)

theorem of_served {slot : Option Nat} (hst : Served slot s t) : Tells s t [] [] [] := by
  obtain ⟨es, hes, hm⟩ := hst.entries
  have hfinalize : ∀ {n req rc u}, .called n (.finalize req rc) u ∉ es := by
    intro n req rc u he
    have := hm _ he
    cases n with
    | none => cases this
    | some n => obtain ⟨-, -, -, -, hc | ⟨hc, -⟩⟩ := this <;> cases hc
  refine ⟨⟨es, hes, Journal.tell_eq_nil fun e he => ?_, Journal.tell_eq_nil fun e he => ?_,
    Journal.tell_eq_nil fun e he => ?_, fun he => absurd he hfinalize⟩, hst.serial?⟩
  · split
    · exact absurd he hfinalize
    · rfl
  · have := hm e he
    split
    · cases this
    · rfl
  · have := hm e he
    split
    · cases this
    · rfl

/-- Entries that tell of no end. -/
theorem of_entries (es : Journal) (hj : t.shared.journal = es ++ s.shared.journal)
    (hends : es.finalizes = []) (hserials : ∀ req, t.worker.serial? req = s.worker.serial? req) :
    Tells s t [] es.starts es.runs := by
  refine ⟨⟨es, hj, hends, rfl, rfl, fun {n req rc u} he => ?_⟩, hserials⟩
  have hm : (req, rc) ∈ es.finalizes := Journal.mem_finalizes.mpr ⟨n, u, he⟩
  rw [hends] at hm
  cases hm

end Tells

/-! ### Which requests are open -/

theorem isOpen_congr {req : ReqId} (hslots : t.worker.slots = s.worker.slots)
    (hopen : ∀ k, (t.worker.requests.get? k).any (·.phase ≠ .finalized) =
      (s.worker.requests.get? k).any (·.phase ≠ .finalized)) : t.worker.isOpen req = s.worker.isOpen req := by
  unfold Worker.isOpen Worker.registration?
  rw [hslots]
  cases s.worker.slots[req]? with
  | none => rfl
  | some k => exact hopen k

theorem Served.isOpen {slot : Option Nat} (hst : Served slot s t) (req : ReqId) :
    t.worker.isOpen req = s.worker.isOpen req := by
  refine isOpen_congr hst.slots fun k => ?_
  have hc := hst.course k
  cases hs : s.worker.requests.get? k with
  | none =>
    rw [hs] at hc
    rw [Option.map_eq_none_iff.mp hc]
  | some r =>
    rw [hs] at hc
    obtain ⟨r', hr', hrr'⟩ := Option.map_eq_some_iff.mp hc
    obtain ⟨-, -, hphase, -⟩ := Registration.course_inj hrr'
    rw [hr', Option.any_some, Option.any_some, hphase]

theorem isOpen_moved {p : Phase} (hr : s.worker.requests.get? k = some r) (ho : r.phase ≠ .finalized)
    (hp : p ≠ .finalized) (req : ReqId) : (moved s k r.serial p).worker.isOpen req = s.worker.isOpen req := by
  refine isOpen_congr rfl fun k' => ?_
  rw [get?_moved]
  split
  · next hk =>
    rw [hk, hr]
    simp [hp, ho]
  · rfl

/-- Ending a request leaves the others open. -/
theorem isOpen_ended (hs : Course s) {req : ReqId} (hk : s.worker.slots[req]? = some k)
    (hr : s.worker.requests.get? k = some r) (rc : Int32) (req' : ReqId) :
    (h.ended s k r rc).worker.isOpen req' = true ↔ s.worker.isOpen req' = true ∧ req' ≠ req := by
  have get : ∀ k', (h.ended s k r rc).worker.requests.get? k' =
      if k' = k then (s.worker.requests.get? k').map fun r => { r with phase := .finalized }
      else s.worker.requests.get? k' := get?_moved r.serial .finalized
  rw [isOpen_iff, isOpen_iff]
  constructor
  · rintro ⟨k', r', hk', hr', ho⟩
    rw [get] at hr'
    split at hr'
    · obtain ⟨_, -, rfl⟩ := Option.map_eq_some_iff.mp hr'
      exact absurd rfl ho
    · next hne =>
      refine ⟨⟨k', r', hk', hr', ho⟩, ?_⟩
      rintro rfl
      exact hne (Option.some.inj (Eq.trans (Eq.symm hk') hk))
  · rintro ⟨⟨k', r', hk', hr', ho⟩, hne⟩
    refine ⟨k', r', hk', (get k').trans ((if_neg ?_).trans hr'), ho⟩
    rintro rfl
    obtain ⟨r₁, hr₁, rfl⟩ := hs.named hk
    obtain ⟨r₂, hr₂, rfl⟩ := hs.named hk'
    rw [hr₁] at hr₂
    cases hr₂
    exact hne rfl

/-- From one state to another these ends, and no others, have come. -/
structure Ends (s t : State δ ω) (ends : List (ReqId × Int32)) : Prop where
  tells : Tells s t ends [] []
  isOpen : ∀ req, t.worker.isOpen req = true ↔ s.worker.isOpen req = true ∧ req ∉ ends.map Prod.fst
  course : Course s → Course t
  logger : t.worker.logger = s.worker.logger

namespace Ends
variable {ends ends' : List (ReqId × Int32)}

theorem of_served {slot : Option Nat} (hst : Served slot s t) : Ends s t [] where
  tells := .of_served hst
  isOpen req := by simp [hst.isOpen req]
  course hs := hs.served hst
  logger := hst.logger

theorem trans (h₁ : Ends s t ends) (h₂ : Ends t u ends') : Ends s u (ends ++ ends') where
  tells := h₁.tells.trans h₂.tells
  isOpen req := by
    rw [h₂.isOpen, h₁.isOpen, List.map_append, List.mem_append, not_or, and_assoc]
  course hs := h₂.course (h₁.course hs)
  logger := h₂.logger.trans h₁.logger

theorem calm (hst : Ends s t ends) (hl : s.worker.LogsCalmly) : t.worker.LogsCalmly := hl.congr hst.logger

theorem ended (hs : Course s) {req : ReqId} (hk : s.worker.slots[req]? = some k)
    (hr : s.worker.requests.get? k = some r) (ho : r.phase ≠ .finalized) (rc : Int32) :
    Ends s (h.ended s k r rc) [(req, rc)] where
  tells := by
    obtain ⟨r', hr', rfl⟩ := hs.named hk
    rw [hr] at hr'
    cases hr'
    refine ⟨⟨[_, .moved _ _], rfl, rfl, rfl, rfl, fun he => ?_⟩, serial?_moved r.serial⟩
    rcases List.mem_cons.mp he with he | he
    · cases he
      exact (serial?_of_some hk hr).symm
    · cases List.mem_singleton.mp he
  isOpen req' := by
    rw [isOpen_ended hs hk hr]
    simp
  course hs := (Deed.ended (X := []) rc hr ho).course hs
  logger := rfl

end Ends

end EngineBridge
