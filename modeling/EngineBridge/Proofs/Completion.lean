import EngineBridge.Proofs.Errands
import EngineBridge.Proofs.Ends

/-! What the completion of a subrequest does, where neither the engine nor the logger panics: which
    callback runs against which registration, and which requests the engine is told the end of. -/

namespace EngineBridge
open EngineBridge.Action Registry
variable {δ ω : Type} {h : Host δ ω} {s t : State δ ω} {k : Nat} {r : Registration}

/-! ### Ending requests -/

namespace Host.Calm

theorem exec_finalize (hc : h.Calm) (hr : s.worker.requests.get? k = some r) (ho : r.phase ≠ .finalized)
    (rc : Int32) : (h.finalize k rc).exec s = (.ok (), h.ended s k r rc) := by
  obtain ⟨x, hx⟩ := hc.exec_call (s := moved s k r.serial .finalized) (some r.serial) (.finalize r.id rc)
  unfold Host.finalize
  rw [exec_bind_of_ok (exec_registration_of_some hr), if_neg ho, exec_bind_of_ok (exec_setPhase hr)]
  exact hx

theorem exec_finalizeId (hc : h.Calm) (hs : Course s) (hl : s.worker.LogsCalmly) (req : ReqId) (rc : Int32) :
    ∃ t, (h.finalizeId req rc).exec s = (.ok (), t) ∧
      Ends s t (if s.worker.isOpen req then [(req, rc)] else []) := by
  have log : ∀ notice, ∃ t, (h.log notice (some req)).exec s = (.ok (), t) ∧ Ends s t [] := by
    intro notice
    obtain ⟨t, ht, hst⟩ := hc.exec_log hl notice (some req)
    exact ⟨t, ht, .of_served hst.served⟩
  unfold Host.finalizeId
  rw [exec_bind_of_ok (exec_slotOf? req)]
  cases ho : s.worker.isOpen req with
  | true =>
    obtain ⟨k, r, hk, hr, ho⟩ := isOpen_iff.mp ho
    rw [hk]
    dsimp only
    rw [exec_bind_of_ok (exec_registration_of_some hr), if_neg ho, hc.exec_finalize hr ho]
    exact ⟨_, rfl, .ended hs hk hr ho rc⟩
  | false =>
    cases hk : s.worker.slots[req]? with
    | none => exact log _
    | some k =>
      obtain ⟨r, hr, -⟩ := hs.named hk
      dsimp only
      rw [exec_bind_of_ok (exec_registration_of_some hr), if_pos]
      · exact log _
      · refine Decidable.byContradiction fun hp => ?_
        rw [isOpen_iff.mpr ⟨k, r, hk, hr, hp⟩] at ho
        cases ho

end Host.Calm

/-- The ends that the completion of a subrequest brings about with a code: that of its root, if that is
    open, and that of its main request. -/
def Pending.ends (p : Pending δ ω) (rootOpen : Bool) (rc : Int32) : List (ReqId × Int32) :=
  (if rootOpen then [(p.root, rc)] else []) ++
    match p.main with
    | some main => if main ≠ p.root then [(main, rc)] else []
    | none => []

/-- The code with which requests end by the result of a callback, unless it leaves them open. -/
def verdict : Except String Outcome → Option Int32
  | .ok .async => none
  | .ok outcome => some outcome.rc
  | .error _ => some 500

/-- The ends that the result of a callback brings about. -/
def Pending.endsBy (p : Pending δ ω) (rootOpen : Bool) (result : Except String Outcome) :
    List (ReqId × Int32) :=
  match verdict result with
  | none => []
  | some rc => p.ends rootOpen rc

namespace Host.Calm

/-- Both requests are ended, where the main request, if it is given, is open. -/
theorem exec_finalizeBoth (hc : h.Calm) (hs : Course s) (hl : s.worker.LogsCalmly) {p : Pending δ ω}
    (ho : s.worker.isOpen p.caller = true) (rc : Int32) :
    ∃ t, (h.finalizeBoth p rc).exec s = (.ok (), t) ∧ Ends s t (p.ends (s.worker.isOpen p.root) rc) := by
  obtain ⟨t, ht, hst⟩ := hc.exec_finalizeId hs hl p.root rc
  unfold Host.finalizeBoth Pending.ends
  rw [exec_bind_of_ok ht]
  cases hmain : p.main with
  | none => exact ⟨t, rfl, by rwa [List.append_nil]⟩
  | some main =>
    dsimp only
    split
    · next hne =>
      obtain ⟨u, hu, htu⟩ := hc.exec_finalizeId (hst.course hs) (hst.calm hl) main rc
      have hopen : t.worker.isOpen main = true := by
        refine (hst.isOpen main).mpr ⟨?_, ?_⟩
        · unfold Pending.caller at ho
          rwa [hmain] at ho
        · split <;> simp [hne]
      rw [if_pos hopen] at htu
      exact ⟨u, hu, hst.trans htu⟩
    · exact ⟨t, rfl, by rwa [List.append_nil]⟩

theorem exec_settle (hc : h.Calm) (hs : Course s) (hl : s.worker.LogsCalmly) {p : Pending δ ω}
    (hr : s.worker.requests.get? k = some r) (ho : s.worker.isOpen p.caller = true) (resumed : Bool)
    (result : Except String Outcome) :
    ∃ t, (h.settle p k resumed result).exec s = (.ok (), t) ∧
      Ends s t (p.endsBy (s.worker.isOpen p.root) result) := by
  rcases result with message | _ | code | _
  · obtain ⟨t, ht, hst⟩ := hc.exec_log hl (.callbackFailed message) (some p.caller)
    have hst' : Ends s t [] := .of_served hst.served
    obtain ⟨u, hu, htu⟩ := hc.exec_finalizeBoth (hst'.course hs) (hst'.calm hl)
      ((hst.served.isOpen p.caller).trans ho) 500
    rw [hst.served.isOpen] at htu
    exact ⟨u, (exec_bind_of_ok ht).trans hu, hst'.trans htu⟩
  · exact hc.exec_finalizeBoth hs hl ho 0
  · exact hc.exec_finalizeBoth hs hl ho (Outcome.status code).rc
  · unfold Host.settle
    dsimp only
    rw [exec_bind_of_ok (exec_registration_of_some hr)]
    split
    · next hp =>
      simp only [Bool.and_eq_true, beq_iff_eq] at hp
      have ho : r.phase ≠ .finalized := hp.2 ▸ by decide
      have hst : Ends s (moved s k r.serial .suspended) [] := by
        refine ⟨.of_entries [_] rfl rfl (serial?_moved r.serial), fun req => ?_, fun hs => hs.moved hr ho, rfl⟩
        rw [isOpen_moved hr ho (by decide)]
        simp
      exact ⟨_, exec_setPhase hr, hst⟩
    · exact ⟨s, rfl, .of_served (Served.refl s : Served none s s)⟩

/-- A subrequest whose caller is gone or over ends its root, if that is another request and open. -/
theorem exec_abandon (hc : h.Calm) (hs : Course s) (hl : s.worker.LogsCalmly) (p : Pending δ ω) :
    ∃ t, (h.abandon p).exec s = (.ok (), t) ∧
      Ends s t (if p.root ≠ p.caller ∧ s.worker.isOpen p.root then [(p.root, 500)] else []) := by
  have hs' : Served none s (noted s (.destroyed p.ticket)) := .of_eq rfl rfl (Nat.le_refl _) rfl [_] rfl
    (by simp [Entry.Minor])
  obtain ⟨t, ht, hst⟩ := hc.exec_log (s := noted s (.destroyed p.ticket)) hl .callerGone (some p.caller)
  have hst : Served none s t := hs'.trans hst.served
  have ht' : (h.abandon p).exec s =
      (do if p.root ≠ p.caller ∧ (← openSlot? p.root).isSome then h.finalizeId p.root 500).exec t := by
    unfold Host.abandon
    rw [exec_bind_of_ok (exec_record _)]
    exact exec_bind_of_ok ht
  rw [ht', ← hst.isOpen p.root]
  have hl' : t.worker.LogsCalmly := (Ends.of_served hst).calm hl
  have hs : Course t := hs.served hst
  cases ho : t.worker.isOpen p.root with
  | false =>
    rw [exec_bind_of_ok (exec_openSlot?_of_not_open ho fun _ => hs.occupied)]
    simp only [Option.isSome_none, Bool.false_eq_true, and_false, if_false]
    exact ⟨t, rfl, .of_served hst⟩
  | true =>
    obtain ⟨k, r, hk, hr, hp⟩ := isOpen_iff.mp ho
    rw [exec_bind_of_ok (exec_openSlot?_of_open hk hr hp)]
    simp only [Option.isSome_some, and_true]
    split
    · obtain ⟨u, hu, htu⟩ := hc.exec_finalizeId hs hl' p.root 500
      rw [if_pos ho] at htu
      exact ⟨u, hu, (Ends.of_served hst).trans htu⟩
    · exact ⟨t, rfl, .of_served hst⟩

end Host.Calm

/-! ### Running the callback -/

namespace Host

/-- The state in which the callback of a completed subrequest starts to run against the request in a
    slot. -/
def calling (s : State δ ω) (p : Pending δ ω) (k : Nat) (r : Registration) : State δ ω :=
  begun (Deeds.waited s k r) p.ticket (.callback p.ticket) r.serial

theorem calling_tells (p : Pending δ ω) :
    Tells s (calling s p k r) [] [(.callback p.ticket, r.serial)] [p.ticket] := by
  unfold calling Deeds.waited
  split
  · exact .of_entries [.started _ _, .ran _, .moved _ _] rfl rfl (serial?_moved r.serial)
  · exact .of_entries [.started _ _, .ran _] rfl rfl fun _ => rfl

theorem isOpen_calling (hr : s.worker.requests.get? k = some r) (p : Pending δ ω) (req : ReqId) :
    (calling s p k r).worker.isOpen req = s.worker.isOpen req := by
  unfold calling Deeds.waited
  split
  · next hp => exact isOpen_moved hr (hp ▸ by decide) (by decide) req
  · rfl

theorem calling_deeds (hr : s.worker.requests.get? k = some r) (ho : r.phase ≠ .finalized) (p : Pending δ ω) :
    Deeds h ([p.ticket], s) [] (calling s p k r) := by
  obtain ⟨r', hr', hserial, ho', -⟩ := Deeds.get?_waited hr ho
  have ht := Deeds.moveOn (.refl : Deeds h ([p.ticket], s) [p.ticket] s) hr
  rw [calling, ← hserial]
  exact ht.tail (.begun rfl hr' ho')

/-- What the callback of a completed subrequest comes to, which runs against the request in a slot, and the state that
    it leaves. -/
def calledBack (h : Host δ ω) (s : State δ ω) (p : Pending δ ω) (k : Nat) (r : Registration) (completion : Completion) :
    Except Stop (Except Fault Outcome) × State δ ω :=
  (h.runCallback k (p.done completion)).exec (calling s p k r)

/-- The callback runs against the request in the slot, and its result is acted on, whether that waited or not. -/
theorem exec_callBack_eq (hr : s.worker.requests.get? k = some r) (ho : r.phase ≠ .finalized) (p : Pending δ ω)
    (completion : Completion) : (h.callBack p k completion).exec s =
      (h.explain (held (h.calledBack s p k r completion).1) >>= h.settle p k (decide (r.phase = .suspended))).exec
        (h.calledBack s p k r completion).2 := by
  obtain ⟨r', hr', hserial, -⟩ := Deeds.get?_waited hr ho
  have hreg : (registration k).exec (noted (Deeds.waited s k r) (.ran p.ticket)) = (.ok r', _) :=
    exec_registration_of_some hr'
  unfold callBack
  rw [exec_bind_of_ok (Deeds.exec_resumeWaiting hr), exec_bind_of_ok (exec_record _)]
  refine (exec_bind_of_ok hreg).trans ?_
  rw [hserial]
  refine (exec_bind_of_ok (exec_record _)).trans ?_
  exact (Contained.runCallback (p.done completion)).exec_guarded_bind (calling s p k r)

/-- The callback itself ends no request, and leaves everything open that was open. -/
theorem calledBack_tells (hr : s.worker.requests.get? k = some r) (ho : r.phase ≠ .finalized) (p : Pending δ ω)
    (completion : Completion) :
    let v := (h.calledBack s p k r completion).2
    Tells s v [] [(.callback p.ticket, r.serial)] [p.ticket] ∧ (∀ req, v.worker.isOpen req = s.worker.isOpen req) ∧
      (∃ r', v.worker.requests.get? k = some r') ∧ v.worker.logger = s.worker.logger ∧ (Course s → Course v) := by
  intro v
  have huv : Served (some k) (calling s p k r) v := Served.runCallback (p.done completion)
  have hlogger : (calling s p k r).worker.logger = s.worker.logger := by
    unfold calling Deeds.waited
    split <;> rfl
  refine ⟨?_, fun req => (huv.isOpen req).trans (isOpen_calling hr p req), ?_, huv.logger.trans hlogger, fun hs => ?_⟩
  · have := (calling_tells (s := s) (k := k) (r := r) p).trans (.of_served huv)
    simpa using this
  · obtain ⟨r', hr', -⟩ := Deeds.get?_waited hr ho
    have hr' : (calling s p k r).worker.requests.get? k = some r' := hr'
    exact (huv.get? hr').imp fun _ => And.left
  · exact (Deeds.course (a := ([p.ticket], s)) hs (calling_deeds (h := h) hr ho p)).served huv

/-- If the text of the callback's fault cannot be made, nothing more is done. -/
theorem exec_callBack_of_error (hr : s.worker.requests.get? k = some r) (ho : r.phase ≠ .finalized) {p : Pending δ ω}
    {completion : Completion} {stop : Stop}
    (hx : h.explained (held (h.calledBack s p k r completion).1) = .error stop) :
    (h.callBack p k completion).exec s = (.error stop, (h.calledBack s p k r completion).2) := by
  rw [exec_callBack_eq hr ho, exec_explain_bind_of_error hx]

namespace Calm

/-- The callback runs once, and what it comes to decides which requests end. -/
theorem exec_callBack (hc : h.Calm) (hs : Course s) (hl : s.worker.LogsCalmly) {p : Pending δ ω}
    (hk : s.worker.slots[p.caller]? = some k) (hr : s.worker.requests.get? k = some r)
    (ho : r.phase ≠ .finalized) {completion : Completion} {result : Except String Outcome}
    (hx : h.explained (held (h.calledBack s p k r completion).1) = .ok result) :
    ∃ t, (h.callBack p k completion).exec s = (.ok (), t) ∧
      Tells s t (p.endsBy (s.worker.isOpen p.root) result) [(.callback p.ticket, r.serial)] [p.ticket] ∧
      ∀ req, t.worker.isOpen req = true ↔
        s.worker.isOpen req = true ∧ req ∉ (p.endsBy (s.worker.isOpen p.root) result).map Prod.fst := by
  obtain ⟨hsv, hopen, ⟨r₁, hr₁⟩, hlogger, hcourse⟩ := calledBack_tells (h := h) hr ho p completion
  obtain ⟨t, ht, hvt⟩ := hc.exec_settle (p := p) (hcourse hs) (hl.congr hlogger) hr₁
    ((hopen p.caller).trans (isOpen_iff.mpr ⟨k, r, hk, hr, ho⟩)) (decide (r.phase = .suspended)) result
  rw [hopen p.root] at hvt
  refine ⟨t, ?_, ?_, fun req => ?_⟩
  · rw [exec_callBack_eq hr ho, exec_explain_bind_of_ok hx, ht]
  · simpa using hsv.trans hvt.tells
  · rw [hvt.isOpen, hopen]

end Calm
end Host

/-! ### The completion of a subrequest -/

namespace Pending
variable {p : Pending δ ω}

theorem mem_ends_root (rc : Int32) : p.root ∈ (p.ends true rc).map Prod.fst := by
  simp [ends]

/-- The caller ends with the root, or else as the main request. -/
theorem mem_ends_caller {rootOpen : Bool} (ho : p.caller = p.root → rootOpen = true) (rc : Int32) :
    p.caller ∈ (p.ends rootOpen rc).map Prod.fst := by
  by_cases hcr : p.caller = p.root
  · rw [ho hcr, hcr]
    exact mem_ends_root rc
  · unfold caller at hcr ⊢
    cases hmain : p.main with
    | none => simp [hmain] at hcr
    | some main =>
      have hne : main ≠ p.root := by simpa [hmain] using hcr
      simp [ends, hmain, hne]

/-- Every result but `async` brings the ends about. -/
theorem endsBy_of_ne {result : Except String Outcome} (hr : result ≠ .ok .async) (rootOpen : Bool) :
    ∃ rc, p.endsBy rootOpen result = p.ends rootOpen rc := by
  unfold endsBy
  rcases result with message | _ | code | _
  · exact ⟨500, rfl⟩
  · exact ⟨0, rfl⟩
  · exact ⟨(Outcome.status code).rc, rfl⟩
  · exact absurd rfl hr

end Pending

namespace Host.Calm

/-- A completion whose caller is gone or over. -/
theorem exec_complete_of_closed (hc : h.Calm) (hs : Course s) (hl : s.worker.LogsCalmly) {p : Pending δ ω}
    (ho : s.worker.isOpen p.caller = false) (completion : Completion) :
    ∃ t, (h.complete p completion).exec s = (.ok (), t) ∧
      Tells s t (if p.root ≠ p.caller ∧ s.worker.isOpen p.root then [(p.root, 500)] else []) [] [] ∧
      t.worker.isOpen p.root = false ∧ t.worker.isOpen p.caller = false := by
  obtain ⟨t, ht, hst⟩ := hc.exec_abandon hs hl p
  have hslot : (openSlot? p.caller).exec s = (.ok none, s) :=
    exec_openSlot?_of_not_open ho fun _ => hs.occupied
  refine ⟨t, (exec_bind_of_ok hslot).trans ht, hst.tells, ?_, ?_⟩
  · refine Bool.eq_false_iff.mpr fun hopen => ?_
    obtain ⟨hso, hm⟩ := (hst.isOpen p.root).mp hopen
    have hne : p.root ≠ p.caller := fun heq => by simp [← heq, hso] at ho
    simp [hso, hne] at hm
  · refine Bool.eq_false_iff.mpr fun hopen => ?_
    rw [((hst.isOpen p.caller).mp hopen).1] at ho
    cases ho

end Host.Calm

/-- How the completion of a subrequest ends that runs the callback against a registration: by the result of that
    neither its root nor its caller is ended, or the root, if it is open, and then the main request. If the callback
    fails with an error whose text cannot be made, the completion is stopped there, and no request is ended. -/
structure Pending.Concludes (p : Pending δ ω) (h : Host δ ω) (s t : State δ ω) (serial : Nat)
    (x : Except String (Except Fault Outcome)) (out : Except Stop Unit) : Prop where
  ends : ∀ {result}, h.explained x = .ok result → out = .ok () ∧
    Tells s t (p.endsBy (s.worker.isOpen p.root) result) [(.callback p.ticket, serial)] [p.ticket]
  stays : h.explained x = .ok (.ok .async) →
    t.worker.isOpen p.root = s.worker.isOpen p.root ∧ t.worker.isOpen p.caller = true
  closes : ∀ {result}, h.explained x = .ok result → result ≠ .ok .async →
    t.worker.isOpen p.root = false ∧ t.worker.isOpen p.caller = false
  stops : ∀ {stop}, h.explained x = .error stop → out = .error stop ∧
    Tells s t [] [(.callback p.ticket, serial)] [p.ticket] ∧ ∀ req, t.worker.isOpen req = s.worker.isOpen req

namespace Host.Calm

/-- A completion whose caller is open. -/
theorem exec_complete_of_open (hc : h.Calm) (hs : Course s) (hl : s.worker.LogsCalmly) {p : Pending δ ω}
    (ho : s.worker.isOpen p.caller = true) (completion : Completion) :
    ∃ t out k r, (h.complete p completion).exec s = (out, t) ∧ s.worker.slots[p.caller]? = some k ∧
      s.worker.requests.get? k = some r ∧
      p.Concludes h s t r.serial (held (h.calledBack s p k r completion).1) out := by
  obtain ⟨k, r, hk, hr, hopen⟩ := isOpen_iff.mp ho
  have hslot : (openSlot? p.caller).exec s = (.ok (some k), s) := exec_openSlot?_of_open hk hr hopen
  cases hx : h.explained (held (h.calledBack s p k r completion).1) with
  | error stop =>
    obtain ⟨hst, hsame, -⟩ := calledBack_tells (h := h) hr hopen p completion
    refine ⟨_, _, k, r, (exec_bind_of_ok hslot).trans (exec_callBack_of_error hr hopen hx), hk, hr, ?_⟩
    constructor <;> rw [hx]
    · nofun
    · nofun
    · nofun
    · rintro _ ⟨⟩
      exact ⟨rfl, hst, hsame⟩
  | ok result =>
    obtain ⟨t, ht, hst, hto⟩ := hc.exec_callBack hs hl (p := p) hk hr hopen hx
    refine ⟨t, _, k, r, (exec_bind_of_ok hslot).trans ht, hk, hr, ?_⟩
    constructor <;> rw [hx]
    · rintro _ ⟨⟩
      exact ⟨rfl, hst⟩
    · rintro ⟨⟩
      have same : ∀ req, t.worker.isOpen req = s.worker.isOpen req := fun req =>
        Bool.eq_iff_iff.mpr (by simpa [Pending.endsBy, verdict] using hto req)
      exact ⟨same p.root, (same p.caller).trans ho⟩
    · rintro _ ⟨⟩ hresult
      obtain ⟨rc, hrc⟩ := p.endsBy_of_ne hresult (s.worker.isOpen p.root)
      rw [hrc] at hto
      refine ⟨Bool.eq_false_iff.mpr fun hopen => ?_, Bool.eq_false_iff.mpr fun hopen => ?_⟩
      · obtain ⟨hso, hm⟩ := (hto p.root).mp hopen
        rw [hso] at hm
        exact hm (p.mem_ends_root rc)
      · exact ((hto p.caller).mp hopen).2 (p.mem_ends_caller (fun heq => heq ▸ ho) rc)
    · nofun

end Host.Calm

end EngineBridge
