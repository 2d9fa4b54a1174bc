import EngineBridge.Proofs.Names

/-! Requests that wait for their bodies. Everything that goes by registrations lets them wait until their
    handlers run; the completion of a subrequest goes by names, and so it can come before a handler. -/

namespace EngineBridge
open EngineBridge.Action Registry
variable {δ ω : Type} {h : Host δ ω} {c : Option (Pending δ ω)} {a b : List Nat × State δ ω} {X : List Nat}
  {s t u : State δ ω} {k n : Nat} {r : Registration} {p : Pending δ ω}

/-! ### What the journal tells -/

namespace Journal

/-- Whether with the last of the entries code starts to run against a registration that waits for its body, or
    the engine is told of the end of such a one. -/
def forestalls (n : Nat) : Journal → Bool
  | .started _ m :: j => decide (m = n ∧ phase? j n = some .received)
  | .called (some m) (.finalize _ _) _ :: .moved _ _ :: j => decide (m = n ∧ phase? j n = some .received)
  | _ => false

/-- How often that has happened to a registration. -/
def forestallCount (n : Nat) : Journal → Nat
  | [] => 0
  | e :: j => forestallCount n j + if forestalls n (e :: j) then 1 else 0

/-- A registration need not wait for its body any more: its handler has been started, or it has been removed,
    or its body could not be read, or it has been forestalled. -/
def Resolved (j : Journal) (n : Nat) : Prop :=
  .started .handler n ∈ j ∨ .removed n ∈ j ∨ j.BodyFailed n ∨ 0 < j.forestallCount n

variable {j : Journal} {e : Entry}

theorem forestallCount_cons (he : forestalls n (e :: j) = false) :
    forestallCount n (e :: j) = j.forestallCount n := by
  show forestallCount n j + (if forestalls n (e :: j) then 1 else 0) = _
  rw [he]
  rfl

theorem forestallCount_cons_of_forestalls (he : forestalls n (e :: j) = true) :
    forestallCount n (e :: j) = j.forestallCount n + 1 := by
  show forestallCount n j + (if forestalls n (e :: j) then 1 else 0) = _
  rw [he]
  rfl

theorem forestallCount_pos (he : forestalls n (e :: j) = true) : 0 < forestallCount n (e :: j) :=
  Nat.lt_of_lt_of_eq (Nat.succ_pos _) (forestallCount_cons_of_forestalls he).symm

theorem forestallCount_le (es : Journal) : j.forestallCount n ≤ forestallCount n (es ++ j) := by
  induction es with
  | nil => exact Nat.le_refl _
  | cons e es ih => exact Nat.le_trans ih (Nat.le_add_right _ _)

theorem forestallCount_minor {es : List Entry} {who : Option Registration} (hm : ∀ e ∈ es, e.Minor who) :
    forestallCount n (es ++ j) = j.forestallCount n := by
  induction es with
  | nil => rfl
  | cons e es ih =>
    have hes := ih fun e' he' => hm e' (List.mem_cons_of_mem e he')
    refine Eq.trans (forestallCount_cons ?_) hes
    have he := hm e List.mem_cons_self
    cases e with
    | started => cases he
    | called m q u =>
      cases m with
      | none => rfl
      | some m =>
        obtain ⟨_, -, -, -, hq⟩ := he
        cases q with
        | finalize => rcases hq with hq | ⟨hq, -⟩ <;> cases hq
        | _ => rfl
    | _ => rfl

theorem Resolved.append (hj : j.Resolved n) (es : Journal) : Resolved (es ++ j) n := by
  rcases hj with hj | hj | ⟨req, hj⟩ | hj
  · exact .inl (List.mem_append_right es hj)
  · exact .inr (.inl (List.mem_append_right es hj))
  · exact .inr (.inr (.inl ⟨req, List.mem_append_right es hj⟩))
  · exact .inr (.inr (.inr (Nat.lt_of_lt_of_le hj (forestallCount_le es))))

theorem phase?_minor {es : List Entry} {who : Option Registration} (hm : ∀ e ∈ es, e.Minor who) :
    phase? (es ++ j) n = j.phase? n := by
  induction es with
  | nil => rfl
  | cons e es ih =>
    have hes := ih fun e' he' => hm e' (List.mem_cons_of_mem e he')
    have he := hm e List.mem_cons_self
    refine Eq.trans (phase?_quiet ?_) hes
    cases e <;> first | exact trivial | cases he

end Journal

/-! ### What turns do to a registration that waits for its body -/

theorem phase?_of_other (hc : Course s) (hr : s.worker.requests.get? k = some r) (hp : r.phase ≠ .received)
    (hn : s.shared.journal.phase? n = some .received) : r.serial ≠ n := by
  rintro rfl
  rw [hc.phase hr] at hn
  exact hp (Option.some.inj hn)

/-- Nothing that is done on behalf of no completion forestalls a registration. -/
theorem Turn.forestallCount_none (hc : Course a.2) (hab : Turn h none a b) :
    b.2.shared.journal.forestallCount n = a.2.shared.journal.forestallCount n := by
  cases hab with
  | service hab =>
    obtain ⟨es, hes, hm⟩ := hab.served.entries
    rw [hes, Journal.forestallCount_minor hm]
  | handled hr =>
    refine (Journal.forestallCount_cons ?_).trans (Journal.forestallCount_cons rfl)
    refine decide_eq_false ?_
    rintro ⟨rfl, hp⟩
    cases (if_pos rfl).symm.trans hp
  | continued hr =>
    refine (Journal.forestallCount_cons ?_).trans
      ((Journal.forestallCount_cons rfl).trans (Journal.forestallCount_cons rfl))
    refine decide_eq_false ?_
    rintro ⟨rfl, hp⟩
    cases (if_pos rfl).symm.trans hp
  | ended rc hr hp =>
    refine (Journal.forestallCount_cons ?_).trans (Journal.forestallCount_cons rfl)
    refine decide_eq_false ?_
    rintro ⟨rfl, hn⟩
    exact phase?_of_other hc hr (by rcases hp with hp | hp <;> simp [hp]) hn rfl
  | unread => exact (Journal.forestallCount_cons rfl).trans (Journal.forestallCount_cons rfl)
  | left | registered | anchored | removed | read | unhandled | ran => exact Journal.forestallCount_cons rfl
  | taken htake =>
    obtain ⟨queue, -, rfl⟩ := Shared.pop_of_take htake
    exact Journal.forestallCount_cons rfl
  | looked htake =>
    obtain ⟨queue, -, rfl⟩ := Shared.pop_of_take_none htake
    rfl
  | untargeted | filtered | seen => rfl

/-- The completion of a subrequest forestalls the registrations to which the names that it goes by lead. -/
theorem Turn.forestallCount_some (hc : Course a.2) (hab : Turn h (some p) a b) :
    b.2.shared.journal.forestallCount n = a.2.shared.journal.forestallCount n ∨
      a.2.shared.journal.phase? n = some .received ∧
        (a.2.worker.serial? p.caller = some n ∨ a.2.worker.serial? p.root = some n) := by
  cases hab with
  | service hab =>
    obtain ⟨es, hes, hm⟩ := hab.served.entries
    exact .inl (by rw [hes, Journal.forestallCount_minor hm])
  | untargeted => exact .inl rfl
  | left => exact .inl (Journal.forestallCount_cons rfl)
  | @called _ X s k r hk hr =>
    by_cases hn : r.serial = n ∧ s.shared.journal.phase? n = some .received
    · obtain ⟨rfl, hn⟩ := hn
      exact .inr ⟨hn, .inl (serial?_of_some hk hr)⟩
    · refine .inl ?_
      rcases Deeds.waited_cases s k r with ⟨heq, -⟩ | ⟨heq, -⟩ <;> rw [heq]
      · refine (Journal.forestallCount_cons ?_).trans
          ((Journal.forestallCount_cons rfl).trans (Journal.forestallCount_cons rfl))
        refine decide_eq_false ?_
        rintro ⟨rfl, hp⟩
        cases (if_pos rfl).symm.trans hp
      · refine (Journal.forestallCount_cons ?_).trans (Journal.forestallCount_cons rfl)
        exact decide_eq_false hn
  | @closed _ X s req k r rc hreq hk hr =>
    by_cases hn : r.serial = n ∧ s.shared.journal.phase? n = some .received
    · obtain ⟨rfl, hn⟩ := hn
      have hserial := serial?_of_some hk hr
      refine .inr ⟨hn, ?_⟩
      rcases hreq with rfl | rfl
      · exact .inr hserial
      · exact .inl hserial
    · refine .inl ((Journal.forestallCount_cons ?_).trans (Journal.forestallCount_cons rfl))
      exact decide_eq_false hn

/-- While a completion is acted on, names lead to the same registrations, and none begins to wait for its
    body. -/
structure Lasts (s t : State δ ω) : Prop where
  serials : ∀ req, t.worker.serial? req = s.worker.serial? req
  waits : ∀ {n}, t.shared.journal.phase? n = some .received → s.shared.journal.phase? n = some .received

namespace Lasts

theorem refl (s : State δ ω) : Lasts s s := ⟨fun _ => rfl, id⟩

theorem trans (hst : Lasts s t) (htu : Lasts t u) : Lasts s u :=
  ⟨fun req => (htu.serials req).trans (hst.serials req), fun hn => hst.waits (htu.waits hn)⟩

theorem moved {m : Nat} {p : Phase} (hp : p ≠ .received) : Lasts s (Registry.moved s k m p) where
  serials := serial?_moved m
  waits {n} hn := by
    by_cases hm : m = n
    · cases (if_pos hm).symm.trans hn
      exact absurd rfl hp
    · exact (if_neg hm).symm.trans hn

/-- Entries that neither make, move nor remove a registration. -/
theorem quiet (hserials : ∀ req, t.worker.serial? req = s.worker.serial? req) {e : Entry} (he : e.Quiet)
    (hj : t.shared.journal = e :: s.shared.journal) : Lasts s t :=
  ⟨hserials, fun hn => by rwa [hj, Journal.phase?_quiet he] at hn⟩

end Lasts

theorem Turn.lasts (hab : Turn h (some p) a b) : Lasts a.2 b.2 := by
  cases hab with
  | service hab =>
    obtain ⟨es, hes, hm⟩ := hab.served.entries
    exact ⟨hab.served.serial?, fun hn => by rwa [hes, Journal.phase?_minor hm] at hn⟩
  | untargeted => exact ⟨fun _ => rfl, id⟩
  | left => exact .moved (by decide)
  | @called _ X s k r =>
    have hwaited : Lasts s (Deeds.waited s k r) := by
      rcases Deeds.waited_cases s k r with ⟨heq, -⟩ | ⟨heq, -⟩ <;> rw [heq]
      · exact .moved (by decide)
      · exact .refl s
    have hran : Lasts (Deeds.waited s k r) (Host.noted (Deeds.waited s k r) (.ran p.ticket)) :=
      .quiet (fun _ => rfl) (e := .ran _) trivial rfl
    exact (hwaited.trans hran).trans (.quiet (fun _ => rfl) (e := .started _ _) trivial rfl)
  | @closed _ X s req k r rc =>
    have hmoved : Lasts s (moved s k r.serial .finalized) := .moved (by decide)
    exact hmoved.trans (.quiet (fun _ => rfl) (e := .called _ _ _) trivial rfl)

theorem Completes.forestallCount {token : SubToken} (hc : Course s) (hst : Completes h s token p t) :
    t.shared.journal.forestallCount n = s.shared.journal.forestallCount n ∨
      s.shared.journal.phase? n = some .received ∧
        (s.worker.serial? p.caller = some n ∨ s.worker.serial? p.root = some n) := by
  obtain ⟨hp, hserial, hu⟩ := hst
  let P : List Nat × State δ ω → Prop := fun a => Lasts s a.2 ∧
    (a.2.shared.journal.forestallCount n = s.shared.journal.forestallCount n ∨
      s.shared.journal.phase? n = some .received ∧
        (s.worker.serial? p.caller = some n ∨ s.worker.serial? p.root = some n))
  have hbegun : Course (Host.completed s token) :=
    Deeds.course (h := h) (a := ([], s)) hc (.single (.completed hp hserial) : Deeds h ([], s) _ _)
  have hlasts : Lasts s (Host.completed s token) := .quiet (fun _ => rfl) (e := .completed token) trivial rfl
  have hfirst : P ([p.ticket], Host.completed s token) := ⟨hlasts, .inl (Journal.forestallCount_cons rfl)⟩
  refine (Turns.invariant (P := P) (fun {a b} hc ha hab => ?_) hbegun hfirst hu).2
  obtain ⟨hsa, hcount⟩ := ha
  refine ⟨hsa.trans hab.lasts, ?_⟩
  rcases hcount with hcount | hcount
  · rcases hab.forestallCount_some (n := n) hc with heq | ⟨hn, hnames⟩
    · exact .inl (heq.trans hcount)
    · rw [hsa.serials, hsa.serials] at hnames
      exact .inr ⟨hsa.waits hn, hnames⟩
  · exact .inr hcount

/-- A step forestalls a registration only as the completion of a subrequest that goes by the name of its
    request. -/
theorem Step.forestalled (hc : Course s) (hst : Step h s t)
    (hne : t.shared.journal.forestallCount n ≠ s.shared.journal.forestallCount n) :
    ∃ token p, Completes h s token p t ∧ s.shared.journal.phase? n = some .received ∧
      (s.worker.serial? p.caller = some n ∨ s.worker.serial? p.root = some n) := by
  rcases hst.turns hc with ht | ⟨token, p, ht⟩
  · refine absurd ?_ hne
    exact Turns.invariant (P := fun a => a.2.shared.journal.forestallCount n = s.shared.journal.forestallCount n)
      (fun hc ha hab => (hab.forestallCount_none hc).trans ha) hc rfl ht
  · rcases ht.forestallCount hc with heq | hn
    · exact absurd heq hne
    · exact ⟨token, p, ht, hn⟩

/-! ### A completion whose caller waits for its body -/

theorem Host.forestalls_subrequestDone {token : SubToken} {child : ReqId} (hc : Course s)
    (hp : s.worker.subrequests.get? token.slot = some p) (hserial : p.serial = token.serial)
    (hchild : p.child = some child) (hn : s.worker.serial? p.caller = some n)
    (hwaits : s.shared.journal.phase? n = some .received) (completion : Completion) :
    (h.subrequestDone token completion).Leaves
      (fun t => s.shared.journal.forestallCount n < t.shared.journal.forestallCount n) s := by
  obtain ⟨k, r, hk, hr, rfl⟩ := serial?_eq_some.mp hn
  have hphase : r.phase = .received := by
    rw [hc.phase hr] at hwaits
    exact Option.some.inj hwaits
  have ho : r.phase ≠ .finalized := hphase ▸ by decide
  -- The callback starts although the registration has not moved on.
  have hwaited : Deeds.waited (arrived s token child) k r = arrived s token child := if_neg (hphase ▸ by decide)
  have hcalled := Turns.called (h := h) (s := arrived s token child) (p := p) (X := []) hr ho completion
  rw [hwaited] at hcalled
  have hcomplete : (h.complete p completion).exec (arrived s token child) =
      (h.callBack p k completion).exec (arrived s token child) :=
    exec_bind_of_ok (exec_openSlot?_of_open (s := arrived s token child) hk hr ho)
  refine .of_exec (exec_subrequestDone_of_child hp hserial hchild completion) ?_
  rw [hcomplete]
  obtain ⟨es, hes⟩ := Deeds.grows hcalled.deeds
  have hone : Journal.forestallCount r.serial
      (.started (.callback p.ticket) r.serial :: .ran p.ticket :: .completed token :: s.shared.journal) =
        s.shared.journal.forestallCount r.serial + 1 := by
    refine (Journal.forestallCount_cons_of_forestalls ?_).trans (congrArg (· + 1) ?_)
    · exact decide_eq_true ⟨rfl, hwaits⟩
    · exact (Journal.forestallCount_cons rfl).trans (Journal.forestallCount_cons rfl)
  have hle := Journal.forestallCount_le (n := r.serial)
    (j := (begun (arrived s token child) p.ticket (.callback p.ticket) r.serial).shared.journal) es
  rw [hes] at hle
  exact Nat.lt_of_lt_of_le (Nat.lt_of_lt_of_eq (Nat.lt_succ_self _) hone.symm) hle

/-! ### What becomes of a registration that waits for its body -/

/-- Every registration that waits for its body has a handler. -/
def Host.Handles (h : Host δ ω) (s : State δ ω) : Prop :=
  ∀ k r, s.worker.requests.get? k = some r → r.phase = .received →
    (r.location.bind h.routes.handler?).isSome

theorem Host.Handles.moved {m : Nat} {p : Phase} (hs : h.Handles s) (hp : p ≠ .received) :
    h.Handles (moved s k m p) := by
  intro k' r' hr' hphase
  rw [get?_moved] at hr'
  split at hr'
  · obtain ⟨_, -, rfl⟩ := Option.map_eq_some_iff.mp hr'
    exact absurd hphase hp
  · exact hs k' r' hr' hphase

theorem Turn.handles (hs : h.Handles a.2) (hab : Turn h c a b) : h.Handles b.2 := by
  cases hab with
  | service hab =>
    intro k r' hr' hphase
    have hcourse := hab.served.course k
    rw [hr'] at hcourse
    obtain ⟨r, hr, hrr'⟩ := Option.map_eq_some_iff.mp hcourse.symm
    obtain ⟨-, -, hp, hlocation, -⟩ := Registration.course_inj hrr'
    rw [← hlocation]
    exact hs k r hr (hp.trans hphase)
  | registered req hcode =>
    intro k r hr hphase
    rw [get?_registered] at hr
    split at hr
    · cases hr
      exact hcode
    · exact hs k r hr hphase
  | anchored req =>
    intro k r hr hphase
    rw [get?_registered] at hr
    split at hr
    · cases hr
      cases hphase
    · exact hs k r hr hphase
  | removed => exact fun k r hr hphase => hs k r (Arena.get?_of_remove hr).2 hphase
  | @left _ _ s k r | @handled _ s k r | @unhandled _ s k r | @continued _ s k r | @ended _ s k r
  | @closed _ _ s _ k r =>
    exact hs.moved (s := s) (m := r.serial) (by decide)
  | unread => exact Host.Handles.moved (s := h.asked _ _ _) (m := _) hs (by decide)
  | @called p X s k r =>
    show h.Handles (Deeds.waited s k r)
    rcases Deeds.waited_cases s k r with ⟨heq, -⟩ | ⟨heq, -⟩ <;> rw [heq]
    · exact hs.moved (by decide)
    · exact hs
  | _ => exact hs

/-- Every registration that waits for its body has a handler, and one that has been made to wait does so until
    it is resolved. -/
structure Awaits (h : Host δ ω) (s : State δ ω) : Prop where
  handles : h.Handles s
  waits : ∀ {n req slot}, .registered n req slot .received ∈ s.shared.journal →
    s.shared.journal.phase? n = some .received ∨ s.shared.journal.Resolved n

/-- What makes no registration wait. -/
theorem Awaits.step (hs : Awaits h s) (ht : h.Handles t) (es : Journal) (hj : t.shared.journal = es ++ s.shared.journal)
    (hes : ∀ {n req slot}, .registered n req slot .received ∉ es)
    (hn : ∀ {n}, s.shared.journal.phase? n = some .received →
      Journal.phase? (es ++ s.shared.journal) n = some .received ∨ Journal.Resolved (es ++ s.shared.journal) n) :
    Awaits h t where
  handles := ht
  waits {n req slot} hm := by
    rw [hj] at hm ⊢
    rcases hs.waits ((List.mem_append.mp hm).resolve_left hes) with hp | hr
    · exact hn hp
    · exact .inr (hr.append es)

/-- A registration that moves on leaves the others waiting. -/
theorem Journal.phase?_moved {j : Journal} {m : Nat} {p : Phase} (hn : j.phase? n = some .received)
    (hm : m = n → p = .received ∨ Resolved (.moved m p :: j) n) :
    phase? (.moved m p :: j) n = some .received ∨ Resolved (.moved m p :: j) n := by
  by_cases heq : m = n
  · exact (hm heq).imp_left fun hp => (if_pos heq).trans (congrArg some hp)
  · exact .inl ((if_neg heq).trans hn)

theorem Turn.awaits (hc : Course a.2) (hs : Awaits h a.2) (hab : Turn h c a b) : Awaits h b.2 := by
  have ht := hab.handles hs.handles
  cases hab with
  | service hab =>
    obtain ⟨es, hes, hm⟩ := hab.served.entries
    exact hs.step ht es hes (fun he => by cases hm _ he) fun hn => .inl (by rwa [Journal.phase?_minor hm])
  | untargeted | filtered | seen => exact hs.step ht [] rfl (by simp) .inl
  | @left _ X s k r hr hp =>
    refine hs.step ht [.moved _ _] rfl (by simp) fun hn => Journal.phase?_moved hn fun heq => ?_
    exact absurd heq (phase?_of_other hc hr (by rcases hp with hp | hp <;> simp [hp]) hn)
  | @registered X s req location hcode =>
    refine ⟨ht, fun {n req' slot} hm => ?_⟩
    rcases List.mem_cons.mp hm with heq | hm
    · cases heq
      exact .inl (if_pos rfl)
    · have hne : s.worker.nextSerial ≠ n := Nat.ne_of_gt (hc.serials ⟨req', slot, .received, hm⟩)
      exact (hs.waits hm).imp (fun hp => (if_neg hne).trans hp) fun hr => hr.append [_]
  | @anchored X s req =>
    refine hs.step ht [.registered _ _ _ _] rfl (by simp) fun {n} hn => .inl ?_
    exact (if_neg (Nat.ne_of_gt (hc.serials (hc.lawful.knows_of_phase? hn)))).trans hn
  | @removed X s k r req =>
    refine hs.step ht [.removed _] rfl (by simp) fun {n} hn => ?_
    by_cases heq : r.serial = n
    · exact .inr (.inr (.inl (heq ▸ List.mem_cons_self)))
    · exact .inl ((if_neg heq).trans hn)
  | read => exact hs.step ht [.called _ _ _] rfl (by simp) .inl
  | @unread X s k r rc hr hp he =>
    refine hs.step ht [.moved _ _, .called _ _ _] rfl (by simp) fun {n} hn => ?_
    refine Journal.phase?_moved (j := .called _ _ _ :: s.shared.journal) hn fun heq => .inr ?_
    -- The engine has failed to read the body of this registration.
    have hupshot : (Call.readBody r.id).upshot (h.engine (.readBody r.id) s.shared.world).1 = .failed :=
      (Call.upshot_readBody (δ := δ) (ω := ω)).mpr ⟨rc, he⟩
    rw [hupshot, heq]
    exact .inr (.inr (.inl ⟨r.id, List.mem_cons_of_mem _ List.mem_cons_self⟩))
  | @handled X s k r code hr hp hcode =>
    refine hs.step ht [.started _ _, .moved _ _] rfl (by simp) fun {n} hn => ?_
    by_cases heq : r.serial = n
    · exact .inr (.inl (heq ▸ List.mem_cons_self))
    · exact .inl ((if_neg heq).trans hn)
  | unhandled hr hp hcode =>
    have := hs.handles _ _ hr hp
    rw [hcode] at this
    cases this
  | @continued X s k r x hr hp =>
    refine hs.step ht [.started _ _, .ran _, .moved _ _] rfl (by simp) fun {n} hn => .inl ?_
    exact (if_neg (phase?_of_other hc hr (by rcases hp with hp | hp <;> simp [hp]) hn)).trans hn
  | @ended X s k r rc hr hp =>
    refine hs.step ht [.called _ _ _, .moved _ _] rfl (by simp) fun {n} hn => .inl ?_
    exact (if_neg (phase?_of_other hc hr (by rcases hp with hp | hp <;> simp [hp]) hn)).trans hn
  | @called p X s k r hk hr =>
    rcases Deeds.waited_cases s k r with ⟨heq, hp⟩ | ⟨heq, -⟩ <;> rw [heq] at ht ⊢
    · refine hs.step ht [.started _ _, .ran _, .moved _ _] rfl (by simp) fun {n} hn => .inl ?_
      exact (if_neg (phase?_of_other hc hr (by simp [hp]) hn)).trans hn
    · exact hs.step ht [.started _ _, .ran _] rfl (by simp) .inl
  | @closed p X s req k r rc hreq hk hr =>
    refine hs.step ht [.called _ _ _, .moved _ _] rfl (by simp) fun {n} hn => ?_
    by_cases heq : r.serial = n
    · have hforestalls : ∀ u, Journal.forestalls n
          (.called (some r.serial) (.finalize r.id rc) u :: .moved r.serial .finalized :: s.shared.journal) = true :=
        fun _ => decide_eq_true ⟨heq, hn⟩
      exact .inr (.inr (.inr (.inr (Journal.forestallCount_pos (hforestalls _)))))
    · exact .inl ((if_neg heq).trans hn)
  | ran => exact hs.step ht [.ran _] rfl (by simp) .inl
  | taken htake =>
    obtain ⟨queue, -, rfl⟩ := Shared.pop_of_take htake
    exact hs.step ht [.taken _] rfl (by simp) .inl
  | looked htake =>
    obtain ⟨queue, -, rfl⟩ := Shared.pop_of_take_none htake
    exact hs.step ht [] rfl (by simp) .inl

theorem Reachable.awaits (hs : Reachable h s) : Awaits h s := by
  refine hs.by_turns (P := fun _ s => Awaits h s) ?_ ?_ ?_ ?_
  · intro store config data world
    exact ⟨fun k r hr => (by cases hr), nofun⟩
  · intro c a b hc hs hab
    exact hab.awaits hc hs
  · intro s token p _ _ hs
    exact hs.step hs.handles [.completed _] rfl (by simp) .inl
  · intro s p hs
    exact hs.step hs.handles [] rfl (by simp) .inl

/-- The handler of a registration that waits for its body starts when that has been read. -/
theorem Host.starts_bodyReady {req : ReqId} (hs : Reachable h s) (hn : s.worker.serial? req = some n)
    (hwaits : s.shared.journal.phase? n = some .received) :
    (h.bodyReady req).Leaves (fun t => .started .handler n ∈ t.shared.journal) s := by
  obtain ⟨k, r, hk, hr, rfl⟩ := serial?_eq_some.mp hn
  have hphase : r.phase = .received := by
    rw [hs.course.phase hr] at hwaits
    exact Option.some.inj hwaits
  obtain ⟨code, hcode⟩ := Option.isSome_iff_exists.mp (hs.awaits.handles k r hr hphase)
  have hr' : (moved s k r.serial .handling).worker.requests.get? k = some { r with phase := .handling } :=
    get?_moved_self hr
  refine .bind_of_ok (exec_slotOf? req) ?_
  rw [hk]
  refine .bind_of_ok (exec_registration_of_some hr) ?_
  rw [if_pos hphase]
  refine .bind_of_ok (exec_setPhase hr) (.bind_of_ok (exec_registration_of_some hr') ?_)
  rw [hcode]
  have hrun : (h.runAs k .handler code).Leaves
      (Turns h none ([], Host.noted (moved s k r.serial .handling) (.started .handler r.serial)) []) _ :=
    Turns.runAs hr' (.inl rfl) .refl code
  exact hrun.mono fun t ht => (Deeds.grows ht.deeds).subset List.mem_cons_self

/-- A registration that waits for its body is run against or ended before its handler only by the completion
    of a subrequest that goes by the name of its request, and it is run against then if the name is that of the
    caller. One that is neither forestalled so, nor removed, nor ended because its body cannot be read, waits
    until its handler starts, and that is when its body has been read. -/
theorem Reachable.forestalled_law (hs : Reachable h s) :
    (∀ {t n}, Step h s t → t.shared.journal.forestallCount n ≠ s.shared.journal.forestallCount n →
      ∃ token p, Completes h s token p t ∧ s.shared.journal.phase? n = some .received ∧
        (s.worker.serial? p.caller = some n ∨ s.worker.serial? p.root = some n)) ∧
    (∀ {token p child n}, s.worker.subrequests.get? token.slot = some p → p.serial = token.serial →
      p.child = some child → s.worker.serial? p.caller = some n → s.shared.journal.phase? n = some .received →
      ∀ completion, (h.subrequestDone token completion).Leaves
        (fun t => s.shared.journal.forestallCount n < t.shared.journal.forestallCount n) s) ∧
    (∀ {n req slot}, .registered n req slot .received ∈ s.shared.journal →
      s.shared.journal.phase? n = some .received ∨ s.shared.journal.Resolved n) ∧
    ∀ {n req}, s.worker.serial? req = some n → s.shared.journal.phase? n = some .received →
      (h.bodyReady req).Leaves (fun t => .started .handler n ∈ t.shared.journal) s :=
  ⟨Step.forestalled hs.course, Host.forestalls_subrequestDone hs.course, hs.awaits.waits, Host.starts_bodyReady hs⟩

/-- An engine that reads bodies later. -/
def Engine.tardy (made : ReqId) : Engine δ ω := fun
  | .readBody _, w => (.ok .pending, w)
  | q, w => Engine.prompt made q w

/-- A task has issued a subrequest from a request that waits for its body. -/
theorem forestalled_law_when_issued_early :
    let h : Host Unit Unit := { Host.prompt ⟨9⟩ (.finish (.ok .ok)) with engine := Engine.tardy ⟨9⟩ }
    ∃ s, Reachable h s ∧ s.shared.journal.phase? 1 = some .received ∧ s.shared.journal.forestallCount 1 = 0 ∧
      0 < ((h.subrequestDone ⟨0, 2⟩ ⟨⟨9⟩, 0, 200, []⟩).exec s).2.shared.journal.forestallCount 1 := by
  intro h
  let token : SubToken := ⟨0, 2⟩
  obtain ⟨s, hs, hmap, hserial, hwaits, hnone⟩ : ∃ s, Reachable h s ∧
      (s.worker.subrequests.get? 0).map (fun p => (p.serial, p.caller, p.child)) = some (2, ⟨1⟩, some ⟨9⟩) ∧
      s.worker.serial? ⟨1⟩ = some 1 ∧ s.shared.journal.phase? 1 = some .received ∧
      s.shared.journal.forestallCount 1 = 0 :=
    ⟨((h.run (.hook (.contentPhase ⟨1⟩) fun _ =>
        .request ⟨1⟩ (.waiting fun _ => .finish (.ok .ok)) fun _ => .done)).exec State.fresh).2,
      Reachable.fresh.run _, by decide +kernel, by decide +kernel, by decide +kernel, by decide +kernel⟩
  obtain ⟨p, hp, hfields⟩ := Option.map_eq_some_iff.mp hmap
  simp only [Prod.mk.injEq] at hfields
  obtain ⟨hpserial, hcaller, hchild⟩ := hfields
  obtain ⟨-, hforestalls, -, -⟩ := Reachable.forestalled_law hs
  have hp' : s.worker.subrequests.get? token.slot = some p := hp
  have hlt := hforestalls hp' hpserial hchild (hcaller ▸ hserial) hwaits ⟨⟨9⟩, 0, 200, []⟩
  unfold Action.Leaves at hlt
  rw [hnone] at hlt
  exact ⟨s, hs, hwaits, hnone, hlt⟩

end EngineBridge
