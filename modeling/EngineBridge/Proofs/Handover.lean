import EngineBridge.Proofs.Protocol
import EngineBridge.Proofs.Refusals

/-! What a chunk of a body goes out behind. The first one goes out behind the header section, and stays
    back if the engine does not take that. But the header section then counts as handed over all the same,
    so what is sent later goes out behind none. -/

namespace EngineBridge
open EngineBridge.Action Registry Response
variable {δ ω α : Type} {h : Host δ ω} {s t u : State δ ω} {X : List Nat} {k n : Nat} {r : Registration}
  {req : ReqId} {w before : Response} {chunk : Chunk} {c : RequestCall} {sent ended : Bool}

/-! ### How a chunk is handed over -/

/-- What the engine hears of a chunk that is handed over, by whether the header section counts as handed over
    before. -/
inductive Handover (req : ReqId) (chunk : Chunk) (sent : Bool) : Response → Prop
  | behind {v : Upshot} : sent = true → Handover req chunk sent [(.output req chunk, v)]
  /-- The header section goes out first, and the engine takes it. -/
  | along {pre : Response} {v : Upshot} : sent = false → chunks pre = [] →
    Handover req chunk sent (pre ++ [(.sendHeader req, .succeeded), (.output req chunk, v)])
  /-- The chunk stays back. -/
  | held {w : Response} : sent = false → chunks w = [] → Handover req chunk sent w

/-- A chunk has been handed over for a registration, whatever the engine has made of it. -/
def HandsOver (k : Nat) (r : Registration) (chunk : Chunk) (before : Response) (t : State δ ω) : Prop :=
  ∃ sent w, Voiced k r sent chunk.last (before ++ w) t ∧ (sent || chunk.last) = true ∧
    Handover r.id chunk r.headersSent w

/-- No chunk has been handed over for a registration, and its flags are as they were. -/
def Abides (k : Nat) (r : Registration) (before : Response) (t : State δ ω) : Prop :=
  ∃ w, Voiced k r r.headersSent r.ended (before ++ w) t ∧ chunks w = []

namespace HandsOver

theorem held (hv : Voiced k r sent chunk.last (before ++ w) t) (hmark : (sent || chunk.last) = true)
    (hsent : r.headersSent = false) (hw : chunks w = []) : HandsOver k r chunk before t :=
  ⟨sent, w, hv, hmark, .held hsent hw⟩

/-- A chunk is handed over once the header section has gone out, and stays back if that fails. -/
theorem ensureHeaderSent {a : Action δ ω (Except Error α)} {P : State δ ω → Prop}
    (hv : Voiced k r false ended w t)
    (hfail : ∀ u v, v ≠ .succeeded → Voiced k r true ended (w ++ [(.sendHeader r.id, v)]) u → P u)
    (hgo : ∀ u, Voiced k r true ended (w ++ [(.sendHeader r.id, .succeeded)]) u → a.Leaves P u) : Action.Leaves (do
      match ← h.ensureHeaderSent k with
      | .error e => return Except.error e
      | .ok () => a) P t := by
  rcases he : (h.ensureHeaderSent k).exec t with ⟨x, u⟩
  obtain ⟨v, hu, hx⟩ := GoesOn.ensureHeaderSent hv he
  by_cases hsucc : v = .succeeded
  · subst hsucc
    obtain rfl := hx.mpr rfl
    exact .bind_of_ok he (hgo u hu)
  · refine Leaves.bind (.of_exec he (hfail u v hsucc hu)) fun y _ hy ht => ?_
    cases y with
    | error e => exact .pure ht
    | ok _ =>
      cases he.symm.trans hy
      exact absurd (hx.mp rfl) hsucc

theorem sendShared {data : Bytes} {flush : Bool} (hr : s.worker.requests.get? k = some r)
    (hc : r.objection (.sendShared data flush) = none) :
    (h.sendShared k data flush).Leaves (HandsOver k r ⟨data, flush, false⟩ (s.shared.journal.response r.serial)) s := by
  have hv : Voiced k r r.headersSent r.ended _ s := .of_get hr
  obtain ⟨hw, hd⟩ := r.writable_of_objection hc
  rw [r.ended_of_checkWritable hw] at hv
  refine .bind_of_ok (exec_registration_of_some hr) ?_
  rw [hw]
  dsimp only
  rw [if_neg hd]
  cases hsent : r.headersSent with
  | true =>
    rw [hsent] at hv
    refine .bind_of_ok (GoesOn.exec_ensureHeaderSent_of_sent hr hsent)
      (Leaves.bind (h.leaves_call.mpr ?_) fun _ _ _ hu => .pure hu)
    exact ⟨true, _, hv.asked rfl rfl, rfl, Handover.behind hsent⟩
  | false =>
    rw [hsent] at hv
    refine ensureHeaderSent hv (fun u v _ hu => held hu rfl hsent rfl) fun u hu =>
      Leaves.bind (h.leaves_call.mpr ?_) fun _ _ _ hu => .pure hu
    exact ⟨true, _, (hu.asked rfl rfl).of_append, rfl, Handover.along hsent (rfl : chunks [] = [])⟩

theorem outputLast {data : Bytes} {post : Response} (hv : Voiced k r true true (before ++ post) t)
    (ho : ∀ v, Handover r.id ⟨data, false, true⟩ r.headersSent (post ++ [(.output r.id ⟨data, false, true⟩, v)])) :
    (h.outputLast r data).Leaves (HandsOver k r ⟨data, false, true⟩ before) t :=
  Leaves.bind (h.leaves_call.mpr ⟨true, _, (hv.asked rfl rfl).of_append, rfl, ho _⟩) fun _ _ _ hu => .pure hu

theorem conclude {data : Bytes} (hr : s.worker.requests.get? k = some r) (hc : r.objection (.conclude data) = none) :
    (h.conclude k data).Leaves (HandsOver k r ⟨data, false, true⟩ (s.shared.journal.response r.serial)) s := by
  have hv : Voiced k r r.headersSent true _ (Host.concluded s k) := (Voiced.of_get hr).concluded
  refine .bind_of_ok (exec_registration_of_some hr) ?_
  rw [r.checkWritable_eq data, hc]
  refine .bind_of_ok (exec_modifyRegistration _) ?_
  cases hsent : r.headersSent with
  | true =>
    rw [hsent, ← List.append_nil (s.shared.journal.response r.serial)] at hv
    exact outputLast hv fun v => Handover.behind hsent
  | false =>
    rw [hsent] at hv
    rcases he : (h.announce r data).exec (Host.concluded s k) with ⟨x, u⟩
    obtain ⟨as, hu, ⟨⟨e, rfl⟩, -, hbroken⟩ | ⟨rfl, has⟩⟩ := GoesOn.announce hv he
    · exact .of_exec (exec_bind_of_error he) (held hu rfl hsent (by cases hbroken <;> rfl))
    · have hchunks : chunks as = [] := by cases has <;> rfl
      have hsilent : ∀ v, chunks (as ++ [(.sendHeader r.id, v)]) = [] := fun v => by rw [chunks_append, hchunks]; rfl
      refine .bind_of_ok he (ensureHeaderSent hu (fun _ _ _ ht => ?_) fun t ht => ?_)
      · exact held ht.of_append rfl hsent (hsilent _)
      split
      · exact .pure (held ht.of_append rfl hsent (hsilent _))
      · refine outputLast ht.of_append fun v => ?_
        rw [List.append_assoc]
        exact Handover.along hsent hchunks

/-- A call that hands over a chunk at the right time. -/
theorem answer (hr : s.worker.requests.get? k = some r) (hc : c.writes) (ho : r.objection c = none) :
    ∃ chunk, chunk.last = c.concludes ∧
      (h.answer k c).Leaves (HandsOver k r chunk (s.shared.journal.response r.serial)) s := by
  cases c with
  | send data flush =>
    refine ⟨⟨data, flush, false⟩, rfl, ?_⟩
    show HandsOver _ _ _ _ ((h.send k data flush).exec s).2
    rw [h.exec_send_eq]
    exact sendShared hr ho
  | sendShared data flush => exact ⟨_, rfl, sendShared hr ho⟩
  | conclude data | concludeShared data =>
    have ho : r.objection (.conclude data) = none := ho
    exact ⟨_, rfl, conclude hr ho⟩
  | _ => cases hc

end HandsOver

namespace Abides

theorem of_get (hr : s.worker.requests.get? k = some r) : Abides k r (s.shared.journal.response r.serial) s :=
  ⟨[], (List.append_nil _).symm ▸ .of_get hr, rfl⟩

theorem mute (hs : Abides k r before s) (hst : Mute s t) : Abides k r before t := by
  obtain ⟨w, hv, hw⟩ := hs
  exact ⟨w, hv.mute hst, hw⟩

/-- The status is set or a header is added. -/
theorem head {d : Call} (hs : Abides k r before s) (hd : d.responds) (hnone : ∀ v, chunks [(d, v)] = []) :
    Abides k r before (h.asked (some r.serial) d s) := by
  obtain ⟨w, hv, hw⟩ := hs
  exact ⟨_, (hv.asked hd rfl).of_append, by rw [chunks_append, hw, hnone]; rfl⟩

/-- A call that hands over no chunk. -/
theorem answer (hr : s.worker.requests.get? k = some r) (hc : c.writes = false) :
    (h.answer k c).Leaves (Abides k r (s.shared.journal.response r.serial)) s := by
  have hs : Abides k r _ s := of_get hr
  have read : c.reads → (h.answer k c).Leaves (Abides k r _) s := fun hc =>
    (Mute.answer hc).mono fun _ hst => hs.mute hst
  cases c with
  | setStatus code =>
    refine Leaves.bind_of_ok (exec_registration_of_some hr) ?_
    split
    · exact .pure hs
    · exact Leaves.bind (h.leaves_call.mpr (hs.head rfl fun _ => rfl)) fun _ _ _ ht => .pure ht
  | addHeader name value =>
    refine Leaves.bind_of_ok (exec_registration_of_some hr) ?_
    split
    · exact .pure hs
    · exact Leaves.bind (h.leaves_call.mpr (hs.head rfl fun _ => rfl)) fun _ _ _ ht => .pure ht
  | send | sendShared | conclude | concludeShared => cases hc
  | _ => exact read rfl

end Abides

/-! ### Chunks that go out behind no header section -/

namespace Response

/-- After what the engine has heard of a response before, a chunk of the body goes out although the engine
    has not taken the header section. -/
def Headless (before w : Response) : Prop :=
  ∃ pre req chunk v post, w = pre ++ (.output req chunk, v) :: post ∧ (.sendHeader req, .succeeded) ∉ before ++ pre

@[simp] theorem chunks_output_cons (req : ReqId) (chunk : Chunk) (v : Upshot) (w : Response) :
    chunks ((.output req chunk, v) :: w) = chunk :: chunks w := rfl

theorem chunks_output_ne_nil (pre : Response) (req : ReqId) (chunk : Chunk) (v : Upshot) (post : Response) :
    chunks (pre ++ (.output req chunk, v) :: post) ≠ [] := by simp

theorem exists_output_of_chunks_ne_nil (hw : chunks w ≠ []) :
    ∃ pre req chunk v post, w = pre ++ (.output req chunk, v) :: post := by
  obtain ⟨chunk, hchunk⟩ := List.exists_mem_of_ne_nil _ hw
  obtain ⟨⟨c, v⟩, hm, hx⟩ := List.mem_filterMap.mp hchunk
  obtain ⟨pre, post, rfl⟩ := List.append_of_mem hm
  cases c <;> simp only [Option.some.injEq, reduceCtorEq] at hx
  exact ⟨pre, _, _, v, post, rfl⟩

theorem Headless.chunks_ne_nil (hw : Headless before w) : chunks w ≠ [] := by
  obtain ⟨pre, req, chunk, v, post, rfl, -⟩ := hw
  exact chunks_output_ne_nil _ _ _ _ _

/-- Where no chunk goes out before the header section, one that goes out comes after it. -/
theorem after_header {pre post pre' post' : Response} {req' : ReqId} {x v : Upshot}
    (heq : pre' ++ (.output req' chunk, v) :: post' = pre ++ (.sendHeader req, x) :: post) (hpre : chunks pre = []) :
    ∃ mid, pre' = pre ++ (.sendHeader req, x) :: mid ∧ post = mid ++ (.output req' chunk, v) :: post' := by
  rcases List.append_eq_append_iff.mp heq with ⟨_ | ⟨y, mid⟩, rfl, hrest⟩ | ⟨_ | ⟨y, mid⟩, rfl, hrest⟩
  · cases hrest
  · cases hrest
    simp at hpre
  · cases hrest
  · cases hrest
    exact ⟨mid, rfl, rfl⟩

theorem Pieces.no_header {v : Upshot} (hw : Pieces req w) : (.sendHeader req, v) ∉ w := fun hm => by
  obtain ⟨data, flush, -, hx⟩ := hw _ hm
  cases hx

/-- In a response either no chunk goes out, or the header section goes out once and before any. -/
theorem headed (hw : Proper req w ∨ CutShort req w) : chunks w = [] ∨ ∃ pre x post,
    w = pre ++ (.sendHeader req, x) :: post ∧ chunks pre = [] ∧ ∀ v, (.sendHeader req, v) ∉ pre ++ post := by
  obtain ⟨heads, body, tail, rfl, hh, hb, ht⟩ := parts hw
  obtain ⟨-, hheads, hheads'⟩ := hh.nothing
  obtain ⟨-, htail, htail'⟩ := ht.nothing
  have silent : chunks body = [] → chunks (heads ++ body ++ tail) = [] := fun hbody => by simp [hheads, hbody, htail]
  rcases hb with rfl | hb | hb | hb
  · exact .inl (silent rfl)
  · cases hb with
    | @going u pieces hp =>
      refine .inr ⟨heads, u, pieces ++ tail, by simp, hheads, ?_⟩
      simp [hheads', htail', hp.no_header]
    | @closed u v pieces data hp =>
      refine .inr ⟨heads, u, pieces ++ (.output req ⟨data, false, true⟩, v) :: tail, by simp, hheads, ?_⟩
      simp [hheads', htail', hp.no_header]
  · cases hb with
    | empty => exact .inl (silent rfl)
    | unsent => exact .inl (silent rfl)
    | @full data u v =>
      refine .inr ⟨heads ++ [(.setContentLength req data.length, u)], .succeeded,
        (.output req ⟨data, false, true⟩, v) :: tail, by simp, ?_, ?_⟩
      · rw [chunks_append, hheads]
        rfl
      · simp [hheads', htail']
  · cases hb <;> exact .inl (silent rfl)

/-- A chunk of a response goes out behind no header section just where the engine has not taken that, and a
    chunk goes out later. -/
theorem headless_iff (hw : Proper req w ∨ CutShort req w) : Headless [] w ↔
    ∃ pre x post, w = pre ++ (.sendHeader req, x) :: post ∧ x ≠ .succeeded ∧ chunks post ≠ [] := by
  have hone := headed hw
  have hreq := req?_eq hw
  constructor
  · intro hless
    obtain ⟨pre, x, post, heq, hpre, -⟩ := hone.resolve_left hless.chunks_ne_nil
    obtain ⟨pre', req', chunk, v, post', rfl, hnone⟩ := hless
    obtain rfl : req' = req := Option.some.inj (hreq (.output req' chunk, v) (by simp))
    obtain ⟨mid, rfl, rfl⟩ := after_header heq hpre
    exact ⟨pre, x, _, heq, by rintro rfl; simp at hnone, chunks_output_ne_nil _ _ _ _ _⟩
  · rintro ⟨pre, x, post, rfl, hx, hpost⟩
    obtain ⟨mid, req', chunk, v, post', rfl⟩ := exists_output_of_chunks_ne_nil hpost
    obtain rfl : req' = req := Option.some.inj (hreq (.output req' chunk, v) (by simp))
    have hsplit : pre ++ (.sendHeader req', x) :: (mid ++ (.output req' chunk, v) :: post') =
      (pre ++ (.sendHeader req', x) :: mid) ++ (.output req' chunk, v) :: post' := by simp
    rw [hsplit] at hone ⊢
    obtain ⟨pre₁, x₁, post₁, heq, -, hnone⟩ := hone.resolve_left (chunks_output_ne_nil _ _ _ _ _)
    -- The header section goes out once, so it is the one that the engine has not taken.
    have hall : ∀ y, (.sendHeader req', y) ∈ pre₁ ++ (.sendHeader req', x₁) :: post₁ → y = x₁ := fun y hm => by
      rcases List.mem_append.mp hm with hm | hm
      · exact absurd (List.mem_append_left _ hm) (hnone y)
      · rcases List.mem_cons.mp hm with hm | hm
        · cases hm
          rfl
        · exact absurd (List.mem_append_right _ hm) (hnone y)
    rw [← heq] at hall
    refine ⟨_, req', chunk, v, post', rfl, fun hm => hx ?_⟩
    exact (hall x (by simp)).trans (hall .succeeded (List.mem_append_left _ hm)).symm

end Response

/-- A chunk that is handed over goes out behind no header section just if that counts as handed over before
    and the engine has not taken it. -/
theorem Handover.headless_iff (hw : Handover req chunk sent w) :
    Headless before w ↔ sent = true ∧ (.sendHeader req, .succeeded) ∉ before := by
  cases hw with
  | @behind v hsent =>
    refine ⟨fun ⟨pre, req', chunk', v', post', heq, hnone⟩ => ?_, fun ⟨_, hnone⟩ => ?_⟩
    · cases pre with
      | nil => cases heq; exact ⟨hsent, by simpa using hnone⟩
      | cons y pre => simp at heq
    · exact ⟨[], _, _, _, [], rfl, by simpa using hnone⟩
  | @along pre v hsent hpre =>
    refine iff_of_false (fun ⟨pre', req', chunk', v', post', heq, hnone⟩ => ?_) (by simp [hsent])
    obtain ⟨mid, rfl, hrest⟩ := after_header heq.symm hpre
    cases mid with
    | nil => cases hrest; simp at hnone
    | cons y mid => simp at hrest
  | held hsent hw => exact iff_of_false (fun hless => hless.chunks_ne_nil hw) (by simp [hsent])

/-- Until the last chunk, the header section counts as handed over and has not been taken just where the
    engine has heard of it and has not taken it. -/
theorem Response.SoFar.untaken_iff (hw : SoFar h req sent false w) :
    (sent = true ∧ (.sendHeader req, .succeeded) ∉ w) ↔ ∃ x, x ≠ .succeeded ∧ (.sendHeader req, x) ∈ w := by
  cases hw with
  | heads hh => exact iff_of_false (by simp) fun ⟨x, _, hm⟩ => hh.nothing.2.2 x hm
  | @streaming heads pieces u hh hp => simp [hh.nothing.2.2, hp.no_header, eq_comm]

/-- A call on a request hands over a chunk behind no header section just if it hands one over and is not
    refused, and the engine has not taken the header section before. -/
theorem Scripted.headless_iff (hs : Scripted h s) (hr : s.worker.requests.get? k = some r) (c : RequestCall) : ∃ w,
    ((h.answer k c).exec s).2.shared.journal.response r.serial = s.shared.journal.response r.serial ++ w ∧
    (Headless (s.shared.journal.response r.serial) w ↔ c.writes ∧ h.refusal? s k c = none ∧
      ∃ x, x ≠ .succeeded ∧ (.sendHeader r.id, x) ∈ s.shared.journal.response r.serial) := by
  by_cases hc : c.writes
  · rw [h.refusal?_eq hr]
    cases ho : r.objection c with
    | none =>
      obtain ⟨hopen, hended⟩ := r.open_of_objection hc ho
      obtain ⟨chunk, -, sent, w, hv, -, hw⟩ := HandsOver.answer (h := h) hr hc ho
      have hsoFar := hs.soFar hr hopen
      rw [hended] at hsoFar
      exact ⟨w, hv.response, by simp only [hw.headless_iff, hsoFar.untaken_iff, hc, true_and]⟩
    | some e =>
      refine ⟨[], ?_, iff_of_false (fun hless => hless.chunks_ne_nil rfl) (by simp)⟩
      rw [(h.refused_of_objection hr ho).2, List.append_nil]
  · obtain ⟨w, hv, hw⟩ := Abides.answer (h := h) (c := c) hr (by simpa using hc)
    exact ⟨w, hv.response, iff_of_false (fun hless => hless.chunks_ne_nil hw) fun hall => hc hall.1⟩

/-- In every moment of every run, a chunk of a response has gone out behind no header section just where the
    engine has not taken that when it heard of it. Since the header section counts as handed over all the
    same, each call that hands over a chunk then does so behind none, unless it is refused; the first one,
    which has found out, has kept its chunk back, and where the engine has taken the header section every
    chunk goes out behind it. -/
theorem Reachable.header_law (hs : Reachable h s) (hu : Deeds h ([], s) X u) :
    (∀ {n req slot p}, .registered n req slot p ∈ u.shared.journal →
      (Headless [] (u.shared.journal.response n) ↔ ∃ pre x post, u.shared.journal.response n =
        pre ++ (.sendHeader req, x) :: post ∧ x ≠ .succeeded ∧ chunks post ≠ [])) ∧
    ∀ {k r}, u.worker.requests.get? k = some r → ∀ c, ∃ w,
      ((h.answer k c).exec u).2.shared.journal.response r.serial = u.shared.journal.response r.serial ++ w ∧
      (Headless (u.shared.journal.response r.serial) w ↔ c.writes ∧ h.refusal? u k c = none ∧
        ∃ x, x ≠ .succeeded ∧ (.sendHeader r.id, x) ∈ u.shared.journal.response r.serial) := by
  have hscript : Scripted h u := Deeds.scripted hs.course hs.scripted hu
  exact ⟨fun hm => headless_iff ((hscript.words hm).imp_right And.right), fun hr c => hscript.headless_iff hr c⟩

/-- An engine that takes no header section. -/
def Engine.curt (made : ReqId) : Engine δ ω := fun
  | .sendHeader _, w => (.ok (.error ⟨-1⟩), w)
  | q, w => Engine.prompt made q w

/-- A handler that goes on when its first piece has been held back: the second piece goes out behind no
    header section, and so would the last chunk. -/
theorem header_law_when_refused :
    let h : Host Unit Unit := .plain (Engine.curt ⟨9⟩) (Host.prompt ⟨9⟩ (.call (.send [97] false) fun _ =>
      .call (.send [98] false) fun _ => .finish (.ok .async))).routes id
    ∃ s, Reachable h s ∧ s.shared.journal.response 1 =
        [(.sendHeader ⟨1⟩, .failed), (.output ⟨1⟩ ⟨[98], false, false⟩, .succeeded)] ∧
      Headless [] (s.shared.journal.response 1) ∧
      ∃ w, ((h.answer 0 (.conclude [])).exec s).2.shared.journal.response 1 = s.shared.journal.response 1 ++ w ∧
        Headless (s.shared.journal.response 1) w := by
  intro h
  let s := ((h.run (.hook (.contentPhase ⟨1⟩) fun _ => .done)).exec State.fresh).2
  have hs : Reachable h s := Reachable.fresh.run _
  have hm : .registered 1 ⟨1⟩ 0 .received ∈ s.shared.journal := by decide +kernel
  have hr : s.worker.requests.get? 0 =
    some { id := ⟨1⟩, serial := 1, phase := .suspended, location := some 1, headersSent := true } := by decide +kernel
  have hresponse : s.shared.journal.response 1 =
    [(.sendHeader ⟨1⟩, .failed), (.output ⟨1⟩ ⟨[98], false, false⟩, .succeeded)] := by decide +kernel
  obtain ⟨hwords, hcalls⟩ := Reachable.header_law hs .refl
  obtain ⟨w, hw, hless⟩ := hcalls hr (.conclude [])
  refine ⟨s, hs, hresponse, (hwords hm).mpr ?_, w, hw, hless.mpr ⟨rfl, by decide +kernel, .failed, nofun, ?_⟩⟩
  · exact ⟨[], .failed, _, hresponse, nofun, by simp⟩
  · simp [hresponse]

end EngineBridge
