import EngineBridge.Proofs.Response

/-! What each response comes to. The flags of a registration tell how far its response has got; every call
    on a request goes on with the response from there, however the engine takes it, and nothing else
    touches it until the engine is told of the end. -/

namespace EngineBridge
open EngineBridge.Action Registry
variable {δ ω : Type} {h : Host δ ω} {s t u : State δ ω} {k n : Nat} {r : Registration} {req : ReqId}
  {sent ended : Bool} {w : Response} {j : Journal} {c : Call}

/-! ### What the journal tells of a response -/

/-- The call of the response of a registration that an entry tells of. -/
def Entry.responds? (n : Nat) : Entry → Option (Call × Upshot)
  | .called (some m) c u => if m = n ∧ c.responds then some (c, u) else none
  | _ => none

/-- Entries that neither tell of a call of a response nor of a new registration. -/
def Entry.Mute : Entry → Prop
  | .registered _ _ _ _ => False
  | .called (some _) c _ => ¬c.responds
  | _ => True

theorem Entry.Mute.of_minor {e : Entry} (he : e.Minor none) : e.Mute := by
  cases e with
  | called serial c u =>
    cases serial with
    | none => trivial
    | some n =>
      obtain ⟨r, hr, -⟩ := he
      cases hr
  | registered => exact he
  | _ => trivial

namespace Journal

/-- The calls of the response of a registration. -/
def response (j : Journal) (n : Nat) : Response := tell (Entry.responds? n) j

theorem response_append_of_mute (es : Journal) (hes : ∀ e ∈ es, e.Mute) (j : Journal) (n : Nat) :
    response (es ++ j) n = j.response n := by
  have hnone : tell (Entry.responds? n) es = [] := tell_eq_nil fun e he => ?_
  · unfold response
    rw [tell_append, hnone, List.append_nil]
  have hm := hes e he
  cases e with
  | called serial c u =>
    cases serial with
    | none => rfl
    | some m => exact if_neg fun hc => hm hc.2
  | _ => rfl

theorem response_called (hc : c.responds) (u : Upshot) (j : Journal) (n : Nat) :
    response (.called (some n) c u :: j) n = j.response n ++ [(c, u)] := by
  refine (tell_append _ [.called (some n) c u] j).trans (congrArg _ ?_)
  show [Entry.called (some n) c u].reverse.filterMap (Entry.responds? n) = [(c, u)]
  simp [Entry.responds?, hc]

theorem response_called_of_ne {m : Nat} (hm : m ≠ n) (u : Upshot) (j : Journal) :
    response (.called (some m) c u :: j) n = j.response n := by
  refine (tell_append _ [.called (some m) c u] j).trans ?_
  show _ ++ [Entry.called (some m) c u].reverse.filterMap (Entry.responds? n) = _
  simp [Entry.responds?, hm, response]

end Journal

/-- Calls on a request that leave its response as it is. -/
def RequestCall.reads : RequestCall → Bool
  | setStatus _ | addHeader _ _ | send _ _ | sendShared _ _ | conclude _ | concludeShared _ => false
  | _ => true

/-! ### What is said of no response -/

/-- What of a registration tells how far its response has got. -/
def Registration.voice (r : Registration) : ReqId × Nat × Phase × Bool × Bool :=
  (r.id, r.serial, r.phase, r.headersSent, r.ended)

/-- From one state to another, no response has gone on and no request has been registered. -/
structure Mute (s t : State δ ω) : Prop where
  voices : ∀ k, (t.worker.requests.get? k).map Registration.voice =
    (s.worker.requests.get? k).map Registration.voice
  entries : ∃ es, t.shared.journal = es ++ s.shared.journal ∧ ∀ e ∈ es, e.Mute

namespace Mute

theorem of_eq (hrequests : t.worker.requests = s.worker.requests) (es : Journal)
    (hj : t.shared.journal = es ++ s.shared.journal) (hes : ∀ e ∈ es, e.Mute) : Mute s t :=
  ⟨fun _ => by rw [hrequests], es, hj, hes⟩

theorem refl (s : State δ ω) : Mute s s := of_eq rfl [] rfl (by simp)

theorem trans (hst : Mute s t) (htu : Mute t u) : Mute s u where
  voices k := (htu.voices k).trans (hst.voices k)
  entries := by
    obtain ⟨es, hes, hm⟩ := hst.entries
    obtain ⟨es', hes', hm'⟩ := htu.entries
    refine ⟨es' ++ es, by rw [hes', hes, List.append_assoc], fun e he => ?_⟩
    rcases List.mem_append.mp he with he | he
    · exact hm' e he
    · exact hm e he

theorem response (hst : Mute s t) (n : Nat) : t.shared.journal.response n = s.shared.journal.response n := by
  obtain ⟨es, hes, hm⟩ := hst.entries
  rw [hes, Journal.response_append_of_mute es hm]

theorem asked {serial : Option Nat} (hc : ¬c.responds) : Mute s (h.asked serial c s) :=
  of_eq rfl [.called serial c _] rfl fun e he => by
    obtain rfl := List.mem_singleton.mp he
    cases serial <;> trivial

theorem changed {f : Registration → Registration} (hf : ∀ r, (f r).voice = r.voice) : Mute s (changed s k f) where
  voices := Arena.map_get?_modify hf _ _
  entries := ⟨[], rfl, by simp⟩

/-- What is said on behalf of none is said of no response. -/
theorem aside (hst : Spoken none s t) : Mute s t where
  voices k := by rw [hst.others k nofun]
  entries := by
    obtain ⟨es, hes, hm⟩ := hst.entries
    exact ⟨es, hes, fun e he => .of_minor (hm e he).2⟩

/-- Goes on from a state to which no response has gone on. -/
theorem andThen {α : Type} {a : Action δ ω α} (hst : Mute s t) (ha : a.Leaves (Mute t) t) : a.Leaves (Mute s) t :=
  ha.mono fun _ => hst.trans

theorem log (notice : Log.Notice) (req : Option ReqId) : (h.log notice req).Leaves (Mute s) s :=
  (Spoken.log notice req).mono fun _ => aside

/-- A call that is not made for a response, and what follows it. -/
theorem call_bind {β : Type} {serial : Option Nat} {f : c.Reply δ ω → Action δ ω β} (hst : Mute s t)
    (hc : ¬c.responds) (hf : ∀ x u, Mute s u → (f x).Leaves (Mute s) u) :
    (h.call serial c >>= f).Leaves (Mute s) t :=
  .bind (h.leaves_call.mpr (hst.trans (asked hc))) fun x u _ hu => hf x u hu

/-! ### Reading -/

theorem method : (h.method k).Leaves (Mute s) s :=
  leaves_registration (refl s) fun _ _ => call_bind (refl s) nofun fun _ _ hu => .pure hu

theorem uri : (h.uri k).Leaves (Mute s) s := by
  refine leaves_registration (refl s) fun _ _ => ?_
  split
  · exact .pure (refl s)
  · exact call_bind (refl s) nofun fun _ _ hu =>
      .bind_of_ok (exec_modifyRegistration _) (.pure (hu.trans (changed fun _ => rfl)))

theorem args : (h.args k).Leaves (Mute s) s :=
  leaves_registration (refl s) fun _ _ => call_bind (refl s) nofun fun _ _ hu => .pure hu

theorem headers : (h.headers k).Leaves (Mute s) s := by
  refine leaves_registration (refl s) fun _ _ => ?_
  split
  · exact .pure (refl s)
  · exact call_bind (refl s) nofun fun _ _ hu =>
      .bind_of_ok (exec_modifyRegistration _) (.pure (hu.trans (changed fun _ => rfl)))

theorem readBody : (h.readBody r).Leaves (Mute s) s := by
  refine call_bind (refl s) nofun fun _ t ht => ?_
  split
  · exact (ht.andThen (log _ _)).bind fun _ _ _ hu => .pure hu
  · exact call_bind ht nofun fun _ _ hu => .pure hu

theorem body : (h.body k).Leaves (Mute s) s := by
  refine leaves_registration (refl s) fun _ _ => ?_
  split
  · exact .pure (refl s)
  · exact readBody.bind fun _ _ _ hu =>
      .bind_of_ok (exec_modifyRegistration _) (.pure (hu.trans (changed fun _ => rfl)))

theorem answer {c : RequestCall} (hc : c.reads) : (h.answer k c).Leaves (Mute s) s := by
  cases c with
  | id | phase | isAnchor | resumer => exact leaves_registration (refl s) fun _ _ => .pure (refl s)
  | method => exact method
  | uri => exact uri
  | args => exact args
  | headers => exact headers
  | header name => exact headers.bind fun _ _ _ hu => .pure hu
  | body => exact body
  | log level text => exact leaves_registration (refl s) fun _ _ => log _ _
  | _ => cases hc

end Mute

/-! ### Going on with a response -/

namespace Response

/-- What the engine has heard of the response to an open request, by its flags: whether the header section
    has been handed over, and whether the last chunk has. -/
inductive SoFar (h : Host δ ω) (req : ReqId) : (sent ended : Bool) → Response → Prop
  | heads {w : Response} : Heads req w → SoFar h req false false w
  | streaming {heads pieces : Response} {u : Upshot} : Heads req heads → Pieces req pieces →
    SoFar h req true false (heads ++ (.sendHeader req, u) :: pieces)
  | ended {sent : Bool} {heads body : Response} : Heads req heads →
    (Streamed req body ∨ Whole req body ∨ ¬h.Calm ∧ Broken req body) → SoFar h req sent true (heads ++ body)

namespace SoFar

theorem heads_of (hw : SoFar h req false false w) : Heads req w := by
  cases hw
  assumption

theorem head (hw : SoFar h req false false w) (u : Upshot)
    (hc : (∃ code, c = .setStatus req code) ∨ ∃ name value, c = .addHeader req name value) :
    SoFar h req false false (w ++ [(c, u)]) :=
  .heads fun x hx => by
    rcases List.mem_append.mp hx with hx | hx
    · exact hw.heads_of x hx
    · obtain rfl := List.mem_singleton.mp hx
      exact hc

theorem sendHeader (hw : SoFar h req false false w) (u : Upshot) :
    SoFar h req true false (w ++ [(.sendHeader req, u)]) :=
  .streaming hw.heads_of (by simp [Pieces])

theorem piece (hw : SoFar h req true false w) {data : Bytes} (hd : data ≠ []) (flush : Bool) (u : Upshot) :
    SoFar h req true false (w ++ [(.output req ⟨data, flush, false⟩, u)]) := by
  cases hw with
  | @streaming heads pieces v hh hp =>
    rw [List.append_assoc, List.cons_append]
    refine .streaming hh fun x hx => ?_
    rcases List.mem_append.mp hx with hx | hx
    · exact hp x hx
    · obtain rfl := List.mem_singleton.mp hx
      exact ⟨data, flush, hd, rfl⟩

theorem last (hw : SoFar h req true false w) (data : Bytes) (u : Upshot) :
    SoFar h req true true (w ++ [(.output req ⟨data, false, true⟩, u)]) := by
  cases hw with
  | streaming hh hp =>
    rw [List.append_assoc, List.cons_append]
    exact .ended hh (.inl (.closed hp))

/-- At whatever point of a response the engine is told of the end, or is not. -/
theorem words {tail : Response} (hw : SoFar h req sent ended w) (ht : Close req tail) :
    Proper req (w ++ tail) ∨ ¬h.Calm ∧ CutShort req (w ++ tail) := by
  cases hw with
  | heads hh => exact .inl ⟨w, [], tail, by simp, hh, .inl rfl, ht⟩
  | streaming hh hp => exact .inl ⟨_, _, tail, rfl, hh, .inr (.inl (.going hp)), ht⟩
  | ended hh hb =>
    rcases hb with hb | hb | ⟨hc, hb⟩
    · exact .inl ⟨_, _, tail, rfl, hh, .inr (.inl hb), ht⟩
    · exact .inl ⟨_, _, tail, rfl, hh, .inr (.inr hb), ht⟩
    · exact .inr ⟨hc, _, _, tail, rfl, hh, hb, ht⟩

end SoFar
end Response
open Response

/-- The state in which the header section counts as handed over. -/
def Host.headed (s : State δ ω) (k : Nat) : State δ ω := changed s k fun r => { r with headersSent := true }

/-- The state in which the last chunk counts as handed over. -/
def Host.concluded (s : State δ ω) (k : Nat) : State δ ω := changed s k fun r => { r with ended := true }

/-- The flags of a registration, and the calls of its response so far. -/
structure Voiced (k : Nat) (r : Registration) (sent ended : Bool) (w : Response) (t : State δ ω) : Prop where
  voice : (t.worker.requests.get? k).map Registration.voice = some (r.id, r.serial, r.phase, sent, ended)
  response : t.shared.journal.response r.serial = w

/-- The flags of a registration tell how far its response has got. -/
def GoesOn (h : Host δ ω) (k : Nat) (r : Registration) (t : State δ ω) : Prop :=
  ∃ sent ended w, Voiced k r sent ended w t ∧ SoFar h r.id sent ended w

namespace Voiced

theorem of_get (hr : s.worker.requests.get? k = some r) :
    Voiced k r r.headersSent r.ended (s.shared.journal.response r.serial) s :=
  ⟨by rw [hr]; rfl, rfl⟩

theorem get (hv : Voiced k r sent ended w t) : ∃ r', t.worker.requests.get? k = some r' ∧ r'.id = r.id ∧
    r'.serial = r.serial ∧ r'.phase = r.phase ∧ r'.headersSent = sent ∧ r'.ended = ended := by
  obtain ⟨r', hr', hvoice⟩ := Option.map_eq_some_iff.mp hv.voice
  simp only [Registration.voice, Prod.mk.injEq] at hvoice
  exact ⟨r', hr', hvoice⟩

theorem mute (hv : Voiced k r sent ended w s) (hst : Mute s t) : Voiced k r sent ended w t :=
  ⟨(hst.voices k).trans hv.voice, (hst.response _).trans hv.response⟩

theorem asked {x : Except String (c.Reply δ ω)} (hv : Voiced k r sent ended w t) (hc : c.responds)
    (hx : (h.engine c t.shared.world).1 = x) :
    Voiced k r sent ended (w ++ [(c, c.upshot x)]) (h.asked (some r.serial) c t) where
  voice := hv.voice
  response := (Journal.response_called hc _ _ _).trans (by rw [hv.response, hx])

theorem of_append {a b : Response} (hv : Voiced k r sent ended (w ++ a ++ b) t) :
    Voiced k r sent ended (w ++ (a ++ b)) t := List.append_assoc w a b ▸ hv

theorem changed {f : Registration → Registration} {sent' ended' : Bool} (hv : Voiced k r sent ended w t)
    (hf : ∀ r', r'.voice = (r.id, r.serial, r.phase, sent, ended) →
      (f r').voice = (r.id, r.serial, r.phase, sent', ended')) : Voiced k r sent' ended' w (changed t k f) where
  voice := by
    obtain ⟨r', hr', hvoice⟩ := Option.map_eq_some_iff.mp hv.voice
    show ((t.worker.requests.modify k f).get? k).map _ = _
    rw [Arena.get?_modify, if_pos rfl, hr']
    exact congrArg some (hf r' hvoice)
  response := hv.response

theorem headed (hv : Voiced k r sent ended w t) : Voiced k r true ended w (Host.headed t k) :=
  hv.changed fun r' hvoice => by
    simp only [Registration.voice, Prod.mk.injEq] at hvoice ⊢
    simp [hvoice]

theorem concluded (hv : Voiced k r sent ended w t) : Voiced k r sent true w (Host.concluded t k) :=
  hv.changed fun r' hvoice => by
    simp only [Registration.voice, Prod.mk.injEq] at hvoice ⊢
    simp [hvoice]

end Voiced

/-! ### Writing -/

namespace Registration

theorem ended_of_checkWritable (hr : r.checkWritable = .ok ()) : r.ended = false := by
  have hlive : r.checkLive = .ok () := if_neg (r.open_of_checkWritable hr)
  unfold checkWritable at hr
  rw [hlive] at hr
  cases he : r.ended with
  | false => rfl
  | true => simp [he, bind, Except.bind] at hr

theorem flags_of_checkHeaderOpen (hr : r.checkHeaderOpen = .ok ()) : r.headersSent = false ∧ r.ended = false := by
  unfold checkHeaderOpen at hr
  cases hw : r.checkWritable with
  | error e => simp [hw, bind, Except.bind] at hr
  | ok _ =>
    refine ⟨?_, ended_of_checkWritable hw⟩
    cases hh : r.headersSent with
    | false => rfl
    | true => simp [hw, hh, bind, Except.bind] at hr

end Registration

namespace GoesOn

theorem of_soFar (hr : s.worker.requests.get? k = some r)
    (hw : SoFar h r.id r.headersSent r.ended (s.shared.journal.response r.serial)) : GoesOn h k r s :=
  ⟨_, _, _, .of_get hr, hw⟩

section
variable (hr : s.worker.requests.get? k = some r)
  (hw : SoFar h r.id r.headersSent r.ended (s.shared.journal.response r.serial))
include hr hw

/-- The status is set or a header is added while the header section is open. -/
theorem head (ho : r.checkHeaderOpen = .ok ())
    (hc : (∃ code, c = .setStatus r.id code) ∨ ∃ name value, c = .addHeader r.id name value) :
    (h.call (some r.serial) c).Leaves (GoesOn h k r) s := by
  obtain ⟨hsent, hended⟩ := r.flags_of_checkHeaderOpen ho
  have hv : Voiced k r r.headersSent r.ended _ s := .of_get hr
  rw [hsent, hended] at hv hw
  have hresponds : c.responds := by rcases hc with ⟨code, rfl⟩ | ⟨name, value, rfl⟩ <;> rfl
  exact h.leaves_call.mpr ⟨_, _, _, hv.asked hresponds rfl, hw.head _ hc⟩

theorem setStatus (code : UInt16) : (h.setStatus k code).Leaves (GoesOn h k r) s := by
  refine .bind_of_ok (exec_registration_of_some hr) ?_
  split
  · exact .pure (of_soFar hr hw)
  · next ho => exact (head hr hw ho (.inl ⟨code, rfl⟩)).bind fun _ _ _ ht => .pure ht

theorem addHeader (name value : String) : (h.addHeader k name value).Leaves (GoesOn h k r) s := by
  refine .bind_of_ok (exec_registration_of_some hr) ?_
  split
  · exact .pure (of_soFar hr hw)
  · next ho => exact (head hr hw ho (.inr ⟨name, value, rfl⟩)).bind fun _ _ _ ht => .pure ht

end

/-- The header section goes out; the answer tells whether the engine has taken it. -/
theorem ensureHeaderSent {x : Except Stop (Except Error Unit)} (hv : Voiced k r false ended w t)
    (he : (h.ensureHeaderSent k).exec t = (x, u)) : ∃ v,
      Voiced k r true ended (w ++ [(.sendHeader r.id, v)]) u ∧ (x = .ok (.ok ()) ↔ v = .succeeded) := by
  obtain ⟨r', hr', hid, hserial, -, hsent, -⟩ := hv.get
  unfold Host.ensureHeaderSent at he
  rw [exec_bind_of_ok (exec_registration_of_some hr'), if_neg (by simp [hsent]),
    exec_bind_of_ok (exec_modifyRegistration _), hid, hserial] at he
  have ht := hv.headed
  rcases hx : (h.engine (.sendHeader r.id) (Host.headed t k).shared.world).1 with message | (cause | _)
  · cases (exec_bind_of_error (h.exec_call_of_error hx)).symm.trans he
    exact ⟨_, ht.asked rfl hx, iff_of_false nofun nofun⟩
  · cases (exec_bind_of_ok (h.exec_call_of_ok hx)).symm.trans he
    exact ⟨_, ht.asked rfl hx, iff_of_false nofun nofun⟩
  · cases (exec_bind_of_ok (h.exec_call_of_ok hx)).symm.trans he
    exact ⟨_, ht.asked rfl hx, iff_of_true rfl rfl⟩

theorem exec_ensureHeaderSent_of_sent (hr : s.worker.requests.get? k = some r) (hsent : r.headersSent = true) :
    (h.ensureHeaderSent k).exec s = (.ok (.ok ()), s) := by
  unfold Host.ensureHeaderSent
  rw [exec_bind_of_ok (exec_registration_of_some hr), if_pos hsent]
  rfl

theorem piece (hv : Voiced k r true false w t) (hw : SoFar h r.id true false w) {data : Bytes} (hd : data ≠ [])
    (flush : Bool) : Action.Leaves (do
      return (← h.call (some r.serial) (.output r.id ⟨data, flush, false⟩)).mapError (.engine "output") :
        Action δ ω (Except Error Unit)) (GoesOn h k r) t :=
  Leaves.bind (h.leaves_call.mpr ⟨_, _, _, hv.asked rfl rfl, hw.piece hd flush _⟩) fun _ _ _ hu => .pure hu

theorem sendShared (hr : s.worker.requests.get? k = some r)
    (hw : SoFar h r.id r.headersSent r.ended (s.shared.journal.response r.serial)) (data : Bytes) (flush : Bool) :
    (h.sendShared k data flush).Leaves (GoesOn h k r) s := by
  refine .bind_of_ok (exec_registration_of_some hr) ?_
  split
  · exact .pure (of_soFar hr hw)
  next hc =>
    split
    · exact .pure (of_soFar hr hw)
    next hd =>
      have hdata : data ≠ [] := fun he => hd (he ▸ rfl)
      have hv : Voiced k r r.headersSent r.ended _ s := .of_get hr
      rw [r.ended_of_checkWritable hc] at hv hw
      cases hsent : r.headersSent with
      | true =>
        rw [hsent] at hv hw
        exact .bind_of_ok (exec_ensureHeaderSent_of_sent hr hsent) (piece hv hw hdata flush)
      | false =>
        rw [hsent] at hv hw
        rcases he : (h.ensureHeaderSent k).exec s with ⟨x, u⟩
        obtain ⟨v, hu, -⟩ := ensureHeaderSent hv he
        -- The header section counts as handed over even if the engine has refused it.
        have hw' := hw.sendHeader v
        refine Leaves.bind (.of_exec he ⟨_, _, _, hu, hw'⟩) fun y t hy ht => ?_
        cases he.symm.trans hy
        split
        · exact .pure ht
        · exact piece hu hw' hdata flush

theorem send (hr : s.worker.requests.get? k = some r)
    (hw : SoFar h r.id r.headersSent r.ended (s.shared.journal.response r.serial)) (data : Bytes) (flush : Bool) :
    (h.send k data flush).Leaves (GoesOn h k r) s := by
  unfold Host.send
  split
  · refine .bind_of_ok (exec_registration_of_some hr) ?_
    split <;> exact .pure (of_soFar hr hw)
  · exact sendShared hr hw data flush

theorem outputLast {data : Bytes} (hs : ∀ v, SoFar h r.id true true (w ++ [(.output r.id ⟨data, false, true⟩, v)]))
    (hv : Voiced k r true true w t) : (h.outputLast r data).Leaves (GoesOn h k r) t :=
  Leaves.bind (h.leaves_call.mpr ⟨_, _, _, hv.asked rfl rfl, hs _⟩) fun _ _ _ hu => .pure hu

/-- What the engine hears before the header section of a body that goes out as a whole. -/
inductive Announced (req : ReqId) : Bytes → Response → Prop
  | empty {u v : Upshot} : Announced req [] [(.setContentLength req 0, u), (.setHeaderOnly req, v)]
  | full {data : Bytes} {u : Upshot} : data ≠ [] → Announced req data [(.setContentLength req data.length, u)]

/-- The length is announced, unless the engine panics. -/
theorem announce {data : Bytes} {x : Except Stop Unit} (hv : Voiced k r false true w t)
    (he : (h.announce r data).exec t = (x, u)) : ∃ as, Voiced k r false true (w ++ as) u ∧
      ((∃ e, x = .error e) ∧ ¬h.Calm ∧ Broken r.id as ∨ x = .ok () ∧ Announced r.id data as) := by
  have panics : ∀ {c : Call} {world : ω} {message : String}, (h.engine c world).1 = .error message → ¬h.Calm :=
    fun hx hc => by
      obtain ⟨y, hy⟩ := hc _ _
      cases hx.symm.trans hy
  unfold Host.announce at he
  rcases hx : (h.engine (.setContentLength r.id data.length) t.shared.world).1 with message | ⟨⟩
  · cases (exec_bind_of_error (h.exec_call_of_error hx)).symm.trans he
    exact ⟨_, hv.asked rfl hx, .inl ⟨⟨_, rfl⟩, panics hx, .length⟩⟩
  · have hannounced := hv.asked rfl hx
    rw [exec_bind_of_ok (h.exec_call_of_ok hx)] at he
    split at he
    · next hd =>
      obtain rfl : data = [] := List.isEmpty_iff.mp hd
      rcases hy : (h.engine (.setHeaderOnly r.id)
        (h.asked (some r.serial) (.setContentLength r.id 0) t).shared.world).1 with message | ⟨⟩
      · cases (h.exec_call_of_error hy).symm.trans he
        refine ⟨_, (hannounced.asked rfl hy).of_append, .inl ⟨⟨_, rfl⟩, panics hy, .bodiless⟩⟩
      · cases (h.exec_call_of_ok hy).symm.trans he
        exact ⟨_, (hannounced.asked rfl hy).of_append, .inr ⟨rfl, .empty⟩⟩
    · next hd =>
      cases he
      exact ⟨_, hannounced, .inr ⟨rfl, .full fun hnil => hd (hnil ▸ rfl)⟩⟩

/-- What the engine hears of a whole body before and with its header section. -/
theorem soFar_of_announced {data : Bytes} {as : Response} {v : Upshot} (hw : Heads r.id w)
    (ha : Announced r.id data as) (hv : data = [] ∨ v ≠ .succeeded) :
    SoFar h r.id true true (w ++ as ++ [(.sendHeader r.id, v)]) := by
  rw [List.append_assoc]
  refine .ended hw (.inr (.inl ?_))
  cases ha with
  | empty => exact .empty
  | full hd => exact .unsent (List.length_pos_iff.mpr hd) (hv.resolve_left hd)

/-- What the engine hears of a whole body that goes out. -/
theorem soFar_of_whole {data : Bytes} {as : Response} (hw : Heads r.id w) (ha : Announced r.id data as)
    (hd : data ≠ []) (v : Upshot) :
    SoFar h r.id true true
      (w ++ as ++ [(.sendHeader r.id, .succeeded)] ++ [(.output r.id ⟨data, false, true⟩, v)]) := by
  rw [List.append_assoc, List.append_assoc]
  refine .ended hw (.inr (.inl ?_))
  cases ha with
  | empty => exact absurd rfl hd
  | full => exact .full hd

/-- The header section goes out once the length has been announced, and the body after it, unless that is
    empty or the engine has not taken the header section. -/
theorem sendWhole {data : Bytes} {as : Response} (hv : Voiced k r false true (w ++ as) t) (hw : Heads r.id w)
    (ha : Announced r.id data as) : Action.Leaves (do
      match ← h.ensureHeaderSent k with
      | .error e => return .error e
      | .ok () => if data.isEmpty then return .ok .ok else h.outputLast r data) (GoesOn h k r) t := by
  rcases he : (h.ensureHeaderSent k).exec t with ⟨x, u⟩
  obtain ⟨v, hu, hx⟩ := ensureHeaderSent hv he
  by_cases hv : v = .succeeded
  · subst hv
    obtain rfl := hx.mpr rfl
    refine .bind_of_ok he ?_
    dsimp only
    split
    · next hd => exact .pure ⟨_, _, _, hu, soFar_of_announced hw ha (.inl (List.isEmpty_iff.mp hd))⟩
    · next hd => exact outputLast (soFar_of_whole hw ha fun hnil => hd (hnil ▸ rfl)) hu
  · refine Leaves.bind (.of_exec he ⟨_, _, _, hu, soFar_of_announced hw ha (.inr hv)⟩) fun y _ hy ht => ?_
    cases y with
    | error e => exact .pure ht
    | ok _ =>
      cases he.symm.trans hy
      exact absurd (hx.mp rfl) hv

theorem conclude (hr : s.worker.requests.get? k = some r)
    (hw : SoFar h r.id r.headersSent r.ended (s.shared.journal.response r.serial)) (data : Bytes) :
    (h.conclude k data).Leaves (GoesOn h k r) s := by
  refine .bind_of_ok (exec_registration_of_some hr) ?_
  split
  · exact .pure (of_soFar hr hw)
  next hc =>
    -- The end is noted before the engine hears of it, and stays noted wherever the engine stops.
    have hv : Voiced k r r.headersSent true _ (Host.concluded s k) := (Voiced.of_get hr).concluded
    rw [r.ended_of_checkWritable hc] at hw
    refine .bind_of_ok (exec_modifyRegistration _) ?_
    cases hsent : r.headersSent with
    | true =>
      rw [hsent] at hv hw
      exact outputLast (fun v => hw.last data v) hv
    | false =>
      rw [hsent] at hv hw
      rcases he : (h.announce r data).exec (Host.concluded s k) with ⟨x, u⟩
      obtain ⟨as, hu, ⟨⟨e, rfl⟩, hcalm, hbroken⟩ | ⟨rfl, has⟩⟩ := announce hv he
      · exact .of_exec (exec_bind_of_error he) ⟨_, _, _, hu, .ended hw.heads_of (.inr (.inr ⟨hcalm, hbroken⟩))⟩
      · exact .bind_of_ok he (sendWhole hu hw.heads_of has)

/-- A call on an open request goes on with its response from where it is. -/
theorem answer (hr : s.worker.requests.get? k = some r)
    (hw : SoFar h r.id r.headersSent r.ended (s.shared.journal.response r.serial)) (c : RequestCall) :
    (h.answer k c).Leaves (GoesOn h k r) s := by
  have read : c.reads → (h.answer k c).Leaves (GoesOn h k r) s := fun hc =>
    (Mute.answer hc).mono fun _ hst => ⟨_, _, _, (Voiced.of_get hr).mute hst, hw⟩
  cases c with
  | setStatus code => exact setStatus hr hw code
  | addHeader name value => exact addHeader hr hw name value
  | send data flush => exact send hr hw data flush
  | sendShared data flush => exact sendShared hr hw data flush
  | conclude data | concludeShared data => exact conclude hr hw data
  | _ => exact read rfl

end GoesOn
end EngineBridge
