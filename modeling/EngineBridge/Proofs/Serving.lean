import EngineBridge.Proofs.Served

/-! What application code reads of a request and writes for it, call by call: the engine is called on
    behalf of the registration that the code runs against, and only flags and data of that are kept. -/

namespace EngineBridge
open EngineBridge.Action Registry
variable {δ ω : Type} {s t : State δ ω} {slot : Option Nat} {k : Nat} {r : Registration}

/-! ### The engine and the log -/

namespace Host
variable (h : Host δ ω)

/-- The state after a call of the engine. -/
def asked (serial : Option Nat) (c : Call) (s : State δ ω) : State δ ω :=
  { s with
    shared := { s.shared with world := (h.engine c s.shared.world).2 }.record
      (.called serial c (c.upshot (h.engine c s.shared.world).1)) }

theorem exec_call (serial : Option Nat) (c : Call) :
    (h.call serial c).exec s = ((h.engine c s.shared.world).1.mapError .panic, h.asked serial c s) := by
  unfold call asked
  rw [exec_bind_of_ok (exec_shared _)]
  rcases h.engine c s.shared.world with ⟨_ | _, world⟩ <;> rfl

theorem exec_call_of_ok {serial : Option Nat} {c : Call} {x : c.Reply δ ω}
    (he : (h.engine c s.shared.world).1 = .ok x) :
    (h.call serial c).exec s = (.ok x, h.asked serial c s) := by
  rw [exec_call, he]
  rfl

theorem exec_call_of_error {serial : Option Nat} {c : Call} {message : String}
    (he : (h.engine c s.shared.world).1 = .error message) :
    (h.call serial c).exec s = (.error (.panic message), h.asked serial c s) := by
  rw [exec_call, he]
  rfl

theorem leaves_call {P : State δ ω → Prop} {serial : Option Nat} {c : Call} :
    (h.call serial c).Leaves P s ↔ P (h.asked serial c s) := by
  rw [Leaves, exec_call]

end Host

namespace Spoken
variable {h : Host δ ω}

/-- A call on behalf of the registration that is served. -/
theorem asked {c : Call} (hr : s.worker.requests.get? k = some r) (hc : c.req? = some r.id)
    (ho : c.asks ∨ c.writes ∧ r.phase ≠ .finalized) : Spoken (some k) s (h.asked (some r.serial) c s) :=
  of_shared [_] rfl fun e he => by
    obtain rfl := List.mem_singleton.mp he
    exact ⟨trivial, r, hr, rfl, hc, ho⟩

theorem asked_none {c : Call} (hc : c.asks) : Spoken slot s (h.asked none c s) :=
  of_shared [_] rfl fun e he => by
    obtain rfl := List.mem_singleton.mp he
    exact ⟨trivial, hc⟩

theorem logged (notice : Log.Notice) (req : Option ReqId) :
    Spoken slot s { s with shared := s.shared.record (.logged notice req) } :=
  of_shared [_] rfl fun e he => by
    obtain rfl := List.mem_singleton.mp he
    exact ⟨trivial, trivial⟩

theorem world (w : ω) : Spoken slot s { s with shared := { s.shared with world := w } } :=
  of_shared [] rfl (by simp)

/-- A change of the registration that is served which leaves its course as it is. -/
theorem changed {f : Registration → Registration} (hf : ∀ r, (f r).course = r.course) :
    Spoken (some k) s (changed s k f) where
  worker := rfl
  shared := rfl
  others k' hk := by
    show (s.worker.requests.modify k f).get? k' = _
    rw [Arena.get?_modify, if_neg fun e => hk (congrArg some e.symm)]
  course := Arena.map_get?_modify hf _ _
  entries := ⟨[], rfl, by simp⟩

theorem callLogger (logger : Logger ω) (line : Log.Record) :
    (Host.callLogger logger line : Action δ ω Unit).Leaves (Spoken slot s) s := by
  unfold Host.callLogger
  refine Leaves.bind (world _) fun x t _ ht => ?_
  split
  · exact .pure ht
  · exact .raise ht

theorem log (notice : Log.Notice) (req : Option ReqId) : (h.log notice req).Leaves (Spoken slot s) s := by
  unfold Host.log
  refine .bind_of_ok exec_worker ?_
  split
  · refine .bind_of_ok (exec_record _) ?_
    have ht : Spoken slot s _ := logged notice req
    dsimp only
    split
    · exact ht.andThen (callLogger _ _)
    · exact ht.andThen (h.leaves_call.mpr (asked_none rfl))
  · exact .pure (refl s)

/-- A call on behalf of the registration that is served, and what follows it. -/
theorem call_bind {β : Type} {c : Call} {f : c.Reply δ ω → Action δ ω β} (hst : Spoken (some k) s t)
    (hr : t.worker.requests.get? k = some r) (hc : c.req? = some r.id)
    (ho : c.asks ∨ c.writes ∧ r.phase ≠ .finalized)
    (hf : ∀ x u, Spoken (some k) s u → (f x).Leaves (Spoken (some k) s) u) :
    (h.call (some r.serial) c >>= f).Leaves (Spoken (some k) s) t :=
  .bind (h.leaves_call.mpr (hst.trans (asked hr hc ho))) fun x u _ hu => hf x u hu

/-! ### Reading -/

theorem method : (h.method k).Leaves (Spoken (some k) s) s :=
  leaves_registration (refl s) fun _ hr => call_bind (refl s) hr rfl (.inl rfl) fun _ _ hu => .pure hu

theorem uri : (h.uri k).Leaves (Spoken (some k) s) s := by
  refine leaves_registration (refl s) fun _ hr => ?_
  split
  · exact .pure (refl s)
  · exact call_bind (refl s) hr rfl (.inl rfl) fun x u hu =>
      .bind_of_ok (exec_modifyRegistration _) (.pure (hu.trans (changed fun _ => rfl)))

theorem args : (h.args k).Leaves (Spoken (some k) s) s :=
  leaves_registration (refl s) fun _ hr => call_bind (refl s) hr rfl (.inl rfl) fun _ _ hu => .pure hu

theorem headers : (h.headers k).Leaves (Spoken (some k) s) s := by
  refine leaves_registration (refl s) fun _ hr => ?_
  split
  · exact .pure (refl s)
  · exact call_bind (refl s) hr rfl (.inl rfl) fun x u hu =>
      .bind_of_ok (exec_modifyRegistration _) (.pure (hu.trans (changed fun _ => rfl)))

theorem header (name : String) : (h.header k name).Leaves (Spoken (some k) s) s :=
  headers.bind fun _ _ _ hu => .pure hu

theorem readBody (hr : s.worker.requests.get? k = some r) : (h.readBody r).Leaves (Spoken (some k) s) s := by
  refine call_bind (refl s) hr rfl (.inl rfl) fun x t ht => ?_
  split
  · exact (ht.andThen (log _ _)).bind fun _ _ _ hu => .pure hu
  · obtain ⟨r', hr', hrr'⟩ := ht.get? hr
    obtain ⟨hid, hserial, -⟩ := Registration.course_inj hrr'
    rw [← hid, ← hserial]
    exact call_bind ht hr' rfl (.inl rfl) fun _ _ hu => .pure hu

theorem body : (h.body k).Leaves (Spoken (some k) s) s := by
  refine leaves_registration (refl s) fun r hr => ?_
  split
  · exact .pure (refl s)
  · exact (readBody hr).bind fun x u _ hu =>
      .bind_of_ok (exec_modifyRegistration _) (.pure (hu.trans (changed fun _ => rfl)))

end Spoken

/-! ### Writing -/

namespace Registration

theorem checkLive_of_finalized (hr : r.phase = .finalized) : r.checkLive = .error (.finalized r.id) := if_pos hr

theorem open_of_checkLive (hr : r.checkLive = .ok ()) : r.phase ≠ .finalized := fun hf => by
  rw [checkLive_of_finalized hf] at hr
  cases hr

theorem checkWritable_of_finalized (hr : r.phase = .finalized) :
    r.checkWritable = .error (.finalized r.id) := by
  unfold checkWritable
  rw [checkLive_of_finalized hr]
  rfl

theorem open_of_checkWritable (hr : r.checkWritable = .ok ()) : r.phase ≠ .finalized := fun hf => by
  rw [checkWritable_of_finalized hf] at hr
  cases hr

theorem checkHeaderOpen_of_finalized (hr : r.phase = .finalized) :
    r.checkHeaderOpen = .error (.finalized r.id) := by
  unfold checkHeaderOpen
  rw [checkWritable_of_finalized hr]
  rfl

theorem open_of_checkHeaderOpen (hr : r.checkHeaderOpen = .ok ()) : r.phase ≠ .finalized := fun hf => by
  rw [checkHeaderOpen_of_finalized hf] at hr
  cases hr

end Registration

namespace Spoken
variable {h : Host δ ω}

/-- A call that writes for the registration that is served, made with what was known of it before. -/
theorem write_bind {β : Type} {c : Call} {f : c.Reply δ ω → Action δ ω β} (hst : Spoken (some k) s t)
    (hr : s.worker.requests.get? k = some r) (hc : c.req? = some r.id) (hw : c.writes)
    (ho : r.phase ≠ .finalized) (hf : ∀ x u, Spoken (some k) s u → (f x).Leaves (Spoken (some k) s) u) :
    (h.call (some r.serial) c >>= f).Leaves (Spoken (some k) s) t := by
  obtain ⟨r', hr', hrr'⟩ := hst.get? hr
  obtain ⟨hid, hserial, hphase, -⟩ := Registration.course_inj hrr'
  rw [← hserial]
  exact call_bind hst hr' (hid ▸ hc) (.inr ⟨hw, hphase ▸ ho⟩) hf

theorem setStatus (code : UInt16) : (h.setStatus k code).Leaves (Spoken (some k) s) s := by
  refine leaves_registration (refl s) fun r hr => ?_
  split
  · exact .pure (refl s)
  · next hc => exact write_bind (refl s) hr rfl rfl (r.open_of_checkHeaderOpen hc) fun _ _ hu => .pure hu

theorem addHeader (name value : String) : (h.addHeader k name value).Leaves (Spoken (some k) s) s := by
  refine leaves_registration (refl s) fun r hr => ?_
  split
  · exact .pure (refl s)
  · next hc => exact write_bind (refl s) hr rfl rfl (r.open_of_checkHeaderOpen hc) fun _ _ hu => .pure hu

theorem ensureHeaderSent (hr : s.worker.requests.get? k = some r) (ho : r.phase ≠ .finalized) :
    (h.ensureHeaderSent k).Leaves (Spoken (some k) s) s := by
  refine .bind_of_ok (exec_registration_of_some hr) ?_
  split
  · exact .pure (refl s)
  · exact .bind_of_ok (exec_modifyRegistration _) <|
      write_bind (changed fun _ => rfl) hr rfl rfl ho fun _ _ hu => .pure hu

theorem sendShared (data : Bytes) (flush : Bool) :
    (h.sendShared k data flush).Leaves (Spoken (some k) s) s := by
  refine leaves_registration (refl s) fun r hr => ?_
  split
  · exact .pure (refl s)
  · next hc =>
    have ho := r.open_of_checkWritable hc
    split
    · exact .pure (refl s)
    · refine (ensureHeaderSent hr ho).bind fun x t _ ht => ?_
      split
      · exact .pure ht
      · exact write_bind ht hr rfl rfl ho fun _ _ hu => .pure hu

theorem send (data : Bytes) (flush : Bool) : (h.send k data flush).Leaves (Spoken (some k) s) s := by
  unfold Host.send
  split
  · refine leaves_registration (refl s) fun r _ => ?_
    split <;> exact .pure (refl s)
  · exact sendShared data flush

theorem outputLast (data : Bytes) (hst : Spoken (some k) s t) (hr : s.worker.requests.get? k = some r)
    (ho : r.phase ≠ .finalized) : (h.outputLast r data).Leaves (Spoken (some k) s) t :=
  write_bind hst hr rfl rfl ho fun _ _ hu => .pure hu

theorem announce (data : Bytes) (hst : Spoken (some k) s t) (hr : s.worker.requests.get? k = some r)
    (ho : r.phase ≠ .finalized) : (h.announce r data).Leaves (Spoken (some k) s) t := by
  refine write_bind hst hr rfl rfl ho fun _ u hu => ?_
  split
  · have := write_bind (h := h) (f := pure) hu hr (c := .setHeaderOnly r.id) rfl rfl ho fun _ _ hv => .pure hv
    rwa [bind_pure] at this
  · exact .pure hu

theorem conclude (data : Bytes) : (h.conclude k data).Leaves (Spoken (some k) s) s := by
  refine leaves_registration (refl s) fun r hr => ?_
  split
  · exact .pure (refl s)
  · next hc =>
    have ho := r.open_of_checkWritable hc
    have hst : Spoken (some k) s (Registry.changed s k fun r => { r with ended := true }) := changed fun _ => rfl
    refine .bind_of_ok (exec_modifyRegistration _) ?_
    split
    · exact outputLast data hst hr ho
    · refine (announce data hst hr ho).bind fun _ t _ ht => ?_
      obtain ⟨r', hr', hrr'⟩ := ht.get? hr
      obtain ⟨-, -, hphase, -⟩ := Registration.course_inj hrr'
      refine (ht.andThen (ensureHeaderSent hr' (hphase ▸ ho))).bind fun x u _ hu => ?_
      split
      · exact .pure hu
      · split
        · exact .pure hu
        · exact outputLast data hu hr ho

theorem answer (c : RequestCall) : (h.answer k c).Leaves (Spoken (some k) s) s := by
  cases c with
  | id | phase | isAnchor | resumer => exact leaves_registration (refl s) fun _ _ => .pure (refl s)
  | method => exact method
  | uri => exact uri
  | args => exact args
  | headers => exact headers
  | header name => exact header name
  | body => exact body
  | setStatus code => exact setStatus code
  | addHeader name value => exact addHeader name value
  | send data flush => exact send data flush
  | sendShared data flush => exact sendShared data flush
  | conclude data | concludeShared data => exact conclude data
  | log level text => exact leaves_registration (refl s) fun _ _ => log _ _

end Spoken
end EngineBridge
