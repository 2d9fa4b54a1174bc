import EngineBridge.Proofs.Ends
import EngineBridge.Proofs.Lifecycle

/-! What can panic while code runs against a request, where the engine does not: the code itself, and the
    logger. What the code asks for comes to its end, since the registration that it runs against stays where
    it is. -/

namespace EngineBridge
open EngineBridge.Action Registry
variable {δ ω α β : Type} {h : Host δ ω} {M N : String → Prop} {s t : State δ ω} {k : Nat} {r : Registration}

/-! ### Actions that keep the logger -/

namespace Action

/-- An action keeps the logger that is set, and unless that logger panics, the messages of its own panics are
    of some kind. -/
structure Raises (M : String → Prop) (a : Action δ ω α) (s : State δ ω) : Prop where
  keeps : a.Leaves (fun t => t.worker.logger = s.worker.logger) s
  only : ∀ {message t}, a.exec s = (.error (.panic message), t) → s.worker.LogsCalmly → M message

/-- An action keeps the logger that is set, and panics only if that logger does. -/
abbrev Sound (a : Action δ ω α) (s : State δ ω) : Prop := a.Raises (fun _ => False) s

end Action

namespace Action.Raises

theorem mono {a : Action δ ω α} (ha : a.Raises M s) (hMN : ∀ message, M message → N message) : a.Raises N s :=
  ⟨ha.keeps, fun he hl => hMN _ (ha.only he hl)⟩

theorem of_ok {a : Action δ ω α} {x : α} (he : a.exec s = (.ok x, t)) (hl : t.worker.logger = s.worker.logger) :
    a.Raises M s := by
  refine ⟨.of_exec he hl, fun he' => ?_⟩
  rw [he] at he'
  cases he'

theorem pure (x : α) : (pure x : Action δ ω α).Raises M s := of_ok rfl rfl

theorem bind {a : Action δ ω α} {f : α → Action δ ω β} (ha : a.Raises M s)
    (hf : ∀ x t, a.exec s = (.ok x, t) → (f x).Raises M t) : (a >>= f).Raises M s where
  keeps := ha.keeps.bind fun x t he ht => (hf x t he).keeps.mono fun _ => (·.trans ht)
  only {message v} he hl := by
    rw [exec_bind] at he
    rcases hr : a.exec s with ⟨e | x, t⟩ <;> rw [hr] at he
    · cases he
      exact ha.only hr hl
    · exact (hf x t hr).only he (hl.congr (ha.keeps.exec hr))

/-- An action whose answer is known, and what follows it. -/
theorem bind_of_ok {a : Action δ ω α} {f : α → Action δ ω β} {x : α} (he : a.exec s = (.ok x, t))
    (hl : t.worker.logger = s.worker.logger) (hf : (f x).Raises M t) : (a >>= f).Raises M s := by
  refine (of_ok he hl).bind ?_
  intro y u he'
  rw [he] at he'
  cases he'
  exact hf

theorem forM {f : β → Action δ ω PUnit} (hf : ∀ x t, (f x).Raises M t) : ∀ (l : List β) (s), (l.forM f).Raises M s
  | [], _ => pure _
  | x :: l, s => (hf x s).bind fun _ t _ => forM hf l t

/-- An action that comes to what another one comes to, from a state with the same logger. -/
theorem of_exec_eq {a b : Action δ ω α} (he : a.exec s = b.exec t) (hl : t.worker.logger = s.worker.logger)
    (hb : b.Raises M t) : a.Raises M s where
  keeps := by
    unfold Leaves
    rw [he]
    exact hb.keeps.trans hl
  only he' hs := hb.only (he ▸ he') (hs.congr hl)

theorem explain_bind {x : Except String (Except Fault α)} {f : Except String α → Action δ ω β}
    (hok : ∀ result, (f result).Raises M s)
    (herror : ∀ message, h.explained x = .error (.panic message) → M message) : (h.explain x >>= f).Raises M s := by
  cases hx : h.explained x with
  | ok result => exact of_exec_eq (Host.exec_explain_bind_of_ok hx) rfl (hok result)
  | error stop =>
    have he : (h.explain x >>= f).exec s = (.error stop, s) := Host.exec_explain_bind_of_error hx
    refine ⟨.of_exec he rfl, fun he' _ => ?_⟩
    cases he.symm.trans he'
    exact herror _ hx

/-- A guard holds whatever panics code comes to, but for that of the text of a fault. -/
theorem guarded_bind {a : Action δ ω (Except Fault α)} {f : Except String α → Action δ ω β} (hc : a.Contained)
    (hk : a.Leaves (fun t => t.worker.logger = s.worker.logger) s) (hok : ∀ result, (f result).Raises M (a.exec s).2)
    (hM : ∀ message, h.Stumbles a s message → M message) : (h.guarded a >>= f).Raises M s :=
  of_exec_eq (hc.exec_guarded_bind s) hk (explain_bind hok fun message hx => hM message (Host.stumbles_iff.mpr hx))

/-! ### The engine, the log and the registered requests -/

theorem call (hc : h.Calm) (serial : Option Nat) (c : Call) : (h.call serial c).Raises M s := by
  obtain ⟨x, hx⟩ := hc.exec_call (s := s) serial c
  exact of_ok hx rfl

theorem log (hc : h.Calm) (notice : Log.Notice) (req : Option ReqId) : (h.log notice req).Raises M s where
  keeps := (Spoken.log notice req : (h.log notice req).Leaves (Spoken none s) s).mono fun _ hst => hst.served.logger
  only he hl := by
    obtain ⟨u, hu, -⟩ := hc.exec_log hl notice req
    rw [hu] at he
    cases he

theorem registration_bind {f : Registration → Action δ ω α} (hr : s.worker.requests.get? k = some r)
    (hf : (f r).Raises M s) : (registration k >>= f).Raises M s :=
  bind_of_ok (exec_registration_of_some hr) rfl hf

/-! ### What code asks of its request -/

section
variable (hc : h.Calm) (hr : s.worker.requests.get? k = some r)
include hc hr

theorem uri : (h.uri k).Raises M s := by
  refine registration_bind hr ?_
  split
  · exact pure _
  · exact (call hc _ _).bind fun _ _ _ => bind_of_ok (exec_modifyRegistration _) rfl (pure _)

theorem headers : (h.headers k).Raises M s := by
  refine registration_bind hr ?_
  split
  · exact pure _
  · exact (call hc _ _).bind fun _ _ _ => bind_of_ok (exec_modifyRegistration _) rfl (pure _)

theorem body : (h.body k).Raises M s := by
  have read : (h.readBody r).Raises M s := by
    refine (call hc _ _).bind ?_
    intro buffers _ _
    split
    · exact (log hc _ _).bind fun _ _ _ => pure _
    · exact (call hc _ _).bind fun _ _ _ => pure _
  refine registration_bind hr ?_
  split
  · exact pure _
  · exact read.bind fun _ _ _ => bind_of_ok (exec_modifyRegistration _) rfl (pure _)

theorem setStatus (code : UInt16) : (h.setStatus k code).Raises M s := by
  refine registration_bind hr ?_
  split
  · exact pure _
  · exact (call hc _ _).bind fun _ _ _ => pure _

theorem addHeader (name value : String) : (h.addHeader k name value).Raises M s := by
  refine registration_bind hr ?_
  split
  · exact pure _
  · exact (call hc _ _).bind fun _ _ _ => pure _

theorem ensureHeaderSent : (h.ensureHeaderSent k).Raises M s := by
  refine registration_bind hr ?_
  split
  · exact pure _
  · exact bind_of_ok (exec_modifyRegistration _) rfl ((call hc _ _).bind fun _ _ _ => pure _)

theorem sendShared (data : Bytes) (flush : Bool) : (h.sendShared k data flush).Raises M s := by
  refine registration_bind hr ?_
  split
  · exact pure _
  · split
    · exact pure _
    · refine (ensureHeaderSent hc hr).bind ?_
      intro x _ _
      split
      · exact pure _
      · exact (call hc _ _).bind fun _ _ _ => pure _

theorem send (data : Bytes) (flush : Bool) : (h.send k data flush).Raises M s := by
  unfold Host.send
  split
  · refine registration_bind hr ?_
    split <;> exact pure _
  · exact sendShared hc hr data flush

omit hr in
theorem outputLast (r : Registration) (data : Bytes) : (h.outputLast r data).Raises M s :=
  (call hc _ _).bind fun _ _ _ => pure _

theorem conclude (data : Bytes) : (h.conclude k data).Raises M s := by
  refine registration_bind hr ?_
  split
  · exact pure _
  · refine bind_of_ok (exec_modifyRegistration _) rfl ?_
    split
    · exact outputLast hc r data
    · -- The calls that announce the length leave the registration where it is.
      have announce : ∃ u, (h.announce r data).exec (changed s k fun r => { r with ended := true }) = (.ok (), u) ∧
          u.worker = (changed s k fun r => { r with ended := true }).worker := by
        obtain ⟨x, hx⟩ := hc.exec_call (some r.serial) (.setContentLength r.id data.length)
        unfold Host.announce
        rw [exec_bind_of_ok hx]
        split
        · obtain ⟨y, hy⟩ := hc.exec_call (some r.serial) (.setHeaderOnly r.id)
          exact ⟨_, hy, rfl⟩
        · exact ⟨_, rfl, rfl⟩
      obtain ⟨u, hu, hworker⟩ := announce
      have hr' : u.worker.requests.get? k = some { r with ended := true } := by
        rw [hworker]
        show (s.worker.requests.modify k _).get? k = _
        rw [Arena.get?_modify, if_pos rfl, hr]
        rfl
      refine bind_of_ok hu (congrArg Worker.logger hworker) ((ensureHeaderSent hc hr').bind fun x _ _ => ?_)
      split
      · exact pure _
      · split
        · exact pure _
        · exact outputLast hc r data

/-- Whatever code asks of a request that is registered is answered. -/
theorem answer (c : RequestCall) : (h.answer k c).Raises M s := by
  cases c with
  | id | phase | isAnchor | resumer => exact registration_bind hr (pure _)
  | method | args => exact registration_bind hr ((call hc _ _).bind fun _ _ _ => pure _)
  | uri => exact uri hc hr
  | headers => exact headers hc hr
  | header name => exact (headers hc hr).bind fun _ _ _ => pure _
  | body => exact body hc hr
  | setStatus code => exact setStatus hc hr code
  | addHeader name value => exact addHeader hc hr name value
  | send data flush => exact send hc hr data flush
  | sendShared data flush => exact sendShared hc hr data flush
  | conclude data | concludeShared data => exact conclude hc hr data
  | log level text => exact registration_bind hr (log hc _ _)

omit hr in
theorem createChild (r : Registration) (sub : Subrequest) (ticket : Nat) (token : SubToken) :
    (h.createChild r sub ticket token).Raises M s := by
  refine (call hc _ _).bind ?_
  intro reply _ _
  split
  · refine bind_of_ok (exec_bind_of_ok (exec_modifyWorker _)) rfl ?_
    refine bind ?_ fun _ _ _ => pure _
    unfold Host.runPosted
    split
    · refine (call hc _ _).bind fun posted u _ => forM (fun work v => ?_) posted u
      exact bind_of_ok (exec_shared _) rfl (pure _)
    · exact pure _
  · exact bind_of_ok (exec_modifyWorker _) rfl <| bind_of_ok (exec_record _) rfl <|
      bind_of_ok (exec_modifyWorker _) rfl <| (log hc _ _).bind fun _ _ _ => pure _

theorem sendRequest (sub : Subrequest) (done : Completion → Callback δ ω) : (h.sendRequest k sub done).Raises M s := by
  refine registration_bind hr (bind_of_ok (Host.exec_hand s) rfl ?_)
  split
  · exact bind_of_ok (exec_record _) rfl (pure _)
  · refine bind_of_ok exec_freshSerial rfl ?_
    obtain ⟨root, hroot⟩ := hc.exec_call (some r.serial) (.mainOf r.id)
    refine bind_of_ok (exec_onPanic_of_ok hroot) rfl ?_
    exact bind_of_ok (Host.exec_addPending _ _) rfl (createChild hc r sub _ _)

omit hc in
theorem offload (work : String → Except String String) (done : Except String String → Callback δ ω) :
    (h.offload k work done).Raises M s := by
  refine registration_bind hr (bind_of_ok (Host.exec_hand s) rfl ?_)
  split
  · exact bind_of_ok (exec_record _) rfl (pure _)
  · refine bind_of_ok (h.exec_startThread _ _) rfl ?_
    split
    · exact bind_of_ok (exec_shared _) rfl (pure _)
    · exact bind_of_ok (exec_record _) rfl (pure _)

end
end Action.Raises

/-! ### Code -/

/-- Code can panic with a message, by the answers that it gets to what it asks for. -/
inductive Callback.Raises : Callback δ ω → String → Prop
  | panic {message : String} : Raises (.panic message) message
  | call {c : RequestCall} {next : c.Result → Callback δ ω} {x message} :
    Raises (next x) message → Raises (.call c next) message
  | data {change : δ → δ} {next : δ → Callback δ ω} {x message} :
    Raises (next x) message → Raises (.data change next) message
  | world {change : ω → ω} {next : ω → Callback δ ω} {x message} :
    Raises (next x) message → Raises (.world change next) message
  | sendRequest {sub done} {next : Except Error SubToken → Callback δ ω} {x message} :
    Raises (next x) message → Raises (.sendRequest sub done next) message
  | offload {work done} {next : Except Error Outcome → Callback δ ω} {x message} :
    Raises (next x) message → Raises (.offload work done next) message
  | push {work} {next : Bool → Callback δ ω} {x message} :
    Raises (next x) message → Raises (.push work next) message
  | failedCount {next : UInt64 → Callback δ ω} {x message} :
    Raises (next x) message → Raises (.failedCount next) message
  | awaitOffload {index} {next : Bool → Callback δ ω} {x message} :
    Raises (next x) message → Raises (.awaitOffload index next) message

namespace Host.Calm

/-- Code that runs against a request that is registered panics of itself, if it panics and the logger does not. -/
theorem runCallback (hc : h.Calm) : ∀ (code : Callback δ ω) {s : State δ ω} {r : Registration},
    s.worker.requests.get? k = some r → (h.runCallback k code).Raises code.Raises s
  | .finish _, _, _, _ => .pure _
  | .panic message, s, _, _ => by
    refine ⟨rfl, fun he _ => ?_⟩
    cases he
    exact .panic
  | .call c next, s, _, hr => (Raises.answer hc hr c).bind fun x t he => by
    obtain ⟨r', hr', -⟩ := ((Spoken.answer c).exec he).get? hr
    exact (runCallback hc (next x) hr').mono fun _ => .call
  | .data change next, s, _, hr => by
    refine .bind_of_ok (t := { s with worker := { s.worker with data := change s.worker.data } }) rfl rfl ?_
    exact .mono (M := (next _).Raises) (runCallback hc (next _) hr) fun _ => .data
  | .world change next, _, _, hr => by
    refine .bind_of_ok (exec_shared _) rfl ?_
    exact .mono (M := (next _).Raises) (runCallback hc (next _) hr) fun _ => .world
  | .sendRequest sub done next, s, _, hr => (Raises.sendRequest hc hr sub done).bind fun x t he => by
    have hst : Services h (some k) ([], s) [] t := (Services.sendRequest .refl sub done).exec he
    obtain ⟨r', hr', -⟩ := (Services.served hst).get? hr
    exact (runCallback hc (next x) hr').mono fun _ => .sendRequest
  | .offload work done next, s, _, hr => (Raises.offload hr work done).bind fun x t he => by
    have hst : Services h (some k) ([], s) [] t := (Services.offload .refl work done).exec he
    obtain ⟨r', hr', -⟩ := (Services.served hst).get? hr
    exact (runCallback hc (next x) hr').mono fun _ => .offload
  | .push work next, _, _, hr => by
    refine .bind_of_ok (exec_shared _) rfl ?_
    exact .mono (M := (next _).Raises) (runCallback hc (next _) hr) fun _ => .push
  | .failedCount next, s, _, hr => by
    refine .bind_of_ok (t := s) rfl rfl ?_
    exact .mono (M := (next _).Raises) (runCallback hc (next _) hr) fun _ => .failedCount
  | .awaitOffload index next, _, _, hr => by
    refine .bind_of_ok (exec_shared _) rfl ?_
    exact .mono (M := (next _).Raises) (runCallback hc (next _) hr) fun _ => .awaitOffload

end Host.Calm
end EngineBridge
