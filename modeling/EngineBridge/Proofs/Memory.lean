import EngineBridge.Proofs.Answering
import EngineBridge.Proofs.Ends

/-! What has been read for a registration. Path, headers and body are read alike: what has been read before is
    answered without anything being done, and else the engine is asked, what it tells is kept, and nothing is kept
    if that fails. No other call on a registration touches what has been read for it. -/

namespace EngineBridge
open EngineBridge.Action Registry

/-! ### What is read -/

/-- What is read of a request once for each registration. -/
inductive Matter
  | uri
  | headers
  | body
deriving DecidableEq

/-- What it is read as. -/
@[reducible] def Matter.Value : Matter → Type
  | uri => String
  | headers => List (String × String)
  | body => Bytes

/-- What a call on a request reads; one header is looked for among all. -/
def RequestCall.matter? : RequestCall → Option Matter
  | uri => some .uri
  | headers | header _ => some .headers
  | body => some .body
  | id | phase | isAnchor | method | args | setStatus _ | addHeader _ _ | send _ _ | sendShared _ _ | conclude _
  | concludeShared _ | resumer | log _ _ => none

theorem RequestCall.eq_body {c : RequestCall} (hc : c.matter? = some .body) : c = .body := by
  cases c <;> first | rfl | cases hc

namespace Registration

/-- What has been read of a matter. -/
def kept (r : Registration) : (m : Matter) → Option m.Value
  | .uri => r.uri
  | .headers => r.headers
  | .body => r.body

/-- The registration with what has been read of a matter. -/
def keep (r : Registration) : (m : Matter) → m.Value → Registration
  | .uri, v => { r with uri := some v }
  | .headers, v => { r with headers := some v }
  | .body, v => { r with body := some v }

variable {r r' : Registration}

theorem kept_keep (r : Registration) (m : Matter) (v : m.Value) : (r.keep m v).kept m = some v := by
  cases m <;> rfl

theorem kept_keep_of_ne {m m' : Matter} (hm : m' ≠ m) (v : m.Value) : (r.keep m v).kept m' = r.kept m' := by
  cases m <;> cases m' <;> first | rfl | exact absurd rfl hm

theorem keep_of_kept {m : Matter} {v : m.Value} (hv : r.kept m = some v) : r.keep m v = r := by
  cases m <;> cases r <;> cases hv <;> rfl

theorem kept_congr (hrr' : r.memory = r'.memory) (m : Matter) : r.kept m = r'.kept m := by
  have huri : r.uri = r'.uri := congrArg Prod.fst hrr'
  have hrest : (r.headers, r.body) = (r'.headers, r'.body) := congrArg Prod.snd hrr'
  cases m with
  | uri => exact huri
  | headers => exact congrArg Prod.fst hrest
  | body => exact congrArg Prod.snd hrest

end Registration

/-- The request of which an entry tells that its body is not in memory. -/
def Entry.complains? : Entry → Option (Option ReqId)
  | .logged .bodyInFile req => some req
  | _ => none

/-- The requests of which it has been logged that their bodies are not in memory. -/
def Journal.complaints : Journal → List (Option ReqId) := tell Entry.complains?

namespace Host
variable {δ ω : Type} (h : Host δ ω) {s t : State δ ω} {k : Nat} {r r' : Registration} {c : RequestCall} {m : Matter}

/-- Reads a matter of the request in a slot. -/
def read (k : Nat) : (m : Matter) → Action δ ω m.Value
  | .uri => h.uri k
  | .headers => h.headers k
  | .body => h.body k

/-- Asks the engine about a matter. -/
def look (r : Registration) : (m : Matter) → Action δ ω m.Value
  | .uri => return Utf8.decode (← h.call r.serial (.uri r.id))
  | .headers => return Headers.decode (← h.call r.serial (.headers r.id))
  | .body => h.readBody r

/-- What the buffers of a body come to: nothing, if one of them is in a file. -/
def whole (buffers : List BodyBuffer) : Bytes := if .inFile ∈ buffers then [] else inMemory buffers

/-- What the engine tells about a matter in a given world. -/
def told (req : ReqId) (w : ω) : (m : Matter) → Except String m.Value
  | .uri => (h.engine (.uri req) w).1.map Utf8.decode
  | .headers => (h.engine (.headers req) w).1.map Headers.decode
  | .body => (h.engine (.body req) w).1.map whole

/-- The engine that has told a body tells the same when it is asked again at once. -/
def Consistent : Prop := ∀ {req w buffers}, (h.engine (.body req) w).1 = .ok buffers →
  (h.engine (.body req) (h.engine (.body req) w).2).1 = .ok buffers

/-- Whether a look at the body of a request leads to a complaint: the engine has put it into a file, at least in
    part, and the filter lets errors through. -/
def spools (s : State δ ω) (req : ReqId) : Bool :=
  match (h.engine (.body req) s.shared.world).1 with
  | .ok buffers => .inFile ∈ buffers && s.worker.filter.allows .error
  | .error _ => false

/-- Only where the engine tells a body is there anything to complain about. -/
theorem spools_eq_false {req : ReqId} {message : String} (he : h.told req s.shared.world .body = .error message) :
    h.spools s req = false := by
  unfold told at he
  unfold spools
  cases hb : (h.engine (.body req) s.shared.world).1 with
  | ok buffers =>
    rw [hb] at he
    cases he
  | error message => rfl

theorem read_eq (k : Nat) (m : Matter) : h.read k m = do
    let r ← registration k
    match r.kept m with
    | some v => return v
    | none =>
      let v ← h.look r m
      modifyRegistration k fun r => r.keep m v
      return v := by
  cases m with
  | uri =>
    refine bind_congr fun r => ?_
    dsimp only [Registration.kept, look]
    cases r.uri with
    | some v => rfl
    | none =>
      simp only [bind_assoc, pure_bind]
      rfl
  | headers =>
    refine bind_congr fun r => ?_
    dsimp only [Registration.kept, look]
    cases r.headers with
    | some v => rfl
    | none =>
      simp only [bind_assoc, pure_bind]
      rfl
  | body =>
    refine bind_congr fun r => ?_
    dsimp only [Registration.kept, look]
    cases r.body <;> rfl

/-! ### What a reading comes to -/

section
variable {h}

theorem exec_read_of_kept {v : m.Value} (hr : s.worker.requests.get? k = some r) (hv : r.kept m = some v) :
    (h.read k m).exec s = (.ok v, s) := by
  rw [read_eq, exec_bind_of_ok (exec_registration_of_some hr), hv]
  rfl

theorem exec_read_of_ok {v : m.Value} (hr : s.worker.requests.get? k = some r) (hn : r.kept m = none)
    (hl : (h.look r m).exec s = (.ok v, t)) :
    (h.read k m).exec s = (.ok v, changed t k fun r => r.keep m v) := by
  rw [read_eq, exec_bind_of_ok (exec_registration_of_some hr), hn]
  dsimp only
  rw [exec_bind_of_ok hl]
  rfl

theorem exec_read_of_error {e : Stop} (hr : s.worker.requests.get? k = some r) (hn : r.kept m = none)
    (hl : (h.look r m).exec s = (.error e, t)) : (h.read k m).exec s = (.error e, t) := by
  rw [read_eq, exec_bind_of_ok (exec_registration_of_some hr), hn]
  exact exec_bind_of_error hl

/-- What has not been read comes to what a look at the engine comes to. -/
theorem exec_read_fst (hr : s.worker.requests.get? k = some r) (hn : r.kept m = none) :
    ((h.read k m).exec s).1 = ((h.look r m).exec s).1 := by
  rcases hl : (h.look r m).exec s with ⟨e | v, t⟩
  · rw [exec_read_of_error hr hn hl]
  · rw [exec_read_of_ok hr hn hl]

/-- Asking the engine does nothing to any registration. -/
theorem leaves_look (r : Registration) (m : Matter) :
    (h.look r m).Leaves (fun t => ∀ k, t.worker.requests.get? k = s.worker.requests.get? k) s := by
  have call {t : State δ ω} (ht : ∀ k, t.worker.requests.get? k = s.worker.requests.get? k) (c : Call) :
      (h.call (some r.serial) c).Leaves (fun t => ∀ k, t.worker.requests.get? k = s.worker.requests.get? k) t :=
    h.leaves_call.mpr ht
  cases m with
  | uri | headers => exact (call (fun _ => rfl) _).bind fun _ _ _ ht => .pure ht
  | body =>
    refine (call (fun _ => rfl) _).bind fun buffers t _ ht => ?_
    split
    · refine Leaves.bind ?_ fun _ _ _ hu => .pure hu
      exact (Spoken.log _ _).mono fun u (hu : Spoken none t u) k => (hu.others k nofun).trans (ht k)
    · exact (call ht _).bind fun _ _ _ hu => .pure hu

/-- A look at the engine comes to what the engine tells, unless the logger panics. -/
theorem exec_look (hconsistent : h.Consistent) (hlogs : h.LogsCalmly) (r : Registration) (m : Matter) :
    ((h.look r m).exec s).1 = (h.told r.id s.shared.world m).mapError .panic ∨
      ¬s.worker.LogsCalmly ∧ ∃ e, ((h.look r m).exec s).1 = .error e := by
  cases m with
  | uri | headers =>
    refine .inl ?_
    unfold look told
    rw [exec_bind, exec_call]
    rcases (h.engine _ s.shared.world).1 with e | x <;> rfl
  | body =>
    unfold look told readBody
    dsimp only
    cases hb : (h.engine (.body r.id) s.shared.world).1 with
    | error message =>
      rw [exec_bind_of_error (h.exec_call_of_error hb)]
      exact .inl rfl
    | ok buffers =>
      rw [exec_bind_of_ok (h.exec_call_of_ok hb)]
      by_cases hfile : .inFile ∈ buffers
      · rw [if_pos hfile]
        rcases hlog : (h.log .bodyInFile (some r.id)).exec (h.asked (some r.serial) (.body r.id) s) with ⟨e | _, t⟩
        · rw [exec_bind_of_error hlog]
          refine .inr ⟨fun hl => ?_, e, rfl⟩
          obtain ⟨t', ht', -⟩ := hlogs.exec_log (s := h.asked (some r.serial) (.body r.id) s) hl .bodyInFile (some r.id)
          cases hlog.symm.trans ht'
        · rw [exec_bind_of_ok hlog]
          exact .inl (congrArg Except.ok (if_pos hfile).symm)
      · rw [if_neg hfile, exec_bind_of_ok (h.exec_call_of_ok (hconsistent hb))]
        exact .inl (congrArg Except.ok (if_neg hfile).symm)

theorem exec_look_of_calm (hconsistent : h.Consistent) (hlogs : h.LogsCalmly) (hl : s.worker.LogsCalmly) (r : Registration)
    (m : Matter) : ((h.look r m).exec s).1 = (h.told r.id s.shared.world m).mapError .panic :=
  (exec_look hconsistent hlogs r m).resolve_right fun hpanic => hpanic.1 hl

theorem told_of_exec_look (hconsistent : h.Consistent) (hlogs : h.LogsCalmly) {v : m.Value}
    (hv : ((h.look r m).exec s).1 = .ok v) : h.told r.id s.shared.world m = .ok v := by
  rcases exec_look (s := s) hconsistent hlogs r m with htold | ⟨-, e, he⟩
  · rw [hv] at htold
    cases ht : h.told r.id s.shared.world m with
    | ok v' =>
      rw [ht] at htold
      exact congrArg Except.ok (Except.ok.inj htold).symm
    | error e =>
      rw [ht] at htold
      cases htold
  · cases hv.symm.trans he

theorem complaints_asked (serial : Option Nat) (c : Call) :
    (h.asked serial c s).shared.journal.complaints = s.shared.journal.complaints :=
  (Journal.tell_append _ [_] _).trans (List.append_nil _)

/-- A look at a body leads to a complaint or to none, however it ends. -/
theorem complaints_look (r : Registration) : (h.look r .body).Leaves (fun t => t.shared.journal.complaints =
    s.shared.journal.complaints ++ if h.spools s r.id then [some r.id] else []) s := by
  unfold look readBody spools
  cases hb : (h.engine (.body r.id) s.shared.world).1 with
  | error message =>
    refine .of_exec (exec_bind_of_error (h.exec_call_of_error hb)) ?_
    exact (complaints_asked _ _).trans (List.append_nil _).symm
  | ok buffers =>
    refine .bind_of_ok (h.exec_call_of_ok hb) ?_
    have hasked := h.complaints_asked (s := s) (some r.serial) (.body r.id)
    by_cases hfile : .inFile ∈ buffers
    · rw [if_pos hfile]
      refine Leaves.bind ?_ fun _ _ _ hu => .pure hu
      refine (Journal.tell_of_log (f := Entry.complains?) (fun _ _ => rfl) .bodyInFile (some r.id)).mono fun t ht => ?_
      rw [Journal.complaints, ht, ← Journal.complaints, hasked]
      simp only [hfile, decide_true, Bool.true_and]
      rfl
    · rw [if_neg hfile]
      refine Leaves.bind (h.leaves_call.mpr ?_) fun _ _ _ hu => .pure hu
      rw [complaints_asked, hasked]
      simp [hfile]

end
end Host

/-! ### What is remembered -/

section
variable {δ ω : Type} {h : Host δ ω} {s t u : State δ ω} {k : Nat} {r r' : Registration} {c : RequestCall} {m : Matter}

/-- From one state to another, what has been read for any registration has not changed. -/
def State.Remembers (s t : State δ ω) : Prop :=
  ∀ k, (t.worker.requests.get? k).map Registration.memory = (s.worker.requests.get? k).map Registration.memory

namespace State.Remembers

theorem refl (s : State δ ω) : s.Remembers s := fun _ => rfl

theorem trans (hst : s.Remembers t) (htu : t.Remembers u) : s.Remembers u := fun k => (htu k).trans (hst k)

theorem bind {α β : Type} {a : Action δ ω α} {f : α → Action δ ω β} (ha : ∀ s, a.Leaves s.Remembers s)
    (hf : ∀ x s, (f x).Leaves s.Remembers s) (s : State δ ω) : (a >>= f).Leaves s.Remembers s :=
  (ha s).bind fun x t _ ht => (hf x t).mono fun _ => ht.trans

theorem of_spoken (hst : Spoken none s t) : s.Remembers t := fun k => by rw [hst.others k nofun]

theorem forgetful : h.Forgetful k (fun _ => True) fun a => ∀ s, a.Leaves s.Remembers s where
  pure _ s := .pure (refl s)
  bind := bind
  registration hf s := leaves_registration (refl s) fun r _ => hf r trivial s
  mark _ hf _ _ := Arena.map_get?_modify hf _ _ _
  call _ _ _ s := h.leaves_call.mpr (refl s)

/-- A call that reads none of what is remembered leaves it as it is. -/
theorem answer (hc : c.matter? = none) : (h.answer k c).Leaves s.Remembers s := by
  cases c with
  | uri | headers | header | body => cases hc
  | id | phase | isAnchor | resumer => exact leaves_registration (refl s) fun _ _ => .pure (refl s)
  | method => exact forgetful.method s
  | args => exact forgetful.args s
  | setStatus code => exact forgetful.setStatus code s
  | addHeader name value => exact forgetful.addHeader name value s
  | send data flush => exact forgetful.send data flush s
  | sendShared data flush => exact forgetful.sendShared data flush s
  | conclude data | concludeShared data => exact forgetful.conclude data s
  | log level text => exact leaves_registration (refl s) fun _ _ => (Spoken.log _ _).mono fun _ => of_spoken

end State.Remembers

/-- A header is looked for among what all headers are read as. -/
theorem Host.exec_header (h : Host δ ω) (s : State δ ω) (k : Nat) (name : String) : (h.answer k (.header name)).exec s =
    (((h.read k .headers).exec s).1.map (Headers.find? · name), ((h.read k .headers).exec s).2) := by
  show ((h.read k .headers) >>= fun hs => pure (Headers.find? hs name)).exec s = _
  rw [exec_bind]
  rcases (h.read k .headers).exec s with ⟨_ | _, t⟩ <;> rfl

theorem Host.exec_answer_of_matter (hc : c.matter? = some m) :
    ((h.answer k c).exec s).2 = ((h.read k m).exec s).2 := by
  cases c with
  | uri | headers | body =>
    cases hc
    rfl
  | header name =>
    cases hc
    rw [h.exec_header]
  | _ => cases hc

/-- What a reading comes to is kept, if it comes to its end. -/
theorem Host.get?_read (hr : s.worker.requests.get? k = some r) (m : Matter) :
    ((h.read k m).exec s).2.worker.requests.get? k =
      some (((h.read k m).exec s).1.toOption.elim r fun v => r.keep m v) := by
  cases hn : r.kept m with
  | some v =>
    rw [Host.exec_read_of_kept hr hn]
    exact hr.trans (congrArg some (Registration.keep_of_kept hn).symm)
  | none =>
    have hsame := (Host.leaves_look (h := h) (s := s) r m)
    rcases hl : (h.look r m).exec s with ⟨e | v, t⟩
    · rw [Host.exec_read_of_error hr hn hl]
      exact (hsame.exec hl k).trans hr
    · rw [Host.exec_read_of_ok hr hn hl]
      refine (Arena.get?_modify _ _ _ _).trans ?_
      rw [if_pos rfl, hsame.exec hl k, hr]
      rfl

/-- What a call leaves of what has been read: as it was, but for a matter that it has been the first to read. -/
theorem Registration.kept_answer (hr : s.worker.requests.get? k = some r)
    (hr' : ((h.answer k c).exec s).2.worker.requests.get? k = some r') (m : Matter) : r'.kept m =
      (r.kept m).or (if c.matter? = some m then ((h.read k m).exec s).1.toOption else none) := by
  cases hc : c.matter? with
  | none =>
    have hmemory := State.Remembers.answer (h := h) (s := s) (k := k) hc k
    rw [hr, hr'] at hmemory
    rw [kept_congr (Option.some.inj hmemory), if_neg nofun, Option.or_none]
  | some m' =>
    rw [Host.exec_answer_of_matter hc, Host.get?_read hr] at hr'
    obtain rfl := Option.some.inj hr'
    by_cases hm : m = m'
    · subst hm
      rw [if_pos rfl]
      cases hn : r.kept m with
      | some v =>
        rw [Host.exec_read_of_kept hr hn]
        exact r.kept_keep m v
      | none => cases ((h.read k m).exec s).1.toOption with
        | some v => exact r.kept_keep m v
        | none => exact hn
    · rw [if_neg fun heq => hm (Option.some.inj heq).symm, Option.or_none]
      cases ((h.read k m').exec s).1.toOption with
      | some v => exact kept_keep_of_ne hm v
      | none => rfl

end
end EngineBridge
