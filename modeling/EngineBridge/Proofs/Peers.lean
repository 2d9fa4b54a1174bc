import EngineBridge.Proofs.Stumbling
import EngineBridge.Proofs.Targets

/-! The choice of a peer. A target that is kept for a request is stored as it is, and no resolver is asked; where
    none is kept the resolver of the pool decides, and targets of other requests do not matter to it. Either way
    the worker is left as it is. -/

namespace EngineBridge
open EngineBridge.Action Registry
variable {δ ω α β : Type} {h : Host δ ω} {s t : State δ ω} {req : ReqId} {pool : UInt64} {peer : Peer}

/-! ### Actions that leave the worker alone -/

/-- The state with other targets. -/
def State.aimed (s : State δ ω) (targets : ReqMap Peer) : State δ ω := { s with worker := { s.worker with targets } }

namespace Action

/-- An action leaves the worker as it is, and does not look at where requests are to be sent. -/
structure Aloof (a : Action δ ω α) : Prop where
  worker : ∀ s, (a.exec s).2.worker = s.worker
  blind : ∀ s targets, a.exec (s.aimed targets) = ((a.exec s).1, (a.exec s).2.aimed targets)

namespace Aloof

theorem pure (x : α) : (pure x : Action δ ω α).Aloof := ⟨fun _ => rfl, fun _ _ => rfl⟩

theorem raise (message : String) : (raise message : Action δ ω α).Aloof := ⟨fun _ => rfl, fun _ _ => rfl⟩

theorem throw (e : Stop) : (throw e : Action δ ω α).Aloof := ⟨fun _ => rfl, fun _ _ => rfl⟩

theorem shared (f : Shared δ ω → α × Shared δ ω) : (shared f).Aloof := ⟨fun _ => rfl, fun _ _ => rfl⟩

theorem record (e : Entry) : (record e : Action δ ω Unit).Aloof := ⟨fun _ => rfl, fun _ _ => rfl⟩

theorem bind {a : Action δ ω α} {f : α → Action δ ω β} (ha : a.Aloof) (hf : ∀ x, (f x).Aloof) : (a >>= f).Aloof := by
  constructor
  · intro s
    have hs := ha.worker s
    rw [exec_bind]
    rcases he : a.exec s with ⟨_ | x, t⟩ <;> rw [he] at hs
    · exact hs
    · exact ((hf x).worker t).trans hs
  · intro s targets
    rw [exec_bind, exec_bind, ha.blind]
    rcases a.exec s with ⟨_ | x, t⟩
    · rfl
    · exact (hf x).blind t targets

/-- What goes on from the worker as it is has to go on alike whatever the targets are. -/
theorem worker_bind {f : Worker δ ω → Action δ ω β} (hf : ∀ w, (f w).Aloof)
    (hw : ∀ w targets, f { w with targets } = f w) : (Action.worker >>= f).Aloof := by
  constructor
  · intro s
    rw [exec_bind_of_ok exec_worker]
    exact (hf _).worker s
  · intro s targets
    rw [exec_bind_of_ok exec_worker, exec_bind_of_ok exec_worker]
    exact (congrArg (Action.exec · (s.aimed targets)) (hw s.worker targets)).trans ((hf _).blind s targets)

theorem tryCatch {a : Action δ ω α} {f : Stop → Action δ ω α} (ha : a.Aloof) (hf : ∀ e, (f e).Aloof) :
    (tryCatch a f).Aloof := by
  constructor
  · intro s
    have hs := ha.worker s
    rw [exec_tryCatch]
    rcases he : a.exec s with ⟨e | _, t⟩ <;> rw [he] at hs
    · exact ((hf e).worker t).trans hs
    · exact hs
  · intro s targets
    rw [exec_tryCatch, exec_tryCatch, ha.blind]
    rcases a.exec s with ⟨e | _, t⟩
    · exact (hf e).blind t targets
    · rfl

theorem hold {a : Action δ ω α} (ha : a.Aloof) : a.hold.Aloof := by
  refine (ha.bind fun _ => pure _).tryCatch fun e => ?_
  cases e with
  | panic message => exact pure _
  | overrun => exact throw _

theorem explain (x : Except String (Except Fault α)) : (h.explain x).Aloof := by
  have display (f : Fault) : (h.display f).Aloof := by
    unfold Host.display
    split
    · exact pure _
    · exact raise _
  rcases x with _ | f | _
  · exact pure _
  · exact (display f).bind fun _ => pure _
  · exact pure _

theorem guarded {a : Action δ ω (Except Fault α)} (ha : a.Aloof) : (h.guarded a).Aloof := ha.hold.bind explain

theorem call (serial : Option Nat) (c : Call) : (h.call serial c).Aloof := by
  refine (shared _).bind fun reply => ?_
  split
  · exact pure _
  · exact raise _

theorem callLogger (logger : Logger ω) (line : Log.Record) : (Host.callLogger logger line : Action δ ω Unit).Aloof := by
  refine (shared _).bind fun x => ?_
  split
  · exact pure _
  · exact raise _

theorem log (notice : Log.Notice) (req : Option ReqId) : (h.log notice req).Aloof := by
  refine worker_bind (fun w => ?_) fun _ _ => rfl
  split
  · refine (record _).bind fun _ => ?_
    split
    · exact callLogger _ _
    · exact call _ _
  · exact pure _

theorem answerPeer (req : ReqId) (pool : UInt64) (c : PeerCall) : (h.answerPeer req pool c).Aloof := by
  cases c with
  | req | pool => exact pure _
  | method | uri | header name => exact (call _ _).bind fun _ => pure _
  | log level text => exact log _ _

theorem runResolver (req : ReqId) (pool : UInt64) : ∀ code : Resolver δ ω, (h.runResolver req pool code).Aloof
  | .finish result => pure result
  | .panic message => raise message
  | .call c next => (answerPeer req pool c).bind fun x => runResolver req pool (next x)
  | .data next => worker_bind (fun w => runResolver req pool (next w.data)) fun _ _ => rfl
  | .world _ next => (shared _).bind fun x => runResolver req pool (next x)

theorem resolvePeer (req : ReqId) (pool : UInt64) : (h.resolvePeer req pool).Aloof := by
  unfold Host.resolvePeer
  split
  · exact (log _ _).bind fun _ => pure _
  · refine (runResolver req pool _).guarded.bind fun result => ?_
    split
    · exact pure _
    · exact (log _ _).bind fun _ => pure _
    · exact (log _ _).bind fun _ => pure _

theorem storePeer (req : ReqId) (picked : Option Peer) : (h.storePeer req picked).Aloof := by
  unfold Host.storePeer
  split
  · exact pure _
  · refine (call _ _).bind fun reply => ?_
    split
    · exact pure _
    · exact (log _ _).bind fun _ => pure _

end Aloof
end Action

/-! ### The choice -/

namespace Host

/-- A line is logged for a request, and no peer is picked for it. -/
def declines (h : Host δ ω) (notice : Log.Notice) (req : ReqId) : Action δ ω PeerDecision := do
  h.log notice (some req)
  return .declined

/-- The engine is asked at once to store a peer for a request, and this is what comes of it. -/
structure Stores (h : Host δ ω) (s : State δ ω) (req : ReqId) (peer : Peer)
    (result : Except Stop PeerDecision × State δ ω) : Prop where
  selected : (h.engine (.setPeer req peer) s.shared.world).1 = .ok (.ok ()) →
    result = (.ok (.selected peer), h.asked none (.setPeer req peer) s)
  failed : ∀ {cause}, (h.engine (.setPeer req peer) s.shared.world).1 = .ok (.error cause) →
    result = (h.log (.peerNotStored peer cause) (some req) >>= fun _ => pure .failed).exec
      (h.asked none (.setPeer req peer) s)
  panicked : ∀ {message}, (h.engine (.setPeer req peer) s.shared.world).1 = .error message →
    result = (.error (.panic message), h.asked none (.setPeer req peer) s)

/-- What the resolver of a pool has come to for a request, and what comes of it: an address is stored; with none,
    a fault or a panic the request is declined, with a line in the log; and where the text of the fault cannot be made,
    that panics. -/
inductive Decides (h : Host δ ω) (req : ReqId) (pool : UInt64) :
    Except Stop (Except Fault (Option Net.SocketAddr)) × State δ ω → Except Stop PeerDecision × State δ ω → Prop
  | address {addr : Net.SocketAddr} {t : State δ ω} {result} : h.Stores t req (.ofSocketAddr addr) result →
    Decides h req pool (.ok (.ok (some addr)), t) result
  | nothing {t : State δ ω} : Decides h req pool (.ok (.ok none), t) ((h.declines (.noServer pool) req).exec t)
  | fault {f : Fault} {message : String} {t : State δ ω} : h.text f = .ok message →
    Decides h req pool (.ok (.error f), t) ((h.declines (.resolverFailed pool message) req).exec t)
  | stumbled {f : Fault} {message : String} {t : State δ ω} : h.text f = .error message →
    Decides h req pool (.ok (.error f), t) (.error (.panic message), t)
  | panicked {message : String} {t : State δ ω} :
    Decides h req pool (.error (.panic message), t) ((h.declines (.resolverFailed pool message) req).exec t)

/-- The peer for a request is what the resolver of the pool decides, if there is one, and would be so whatever
    targets other requests had. -/
structure Resolves (h : Host δ ω) (s : State δ ω) (req : ReqId) (pool : UInt64) : Prop where
  known : ∀ {code}, h.routes.resolver? pool = some code →
    h.Decides req pool ((h.runResolver req pool code).exec s) ((h.selectPeer req pool).exec s)
  unknown : h.routes.resolver? pool = none →
    (h.selectPeer req pool).exec s = (h.declines (.noResolver pool) req).exec s
  others : ∀ {targets : ReqMap Peer}, targets[req]? = none → (h.selectPeer req pool).exec (s.aimed targets) =
    (((h.selectPeer req pool).exec s).1, ((h.selectPeer req pool).exec s).2.aimed targets)

theorem stores_storePeer (h : Host δ ω) (s : State δ ω) (req : ReqId) (peer : Peer) :
    h.Stores s req peer ((h.storePeer req (some peer)).exec s) where
  selected he := exec_bind_of_ok (h.exec_call_of_ok he)
  failed he := exec_bind_of_ok (h.exec_call_of_ok he)
  panicked he := exec_bind_of_error (h.exec_call_of_error he)

theorem exec_pickPeer_of_target (hpeer : s.worker.targets[req]? = some peer) :
    (h.pickPeer req pool).exec s = (.ok (some peer), s) := by
  unfold pickPeer
  rw [exec_bind_of_ok exec_worker, hpeer]
  rfl

theorem exec_selectPeer_of_target (hpeer : s.worker.targets[req]? = some peer) :
    (h.selectPeer req pool).exec s = (h.storePeer req (some peer)).exec s :=
  exec_bind_of_ok (exec_pickPeer_of_target hpeer)

theorem exec_selectPeer_of_none (hnone : s.worker.targets[req]? = none) :
    (h.selectPeer req pool).exec s = (h.resolvePeer req pool >>= h.storePeer req).exec s := by
  unfold selectPeer
  rw [exec_bind, exec_bind, exec_pickPeer_of_none hnone]

/-- A target that is kept for a request is stored as it is. -/
theorem stores_selectPeer (hpeer : s.worker.targets[req]? = some peer) :
    h.Stores s req peer ((h.selectPeer req pool).exec s) := by
  rw [exec_selectPeer_of_target hpeer]
  exact h.stores_storePeer s req peer

/-- A request that is declined by what follows the resolver is declined. -/
theorem exec_declines {a : Action δ ω (Option Peer)} {notice : Log.Notice} {t : State δ ω}
    (ha : a.exec s = (h.log notice (some req) >>= fun _ => pure none).exec t) :
    (a >>= h.storePeer req).exec s = (h.declines notice req).exec t := by
  unfold declines
  rw [exec_bind, ha, exec_bind, exec_bind]
  rcases (h.log notice (some req)).exec t with ⟨_ | _, u⟩ <;> rfl

/-- A resolver that a pool has decides. -/
theorem decides_resolvePeer {code : Resolver δ ω} (hcode : h.routes.resolver? pool = some code) :
    h.Decides req pool ((h.runResolver req pool code).exec s)
      ((h.resolvePeer req pool >>= h.storePeer req).exec s) := by
  have hcontained : (h.runResolver req pool code).Contained :=
    (Errand.runResolver (h := h) (R := True) (C := True) req pool code).contained
  unfold resolvePeer
  rw [hcode]
  dsimp only
  rw [bind_assoc, hcontained.exec_guarded_bind]
  rcases hrun : (h.runResolver req pool code).exec s with ⟨(message | _) | f | _ | addr, t⟩
  · rw [exec_explain_bind_of_ok rfl, exec_declines rfl]
    exact .panicked
  · exact absurd hrun (hcontained s t)
  · dsimp only [held]
    cases htext : h.text f with
    | ok message =>
      rw [exec_explain_bind_of_ok (explained_of_text htext), exec_declines rfl]
      exact .fault htext
    | error message =>
      rw [exec_explain_bind_of_error (explained_of_stumble htext)]
      exact .stumbled htext
  · rw [exec_explain_bind_of_ok rfl, exec_declines rfl]
    exact .nothing
  · rw [exec_explain_bind_of_ok rfl]
    exact .address (h.stores_storePeer t req _)

/-- Where no target is kept for a request the resolver decides. -/
theorem resolves_selectPeer (hnone : s.worker.targets[req]? = none) : h.Resolves s req pool where
  known hcode := exec_selectPeer_of_none hnone ▸ decides_resolvePeer hcode
  unknown hnew := by
    rw [exec_selectPeer_of_none hnone]
    refine exec_declines ?_
    unfold resolvePeer
    rw [hnew]
  others {targets} htargets := by
    have hother : (s.aimed targets).worker.targets[req]? = none := htargets
    rw [exec_selectPeer_of_none hother, exec_selectPeer_of_none hnone]
    exact ((Aloof.resolvePeer req pool).bind fun picked => .storePeer req picked).blind s targets

/-- The worker is left as it is, however the choice ends. -/
theorem worker_selectPeer (h : Host δ ω) (s : State δ ω) (req : ReqId) (pool : UInt64) :
    ((h.selectPeer req pool).exec s).2.worker = s.worker := by
  cases hpeer : s.worker.targets[req]? with
  | some peer =>
    rw [exec_selectPeer_of_target hpeer]
    exact (Aloof.storePeer req (some peer)).worker s
  | none =>
    rw [exec_selectPeer_of_none hpeer]
    exact ((Aloof.resolvePeer req pool).bind fun picked => .storePeer req picked).worker s

end Host

/-! ### The count of live subrequests -/

/-- Every subrequest whose record is kept counts as live, and so does one whose completion is acted on. -/
def State.Tallies (c : Option (Pending δ ω)) (s : State δ ω) : Prop :=
  s.worker.live = s.serials.length + c.toList.length

section
variable {c : Option (Pending δ ω)}

theorem State.Tallies.of_eq (hs : s.Tallies c) (hlive : t.worker.live = s.worker.live)
    (hsub : t.worker.subrequests = s.worker.subrequests) : t.Tallies c := by
  unfold State.Tallies State.serials at hs ⊢
  rw [hlive, hsub]
  exact hs

theorem State.Tallies.pend (hs : s.Tallies c) (p : Pending δ ω) : (Host.pended s p).Tallies c := by
  have hperm := (s.worker.subrequests.values_insert p).map Pending.serial
  have hlength : (Host.pended s p).serials.length = s.serials.length + 1 := hperm.length_eq
  have hlive : (Host.pended s p).worker.live = s.worker.live + 1 := rfl
  unfold State.Tallies at hs ⊢
  omega

theorem State.Tallies.record (hs : s.Tallies c) (h : Host δ ω) (r : Registration) (sub : Subrequest) (p : Pending δ ω) :
    (h.recorded s r sub p).Tallies c := by
  have hrooted : (h.rooted s r).Tallies c := hs.of_eq rfl rfl
  exact (hrooted.pend p).of_eq rfl rfl

theorem Service.tallies {slot : Option Nat} {a b : List Nat × State δ ω} (hs : a.2.Tallies c)
    (hab : Service h slot a b) : b.2.Tallies c := by
  cases hab with
  | spoken hst => exact hs.of_eq (by rw [hst.spoken.worker]) (by rw [hst.spoken.worker])
  | @issued X s k r sub p child =>
    have hsame : (Host.childSet (h.recorded s r sub p) (Host.tokenOf s p) p.target child).serials =
        (h.recorded s r sub p).serials :=
      Arena.map_values_modify (f := fun p : Pending δ ω => { p with child := some child }) (g := Pending.serial)
        (fun _ => rfl) _ _
    have hrecorded := State.Tallies.record hs h r sub p
    unfold State.Tallies at hrecorded ⊢
    rw [hsame]
    exact hrecorded
  | @unissued X s k r sub p =>
    have hsteady := Steady.withdrawn h s r sub p
    unfold State.Tallies at hs ⊢
    rw [hsteady.live, hsteady.serials.length_eq]
    exact hs
  | broken => exact hs.record h _ _ _
  | _ => exact hs.of_eq rfl rfl

theorem Turn.tallies {a b : List Nat × State δ ω} (hs : a.2.Tallies c) (hab : Turn h c a b) : b.2.Tallies c := by
  cases hab with
  | service hab => exact hab.tallies hs
  | @called p X s k r =>
    have hwaited : (Deeds.waited s k r).Tallies (some p) := by
      rcases Deeds.waited_cases s k r with ⟨heq, -⟩ | ⟨heq, -⟩ <;> rw [heq]
      · exact State.Tallies.of_eq hs rfl rfl
      · exact hs
    exact hwaited.of_eq rfl rfl
  | _ => exact State.Tallies.of_eq hs rfl rfl

theorem Reachable.tallies (hs : Reachable h s) : s.Tallies none := by
  refine hs.by_turns (P := State.Tallies) (fun _ _ _ _ => rfl) (fun _ hs hab => hab.tallies hs) ?_ ?_
  · intro s token p hp _ hs
    have hlength := ((Arena.values_remove hp).map Pending.serial).length_eq
    rw [List.map_cons, List.length_cons] at hlength
    unfold State.Tallies at hs ⊢
    exact hs.trans hlength
  · intro s p hs
    have hlive : (Host.uncounted s).worker.live = s.worker.live - 1 := rfl
    unfold State.Tallies at hs ⊢
    rw [hlive, hs]
    exact Nat.add_sub_cancel _ 1

end

/-- In every run over an engine that gives fresh names to children: a target is kept for a name just if a
    subrequest that was issued with it waits for a child of that name, and the name has not been released since the
    child was made. A target that is kept is stored as it is; where none is kept the resolver of the pool decides,
    whatever it comes to, and no other request's target matters; no target is kept when no subrequest is live, and the
    choice of a peer leaves the worker as it is. -/
theorem Host.target_law {store : Queue.Store} {config : Config} {data : δ} {world : ω}
    (hs : State.open store config data world = .ok s) (acts : List (Act δ ω))
    (hj : (h.after s acts).shared.journal.FreshChildren) :
    (∀ (child : ReqId) peer, (h.after s acts).worker.targets[child]? = some peer ↔
      ∃ slot p, (h.after s acts).worker.subrequests.get? slot = some p ∧ p.child = some child ∧
        p.target = some peer ∧ ¬h.Released s acts ⟨slot, p.serial⟩ child) ∧
    (∀ (child : ReqId) peer pool, (h.after s acts).worker.targets[child]? = some peer →
      h.Stores (h.after s acts) child peer ((h.selectPeer child pool).exec (h.after s acts))) ∧
    (∀ (req : ReqId) pool, (h.after s acts).worker.targets[req]? = none → h.Resolves (h.after s acts) req pool) ∧
    ((h.after s acts).worker.live = 0 → ∀ child : ReqId, (h.after s acts).worker.targets[child]? = none) ∧
    ∀ req pool, ((h.selectPeer req pool).exec (h.after s acts)).2.worker = (h.after s acts).worker := by
  have htargeted := Targeted.after hs acts hj
  refine ⟨fun _ _ => htargeted.aims, fun _ _ _ => Host.stores_selectPeer, fun _ _ => Host.resolves_selectPeer,
    fun hlive child => ?_, h.worker_selectPeer _⟩
  have htallies := ((Reachable.opened hs).after (h := h) acts).tallies
  unfold State.Tallies at htallies
  rw [hlive] at htallies
  rw [Option.eq_none_iff_forall_ne_some]
  intro peer hpeer
  obtain ⟨slot, p, hp, -⟩ := htargeted.aims.mp hpeer
  have hpos : 0 < (h.after s acts).serials.length :=
    List.length_pos_of_mem (List.mem_map_of_mem (Arena.mem_values hp))
  omega

/-- Code that issues a subrequest to an address and leaves its request open until that has completed. -/
def Callback.aiming (addr : Net.SocketAddr) : Callback Unit Unit :=
  .sendRequest ⟨⟨.get, "", none, [], none⟩, some addr, none⟩ (fun _ => .finish (.ok .ok)) fun _ => .finish (.ok .async)

/-- The child of a subrequest with a target is sent there, whatever the resolver of its pool answers; after its name
    has been released it is sent where the resolver says. -/
theorem target_law_when_released :
    let kept : Net.SocketAddr := .v4 ⟨⟨10, 0, 0, 1⟩, 80⟩
    let answer : Net.SocketAddr := .v4 ⟨⟨10, 0, 0, 2⟩, 80⟩
    let h : Host Unit Unit := .plain (Engine.prompt ⟨9⟩) ⟨(∅ : Std.ExtTreeMap UInt64 (Callback Unit Unit)).insert 1
      (.aiming kept), (∅ : Std.ExtTreeMap UInt64 (Resolver Unit Unit)).insert 5 (.finish (.ok (some answer)))⟩ id
    ∃ s acts, State.open .array {} () () = .ok s ∧
      (h.after s (.hook (.released ⟨9⟩) :: acts)).shared.journal.FreshChildren ∧
      ((h.selectPeer ⟨9⟩ 5).exec (h.after s acts)).1 = .ok (.selected (.ofSocketAddr kept)) ∧
      ((h.selectPeer ⟨9⟩ 5).exec (h.after s (.hook (.released ⟨9⟩) :: acts))).1 =
        .ok (.selected (.ofSocketAddr answer)) := by
  intro kept answer h
  obtain ⟨s, acts, hopen, hn, htarget, hnone⟩ : ∃ s acts, State.open .array {} () () = .ok s ∧
      ((h.after s (.hook (.released ⟨9⟩) :: acts)).shared.journal.filterMap Entry.child?).Nodup ∧
      (h.after s acts).worker.targets[(⟨9⟩ : ReqId)]? = some (.ofSocketAddr kept) ∧
      (h.after s (.hook (.released ⟨9⟩) :: acts)).worker.targets[(⟨9⟩ : ReqId)]? = none :=
    ⟨State.fresh, [.hook (.contentPhase ⟨1⟩)], rfl, by decide +kernel, by decide +kernel, by decide +kernel⟩
  have hj := Journal.FreshChildren.of_nodup hn
  have hone : Steps h (h.after s acts) (h.after s (.hook (.released ⟨9⟩) :: acts)) :=
    .single (Step.iff_act.mpr ⟨_, rfl⟩)
  have hbefore := hj.of_suffix (Deeds.grows (hone.deeds ((Reachable.opened hopen).after acts)))
  obtain ⟨-, hstores, -⟩ := Host.target_law hopen acts hbefore
  obtain ⟨-, -, hresolves, -⟩ := Host.target_law hopen _ hj
  have hkept := (hstores ⟨9⟩ (.ofSocketAddr kept) 5 htarget).selected rfl
  have hcode : h.routes.resolver? 5 = some (.finish (.ok (some answer))) := Std.ExtTreeMap.getElem?_insert_self
  have hdecides := (hresolves ⟨9⟩ 5 hnone).known hcode
  refine ⟨s, acts, hopen, hj, by rw [hkept], ?_⟩
  cases hdecides with
  | address hstored => rw [hstored.selected rfl]

end EngineBridge
