import EngineBridge.Proofs.Closures
import EngineBridge.Proofs.Tokens

/-! The count of live subrequests. It is held beside the records of the subrequests, goes up with each
    record that is kept and down once for each that is removed, so whatever a completion comes to, the
    count is that of the children that have been made and have not completed. -/

namespace EngineBridge
open EngineBridge.Action Registry
variable {δ ω : Type} {h : Host δ ω} {c : Option (Pending δ ω)} {X : List Nat} {s t u : State δ ω} {k : Nat}
  {r : Registration} {p : Pending δ ω} {token : SubToken}

/-- The engine never panics when it is asked for a child. -/
def Host.MakesChildren (h : Host δ ω) : Prop :=
  ∀ req child token w, ∃ x, (h.engine (.subrequest req child token) w).1 = .ok x

/-! ### What the journal tells of tokens -/

/-- The token of the subrequest for which a child has been made. -/
def Entry.issues? : Entry → Option SubToken
  | .issued token _ => some token
  | _ => none

/-- The token of the subrequest whose completion has begun. -/
def Entry.completes? : Entry → Option SubToken
  | .completed token => some token
  | _ => none

namespace Journal

/-- The subrequests for which children have been made, the latest first. -/
def issuedTokens (j : Journal) : List SubToken := j.filterMap Entry.issues?

/-- The subrequests whose completion has begun, the latest first. -/
def completedTokens (j : Journal) : List SubToken := j.filterMap Entry.completes?

/-- No subrequest is issued, and none completes. -/
def Uneventful (j : Journal) : Prop := j.issuedTokens = [] ∧ j.completedTokens = []

variable {j es : Journal}

theorem mem_issuedTokens : token ∈ j.issuedTokens ↔ ∃ child, .issued token child ∈ j := by
  unfold issuedTokens
  rw [List.mem_filterMap]
  constructor
  · rintro ⟨e, he, hf⟩
    cases e with
    | issued token' child =>
      cases hf
      exact ⟨child, he⟩
    | _ => cases hf
  · rintro ⟨child, he⟩
    exact ⟨_, he, rfl⟩

theorem mem_completedTokens : token ∈ j.completedTokens ↔ .completed token ∈ j := by
  unfold completedTokens
  rw [List.mem_filterMap]
  constructor
  · rintro ⟨e, he, hf⟩
    cases e with
    | completed token' =>
      cases hf
      exact he
    | _ => cases hf
  · exact fun he => ⟨_, he, rfl⟩

theorem uneventful_of_talk (hes : ∀ e ∈ es, e.Talk) : es.Uneventful := by
  constructor <;>
  · refine List.filterMap_eq_nil_iff.mpr ?_
    intro e he
    have := hes e he
    cases e <;> first | rfl | cases this

theorem Uneventful.issuedTokens_append (hes : es.Uneventful) : issuedTokens (es ++ j) = j.issuedTokens := by
  have hnil : es.filterMap Entry.issues? = [] := hes.1
  unfold issuedTokens
  rw [List.filterMap_append, hnil, List.nil_append]

theorem Uneventful.completedTokens_append (hes : es.Uneventful) :
    completedTokens (es ++ j) = j.completedTokens := by
  have hnil : es.filterMap Entry.completes? = [] := hes.2
  unfold completedTokens
  rw [List.filterMap_append, hnil, List.nil_append]

end Journal

/-! ### What turns do to the subrequests -/

/-- The serial numbers of the subrequests whose records are kept. -/
def State.serials (s : State δ ω) : List Nat := s.worker.subrequests.values.map Pending.serial

/-- From one state to another no subrequest has been issued and none has completed. -/
structure Steady (s t : State δ ω) : Prop where
  live : t.worker.live = s.worker.live
  serials : t.serials.Perm s.serials
  entries : ∃ es : Journal, es.Uneventful ∧ t.shared.journal = es ++ s.shared.journal

/-- From one state to another a subrequest has been recorded, and its child has been made. -/
def Issues (h : Host δ ω) (s t : State δ ω) : Prop :=
  ∃ r sub p child, h.Records s r p ∧ t = Host.childSet (h.recorded s r sub p) (Host.tokenOf s p) p.target child

namespace Steady

theorem of_eq (hlive : t.worker.live = s.worker.live) (hsub : t.worker.subrequests = s.worker.subrequests)
    (es : Journal) (hes : es.Uneventful) (hj : t.shared.journal = es ++ s.shared.journal) : Steady s t :=
  ⟨hlive, .of_eq (by rw [State.serials, hsub, State.serials]), es, hes, hj⟩

theorem refl (s : State δ ω) : Steady s s := .of_eq rfl rfl [] ⟨rfl, rfl⟩ rfl

theorem trans (hst : Steady s t) (htu : Steady t u) : Steady s u where
  live := htu.live.trans hst.live
  serials := htu.serials.trans hst.serials
  entries := by
    obtain ⟨es, hes, hj⟩ := hst.entries
    obtain ⟨es', hes', hj'⟩ := htu.entries
    refine ⟨es' ++ es, ⟨?_, ?_⟩, by rw [hj', hj, List.append_assoc]⟩
    · rw [hes'.issuedTokens_append]
      exact hes.1
    · rw [hes'.completedTokens_append]
      exact hes.2

theorem issuedTokens (hst : Steady s t) : t.shared.journal.issuedTokens = s.shared.journal.issuedTokens := by
  obtain ⟨es, hes, hj⟩ := hst.entries
  rw [hj, hes.issuedTokens_append]

theorem completedTokens (hst : Steady s t) :
    t.shared.journal.completedTokens = s.shared.journal.completedTokens := by
  obtain ⟨es, hes, hj⟩ := hst.entries
  rw [hj, hes.completedTokens_append]

theorem spoken {slot : Option Nat} (hst : Spoken slot s t) : Steady s t := by
  obtain ⟨es, hes, hm⟩ := hst.entries
  exact .of_eq (by rw [hst.worker]) (by rw [hst.worker]) es (Journal.uneventful_of_talk fun e he => (hm e he).1) hes

theorem sent (h : Host δ ω) (s : State δ ω) (p : Parcel δ ω) : Steady s (h.sent s p) := by
  unfold Host.sent Shared.send Shared.enqueue
  rcases s.shared.queue.push p with ⟨_ | _, queue⟩
  · exact .of_eq rfl rfl [.destroyed _, .woken, .refused _] ⟨rfl, rfl⟩ rfl
  · exact .of_eq rfl rfl [.woken, .queued _] ⟨rfl, rfl⟩ rfl

theorem withdrawn (h : Host δ ω) (s : State δ ω) (r : Registration) (sub : Subrequest) (p : Pending δ ω) :
    Steady s (Host.withdrawn (h.recorded s r sub p) (Host.tokenOf s p).slot p.ticket) := by
  have hget : (s.worker.subrequests.insert p).get? s.worker.subrequests.nextSlot = some p := by
    rw [Arena.get?_insert, if_pos rfl]
  have hperm := (Arena.values_remove hget).symm.trans (s.worker.subrequests.values_insert p)
  exact ⟨Nat.add_sub_cancel _ 1, hperm.cons_inv.map Pending.serial, [.destroyed _, .called _ _ _, .called _ _ _],
    ⟨rfl, rfl⟩, rfl⟩

end Steady

theorem Service.steady {slot : Option Nat} {a b : List Nat × State δ ω} (hi : h.MakesChildren)
    (hab : Service h slot a b) : Steady a.2 b.2 ∨ Issues h a.2 b.2 := by
  cases hab with
  | spoken hst => exact .inl (.spoken hst.spoken)
  | data | numbered | offloaded | offloadEnded => exact .inl (.of_eq rfl rfl [] ⟨rfl, rfl⟩ rfl)
  | handed => exact .inl (.of_eq rfl rfl [.handed _] ⟨rfl, rfl⟩ rfl)
  | destroyed => exact .inl (.of_eq rfl rfl [.destroyed _] ⟨rfl, rfl⟩ rfl)
  | sent => exact .inl (.sent _ _ _)
  | issued _ _ _ hp => exact .inr ⟨_, _, _, _, hp, rfl⟩
  | unissued => exact .inl (.withdrawn _ _ _ _ _)
  | @broken X s k r sub p message _ _ _ _ he =>
    obtain ⟨x, hx⟩ := hi r.id sub.toChildRequest (Host.tokenOf s p) (h.rooted s r).shared.world
    have hx : (h.engine (Host.childCall s r sub p) (h.rooted s r).shared.world).1 = .ok x := hx
    rw [hx] at he
    cases he

/-- No turn but that in which a subrequest is issued changes which of them are live. -/
theorem Turn.steady {a b : List Nat × State δ ω} (hi : h.MakesChildren) (hab : Turn h c a b) :
    Steady a.2 b.2 ∨ Issues h a.2 b.2 := by
  cases hab with
  | service hab => exact hab.steady hi
  | untargeted | filtered | seen => exact .inl (.of_eq rfl rfl [] ⟨rfl, rfl⟩ rfl)
  | left | unhandled => exact .inl (.of_eq rfl rfl [.moved _ _] ⟨rfl, rfl⟩ rfl)
  | registered | anchored => exact .inl (.of_eq rfl rfl [.registered _ _ _ _] ⟨rfl, rfl⟩ rfl)
  | removed => exact .inl (.of_eq rfl rfl [.removed _] ⟨rfl, rfl⟩ rfl)
  | read => exact .inl (.of_eq rfl rfl [.called _ _ _] ⟨rfl, rfl⟩ rfl)
  | unread => exact .inl (.of_eq rfl rfl [.moved _ _, .called _ _ _] ⟨rfl, rfl⟩ rfl)
  | handled => exact .inl (.of_eq rfl rfl [.started _ _, .moved _ _] ⟨rfl, rfl⟩ rfl)
  | continued => exact .inl (.of_eq rfl rfl [.started _ _, .ran _, .moved _ _] ⟨rfl, rfl⟩ rfl)
  | ended | closed => exact .inl (.of_eq rfl rfl [.called _ _ _, .moved _ _] ⟨rfl, rfl⟩ rfl)
  | @called p X s k r =>
    rcases Deeds.waited_cases s k r with ⟨heq, -⟩ | ⟨heq, -⟩ <;> rw [heq]
    · exact .inl (.of_eq rfl rfl [.started _ _, .ran _, .moved _ _] ⟨rfl, rfl⟩ rfl)
    · exact .inl (.of_eq rfl rfl [.started _ _, .ran _] ⟨rfl, rfl⟩ rfl)
  | ran => exact .inl (.of_eq rfl rfl [.ran _] ⟨rfl, rfl⟩ rfl)
  | taken htake =>
    obtain ⟨queue, -, rfl⟩ := Shared.pop_of_take htake
    exact .inl (.of_eq rfl rfl [.taken _] ⟨rfl, rfl⟩ rfl)
  | looked htake =>
    obtain ⟨queue, -, rfl⟩ := Shared.pop_of_take_none htake
    exact .inl (.of_eq rfl rfl [] ⟨rfl, rfl⟩ rfl)

/-- Turns complete no subrequest. -/
theorem Turns.completedTokens (hi : h.MakesChildren) {a b : List Nat × State δ ω}
    (hab : Relation.ReflTransGen (Turn h c) a b) :
    b.2.shared.journal.completedTokens = a.2.shared.journal.completedTokens := by
  induction hab with
  | refl => rfl
  | tail _ hbc ih =>
    rcases hbc.steady hi with hst | ⟨r, sub, p, child, -, heq⟩
    · exact hst.completedTokens.trans ih
    · rw [heq]
      exact ih

/-! ### The invariant -/

/-- Each subrequest that has been issued has completed or has its record kept, and only one of both. Those
    whose records are kept count as live, and so does the one whose completion is acted on, if there is one. -/
structure Counted (c : Option (Pending δ ω)) (s : State δ ω) : Prop extends Tokened s where
  live : s.worker.live = s.serials.length + c.toList.length
  once : (s.shared.journal.issuedTokens.map SubToken.serial).Nodup
  each : (s.shared.journal.issuedTokens.map SubToken.serial).Perm
    (s.shared.journal.completedTokens.map SubToken.serial ++ s.serials)

namespace Counted

theorem steady (hs : Counted c s) (hst : Steady s t) (ht : Tokened t) : Counted c t where
  toTokened := ht
  live := by rw [hst.live, hst.serials.length_eq, hs.live]
  once := by
    rw [hst.issuedTokens]
    exact hs.once
  each := by
    rw [hst.issuedTokens, hst.completedTokens]
    exact hs.each.trans (hst.serials.symm.append_left _)

theorem serial_lt (hs : Counted c s) {n : Nat} (hn : n ∈ s.shared.journal.issuedTokens.map SubToken.serial) :
    n < s.worker.nextSerial := by
  obtain ⟨token, htoken, rfl⟩ := List.mem_map.mp hn
  obtain ⟨child, he⟩ := Journal.mem_issuedTokens.mp htoken
  exact hs.issued he

theorem issue (hs : Counted c s) (hp : h.Records s r p) (sub : Subrequest) (child : ReqId) :
    Counted c (Host.childSet (h.recorded s r sub p) (Host.tokenOf s p) p.target child) := by
  let t := Host.childSet (h.recorded s r sub p) (Host.tokenOf s p) p.target child
  have hserials : t.serials.Perm (p.serial :: s.serials) := by
    have hsame : t.serials = (s.worker.subrequests.insert p).values.map Pending.serial :=
      Arena.map_values_modify (f := fun p : Pending δ ω => { p with child := some child }) (g := Pending.serial)
        (fun _ => rfl) _ _
    rw [hsame]
    exact (s.worker.subrequests.values_insert p).map Pending.serial
  have hissued : t.shared.journal.issuedTokens = Host.tokenOf s p :: s.shared.journal.issuedTokens := rfl
  have hcompleted : t.shared.journal.completedTokens = s.shared.journal.completedTokens := rfl
  refine ⟨hs.toTokened.issue hp sub child, ?_, ?_, ?_⟩
  · have hlive : t.worker.live = s.worker.live + 1 := rfl
    rw [hlive, hserials.length_eq, hs.live, List.length_cons]
    omega
  · -- The serial number of the new token has not been given before.
    rw [hissued, List.map_cons, List.nodup_cons]
    refine ⟨fun hm => ?_, hs.once⟩
    have hlt := hs.serial_lt hm
    have hserial : (Host.tokenOf s p).serial = s.worker.nextSerial := hp.serial
    rw [hserial] at hlt
    exact absurd hlt (Nat.lt_irrefl _)
  · rw [hissued, hcompleted, List.map_cons]
    calc (p.serial :: s.shared.journal.issuedTokens.map SubToken.serial).Perm
          (p.serial :: (s.shared.journal.completedTokens.map SubToken.serial ++ s.serials)) := hs.each.cons _
      List.Perm _ (s.shared.journal.completedTokens.map SubToken.serial ++ p.serial :: s.serials) :=
        List.perm_middle.symm
      List.Perm _ (s.shared.journal.completedTokens.map SubToken.serial ++ t.serials) := hserials.symm.append_left _

theorem complete (hs : Counted none s) (hp : s.worker.subrequests.get? token.slot = some p)
    (hserial : p.serial = token.serial) : Counted (some p) (Host.completed s token) := by
  have hserials : s.serials.Perm (p.serial :: (Host.completed s token).serials) :=
    (Arena.values_remove hp).map Pending.serial
  have hcompleted : (Host.completed s token).shared.journal.completedTokens =
      token :: s.shared.journal.completedTokens := rfl
  refine ⟨hs.toTokened.complete token, ?_, hs.once, ?_⟩
  · have hlive : (Host.completed s token).worker.live = s.worker.live := rfl
    rw [hlive, hs.live, hserials.length_eq]
    rfl
  · rw [hcompleted, List.map_cons, ← hserial]
    exact hs.each.trans ((hserials.append_left _).trans List.perm_middle)

theorem uncount (hs : Counted (some p) s) : Counted none (Host.uncounted s) where
  toTokened := hs.toTokened.of_eq rfl (Nat.le_refl _) [] rfl (by simp)
  live := by
    have hlive : (Host.uncounted s).worker.live = s.worker.live - 1 := rfl
    rw [hlive, hs.live]
    exact Nat.add_sub_cancel _ 1
  once := hs.once
  each := hs.each

/-! ### What the count tells -/

theorem live_add (hs : Counted c s) : s.worker.live + s.shared.journal.completedTokens.length =
    s.shared.journal.issuedTokens.length + c.toList.length := by
  have hlength := hs.each.length_eq
  simp only [List.length_map, List.length_append] at hlength
  rw [hs.live, hlength]
  omega

/-- The record of a subrequest whose completion has begun is gone. -/
theorem not_kept (hs : Counted c s) (hm : .completed token ∈ s.shared.journal) {slot : Nat}
    (hp : s.worker.subrequests.get? slot = some p) : p.serial ≠ token.serial := by
  intro hserial
  have hcompleted : token.serial ∈ s.shared.journal.completedTokens.map SubToken.serial :=
    List.mem_map_of_mem (Journal.mem_completedTokens.mpr hm)
  have hkept : p.serial ∈ s.serials := List.mem_map_of_mem (Arena.mem_values hp)
  obtain ⟨-, -, hdisjoint⟩ := List.nodup_append.mp (hs.each.nodup_iff.mp hs.once)
  exact hdisjoint _ hcompleted _ hkept hserial.symm

theorem live_eq_zero (hs : Counted none s)
    (hall : ∀ {token child}, .issued token child ∈ s.shared.journal → .completed token ∈ s.shared.journal) :
    s.worker.live = 0 := by
  suffices hnil : s.serials = [] by rw [hs.live, hnil]; rfl
  refine List.eq_nil_iff_forall_not_mem.mpr ?_
  intro n hn
  obtain ⟨p, hp, rfl⟩ := List.mem_map.mp hn
  -- The token under which the record is kept has been issued, so it has completed.
  obtain ⟨token, htoken, hserial⟩ := List.mem_map.mp (hs.each.symm.subset (List.mem_append_right _ hn))
  obtain ⟨child, he⟩ := Journal.mem_issuedTokens.mp htoken
  have hcompleted : token.serial ∈ s.shared.journal.completedTokens.map SubToken.serial :=
    List.mem_map_of_mem (Journal.mem_completedTokens.mpr (hall he))
  obtain ⟨-, -, hdisjoint⟩ := List.nodup_append.mp (hs.each.nodup_iff.mp hs.once)
  exact hdisjoint _ hcompleted _ hn hserial

end Counted

theorem Turn.counted {a b : List Nat × State δ ω} (hi : h.MakesChildren) (hs : Counted c a.2) (hab : Turn h c a b) :
    Counted c b.2 := by
  have ht : Tokened b.2 :=
    Deeds.invariant (P := fun a => Tokened a.2) (fun hs hab => hab.tokened hs) hs.toTokened hab.deeds
  rcases hab.steady hi with hst | ⟨r, sub, p, child, hp, heq⟩
  · exact hs.steady hst ht
  · rw [heq]
    exact hs.issue hp sub child

theorem Turns.counted {a b : List Nat × State δ ω} (hi : h.MakesChildren) (hs : Counted c a.2)
    (hab : Relation.ReflTransGen (Turn h c) a b) : Counted c b.2 := by
  induction hab with
  | refl => exact hs
  | tail _ hbc ih => exact hbc.counted hi ih

theorem Reachable.counted (hs : Reachable h s) (hi : h.MakesChildren) : Counted none s :=
  hs.by_turns (P := Counted) (fun _ _ _ _ => ⟨⟨nofun, nofun, nofun⟩, rfl, .nil, .nil⟩)
    (fun _ hs hab => hab.counted hi hs) (fun hp hserial hs => hs.complete hp hserial) fun hs => hs.uncount

/-! ### Issuing -/

namespace Host

theorem steady_log (notice : Log.Notice) (req : Option ReqId) : (h.log notice req).Leaves (Steady s) s :=
  Leaves.mono (.log notice req : (h.log notice req).Leaves (Spoken none s) s) fun _ => .spoken

theorem steady_runPosted (r : Registration) : (h.runPosted r).Leaves (Steady s) s := by
  unfold runPosted
  split
  · refine Leaves.bind (h.leaves_call.mpr (.of_eq rfl rfl [.called _ _ _] ⟨rfl, rfl⟩ rfl)) ?_
    intro posted t _ ht
    refine .forM (fun task u hu => .discard (hu.trans ?_)) posted ht
    have hhanded : Steady u (handed u) := .of_eq rfl rfl [.handed _] ⟨rfl, rfl⟩ rfl
    exact hhanded.trans (.sent h _ ⟨u.shared.nextTicket, .task task⟩)
  · exact .pure (.refl s)

/-- A child that has been made for a subrequest is the one by whose token the call is answered. -/
theorem createChild_tokens {sub : Subrequest} {x : Nat} {reply : Except Error SubToken}
    (he : (h.createChild r sub x token).exec s = (.ok reply, t)) :
    t.shared.journal.completedTokens = s.shared.journal.completedTokens ∧
      t.shared.journal.issuedTokens = reply.toOption.toList ++ s.shared.journal.issuedTokens := by
  obtain ⟨answer, u, hcall, hrest⟩ := exec_bind_eq_ok he
  have hsu : Steady s u := by
    have hask : (h.call (some r.serial) (.subrequest r.id sub.toChildRequest token)).Leaves (Steady s) s :=
      h.leaves_call.mpr (.of_eq rfl rfl [.called _ _ _] ⟨rfl, rfl⟩ rfl)
    exact hask.exec hcall
  cases answer with
  | ok child =>
    obtain ⟨_, v, hset, hrest⟩ := exec_bind_eq_ok hrest
    obtain ⟨_, w, hposted, hend⟩ := exec_bind_eq_ok hrest
    cases hset
    cases hend
    have hvt := (steady_runPosted (h := h) r).exec hposted
    have hissued := congrArg (token :: ·) hsu.issuedTokens
    exact ⟨hvt.completedTokens.trans hsu.completedTokens, hvt.issuedTokens.trans hissued⟩
  | error cause =>
    obtain ⟨_, v, hlog, hend⟩ := exec_bind_eq_ok (a := h.log (.subrequestNotCreated cause) (some r.id)) hrest
    cases hend
    have hvt := (steady_log (h := h) (s := withdrawn u token.slot x) _ _).exec hlog
    exact ⟨hvt.completedTokens.trans hsu.completedTokens, hvt.issuedTokens.trans hsu.issuedTokens⟩

/-- A call that issues a subrequest is answered by its token; one that fails has issued none. -/
theorem sendRequest_tokens {sub : Subrequest} {done : Completion → Callback δ ω} {reply : Except Error SubToken}
    (he : (h.sendRequest k sub done).exec s = (.ok reply, t)) :
    t.shared.journal.completedTokens = s.shared.journal.completedTokens ∧
      t.shared.journal.issuedTokens = reply.toOption.toList ++ s.shared.journal.issuedTokens := by
  obtain ⟨r, v, hr, hrest⟩ := exec_bind_eq_ok he
  obtain ⟨-, rfl⟩ : s.worker.requests.get? k = some r ∧ s = v := (exec_registration_eq_ok hr).imp_right Eq.symm
  rw [exec_bind_of_ok (exec_hand _)] at hrest
  dsimp only at hrest
  split at hrest
  · cases hrest
    exact ⟨rfl, rfl⟩
  · rw [exec_bind_of_ok exec_freshSerial] at hrest
    obtain ⟨root, u, hroot, hcreate⟩ := exec_bind_eq_ok hrest
    rw [exec_bind_of_ok (exec_addPending u _)] at hcreate
    have hsu : Steady s u := by
      have hask : Action.Leaves
          ((h.call (some r.serial) (.mainOf r.id)).onPanic (Action.record (.destroyed s.shared.nextTicket)))
          (Steady s) (numbered (handed s)) := by
        refine .onPanic (h.leaves_call.mpr ?_) fun v hv => ?_
        · exact .of_eq rfl rfl [.called _ _ _, .handed _] ⟨rfl, rfl⟩ rfl
        · exact hv.trans (.of_eq rfl rfl [.destroyed _] ⟨rfl, rfl⟩ rfl)
      exact hask.exec hroot
    obtain ⟨hcompleted, hissued⟩ := createChild_tokens hcreate
    exact ⟨hcompleted.trans hsu.completedTokens, hissued.trans (congrArg (_ ++ ·) hsu.issuedTokens)⟩

/-- The completion of a live subrequest, whatever it comes to, takes it out of the count once, and its
    callback is run once at most. -/
structure ReleasesOnce (h : Host δ ω) (s : State δ ω) (token : SubToken) (p : Pending δ ω) : Prop where
  counts : 0 < s.worker.live
  /-- The callback may issue further subrequests, which count from then on. -/
  releases : ∀ completion, (h.subrequestDone token completion).Leaves (fun t =>
    t.shared.journal.completedTokens = token :: s.shared.journal.completedTokens ∧
    t.worker.live + 1 + s.shared.journal.issuedTokens.length =
      s.worker.live + t.shared.journal.issuedTokens.length) s
  runs : ∀ {u}, Steps h s u → u.shared.journal.count (.ran p.ticket) ≤ 1 ∧
    u.shared.journal.begun.count p.ticket ≤ 1

end Host

theorem Reachable.releasesOnce (hs : Reachable h s) (hi : h.MakesChildren)
    (hp : s.worker.subrequests.get? token.slot = some p) (hserial : p.serial = token.serial) :
    h.ReleasesOnce s token p where
  counts := by
    rw [(hs.counted hi).live]
    exact Nat.lt_of_lt_of_le (List.length_pos_of_mem (List.mem_map_of_mem (Arena.mem_values hp))) (Nat.le_add_right _ _)
  releases completion := by
    refine (Completes.of_subrequestDone (h := h) hs.course hp hserial completion).mono ?_
    intro t ht
    obtain @⟨u, -, -, hu⟩ := ht
    have hcompleted : (Host.uncounted u).shared.journal.completedTokens =
        token :: s.shared.journal.completedTokens := Turns.completedTokens hi hu
    have hbefore := (hs.counted hi).live_add
    have hafter := (Turns.counted hi ((hs.counted hi).complete hp hserial) hu).uncount.live_add
    rw [hcompleted, List.length_cons] at hafter
    simp only [Option.toList_none, List.length_nil, Nat.add_zero] at hbefore hafter
    exact ⟨hcompleted, by omega⟩
  runs hu := by
    have hacc := (hs.steps hu).accounted
    have hspent := hacc.count_spent_le p.ticket
    have hbegun := hacc.begun p.ticket
    rw [Journal.count_spent] at hspent
    omega

/-- Each subrequest completes once, and the count of the live ones is exact, as long as the engine never panics
    when it is asked for a child, whatever else it and the logger do. -/
theorem Reachable.live_law (hs : Reachable h s) (hi : h.MakesChildren) :
    (∀ {X u}, Turns h none ([], s) X u →
      u.shared.journal.completedTokens.length ≤ u.shared.journal.issuedTokens.length ∧
      ∀ tick, (h.perform tick .liveSubrequests).exec u =
        (.ok (u.shared.journal.issuedTokens.length - u.shared.journal.completedTokens.length), u)) ∧
    (∀ {k sub done reply} {u t : State δ ω}, (h.sendRequest k sub done).exec u = (.ok reply, t) →
      t.shared.journal.completedTokens = u.shared.journal.completedTokens ∧
      t.shared.journal.issuedTokens = reply.toOption.toList ++ u.shared.journal.issuedTokens) ∧
    (∀ {token p}, s.worker.subrequests.get? token.slot = some p → p.serial = token.serial →
      h.ReleasesOnce s token p) ∧
    (∀ {token u}, .completed token ∈ s.shared.journal → Steps h s u → ∀ completion,
      (h.subrequestDone token completion).exec u =
        (.error (.panic ("subrequest completion fired twice or for an unknown token: " ++ token.text)), u)) ∧
    ((∀ {token child}, .issued token child ∈ s.shared.journal → .completed token ∈ s.shared.journal) →
      s.worker.live = 0) := by
  refine ⟨fun {X u} hu => ?_, Host.sendRequest_tokens, hs.releasesOnce hi, fun {token u} hm hu completion => ?_,
    (hs.counted hi).live_eq_zero⟩
  · have hlive := (Turns.counted hi (hs.counted hi) hu).live_add
    simp only [Option.toList_none, List.length_nil, Nat.add_zero] at hlive
    refine ⟨by omega, fun tick => ?_⟩
    show (Except.ok u.worker.live, u) = _
    rw [← hlive, Nat.add_sub_cancel]
  · have hm : .completed token ∈ u.shared.journal := (Deeds.grows (hu.deeds hs)).subset hm
    exact Host.exec_subrequestDone_of_dead (fun p => ((hs.steps hu).counted hi).not_kept hm) completion

/-- A subrequest has been issued in the slot of another one, which has completed. -/
theorem live_law_when_slot_reused :
    let h : Host Unit Unit := .prompt ⟨9⟩ (.waiting fun _ => .finish (.ok .ok))
    ∃ s, Reachable h s ∧ s.worker.live = 1 ∧ (s.worker.subrequests.get? 0).map Pending.serial = some 4 ∧
      (h.subrequestDone ⟨0, 2⟩ ⟨⟨9⟩, 0, 200, []⟩).exec s = (.error
        (.panic ("subrequest completion fired twice or for an unknown token: " ++ SubToken.text ⟨0, 2⟩)), s) := by
  intro h
  let completion : Completion := ⟨⟨9⟩, 0, 200, []⟩
  obtain ⟨s, hs, hlive, hslot, hm⟩ : ∃ s, Reachable h s ∧ s.worker.live = 1 ∧
      (s.worker.subrequests.get? 0).map Pending.serial = some 4 ∧ .completed ⟨0, 2⟩ ∈ s.shared.journal :=
    ⟨((h.run (.hook (.contentPhase ⟨1⟩) fun _ => .hook (.subrequestDone ⟨0, 2⟩ completion) fun _ =>
        .hook (.contentPhase ⟨2⟩) fun _ => .done)).exec State.fresh).2, Reachable.fresh.run _,
      by decide +kernel, by decide +kernel, by decide +kernel⟩
  have hi : h.MakesChildren := fun _ _ _ _ => ⟨_, rfl⟩
  obtain ⟨-, -, -, htwice, -⟩ := Reachable.live_law hs hi
  exact ⟨s, hs, hlive, hslot, htwice hm .refl completion⟩

end EngineBridge
