import EngineBridge.Proofs.Reach

/-! Tokens of subrequests. The serial number of a token belongs to one subrequest for good, so a token by
    which a child has been issued never finds the record of another subrequest, and finds its own record
    with the child that has been made. -/

namespace EngineBridge
open EngineBridge.Action Registry
variable {δ ω : Type} {h : Host δ ω} {s t : State δ ω} {r : Registration} {p : Pending δ ω}

/-- The serial numbers of subrequests have been given, and an issued token finds its own record only. -/
structure Tokened (s : State δ ω) : Prop where
  kept : ∀ {slot p}, s.worker.subrequests.get? slot = some p → p.serial < s.worker.nextSerial
  issued : ∀ {token child}, .issued token child ∈ s.shared.journal → token.serial < s.worker.nextSerial
  child : ∀ {token child slot p}, .issued token child ∈ s.shared.journal →
    s.worker.subrequests.get? slot = some p → p.serial = token.serial → slot = token.slot ∧ p.child = some child

namespace Tokened

/-- Changes that keep records of subrequests or remove some, and issue none. -/
theorem of_sub (hs : Tokened s)
    (hsub : ∀ {slot p}, t.worker.subrequests.get? slot = some p → s.worker.subrequests.get? slot = some p)
    (hnext : s.worker.nextSerial ≤ t.worker.nextSerial)
    (hj : ∀ {token child}, .issued token child ∈ t.shared.journal → .issued token child ∈ s.shared.journal) :
    Tokened t where
  kept hp := Nat.lt_of_lt_of_le (hs.kept (hsub hp)) hnext
  issued he := Nat.lt_of_lt_of_le (hs.issued (hj he)) hnext
  child he hp := hs.child (hj he) (hsub hp)

/-- Changes that leave the subrequests as they are. -/
theorem of_eq (hs : Tokened s) (hsub : t.worker.subrequests = s.worker.subrequests)
    (hnext : s.worker.nextSerial ≤ t.worker.nextSerial) (es : Journal)
    (hj : t.shared.journal = es ++ s.shared.journal) (hes : ∀ {token child}, .issued token child ∉ es) : Tokened t := by
  refine hs.of_sub (fun hp => hsub ▸ hp) hnext fun he => ?_
  rw [hj] at he
  exact (List.mem_append.mp he).resolve_left hes

theorem mem_recorded {sub : Subrequest} {token : SubToken} {child : ReqId}
    (he : .issued token child ∈ (h.recorded s r sub p).shared.journal) : .issued token child ∈ s.shared.journal :=
  (List.mem_cons.mp ((List.mem_cons.mp he).resolve_left nofun)).resolve_left nofun

/-- A record under a new serial number is found by no token that has been issued before. -/
theorem recorded (hs : Tokened s) (hp : h.Records s r p) (sub : Subrequest) : Tokened (h.recorded s r sub p) where
  kept {slot q} hq := by
    rw [Host.get?_recorded] at hq
    split at hq
    · cases hq
      rw [hp.serial]
      exact Nat.lt_succ_self _
    · exact Nat.lt_succ_of_lt (hs.kept hq)
  issued he := Nat.lt_succ_of_lt (hs.issued (mem_recorded he))
  child {token child slot q} he hq hserial := by
    rw [Host.get?_recorded] at hq
    split at hq
    · cases hq
      have hlt := hs.issued (mem_recorded he)
      rw [← hserial, hp.serial] at hlt
      exact absurd hlt (Nat.lt_irrefl _)
    · exact hs.child (mem_recorded he) hq hserial

/-- The token by which a child is issued finds the record that has just been kept. -/
theorem issue (hs : Tokened s) (hp : h.Records s r p) (sub : Subrequest) (child : ReqId) :
    Tokened (Host.childSet (h.recorded s r sub p) (Host.tokenOf s p) p.target child) := by
  have get : ∀ {slot q},
      (Host.childSet (h.recorded s r sub p) (Host.tokenOf s p) p.target child).worker.subrequests.get? slot = some q →
        (slot = (Host.tokenOf s p).slot ∧ q = { p with child := some child }) ∨
          s.worker.subrequests.get? slot = some q := by
    intro slot q hq
    rw [Host.get?_childSet, Host.get?_recorded] at hq
    split at hq
    · next hslot => exact .inl ⟨hslot, (Option.some.inj hq).symm⟩
    · exact .inr hq
  refine ⟨fun hq => ?_, fun he => ?_, fun {token child' slot q} he hq hserial => ?_⟩
  · rcases get hq with ⟨-, rfl⟩ | hq
    · exact Nat.lt_succ_of_le (Nat.le_of_eq hp.serial)
    · exact Nat.lt_succ_of_lt (hs.kept hq)
  · rcases List.mem_cons.mp he with heq | he
    · cases heq
      exact Nat.lt_succ_of_le (Nat.le_of_eq hp.serial)
    · exact (hs.recorded hp sub).issued he
  · rcases get hq with ⟨hslot, rfl⟩ | hq
    · rcases List.mem_cons.mp he with heq | he
      · cases heq
        exact ⟨hslot, rfl⟩
      · -- The serial number of the new record has not been issued before.
        have hlt := hs.issued (mem_recorded he)
        rw [← hserial] at hlt
        exact absurd hlt (Nat.not_lt_of_ge (Nat.le_of_eq hp.serial.symm))
    · rcases List.mem_cons.mp he with heq | he
      · cases heq
        have hlt := hs.kept hq
        rw [hserial] at hlt
        exact absurd hlt (Nat.not_lt_of_ge (Nat.le_of_eq hp.serial.symm))
      · exact hs.child (mem_recorded he) hq hserial

/-- The record of a subrequest is removed again, the engine having refused to make its child. -/
theorem withdraw (hs : Tokened s) (hp : h.Records s r p) (sub : Subrequest) :
    Tokened (Host.withdrawn (h.recorded s r sub p) (Host.tokenOf s p).slot p.ticket) :=
  (hs.recorded hp sub).of_sub (fun hq => (Arena.get?_of_remove hq).2) (Nat.le_refl _) fun he =>
    (List.mem_cons.mp he).resolve_left nofun

/-- The record of a subrequest is removed for its completion. -/
theorem complete (hs : Tokened s) (token : SubToken) : Tokened (Host.completed s token) :=
  hs.of_sub (fun hq => (Arena.get?_of_remove hq).2) (Nat.le_refl _) fun he =>
    (List.mem_cons.mp he).resolve_left nofun

end Tokened

theorem Service.tokened {slot : Option Nat} {a b : List Nat × State δ ω} (hs : Tokened a.2)
    (hab : Service h slot a b) : Tokened b.2 := by
  cases hab with
  | spoken hst =>
    obtain ⟨es, hes, ht⟩ := hst.spoken.entries
    have hworker := hst.spoken.worker
    refine hs.of_eq (by rw [hworker]) (Nat.le_of_eq (by rw [hworker])) es hes fun he => ?_
    obtain ⟨ht, -⟩ := ht _ he
    cases ht
  | data | offloaded | offloadEnded => exact hs.of_eq rfl (Nat.le_refl _) [] rfl (by simp)
  | numbered => exact hs.of_eq rfl (Nat.le_succ _) [] rfl (by simp)
  | handed => exact hs.of_eq rfl (Nat.le_refl _) [.handed _] rfl (by simp)
  | destroyed => exact hs.of_eq rfl (Nat.le_refl _) [.destroyed _] rfl (by simp)
  | @sent X s p =>
    show Tokened { s with shared := (s.shared.send h.waker p).2 }
    unfold Shared.send Shared.enqueue
    rcases s.shared.queue.push p with ⟨p' | _, queue⟩
    · exact hs.of_eq rfl (Nat.le_refl _) [.destroyed _, .woken, .refused _] rfl (by simp)
    · exact hs.of_eq rfl (Nat.le_refl _) [.woken, .queued _] rfl (by simp)
  | issued hk hr ho hp he => exact hs.issue hp _ _
  | unissued hk hr ho hp he => exact hs.withdraw hp _
  | broken hk hr ho hp he => exact hs.recorded hp _

theorem Deed.tokened {a b : List Nat × State δ ω} (hs : Tokened a.2) (hab : Deed h a b) : Tokened b.2 := by
  cases hab with
  | service hab => exact hab.tokened hs
  | moved => exact hs.of_eq rfl (Nat.le_refl _) [.moved _ _] rfl (by simp)
  | ended => exact hs.of_eq rfl (Nat.le_refl _) [.called _ _ _, .moved _ _] rfl (by simp)
  | read => exact hs.of_eq rfl (Nat.le_refl _) [.called _ _ _] rfl (by simp)
  | unread => exact hs.of_eq rfl (Nat.le_refl _) [.moved _ _, .called _ _ _] rfl (by simp)
  | registered => exact hs.of_eq rfl (Nat.le_succ _) [.registered _ _ _ _] rfl (by simp)
  | removed => exact hs.of_eq rfl (Nat.le_refl _) [.removed _] rfl (by simp)
  | started => exact hs.of_eq rfl (Nat.le_refl _) [.started _ _] rfl (by simp)
  | begun => exact hs.of_eq rfl (Nat.le_refl _) [.started _ _, .ran _] rfl (by simp)
  | ran => exact hs.of_eq rfl (Nat.le_refl _) [.ran _] rfl (by simp)
  | taken htake =>
    obtain ⟨queue, -, rfl⟩ := Shared.pop_of_take htake
    exact hs.of_eq rfl (Nat.le_refl _) [.taken _] rfl (by simp)
  | looked htake =>
    obtain ⟨queue, -, rfl⟩ := Shared.pop_of_take_none htake
    exact hs.of_eq rfl (Nat.le_refl _) [] rfl (by simp)
  | completed => exact hs.complete _
  | uncounted | untargeted | filtered | seen => exact hs.of_eq rfl (Nat.le_refl _) [] rfl (by simp)

theorem Reachable.tokened (hs : Reachable h s) : Tokened s :=
  hs.invariant (P := fun a => Tokened a.2) (fun _ _ _ _ => ⟨nofun, nofun, nofun⟩)
    fun _ hs hab => hab.tokened hs

end EngineBridge
