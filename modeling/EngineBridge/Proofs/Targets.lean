import EngineBridge.Proofs.Acts
import EngineBridge.Proofs.Live

/-! Where children are sent. The peer that a subrequest was given as its target is kept by the name of its child,
    beside the record of the subrequest. It comes and goes with that record, as long as the engine gives no child
    the name of another one whose subrequest has not completed, and is forgotten before only if the name is
    released. The choice of a peer depends on it alone if there is one, and on no other one if there is none. -/

namespace EngineBridge
open EngineBridge.Action Registry
variable {δ ω : Type} {h : Host δ ω} {gone : SubToken → ReqId → Prop} {s t : State δ ω} {r : Registration}
  {p : Pending δ ω} {sub : Subrequest} {token : SubToken} {child : ReqId}

/-! ### Names of children -/

/-- A child that has been made has a name that no other child has whose subrequest has not completed. -/
def Entry.Fresh (j : Journal) : Entry → Prop
  | .issued _ child => ∀ {token}, .issued token child ∈ j → .completed token ∈ j
  | _ => True

/-- The name of a child that has been made. -/
def Entry.child? : Entry → Option ReqId
  | .issued _ child => some child
  | _ => none

namespace Journal
variable {j j' : Journal}

/-- The engine has given no child the name of another one whose subrequest had not completed then. -/
def FreshChildren : Journal → Prop
  | [] => True
  | e :: j => e.Fresh j ∧ FreshChildren j

theorem FreshChildren.of_suffix (hj : j.FreshChildren) (hs : j' <:+ j) : j'.FreshChildren := by
  obtain ⟨es, rfl⟩ := hs
  induction es with
  | nil => exact hj
  | cons e es ih => exact ih hj.2

/-- Two children of one name belong to one subrequest, unless one of their subrequests has completed. -/
theorem FreshChildren.unique (hj : j.FreshChildren) {token token' : SubToken} (hm : .issued token child ∈ j)
    (hm' : .issued token' child ∈ j) (hc : .completed token ∉ j) (hc' : .completed token' ∉ j) : token = token' := by
  induction j with
  | nil => cases hm
  | cons e j ih =>
    obtain ⟨hfresh, hj⟩ := hj
    have old : ∀ {token : SubToken}, .completed token ∉ e :: j → .completed token ∉ j := fun hc hm =>
      hc (List.mem_cons_of_mem _ hm)
    rcases List.mem_cons.mp hm with rfl | hold <;> rcases List.mem_cons.mp hm' with heq | hold'
    · exact (Entry.issued.inj heq).1.symm
    · exact absurd (hfresh hold') (old hc')
    · subst heq
      exact absurd (hfresh hold) (old hc)
    · exact ih hj hold hold' (old hc) (old hc')

/-- It is enough that no name is given twice. -/
theorem FreshChildren.of_nodup (hn : (j.filterMap Entry.child?).Nodup) : j.FreshChildren := by
  induction j with
  | nil => trivial
  | cons e j ih =>
    cases e with
    | issued token child =>
      have hcons : (child :: j.filterMap Entry.child?).Nodup := hn
      obtain ⟨hnew, hn⟩ := List.nodup_cons.mp hcons
      exact ⟨fun hm => (hnew (List.mem_filterMap.mpr ⟨_, hm, rfl⟩)).elim, ih hn⟩
    | _ => exact ⟨trivial, ih hn⟩

end Journal

/-! ### Records and targets -/

theorem Host.get?_issued (h : Host δ ω) (s : State δ ω) (r : Registration) (sub : Subrequest) (p : Pending δ ω)
    (child : ReqId) (slot : Nat) :
    (childSet (h.recorded s r sub p) (tokenOf s p) p.target child).worker.subrequests.get? slot =
      if slot = (tokenOf s p).slot then some { p with child := some child } else s.worker.subrequests.get? slot := by
  rw [get?_childSet, get?_recorded]
  split <;> rfl

/-- A record that has been kept and removed again leaves none behind. -/
theorem Host.get?_withdrawn (h : Host δ ω) (s : State δ ω) (r : Registration) (sub : Subrequest) (p : Pending δ ω)
    (slot : Nat) : (withdrawn (h.recorded s r sub p) (tokenOf s p).slot p.ticket).worker.subrequests.get? slot =
      s.worker.subrequests.get? slot := by
  show (Arena.remove _ _).get? slot = _
  rw [Arena.get?_remove, get?_recorded]
  split
  · next hslot =>
    rw [hslot]
    exact (Arena.get?_nextSlot _).symm
  · rfl

/-- A subrequest with a target waits for a child of this name, and the name is not gone. -/
def State.Aims (gone : SubToken → ReqId → Prop) (s : State δ ω) (child : ReqId) (peer : Peer) : Prop :=
  ∃ slot p, s.worker.subrequests.get? slot = some p ∧ p.child = some child ∧ p.target = some peer ∧
    ¬gone ⟨slot, p.serial⟩ child

/-- The targets that are kept are those of the subrequests that wait for children, apart from those children whose
    names are gone. -/
structure Targeted (gone : SubToken → ReqId → Prop) (s : State δ ω) : Prop extends Tokened s where
  past : ∀ {token}, .completed token ∈ s.shared.journal → token.serial < s.worker.nextSerial
  spent : ∀ {token child}, gone token child → token.serial < s.worker.nextSerial
  made : ∀ {slot p child}, s.worker.subrequests.get? slot = some p → p.child = some child →
    .issued ⟨slot, p.serial⟩ child ∈ s.shared.journal
  waits : ∀ {slot p}, s.worker.subrequests.get? slot = some p → .completed ⟨slot, p.serial⟩ ∉ s.shared.journal
  aims : ∀ {child peer}, s.worker.targets[child]? = some peer ↔ s.Aims gone child peer

namespace Targeted

/-- Changes that leave the records of the subrequests as they are. -/
theorem of_eq (hs : Targeted gone s) (hsub : ∀ slot, t.worker.subrequests.get? slot = s.worker.subrequests.get? slot)
    (htargets : t.worker.targets = s.worker.targets) (hnext : s.worker.nextSerial ≤ t.worker.nextSerial) (es : Journal)
    (hj : t.shared.journal = es ++ s.shared.journal) (hes : ∀ e ∈ es, e.unrelated) : Targeted gone t := by
  have old : ∀ {e : Entry}, e.unrelated = false → (e ∈ t.shared.journal ↔ e ∈ s.shared.journal) := by
    intro e he
    rw [hj, List.mem_append]
    refine ⟨fun hm => hm.resolve_left fun hm => ?_, .inr⟩
    have := hes e hm
    rw [he] at this
    cases this
  refine ⟨hs.toTokened.of_sub (fun hp => hsub _ ▸ hp) hnext fun hm => (old rfl).mp hm, fun hm => ?_, fun hg => ?_,
    fun hp hc => ?_, fun hp hm => ?_, fun {child peer} => ?_⟩
  · exact Nat.lt_of_lt_of_le (hs.past ((old rfl).mp hm)) hnext
  · exact Nat.lt_of_lt_of_le (hs.spent hg) hnext
  · exact (old rfl).mpr (hs.made (hsub _ ▸ hp) hc)
  · exact hs.waits (hsub _ ▸ hp) ((old rfl).mp hm)
  · rw [htargets, hs.aims]
    unfold State.Aims
    simp only [hsub]

/-- No two subrequests wait for children of one name. -/
theorem unique (hs : Targeted gone s) (hj : s.shared.journal.FreshChildren) {slot slot' : Nat} {p p' : Pending δ ω}
    (hp : s.worker.subrequests.get? slot = some p) (hp' : s.worker.subrequests.get? slot' = some p')
    (hc : p.child = some child) (hc' : p'.child = some child) : slot = slot' :=
  congrArg SubToken.slot (hj.unique (hs.made hp hc) (hs.made hp' hc') (hs.waits hp) (hs.waits hp'))

/-- What has been recorded under a new serial number has not completed, and its child is not gone. -/
theorem not_past (hs : Targeted gone s) (hp : h.Records s r p) (slot : Nat) :
    .completed ⟨slot, p.serial⟩ ∉ s.shared.journal ∧ ∀ child, ¬gone ⟨slot, p.serial⟩ child := by
  constructor
  · exact fun hm => absurd (hs.past hm) (Nat.not_lt_of_ge (Nat.le_of_eq hp.serial.symm))
  · exact fun _ hg => absurd (hs.spent hg) (Nat.not_lt_of_ge (Nat.le_of_eq hp.serial.symm))

theorem completed_recorded (sub : Subrequest) : .completed token ∈ (h.recorded s r sub p).shared.journal ↔
    .completed token ∈ s.shared.journal := by
  show .completed token ∈ (.called _ _ _ :: .called _ _ _ :: s.shared.journal : Journal) ↔ _
  simp

theorem issued_recorded : .issued token child ∈ (h.recorded s r sub p).shared.journal ↔
    .issued token child ∈ s.shared.journal := by
  show .issued token child ∈ (.called _ _ _ :: .called _ _ _ :: s.shared.journal : Journal) ↔ _
  simp

/-- A subrequest is recorded, and its child is not made yet. -/
theorem record (hs : Targeted gone s) (hp : h.Records s r p) (sub : Subrequest) :
    Targeted gone (h.recorded s r sub p) := by
  refine ⟨hs.toTokened.recorded hp sub, fun hm => ?_, fun hg => Nat.lt_succ_of_lt (hs.spent hg), fun hq hc => ?_,
    fun hq hm => ?_, fun {child peer} => ?_⟩
  · exact Nat.lt_succ_of_lt (hs.past ((completed_recorded _).mp hm))
  · rw [Host.get?_recorded] at hq
    split at hq
    · cases hq
      rw [hp.child] at hc
      cases hc
    · exact issued_recorded.mpr (hs.made hq hc)
  · rw [completed_recorded sub] at hm
    rw [Host.get?_recorded] at hq
    split at hq
    · cases hq
      exact (hs.not_past hp _).1 hm
    · exact hs.waits hq hm
  · refine hs.aims.trans ⟨?_, ?_⟩
    · rintro ⟨slot, q, hq, hrest⟩
      refine ⟨slot, q, ?_, hrest⟩
      rw [Host.get?_recorded, if_neg, hq]
      rintro rfl
      rw [Host.tokenOf, Arena.get?_nextSlot] at hq
      cases hq
    · rintro ⟨slot, q, hq, hc, hrest⟩
      rw [Host.get?_recorded] at hq
      split at hq
      · cases hq
        rw [hp.child] at hc
        cases hc
      · exact ⟨slot, q, hq, hc, hrest⟩

/-- A subrequest is recorded, and its child is made under a name that no other child has for which a subrequest
    waits. -/
theorem issue (hs : Targeted gone s) (hp : h.Records s r p)
    (hj : (Host.childSet (h.recorded s r sub p) (Host.tokenOf s p) p.target child).shared.journal.FreshChildren) :
    Targeted gone (Host.childSet (h.recorded s r sub p) (Host.tokenOf s p) p.target child) := by
  let t := Host.childSet (h.recorded s r sub p) (Host.tokenOf s p) p.target child
  have hself : t.worker.subrequests.get? (Host.tokenOf s p).slot = some { p with child := some child } := by
    rw [Host.get?_issued, if_pos rfl]
  have hothers : ∀ {slot q}, s.worker.subrequests.get? slot = some q → t.worker.subrequests.get? slot = some q := by
    intro slot q hq
    rw [Host.get?_issued, if_neg, hq]
    rintro rfl
    rw [Host.tokenOf, Arena.get?_nextSlot] at hq
    cases hq
  have hcases : ∀ {slot q}, t.worker.subrequests.get? slot = some q →
      slot = (Host.tokenOf s p).slot ∧ q = { p with child := some child } ∨ s.worker.subrequests.get? slot = some q := by
    intro slot q hq
    rw [Host.get?_issued] at hq
    split at hq
    · next hslot => exact .inl ⟨hslot, (Option.some.inj hq).symm⟩
    · exact .inr hq
  have hcompleted : ∀ {token}, .completed token ∈ t.shared.journal ↔ .completed token ∈ s.shared.journal := by
    intro token
    rw [← completed_recorded (h := h) (s := s) (r := r) (p := p) sub]
    exact List.mem_cons.trans (or_iff_right (by simp))
  have hissued : ∀ {token c}, .issued token c ∈ s.shared.journal → .issued token c ∈ t.shared.journal := fun hm =>
    List.mem_cons_of_mem _ (issued_recorded.mpr hm)
  -- The name is that of no other child for which a subrequest waits.
  have hnew : ∀ {slot q}, s.worker.subrequests.get? slot = some q → q.child ≠ some child := by
    intro slot q hq hc
    exact hs.waits hq ((completed_recorded _).mp (hj.1 (issued_recorded.mpr (hs.made hq hc))))
  have hnone : s.worker.targets[child]? = none := by
    rw [Option.eq_none_iff_forall_ne_some]
    intro peer hpeer
    obtain ⟨slot, q, hq, hc, -⟩ := hs.aims.mp hpeer
    exact hnew hq hc
  have htargets : ∀ c, t.worker.targets[c]? = if child = c then p.target else s.worker.targets[c]? := by
    intro c
    have hold : (h.recorded s r sub p).worker.targets = s.worker.targets := rfl
    rw [Host.targets_childSet, hold]
    split
    · next hc => rw [← hc, hnone, Option.or_none]
    · rfl
  refine ⟨hs.toTokened.issue hp sub child, fun hm => ?_, fun hg => Nat.lt_succ_of_lt (hs.spent hg), fun hq hc => ?_,
    fun hq hm => ?_, fun {c peer} => ?_⟩
  · exact Nat.lt_succ_of_lt (hs.past (hcompleted.mp hm))
  · rcases hcases hq with ⟨rfl, rfl⟩ | hq
    · cases hc
      exact List.mem_cons_self
    · exact hissued (hs.made hq hc)
  · rcases hcases hq with ⟨rfl, rfl⟩ | hq
    · exact (hs.not_past hp _).1 (hcompleted.mp hm)
    · exact hs.waits hq (hcompleted.mp hm)
  · show t.worker.targets[c]? = some peer ↔ t.Aims gone c peer
    rw [htargets]
    split
    · next hc =>
      subst hc
      constructor
      · exact fun hpeer => ⟨_, _, hself, rfl, hpeer, (hs.not_past hp _).2 _⟩
      · rintro ⟨slot, q, hq, hc, htarget, -⟩
        rcases hcases hq with ⟨-, rfl⟩ | hq
        · exact htarget
        · exact absurd hc (hnew hq)
    · next hne =>
      refine hs.aims.trans ⟨?_, ?_⟩
      · rintro ⟨slot, q, hq, hrest⟩
        exact ⟨slot, q, hothers hq, hrest⟩
      · rintro ⟨slot, q, hq, hc, hrest⟩
        rcases hcases hq with ⟨-, rfl⟩ | hq
        · exact absurd (Option.some.inj hc) hne
        · exact ⟨slot, q, hq, hc, hrest⟩

theorem branching (hs : Targeted gone s) (hst : Branching h False s t) (hj : t.shared.journal.FreshChildren) :
    Targeted gone t := by
  cases hst with
  | idle es hsub htargets hnext hes hunrelated =>
    exact hs.of_eq (fun _ => by rw [hsub]) htargets hnext es hes hunrelated
  | issued hp => exact hs.issue hp hj
  | unissued hp =>
    refine hs.of_eq (Host.get?_withdrawn _ _ _ _ _) rfl (Nat.le_succ _) [.destroyed _, .called _ _ _, .called _ _ _]
      rfl (by simp [Entry.unrelated])
  | broken hp => exact hs.record hp _
  | free hC => cases hC

theorem branchings (hs : Targeted gone s) (hst : Branchings h s t) (hj : t.shared.journal.FreshChildren) :
    Targeted gone t := by
  induction hst with
  | refl => exact hs
  | tail _ hut ih => exact (ih (hj.of_suffix hut.grows)).branching hut hj

/-- The record of a subrequest is removed for its completion, and where its child is to be sent is forgotten. -/
theorem complete (hs : Targeted gone s) (hj : s.shared.journal.FreshChildren)
    (hp : s.worker.subrequests.get? token.slot = some p) (hserial : p.serial = token.serial)
    (hsub : t.worker.subrequests = s.worker.subrequests.remove token.slot)
    (htargets : ∀ c, t.worker.targets[c]? = if p.child = some c then none else s.worker.targets[c]?)
    (hnext : t.worker.nextSerial = s.worker.nextSerial) (hjt : t.shared.journal = .completed token :: s.shared.journal) :
    Targeted gone t := by
  have old : ∀ {slot q}, t.worker.subrequests.get? slot = some q →
      slot ≠ token.slot ∧ s.worker.subrequests.get? slot = some q := fun hq =>
    Arena.get?_of_remove (hsub ▸ hq)
  have hissued : ∀ {token' c}, .issued token' c ∈ t.shared.journal ↔ .issued token' c ∈ s.shared.journal := by
    intro token' c
    rw [hjt]
    simp
  refine ⟨hs.toTokened.of_sub (fun hq => (old hq).2) (Nat.le_of_eq hnext.symm) hissued.mp, fun hm => ?_,
    fun hg => hnext ▸ hs.spent hg, fun hq hc => hissued.mpr (hs.made (old hq).2 hc), fun {slot q} hq hm => ?_,
    fun {c peer} => ?_⟩
  · rw [hnext]
    rw [hjt] at hm
    rcases List.mem_cons.mp hm with heq | hm
    · cases heq
      exact hserial ▸ hs.kept hp
    · exact hs.past hm
  · obtain ⟨hslot, hq⟩ := old hq
    rw [hjt] at hm
    rcases List.mem_cons.mp hm with heq | hm
    · exact hslot (congrArg SubToken.slot (Entry.completed.inj heq))
    · exact hs.waits hq hm
  · rw [htargets]
    split
    · next hc =>
      -- No other subrequest waits for a child of that name.
      refine iff_of_false nofun ?_
      rintro ⟨slot, q, hq, hc', -⟩
      obtain ⟨hslot, hq⟩ := old hq
      exact hslot (hs.unique hj hq hp hc' hc)
    · next hc =>
      refine hs.aims.trans ⟨?_, ?_⟩
      · rintro ⟨slot, q, hq, hc', hrest⟩
        refine ⟨slot, q, ?_, hc', hrest⟩
        rw [hsub, Arena.get?_remove, if_neg, hq]
        rintro rfl
        rw [hp] at hq
        cases hq
        exact hc hc'
      · rintro ⟨slot, q, hq, hrest⟩
        exact ⟨slot, q, (old hq).2, hrest⟩

/-- The name of a child is released. -/
theorem release {gone' : SubToken → ReqId → Prop} {req : ReqId} (hs : Targeted gone s)
    (hgone : ∀ {token c}, gone' token c ↔ gone token c ∨ c = req ∧ .issued token c ∈ s.shared.journal)
    (hsub : t.worker.subrequests = s.worker.subrequests) (htargets : t.worker.targets = s.worker.targets.erase req)
    (hnext : t.worker.nextSerial = s.worker.nextSerial) (es : Journal)
    (hj : t.shared.journal = es ++ s.shared.journal) (hes : ∀ e ∈ es, e.unrelated) : Targeted gone' t := by
  have hu : Targeted gone { t with worker := { t.worker with targets := s.worker.targets } } :=
    hs.of_eq (fun _ => by rw [← hsub]) rfl (Nat.le_of_eq hnext.symm) es hj hes
  refine ⟨⟨hu.kept, hu.issued, hu.child⟩, hu.past, fun {token c} hg => ?_, hu.made, hu.waits, fun {c peer} => ?_⟩
  · rw [hnext]
    rcases hgone.mp hg with hg | ⟨-, hm⟩
    · exact hs.spent hg
    · exact hs.issued hm
  · rw [htargets, ReqMap.get?_erase]
    unfold State.Aims
    rw [hsub]
    split
    · next hreq =>
      refine iff_of_false nofun ?_
      rintro ⟨slot, q, hq, hc, -, hg⟩
      exact hg (hgone.mpr (.inr ⟨hreq.symm, hs.made hq hc⟩))
    · next hreq =>
      refine hs.aims.trans ?_
      have hsame : ∀ {token}, gone' token c ↔ gone token c :=
        hgone.trans (or_iff_left fun ⟨hc, _⟩ => hreq hc.symm)
      unfold State.Aims
      simp only [hsame]

end Targeted

/-! ### Runs -/

namespace Host

/-- In a run, the name of a child has been passed to the release of requests since the child was made. -/
def Released (h : Host δ ω) (s : State δ ω) (acts : List (Act δ ω)) (token : SubToken) (child : ReqId) : Prop :=
  ∃ earlier, .hook (.released child) :: earlier <:+ acts ∧ .issued token child ∈ (h.after s earlier).shared.journal

theorem released_cons {a : Act δ ω} {acts : List (Act δ ω)} : h.Released s (a :: acts) token child ↔
    h.Released s acts token child ∨
      a = .hook (.released child) ∧ .issued token child ∈ (h.after s acts).shared.journal := by
  unfold Released
  constructor
  · rintro ⟨earlier, hsuffix, hm⟩
    rcases List.suffix_cons_iff.mp hsuffix with heq | hsuffix
    · cases heq
      exact .inr ⟨rfl, hm⟩
    · exact .inl ⟨earlier, hsuffix, hm⟩
  · rintro (⟨earlier, hsuffix, hm⟩ | ⟨rfl, hm⟩)
    · exact ⟨earlier, hsuffix.trans (List.suffix_cons _ _), hm⟩
    · exact ⟨acts, List.suffix_rfl, hm⟩

theorem released_cons_of_ne {a : Act δ ω} {acts : List (Act δ ω)} (ha : ∀ req, a ≠ .hook (.released req)) :
    h.Released s (a :: acts) = h.Released s acts := by
  funext token child
  exact propext (released_cons.trans (or_iff_left fun hr => ha _ hr.1))

end Host

namespace Targeted

/-- The completion of a subrequest. -/
theorem subrequestDone (hs : Targeted gone s) (token : SubToken) (completion : Completion)
    (hj : ((h.subrequestDone token completion).exec s).2.shared.journal.FreshChildren) :
    Targeted gone ((h.subrequestDone token completion).exec s).2 := by
  have uncounted : ∀ {t : State δ ω}, Targeted gone t → Targeted gone (Host.uncounted t) := fun ht =>
    ht.of_eq (fun _ => rfl) rfl (Nat.le_refl _) [] rfl (by simp)
  by_cases hlive : ∃ p, s.worker.subrequests.get? token.slot = some p ∧ p.serial = token.serial
  · obtain ⟨p, hp, hserial⟩ := hlive
    cases hc : p.child with
    | none =>
      rw [Host.exec_subrequestDone_of_live hp hserial] at hj ⊢
      have hexec : (h.completeChild p completion).exec (Host.completed s token) =
          (.error (.panic "subrequest completion fired before the child was initialised"),
            Host.noted (Host.completed s token) (.destroyed p.ticket)) := by
        unfold Host.completeChild
        rw [hc]
        exact exec_bind_of_ok (exec_record _)
      rw [hexec] at hj ⊢
      have hcompleted : Targeted gone (Host.completed s token) :=
        hs.complete (hj.of_suffix ((List.suffix_cons _ _).trans (List.suffix_cons _ _))) hp hserial rfl
          (fun c => by rw [hc]; rfl) rfl rfl
      exact uncounted (hcompleted.of_eq (fun _ => rfl) rfl (Nat.le_refl _) [.destroyed _] rfl
        (by simp [Entry.unrelated]))
    | some child =>
      rw [Host.exec_subrequestDone_of_child hp hserial hc] at hj ⊢
      have hrest : Branchings h (Host.arrived s token child)
          ((h.complete p completion).exec (Host.arrived s token child)).2 := .of_errand (.complete p completion) _
      have hsuffix := hrest.grows
      have harrived : Targeted gone (Host.arrived s token child) :=
        hs.complete (hj.of_suffix ((List.suffix_cons _ _).trans hsuffix)) hp hserial rfl
          (fun c => by
            rw [hc]
            simp only [Option.some.injEq]
            exact ReqMap.get?_erase _ _ _) rfl rfl
      exact uncounted (harrived.branchings hrest hj)
  · rw [Host.exec_subrequestDone_of_dead fun p hp hserial => hlive ⟨p, hp, hserial⟩]
    exact hs

/-- An act, where what is gone is what has been released in the run. -/
theorem act {acts : List (Act δ ω)} (hc : Course (h.after s acts)) (hs : Targeted (h.Released s acts) (h.after s acts))
    (a : Act δ ω) (hj : (h.after s (a :: acts)).shared.journal.FreshChildren) :
    Targeted (h.Released s (a :: acts)) (h.after s (a :: acts)) := by
  by_cases hr : ∃ req, a = .hook (.released req)
  · obtain ⟨req, rfl⟩ := hr
    have hgone : ∀ {token c}, h.Released s (.hook (.released req) :: acts) token c ↔
        h.Released s acts token c ∨ c = req ∧ .issued token c ∈ (h.after s acts).shared.journal := by
      intro token c
      refine Host.released_cons.trans (or_congr_right (and_congr_left' ?_))
      simp [eq_comm]
    show Targeted _ ((Host.released req : Action δ ω Unit).exec (h.after s acts)).2
    unfold Host.released
    cases hk : (h.after s acts).worker.slots[req]? with
    | none =>
      rw [exec_bind_of_ok (exec_unregister_of_none hk)]
      exact hs.release hgone rfl rfl rfl [] rfl (by simp)
    | some k =>
      obtain ⟨r, hr⟩ := hc.occupied hk
      rw [exec_bind_of_ok (exec_unregister_of_some hk hr)]
      exact hs.release hgone rfl rfl rfl [.removed _] rfl (by simp [Entry.unrelated])
  · have hsame : h.Released s (a :: acts) = h.Released s acts :=
      Host.released_cons_of_ne fun req heq => hr ⟨req, heq⟩
    rw [hsame]
    by_cases hd : ∃ token completion, a = .hook (.subrequestDone token completion)
    · obtain ⟨token, completion, rfl⟩ := hd
      exact hs.subrequestDone token completion hj
    · refine hs.branchings (Branchings.act ?_ _) hj
      intro hfrees
      cases a with
      | hook k =>
        cases k with
        | released req => exact hr ⟨req, rfl⟩
        | subrequestDone token completion => exact hd ⟨token, completion, rfl⟩
        | _ => cases hfrees
      | _ => cases hfrees

end Targeted

theorem Targeted.opened {store : Queue.Store} {config : Config} {data : δ} {world : ω}
    (hs : State.open store config data world = .ok s) : Targeted (h.Released s []) s := by
  obtain rfl := State.open_eq hs
  refine ⟨⟨nofun, nofun, nofun⟩, nofun, ?_, nofun, nofun, ?_⟩
  · rintro token child ⟨earlier, hsuffix, -⟩
    exact absurd (List.suffix_nil.mp hsuffix) (List.cons_ne_nil _ _)
  · refine iff_of_false ?_ ?_
    · intro hpeer
      simp [Worker.new] at hpeer
    · rintro ⟨slot, p, hp, -⟩
      cases hp

/-- In every run from the opening of a worker on, as long as the engine gives fresh names to children. -/
theorem Targeted.after {store : Queue.Store} {config : Config} {data : δ} {world : ω}
    (hs : State.open store config data world = .ok s) (acts : List (Act δ ω))
    (hj : (h.after s acts).shared.journal.FreshChildren) : Targeted (h.Released s acts) (h.after s acts) := by
  induction acts with
  | nil => exact .opened hs
  | cons a acts ih =>
    have hreach : Reachable h (h.after s acts) := (Reachable.opened hs).after acts
    have hone : Steps h (h.after s acts) (h.after s (a :: acts)) := .single (Step.iff_act.mpr ⟨a, rfl⟩)
    exact (ih (hj.of_suffix (Deeds.grows (hone.deeds hreach)))).act hreach.course a hj

end EngineBridge
