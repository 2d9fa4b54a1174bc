import EngineBridge.Proofs.Deeds
import EngineBridge.Proofs.Law

/-! The registrations that a worker holds are those of which its journal tells, in the slots and phases
    that it tells of, and the journal is lawful. This file holds the invariant and how the elementary
    updates of the registry keep it, and from them every deed. -/

namespace EngineBridge
open EngineBridge.Action Registry
variable {δ ω : Type} {s t : State δ ω} {k : Nat} {r : Registration}

/-! ### Entries that change no registration -/

/-- Entries that neither make, move nor remove a registration. -/
def Entry.Quiet : Entry → Prop
  | .registered _ _ _ _ | .moved _ _ | .removed _ => False
  | _ => True

/-- Whether an entry tells that the body could not be read for a registration. -/
def Entry.FailsBody (n : Nat) (e : Entry) : Prop := ∃ req, e = .called (some n) (.readBody req) .failed

namespace Journal
variable {j : Journal} {e : Entry} {n : Nat}

theorem phase?_quiet (he : e.Quiet) : phase? (e :: j) n = j.phase? n := by
  refine phase?_cons ?_ ?_ ?_
  · rintro req slot p rfl
    exact he
  · rintro p rfl
    exact he
  · rintro rfl
    exact he

theorem knows_quiet (he : e.Quiet) : Knows (e :: j) n ↔ j.Knows n := by
  refine ⟨fun ⟨req, slot, p, hm⟩ => ?_, Knows.cons⟩
  rcases List.mem_cons.mp hm with rfl | hm
  · cases he
  · exact ⟨req, slot, p, hm⟩

theorem bodyFailed_cons (he : ¬e.FailsBody n) : BodyFailed (e :: j) n ↔ j.BodyFailed n := by
  refine ⟨fun ⟨req, hm⟩ => ?_, fun ⟨req, hm⟩ => ⟨req, List.mem_cons_of_mem e hm⟩⟩
  rcases List.mem_cons.mp hm with rfl | hm
  · exact absurd ⟨req, rfl⟩ he
  · exact ⟨req, hm⟩

theorem open_quiet (he : e.Quiet) : Open (e :: j) n ↔ j.Open n := by
  unfold Open
  rw [phase?_quiet he]

/-- A minor entry is admitted when the journal tells the phase of its registration. -/
theorem admits_minor {who : Option Registration} (he : e.Minor who)
    (hw : ∀ r, who = some r → j.phase? r.serial = some r.phase) :
    e.Quiet ∧ j.Admits e ∧ ∀ n, ¬e.FailsBody n := by
  cases e with
  | called serial c u =>
    cases serial with
    | none => exact ⟨trivial, he, fun n ⟨_, h⟩ => by cases h⟩
    | some m =>
      obtain ⟨r, hr, rfl, -, hc⟩ := he
      have ho : c.asks ∨ j.Open r.serial := hc.imp_right fun hc => ⟨r.phase, hw r hr, hc.2⟩
      cases c with
      | readBody req | finalize req rc => rcases hc with hc | ⟨hc, -⟩ <;> cases hc
      | _ => exact ⟨trivial, ho, fun n ⟨_, h⟩ => by cases h⟩
  | ran | taken | registered | moved | removed | started | completed => cases he
  | _ => exact ⟨trivial, trivial, fun n ⟨_, h⟩ => by cases h⟩

end Journal

/-! ### The invariant -/

/-- The journal tells of the registrations that are held, and is lawful. -/
structure Told (s : State δ ω) : Prop where
  lawful : s.shared.journal.Lawful
  entered : ∀ {k r}, s.worker.requests.get? k = some r → ∃ p, .registered r.serial r.id k p ∈ s.shared.journal
  phase : ∀ {k r}, s.worker.requests.get? k = some r → s.shared.journal.phase? r.serial = some r.phase
  held : ∀ {n p}, s.shared.journal.phase? n = some p → ∃ k r, s.worker.requests.get? k = some r ∧ r.serial = n
  serials : ∀ {n}, s.shared.journal.Knows n → n < s.worker.nextSerial
  named : ∀ {req : ReqId} {k : Nat}, s.worker.slots[req]? = some k →
    ∃ r, s.worker.requests.get? k = some r ∧ r.id = req

/-- Besides, no registration is open whose body could not be read. -/
structure Course (s : State δ ω) : Prop extends Told s where
  sound : ∀ {n}, s.shared.journal.Open n → ¬s.shared.journal.BodyFailed n

namespace Told

theorem knows (h : Told s) (hr : s.worker.requests.get? k = some r) : s.shared.journal.Knows r.serial := by
  obtain ⟨p, hp⟩ := h.entered hr
  exact ⟨r.id, k, p, hp⟩

theorem isOpen (h : Told s) (hr : s.worker.requests.get? k = some r) (ho : r.phase ≠ .finalized) :
    s.shared.journal.Open r.serial := ⟨r.phase, h.phase hr, ho⟩

/-- A serial number leads to one slot. -/
theorem serial_inj (h : Told s) {k' : Nat} {r' : Registration} (hr : s.worker.requests.get? k = some r)
    (hr' : s.worker.requests.get? k' = some r') (hs : r.serial = r'.serial) : k = k' := by
  obtain ⟨p, hp⟩ := h.entered hr
  obtain ⟨p', hp'⟩ := h.entered hr'
  rw [hs] at hp
  exact (h.lawful.registered_inj hp hp').2.1

/-- Changes that leave the requests and the journal as they are. -/
theorem of_eq (h : Told s) (hrequests : t.worker.requests = s.worker.requests)
    (hslots : t.worker.slots = s.worker.slots) (hserials : s.worker.nextSerial ≤ t.worker.nextSerial)
    (hj : t.shared.journal = s.shared.journal) : Told t where
  lawful := hj ▸ h.lawful
  entered := by
    rw [hrequests, hj]
    exact h.entered
  phase := by
    rw [hrequests, hj]
    exact h.phase
  held := by
    rw [hrequests, hj]
    exact h.held
  serials hn := Nat.lt_of_lt_of_le (h.serials (hj ▸ hn)) hserials
  named := by
    rw [hrequests, hslots]
    exact h.named

/-- A quiet entry that is admitted. -/
theorem record (h : Told s) {e : Entry} (he : e.Quiet) (ha : s.shared.journal.Admits e) :
    Told { s with shared := s.shared.record e } where
  lawful := ⟨ha, h.lawful⟩
  entered hr := by
    obtain ⟨p, hp⟩ := h.entered hr
    exact ⟨p, List.mem_cons_of_mem e hp⟩
  phase hr := (Journal.phase?_quiet he).trans (h.phase hr)
  held hn := h.held ((Journal.phase?_quiet he).symm.trans hn)
  serials hn := h.serials ((Journal.knows_quiet he).mp hn)
  named := h.named

/-- A change of the record of a registration that leaves its course as it is. -/
theorem of_course (h : Told s) (hslots : t.worker.slots = s.worker.slots)
    (hcourse : ∀ k, (t.worker.requests.get? k).map Registration.course =
      (s.worker.requests.get? k).map Registration.course)
    (hserials : s.worker.nextSerial ≤ t.worker.nextSerial) (hj : t.shared.journal = s.shared.journal) :
    Told t := by
  have back : ∀ {k r}, t.worker.requests.get? k = some r →
      ∃ r', s.worker.requests.get? k = some r' ∧ r'.course = r.course := fun {k r} hr => by
    have hc := hcourse k
    rw [hr] at hc
    exact Option.map_eq_some_iff.mp hc.symm
  have forth : ∀ {k r}, s.worker.requests.get? k = some r →
      ∃ r', t.worker.requests.get? k = some r' ∧ r'.course = r.course := fun {k r} hr => by
    have hc := hcourse k
    rw [hr] at hc
    exact Option.map_eq_some_iff.mp hc
  refine ⟨hj ▸ h.lawful, fun hr => ?_, fun hr => ?_, fun hn => ?_,
    fun hn => Nat.lt_of_lt_of_le (h.serials (hj ▸ hn)) hserials, fun hk => ?_⟩
  · obtain ⟨r', hr', hrr'⟩ := back hr
    obtain ⟨hid, hserial, -⟩ := Registration.course_inj hrr'
    rw [hj, ← hid, ← hserial]
    exact h.entered hr'
  · obtain ⟨r', hr', hrr'⟩ := back hr
    obtain ⟨-, hserial, hphase, -⟩ := Registration.course_inj hrr'
    rw [hj, ← hserial, ← hphase]
    exact h.phase hr'
  · obtain ⟨k, r, hr, hserial⟩ := h.held (hj ▸ hn)
    obtain ⟨r', hr', hrr'⟩ := forth hr
    exact ⟨k, r', hr', (Registration.course_inj hrr').2.1.trans hserial⟩
  · obtain ⟨r, hr, hid⟩ := h.named (hslots ▸ hk)
    obtain ⟨r', hr', hrr'⟩ := forth hr
    exact ⟨r', hr', (Registration.course_inj hrr').1.trans hid⟩

end Told

namespace Course

theorem of_eq (h : Course s) (hrequests : t.worker.requests = s.worker.requests)
    (hslots : t.worker.slots = s.worker.slots) (hserials : s.worker.nextSerial ≤ t.worker.nextSerial)
    (hj : t.shared.journal = s.shared.journal) : Course t :=
  ⟨h.toTold.of_eq hrequests hslots hserials hj, hj ▸ h.sound⟩

theorem record (h : Course s) {e : Entry} (he : e.Quiet) (ha : s.shared.journal.Admits e)
    (hb : ∀ n, ¬e.FailsBody n) : Course { s with shared := s.shared.record e } :=
  ⟨h.toTold.record he ha, fun ho hb' =>
    h.sound ((Journal.open_quiet he).mp ho) ((Journal.bodyFailed_cons (hb _)).mp hb')⟩

/-- A name leads to a slot that is taken. -/
theorem occupied (h : Course s) {req : ReqId} {k : Nat} (hk : s.worker.slots[req]? = some k) :
    ∃ r, s.worker.requests.get? k = some r := by
  obtain ⟨r, hr, -⟩ := h.named hk
  exact ⟨r, hr⟩

/-- Serving a registration, or none, keeps every request on its course. -/
theorem served {slot : Option Nat} (h : Course s) (hst : Served slot s t) : Course t := by
  obtain ⟨es, hes, hm⟩ := hst.entries
  -- First all entries are made, each admitted by those before it, then the records are changed.
  suffices hall : Course { s with shared := { s.shared with journal := es ++ s.shared.journal } } from
    ⟨hall.toTold.of_course hst.slots hst.course hst.serials hes, hes ▸ hall.sound⟩
  clear hes
  induction es with
  | nil => exact h
  | cons e es ih =>
    have hes := ih fun e' he' => hm e' (List.mem_cons_of_mem e he')
    obtain ⟨hq, ha, hb⟩ := Journal.admits_minor (hm e List.mem_cons_self) fun r hr => by
      cases slot with
      | none => cases hr
      | some k => exact hes.phase (k := k) hr
    exact hes.record hq ha hb

end Course

/-! ### Updates of the registry -/

namespace Told

/-- An open registration moves to another phase. -/
theorem moved {p : Phase} (h : Told s) (hr : s.worker.requests.get? k = some r) (ho : r.phase ≠ .finalized) :
    Told (Registry.moved s k r.serial p) := by
  -- Of the other registrations neither the record nor the phase told is changed.
  have get : ∀ {k' r'}, (Registry.moved s k r.serial p).worker.requests.get? k' = some r' →
      (k' = k ∧ r' = { r with phase := p }) ∨
        (r'.serial ≠ r.serial ∧ s.worker.requests.get? k' = some r') := fun {k' r'} hr' => by
    rw [get?_moved] at hr'
    split at hr'
    · next hk =>
      rw [hk, hr] at hr'
      exact .inl ⟨hk, (Option.some.inj hr').symm⟩
    · next hk => exact .inr ⟨fun hs => hk (h.serial_inj hr' hr hs), hr'⟩
  have old : ∀ {k' r'}, s.worker.requests.get? k' = some r' → ∃ r'',
      (Registry.moved s k r.serial p).worker.requests.get? k' = some r'' ∧ r''.serial = r'.serial ∧
        r''.id = r'.id := by
    intro k' r' hr'
    rw [get?_moved, hr']
    split
    · exact ⟨_, rfl, rfl, rfl⟩
    · exact ⟨_, rfl, rfl, rfl⟩
  refine ⟨⟨h.isOpen hr ho, h.lawful⟩, fun hr' => ?_, fun hr' => ?_, fun {n q} hn => ?_, fun hn => ?_,
    fun {req k'} hk => ?_⟩
  · rcases get hr' with ⟨rfl, rfl⟩ | ⟨-, hr'⟩
    · obtain ⟨q, hq⟩ := h.entered hr
      exact ⟨q, List.mem_cons_of_mem _ hq⟩
    · obtain ⟨q, hq⟩ := h.entered hr'
      exact ⟨q, List.mem_cons_of_mem _ hq⟩
  · rcases get hr' with ⟨rfl, rfl⟩ | ⟨hne, hr'⟩
    · exact if_pos rfl
    · exact (if_neg (Ne.symm hne)).trans (h.phase hr')
  · by_cases hne : r.serial = n
    · obtain ⟨r', hr', hs, -⟩ := old hr
      exact ⟨k, r', hr', hs.trans hne⟩
    · obtain ⟨k', r', hr', rfl⟩ := h.held ((if_neg hne).symm.trans hn)
      obtain ⟨r'', hr'', hs, -⟩ := old hr'
      exact ⟨k', r'', hr'', hs⟩
  · obtain ⟨req, slot, q, hm⟩ := hn
    rcases List.mem_cons.mp hm with hm | hm
    · cases hm
    · exact h.serials ⟨req, slot, q, hm⟩
  · obtain ⟨r', hr', hid⟩ := h.named hk
    obtain ⟨r'', hr'', -, hid'⟩ := old hr'
    exact ⟨r'', hr'', hid'.trans hid⟩

/-- A request is registered. -/
theorem registered {req : ReqId} {p : Phase} {location : Option UInt64} {anchor : Bool} (h : Told s)
    (hp : p ≠ .finalized) : Told (Registry.registered s req p location anchor) := by
  have hfresh : ∀ {n}, s.shared.journal.Knows n → s.worker.nextSerial ≠ n := fun hn =>
    Nat.ne_of_gt (h.serials hn)
  refine ⟨⟨⟨fun hn => hfresh hn rfl, hp⟩, h.lawful⟩, fun {k' r'} hr' => ?_, fun {k' r'} hr' => ?_,
    fun {n q} hn => ?_, fun {n} hn => ?_, fun {req' k'} hk => ?_⟩
  · rw [get?_registered] at hr'
    split at hr'
    · next hk =>
      cases hr'
      exact ⟨p, hk ▸ List.mem_cons_self⟩
    · obtain ⟨q, hq⟩ := h.entered hr'
      exact ⟨q, List.mem_cons_of_mem _ hq⟩
  · rw [get?_registered] at hr'
    split at hr'
    · cases hr'
      exact if_pos rfl
    · exact (if_neg (hfresh (h.knows hr'))).trans (h.phase hr')
  · by_cases hn' : s.worker.nextSerial = n
    · exact ⟨s.worker.requests.nextSlot, _, get?_registered_self, hn'⟩
    · obtain ⟨k', r', hr', hs⟩ := h.held ((if_neg hn').symm.trans hn)
      exact ⟨k', r', get?_registered_of_some hr', hs⟩
  · obtain ⟨req', slot, q, hm⟩ := hn
    rcases List.mem_cons.mp hm with hm | hm
    · cases hm
      exact Nat.lt_succ_self _
    · exact Nat.lt_succ_of_lt (h.serials ⟨req', slot, q, hm⟩)
  · rw [slots_registered] at hk
    split at hk
    · next hreq =>
      cases hk
      exact ⟨_, get?_registered_self, hreq⟩
    · obtain ⟨r', hr', hid⟩ := h.named hk
      exact ⟨r', get?_registered_of_some hr', hid⟩

/-- A registration to which its request's name leads is removed. -/
theorem removed {req : ReqId} (h : Told s) (hk : s.worker.slots[req]? = some k)
    (hr : s.worker.requests.get? k = some r) : Told (Registry.removed s req k r.serial) := by
  have old : ∀ {k' r'}, (Registry.removed s req k r.serial).worker.requests.get? k' = some r' →
      k' ≠ k ∧ s.worker.requests.get? k' = some r' := Arena.get?_of_remove
  refine ⟨⟨by rw [Journal.Admits, h.phase hr]; rfl, h.lawful⟩, fun {k' r'} hr' => ?_, fun {k' r'} hr' => ?_,
    fun {n q} hn => ?_, fun {n} hn => ?_, fun {req' k'} hk' => ?_⟩
  · obtain ⟨q, hq⟩ := h.entered (old hr').2
    exact ⟨q, List.mem_cons_of_mem _ hq⟩
  · obtain ⟨hne, hr'⟩ := old hr'
    exact (if_neg fun hs => hne (h.serial_inj hr' hr (Eq.symm hs))).trans (h.phase hr')
  · by_cases hne : r.serial = n
    · cases (if_pos hne).symm.trans hn
    · obtain ⟨k', r', hr', hs⟩ := h.held ((if_neg hne).symm.trans hn)
      refine ⟨k', r', (get?_removed req r.serial k').trans ((if_neg ?_).trans hr'), hs⟩
      rintro rfl
      rw [hr] at hr'
      cases hr'
      exact hne hs
  · obtain ⟨req', slot, q, hm⟩ := hn
    rcases List.mem_cons.mp hm with hm | hm
    · cases hm
    · exact h.serials ⟨req', slot, q, hm⟩
  · rw [slots_removed] at hk'
    split at hk'
    · cases hk'
    · next hreq =>
      obtain ⟨r', hr', hid⟩ := h.named hk'
      refine ⟨r', (get?_removed req r.serial k').trans ((if_neg ?_).trans hr'), hid⟩
      rintro rfl
      obtain ⟨r'', hr'', hid'⟩ := h.named hk
      rw [hr'] at hr''
      cases hr''
      exact hreq (hid'.symm.trans hid)

end Told

namespace Course

/-- An open registration moves to another phase. One whose body could not be read moves to its end. -/
theorem of_moved {p : Phase} (h : Told s) (hr : s.worker.requests.get? k = some r) (ho : r.phase ≠ .finalized)
    (hs : ∀ n, r.serial ≠ n → s.shared.journal.Open n → ¬s.shared.journal.BodyFailed n)
    (hp : p = .finalized ∨ ¬s.shared.journal.BodyFailed r.serial) : Course (Registry.moved s k r.serial p) := by
  refine ⟨h.moved hr ho, fun {n} ⟨q, hq, hne⟩ hb => ?_⟩
  have hb' := (Journal.bodyFailed_cons fun ⟨_, h⟩ => by cases h).mp hb
  by_cases hn : r.serial = n
  · subst hn
    cases (if_pos rfl).symm.trans hq
    rcases hp with hp | hp
    · exact hne hp
    · exact hp hb'
  · exact hs n hn ⟨q, (if_neg hn).symm.trans hq, hne⟩ hb'

theorem moved {p : Phase} (h : Course s) (hr : s.worker.requests.get? k = some r) (ho : r.phase ≠ .finalized) :
    Course (Registry.moved s k r.serial p) :=
  of_moved h.toTold hr ho (fun _ _ => h.sound) (.inr (h.sound (h.isOpen hr ho)))

theorem registered {req : ReqId} {p : Phase} {location : Option UInt64} {anchor : Bool} (h : Course s)
    (hp : p ≠ .finalized) : Course (Registry.registered s req p location anchor) := by
  refine ⟨h.toTold.registered hp, fun {n} ⟨q, hq, hne⟩ hb => ?_⟩
  have hb' := (Journal.bodyFailed_cons fun ⟨_, h⟩ => by cases h).mp hb
  by_cases hn : s.worker.nextSerial = n
  · exact absurd hn (Nat.ne_of_gt (h.serials (h.lawful.knows_of_bodyFailed hb')))
  · exact h.sound ⟨q, (if_neg hn).symm.trans hq, hne⟩ hb'

theorem removed {req : ReqId} (h : Course s) (hk : s.worker.slots[req]? = some k)
    (hr : s.worker.requests.get? k = some r) : Course (Registry.removed s req k r.serial) := by
  refine ⟨h.toTold.removed hk hr, fun {n} ⟨q, hq, hne⟩ hb => ?_⟩
  have hb' := (Journal.bodyFailed_cons fun ⟨_, h⟩ => by cases h).mp hb
  by_cases hn : r.serial = n
  · cases (if_pos hn).symm.trans hq
  · exact h.sound ⟨q, (if_neg hn).symm.trans hq, hne⟩ hb'

/-- A call of the engine that is admitted. -/
theorem asked {h : Host δ ω} {serial : Option Nat} {c : Call} (hs : Course s)
    (ha : ∀ u, s.shared.journal.Admits (.called serial c u))
    (hb : ∀ n, ¬Entry.FailsBody n (.called serial c (c.upshot (h.engine c s.shared.world).1))) :
    Course (h.asked serial c s) :=
  (hs.record (by cases serial <;> trivial) (ha _) hb).of_eq rfl rfl (Nat.le_refl _) rfl

end Course

/-! ### Deeds -/

theorem Call.upshot_readBody {req : ReqId} {x : Except String BodyRead} :
    (Call.readBody req).upshot (δ := δ) (ω := ω) x = .failed ↔ ∃ rc, x = .ok (.failed rc) := by
  rcases x with _ | _ | _ | rc <;> simp [Call.upshot, Call.succeeded]

/-- Every deed keeps the requests on their course. -/
theorem Deed.course {h : Host δ ω} {a b : List Nat × State δ ω} (hs : Course a.2) (hab : Deed h a b) :
    Course b.2 := by
  have same : ∀ {s t : State δ ω}, Course s → t.worker.requests = s.worker.requests →
      t.worker.slots = s.worker.slots → t.worker.nextSerial = s.worker.nextSerial →
      t.shared.journal = s.shared.journal → Course t :=
    fun hs hr hk hn hj => hs.of_eq hr hk (Nat.le_of_eq hn.symm) hj
  cases hab with
  | service hab => exact hs.served hab.served
  | moved hr ho => exact hs.moved hr ho
  | @ended X s k r rc hr ho =>
    obtain ⟨p, hp⟩ := hs.entered hr
    refine (hs.moved hr ho).asked (fun u => ⟨rfl, fun hb => ?_, k, p, List.mem_cons_of_mem _ hp⟩)
      fun n ⟨_, hf⟩ => by cases hf
    exact hs.sound (hs.isOpen hr ho) ((Journal.bodyFailed_cons fun ⟨_, hf⟩ => by cases hf).mp hb)
  | @read X s k r hr ho he =>
    have ha : ∀ u, s.shared.journal.Admits (.called (some r.serial) (.readBody r.id) u) := fun _ =>
      .inr (hs.isOpen hr ho)
    refine hs.asked ha fun n ⟨_, hf⟩ => ?_
    obtain ⟨rc, hrc⟩ := Call.upshot_readBody.mp (Entry.called.inj hf).2.2
    exact he rc hrc
  | @unread X s k r rc hr ho =>
    -- Until the registration has been moved to its end, it is open although its body failed.
    have ha : ∀ u, s.shared.journal.Admits (.called (some r.serial) (.readBody r.id) u) := fun _ =>
      .inr (hs.isOpen hr ho)
    have ht : Told (h.asked (some r.serial) (.readBody r.id) s) :=
      (hs.toTold.record (e := .called _ _ _) trivial (ha _)).of_eq rfl rfl (Nat.le_refl _) rfl
    refine Course.of_moved (p := .finalized) ht hr ho (fun n hn hopen hb => ?_) (.inl rfl)
    obtain ⟨req', hm⟩ := hb
    rcases List.mem_cons.mp hm with hm | hm
    · exact hn (Option.some.inj (Entry.called.inj hm).1.symm)
    · exact hs.sound hopen ⟨req', hm⟩
  | registered _ _ _ hp => exact hs.registered hp
  | removed hk hr => exact hs.removed hk hr
  | started hr ho => exact hs.record trivial (hs.isOpen hr ho) fun _ ⟨_, hf⟩ => by cases hf
  | @begun X s k r x role _ hr ho =>
    have ht := hs.record (e := .ran x) trivial trivial fun _ ⟨_, hf⟩ => by cases hf
    exact ht.record (e := .started role r.serial) trivial (ht.isOpen hr ho) fun _ ⟨_, hf⟩ => by cases hf
  | ran => exact hs.record trivial trivial fun _ ⟨_, hf⟩ => by cases hf
  | @taken X s p sh htake =>
    obtain ⟨queue, -, rfl⟩ := Shared.pop_of_take htake
    have ht : Course { s with shared := { s.shared with queue } } := same hs rfl rfl rfl rfl
    exact ht.record trivial trivial fun _ ⟨_, hf⟩ => by cases hf
  | looked htake =>
    obtain ⟨queue, -, rfl⟩ := Shared.pop_of_take_none htake
    exact same hs rfl rfl rfl rfl
  | @completed X s p token =>
    have ht := hs.record (e := .completed token) trivial trivial fun _ ⟨_, hf⟩ => by cases hf
    exact same ht rfl rfl rfl rfl
  | uncounted | untargeted | filtered | seen => exact same hs rfl rfl rfl rfl

theorem Deeds.course {h : Host δ ω} {a b : List Nat × State δ ω} (hs : Course a.2)
    (hab : Relation.ReflTransGen (Deed h) a b) : Course b.2 :=
  invariant (P := fun b => Course b.2) (fun hb hbc => hbc.course hb) hs hab

end EngineBridge
