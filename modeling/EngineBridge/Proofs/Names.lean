import EngineBridge.Proofs.Reach

/-! Where the names of requests lead. A request can be registered again, after it has been released or
    before, and its name leads to its latest registration from then on, until that is removed. -/

namespace EngineBridge
open EngineBridge.Action Registry
variable {δ ω : Type} {h : Host δ ω} {s t : State δ ω} {k : Nat} {r : Registration}

/-! ### The worker -/

/-- The serial number of the registration to which a request's name leads. -/
def Worker.serial? (w : Worker δ ω) (req : ReqId) : Option Nat := (w.registration? req).map (·.serial)

theorem serial?_congr {req : ReqId} (hslots : t.worker.slots = s.worker.slots)
    (hserial : ∀ k, (t.worker.requests.get? k).map (·.serial) = (s.worker.requests.get? k).map (·.serial)) :
    t.worker.serial? req = s.worker.serial? req := by
  unfold Worker.serial? Worker.registration?
  rw [hslots]
  cases s.worker.slots[req]? with
  | none => rfl
  | some k => exact hserial k

theorem serial?_of_some {req : ReqId} (hk : s.worker.slots[req]? = some k)
    (hr : s.worker.requests.get? k = some r) : s.worker.serial? req = some r.serial := by
  unfold Worker.serial? Worker.registration?
  rw [hk, Option.bind_some, hr]
  rfl

theorem serial?_eq_some {req : ReqId} {n : Nat} : s.worker.serial? req = some n ↔
    ∃ k r, s.worker.slots[req]? = some k ∧ s.worker.requests.get? k = some r ∧ r.serial = n := by
  constructor
  · intro hn
    obtain ⟨r, hr, hserial⟩ := Option.map_eq_some_iff.mp hn
    obtain ⟨k, hk, hr⟩ := Option.bind_eq_some_iff.mp hr
    exact ⟨k, r, hk, hr, hserial⟩
  · rintro ⟨k, r, hk, hr, rfl⟩
    exact serial?_of_some hk hr

theorem Served.serial? {slot : Option Nat} (hst : Served slot s t) (req : ReqId) :
    t.worker.serial? req = s.worker.serial? req := by
  refine serial?_congr hst.slots fun k => ?_
  have hc := congrArg (Option.map fun c => c.2.1) (hst.course k)
  rwa [Option.map_map, Option.map_map] at hc

theorem serial?_moved {p : Phase} (n : Nat) (req : ReqId) :
    (moved s k n p).worker.serial? req = s.worker.serial? req := by
  have same := Arena.map_get?_modify (f := fun r : Registration => { r with phase := p }) (g := (·.serial))
    (fun _ => rfl) s.worker.requests k
  exact serial?_congr rfl same

theorem serial?_registered (hs : Course s) {req : ReqId} {p : Phase} {location : Option UInt64} {anchor : Bool}
    (req' : ReqId) : (registered s req p location anchor).worker.serial? req' =
      if req = req' then some s.worker.nextSerial else s.worker.serial? req' := by
  unfold Worker.serial? Worker.registration?
  rw [slots_registered]
  split
  · rw [Option.bind_some, get?_registered_self]
    rfl
  · cases hk : s.worker.slots[req']? with
    | none => rfl
    | some k' =>
      obtain ⟨r', hr', -⟩ := hs.named hk
      rw [Option.bind_some, Option.bind_some, get?_registered_of_some hr', hr']

theorem serial?_removed (hs : Course s) {req : ReqId} (hk : s.worker.slots[req]? = some k)
    (hr : s.worker.requests.get? k = some r) (req' : ReqId) : (removed s req k r.serial).worker.serial? req' =
      if s.worker.serial? req' = some r.serial then none else s.worker.serial? req' := by
  have hslot : (removed s req k r.serial).worker.slots[req']? = _ := slots_removed req r.serial req'
  by_cases hreq : req = req'
  · subst hreq
    rw [serial?_of_some hk hr, if_pos rfl]
    unfold Worker.serial? Worker.registration?
    rw [hslot, if_pos rfl]
    rfl
  · cases hk' : s.worker.slots[req']? with
    | none =>
      unfold Worker.serial? Worker.registration?
      rw [hslot, if_neg hreq, hk']
      simp
    | some k' =>
      obtain ⟨r', hr', hid'⟩ := hs.named hk'
      obtain ⟨r'', hr'', hid⟩ := hs.named hk
      rw [hr] at hr''
      cases hr''
      -- Another name leads to another slot, hence to another serial number.
      have hne : k' ≠ k := by
        rintro rfl
        rw [hr] at hr'
        cases hr'
        exact hreq (hid.symm.trans hid')
      have hserial : r'.serial ≠ r.serial := fun heq => hne (hs.serial_inj hr' hr heq)
      rw [serial?_of_some hk' hr', if_neg fun heq => hserial (Option.some.inj heq)]
      refine serial?_of_some (hslot.trans ((if_neg hreq).trans hk')) ?_
      rw [get?_removed, if_neg hne]
      exact hr'

/-! ### The journal -/

namespace Journal

/-- The serial number of the registration to which a request's name leads after the entries. -/
def lead? : Journal → ReqId → Option Nat
  | [], _ => none
  | .registered n req' _ _ :: j, req => if req' = req then some n else lead? j req
  | .removed n :: j, req => if lead? j req = some n then none else lead? j req
  | _ :: j, req => lead? j req

/-- A request is registered by one of the entries. -/
def Registers (j : Journal) (req : ReqId) : Prop := ∃ n slot p, .registered n req slot p ∈ j

variable {j later earlier : Journal} {req : ReqId} {n m : Nat}

theorem lead?_minor {es : List Entry} {who : Option Registration} (hm : ∀ e ∈ es, e.Minor who) :
    lead? (es ++ j) req = j.lead? req := by
  induction es with
  | nil => rfl
  | cons e es ih =>
    have hes := ih fun e' he' => hm e' (List.mem_cons_of_mem e he')
    have he := hm e List.mem_cons_self
    cases e with
    | registered | removed => cases he
    | _ => exact hes

/-- A name leads to a registration of its request. -/
theorem registered_of_lead? (hn : j.lead? req = some n) : ∃ slot p, .registered n req slot p ∈ j := by
  induction j with
  | nil => cases hn
  | cons e j ih =>
    have next : ∀ {j : Journal}, (∃ slot p, .registered n req slot p ∈ j) →
        ∃ slot p, .registered n req slot p ∈ e :: j := fun ⟨slot, p, hm⟩ => ⟨slot, p, List.mem_cons_of_mem e hm⟩
    cases e with
    | registered m req' slot p =>
      simp only [lead?] at hn
      split at hn
      · next heq =>
        cases hn
        exact ⟨slot, p, heq ▸ List.mem_cons_self⟩
      · exact next (ih hn)
    | removed m =>
      simp only [lead?] at hn
      split at hn
      · cases hn
      · exact next (ih hn)
    | _ => exact next (ih hn)

/-- As long as a request is not registered again, its name leads to the same registration or to none. -/
theorem lead?_append_of_not_registers (hl : ¬later.Registers req) (hn : (later ++ earlier).lead? req = some n) :
    earlier.lead? req = some n := by
  induction later with
  | nil => exact hn
  | cons e later ih =>
    have hl' : ¬Registers later req := fun ⟨m, slot, p, hm⟩ => hl ⟨m, slot, p, List.mem_cons_of_mem e hm⟩
    cases e with
    | registered m req' slot p =>
      simp only [List.cons_append, lead?] at hn
      split at hn
      · next heq => exact absurd ⟨m, slot, p, heq ▸ List.mem_cons_self⟩ hl
      · exact ih hl' hn
    | removed m =>
      simp only [List.cons_append, lead?] at hn
      split at hn
      · cases hn
      · exact ih hl' hn
    | _ => exact ih hl' hn

/-- Once a request has been registered again, its name leads to a registration made since then. -/
theorem lead?_append_of_registers (hl : later.Registers req) (hn : (later ++ earlier).lead? req = some n) :
    ∃ slot p, .registered n req slot p ∈ later := by
  induction later with
  | nil =>
    obtain ⟨_, _, _, hm⟩ := hl
    cases hm
  | cons e later ih =>
    have next : lead? (later ++ earlier) req = some n → ¬(∃ m slot p, e = .registered m req slot p) →
        ∃ slot p, .registered n req slot p ∈ e :: later := by
      intro hn he
      have hl' : Registers later req := by
        obtain ⟨m, slot, p, hm⟩ := hl
        rcases List.mem_cons.mp hm with heq | hm
        · exact absurd ⟨m, slot, p, heq.symm⟩ he
        · exact ⟨m, slot, p, hm⟩
      obtain ⟨slot, p, hm⟩ := ih hl' hn
      exact ⟨slot, p, List.mem_cons_of_mem e hm⟩
    cases e with
    | registered m req' slot p =>
      simp only [List.cons_append, lead?] at hn
      split at hn
      · next heq =>
        cases hn
        exact ⟨slot, p, heq ▸ List.mem_cons_self⟩
      · next hne =>
        refine next hn fun ⟨_, _, _, heq⟩ => ?_
        cases heq
        exact hne rfl
    | removed m =>
      simp only [List.cons_append, lead?] at hn
      split at hn
      · cases hn
      · exact next hn fun ⟨_, _, _, heq⟩ => by cases heq
    | _ => exact next hn fun ⟨_, _, _, heq⟩ => by cases heq

/-- A serial number that has been given is not given again. -/
theorem Lawful.ne_of_registered (hl : (later ++ earlier).Lawful) (hk : earlier.Knows n) {slot : Nat} {p : Phase}
    (hm : .registered m req slot p ∈ later) : m ≠ n := by
  induction later with
  | nil => cases hm
  | cons e later ih =>
    rcases List.mem_cons.mp hm with rfl | hm
    · rintro rfl
      exact hl.1.1 hk.append
    · exact ih hl.2 hm

/-- A name leads to another registration than before just when its request has been registered again. -/
theorem Lawful.lead?_ne_iff (hl : (later ++ earlier).Lawful) (hn : earlier.lead? req = some n)
    (hm : (later ++ earlier).lead? req = some m) : m ≠ n ↔ later.Registers req := by
  constructor
  · intro hne
    by_cases hr : later.Registers req
    · exact hr
    · have heq := lead?_append_of_not_registers hr hm
      rw [hn] at heq
      exact absurd (Option.some.inj heq).symm hne
  · intro hr
    obtain ⟨slot, p, hm⟩ := lead?_append_of_registers hr hm
    obtain ⟨slot', p', hn⟩ := registered_of_lead? hn
    exact hl.ne_of_registered ⟨req, slot', p', hn⟩ hm

end Journal

/-! ### The journal tells where the names lead -/

/-- Every deed keeps the journal telling where the names lead. -/
theorem Deed.led {a b : List Nat × State δ ω} (hc : Course a.2)
    (hs : ∀ req, a.2.worker.serial? req = a.2.shared.journal.lead? req) (hab : Deed h a b) (req : ReqId) :
    b.2.worker.serial? req = b.2.shared.journal.lead? req := by
  cases hab with
  | service hab =>
    obtain ⟨es, hes, hm⟩ := hab.served.entries
    rw [hab.served.serial?, hes, Journal.lead?_minor hm]
    exact hs req
  | @moved X s k r => exact (serial?_moved r.serial req).trans (hs req)
  | @ended X s k r => exact (serial?_moved r.serial req).trans (hs req)
  | @unread X s k r => exact (serial?_moved r.serial req).trans (hs req)
  | registered =>
    rw [serial?_registered hc, hs]
    rfl
  | removed hk hr =>
    rw [serial?_removed hc hk hr, hs]
    rfl
  | taken htake =>
    obtain ⟨queue, -, rfl⟩ := Shared.pop_of_take htake
    exact hs req
  | looked htake =>
    obtain ⟨queue, -, rfl⟩ := Shared.pop_of_take_none htake
    exact hs req
  | _ => exact hs req

/-- In every reachable state the journal tells where the names lead. -/
theorem Reachable.led (hs : Reachable h s) (req : ReqId) :
    s.worker.serial? req = s.shared.journal.lead? req :=
  hs.invariant (P := fun a => ∀ req, a.2.worker.serial? req = a.2.shared.journal.lead? req)
    (fun _ _ _ _ _ => rfl) (fun hc hs hab => hab.led hc hs) req

end EngineBridge
