import EngineBridge.Proofs.Names
import Mathlib.Data.Set.Card

/-! Registrations to which no name leads. An anchor made under a name that is in use takes the name over, and
    the registration to which the name has led so far is left behind: it stays with the worker for good. The
    names and all other registrations are in one-to-one correspondence. -/

namespace EngineBridge
open EngineBridge.Action Registry
variable {δ ω : Type} {h : Host δ ω} {s t : State δ ω} {k : Nat} {r : Registration}

theorem Entry.Minor.quiet {who : Option Registration} {e : Entry} (he : e.Minor who) : e.Quiet := by
  cases e with
  | registered | moved | removed => cases he
  | _ => trivial

/-! ### The journal -/

namespace Journal

/-- The serial numbers of the registrations left behind, the latest first: each was the one to which its
    request's name led when that request was registered again. -/
def strays : Journal → List Nat
  | [] => []
  | .registered _ req _ _ :: j => (lead? j req).toList ++ strays j
  | _ :: j => strays j

/-- Those left behind are different registrations, are held, and no name leads to them. -/
structure Strayed (j : Journal) : Prop where
  nodup : j.strays.Nodup
  held : ∀ {n}, n ∈ j.strays → (j.phase? n).isSome
  unled : ∀ {n}, n ∈ j.strays → ∀ req, j.lead? req ≠ some n

variable {j : Journal} {e : Entry} {req : ReqId} {n : Nat}

theorem strays_cons (he : ∀ n req slot p, e ≠ .registered n req slot p) : strays (e :: j) = j.strays := by
  cases e with
  | registered n req slot p => exact absurd rfl (he n req slot p)
  | _ => rfl

theorem strays_append {es : List Entry} (hes : ∀ n req slot p, .registered n req slot p ∉ es) :
    strays (es ++ j) = j.strays := by
  induction es with
  | nil => rfl
  | cons e es ih =>
    have he : ∀ n req slot p, e ≠ .registered n req slot p := fun n req slot p heq =>
      hes n req slot p (heq ▸ List.mem_cons_self)
    exact (strays_cons he).trans (ih fun n req slot p hm => hes n req slot p (List.mem_cons_of_mem e hm))

theorem lead?_quiet (he : e.Quiet) : lead? (e :: j) req = j.lead? req := by
  cases e with
  | registered | moved | removed => cases he
  | _ => rfl

/-- Names that lead to the same registration are the same. -/
theorem Lawful.lead?_inj (hl : j.Lawful) {req' : ReqId} (hn : j.lead? req = some n) (hn' : j.lead? req' = some n) :
    req = req' := by
  obtain ⟨slot, p, hm⟩ := registered_of_lead? hn
  obtain ⟨slot', p', hm'⟩ := registered_of_lead? hn'
  exact (hl.registered_inj hm hm').1

/-- A registration to which a name leads is held. -/
theorem Lawful.phase?_of_lead? (hl : j.Lawful) (hn : j.lead? req = some n) : (j.phase? n).isSome := by
  induction j with
  | nil => cases hn
  | cons e j ih =>
    cases e with
    | registered m req' slot p =>
      simp only [lead?, phase?] at hn ⊢
      split at hn
      · cases hn
        simp
      · split
        · rfl
        · exact ih hl.2 hn
    | moved m p =>
      simp only [lead?, phase?] at hn ⊢
      split
      · rfl
      · exact ih hl.2 hn
    | removed m =>
      simp only [lead?, phase?] at hn ⊢
      split at hn
      · cases hn
      · next hne =>
        rw [if_neg fun heq => hne (hn.trans (congrArg some heq.symm))]
        exact ih hl.2 hn
    | _ => exact ih hl.2 hn

/-- To each registration that is held leads its request's name, unless it has been left behind. -/
theorem Lawful.lead?_of_not_mem_strays (hl : j.Lawful) {slot : Nat} {p : Phase} (hm : .registered n req slot p ∈ j)
    (hp : (j.phase? n).isSome) (hn : n ∉ j.strays) : j.lead? req = some n := by
  induction j with
  | nil => cases hm
  | cons e j ih =>
    have earlier : .registered n req slot p ≠ e → .registered n req slot p ∈ j := fun hne =>
      (List.mem_cons.mp hm).resolve_left hne
    cases e with
    | registered m req' slot' p' =>
      rcases List.mem_cons.mp hm with heq | hm
      · cases heq
        exact if_pos rfl
      · have hne : m ≠ n := fun heq => hl.1.1 ⟨req, slot, p, heq ▸ hm⟩
        simp only [strays, List.mem_append, Option.mem_toList, not_or] at hn
        have hlead := ih hl.2 hm (by rwa [phase?, if_neg hne] at hp) hn.2
        rw [lead?, if_neg]
        · exact hlead
        · rintro rfl
          exact hn.1 hlead
    | moved m p' =>
      refine ih hl.2 (earlier (fun heq => by cases heq)) ?_ hn
      by_cases heq : m = n
      · subst heq
        obtain ⟨q, hq, -⟩ := hl.1
        exact hq ▸ rfl
      · rwa [phase?, if_neg heq] at hp
    | removed m =>
      have hne : m ≠ n := by
        rintro rfl
        simp [phase?] at hp
      have hlead := ih hl.2 (earlier (fun heq => by cases heq)) (by rwa [phase?, if_neg hne] at hp) hn
      rw [lead?, hlead, if_neg fun heq => hne (Option.some.inj heq).symm]
    | _ => exact ih hl.2 (earlier (fun heq => by cases heq)) hp hn

namespace Strayed

theorem quiet (hj : j.Strayed) (he : e.Quiet) : Strayed (e :: j) := by
  have hstrays : strays (e :: j) = j.strays := by
    refine strays_cons ?_
    rintro n req slot p rfl
    exact he
  refine ⟨hstrays ▸ hj.nodup, fun hn => ?_, fun hn req => ?_⟩
  · rw [phase?_quiet he]
    exact hj.held (hstrays ▸ hn)
  · rw [lead?_quiet he]
    exact hj.unled (hstrays ▸ hn) req

theorem append {es : List Entry} (hj : j.Strayed) (hes : ∀ e ∈ es, e.Quiet) : Strayed (es ++ j) := by
  induction es with
  | nil => exact hj
  | cons e es ih => exact (ih fun e' he' => hes e' (List.mem_cons_of_mem e he')).quiet (hes e List.mem_cons_self)

theorem moved {p : Phase} (hj : j.Strayed) : Strayed (.moved n p :: j) := by
  refine ⟨hj.nodup, fun {m} hm => ?_, hj.unled⟩
  rw [phase?]
  split
  · rfl
  · exact hj.held hm

/-- The registration to which the name has led is left behind, a new serial number being given. -/
theorem registered {slot : Nat} {p : Phase} (hj : j.Strayed) (hl : j.Lawful) (hn : ¬j.Knows n) :
    Strayed (.registered n req slot p :: j) := by
  have held : ∀ {m}, m ∈ strays (.registered n req slot p :: j) → (j.phase? m).isSome := by
    intro m hm
    rcases List.mem_append.mp hm with hm | hm
    · exact hl.phase?_of_lead? (Option.mem_toList.mp hm)
    · exact hj.held hm
  have fresh : ∀ {m}, m ∈ strays (.registered n req slot p :: j) → n ≠ m := by
    rintro m hm rfl
    obtain ⟨q, hq⟩ := Option.isSome_iff_exists.mp (held hm)
    exact hn (hl.knows_of_phase? hq)
  refine ⟨?_, fun {m} hm => ?_, fun {m} hm req' => ?_⟩
  · refine List.nodup_append.mpr ⟨?_, hj.nodup, fun m hm m' hm' heq => ?_⟩
    · cases j.lead? req with
      | none => exact .nil
      | some m => exact List.nodup_singleton m
    · exact hj.unled (heq ▸ hm') req (Option.mem_toList.mp hm)
  · rw [phase?, if_neg (fresh hm)]
    exact held hm
  · rw [lead?]
    split
    · exact fun heq => fresh hm (Option.some.inj heq)
    · next hne =>
      rcases List.mem_append.mp hm with hm | hm
      · exact fun heq => hne (hl.lead?_inj (Option.mem_toList.mp hm) heq)
      · exact hj.unled hm req'

/-- A registration that is removed by name has not been left behind. -/
theorem removed (hj : j.Strayed) (hn : j.lead? req = some n) : Strayed (.removed n :: j) := by
  refine ⟨hj.nodup, fun {m} hm => ?_, fun {m} hm req' => ?_⟩
  · rw [phase?, if_neg fun heq => hj.unled hm req (hn.trans (congrArg some heq))]
    exact hj.held hm
  · rw [lead?]
    split
    · exact fun heq => by cases heq
    · exact hj.unled hm req'

end Strayed
end Journal

/-! ### The worker -/

theorem Deed.strayed {a b : List Nat × State δ ω} (hc : Course a.2)
    (hled : ∀ req, a.2.worker.serial? req = a.2.shared.journal.lead? req) (hs : a.2.shared.journal.Strayed)
    (hab : Deed h a b) : b.2.shared.journal.Strayed := by
  cases hab with
  | service hab =>
    obtain ⟨es, hes, hm⟩ := hab.served.entries
    rw [hes]
    exact hs.append fun e he => (hm e he).quiet
  | moved => exact hs.moved
  | ended => exact (hs.moved).quiet (e := .called _ _ _) trivial
  | unread => exact (hs.quiet (e := .called _ _ _) trivial).moved
  | registered => exact hs.registered hc.lawful fun hn => Nat.lt_irrefl _ (hc.serials hn)
  | removed hk hr => exact hs.removed ((hled _).symm.trans (serial?_of_some hk hr))
  | read => exact hs.quiet (e := .called _ _ _) trivial
  | started => exact hs.quiet (e := .started _ _) trivial
  | begun => exact (hs.quiet (e := .ran _) trivial).quiet (e := .started _ _) trivial
  | ran => exact hs.quiet (e := .ran _) trivial
  | completed => exact hs.quiet (e := .completed _) trivial
  | taken htake =>
    obtain ⟨queue, -, rfl⟩ := Shared.pop_of_take htake
    exact hs.quiet (e := .taken _) trivial
  | looked htake =>
    obtain ⟨queue, -, rfl⟩ := Shared.pop_of_take_none htake
    exact hs
  | uncounted | untargeted | filtered | seen => exact hs

theorem Reachable.strayed (hs : Reachable h s) : s.shared.journal.Strayed :=
  (hs.invariant (P := fun a => (∀ req, a.2.worker.serial? req = a.2.shared.journal.lead? req) ∧
      a.2.shared.journal.Strayed)
    (fun _ _ _ _ => ⟨fun _ => rfl, .nil, nofun, nofun⟩)
    fun hc ⟨hled, hs⟩ hab => ⟨hab.led hc hled, hab.strayed hc hled hs⟩).2

/-- A name leads to a registration just if that has not been left behind. -/
theorem Reachable.slots_eq_some_iff (hs : Reachable h s) (hr : s.worker.requests.get? k = some r) :
    s.worker.slots[r.id]? = some k ↔ r.serial ∉ s.shared.journal.strays := by
  have hc := hs.course
  constructor
  · intro hk hm
    exact hs.strayed.unled hm r.id ((hs.led r.id).symm.trans (serial?_of_some hk hr))
  · intro hm
    obtain ⟨p, hp⟩ := hc.entered hr
    have hlead := hc.lawful.lead?_of_not_mem_strays hp (hc.phase hr ▸ rfl) hm
    obtain ⟨k', r', hk', hr', hserial⟩ := serial?_eq_some.mp ((hs.led r.id).trans hlead)
    rwa [hc.serial_inj hr hr' hserial.symm]

/-! ### How many there are -/

namespace Arena
variable {α : Type}

theorem finite_occupied (a : Arena α) : {k | (a.get? k).isSome}.Finite := by
  refine (Set.finite_lt_nat a.cells.size).subset fun k hk => ?_
  by_contra hlt
  have hnone : a.get? k = none := congrArg Option.join (Array.getElem?_eq_none (Nat.not_lt.mp hlt))
  have hsome : (a.get? k).isSome := hk
  rw [hnone] at hsome
  cases hsome

/-- An arena holds as many values as it has slots with a value. -/
theorem size_eq_ncard (a : Arena α) : a.size = {k | (a.get? k).isSome}.ncard := by
  have count : ∀ l : List (Option α), (l.filterMap id).length = {k : Nat | l[k]?.join.isSome}.ncard ∧
      {k : Nat | l[k]?.join.isSome}.Finite := by
    intro l
    induction l with
    | nil => simp
    | cons x l ih =>
      -- The slots of the rest, each moved on by one, and the first one if it holds a value.
      cases x with
      | none =>
        have hslots : {k : Nat | (none :: l)[k]?.join.isSome} = Nat.succ '' {k : Nat | l[k]?.join.isSome} := by
          ext k
          cases k <;> simp
        rw [hslots, Set.ncard_image_of_injective _ Nat.succ_injective]
        exact ⟨ih.1, ih.2.image _⟩
      | some v =>
        have hslots : {k : Nat | (some v :: l)[k]?.join.isSome} =
              {0} ∪ Nat.succ '' {k : Nat | l[k]?.join.isSome} := by
          ext k
          cases k <;> simp
        rw [hslots, Set.singleton_union, Set.ncard_insert_of_notMem (by simp) (ih.2.image _),
          Set.ncard_image_of_injective _ Nat.succ_injective, ← ih.1]
        exact ⟨rfl, (ih.2.image _).insert 0⟩
  simp only [size, values, (count _).1, get?, Array.getElem?_toList]

end Arena

/-- The slots to which names lead. -/
def Worker.led (w : Worker δ ω) : Set Nat := {k | ∃ req : ReqId, w.slots[req]? = some k}

/-- The slots of the registrations left behind. -/
def State.strayed (s : State δ ω) : Set Nat :=
  {k | ∃ r, s.worker.requests.get? k = some r ∧ r.serial ∈ s.shared.journal.strays}

/-- Names lead to as many slots as there are names that lead somewhere. -/
theorem Course.ncard_led (hs : Course s) : s.worker.led.ncard = {req : ReqId | s.worker.slots[req]?.isSome}.ncard := by
  refine (Set.ncard_congr (fun req _ => s.worker.slots[req]?.getD 0) ?_ ?_ ?_).symm
  · intro req hreq
    obtain ⟨k, hk⟩ := Option.isSome_iff_exists.mp hreq
    rw [hk]
    exact ⟨req, hk⟩
  · intro req req' hreq hreq' heq
    obtain ⟨k, hk⟩ := Option.isSome_iff_exists.mp hreq
    obtain ⟨k', hk'⟩ := Option.isSome_iff_exists.mp hreq'
    rw [hk, hk'] at heq
    cases heq
    obtain ⟨r, hr, hid⟩ := hs.named hk
    obtain ⟨r', hr', hid'⟩ := hs.named hk'
    rw [hr] at hr'
    cases hr'
    exact hid.symm.trans hid'
  · rintro k ⟨req, hk⟩
    exact ⟨req, Option.isSome_of_eq_some hk, by rw [hk]; rfl⟩

/-- All those that have been left behind are held still, each in a slot of its own. -/
theorem Reachable.ncard_strayed (hs : Reachable h s) : s.strayed.ncard = s.shared.journal.strays.length := by
  have hc := hs.course
  rw [← List.toFinset_card_of_nodup hs.strayed.nodup, ← Set.ncard_coe_finset]
  refine Set.ncard_congr (fun k _ => ((s.worker.requests.get? k).map (·.serial)).getD 0) ?_ ?_ ?_
  · rintro k ⟨r, hr, hm⟩
    rw [hr]
    exact List.mem_toFinset.mpr hm
  · rintro k k' ⟨r, hr, -⟩ ⟨r', hr', -⟩ heq
    rw [hr, hr'] at heq
    exact hc.serial_inj hr hr' heq
  · intro n hn
    have hm := List.mem_toFinset.mp hn
    obtain ⟨p, hp⟩ := Option.isSome_iff_exists.mp (hs.strayed.held hm)
    obtain ⟨k, r, hr, rfl⟩ := hc.held hp
    exact ⟨k, ⟨r, hr, hm⟩, by rw [hr]; rfl⟩

/-- The worker holds one registration for each name that leads somewhere, and those left behind. -/
theorem Reachable.size_requests (hs : Reachable h s) : s.worker.requests.size =
    {req : ReqId | s.worker.slots[req]?.isSome}.ncard + s.shared.journal.strays.length := by
  have hunion : {k | (s.worker.requests.get? k).isSome} = s.worker.led ∪ s.strayed := by
    ext k
    constructor
    · intro hk
      obtain ⟨r, hr⟩ := Option.isSome_iff_exists.mp hk
      by_cases hm : r.serial ∈ s.shared.journal.strays
      · exact .inr ⟨r, hr, hm⟩
      · exact .inl ⟨r.id, (hs.slots_eq_some_iff hr).mpr hm⟩
    · rintro (⟨req, hk⟩ | ⟨r, hr, -⟩)
      · obtain ⟨r, hr⟩ := hs.course.occupied hk
        exact Option.isSome_of_eq_some hr
      · exact Option.isSome_of_eq_some hr
  have hdisjoint : Disjoint s.worker.led s.strayed := by
    refine Set.disjoint_left.mpr ?_
    rintro k ⟨req, hk⟩ ⟨r, hr, hm⟩
    obtain ⟨r', hr', rfl⟩ := hs.course.named hk
    rw [hr] at hr'
    cases hr'
    exact (hs.slots_eq_some_iff hr).mp hk hm
  have hfinite : (s.worker.led ∪ s.strayed).Finite := hunion ▸ s.worker.requests.finite_occupied
  calc s.worker.requests.size
    _ = (s.worker.led ∪ s.strayed).ncard := by rw [Arena.size_eq_ncard, hunion]
    _ = s.worker.led.ncard + s.strayed.ncard := Set.ncard_union_eq hdisjoint
        (hfinite.subset Set.subset_union_left) (hfinite.subset Set.subset_union_right)
    _ = _ := by rw [hs.course.ncard_led, hs.ncard_strayed]

/-! ### How registrations come to be left behind -/

theorem Chore.strays {R C : Prop} (hR : ¬R) (hst : Chore h R C s t) :
    t.shared.journal.strays = s.shared.journal.strays := by
  cases hst with
  | aside es _ _ _ hj hes =>
    rw [hj]
    refine Journal.strays_append fun n req slot p hm => ?_
    cases hes _ hm
  | sent p =>
    obtain ⟨es, hj, hes⟩ := Shared.send_minor h.waker s.shared p
    refine (congrArg Journal.strays hj).trans (Journal.strays_append fun n req slot p hm => ?_)
    exact hes _ hm
  | registered _ _ _ _ hr => exact absurd hr hR

theorem Chores.strays (hst : Chores h False True s t) : t.shared.journal.strays = s.shared.journal.strays := by
  induction hst with
  | refl => rfl
  | tail _ hst ih => exact (hst.strays not_false).trans ih

/-- Once a request has been removed by name its name leads nowhere. -/
theorem Course.exec_unregister (hs : Course s) (hled : ∀ req, s.worker.serial? req = s.shared.journal.lead? req)
    (req : ReqId) : ∃ t, (unregister req).exec s = (.ok (), t) ∧ t.worker.slots[req]? = none ∧
      t.shared.journal.lead? req = none ∧ t.shared.journal.strays = s.shared.journal.strays := by
  cases hk : s.worker.slots[req]? with
  | none =>
    have hserial : s.worker.serial? req = none := by
      unfold Worker.serial? Worker.registration?
      rw [hk]
      rfl
    exact ⟨s, exec_unregister_of_none hk, hk, (hled req).symm.trans hserial, rfl⟩
  | some k =>
    obtain ⟨r, hr⟩ := hs.occupied hk
    refine ⟨_, exec_unregister_of_some hk hr, (slots_removed req r.serial req).trans (if_pos rfl), ?_, rfl⟩
    exact if_pos ((hled req).symm.trans (serial?_of_some hk hr))

/-- A request that is registered again when the engine has routed it here is removed first. -/
theorem Reachable.strays_contentPhase (hs : Reachable h s) (req : ReqId) :
    (h.contentPhase req).Leaves (fun t => t.shared.journal.strays = s.shared.journal.strays) s := by
  have rest : ∀ {α : Type} {a : Action δ ω α} {t : State δ ω}, a.Errand h False True →
      t.shared.journal.strays = s.shared.journal.strays →
      a.Leaves (fun t => t.shared.journal.strays = s.shared.journal.strays) t :=
    fun ha ht => (ha.chores _).mono fun _ hu => hu.strays.trans ht
  have hasked : Service h none ([], s) ([], h.asked none (.location req) s) :=
    .spoken (.aside (Spoken.asked_none rfl))
  have hdeed : Deed h ([], s) ([], h.asked none (.location req) s) := .service hasked
  have hstrays : (h.asked none (.location req) s).shared.journal.strays = s.shared.journal.strays := rfl
  refine Leaves.bind_mono (P := fun t => t = h.asked none (.location req) s) (h.leaves_call.mpr rfl) ?_ ?_
  · rintro t rfl
    exact hstrays
  · rintro location t - rfl
    split
    · exact (rest (.log rfl) hstrays).bind fun _ _ _ hu => .pure hu
    · obtain ⟨t, hexec, -, hlead, ht⟩ := Course.exec_unregister (hdeed.course hs.course)
        (hdeed.led hs.course hs.led) req
      refine .bind_of_ok hexec (.bind_of_ok (exec_register req _ _ _) (rest (.startBody req) ?_))
      show (t.shared.journal.lead? req).toList ++ t.shared.journal.strays = _
      rw [hlead]
      exact ht.trans hstrays

/-- An anchor leaves behind the registration to which its name has led. -/
theorem Reachable.strays_newAnchor (hs : Reachable h s) (server : UInt64) :
    ((h.newAnchor server).exec s).2.shared.journal.strays = s.shared.journal.strays ∨
    ∃ req r, (h.engine (.newAnchor server) s.shared.world).1 = .ok (.ok req) ∧
      s.worker.registration? req = some r ∧
      ((h.newAnchor server).exec s).2.shared.journal.strays = r.serial :: s.shared.journal.strays := by
  unfold Host.newAnchor
  cases hreply : (h.engine (.newAnchor server) s.shared.world).1 with
  | error message =>
    rw [exec_bind_of_error (h.exec_call_of_error hreply)]
    exact .inl rfl
  | ok reply =>
    rw [exec_bind_of_ok (h.exec_call_of_ok hreply)]
    cases reply with
    | error cause => exact .inl rfl
    | ok req =>
      let t := h.asked none (.newAnchor server) s
      have hstrays : (Registry.registered t req .handling none true).shared.journal.strays =
          (s.worker.serial? req).toList ++ s.shared.journal.strays := by
        rw [hs.led]
        rfl
      cases hr : s.worker.registration? req with
      | none =>
        refine .inl (hstrays.trans ?_)
        unfold Worker.serial?
        rw [hr]
        rfl
      | some r =>
        refine .inr ⟨req, r, rfl, hr, hstrays.trans ?_⟩
        unfold Worker.serial?
        rw [hr]
        rfl

theorem Host.strays_reportFailed (h : Host δ ω) (s : State δ ω) :
    (h.reportFailed.exec s).2.shared.journal.strays = s.shared.journal.strays := by
  have hleaves : h.reportFailed.Leaves (fun t => t.shared.journal.strays = s.shared.journal.strays) s := by
    refine .bind_of_ok rfl (.bind_of_ok exec_worker ?_)
    dsimp only
    split
    · refine Leaves.bind (Leaves.mono (Spoken.log _ _) fun t (ht : Spoken none s t) => ?_) fun _ _ _ ht => ht
      obtain ⟨es, hes, hm⟩ := ht.served.entries
      rw [hes]
      exact Journal.strays_append fun n req slot p he => hm _ he
    · exact .pure rfl
  exact hleaves

/-- A step leaves a registration behind just if it makes an anchor under a name that leads to one. -/
theorem Reachable.strays_step (hs : Reachable h s) (hst : Step h s t) :
    t.shared.journal.strays = s.shared.journal.strays ∨ ∃ server req r, t = ((h.newAnchor server).exec s).2 ∧
      (h.engine (.newAnchor server) s.shared.world).1 = .ok (.ok req) ∧ s.worker.registration? req = some r ∧
      t.shared.journal.strays = r.serial :: s.shared.journal.strays := by
  rcases hst.chores with ⟨hook, hregisters, rfl⟩ | rfl | ⟨u, hlooks, hchores⟩
  · cases hook with
    | contentPhase req => exact .inl (hs.strays_contentPhase req)
    | newAnchor server =>
      exact (hs.strays_newAnchor server).imp_right fun ⟨req, r, hreply, hr, hstrays⟩ =>
        ⟨server, req, r, rfl, hreply, hr, hstrays⟩
    | _ => cases hregisters
  · exact .inl (h.strays_reportFailed s)
  · left
    refine hchores.strays.trans ?_
    rcases hlooks with rfl | ⟨taken, sh, htake, rfl⟩
    · rfl
    · cases taken with
      | none =>
        obtain ⟨queue, -, rfl⟩ := Shared.pop_of_take_none htake
        rfl
      | some p =>
        obtain ⟨queue, -, rfl⟩ := Shared.pop_of_take htake
        rfl

/-! ### The law -/

/-- A name leads to a registration of its request, and the only registrations that it does not lead to are those
    left behind. These are counted among the active requests, and are there still when their request has been
    released. What leaves a registration behind is an anchor under a name that is in use, and nothing else. -/
theorem Reachable.registry_law (hs : Reachable h s) :
    (∀ {req : ReqId} {k}, s.worker.slots[req]? = some k →
      ∃ r, s.worker.requests.get? k = some r ∧ r.id = req) ∧
    (∀ {k r}, s.worker.requests.get? k = some r →
      (s.worker.slots[r.id]? = some k ↔ r.serial ∉ s.shared.journal.strays)) ∧
    (∀ tick, (h.perform tick .activeRequests).exec s =
      (.ok ({req : ReqId | s.worker.slots[req]?.isSome}.ncard + s.shared.journal.strays.length), s)) ∧
    (∀ req, ∃ t, (Host.released req).exec s = (.ok (), t) ∧ ∀ {k r}, t.worker.requests.get? k = some r →
      r.id = req → r.serial ∈ s.shared.journal.strays) ∧
    (∀ {t}, Step h s t → t.shared.journal.strays = s.shared.journal.strays ∨
      ∃ server req r, t = ((h.newAnchor server).exec s).2 ∧
        (h.engine (.newAnchor server) s.shared.world).1 = .ok (.ok req) ∧ s.worker.registration? req = some r ∧
        t.shared.journal.strays = r.serial :: s.shared.journal.strays) := by
  refine ⟨hs.course.named, hs.slots_eq_some_iff, fun tick => ?_, fun req => ?_, hs.strays_step⟩
  · rw [← hs.size_requests]
    rfl
  · obtain ⟨t, hexec, hnone, -, hstrays⟩ := hs.course.exec_unregister hs.led req
    have hreleased : (Host.released req).exec s =
        (.ok (), { t with worker := { t.worker with targets := t.worker.targets.erase req } }) := by
      unfold Host.released
      rw [exec_bind_of_ok hexec]
      rfl
    refine ⟨_, hreleased, fun {k r} hr hid => ?_⟩
    have hu : Reachable h ((Host.released req).exec s).2 := hs.step (.hook (.released req))
    rw [hreleased] at hu
    by_contra hm
    have hk := (hu.slots_eq_some_iff hr).mpr (hstrays ▸ hm)
    rw [hid] at hk
    exact absurd (hnone.symm.trans hk) nofun

/-- An anchor has been made under the name of a request that has not been released. -/
theorem registry_law_when_reused :
    let h : Host Unit Unit := .prompt ⟨9⟩ (.finish (.ok .async))
    ∃ s r, Reachable h s ∧ s.worker.requests.get? 0 = some r ∧ r.id = ⟨9⟩ ∧
      s.worker.slots[r.id]? ≠ some 0 ∧
      (∀ tick, (h.perform tick .activeRequests).exec s =
        (.ok ({req : ReqId | s.worker.slots[req]?.isSome}.ncard + 1), s)) := by
  intro h
  obtain ⟨s, hs, hfields, hstrays⟩ : ∃ s, Reachable h s ∧
      (s.worker.requests.get? 0).map (fun r => (r.id, r.serial)) = some (⟨9⟩, 1) ∧
      s.shared.journal.strays = [1] :=
    ⟨((h.run (.hook (.contentPhase ⟨9⟩) fun _ => .hook (.newAnchor 0) fun _ => .done)).exec State.fresh).2,
      Reachable.fresh.run _, by decide +kernel, by decide +kernel⟩
  obtain ⟨r, hr, hid⟩ := Option.map_eq_some_iff.mp hfields
  obtain ⟨hid, hserial⟩ := Prod.mk.inj hid
  obtain ⟨-, hslots, hactive, -, -⟩ := Reachable.registry_law hs
  have hleft : r.serial ∈ s.shared.journal.strays := by rw [hstrays, hserial]; exact List.mem_singleton_self 1
  refine ⟨s, r, hs, hr, hid, fun hk => (hslots hr).mp hk hleft, fun tick => ?_⟩
  rw [hactive tick, hstrays]
  rfl

end EngineBridge
