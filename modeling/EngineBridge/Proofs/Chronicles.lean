import EngineBridge.Proofs.Acceptance
import EngineBridge.Proofs.Memory

/-! What a registration remembers of its request. Through the whole of a run, the first reading of a matter that
    comes to its end decides what all later ones come to; until then each of them asks the engine anew. -/

namespace EngineBridge
open EngineBridge.Action Registry
variable {δ ω : Type} {h : Host δ ω} {s t u : State δ ω} {a b : List Nat × State δ ω} {X : List Nat} {k n : Nat}
  {r r' : Registration} {c : RequestCall} {m : Matter}

/-! ### Chronicles -/

/-- A call that code has made on the request in a slot, and the state in which it has made it. -/
structure Access (δ ω : Type) where
  slot : Nat
  call : RequestCall
  before : State δ ω

namespace Access

/-- What a call has read of a matter, if it has come to its end. -/
def got? (h : Host δ ω) (m : Matter) (x : Access δ ω) : Option m.Value :=
  if x.call.matter? = some m then ((h.read x.slot m).exec x.before).1.toOption else none

/-- The complaints that a call for a body has led to. -/
def complaints (h : Host δ ω) (x : Access δ ω) : List (Option ReqId) :=
  if x.call = .body then
    ((h.answer x.slot .body).exec x.before).2.shared.journal.complaints.drop x.before.shared.journal.complaints.length
  else []

/-- The first call that has read a matter, calls being listed the latest first. -/
def first? (h : Host δ ω) (m : Matter) (l : List (Access δ ω)) : Option (Access δ ω) :=
  l.reverse.find? fun x => (x.got? h m).isSome

theorem first?_cons (x : Access δ ω) (l : List (Access δ ω)) :
    first? h m (x :: l) = (first? h m l).or (if (x.got? h m).isSome then some x else none) := by
  rw [first?, List.reverse_cons, List.find?_append, ← first?, List.find?_singleton]

theorem isSome_of_first? {x : Access δ ω} {l : List (Access δ ω)} (hx : first? h m l = some x) :
    (x.got? h m).isSome := by
  have hsome := List.find?_some hx
  exact hsome

theorem first?_cons_of_some {x y : Access δ ω} {l : List (Access δ ω)} (hx : first? h m l = some x) :
    first? h m (y :: l) = some x := by
  rw [first?_cons, hx]
  rfl

/-- A call that is the first to read a matter is a call for it. -/
theorem eq_of_first?_cons {x y : Access δ ω} {l : List (Access δ ω)} (hl : first? h m l = none)
    (hx : first? h m (y :: l) = some x) : x = y ∧ y.call.matter? = some m := by
  rw [first?_cons, hl, Option.none_or] at hx
  split at hx
  · next hy =>
    refine ⟨(Option.some.inj hx).symm, Decidable.byContradiction fun hc => ?_⟩
    rw [got?, if_neg hc] at hy
    cases hy
  · cases hx

theorem bind_first?_cons (y : Access δ ω) (l : List (Access δ ω)) :
    (first? h m (y :: l)).bind (·.got? h m) = ((first? h m l).bind (·.got? h m)).or (y.got? h m) := by
  cases hx : first? h m l with
  | some x =>
    obtain ⟨v, hv⟩ := Option.isSome_iff_exists.mp (isSome_of_first? hx)
    rw [first?_cons_of_some hx, Option.bind_some, hv]
    rfl
  | none =>
    rw [first?_cons, hx]
    cases hy : y.got? h m with
    | some v => simp [hy]
    | none => simp

/-- What has not been read is read with a look at the engine. -/
theorem got?_eq_look (hr : s.worker.requests.get? k = some r) (hn : r.kept m = none) (hc : c.matter? = some m) :
    got? h m ⟨k, c, s⟩ = ((h.look r m).exec s).1.toOption := by
  rw [got?, if_pos hc, Host.exec_read_fst hr hn]

/-- What has been read before is read again. -/
theorem got?_of_kept {v v' : m.Value} (hr : s.worker.requests.get? k = some r) (hkept : r.kept m = some v)
    (hv : got? h m ⟨k, c, s⟩ = some v') : v = v' := by
  unfold got? at hv
  split at hv
  · rw [Host.exec_read_of_kept hr hkept] at hv
    exact Option.some.inj hv
  · cases hv

theorem complaints_of_kept (hr : s.worker.requests.get? k = some r) {v : Bytes} (hv : r.kept .body = some v) :
    complaints h ⟨k, c, s⟩ = [] := by
  unfold complaints
  split
  · have hread : (h.answer k .body).exec s = (.ok v, s) := Host.exec_read_of_kept hr hv
    rw [hread, List.drop_length]
  · rfl

theorem complaints_of_none (hr : s.worker.requests.get? k = some r) (hn : r.kept .body = none) :
    complaints h ⟨k, .body, s⟩ = if h.spools s r.id then [some r.id] else [] := by
  have hlook := Host.complaints_look (h := h) (s := s) r
  have hread : ((h.answer k .body).exec s).2.shared = ((h.look r .body).exec s).2.shared := by
    show ((h.read k .body).exec s).2.shared = _
    rcases hl : (h.look r .body).exec s with ⟨e | v, t⟩
    · rw [Host.exec_read_of_error hr hn hl]
    · rw [Host.exec_read_of_ok hr hn hl]
      rfl
  rw [complaints, if_pos rfl, hread, hlook, List.drop_left]

end Access

/-- How a worker has come to a state and closures in hand since it was opened, with the calls that have been made on
    a registration on the way, the latest first. -/
inductive Chronicle (h : Host δ ω) (n : Nat) : List (Access δ ω) → List Nat × State δ ω → Prop
  | opened {store config data world s} : State.open store config data world = .ok s → Chronicle h n [] ([], s)
  | called {l X s k r} (c : RequestCall) : Chronicle h n l (X, s) → s.worker.requests.get? k = some r → r.serial = n →
    Chronicle h n (⟨k, c, s⟩ :: l) (X, ((h.answer k c).exec s).2)
  /-- Something else has been done; what comes to the same as a call on the registration is told as one. -/
  | apart {l a b} : Chronicle h n l a → Deed h a b → ¬h.Calls n a b → Chronicle h n l b

namespace Chronicle
variable {l : List (Access δ ω)}

theorem history (hl : Chronicle h n l a) :
    History h n (l.map fun x => (x.call, h.refusal? x.before x.slot x.call)) a := by
  induction hl with
  | opened hs => exact .opened hs
  | called c _ hr hn ih => exact .called c ih hr hn
  | apart _ hab hcalls ih => exact .apart ih hab hcalls

theorem recounts : Recounts h n (Chronicle h n) where
  opened := .opened
  called c hl hr hn := ⟨_, .called c hl hr hn⟩
  apart := .apart

end Chronicle

/-! ### What a chronicle tells of a registration -/

theorem Registration.id_answer (hr : s.worker.requests.get? k = some r)
    (hr' : ((h.answer k c).exec s).2.worker.requests.get? k = some r') : r'.id = r.id := by
  obtain ⟨r'', hr'', hcourse⟩ := (Spoken.answer (h := h) (s := s) (k := k) c).get? hr
  cases hr''.symm.trans hr'
  exact (Registration.course_inj hcourse).1

/-- What a registration remembers is what has been read first by the calls on it, and that is what the engine has
    told then and what all of them have read. One complaint is all that a body can lead to. -/
structure Recollection (h : Host δ ω) (l : List (Access δ ω)) (r : Registration) : Prop where
  kept : ∀ m, r.kept m = (Access.first? h m l).bind (·.got? h m)
  same : ∀ {m x v}, x ∈ l → x.got? h m = some v → r.kept m = some v
  told : ∀ {m x v}, Access.first? h m l = some x → x.got? h m = some v → h.told r.id x.before.shared.world m = .ok v
  complaints : (∀ x ∈ l, x.before.worker.LogsCalmly) → l.flatMap (Access.complaints h) =
    (Access.first? h .body l).elim [] fun x => if h.spools x.before r.id then [some r.id] else []

namespace Recollection
variable {l : List (Access δ ω)}

theorem new (hr : ∀ m, r.kept m = none) : Recollection h [] r where
  kept := hr
  same := nofun
  told := nofun
  complaints _ := rfl

theorem congr (hr : Recollection h l r) (hid : r'.id = r.id) (hkept : ∀ m, r'.kept m = r.kept m) :
    Recollection h l r' where
  kept m := (hkept m).trans (hr.kept m)
  same hx hv := (hkept _).trans (hr.same hx hv)
  told hx hv := hid ▸ hr.told hx hv
  complaints hl := hid ▸ hr.complaints hl

theorem kept_of_first? (hl : Recollection h l r) {x : Access δ ω} (hx : Access.first? h m l = some x) :
    ∃ v, x.got? h m = some v ∧ r.kept m = some v := by
  obtain ⟨v, hv⟩ := Option.isSome_iff_exists.mp (Access.isSome_of_first? hx)
  exact ⟨v, hv, by rw [hl.kept, hx, Option.bind_some, hv]⟩

theorem kept_of_none (hl : Recollection h l r) (hn : Access.first? h m l = none) : r.kept m = none := by
  rw [hl.kept, hn, Option.bind_none]

/-- What is remembered after a further call. -/
theorem called (hconsistent : h.Consistent) (hlogs : h.LogsCalmly) (hl : Recollection h l r)
    (hr : s.worker.requests.get? k = some r)
    (hr' : ((h.answer k c).exec s).2.worker.requests.get? k = some r') : Recollection h (⟨k, c, s⟩ :: l) r' where
  kept m := by
    rw [r.kept_answer hr hr', hl.kept, Access.bind_first?_cons]
    rfl
  same {m x v} hx hv := by
    rw [r.kept_answer hr hr']
    rcases List.mem_cons.mp hx with rfl | hx
    · cases hn : r.kept m with
      | none => exact hv
      | some v' =>
        rw [Access.got?_of_kept hr hn hv]
        rfl
    · rw [hl.same hx hv]
      rfl
  told {m x v} hx hv := by
    rw [Registration.id_answer hr hr']
    cases hx' : Access.first? h m l with
    | some x' =>
      obtain rfl := Option.some.inj ((Access.first?_cons_of_some hx').symm.trans hx)
      exact hl.told hx' hv
    | none =>
      obtain ⟨rfl, hc⟩ := Access.eq_of_first?_cons hx' hx
      rw [Access.got?_eq_look hr (hl.kept_of_none hx') hc] at hv
      cases he : ((h.look r m).exec s).1 with
      | ok v' =>
        rw [he] at hv
        cases hv
        exact Host.told_of_exec_look hconsistent hlogs he
      | error e =>
        rw [he] at hv
        cases hv
  complaints hcalm := by
    have ih := hl.complaints fun x hx => hcalm x (List.mem_cons_of_mem _ hx)
    rw [Registration.id_answer hr hr', List.flatMap_cons, ih]
    cases hx : Access.first? h .body l with
    | some x =>
      obtain ⟨v, -, hkept⟩ := hl.kept_of_first? hx
      rw [Access.complaints_of_kept hr hkept, Access.first?_cons_of_some hx]
      rfl
    | none =>
      have hn : r.kept .body = none := hl.kept_of_none hx
      rw [Access.first?_cons, hx, Option.elim_none, List.append_nil, Option.none_or]
      by_cases hc : c = .body
      · subst hc
        have hcalm : s.worker.LogsCalmly := hcalm _ List.mem_cons_self
        rw [Access.complaints_of_none hr hn, Access.got?_eq_look hr hn rfl, Host.exec_look_of_calm hconsistent hlogs hcalm]
        -- Only a look that comes to its end has found the body in a file.
        cases htold : h.told r.id s.shared.world .body with
        | ok v => rfl
        | error e =>
          rw [h.spools_eq_false htold]
          rfl
      · have hmatter : c.matter? ≠ some .body := fun heq => hc (RequestCall.eq_body heq)
        rw [Access.complaints, if_neg hc, Access.got?, if_neg hmatter]
        rfl

end Recollection

theorem Chronicle.recollection {l : List (Access δ ω)} (hconsistent : h.Consistent) (hlogs : h.LogsCalmly)
    (hl : Chronicle h n l a) : ∀ {k r}, a.2.worker.requests.get? k = some r → r.serial = n → Recollection h l r := by
  induction hl with
  | opened hs =>
    obtain rfl := State.open_eq hs
    exact nofun
  | @called l X s k r c hl hr hn ih =>
    intro k' r' hr' hn'
    have hst : Spoken (some k) s _ := Spoken.answer (h := h) c
    have hk : k' = k := Decidable.byContradiction fun hk => by
      rw [hst.others k' fun heq => hk (Option.some.inj heq).symm] at hr'
      exact hk (hl.history.course.serial_inj hr' hr (hn'.trans hn.symm))
    subst hk
    exact (ih hr hn).called hconsistent hlogs hr hr'
  | @apart l a b hl hab hcalls ih =>
    intro k r' hr' hn
    subst hn
    rcases hab.origin hr' with hcall | ⟨req, p, location, anchor, rfl⟩ | ⟨r, p, hr, rfl⟩
    · exact absurd hcall hcalls
    · -- No call has been made on a registration that is new.
      have hnil : l = [] := Decidable.byContradiction fun hne => by
        have hlt := hl.history.course.serials (hl.history.agrees.known (by simpa using hne))
        dsimp only at hlt
        omega
      subst hnil
      exact .new fun m => by cases m <;> rfl
    · exact (ih hr rfl).congr rfl fun m => by cases m <;> rfl

/-! ### The law of reading -/

/-- In every moment of every run, what has been read on a registration is read again, without the engine being
    asked: that is what it told when a reading was first completed. Until then each reading asks it anew, and so it
    is for a request that has just been registered, whatever has been read under its name before. One header is
    looked for among what all headers are read as. A body of which a part is in a file is read as empty; all
    readings together lead to one complaint about that, if the filter lets it through. -/
theorem Reachable.reading_law (hconsistent : h.Consistent) (hlogs : h.LogsCalmly) (hs : Reachable h s)
    (hu : Deeds h ([], s) X u) (hcalm : u.worker.LogsCalmly) (hr : u.worker.requests.get? k = some r) :
    (∃ l, Chronicle h r.serial l (X, u)) ∧
    (∀ l, Chronicle h r.serial l (X, u) →
      (∀ m, ∀ x ∈ l, ∀ v, x.got? h m = some v → (h.read k m).exec u = (.ok v, u)) ∧
      (∀ m x, Access.first? h m l = some x →
        ∃ v, x.got? h m = some v ∧ h.told r.id x.before.shared.world m = .ok v) ∧
      (∀ m, Access.first? h m l = none →
        ((h.read k m).exec u).1 = (h.told r.id u.shared.world m).mapError .panic) ∧
      ((∀ x ∈ l, x.before.worker.LogsCalmly) → l.flatMap (Access.complaints h) =
        (Access.first? h .body l).elim [] fun x => if h.spools x.before r.id then [some r.id] else [])) ∧
    (∀ name, (h.answer k (.header name)).exec u =
      (((h.read k .headers).exec u).1.map (Headers.find? · name), ((h.read k .headers).exec u).2)) ∧
    ∀ {req p location anchor k' u'}, (register req p location anchor).exec u = (.ok k', u') →
      ∀ m, ((h.read k' m).exec u').1 = (h.told req u'.shared.world m).mapError .panic := by
  refine ⟨?_, fun l hl => ?_, fun name => h.exec_header u k name, fun {req p location anchor k' u'} he m => ?_⟩
  · obtain ⟨l, hl⟩ := Chronicle.recounts.reachable hs
    exact Chronicle.recounts.deeds hl hu
  · have hrec := hl.recollection hconsistent hlogs hr rfl
    refine ⟨fun m x hx v hv => ?_, fun m x hx => ?_, fun m hn => ?_, hrec.complaints⟩
    · exact Host.exec_read_of_kept hr (hrec.same hx hv)
    · obtain ⟨v, hv, -⟩ := hrec.kept_of_first? hx
      exact ⟨v, hv, hrec.told hx hv⟩
    · rw [Host.exec_read_fst hr (hrec.kept_of_none hn), Host.exec_look_of_calm hconsistent hlogs hcalm]
  · rw [exec_register] at he
    cases he
    have hget : (registered u req p location anchor).worker.requests.get? u.worker.requests.nextSlot = some _ :=
      get?_registered_self
    have hcalm : (registered u req p location anchor).worker.LogsCalmly := hcalm
    rw [Host.exec_read_fst hget (by cases m <;> rfl), Host.exec_look_of_calm hconsistent hlogs hcalm]

/-- A host whose engine tells something else each time about the path and the headers of a request, and puts its
    body into memory after the first of these times. -/
def Host.fickle : Host Unit Nat :=
  let engine : Engine Unit Nat := fun
    | .uri _, w => (.ok [UInt8.ofNat (97 + w)], w + 1)
    | .headers _, w => (.ok [([97], [UInt8.ofNat (97 + w)])], w + 1)
    | .body _, w => (.ok (if w = 0 then [.inMemory [1], .inFile] else [.inMemory [2], .inMemory [3]]), w)
    | c, w => Engine.prompt ⟨9⟩ c w
  .plain engine ⟨∅, ∅⟩ id

theorem Host.fickle_consistent : Host.fickle.Consistent := fun he => he

theorem Host.fickle_logs : Host.fickle.LogsCalmly := fun _ _ _ => ⟨(), rfl⟩

/-- While the body is in a file it is read, and then the path: both are read like this ever after, but not on a new
    registration. -/
theorem Reachable.reading_law_when_fickle :
    let h := Host.fickle
    ∃ u l, Chronicle h 1 l ([], u) ∧ (h.read 0 .body).exec u = (.ok [], u) ∧
      h.told ⟨1⟩ u.shared.world .body = .ok [2, 3] ∧ (h.read 0 .uri).exec u = (.ok "a", u) ∧
      l.flatMap (Access.complaints h) = [some ⟨1⟩] ∧
      ∃ k' u', (register ⟨1⟩ .received (some 1) false).exec u = (.ok k', u') ∧
        ((h.read k' .uri).exec u').1 = .ok "b" := by
  intro h
  let s : State Unit Nat := ⟨.new {} (), .new .array {} 0⟩
  have hs : State.open .array {} () 0 = .ok s := rfl
  let s₁ := registered s ⟨1⟩ .handling (some 1) false
  let s₂ := ((h.answer 0 .body).exec s₁).2
  let u := ((h.answer 0 .uri).exec s₂).2
  have hnew : Deed h ([], s) ([], s₁) := .registered ⟨1⟩ (some 1) false nofun
  have hu : Deeds h ([], s) [] u := .tail (.tail (.single hnew) (.answered .body)) (.answered .uri)
  have hr₁ : s₁.worker.requests.get? 0 = some { id := ⟨1⟩, serial := 1, phase := .handling, location := some 1 } := by
    decide +kernel
  have hr₂ : s₂.worker.requests.get? 0 =
      some { id := ⟨1⟩, serial := 1, phase := .handling, location := some 1, body := some [] } := by decide +kernel
  have hr : u.worker.requests.get? 0 = some
      { id := ⟨1⟩, serial := 1, phase := .handling, location := some 1, uri := some "a", body := some [] } := by
    decide +kernel
  have hworld : u.shared.world = 1 := by decide +kernel
  have hcalm {t : State Unit Nat} (ht : t.worker.logger.isNone = true) : t.worker.LogsCalmly := .of_isNone ht
  let l : List (Access Unit Nat) := [⟨0, .uri, s₂⟩, ⟨0, .body, s₁⟩]
  have hl : Chronicle h 1 l ([], u) := by
    refine .called .uri (.called .body (.apart (.opened hs) hnew ?_) hr₁ rfl) hr₂ rfl
    rintro ⟨k, r, c, hr, -⟩
    cases hr
  obtain ⟨-, hlaw, -, hanew⟩ := Reachable.reading_law Host.fickle_consistent Host.fickle_logs (.opened hs) hu
    (hcalm (by decide +kernel)) hr
  obtain ⟨hread, -, -, hcomplaints⟩ := hlaw l hl
  have hbody := hread .body ⟨0, .body, s₁⟩ (by simp [l]) [] (by decide +kernel)
  have huri := hread .uri ⟨0, .uri, s₂⟩ (by simp [l]) "a" (by decide +kernel)
  have hone : l.flatMap (Access.complaints h) = [some ⟨1⟩] := by
    rw [hcomplaints (by simpa [l] using ⟨hcalm (by decide +kernel), hcalm (by decide +kernel)⟩)]
    decide +kernel
  have hregister := exec_register (s := u) ⟨1⟩ .received (some 1) false
  have hsame (s : State Unit Nat) : (registered s ⟨1⟩ .received (some 1) false).shared.world = s.shared.world := rfl
  have hnext := hanew hregister .uri
  rw [hsame, hworld] at hnext
  exact ⟨u, l, hl, hbody, by rw [hworld]; rfl, huri, hone, _, _, hregister, hnext⟩

end EngineBridge
