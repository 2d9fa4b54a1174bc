import EngineBridge.Routes
import Mathlib.Data.List.Induction
import Mathlib.Data.List.Nodup

/-! The table of callbacks that a list of entries makes. Handlers and resolvers are numbered apart. The table
    is not made if a number is taken twice for one kind, and what is reported then is the first entry whose
    number was taken; else each number leads to the callback that was entered under it. -/

namespace EngineBridge
variable {δ ω : Type} {r q : Route δ ω} {entries before after : List (Route δ ω)} {n : UInt64} {e : Error}

namespace Route

/-- What an entry is called in a report. -/
def kind : Route δ ω → String
  | handler _ _ => "handler"
  | resolver _ _ => "resolver"

/-- The number under which an entry stands. -/
def number : Route δ ω → UInt64
  | handler location _ => location
  | resolver pool _ => pool

/-- The place that an entry takes in the table. -/
def place (r : Route δ ω) : String × UInt64 := (r.kind, r.number)

/-- What is reported of an entry whose number is taken. -/
def report (r : Route δ ω) : Error := .duplicateRoute r.kind r.number

/-- The handler that an entry gives a location. -/
def handlerFor? (n : UInt64) : Route δ ω → Option (Callback δ ω)
  | handler location code => if location = n then some code else none
  | resolver _ _ => none

/-- The resolver that an entry gives a pool. -/
def resolverFor? (n : UInt64) : Route δ ω → Option (Resolver δ ω)
  | handler _ _ => none
  | resolver pool code => if pool = n then some code else none

end Route

namespace Routes

/-- Whether the place of an entry is taken. -/
def taken (t : Routes δ ω) : Route δ ω → Bool
  | .handler location _ => (t.handler? location).isSome
  | .resolver pool _ => (t.resolver? pool).isSome

namespace Builder
variable {b : Builder δ ω}

/-! ### One entry -/

theorem handler?_add (b : Builder δ ω) (r : Route δ ω) (n : UInt64) :
    (b.add r).routes.handler? n = (r.handlerFor? n).or (b.routes.handler? n) := by
  cases r with
  | handler location code =>
    simp only [add, handler?, Route.handlerFor?, Std.ExtTreeMap.getElem?_insert, Std.LawfulEqCmp.compare_eq_iff_eq]
    split <;> rfl
  | resolver pool code => rfl

theorem resolver?_add (b : Builder δ ω) (r : Route δ ω) (n : UInt64) :
    (b.add r).routes.resolver? n = (r.resolverFor? n).or (b.routes.resolver? n) := by
  cases r with
  | handler location code => rfl
  | resolver pool code =>
    simp only [add, resolver?, Route.resolverFor?, Std.ExtTreeMap.getElem?_insert, Std.LawfulEqCmp.compare_eq_iff_eq]
    split <;> rfl

theorem duplicate_add (b : Builder δ ω) (r : Route δ ω) :
    (b.add r).duplicate = b.duplicate.or (if b.routes.taken r then some r.report else none) := by
  cases r with
  | handler location code =>
    simp only [add, taken, handler?, Std.ExtTreeMap.isSome_getElem?_eq_contains]
    split <;> simp [Route.report, Route.kind, Route.number]
  | resolver pool code =>
    simp only [add, taken, resolver?, Std.ExtTreeMap.isSome_getElem?_eq_contains]
    split <;> simp [Route.report, Route.kind, Route.number]

/-- After an entry, its place is taken, as those are that were before. -/
theorem taken_add (b : Builder δ ω) (r q : Route δ ω) :
    (b.add r).routes.taken q ↔ r.place = q.place ∨ b.routes.taken q := by
  cases q with
  | handler location code =>
    simp only [taken, handler?_add, Option.isSome_or, Bool.or_eq_true]
    cases r <;> simp [Route.handlerFor?, Route.place, Route.kind, Route.number]
  | resolver pool code =>
    simp only [taken, resolver?_add, Option.isSome_or, Bool.or_eq_true]
    cases r <;> simp [Route.resolverFor?, Route.place, Route.kind, Route.number]

/-! ### A list of entries -/

theorem handler?_foldl (entries : List (Route δ ω)) (b : Builder δ ω) (n : UInt64) :
    (entries.foldl add b).routes.handler? n =
      (entries.reverse.findSome? (·.handlerFor? n)).or (b.routes.handler? n) := by
  induction entries generalizing b with
  | nil => rfl
  | cons r entries ih =>
    rw [List.foldl_cons, ih, handler?_add, List.reverse_cons, List.findSome?_append, Option.or_assoc]
    simp

theorem resolver?_foldl (entries : List (Route δ ω)) (b : Builder δ ω) (n : UInt64) :
    (entries.foldl add b).routes.resolver? n =
      (entries.reverse.findSome? (·.resolverFor? n)).or (b.routes.resolver? n) := by
  induction entries generalizing b with
  | nil => rfl
  | cons r entries ih =>
    rw [List.foldl_cons, ih, resolver?_add, List.reverse_cons, List.findSome?_append, Option.or_assoc]
    simp

theorem taken_foldl (entries : List (Route δ ω)) (q : Route δ ω) :
    (entries.foldl add .new).routes.taken q ↔ q.place ∈ entries.map Route.place := by
  induction entries using List.reverseRecOn with
  | nil => cases q <;> simp [new, empty, taken, handler?, resolver?]
  | append_singleton entries r ih =>
    rw [List.foldl_append, List.foldl_cons, List.foldl_nil, taken_add, ih]
    simp [or_comm, eq_comm]

/-- Nothing is reported as long as each entry has a place of its own. -/
theorem duplicate_eq_none_iff (entries : List (Route δ ω)) :
    (entries.foldl add .new).duplicate = none ↔ (entries.map Route.place).Nodup := by
  induction entries using List.reverseRecOn with
  | nil => simp [new]
  | append_singleton entries r ih =>
    have htaken := taken_foldl entries r
    rw [List.foldl_append, List.foldl_cons, List.foldl_nil, duplicate_add, Option.or_eq_none_iff, ih, List.map_append,
      List.nodup_append]
    simp [htaken]

/-- What is reported first stays what is reported. -/
theorem duplicate_foldl_of_eq_some (entries : List (Route δ ω)) {b : Builder δ ω} (hb : b.duplicate = some e) :
    (entries.foldl add b).duplicate = some e := by
  induction entries generalizing b with
  | nil => exact hb
  | cons r entries ih => exact ih (by rw [duplicate_add, hb, Option.some_or])

/-- What is reported is the first entry whose place was taken by an earlier one. -/
theorem duplicate_eq_some_iff (entries : List (Route δ ω)) (e : Error) :
    (entries.foldl add .new).duplicate = some e ↔ ∃ before r after, entries = before ++ r :: after ∧
      (before.map Route.place).Nodup ∧ r.place ∈ before.map Route.place ∧ e = r.report := by
  constructor
  · intro he
    induction entries using List.reverseRecOn with
    | nil => cases he
    | append_singleton entries r ih =>
      rw [List.foldl_append, List.foldl_cons, List.foldl_nil, duplicate_add] at he
      rcases Option.or_eq_some_iff.mp he with hbefore | ⟨hnone, hr⟩
      · obtain ⟨before, q, after, rfl, hnodup, hq, rfl⟩ := ih hbefore
        exact ⟨before, q, after ++ [r], by simp, hnodup, hq, rfl⟩
      · obtain ⟨htaken, hr⟩ := Option.ite_none_right_eq_some.mp hr
        exact ⟨entries, r, [], rfl, (duplicate_eq_none_iff entries).mp hnone, (taken_foldl entries r).mp htaken,
          (Option.some.inj hr).symm⟩
  · rintro ⟨before, r, after, rfl, hnodup, hr, rfl⟩
    rw [List.foldl_append, List.foldl_cons]
    refine duplicate_foldl_of_eq_some after ?_
    rw [duplicate_add, (duplicate_eq_none_iff before).mpr hnodup, if_pos ((taken_foldl before r).mpr hr),
      Option.none_or]

end Builder

/-! ### The finished table -/

theorem ofList_eq_error_iff : ofList entries = .error e ↔ ∃ before r after, entries = before ++ r :: after ∧
    (before.map Route.place).Nodup ∧ r.place ∈ before.map Route.place ∧ e = r.report := by
  rw [← Builder.duplicate_eq_some_iff, ofList, Builder.build]
  split
  · next hsome => simp [hsome]
  · next hnone => simp [hnone]

theorem ofList_eq_ok_iff {t : Routes δ ω} : ofList entries = .ok t ↔
    (entries.map Route.place).Nodup ∧ t = (entries.foldl Builder.add .new).routes := by
  rw [← Builder.duplicate_eq_none_iff, ofList, Builder.build]
  split
  · next hsome => simp [hsome]
  · next hnone => simp [hnone, eq_comm]

theorem eq_handler_of_handlerFor? {code : Callback δ ω} (hr : r.handlerFor? n = some code) : r = .handler n code := by
  cases r with
  | handler location code' =>
    obtain ⟨rfl, hcode⟩ := Option.ite_none_right_eq_some.mp hr
    exact congrArg _ (Option.some.inj hcode)
  | resolver => cases hr

theorem eq_resolver_of_resolverFor? {code : Resolver δ ω} (hr : r.resolverFor? n = some code) :
    r = .resolver n code := by
  cases r with
  | handler => cases hr
  | resolver pool code' =>
    obtain ⟨rfl, hcode⟩ := Option.ite_none_right_eq_some.mp hr
    exact congrArg _ (Option.some.inj hcode)

/-- Where each entry has a place of its own, the callback found for a number is the one that was entered. -/
theorem findSome?_eq_some_iff {α : Type} {f : Route δ ω → Option α} (entry : α → Route δ ω)
    (hentry : ∀ a, f (entry a) = some a) (heq : ∀ {r a}, f r = some a → r = entry a)
    (hplace : ∀ a b, (entry a).place = (entry b).place) (hnodup : (entries.map Route.place).Nodup) (a : α) :
    entries.reverse.findSome? f = some a ↔ entry a ∈ entries := by
  have mem {a : α} (ha : entries.reverse.findSome? f = some a) : entry a ∈ entries := by
    obtain ⟨r, hr, hra⟩ := List.exists_of_findSome?_eq_some ha
    exact heq hra ▸ List.mem_reverse.mp hr
  refine ⟨mem, fun ha => ?_⟩
  have hsome : (f (entry a)).isSome := by rw [hentry, Option.isSome_some]
  obtain ⟨b, hb⟩ := Option.isSome_iff_exists.mp
    (List.findSome?_isSome_iff.mpr ⟨entry a, List.mem_reverse.mpr ha, hsome⟩)
  have hab : entry a = entry b := List.inj_on_of_nodup_map hnodup ha (mem hb) (hplace a b)
  exact hb.trans ((hentry b).symm.trans (hab ▸ hentry a))

theorem handler?_of_ofList {t : Routes δ ω} (ht : ofList entries = .ok t) (n : UInt64) (code : Callback δ ω) :
    t.handler? n = some code ↔ .handler n code ∈ entries := by
  obtain ⟨hnodup, rfl⟩ := ofList_eq_ok_iff.mp ht
  rw [Builder.handler?_foldl, show (Builder.new : Builder δ ω).routes.handler? n = none from
    Std.ExtTreeMap.getElem?_empty, Option.or_none]
  exact findSome?_eq_some_iff (.handler n) (fun _ => if_pos rfl) eq_handler_of_handlerFor?
    (fun _ _ => rfl) hnodup code

theorem resolver?_of_ofList {t : Routes δ ω} (ht : ofList entries = .ok t) (n : UInt64) (code : Resolver δ ω) :
    t.resolver? n = some code ↔ .resolver n code ∈ entries := by
  obtain ⟨hnodup, rfl⟩ := ofList_eq_ok_iff.mp ht
  rw [Builder.resolver?_foldl, show (Builder.new : Builder δ ω).routes.resolver? n = none from
    Std.ExtTreeMap.getElem?_empty, Option.or_none]
  exact findSome?_eq_some_iff (.resolver n) (fun _ => if_pos rfl) eq_resolver_of_resolverFor?
    (fun _ _ => rfl) hnodup code

/-- A table is not made just if some entry has the kind and the number of an earlier one, and what is reported
    then are the kind and the number of the first such entry. Else each number leads to the handler that was
    entered under it, if one was, and to the resolver that was, whatever the other kind has under that
    number. -/
theorem build_law (entries : List (Route δ ω)) :
    ((∃ e, ofList entries = .error e) ↔
      ∃ before r after, entries = before ++ r :: after ∧ ∃ q ∈ before, q.kind = r.kind ∧ q.number = r.number) ∧
    (∀ e, ofList entries = .error e ↔ ∃ before r after, entries = before ++ r :: after ∧
      (∃ q ∈ before, q.kind = r.kind ∧ q.number = r.number) ∧
      before.Pairwise (fun p q => ¬(p.kind = q.kind ∧ p.number = q.number)) ∧
      e = .duplicateRoute r.kind r.number) ∧
    ∀ t, ofList entries = .ok t → (∀ n code, t.handler? n = some code ↔ .handler n code ∈ entries) ∧
      ∀ n code, t.resolver? n = some code ↔ .resolver n code ∈ entries := by
  have hplace (r : Route δ ω) (before : List (Route δ ω)) :
      (∃ q ∈ before, q.kind = r.kind ∧ q.number = r.number) ↔ r.place ∈ before.map Route.place := by
    simp [Route.place]
  have hapart (before : List (Route δ ω)) : before.Pairwise (fun p q => ¬(p.kind = q.kind ∧ p.number = q.number)) ↔
      (before.map Route.place).Nodup := by
    simp [List.Nodup, List.pairwise_map, Route.place]
  simp only [hplace, hapart]
  refine ⟨⟨fun ⟨e, he⟩ => ?_, ?_⟩, fun e => ?_, fun t ht => ⟨handler?_of_ofList ht, resolver?_of_ofList ht⟩⟩
  · obtain ⟨before, r, after, heq, -, hr, -⟩ := ofList_eq_error_iff.mp he
    exact ⟨before, r, after, heq, hr⟩
  · rintro ⟨before, r, after, rfl, hr⟩
    cases hmade : ofList (before ++ r :: after) with
    | error e => exact ⟨e, rfl⟩
    | ok t =>
      have hnodup := (ofList_eq_ok_iff.mp hmade).1
      rw [List.map_append, List.map_cons] at hnodup
      exact absurd hr fun hr => (List.nodup_append.mp hnodup).2.2 _ hr _ List.mem_cons_self rfl
  · rw [ofList_eq_error_iff]
    simp only [and_left_comm, Route.report]

/-- A handler and a resolver share a number. -/
theorem build_law_when_shared :
    let serve : Callback Unit Unit := .finish (.ok .ok)
    let decline : Resolver Unit Unit := .finish (.ok none)
    ∃ t, ofList [.handler 1 serve, .resolver 1 decline, .handler 2 serve] = .ok t ∧ t.handler? 1 = some serve ∧
      t.resolver? 1 = some decline ∧ t.resolver? 2 = none := by
  intro serve decline
  let entries : List (Route Unit Unit) := [.handler 1 serve, .resolver 1 decline, .handler 2 serve]
  have hmade : ofList entries = .ok _ := ofList_eq_ok_iff.mpr ⟨by decide, rfl⟩
  obtain ⟨hhandler, hresolver⟩ := (build_law entries).2.2 _ hmade
  refine ⟨_, hmade, (hhandler 1 serve).mpr (by simp [entries]), (hresolver 1 decline).mpr (by simp [entries]), ?_⟩
  exact Option.eq_none_iff_forall_ne_some.mpr fun code hcode => by simpa [entries] using (hresolver 2 code).mp hcode

end Routes
end EngineBridge
