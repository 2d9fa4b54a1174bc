import EngineBridge.Proofs.Fifo
import EngineBridge.Queue.Session

/-! What becomes of the values that are pushed onto a ring. Each of them is handed back, or popped, or it is
    destroyed with the ring. The ring does not count what it holds, so the walk that destroys it goes from
    slot to slot until the sequence there is not that of a value. The walk is a relation here: that it comes
    to an end, on a full ring too, has to be shown. -/

namespace EngineBridge.Queue

/-! ### The walk over a ring -/

namespace Ring
variable {α : Type} {r : Ring α} {p : Nat} {pos : UInt64} {items : List α} {vs vs' : List (Fin (size r.order) × α)}

/-- What is in the slot of a position. -/
def found (r : Ring α) (pos : UInt64) : Slot α := r.slots.get (r.index pos)

theorem readyFrom_succ (r : Ring α) (limit : Nat) (pos : UInt64) : r.readyFrom (limit + 1) pos =
    if (r.found pos).sequence = pos + 1 then (r.found pos).value.toList ++ r.readyFrom limit (pos + 1) else [] := rfl

/-- From a position on, the values in these slots are destroyed. -/
inductive Walks (r : Ring α) : UInt64 → List (Fin (size r.order) × α) → Prop
  | stop {pos : UInt64} : (r.found pos).sequence ≠ pos + 1 → Walks r pos []
  | destroy {pos : UInt64} {value : α} {vs : List (Fin (size r.order) × α)} :
    (r.found pos).sequence = pos + 1 → (r.found pos).value = some value →
    Walks r (pos + 1) vs → Walks r pos ((r.index pos, value) :: vs)

theorem Walks.unique (hv : r.Walks pos vs) (hv' : r.Walks pos vs') : vs = vs' := by
  induction hv generalizing vs' with
  | stop hs =>
    cases hv' with
    | stop => rfl
    | destroy hs' => exact absurd hs' hs
  | destroy hs hvalue _ ih =>
    cases hv' with
    | stop hs' => exact absurd hs hs'
    | destroy _ hvalue' hv' =>
      rw [hvalue, Option.some.injEq] at hvalue'
      rw [hvalue', ih hv']

/-- A walk that may go on long enough finds what there is to destroy. -/
theorem Walks.readyFrom_eq (hv : r.Walks pos vs) {limit : Nat} (hlimit : vs.length < limit) :
    r.readyFrom limit pos = vs.map Prod.snd := by
  induction hv generalizing limit with
  | stop hs =>
    obtain ⟨limit, rfl⟩ := Nat.exists_eq_add_of_lt hlimit
    exact if_neg hs
  | @destroy pos value vs hs hvalue _ ih =>
    obtain ⟨limit, rfl⟩ : ∃ m, limit = m + 1 := ⟨limit - 1, by omega⟩
    rw [readyFrom_succ, if_pos hs, hvalue, ih (by simpa using hlimit)]
    rfl

/-- The visits that find values at successive positions, counted without wrapping. -/
def visits (r : Ring α) : Nat → List α → List (Fin (size r.order) × α)
  | _, [] => []
  | p, value :: items => (r.index (.ofNat p), value) :: r.visits (p + 1) items

theorem map_snd_visits : ∀ (p : Nat) (items : List α), (r.visits p items).map Prod.snd = items
  | _, [] => rfl
  | p, value :: items => by simp [visits, map_snd_visits (p + 1) items]

theorem mem_slots_visits {i : Fin (size r.order)} : ∀ {p : Nat} {items : List α},
    i ∈ (r.visits p items).map Prod.fst ↔ ∃ j < items.length, r.index (.ofNat (p + j)) = i
  | _, [] => by simp [visits]
  | p, value :: items => by
    rw [visits, List.map_cons, List.mem_cons, mem_slots_visits]
    constructor
    · rintro (rfl | ⟨j, hj, rfl⟩)
      · exact ⟨0, by simp, rfl⟩
      · exact ⟨j + 1, by simpa using hj, by rw [Nat.add_right_comm, Nat.add_assoc]⟩
    · rintro ⟨_ | j, hj, rfl⟩
      · exact .inl rfl
      · exact .inr ⟨j, by simpa using hj, by rw [Nat.add_right_comm, Nat.add_assoc]⟩

/-- No lap is so short that the walk comes to a slot twice. -/
theorem nodup_slots_visits (ho : r.order ≤ 64) : ∀ {p : Nat} {items : List α}, items.length ≤ r.capacity →
    ((r.visits p items).map Prod.fst).Nodup
  | _, [], _ => .nil
  | p, value :: items, hle => by
    refine List.nodup_cons.mpr ⟨fun hm => ?_, nodup_slots_visits ho (Nat.le_of_succ_le hle)⟩
    obtain ⟨j, hj, heq⟩ := mem_slots_visits.mp hm
    rw [List.length_cons] at hle
    rw [Nat.add_assoc] at heq
    have := index_inj (p := p) (i := 1 + j) (j := 0) ho (by omega) r.capacity_pos heq
    omega

/-- Each slot is that of some position of the lap that begins at a position. -/
theorem exists_index (ho : r.order ≤ 64) (p : Nat) (i : Fin (size r.order)) :
    ∃ j < r.capacity, r.index (.ofNat (p + j)) = i := by
  have hpos : 0 < r.capacity := r.capacity_pos
  refine ⟨(i + (r.capacity - p % r.capacity)) % r.capacity, Nat.mod_lt _ hpos, Fin.ext ?_⟩
  have hp : p % r.capacity + r.capacity * (p / r.capacity) = p := Nat.mod_add_div p r.capacity
  have hlt : p % r.capacity < r.capacity := Nat.mod_lt _ hpos
  have hsum : p + (i + (r.capacity - p % r.capacity)) = i + r.capacity * (p / r.capacity + 1) := by
    rw [Nat.mul_add_one]
    omega
  rw [index_ofNat ho, Nat.add_mod_mod, hsum, Nat.add_mul_mod_self_left]
  exact Nat.mod_eq_of_lt i.isLt

namespace Holds

/-- The walk from a position on visits the values from there on and stops behind the last one. -/
theorem walks (hr : r.Holds p items) (hsize : r.capacity < UInt64.size) : ∀ (front back : List α),
    items = front ++ back → r.Walks (.ofNat (p + front.length)) (r.visits (p + front.length) back)
  | front, [], heq => by
    rw [List.append_nil] at heq
    exact .stop (heq ▸ hr.slotAt_tail_ne hsize)
  | front, value :: back, heq => by
    have hlt : front.length < r.capacity :=
      Nat.lt_of_lt_of_le (by simp [heq]) hr.length_le
    have hslot : r.slotAt (p + front.length) = ⟨.ofNat (p + front.length) + 1, some value⟩ := by
      rw [hr.slots _ hlt, heq, List.getElem?_append_right (Nat.le_refl _), Nat.sub_self]
      rfl
    have hnext : UInt64.ofNat (p + front.length) + 1 = .ofNat (p + front.length + 1) := (UInt64.ofNat_add _ 1).symm
    have hrest := hr.walks hsize (front ++ [value]) back (by simp [heq])
    rw [List.length_append, List.length_singleton, ← Nat.add_assoc, ← hnext] at hrest
    refine .destroy (congrArg Slot.sequence hslot) (congrArg Slot.value hslot) ?_
    rw [hnext] at hrest ⊢
    exact hrest

/-- The slots that are visited are those that hold a value. -/
theorem mem_slots_iff (hr : r.Holds p items) (i : Fin (size r.order)) :
    i ∈ (r.visits p items).map Prod.fst ↔ (r.slots[i]).value.isSome := by
  obtain ⟨j, hj, rfl⟩ := exists_index hr.order_le p i
  have hvalue : (r.slotAt (p + j)).value = items[j]? := by
    rw [hr.slots j hj]
    cases items[j]? <;> rfl
  show _ ↔ (r.slotAt (p + j)).value.isSome
  rw [hvalue, isSome_getElem?, mem_slots_visits]
  constructor
  · rintro ⟨j', hj', heq⟩
    rwa [← index_inj hr.order_le (Nat.lt_of_lt_of_le hj' hr.length_le) hj heq]
  · exact fun hlt => ⟨j, hlt, rfl⟩

end Holds
end Ring

/-! ### What has become of the values -/

section
variable {Q α : Type} {f : Functions Q α} {R : Q → Bounded α → Prop} {q : Q} {b : Bounded α}

/-- The queue after requests have been answered in turn. -/
def Functions.after (f : Functions Q α) (q : Q) (ops : List (Op α)) : Q := ops.foldl (fun q op => (f.answer q op).2) q

/-- The values that are pushed. -/
def pushes (ops : List (Op α)) : List α := ops.filterMap fun
  | .push _ value => some value
  | _ => none

/-- The values whose pushes are accepted. -/
def accepted (ops : List (Op α)) (answers : List (Answer α)) : List α := (ops.zip answers).filterMap fun
  | (.push _ value, .pushed (.ok _)) => some value
  | _ => none

/-- The values that are handed back. -/
def handedBack (answers : List (Answer α)) : List α := answers.filterMap fun
  | .pushed (.error value) => some value
  | _ => none

/-- The values that are popped. -/
def popped (answers : List (Answer α)) : List α := answers.filterMap fun
  | .popped value => value
  | _ => none

theorem Functions.Simulates.after (hf : f.Simulates R) (h : R q b) :
    ∀ ops, R (f.after q ops) (Bounded.functions.after b ops) := by
  intro ops
  induction ops generalizing q b with
  | nil => exact h
  | cons op ops ih => exact ih (hf.answer h op).2

/-- The values that a list with a bound holds and those that it accepts are popped, oldest first, or still held. -/
theorem Bounded.items_accepted (b : Bounded α) (ops : List (Op α)) :
    b.items ++ accepted ops (functions.answers b ops) =
      popped (functions.answers b ops) ++ (functions.after b ops).items := by
  induction ops generalizing b with
  | nil => simp [accepted, popped, Functions.answers, Functions.after]
  | cons op ops ih =>
    have hrest := ih (functions.answer b op).2
    simp only [accepted, popped, Functions.answers, Functions.after, List.zip_cons_cons, List.filterMap_cons,
      List.foldl_cons] at hrest ⊢
    cases op with
    | push sender value =>
      rcases Nat.lt_or_ge b.length b.capacity with hlt | hge
      · simpa [Functions.answer, functions, push_of_lt hlt] using hrest
      · simpa [Functions.answer, functions, push_of_le hge] using hrest
    | pop =>
      obtain ⟨capacity, _ | ⟨value, items⟩⟩ := b
      · simpa [Functions.answer, functions, pop] using hrest
      · simpa [Functions.answer, functions, pop] using hrest
    | length | isEmpty | capacity => simpa [Functions.answer] using hrest

/-- Each value that is pushed is accepted or handed back. -/
theorem Bounded.pushes_perm (b : Bounded α) (ops : List (Op α)) :
    (pushes ops).Perm (handedBack (functions.answers b ops) ++ accepted ops (functions.answers b ops)) := by
  induction ops generalizing b with
  | nil => exact .nil
  | cons op ops ih =>
    have hrest := ih (functions.answer b op).2
    simp only [pushes, accepted, handedBack, Functions.answers, List.zip_cons_cons, List.filterMap_cons] at hrest ⊢
    cases op with
    | push sender value =>
      rcases Nat.lt_or_ge b.length b.capacity with hlt | hge
      · simp only [Functions.answer, functions, push_of_lt hlt, Prod.map] at hrest ⊢
        exact (hrest.cons value).trans List.perm_middle.symm
      · simp only [Functions.answer, functions, push_of_le hge, Prod.map] at hrest ⊢
        exact hrest.cons value
    | pop | length | isEmpty | capacity => exact hrest

end

/-- A queue over a ring stays one. -/
theorem Channel.exists_after_ring {α : Type} (ops : List (Op α)) :
    ∀ r : Ring α, ∃ r', functions.after (.ring r) ops = .ring r' := by
  induction ops with
  | nil => exact fun r => ⟨r, rfl⟩
  | cons op ops ih =>
    intro r
    cases op with
    | push sender value => exact ih (r.push value).2
    | pop => exact ih r.pop.2
    | length | isEmpty | capacity => exact ih r

/-! ### Sessions -/

namespace Session

/-- How many values a request pushes. -/
def Request.attempts : Request → Nat
  | push _ => 1
  | pushAll values => values.length
  | pushRun _ count => count
  | _ => 0

namespace State
variable {s : State} {n : Nat}

/-- Of this number of values pushed so far, each has been destroyed or is still held. -/
structure Accounts (s : State) (n : Nat) : Prop where
  total : ∃ items, s.channel.Holds items ∧ s.destroyed + items.length = n
  counted : s.channel.capacity < UInt64.size

namespace Accounts

theorem push (hs : s.Accounts n) (value : Int) : (s.push value).2.Accounts (n + 1) := by
  obtain ⟨⟨items, hc, htotal⟩, hsize⟩ := hs
  rcases Nat.lt_or_ge items.length s.channel.capacity with hlt | hge
  · obtain ⟨c, hpush, hc', hcap⟩ := hc.push_of_lt hlt value
    have hs : s.push value = (.ok (), ⟨c, s.destroyed⟩) := by simp [State.push, hpush]
    rw [hs]
    exact ⟨⟨_, hc', by simp; omega⟩, hcap ▸ hsize⟩
  · have hs : s.push value = (.error value, ⟨s.channel, s.destroyed + 1⟩) := by simp [State.push, hc.push_of_le hge]
    rw [hs]
    exact ⟨⟨items, hc, by simp; omega⟩, hsize⟩

theorem pushAll (hs : s.Accounts n) (values : List Int) : (s.pushAll values).2.Accounts (n + values.length) := by
  induction values generalizing s n with
  | nil => exact hs
  | cons value values ih =>
    rw [List.length_cons, Nat.add_comm values.length, ← Nat.add_assoc]
    exact ih (hs.push value)

theorem pop (hs : s.Accounts n) : s.pop.2.Accounts n := by
  obtain ⟨⟨items, hc, htotal⟩, hsize⟩ := hs
  cases items with
  | nil =>
    have hs : s.pop = (none, s) := by simp [State.pop, hc.pop_nil]
    rw [hs]
    exact ⟨⟨[], hc, htotal⟩, hsize⟩
  | cons value items =>
    obtain ⟨c, hpop, hc', hcap⟩ := hc.pop_cons
    have hs : s.pop = (some value, ⟨c, s.destroyed + 1⟩) := by simp [State.pop, hpop]
    rw [hs]
    exact ⟨⟨items, hc', by simp at htotal ⊢; omega⟩, hcap ▸ hsize⟩

theorem popRun (hs : s.Accounts n) (count : Nat) : (s.popRun count).2.Accounts n := by
  induction count generalizing s with
  | zero => exact hs
  | succ count ih => exact ih hs.pop

theorem drain (hs : s.Accounts n) : s.drain.2.Accounts n := by
  obtain ⟨⟨items, hc, htotal⟩, hsize⟩ := hs
  obtain ⟨c, hdrain, hc', hcap⟩ := hc.drain_eq
  have hs : s.drain = (items, ⟨c, s.destroyed + items.length⟩) := by simp [State.drain, hdrain]
  rw [hs]
  exact ⟨⟨[], hc', htotal⟩, hcap ▸ hsize⟩

theorem answer (hs : s.Accounts n) (request : Request) : (s.answer request).2.Accounts (n + request.attempts) := by
  cases request with
  | push value =>
    have hsame : (s.answer (.push value)).2 = (s.push value).2 := by
      rcases hpush : s.push value with ⟨_ | _, t⟩ <;> simp [State.answer, hpush]
    rw [hsame]
    exact hs.push value
  | pushAll values => exact hs.pushAll values
  | pushRun first count =>
    have hnext := hs.pushAll ((List.range count).map fun (n : Nat) => first + Int.ofNat n)
    rwa [List.length_map, List.length_range] at hnext
  | pop => exact hs.pop
  | popRun count => exact hs.popRun count
  | drain => exact hs.drain
  | length | isEmpty | capacity | destroyed | dropSender => exact hs

theorem answerAll (hs : s.Accounts n) (requests : List Request) :
    (s.answerAll requests).2.Accounts (n + (requests.map Request.attempts).sum) := by
  induction requests generalizing s n with
  | nil => exact hs
  | cons request requests ih =>
    rw [List.map_cons, List.sum_cons, ← Nat.add_assoc]
    exact ih (hs.answer request)

end Accounts
end State

/-- When a queue is gone, all that was ever pushed onto it has been destroyed. -/
theorem run_destroyed (store : Store) {requested : UInt64} (h : requested.toNat ≤ 2 ^ 63) (retries : UInt32)
    (requests : List Request) : (run store requested retries requests).2 = (requests.map Request.attempts).sum := by
  have hnew : State.Accounts ⟨.new store requested retries, 0⟩ 0 :=
    ⟨⟨[], Channel.holds_new store requested retries, rfl⟩, (Channel.agrees_new store h retries).counted⟩
  obtain ⟨⟨items, hc, htotal⟩, hsize⟩ := hnew.answerAll requests
  rw [Nat.zero_add, ← hc.held_eq hsize] at htotal
  exact htotal

end Session

/-! ### The law of disposal -/

/-- Whatever has been done with a ring and at whatever point of whatever lap it is dropped: the walk over it
    comes to an end, with one outcome; it finds the values still held, oldest first, and visits each slot
    that holds one once and no other. The values whose pushes were accepted are those that have been popped,
    in this order, and then those; with the values handed back they are all that were pushed, each counted
    once. So when the ring is gone as many values have been destroyed as there were pushes. -/
theorem disposal_law {α : Type} (requested : UInt64) (h : requested.toNat ≤ 2 ^ 63) (retries : UInt32) :
    (∀ ops : List (Op α), ∃ r : Ring α, Channel.functions.after (.new .ring requested retries) ops = .ring r ∧
      (∃ visits, (∀ vs, r.Walks r.head vs ↔ vs = visits) ∧ visits.map Prod.snd = r.held ∧
        (visits.map Prod.fst).Nodup ∧ ∀ i, i ∈ visits.map Prod.fst ↔ (r.slots[i]).value.isSome) ∧
      let answers := Channel.functions.answers (.new .ring requested retries) ops
      accepted ops answers = popped answers ++ r.held ∧
        (pushes ops).Perm (handedBack answers ++ popped answers ++ r.held)) ∧
    ∀ requests : List Session.Request,
      (Session.run .ring requested retries requests).2 = (requests.map Session.Request.attempts).sum := by
  refine ⟨fun ops => ?_, Session.run_destroyed .ring h retries⟩
  have hnew : (Channel.new .ring requested retries : Channel α).Agrees ⟨size (order requested), []⟩ :=
    Channel.agrees_new .ring h retries
  obtain ⟨r, hafter⟩ := Channel.exists_after_ring ops (Ring.new requested retries)
  have hagrees := Channel.simulates.after hnew ops
  rw [show Channel.functions.after (.new .ring requested retries) ops = .ring r from hafter] at hagrees ⊢
  obtain ⟨⟨p, hr⟩, -, hsize⟩ := hagrees
  have hheld := hr.held_eq hsize
  have hwalks : r.Walks r.head (r.visits p r.held) := by
    rw [hr.head, hheld]
    exact hr.walks hsize [] _ rfl
  have haccepted := Bounded.items_accepted (⟨size (order requested), []⟩ : Bounded α) ops
  have hpushes := Bounded.pushes_perm (⟨size (order requested), []⟩ : Bounded α) ops
  rw [List.nil_append] at haccepted
  rw [haccepted, ← List.append_assoc] at hpushes
  have hunique : ∀ vs, r.Walks r.head vs ↔ vs = r.visits p r.held := fun vs =>
    ⟨fun hv => hv.unique hwalks, fun hv => hv ▸ hwalks⟩
  refine ⟨r, rfl, ⟨_, hunique, Ring.map_snd_visits _ _, ?_, ?_⟩, ?_⟩
  · rw [hheld]
    exact Ring.nodup_slots_visits hr.order_le hr.length_le
  · rw [hheld]
    exact hr.mem_slots_iff
  · rw [Channel.simulates.answers hnew ops, hheld]
    exact ⟨haccepted, hpushes⟩

/-- A ring with two slots that is full, with the older value in the second one. -/
theorem disposal_law_when_full : (2 : UInt64).toNat ≤ 2 ^ 63 ∧
    let ops : List (Op Nat) := [.push 0 1, .push 0 2, .pop, .push 1 3, .push 0 4]
    ∃ r, Channel.functions.after (.new .ring 2 1) ops = .ring r ∧ r.held = [2, 3] ∧
      (∃ visits, r.Walks r.head visits ∧ visits.map Prod.snd = [2, 3] ∧ (visits.map Prod.fst).Nodup) ∧
      (pushes ops).Perm ([4] ++ [1] ++ [2, 3]) := by
  have h : (2 : UInt64).toNat ≤ 2 ^ 63 := by decide
  refine ⟨h, ?_⟩
  intro ops
  obtain ⟨r, hafter, ⟨visits, hwalks, hvisits, hnodup, -⟩, haccepted, hperm⟩ := (disposal_law 2 h 1).1 ops
  have hpopped : popped (Channel.functions.answers (.new .ring 2 1) ops) = [1] := by decide +kernel
  have hback : handedBack (Channel.functions.answers (.new .ring 2 1) ops) = [4] := by decide +kernel
  have hall : accepted ops (Channel.functions.answers (.new .ring 2 1) ops) = [1, 2, 3] := by decide +kernel
  have hheld : r.held = [2, 3] := by
    rw [hall, hpopped] at haccepted
    exact (List.cons.inj haccepted).2.symm
  rw [hheld] at hvisits hperm
  rw [hback, hpopped] at hperm
  exact ⟨r, hafter, hheld, ⟨visits, (hwalks visits).mpr rfl, hvisits, hnodup⟩, hperm⟩

end EngineBridge.Queue
