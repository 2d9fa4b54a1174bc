import EngineBridge.Proofs.Queue
import EngineBridge.Queue.Operations
import Mathlib.Order.Bounds.Basic

/-! Every kind of queue answers as a list with a bound does. A relation between the queue and the list
    that each function keeps is enough; the ring and the list are related by what the ring holds, as long
    as positions a whole queue apart differ as words. -/

namespace EngineBridge.Queue

/-! ### The size of a queue -/

/-- The size of a queue is the least power of two that is at least two and at least the requested size. -/
theorem isLeast_size_order (requested : UInt64) :
    IsLeast {n | (∃ k, n = 2 ^ k) ∧ max requested.toNat 2 ≤ n} (size (order requested)) := by
  have hne : max requested.toNat 2 - 1 ≠ 0 := by omega
  refine ⟨⟨⟨order requested, size_eq _⟩, ?_⟩, ?_⟩
  · have hlt := Nat.lt_log2_self (n := max requested.toNat 2 - 1)
    rw [size_eq, order]
    omega
  · rintro _ ⟨⟨k, rfl⟩, hk⟩
    have hlog : (max requested.toNat 2 - 1).log2 < k := (Nat.log2_lt hne).mpr (by omega)
    rw [size_eq, order]
    exact Nat.pow_le_pow_right (by decide) hlog

/-- A request of half the words at most leads to a queue of half the words at most, -/
theorem size_order_le {requested : UInt64} (h : requested.toNat ≤ 2 ^ 63) : size (order requested) ≤ 2 ^ 63 :=
  (isLeast_size_order requested).2 ⟨⟨63, rfl⟩, Nat.max_le.mpr ⟨h, by decide⟩⟩

/-- so words can count it. -/
theorem size_order_lt {requested : UInt64} (h : requested.toNat ≤ 2 ^ 63) :
    size (order requested) < UInt64.size :=
  Nat.lt_of_le_of_lt (size_order_le h) (by decide)

/-! ### Answering as a list -/

/-- In states so related, functions answer as a list with a bound does, and the relation goes on. -/
structure Functions.Simulates {Q α : Type} (f : Functions Q α) (R : Q → Bounded α → Prop) : Prop where
  push : ∀ {q b}, R q b → ∀ v, (f.push q v).1 = (b.push v).1 ∧ R (f.push q v).2 (b.push v).2
  pop : ∀ {q b}, R q b → (f.pop q).1 = b.pop.1 ∧ R (f.pop q).2 b.pop.2
  length : ∀ {q b}, R q b → f.length q = b.length
  isEmpty : ∀ {q b}, R q b → f.isEmpty q = b.items.isEmpty
  capacity : ∀ {q b}, R q b → f.capacity q = b.capacity

namespace Functions.Simulates
variable {Q α : Type} {f : Functions Q α} {R : Q → Bounded α → Prop} {q : Q} {b : Bounded α}

theorem answer (hf : f.Simulates R) (h : R q b) (op : Op α) :
    (f.answer q op).1 = (Bounded.functions.answer b op).1 ∧
      R (f.answer q op).2 (Bounded.functions.answer b op).2 := by
  cases op with
  | push _ v => exact ⟨congrArg Answer.pushed (hf.push h v).1, (hf.push h v).2⟩
  | pop => exact ⟨congrArg Answer.popped (hf.pop h).1, (hf.pop h).2⟩
  | length => exact ⟨congrArg Answer.count (hf.length h), h⟩
  | isEmpty => exact ⟨congrArg Answer.flag (hf.isEmpty h), h⟩
  | capacity _ => exact ⟨congrArg Answer.count (hf.capacity h), h⟩

theorem answers (hf : f.Simulates R) (h : R q b) :
    ∀ ops, f.answers q ops = Bounded.functions.answers b ops := by
  intro ops
  induction ops generalizing q b with
  | nil => rfl
  | cons op ops ih =>
    obtain ⟨heq, hnext⟩ := hf.answer h op
    exact congrArg₂ List.cons heq (ih hnext)

end Functions.Simulates

/-! ### Either store -/

/-- A queue and the list of what it holds, with the room that words can count. -/
structure Channel.Agrees {α : Type} (c : Channel α) (b : Bounded α) : Prop where
  holds : c.Holds b.items
  capacity : c.capacity = b.capacity
  counted : c.capacity < UInt64.size

theorem Channel.simulates {α : Type} : (Channel.functions (α := α)).Simulates Channel.Agrees where
  push {c b} h v := by
    show (c.push v).1 = (b.push v).1 ∧ Channel.Agrees (c.push v).2 (b.push v).2
    rcases Nat.lt_or_ge b.length b.capacity with hlt | hge
    · obtain ⟨c', hpush, hholds, hcap⟩ := h.holds.push_of_lt (h.capacity ▸ hlt) v
      rw [hpush, Bounded.push_of_lt hlt]
      exact ⟨rfl, hholds, hcap.trans h.capacity, hcap ▸ h.counted⟩
    · rw [h.holds.push_of_le (h.capacity ▸ hge), Bounded.push_of_le hge]
      exact ⟨rfl, h⟩
  pop {c b} h := by
    obtain ⟨capacity, items⟩ := b
    show c.pop.1 = items.head? ∧ Channel.Agrees c.pop.2 ⟨capacity, items.tail⟩
    cases items with
    | nil =>
      rw [Channel.Holds.pop_nil h.holds]
      exact ⟨rfl, h⟩
    | cons v items =>
      obtain ⟨c', hpop, hholds, hcap⟩ := Channel.Holds.pop_cons h.holds
      rw [hpop]
      exact ⟨rfl, hholds, hcap.trans h.capacity, hcap ▸ h.counted⟩
  length h := h.holds.length_eq h.counted
  isEmpty {c b} h := by
    show (c.length == 0) = b.items.isEmpty
    rw [h.holds.length_eq h.counted]
    cases b.items <;> rfl
  capacity h := h.capacity

theorem Channel.agrees_new {α : Type} (store : Store) {requested : UInt64}
    (h : requested.toNat ≤ 2 ^ 63) (retries : UInt32) :
    (Channel.new store requested retries : Channel α).Agrees ⟨size (order requested), []⟩ where
  holds := Channel.holds_new store requested retries
  capacity := by cases store <;> rfl
  counted := by cases store <;> exact size_order_lt h

/-! ### The queue of a library -/

/-- A library's queue is a bounded one, first in, first out: with the values that it holds, oldest first,
    a push adds one at the end or, when the queue is full, returns it as an error, and a pop takes the
    first one, if there is one. -/
structure ArrayQueue.Fifo {Q α : Type} (a : ArrayQueue Q α) (items : Q → List α) : Prop where
  items_new : ∀ n, 0 < n → items (a.new n) = []
  capacity_new : ∀ n, 0 < n → a.capacity (a.new n) = n
  push_of_lt : ∀ q v, (items q).length < a.capacity q →
    (a.push q v).1 = .ok () ∧ items (a.push q v).2 = items q ++ [v]
  push_of_full : ∀ q v, a.capacity q ≤ (items q).length →
    (a.push q v).1 = .error v ∧ items (a.push q v).2 = items q
  pop : ∀ q, (a.pop q).1 = (items q).head? ∧ items (a.pop q).2 = (items q).tail
  length : ∀ q, a.length q = (items q).length
  isEmpty : ∀ q, a.isEmpty q = (items q).isEmpty
  capacity_push : ∀ q v, a.capacity (a.push q v).2 = a.capacity q
  capacity_pop : ∀ q, a.capacity (a.pop q).2 = a.capacity q

namespace ArrayQueue.Fifo
variable {Q α : Type} {a : ArrayQueue Q α} {items : Q → List α}

theorem simulates (ha : a.Fifo items) :
    a.toFunctions.Simulates fun q b => items q = b.items ∧ a.capacity q = b.capacity where
  push {q b} h v := by
    obtain ⟨hitems, hcap⟩ := h
    rcases Nat.lt_or_ge b.length b.capacity with hlt | hge
    · obtain ⟨hok, hnext⟩ := ha.push_of_lt q v (by rw [hitems, hcap]; exact hlt)
      rw [Bounded.push_of_lt hlt, ← hitems, ← hcap]
      exact ⟨hok, hnext, ha.capacity_push q v⟩
    · obtain ⟨herr, hnext⟩ := ha.push_of_full q v (by rw [hitems, hcap]; exact hge)
      rw [Bounded.push_of_le hge, ← hitems, ← hcap]
      exact ⟨herr, hnext, ha.capacity_push q v⟩
  pop {q b} h := by
    obtain ⟨hitems, hcap⟩ := h
    obtain ⟨hhead, htail⟩ := ha.pop q
    exact ⟨hhead.trans (congrArg List.head? hitems), htail.trans (congrArg List.tail hitems),
      (ha.capacity_pop q).trans hcap⟩
  length {q b} h := (ha.length q).trans (congrArg List.length h.1)
  isEmpty {q b} h := (ha.isEmpty q).trans (congrArg List.isEmpty h.1)
  capacity h := h.2

end ArrayQueue.Fifo

theorem Bounded.fifo {α : Type} : (Bounded.arrayQueue (α := α)).Fifo Bounded.items where
  items_new _ _ := rfl
  capacity_new _ _ := rfl
  push_of_lt q v hlt := by
    show (q.push v).1 = _ ∧ (q.push v).2.items = _
    rw [Bounded.push_of_lt hlt]
    exact ⟨rfl, rfl⟩
  push_of_full q v hge := by
    show (q.push v).1 = _ ∧ (q.push v).2.items = _
    rw [Bounded.push_of_le hge]
    exact ⟨rfl, rfl⟩
  pop _ := ⟨rfl, rfl⟩
  length _ := rfl
  isEmpty _ := rfl
  capacity_push q v := by
    show (q.push v).2.capacity = q.capacity
    unfold Bounded.push
    split <;> rfl
  capacity_pop _ := rfl

/-! ### All kinds of queue -/

/-- Whatever number of values up to half the words is requested, and however often a push may look, the
    ring, the other store and the queue of a library answer every list of requests as a list does that
    holds at most as many values as the least power of two which is at least two and at least the
    number requested. -/
theorem answers_as_list {Q α : Type} (a : ArrayQueue Q α) {items : Q → List α} (ha : a.Fifo items)
    (requested : UInt64) (h : requested.toNat ≤ 2 ^ 63) :
    ∃ n, IsLeast {n | (∃ k, n = 2 ^ k) ∧ max requested.toNat 2 ≤ n} n ∧
      ∀ (retries : UInt32) (ops : List (Op α)),
        Channel.functions.answers (.new .ring requested retries) ops = Bounded.functions.answers ⟨n, []⟩ ops ∧
        Channel.functions.answers (.new .array requested retries) ops = Bounded.functions.answers ⟨n, []⟩ ops ∧
        a.answers (a.channel requested retries) ops = Bounded.functions.answers ⟨n, []⟩ ops := by
  refine ⟨size (order requested), isLeast_size_order requested, fun retries ops => ⟨?_, ?_, ?_⟩⟩
  · exact Channel.simulates.answers (Channel.agrees_new .ring h retries) ops
  · exact Channel.simulates.answers (Channel.agrees_new .array h retries) ops
  · have hpos := size_pos (order requested)
    exact ha.simulates.answers (b := ⟨_, []⟩) ⟨ha.items_new _ hpos, ha.capacity_new _ hpos⟩ ops

/-- A queue for three values, with the list as the library's queue. -/
theorem answers_as_list_of_three : (Bounded.arrayQueue (α := Nat)).Fifo Bounded.items ∧ (3 : UInt64).toNat ≤ 2 ^ 63 ∧
    ∃ n, IsLeast {n | (∃ k, n = 2 ^ k) ∧ max (3 : UInt64).toNat 2 ≤ n} n ∧
      ∀ (retries : UInt32) (ops : List (Op Nat)),
        Channel.functions.answers (.new .ring 3 retries) ops = Bounded.functions.answers ⟨n, []⟩ ops ∧
        Channel.functions.answers (.new .array 3 retries) ops = Bounded.functions.answers ⟨n, []⟩ ops ∧
        Bounded.arrayQueue.answers (Bounded.arrayQueue.channel 3 retries) ops =
          Bounded.functions.answers ⟨n, []⟩ ops :=
  ⟨Bounded.fifo, by decide, answers_as_list Bounded.arrayQueue Bounded.fifo 3 (by decide)⟩

end EngineBridge.Queue
