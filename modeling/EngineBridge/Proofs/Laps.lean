import EngineBridge.Proofs.Disposal

/-! The ring in words. What a ring holds was said with positions that are counted without wrapping. Here it is
    said of the words that the ring has, its head and its tail, wherever they are: near the end of the words,
    past it, or a lap ahead of the sequence in a slot. -/

namespace EngineBridge.Queue

namespace Ring
variable {α : Type} {r : Ring α} {p : Nat} {items : List α} {value : α}

/-- The state of a ring that holds these values, oldest first. They are in the slots of the positions from the
    head to the tail, and all further slots up to a lap from the head are free. -/
structure Represents (r : Ring α) (items : List α) : Prop where
  two_le : 2 ≤ r.capacity
  capacity_le : r.capacity ≤ 2 ^ 63
  attempts : 1 ≤ r.attempts
  span : (r.tail - r.head).toNat = items.length
  span_le : (r.tail - r.head).toNat ≤ r.capacity
  ready : ∀ i (hi : i < items.length), r.found (r.head + .ofNat i) = ⟨r.head + .ofNat i + 1, some items[i]⟩
  free : ∀ i, items.length ≤ i → i < r.capacity → r.found (r.head + .ofNat i) = ⟨r.head + .ofNat i, none⟩

/-- How a ring that holds these values goes on. -/
structure Proceeds (r : Ring α) (items : List α) : Prop where
  /-- The slot of a position is the one that the lowest bits of the position number. -/
  masked : ∀ pos, (r.index pos).val = (pos &&& (.ofNat r.capacity - 1)).toNat
  /-- The sequence that a push finds is never ahead of its position, -/
  behind : ((r.found r.tail).sequence - r.tail).toInt64 ≤ 0
  /-- so its first look decides, however many it may make. -/
  decides : ∀ n, 1 ≤ n → ∀ value,
    { r with attempts := n }.push value = ((r.push value).1, { (r.push value).2 with attempts := n })
  /-- A push takes a slot for free just if it holds no value. -/
  free_iff : r.look r.tail = .free ↔ (r.found r.tail).value = none
  /-- A pop takes a slot for ready just if it holds a value. -/
  ready_iff : (r.found r.head).sequence = r.head + 1 ↔ (r.found r.head).value.isSome
  push_of_lt : items.length < r.capacity → ∀ value,
    r.push value = (.ok (), r.write r.tail value) ∧ (r.write r.tail value).Represents (items ++ [value])
  push_of_full : items.length = r.capacity → ∀ value, r.push value = (.error value, r)
  pop : r.pop.1 = items.head? ∧ r.pop.2.Represents items.tail

/-! ### Words and counted positions -/

theorem ofNat_toNat_add (pos : UInt64) (n : Nat) : UInt64.ofNat (pos.toNat + n) = pos + .ofNat n := by
  rw [UInt64.ofNat_add, UInt64.ofNat_toNat]

theorem order_le_of_capacity_le (h : r.capacity ≤ 2 ^ 63) : r.order ≤ 63 := by
  rw [capacity, size_eq] at h
  exact (Nat.pow_le_pow_iff_right (by decide)).mp h

theorem Represents.holds (hr : r.Represents items) : r.Holds r.head.toNat items where
  order_pos := by
    have htwo := hr.two_le
    rw [capacity, size_eq] at htwo
    exact Nat.one_le_iff_ne_zero.mpr fun h0 => by simp [h0] at htwo
  order_le := Nat.le_succ_of_le (order_le_of_capacity_le hr.capacity_le)
  attempts := hr.attempts
  head := UInt64.ofNat_toNat.symm
  tail := by
    rw [← hr.span, ofNat_toNat_add, UInt64.ofNat_toNat, UInt64.add_comm, UInt64.sub_add_cancel]
  length_le := hr.span ▸ hr.span_le
  slots i hi := by
    show r.found (.ofNat (r.head.toNat + i)) = _
    rw [cell.eq_def, ofNat_toNat_add]
    rcases Nat.lt_or_ge i items.length with hlt | hge
    · rw [hr.ready i hlt, List.getElem?_eq_getElem hlt]
    · rw [hr.free i hge hi, List.getElem?_eq_none hge]

theorem Holds.represents (hr : r.Holds p items) (hcap : r.capacity ≤ 2 ^ 63) : r.Represents items := by
  have hspan := hr.toNat_tail_sub_head (Nat.lt_of_le_of_lt hcap (by decide))
  have hslot : ∀ i < r.capacity, r.found (r.head + .ofNat i) = cell (p + i) items[i]? := by
    intro i hi
    rw [hr.head, ← UInt64.ofNat_add]
    exact hr.slots i hi
  refine ⟨?_, hcap, hr.attempts, hspan, hspan ▸ hr.length_le, fun i hi => ?_, fun i hle hi => ?_⟩
  · rw [capacity, size_eq]
    exact Nat.pow_le_pow_right (n := 2) (by decide) hr.order_pos
  · rw [hslot i (Nat.lt_of_lt_of_le hi hr.length_le), List.getElem?_eq_getElem hi, hr.head, ← UInt64.ofNat_add]
    rfl
  · rw [hslot i hi, List.getElem?_eq_none hle, hr.head, ← UInt64.ofNat_add]
    rfl

/-! ### What a push and a pop find -/

theorem index_eq_and (h : r.capacity ≤ 2 ^ 63) (pos : UInt64) :
    (r.index pos).val = (pos &&& (.ofNat r.capacity - 1)).toNat := by
  have hmask : (UInt64.ofNat r.capacity - 1).toNat = 2 ^ r.order - 1 := by
    have hto : (UInt64.ofNat r.capacity).toNat = r.capacity :=
      UInt64.toNat_ofNat_of_lt' (Nat.lt_of_le_of_lt h (by decide))
    rw [UInt64.toNat_sub_of_le _ _ ?_, hto, capacity, size_eq]
    · rfl
    · rw [UInt64.le_iff_toNat_le, hto]
      exact r.capacity_pos
  show pos.toNat % size r.order = _
  rw [UInt64.toNat_and, hmask, Nat.and_two_pow_sub_one_eq_mod, size_eq]

/-- What is behind by a lap less one is behind, also in words. -/
theorem toInt64_one_sub {n : Nat} (htwo : 2 ≤ n) (hle : n ≤ 2 ^ 63) : (1 - UInt64.ofNat n).toInt64 < 0 := by
  have hto : (1 - UInt64.ofNat n).toBitVec.toNat = 2 ^ 64 + 1 - n := by
    show (1 - UInt64.ofNat n).toNat = _
    rw [UInt64.toNat_sub, UInt64.toNat_ofNat_of_lt' (Nat.lt_of_le_of_lt hle (by decide))]
    show (2 ^ 64 - n + 1) % 2 ^ 64 = _
    omega
  rw [Int64.lt_iff_toInt_lt]
  show (1 - UInt64.ofNat n).toBitVec.toInt < 0
  rw [BitVec.toInt_eq_toNat_cond, hto]
  split <;> omega

namespace Represents

/-- How far the sequence that a push finds is ahead of its position: not at all when there is room, else it is
    behind by a lap less one. -/
theorem ahead (hr : r.Represents items) : (r.found r.tail).sequence - r.tail =
    if items.length < r.capacity then 0 else 1 - .ofNat r.capacity := by
  have htail := hr.holds.tail
  have hseq := hr.holds.slotAt_tail
  rw [show r.slotAt (r.head.toNat + items.length) = r.found r.tail from congrArg r.found htail.symm] at hseq
  rw [hseq]
  split
  · rw [htail, UInt64.sub_self]
  · next hge =>
    have hfull : items.length = r.capacity := Nat.le_antisymm hr.holds.length_le (Nat.le_of_not_lt hge)
    rw [htail, hfull, UInt64.ofNat_add]
    grind

theorem behind (hr : r.Represents items) : ((r.found r.tail).sequence - r.tail).toInt64 ≤ 0 := by
  rw [hr.ahead]
  split
  · decide
  · exact Int64.le_of_lt (toInt64_one_sub hr.two_le hr.capacity_le)

theorem look_tail (hr : r.Represents items) :
    r.look r.tail = if items.length < r.capacity then .free else .occupied := by
  show (if ((r.found r.tail).sequence - r.tail).toInt64 = 0 then Look.free
    else if ((r.found r.tail).sequence - r.tail).toInt64 < 0 then .occupied else .overtaken) = _
  rw [hr.ahead]
  split
  · rfl
  · have hneg := toInt64_one_sub hr.two_le hr.capacity_le
    rw [if_neg fun h0 => ?_, if_pos hneg]
    rw [h0] at hneg
    exact absurd hneg (by decide)

theorem free_iff (hr : r.Represents items) : r.look r.tail = .free ↔ (r.found r.tail).value = none := by
  have htail : r.tail = r.head + .ofNat items.length := hr.holds.tail.trans (ofNat_toNat_add _ _)
  rw [hr.look_tail]
  split
  · next hlt =>
    rw [htail, hr.free _ (Nat.le_refl _) hlt]
    exact iff_of_true rfl rfl
  · next hge =>
    -- A lap from the head comes its slot again, where the oldest value is.
    have hfull : items.length = r.capacity := Nat.le_antisymm hr.holds.length_le (Nat.le_of_not_lt hge)
    have hpos : 0 < items.length := hfull ▸ r.capacity_pos
    have hlap : r.found r.tail = r.found (r.head + .ofNat 0) := by
      have hslot : r.found (.ofNat (r.head.toNat + r.capacity)) = r.found (.ofNat r.head.toNat) :=
        slotAt_lap hr.holds.order_le r.head.toNat
      rw [← hfull, ← hr.holds.tail, UInt64.ofNat_toNat] at hslot
      exact hslot.trans (congrArg r.found (UInt64.add_zero r.head).symm)
    rw [hlap, hr.ready 0 hpos]
    exact iff_of_false (by decide) (by simp)

theorem ready_iff (hr : r.Represents items) :
    (r.found r.head).sequence = r.head + 1 ↔ (r.found r.head).value.isSome := by
  have hhead : r.head + .ofNat 0 = r.head := UInt64.add_zero r.head
  rcases Nat.eq_zero_or_pos items.length with h0 | hpos
  · have hslot := hr.free 0 (Nat.le_of_eq h0) r.capacity_pos
    rw [hhead] at hslot
    rw [hslot]
    exact iff_of_false (fun h => by grind) (by simp)
  · have hslot := hr.ready 0 hpos
    rw [hhead] at hslot
    rw [hslot]
    exact iff_of_true rfl rfl

/-- The number of looks that a push may make is no part of what is represented. -/
theorem withAttempts (hr : r.Represents items) {n : Nat} (hn : 1 ≤ n) : Represents { r with attempts := n } items :=
  ⟨hr.two_le, hr.capacity_le, hn, hr.span, hr.span_le, hr.ready, hr.free⟩

theorem decides (hr : r.Represents items) {n : Nat} (hn : 1 ≤ n) (value : α) :
    { r with attempts := n }.push value = ((r.push value).1, { (r.push value).2 with attempts := n }) := by
  rcases Nat.lt_or_eq_of_le hr.holds.length_le with hlt | hfull
  · rw [hr.holds.push_of_lt hlt, (hr.withAttempts hn).holds.push_of_lt hlt]
    rfl
  · rw [hr.holds.push_of_full hfull, (hr.withAttempts hn).holds.push_of_full hfull]

theorem pop (hr : r.Represents items) : r.pop.1 = items.head? ∧ r.pop.2.Represents items.tail := by
  cases items with
  | nil =>
    rw [hr.holds.pop_nil]
    exact ⟨rfl, hr⟩
  | cons value items =>
    rw [hr.holds.pop_cons]
    exact ⟨rfl, hr.holds.release.represents hr.capacity_le⟩

theorem proceeds (hr : r.Represents items) : r.Proceeds items where
  masked := index_eq_and hr.capacity_le
  behind := hr.behind
  decides _ hn := hr.decides hn
  free_iff := hr.free_iff
  ready_iff := hr.ready_iff
  push_of_lt hlt value :=
    ⟨hr.holds.push_of_lt hlt value, (hr.holds.write hlt value).represents hr.capacity_le⟩
  push_of_full := hr.holds.push_of_full
  pop := hr.pop

end Represents

/-! ### Runs -/

theorem accepted_cons (op : Op α) (ops : List (Op α)) (answer : Answer α) (answers : List (Answer α)) :
    accepted (op :: ops) (answer :: answers) = accepted [op] [answer] ++ accepted ops answers :=
  List.filterMap_append (l := [(op, answer)])

theorem popped_cons (answer : Answer α) (answers : List (Answer α)) :
    popped (answer :: answers) = popped [answer] ++ popped answers :=
  List.filterMap_append (l := [answer])

namespace Holds

/-- An answer takes the head on by the value that it pops, if any, and adds at the end the one that it accepts. -/
theorem answer (hr : r.Holds p items) (op : Op α) : ∃ items',
    (functions.answer r op).2.Holds (p + (popped [(functions.answer r op).1]).length) items' ∧
      (functions.answer r op).2.capacity = r.capacity ∧
      items ++ accepted [op] [(functions.answer r op).1] = popped [(functions.answer r op).1] ++ items' := by
  cases op with
  | push sender value =>
    show ∃ items', (r.push value).2.Holds (p + (popped [.pushed (r.push value).1]).length) items' ∧
      (r.push value).2.capacity = r.capacity ∧
        items ++ accepted [.push sender value] [.pushed (r.push value).1] = popped [.pushed (r.push value).1] ++ items'
    rcases Nat.lt_or_eq_of_le hr.length_le with hlt | hfull
    · rw [hr.push_of_lt hlt]
      exact ⟨items ++ [value], hr.write hlt value, rfl, rfl⟩
    · rw [hr.push_of_full hfull]
      exact ⟨items, hr, rfl, List.append_nil _⟩
  | pop =>
    show ∃ items', r.pop.2.Holds (p + (popped [.popped r.pop.1]).length) items' ∧ r.pop.2.capacity = r.capacity ∧
      items ++ [] = popped [.popped r.pop.1] ++ items'
    cases items with
    | nil =>
      rw [hr.pop_nil]
      exact ⟨[], hr, rfl, rfl⟩
    | cons value items =>
      rw [hr.pop_cons]
      exact ⟨items, hr.release, rfl, List.append_nil _⟩
  | length | isEmpty | capacity => exact ⟨items, hr, rfl, List.append_nil _⟩

/-- So do answers in turn: the head counts what has been popped, and what has been accepted is what has been
    popped and what is held. -/
theorem after (hr : r.Holds p items) (ops : List (Op α)) : ∃ items',
    (functions.after r ops).Holds (p + (popped (functions.answers r ops)).length) items' ∧
      (functions.after r ops).capacity = r.capacity ∧
      items ++ accepted ops (functions.answers r ops) = popped (functions.answers r ops) ++ items' := by
  induction ops generalizing r p items with
  | nil => exact ⟨items, hr, rfl, List.append_nil _⟩
  | cons op ops ih =>
    obtain ⟨items₁, hr₁, hcap₁, heq₁⟩ := hr.answer op
    obtain ⟨items₂, hr₂, hcap₂, heq₂⟩ := ih hr₁
    refine ⟨items₂, ?_, hcap₂.trans hcap₁, ?_⟩
    · rw [Functions.answers, popped_cons, List.length_append, ← Nat.add_assoc]
      exact hr₂
    · rw [Functions.answers, popped_cons, accepted_cons, ← List.append_assoc, heq₁, List.append_assoc, heq₂,
        List.append_assoc]

/-- Values can be pushed as long as there is room. -/
theorem exists_filled : ∀ {r : Ring α} {front : List α} (back : List α), r.Holds p front →
    (front ++ back).length ≤ r.capacity → ∃ ops, (functions.after r ops).Holds p (front ++ back)
  | r, front, [], hr, _ => ⟨[], (List.append_nil front).symm ▸ hr⟩
  | r, front, value :: back, hr, hle => by
    have hlt : front.length < r.capacity := Nat.lt_of_lt_of_le (by simp) hle
    rw [List.append_cons] at hle ⊢
    obtain ⟨ops, hops⟩ := exists_filled back (hr.write hlt value) hle
    refine ⟨.push 0 value :: ops, ?_⟩
    show (functions.after (r.push value).2 ops).Holds p _
    rwa [hr.push_of_lt hlt]

/-- An empty ring can be left empty any number of values later. -/
theorem exists_spent (filler : α) : ∀ {r : Ring α} {p : Nat} (n : Nat), r.Holds p [] →
    ∃ ops, (functions.after r ops).Holds (p + n) []
  | r, p, 0, hr => ⟨[], hr⟩
  | r, p, n + 1, hr => by
    have hfull := hr.write r.capacity_pos filler
    obtain ⟨ops, hops⟩ := exists_spent filler n hfull.release
    refine ⟨.push 0 filler :: .pop :: ops, ?_⟩
    show (functions.after (r.push filler).2.pop.2 ops).Holds _ []
    rw [hr.push_of_lt r.capacity_pos, hfull.pop_cons, Nat.add_comm n, ← Nat.add_assoc]
    exact hops

end Holds

/-- A ring comes to hold any values that it has room for, after any number of others have been taken. -/
theorem exists_after (requested : UInt64) (retries : UInt32) (filler : α) (p : Nat) (items : List α)
    (hle : items.length ≤ size (Queue.order requested)) :
    ∃ ops, (functions.after (new requested retries) ops).Holds p items := by
  have hnew := holds_new (α := α) requested retries
  obtain ⟨spend, hspend⟩ := hnew.exists_spent filler p
  obtain ⟨-, -, hcap, -⟩ := hnew.after spend
  obtain ⟨fill, hfill⟩ := hspend.exists_filled items (hcap ▸ hle)
  refine ⟨spend ++ fill, ?_⟩
  rw [Functions.after, List.foldl_append]
  exact Nat.zero_add p ▸ hfill

/-! ### The law of representation -/

/-- Whatever has been asked of a ring, its state represents the values that have been accepted and not popped, in
    this order, and its head and its tail count, as words, those popped and those accepted. Every word comes up
    as a head, over every list of values that there is room for. And from every state that represents values,
    whatever its head and its tail, the ring goes on as a list of these values with a bound does, deciding each
    push in one look, writing only where there is no value and reading only where there is one. -/
theorem representation_law {α : Type} (requested : UInt64) (h : requested.toNat ≤ 2 ^ 63) (retries : UInt32) :
    (∀ ops : List (Op α),
      let r := functions.after (new requested retries) ops
      let answers := functions.answers (new requested retries) ops
      r.capacity = size (Queue.order requested) ∧ r.head = .ofNat (popped answers).length ∧
        r.tail = .ofNat (accepted ops answers).length ∧
        ∃ items, r.Represents items ∧ accepted ops answers = popped answers ++ items) ∧
    (Nonempty α → ∀ (p : Nat) (items : List α), items.length ≤ size (Queue.order requested) → ∃ ops,
      let r := functions.after (new requested retries) ops
      r.head = .ofNat p ∧ r.Represents items) ∧
    ∀ (r : Ring α) (items : List α), r.Represents items → r.Proceeds items := by
  have hnew := holds_new (α := α) requested retries
  have hsize : size (Queue.order requested) ≤ 2 ^ 63 := size_order_le h
  refine ⟨fun ops => ?_, fun ⟨filler⟩ p items hle => ?_, fun r items hr => hr.proceeds⟩
  · obtain ⟨items, hr, hcap, hitems⟩ := hnew.after ops
    rw [Nat.zero_add] at hr
    rw [List.nil_append] at hitems
    refine ⟨hcap, hr.head, ?_, items, hr.represents (hcap ▸ hsize), hitems⟩
    rw [hitems, List.length_append]
    exact hr.tail
  · obtain ⟨ops, hr⟩ := exists_after requested retries filler p items hle
    obtain ⟨-, -, hcap, -⟩ := hnew.after ops
    exact ⟨ops, hr.head, hr.represents (hcap ▸ hsize)⟩

/-- A ring with two slots, which is full; its head is the last of the words and its tail has passed their end. -/
theorem representation_law_when_wrapped :
    let r : Ring Nat := ⟨1, #v[⟨1, some 8⟩, ⟨0, some 7⟩], 0xFFFFFFFFFFFFFFFF, 1, 3⟩
    (2 : UInt64).toNat ≤ 2 ^ 63 ∧ Nonempty Nat ∧ [7, 8].length ≤ size (Queue.order 2) ∧ r.Represents [7, 8] ∧
      (∃ ops, (functions.after (new 2 3) ops).head = (0xFFFFFFFFFFFFFFFF : UInt64) ∧
        (functions.after (new 2 3) ops).Represents [7, 8]) ∧
      ((r.found r.tail).sequence - r.tail).toInt64 ≤ 0 ∧ r.push 9 = (.error 9, r) ∧
      { r with attempts := 1 }.push 9 = (.error 9, { r with attempts := 1 }) ∧
      r.pop.1 = some 7 ∧ r.pop.2.Represents [8] ∧ r.pop.2.head = 0 := by
  intro r
  have hr : r.Represents [7, 8] := by
    refine ⟨by decide, by decide, by decide, by decide, by decide, fun i hi => ?_, fun i hle hi => ?_⟩
    · have hi : i = 0 ∨ i = 1 := by
        simp at hi
        omega
      obtain rfl | rfl := hi <;> exact congrArg₂ Slot.mk (by decide) (by decide +revert)
    · exact absurd hi (Nat.not_lt.mpr hle)
  have h : (2 : UInt64).toNat ≤ 2 ^ 63 := by decide
  have hle : [7, 8].length ≤ size (Queue.order 2) := by decide
  obtain ⟨-, hreached, hproceeds⟩ := representation_law (α := Nat) 2 h 3
  have hgoes := hproceeds r [7, 8] hr
  have hfull := hgoes.push_of_full rfl 9
  have hone := hgoes.decides 1 (Nat.le_refl 1) 9
  rw [hfull] at hone
  exact ⟨h, ⟨0⟩, hle, hr, hreached ⟨0⟩ (2 ^ 64 - 1) [7, 8] hle, hgoes.behind, hfull, hone, hgoes.pop.1, hgoes.pop.2,
    by decide⟩

end Ring
end EngineBridge.Queue
