import EngineBridge.Queue.Channel
import Mathlib.Data.Nat.ModEq

/-! The queue as the list of the values that it holds. The ring keeps no count of them. Counted without
    wrapping, the next push is at the number of values taken so far plus the number held, and each of the
    `2 ^ order` positions from the head on has a slot of its own: first those that hold a value, then those
    that are free. The other store is such a list. -/

namespace EngineBridge.Queue

theorem size_eq (order : Nat) : size order = 2 ^ order := Nat.one_shiftLeft order

namespace Ring
variable {α : Type} {r : Ring α} {p : Nat} {items : List α} {value : α}

/-- The slot of a position that is counted without wrapping. -/
def slotAt (r : Ring α) (pos : Nat) : Slot α := r.slots[r.index (.ofNat pos)]

/-- How a slot looks from a position: the value pushed there, or free for the push there. -/
def cell (pos : Nat) : Option α → Slot α
  | some value => ⟨.ofNat pos + 1, some value⟩
  | none => ⟨.ofNat pos, none⟩

/-- After a number of values have been taken, the ring holds these, oldest first. -/
structure Holds (r : Ring α) (p : Nat) (items : List α) : Prop where
  order_pos : 1 ≤ r.order
  order_le : r.order ≤ 64
  attempts : 1 ≤ r.attempts
  head : r.head = .ofNat p
  tail : r.tail = .ofNat (p + items.length)
  length_le : items.length ≤ r.capacity
  slots : ∀ i < r.capacity, r.slotAt (p + i) = cell (p + i) items[i]?

/-! ### Positions and slots -/

theorem index_ofNat (ho : r.order ≤ 64) (pos : Nat) : (r.index (.ofNat pos)).val = pos % r.capacity := by
  show (UInt64.ofNat pos).toNat % size r.order = pos % size r.order
  rw [UInt64.toNat_ofNat', size_eq]
  exact Nat.mod_mod_of_dvd pos (Nat.pow_dvd_pow 2 ho)

/-- Less than a lap apart, two positions have different slots. -/
theorem index_inj (ho : r.order ≤ 64) {i j : Nat} (hi : i < r.capacity) (hj : j < r.capacity)
    (h : r.index (.ofNat (p + i)) = r.index (.ofNat (p + j))) : i = j := by
  have hm : p + i ≡ p + j [MOD r.capacity] := by
    have hv := congrArg Fin.val h
    rwa [index_ofNat ho, index_ofNat ho] at hv
  have hm := Nat.ModEq.add_left_cancel' p hm
  exact hm.eq_of_lt_of_lt hi hj

/-- A lap further on comes the same slot. -/
theorem slotAt_lap (ho : r.order ≤ 64) (pos : Nat) : r.slotAt (pos + r.capacity) = r.slotAt pos := by
  have hi : r.index (.ofNat (pos + r.capacity)) = r.index (.ofNat pos) := by
    refine Fin.ext ?_
    rw [index_ofNat ho, index_ofNat ho, Nat.add_mod_right]
  exact congrArg (fun i => r.slots[i]) hi

/-- What is put into the slot of a position is found there, and less than a lap away nothing changes. -/
theorem getElem_set (ho : r.order ≤ 64) {i j : Nat} (hi : i < r.capacity) (hj : j < r.capacity) (slot : Slot α) :
    (r.slots.set (r.index (.ofNat (p + j))) slot)[r.index (.ofNat (p + i))] =
      if i = j then slot else r.slotAt (p + i) := by
  have hij : (r.index (.ofNat (p + j))).val = (r.index (.ofNat (p + i))).val ↔ i = j := by
    constructor
    · exact fun h => (index_inj ho hj hi (Fin.ext h)).symm
    · rintro rfl
      rfl
  exact (Vector.getElem_set _ _).trans (if_congr hij rfl rfl)

theorem ofNat_inj {a b : Nat} (h : UInt64.ofNat a = UInt64.ofNat b) : a % 2 ^ 64 = b % 2 ^ 64 := by
  have := congrArg UInt64.toNat h
  rwa [UInt64.toNat_ofNat', UInt64.toNat_ofNat'] at this

/-! ### Pushing -/

/-- There is room at a position just if the sequence of the slot is the position. -/
theorem look_eq_free {pos : Nat} : r.look (.ofNat pos) = .free ↔ (r.slotAt pos).sequence = .ofNat pos := by
  have hz : ∀ a b : UInt64, (a - b).toInt64 = 0 ↔ a = b := by
    intro a b
    have hab : a - b = 0 ↔ a = b := by grind
    rw [← hab]
    exact ⟨congrArg Int64.toUInt64, fun h => h ▸ rfl⟩
  rw [← hz]
  unfold look
  constructor
  · intro h
    dsimp only at h
    split at h
    · assumption
    · split at h <;> cases h
  · exact fun h => if_pos h

/-- A push that finds no room at the tail finds none at all. -/
theorem pushWithin_of_not_free (hl : r.look r.tail ≠ .free) (value : α) :
    ∀ n, r.pushWithin value n r.tail = (.error value, r)
  | 0 => rfl
  | n + 1 => by
    unfold pushWithin
    split
    · contradiction
    · rfl
    · exact pushWithin_of_not_free hl value n

/-! ### Popping -/

theorem pop_eq (hp : r.head = .ofNat p) :
    r.pop = if (r.slotAt p).sequence = .ofNat p + 1 then ((r.slotAt p).value, r.release) else (none, r) := by
  have hslot : r.slots[r.index r.head] = r.slotAt p := congrArg (fun pos => r.slots[r.index pos]) hp
  unfold pop
  rw [hslot]
  dsimp only
  rw [hp]

/-! ### What the ring holds -/

namespace Holds

/-- The slot of the tail holds the value that was pushed a lap before, or is free. -/
theorem slotAt_tail (hr : r.Holds p items) : (r.slotAt (p + items.length)).sequence =
    if items.length < r.capacity then .ofNat (p + items.length) else .ofNat p + 1 := by
  split
  · next hlt =>
    rw [hr.slots _ hlt, List.getElem?_eq_none (Nat.le_refl _)]
    rfl
  · next hge =>
    have hfull : items.length = r.capacity := Nat.le_antisymm hr.length_le (Nat.le_of_not_lt hge)
    have hpos : 0 < r.capacity := r.capacity_pos
    have hslot := hr.slots 0 hpos
    rw [hfull, slotAt_lap hr.order_le]
    rw [Nat.add_zero, List.getElem?_eq_getElem (hfull ▸ hpos)] at hslot
    rw [hslot]
    rfl

theorem push_of_lt (hr : r.Holds p items) (hlt : items.length < r.capacity) (value : α) :
    r.push value = (.ok (), r.write r.tail value) := by
  have hl : r.look r.tail = .free := by
    rw [hr.tail, look_eq_free, hr.slotAt_tail, if_pos hlt]
  obtain ⟨n, hn⟩ := Nat.exists_eq_add_of_le hr.attempts
  unfold push
  rw [hn, Nat.add_comm]
  unfold pushWithin
  rw [hl]

theorem push_of_full (hr : r.Holds p items) (hfull : items.length = r.capacity) (value : α) :
    r.push value = (.error value, r) := by
  refine pushWithin_of_not_free (fun hl => ?_) value _
  rw [hr.tail, look_eq_free, hr.slotAt_tail, if_neg (Nat.not_lt.mpr (Nat.le_of_eq hfull.symm))] at hl
  -- The sequence and the tail are one and a lap ahead of the head, and a lap is even.
  obtain ⟨n, hn⟩ := Nat.exists_eq_add_of_le hr.order_pos
  have hcap : r.capacity = 2 * 2 ^ n := by
    unfold capacity
    rw [size_eq, hn, Nat.pow_add, Nat.pow_one]
  rw [hfull, hcap] at hl
  have := ofNat_inj (a := p + 1) ((UInt64.ofNat_add p 1).trans hl)
  omega

theorem write (hr : r.Holds p items) (hlt : items.length < r.capacity) (value : α) :
    (r.write r.tail value).Holds p (items ++ [value]) where
  order_pos := hr.order_pos
  order_le := hr.order_le
  attempts := hr.attempts
  head := hr.head
  tail := by
    show r.tail + 1 = _
    rw [hr.tail, List.length_append, List.length_singleton, ← Nat.add_assoc, UInt64.ofNat_add _ 1]
    rfl
  length_le := by
    rw [List.length_append]
    exact hlt
  slots i hi := by
    rw [hr.tail]
    refine (getElem_set hr.order_le hi hlt _).trans ?_
    split
    · next heq =>
      subst heq
      rw [List.getElem?_concat_length]
      rfl
    · next hne =>
      rw [hr.slots i hi]
      rcases Nat.lt_or_gt_of_ne hne with hlt | hgt
      · rw [List.getElem?_append_left hlt]
      · rw [List.getElem?_eq_none (Nat.le_of_lt hgt), List.getElem?_eq_none]
        rw [List.length_append]
        exact hgt

theorem pop_nil (hr : r.Holds p []) : r.pop = (none, r) := by
  have hslot := hr.slots 0 r.capacity_pos
  rw [Nat.add_zero] at hslot
  rw [pop_eq hr.head, hslot]
  refine if_neg fun h => ?_
  have := ofNat_inj (h.trans (UInt64.ofNat_add p 1).symm)
  omega

theorem pop_cons (hr : r.Holds p (value :: items)) : r.pop = (some value, r.release) := by
  have hslot := hr.slots 0 r.capacity_pos
  rw [Nat.add_zero] at hslot
  rw [pop_eq hr.head, hslot]
  exact if_pos rfl

theorem release (hr : r.Holds p (value :: items)) : r.release.Holds (p + 1) items where
  order_pos := hr.order_pos
  order_le := hr.order_le
  attempts := hr.attempts
  head := by
    show r.head + 1 = _
    rw [hr.head, UInt64.ofNat_add p 1]
    rfl
  tail := by
    show r.tail = _
    rw [hr.tail, List.length_cons, Nat.add_right_comm, Nat.add_assoc]
  length_le := Nat.le_of_succ_le hr.length_le
  slots i hi := by
    have hget : ∀ j < r.capacity, r.release.slotAt (p + j) =
        if j = 0 then ⟨.ofNat (p + r.capacity), none⟩ else r.slotAt (p + j) := by
      intro j hj
      rw [UInt64.ofNat_add, ← hr.head]
      refine Eq.trans ?_ (getElem_set hr.order_le hj r.capacity_pos _)
      exact congrArg (fun pos => (r.slots.set (r.index pos) _)[r.index (.ofNat (p + j))]) hr.head
    rw [Nat.add_right_comm, Nat.add_assoc]
    rcases Nat.lt_or_eq_of_le (Nat.succ_le_of_lt hi) with hlt | heq
    · rw [hget _ hlt, if_neg (Nat.succ_ne_zero i), hr.slots _ hlt, List.getElem?_cons_succ]
    · -- The last position of the new lap has the slot that has just been made free.
      have heq : i + 1 = r.capacity := heq
      have hlen : items.length + 1 ≤ i + 1 := Nat.le_trans hr.length_le (Nat.le_of_eq heq.symm)
      rw [List.getElem?_eq_none (Nat.le_of_succ_le_succ hlen), heq]
      have hlap : r.release.slotAt (p + r.capacity) = r.release.slotAt p := slotAt_lap (r := r.release) hr.order_le p
      exact hlap.trans ((hget 0 r.capacity_pos).trans (if_pos rfl))

/-- As long as words can count a whole ring, the head and the tail are as far apart as it holds values. -/
theorem toNat_tail_sub_head (hr : r.Holds p items) (hsize : r.capacity < UInt64.size) :
    (r.tail - r.head).toNat = items.length := by
  have hlt : items.length < UInt64.size := Nat.lt_of_le_of_lt hr.length_le hsize
  have hsub : r.tail - r.head = .ofNat items.length := by
    rw [hr.tail, hr.head, UInt64.ofNat_add, UInt64.add_comm, UInt64.add_sub_cancel]
  rw [hsub, UInt64.toNat_ofNat_of_lt' hlt]

theorem length_eq (hr : r.Holds p items) (hsize : r.capacity < UInt64.size) : r.length = items.length := by
  unfold length
  rw [hr.toNat_tail_sub_head hsize]
  exact Nat.min_eq_left hr.length_le

/-- The slot of the tail is not ready. -/
theorem slotAt_tail_ne (hr : r.Holds p items) (hsize : r.capacity < UInt64.size) :
    (r.slotAt (p + items.length)).sequence ≠ .ofNat (p + items.length) + 1 := by
  intro heq
  have hsize : r.capacity < 2 ^ 64 := hsize
  rw [hr.slotAt_tail] at heq
  split at heq
  · have := ofNat_inj (heq.trans (UInt64.ofNat_add (p + items.length) 1).symm)
    omega
  · next hge =>
    have hpos : 0 < r.capacity := r.capacity_pos
    have hle := hr.length_le
    have := ofNat_inj ((UInt64.ofNat_add p 1).trans (heq.trans (UInt64.ofNat_add (p + items.length) 1).symm))
    omega

/-- The walk from a position on finds the values from there on. -/
theorem readyFrom_eq (hr : r.Holds p items) (hsize : r.capacity < UInt64.size) {limit i : Nat}
    (hi : i ≤ items.length) (hlimit : items.length < i + limit) :
    r.readyFrom limit (.ofNat (p + i)) = items.drop i := by
  induction limit generalizing i with
  | zero => exact absurd hlimit (Nat.not_lt.mpr hi)
  | succ limit ih =>
    show (if (r.slotAt (p + i)).sequence = .ofNat (p + i) + 1 then
      (r.slotAt (p + i)).value.toList ++ r.readyFrom limit (.ofNat (p + i) + 1) else []) = _
    rcases Nat.lt_or_eq_of_le hi with hlt | rfl
    · have hslot : r.slotAt (p + i) = ⟨.ofNat (p + i) + 1, some items[i]⟩ := by
        rw [hr.slots i (Nat.lt_of_lt_of_le hlt hr.length_le), List.getElem?_eq_getElem hlt]
        rfl
      have hnext : UInt64.ofNat (p + i) + 1 = .ofNat (p + (i + 1)) := (UInt64.ofNat_add (p + i) 1).symm
      rw [hslot, if_pos rfl, hnext, ih hlt (by omega), List.drop_eq_getElem_cons hlt]
      rfl
    · rw [if_neg (hr.slotAt_tail_ne hsize), List.drop_length]

/-- What is destroyed with a ring is what it holds. -/
theorem held_eq (hr : r.Holds p items) (hsize : r.capacity < UInt64.size) : r.held = items := by
  have hle := hr.length_le
  have hall : r.readyFrom (r.capacity + 1) (.ofNat p) = items :=
    hr.readyFrom_eq hsize (i := 0) (Nat.zero_le _) (by omega)
  rwa [← hr.head] at hall

end Holds

theorem order_le (requested : UInt64) : Queue.order requested ≤ 64 := by
  have hlt := requested.toNat_lt
  refine (Nat.log2_lt ?_).mpr ?_ <;> omega

theorem holds_new (requested : UInt64) (retries : UInt32) : (Ring.new requested retries : Ring α).Holds 0 [] where
  order_pos := one_le_order requested
  order_le := order_le requested
  attempts := Nat.le_max_right _ _
  head := rfl
  tail := rfl
  length_le := Nat.zero_le _
  slots i hi := by
    have ho : (Ring.new requested retries : Ring α).order ≤ 64 := order_le requested
    have hi' : ((Ring.new requested retries : Ring α).index (.ofNat (0 + i))).val = i := by
      rw [index_ofNat ho, Nat.zero_add, Nat.mod_eq_of_lt hi]
    rw [List.getElem?_nil, Nat.zero_add] at *
    exact (Vector.getElem_ofFn _).trans (congrArg (fun i => cell i none) hi')

end Ring

/-! ### Either store -/

namespace Channel
variable {α : Type} {c : Channel α} {items : List α} {value : α}

/-- The values that a queue holds, oldest first. -/
def Holds : Channel α → List α → Prop
  | .ring r, items => ∃ p, r.Holds p items
  | .array q, items => q.items = items ∧ items.length ≤ q.capacity

theorem holds_new (store : Store) (requested : UInt64) (retries : UInt32) :
    (Channel.new store requested retries : Channel α).Holds [] := by
  cases store with
  | ring => exact ⟨0, Ring.holds_new requested retries⟩
  | array => exact ⟨rfl, Nat.zero_le _⟩

theorem capacity_new_pos (store : Store) (requested : UInt64) (retries : UInt32) :
    0 < (Channel.new store requested retries : Channel α).capacity := by
  cases store with
  | ring => exact Ring.capacity_pos _
  | array => exact size_pos _

namespace Holds

theorem length_le (hc : c.Holds items) : items.length ≤ c.capacity := by
  cases c with
  | ring r =>
    obtain ⟨p, hr⟩ := hc
    exact hr.length_le
  | array q => exact hc.2

theorem push_of_lt (hc : c.Holds items) (hlt : items.length < c.capacity) (value : α) :
    ∃ c', c.push value = (.ok (), c') ∧ c'.Holds (items ++ [value]) ∧ c'.capacity = c.capacity := by
  cases c with
  | ring r =>
    obtain ⟨p, hr⟩ := hc
    refine ⟨.ring (r.write r.tail value), ?_, ⟨p, hr.write hlt value⟩, rfl⟩
    exact congrArg (Prod.map id ring) (hr.push_of_lt hlt value)
  | array q =>
    obtain ⟨rfl, hle⟩ := hc
    refine ⟨.array { q with items := q.items ++ [value] }, ?_, ⟨rfl, ?_⟩, rfl⟩
    · exact congrArg (Prod.map id array) (Bounded.push_of_lt hlt)
    · rw [List.length_append]
      exact hlt

theorem push_of_le (hc : c.Holds items) (hle : c.capacity ≤ items.length) (value : α) :
    c.push value = (.error value, c) := by
  cases c with
  | ring r =>
    obtain ⟨p, hr⟩ := hc
    exact congrArg (Prod.map id ring) (hr.push_of_full (Nat.le_antisymm hr.length_le hle) value)
  | array q =>
    obtain ⟨rfl, -⟩ := hc
    exact congrArg (Prod.map id array) (Bounded.push_of_le hle)

theorem pop_nil (hc : c.Holds []) : c.pop = (none, c) := by
  cases c with
  | ring r =>
    obtain ⟨p, hr⟩ := hc
    exact congrArg (Prod.map id ring) hr.pop_nil
  | array q =>
    obtain ⟨hq, -⟩ := hc
    obtain ⟨capacity, _⟩ := q
    cases hq
    rfl

theorem pop_cons (hc : c.Holds (value :: items)) :
    ∃ c', c.pop = (some value, c') ∧ c'.Holds items ∧ c'.capacity = c.capacity := by
  cases c with
  | ring r =>
    obtain ⟨p, hr⟩ := hc
    exact ⟨.ring r.release, congrArg (Prod.map id ring) hr.pop_cons, ⟨p + 1, hr.release⟩, rfl⟩
  | array q =>
    obtain ⟨hq, hle⟩ := hc
    obtain ⟨capacity, _⟩ := q
    cases hq
    exact ⟨.array ⟨capacity, items⟩, rfl, ⟨rfl, Nat.le_of_succ_le hle⟩, rfl⟩

theorem length_eq (hc : c.Holds items) (hsize : c.capacity < UInt64.size) : c.length = items.length := by
  cases c with
  | ring r =>
    obtain ⟨p, hr⟩ := hc
    exact hr.length_eq hsize
  | array q => exact congrArg List.length hc.1

/-- What is destroyed with a queue is what it holds. -/
theorem held_eq (hc : c.Holds items) (hsize : c.capacity < UInt64.size) : c.held = items := by
  cases c with
  | ring r =>
    obtain ⟨p, hr⟩ := hc
    exact hr.held_eq hsize
  | array q => exact hc.1

/-- Enough takings take all values. -/
theorem popAll_of_lt {limit : Nat} (hc : c.Holds items) (hlimit : items.length < limit) :
    ∃ c', c.popAll limit = (items, c') ∧ c'.Holds [] ∧ c'.capacity = c.capacity := by
  induction limit generalizing c items with
  | zero => exact absurd hlimit (Nat.not_lt_zero _)
  | succ limit ih =>
    unfold popAll
    cases items with
    | nil => exact ⟨c, by rw [hc.pop_nil], hc, rfl⟩
    | cons value items =>
      obtain ⟨c', hpop, hc', hcap⟩ := hc.pop_cons
      obtain ⟨c'', hall, hempty, hcap'⟩ := ih hc' (Nat.lt_of_succ_lt_succ hlimit)
      refine ⟨c'', ?_, hempty, hcap'.trans hcap⟩
      rw [hpop]
      dsimp only
      rw [hall]

/-- Draining a queue takes what it holds. -/
theorem drain_eq (hc : c.Holds items) : ∃ c', c.drain = (items, c') ∧ c'.Holds [] ∧ c'.capacity = c.capacity :=
  hc.popAll_of_lt (Nat.lt_succ_of_le hc.length_le)

/-- A queue holds one list of values. -/
theorem unique {items' : List α} (hc : c.Holds items) (hc' : c.Holds items') : items = items' := by
  obtain ⟨_, hdrain, -⟩ := hc.drain_eq
  obtain ⟨_, hdrain', -⟩ := hc'.drain_eq
  rw [hdrain] at hdrain'
  exact congrArg Prod.fst hdrain'

end Holds
end Channel
end EngineBridge.Queue
