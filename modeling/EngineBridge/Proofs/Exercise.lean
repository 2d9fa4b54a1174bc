import EngineBridge.Proofs.Fifo
import EngineBridge.Queue.Exercise

/-! The exercise of the ring finds no fault. What it remembers of the items that it has pushed is what the ring
    holds, item by item, so each of its checks passes, however many bytes direct it and however often its
    numbers wrap. -/

namespace EngineBridge.Queue.Exercise

/-! ### Items -/

/-- The item of which this is remembered. -/
def itemOf (e : Expected) : Item := .make e.1 e.2

/-- Every item passes its check. -/
theorem Item.check_make (seq : UInt16) (n : Nat) : (Item.make seq n).check (some (seq, n)) = .ok () := by
  have hseal : seq + (sealWord - seq) = sealWord := by rw [UInt16.add_comm, UInt16.sub_add_cancel]
  rcases n with _ | _ | n
  · simp [check, make]
  · simp [check, make]
  · cases n with
    | zero => simp [check, make, hseal]
    | succ n => simp [check, make, List.replicate_succ, List.getLast_cons, hseal]

theorem Item.seq_make (seq : UInt16) (n : Nat) : (Item.make seq n).seq = seq := by
  rcases n with _ | _ | n <;> rfl

namespace State
variable {c : Nat} {s : State}

/-- The ring, which has room for a number of items, holds what is expected. -/
structure Sound (c : Nat) (s : State) : Prop where
  holds : ∃ p, s.ring.Holds p (s.expected.map itemOf)
  capacity : s.ring.capacity = c

namespace Sound

theorem length_le (hs : s.Sound c) : s.expected.length ≤ c := by
  obtain ⟨⟨p, hr⟩, hcap⟩ := hs
  simpa [hcap] using hr.length_le

theorem length_eq (hs : s.Sound c) (hc : c < UInt64.size) : s.ring.length = s.expected.length := by
  obtain ⟨⟨p, hr⟩, hcap⟩ := hs
  simpa using hr.length_eq (hcap ▸ hc)

/-- An item comes out as long as one is expected, and it is the oldest of them. -/
theorem pop (hs : s.Sound c) :
    ∃ t, s.pop = .ok (!s.expected.isEmpty, t) ∧ t.Sound c ∧ t.expected = s.expected.tail := by
  obtain ⟨ring, expected, seq, calls⟩ := s
  obtain ⟨⟨p, hr⟩, hcap⟩ := hs
  cases expected with
  | nil =>
    have hpop : ring.pop = (none, ring) := Ring.Holds.pop_nil hr
    refine ⟨⟨ring, [], seq, .none :: calls⟩, ?_, ⟨⟨p, hr⟩, hcap⟩, rfl⟩
    simp [State.pop, hpop, note]
  | cons e expected =>
    have hpop : ring.pop = (some (itemOf e), ring.release) := Ring.Holds.pop_cons hr
    have hcheck : (itemOf e).check (some e) = .ok () := Item.check_make e.1 e.2
    refine ⟨⟨ring.release, expected, seq, .popped :: calls⟩, ?_, ⟨⟨p + 1, hr.release⟩, hcap⟩, rfl⟩
    simp [State.pop, hpop, hcheck, note]

/-- The ring runs empty only when nothing is expected. -/
theorem popRun (hs : s.Sound c) (n : Nat) : ∃ t, s.popRun n = .ok t ∧ t.Sound c := by
  induction n generalizing s with
  | zero => exact ⟨s, rfl, hs⟩
  | succ n ih =>
    obtain ⟨t, hpop, ht, htail⟩ := hs.pop
    unfold State.popRun
    rw [hpop]
    cases hempty : s.expected.isEmpty with
    | false => exact ih ht
    | true =>
      have hnone : t.expected = [] := by rw [htail, List.isEmpty_iff.mp hempty]; rfl
      exact ⟨t, by simp [hnone], ht⟩

/-- A push is refused only when as many items are expected as there is room for, and hands its item back. -/
theorem push (hs : s.Sound c) (length : Nat) : ∃ t, s.push length = .ok t ∧ t.Sound c := by
  obtain ⟨ring, expected, seq, calls⟩ := s
  obtain ⟨⟨p, hr⟩, hcap⟩ := hs
  dsimp only at hr
  rcases Nat.lt_or_eq_of_le hr.length_le with hlt | heq
  · have hpush := hr.push_of_lt hlt (.make seq length)
    have hnext := hr.write hlt (.make seq length)
    refine ⟨⟨ring.write ring.tail (.make seq length), expected ++ [(seq, length)], seq, .pushed :: calls⟩,
      ?_, ⟨p, ?_⟩, hcap⟩
    · simp [State.push, hpush, note]
    · simpa [itemOf] using hnext
  · have hpush := hr.push_of_full heq (.make seq length)
    rw [List.length_map] at heq
    refine ⟨⟨ring, expected, seq, .full :: calls⟩, ?_, ⟨p, hr⟩, hcap⟩
    simp [State.push, hpush, note, heq, Item.seq_make]

/-- The length that the ring tells is that of the items expected. -/
theorem measured (hs : s.Sound c) (hc : c < UInt64.size) (call : Call) :
    (if (s.note call).expected.length = (s.note call).ring.length then .ok (s.note call)
      else .error (.length, s.note call) : Except (Check × State) State) = .ok (s.note call) ∧ (s.note call).Sound c :=
  ⟨if_pos (hs.length_eq hc).symm, hs.holds, hs.capacity⟩

theorem feed (hs : s.Sound c) (hc : c < UInt64.size) (b : UInt8) : ∃ t, s.feed b = .ok t ∧ t.Sound c := by
  have hnext : ({ s with seq := s.seq + 1 } : State).Sound c := ⟨hs.holds, hs.capacity⟩
  unfold State.feed
  dsimp only
  by_cases hb : b < 4
  · obtain ⟨t, hrun, ht⟩ := hnext.popRun (if b = 0 then UInt64.size - 1 else b.toNat)
    rw [if_pos hb, hrun]
    exact ⟨_, ht.measured hc _⟩
  · obtain ⟨t, hpush, ht⟩ := hnext.push (b &&& 15).toNat
    rw [if_neg hb, hpush]
    exact ⟨_, ht.measured hc _⟩

theorem feedAll (hs : s.Sound c) (hc : c < UInt64.size) (data : Bytes) :
    ∃ t, data.foldlM State.feed s = .ok t ∧ t.Sound c := by
  induction data generalizing s with
  | nil => exact ⟨s, rfl, hs⟩
  | cons b data ih =>
    obtain ⟨t, hfeed, ht⟩ := hs.feed hc b
    rw [List.foldlM_cons, hfeed]
    exact ih ht

/-- The ring runs empty after as many pops as there are items expected. -/
theorem finish (hs : s.Sound c) (hc : c < UInt64.size) {limit : Nat} (hlimit : s.expected.length < limit) :
    ∃ t, s.finish limit = .ok t := by
  induction limit generalizing s with
  | zero => omega
  | succ limit ih =>
    obtain ⟨t, hpop, ht, htail⟩ := hs.pop
    unfold State.finish
    rw [hpop]
    cases hempty : s.expected.isEmpty with
    | false =>
      have hpos : 0 < s.expected.length := List.length_pos_iff.mpr fun hnil => by simp [hnil] at hempty
      exact ih ht (by rw [htail, List.length_tail]; omega)
    | true =>
      have hnone : t.expected = [] := by rw [htail, List.isEmpty_iff.mp hempty]; rfl
      have hlength : t.ring.length = 0 := by rw [ht.length_eq hc, hnone]; rfl
      exact ⟨t, by simp [hnone, hlength]⟩

end Sound
end State

/-! ### The exercise -/

/-- A ring has the size that is checked for. -/
theorem capacity_new (requested : UInt64) (retries : UInt32) :
    ¬((Ring.new requested retries : Ring Item).capacity < 2 ∨ (Ring.new requested retries : Ring Item).capacity &&&
      ((Ring.new requested retries : Ring Item).capacity - 1) ≠ 0) := by
  have hcap : (Ring.new requested retries : Ring Item).capacity = 2 ^ order requested := size_eq _
  have hle : 2 ^ 1 ≤ 2 ^ order requested := Nat.pow_le_pow_right (by decide) (one_le_order requested)
  rw [hcap, Nat.and_two_pow_sub_one_eq_mod, Nat.mod_self]
  omega

/-- Whatever bytes direct the exercise, and however many, it comes to its end and no check fails. -/
theorem never_fails (data : Bytes) : (run data).failed = none := by
  cases data with
  | nil => rfl
  | cons head data =>
    let ring : Ring Item := .new (head &&& 63).toUInt64 8
    let s : State := ⟨ring, [], 0, [.capacity ring.capacity, .new (head &&& 63).toUInt64 8]⟩
    have hs : s.Sound ring.capacity := ⟨⟨0, Ring.holds_new _ _⟩, rfl⟩
    have hc : ring.capacity < UInt64.size := size_order_lt (by
      have hlt := (head &&& 63).toNat_lt
      rw [UInt8.toNat_toUInt64]
      omega)
    obtain ⟨t, hfeed, ht⟩ := hs.feedAll hc data
    obtain ⟨u, hfinish⟩ := ht.finish hc (Nat.lt_succ_of_le ht.length_le)
    have hsteps : steps head data = .ok u := by
      have hcap : ¬(ring.capacity < 2 ∨ ring.capacity &&& (ring.capacity - 1) ≠ 0) := capacity_new _ _
      unfold steps
      rw [if_neg hcap]
      show (data.foldlM State.feed s >>= fun s => s.finish (ring.capacity + 1)) = _
      rw [hfeed]
      exact hfinish
    simp [run, hsteps]

end EngineBridge.Queue.Exercise
