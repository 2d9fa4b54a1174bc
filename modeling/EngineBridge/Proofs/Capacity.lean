import EngineBridge.Proofs.Reach
import EngineBridge.Proofs.Fifo

/-! The capacity of a new worker. A request for room is rounded up in words when a worker's settings are
    asked, and by counting binary digits where a queue is made. Both come to the least power of two that is
    large enough, and no step of the former leaves the words as long as half of them are not exceeded; so
    the settings tell how many closures a new worker takes before it refuses one. -/

namespace EngineBridge

/-! ### Rounding in words -/

namespace Queue
variable {requested : UInt64}

/-- The difference of two words, if it is not below zero. -/
def sub? (a b : UInt64) : Option UInt64 := if b ≤ a then some (a - b) else none

/-- The sum of two words, if it is a word. -/
def add? (a b : UInt64) : Option UInt64 := if a.toNat + b.toNat < UInt64.size then some (a + b) else none

/-- The size of the queue that a request leads to, if no step on the way to it leaves the words. -/
def roundUp? (requested : UInt64) : Option UInt64 := do
  let last ← sub? (max requested 2) 1
  let shift ← sub? 63 last.log2
  add? (0xFFFFFFFFFFFFFFFF >>> shift) 1

theorem toNat_max (a b : UInt64) : (max a b).toNat = max a.toNat b.toNat := by
  show (if a ≤ b then b else a).toNat = _
  split
  · next hle => exact (Nat.max_eq_right (UInt64.le_iff_toNat_le.mp hle)).symm
  · next hlt => exact (Nat.max_eq_left (Nat.le_of_not_le fun hle => hlt (UInt64.le_iff_toNat_le.mpr hle))).symm

theorem one_le_max (requested : UInt64) : 1 ≤ max requested 2 := by
  rw [UInt64.le_iff_toNat_le, toNat_max]
  exact Nat.le_trans (by decide) (Nat.le_max_right _ _)

/-- One less than what is asked for, in words as in numbers. -/
theorem toNat_last (requested : UInt64) : (max requested 2 - 1).toNat = max requested.toNat 2 - 1 := by
  rw [UInt64.toNat_sub_of_le _ _ (one_le_max requested), toNat_max]
  rfl

theorem toNat_log2_last (requested : UInt64) : (max requested 2 - 1).log2.toNat + 1 = order requested := by
  show (max requested 2 - 1).toNat.log2 + 1 = _
  rw [toNat_last]
  rfl

/-- The lowest bits of a word, one more than a number of them. -/
theorem toNat_ones {k : UInt64} (hk : k.toNat ≤ 63) :
    (0xFFFFFFFFFFFFFFFF >>> (63 - k) : UInt64).toNat + 1 = size (k.toNat + 1) := by
  have hsub : (63 - k).toNat = 63 - k.toNat := UInt64.toNat_sub_of_le _ _ hk
  have hlow : ∀ n ≤ 63, (2 ^ 64 - 1) / 2 ^ (63 - n) + 1 = 2 ^ (n + 1) := by decide
  rw [UInt64.toNat_shiftRight, hsub, Nat.mod_eq_of_lt (by omega), Nat.shiftRight_eq_div_pow, size_eq]
  exact hlow _ hk

theorem toNat_ones_last (requested : UInt64) :
    (0xFFFFFFFFFFFFFFFF >>> (63 - (max requested 2 - 1).log2) : UInt64).toNat + 1 = size (order requested) := by
  have hlog := toNat_log2_last requested
  have ho := Ring.order_le requested
  rw [toNat_ones (by omega), hlog]

/-- What is added last is all that can lead out of the words. -/
theorem roundUp?_eq (requested : UInt64) : roundUp? requested =
    if size (order requested) < UInt64.size then some (roundUp requested) else none := by
  have hlog := toNat_log2_last requested
  have ho := Ring.order_le requested
  have hlast : sub? (max requested 2) 1 = some (max requested 2 - 1) := if_pos (one_le_max requested)
  have hshift : sub? 63 (max requested 2 - 1).log2 = some (63 - (max requested 2 - 1).log2) :=
    if_pos (UInt64.le_iff_toNat_le.mpr (show (max requested 2 - 1).log2.toNat ≤ 63 by omega))
  unfold roundUp?
  rw [hlast, Option.bind_eq_bind, Option.bind_some, hshift, Option.bind_some, add?, UInt64.toNat_one, toNat_ones_last]
  rfl

theorem toNat_roundUp (h : size (order requested) < UInt64.size) :
    (roundUp requested).toNat = size (order requested) := by
  unfold roundUp
  rw [UInt64.toNat_add, UInt64.toNat_one, toNat_ones_last]
  exact Nat.mod_eq_of_lt h

/-! ### Pushing without end -/

variable {Q α : Type} {f : Functions Q α} {R : Q → Bounded α → Prop} {q : Q} {b : Bounded α}

/-- Which of the values are accepted when they are pushed one after another. -/
def Functions.accepts (f : Functions Q α) (q : Q) : List α → List Bool
  | [] => []
  | value :: values => (f.push q value).1.toBool :: f.accepts (f.push q value).2 values

theorem Functions.Simulates.accepts (hf : f.Simulates R) (h : R q b) :
    ∀ values, f.accepts q values = Bounded.functions.accepts b values := by
  intro values
  induction values generalizing q b with
  | nil => rfl
  | cons value values ih =>
    obtain ⟨heq, hnext⟩ := hf.push h value
    exact congrArg₂ List.cons (congrArg Except.toBool heq) (ih hnext)

/-- A list with a bound accepts values until the bound is reached, and no further one. -/
theorem Bounded.accepts_eq (b : Bounded α) (values : List α) : functions.accepts b values =
    (List.range values.length).map fun i => decide (b.length + i < b.capacity) := by
  induction values generalizing b with
  | nil => rfl
  | cons value values ih =>
    rw [List.length_cons, List.range_succ_eq_map, List.map_cons, List.map_map]
    show (b.push value).1.toBool :: functions.accepts (b.push value).2 values = _
    rw [ih]
    rcases Nat.lt_or_ge b.length b.capacity with hlt | hge
    · rw [push_of_lt hlt]
      refine congrArg₂ List.cons (decide_eq_true hlt).symm (List.map_congr_left fun i _ => ?_)
      show decide ((b.items ++ [value]).length + i < b.capacity) = decide (b.items.length + (i + 1) < b.capacity)
      rw [List.length_append, List.length_singleton, Nat.add_right_comm, Nat.add_assoc]
    · rw [push_of_le hge]
      refine congrArg₂ List.cons (decide_eq_false (Nat.not_lt.mpr hge)).symm (List.map_congr_left fun i _ => ?_)
      show decide (b.length + i < b.capacity) = decide (b.length + (i + 1) < b.capacity)
      rw [decide_eq_false (by omega), decide_eq_false (by omega)]

end Queue

/-! ### Opening a worker -/

variable {δ ω : Type} {store : Queue.Store} {config : Config} {data : δ} {world : ω}

/-- A queue without room is objected to first, and then pushes without a try. -/
theorem Config.validate_eq_error_iff {e : Error} : config.validate = .error e ↔
    config.queueCapacity = 0 ∧ e = .config "queue_capacity must be non-zero" ∨
      config.queueCapacity ≠ 0 ∧ config.pushRetries = 0 ∧ e = .config "push_retries must be non-zero" := by
  unfold Config.validate
  split
  · next hc => simp [hc, eq_comm]
  · next hc =>
    split
    · next hr => simp [hc, hr, eq_comm]
    · next hr => simp [hc, hr]

theorem State.open_eq_error_iff {e : Error} :
    State.open store config data world = .error e ↔ config.validate = .error e := by
  unfold State.open
  cases config.validate with
  | error e' =>
    constructor <;>
    · rintro ⟨⟩
      rfl
  | ok u => constructor <;> rintro ⟨⟩

/-- Nothing else is objected to. -/
theorem State.exists_open (hc : config.queueCapacity ≠ 0) (hr : config.pushRetries ≠ 0) (store : Queue.Store) (data : δ)
    (world : ω) : ∃ s, State.open store config data world = .ok s := by
  cases hs : State.open store config data world with
  | ok s => exact ⟨s, rfl⟩
  | error e =>
    rw [State.open_eq_error_iff, Config.validate_eq_error_iff] at hs
    obtain ⟨h, -⟩ | ⟨-, h, -⟩ := hs
    · exact absurd h hc
    · exact absurd h hr

/-! ### Pushing onto the queue of a worker -/

/-- A push is accepted just if the queue accepts it. -/
theorem Shared.push_queue (waker : Waker ω) (sh : Shared δ ω) (work : Work δ ω) :
    (sh.push waker work).1 = (sh.queue.push ⟨sh.nextTicket, work⟩).1.toBool ∧
      (sh.push waker work).2.queue = (sh.queue.push ⟨sh.nextTicket, work⟩).2 := by
  show (sh.hand.2.send waker ⟨sh.nextTicket, work⟩).1 = _ ∧ (sh.hand.2.send waker ⟨sh.nextTicket, work⟩).2.queue = _
  unfold send enqueue
  rcases hpush : sh.queue.push ⟨sh.nextTicket, work⟩ with ⟨_ | _, queue⟩ <;>
  · rw [show sh.hand.2.queue = sh.queue from rfl, hpush]
    exact ⟨rfl, rfl⟩

/-- Pushes onto the queue of a worker, one after another, are answered as the queue answers them. -/
theorem Host.exec_pushes (h : Host δ ω) (works : List (Work δ ω)) (s : State δ ω) :
    ∃ ps t, ps.length = works.length ∧
      (works.mapM h.push).exec s = (.ok (Queue.Channel.functions.accepts s.shared.queue ps), t) := by
  induction works generalizing s with
  | nil => exact ⟨[], s, rfl, rfl⟩
  | cons work works ih =>
    obtain ⟨hanswer, hqueue⟩ := s.shared.push_queue h.waker work
    obtain ⟨ps, t, hlen, hrest⟩ := ih { s with shared := (s.shared.push h.waker work).2 }
    refine ⟨⟨s.shared.nextTicket, work⟩ :: ps, t, congrArg (· + 1) hlen, ?_⟩
    have hpush : (h.push work).exec s = (.ok (s.shared.push h.waker work).1, _) := Action.exec_shared _
    rw [List.mapM_cons, Action.exec_bind_of_ok hpush, Action.exec_bind_of_ok hrest]
    show (Except.ok (_ :: Queue.Channel.functions.accepts (s.shared.push h.waker work).2.queue ps), t) = _
    rw [hanswer, hqueue]
    rfl

/-! ### The law of capacity -/

/-- Up to half the words can be asked for as capacity. The capacity that the settings tell is then the least
    power of two that is at least two and at least what is asked for, and no step of its computation leaves
    the words. A worker can be opened unless the capacity asked for or the number of tries is zero; either is
    said in an error, the capacity first. The worker then accepts just as many pushes, one after another, as
    the settings tell, over either store; and so does the queue of a library that is made for them. -/
theorem Config.capacity_law {δ ω : Type} (config : Config) (hc : config.queueCapacity.toNat ≤ 2 ^ 63) (data : δ)
    (world : ω) :
    IsLeast {n | (∃ k, n = 2 ^ k) ∧ max config.queueCapacity.toNat 2 ≤ n} config.effectiveCapacity.toNat ∧
    Queue.roundUp? config.queueCapacity = some config.effectiveCapacity ∧
    (∀ store e, State.open store config data world = .error e ↔
      config.queueCapacity = 0 ∧ e = .config "queue_capacity must be non-zero" ∨
        config.queueCapacity ≠ 0 ∧ config.pushRetries = 0 ∧ e = .config "push_retries must be non-zero") ∧
    (config.queueCapacity ≠ 0 → config.pushRetries ≠ 0 → ∀ store, ∃ s,
      State.open store config data world = .ok s ∧
        ∀ (h : Host δ ω) (works : List (Work δ ω)), ((works.mapM h.push).exec s).1 =
          .ok ((List.range works.length).map fun i => decide (i < config.effectiveCapacity.toNat))) ∧
    ∀ {Q α : Type} (a : Queue.ArrayQueue Q α) {items : Q → List α}, a.Fifo items → ∀ values,
      a.accepts (a.channel config.queueCapacity config.pushRetries) values =
        (List.range values.length).map fun i => decide (i < config.effectiveCapacity.toNat) := by
  have hsize := Queue.size_order_lt hc
  have hcap : config.effectiveCapacity.toNat = Queue.size (Queue.order config.queueCapacity) :=
    Queue.toNat_roundUp hsize
  have hlist : ∀ {α : Type} (values : List α),
      Queue.Bounded.functions.accepts ⟨Queue.size (Queue.order config.queueCapacity), []⟩ values =
        (List.range values.length).map fun i => decide (i < config.effectiveCapacity.toNat) := by
    intro α values
    rw [Queue.Bounded.accepts_eq, hcap]
    exact List.map_congr_left fun i _ => by rw [Queue.Bounded.length, List.length_nil, Nat.zero_add]
  refine ⟨?_, (Queue.roundUp?_eq _).trans (if_pos hsize), fun store e => ?_, fun hc0 hr0 store => ?_,
    fun a _ ha values => ?_⟩
  · rw [hcap]
    exact Queue.isLeast_size_order _
  · exact State.open_eq_error_iff.trans Config.validate_eq_error_iff
  · obtain ⟨s, hs⟩ := State.exists_open hc0 hr0 store data world
    refine ⟨s, hs, fun h works => ?_⟩
    obtain ⟨ps, t, hlen, hexec⟩ := h.exec_pushes works s
    have hnew := Queue.Channel.agrees_new (α := Parcel δ ω) store hc config.pushRetries
    obtain rfl := State.open_eq hs
    rw [hexec, ← hlen, ← hlist]
    exact congrArg Except.ok (Queue.Channel.simulates.accepts hnew ps)
  · have hpos := Queue.size_pos (Queue.order config.queueCapacity)
    rw [← hlist]
    exact ha.simulates.accepts (b := ⟨_, []⟩) ⟨ha.items_new _ hpos, ha.capacity_new _ hpos⟩ values

/-- A worker that is asked to hold three closures holds four and refuses the fifth. -/
theorem Config.capacity_law_when_rounded :
    let config : Config := { queueCapacity := 3, pushRetries := 1 }
    let h : Host Unit Unit := .prompt ⟨9⟩ (.finish (.ok .ok))
    config.queueCapacity.toNat ≤ 2 ^ 63 ∧ config.queueCapacity ≠ 0 ∧ config.pushRetries ≠ 0 ∧
      (Queue.Bounded.arrayQueue (α := Nat)).Fifo Queue.Bounded.items ∧ config.effectiveCapacity = 4 ∧
      (∃ s, State.open .ring config () () = .ok s ∧
        (((List.replicate 5 (.task .done)).mapM h.push).exec s).1 = .ok [true, true, true, true, false]) ∧
      Queue.Bounded.arrayQueue.accepts (Queue.Bounded.arrayQueue.channel 3 1) [1, 2, 3, 4, 5] =
        [true, true, true, true, false] := by
  intro config h
  have hc : config.queueCapacity.toNat ≤ 2 ^ 63 := by decide
  have hc0 : config.queueCapacity ≠ 0 := by decide
  have hr0 : config.pushRetries ≠ 0 := by decide
  obtain ⟨-, -, -, hopen, hlibrary⟩ := Config.capacity_law config hc () ()
  obtain ⟨s, hs, hpushes⟩ := hopen hc0 hr0 .ring
  exact ⟨hc, hc0, hr0, Queue.Bounded.fifo, by decide, ⟨s, hs, (hpushes h _).trans (by decide)⟩,
    (hlibrary Queue.Bounded.arrayQueue Queue.Bounded.fifo [1, 2, 3, 4, 5]).trans (by decide)⟩

end EngineBridge
