/-! Values kept under small numbers. A slot that has been emptied is used again before a new one is
    opened, the one emptied last coming first, so slot numbers alone do not tell values apart. -/

namespace EngineBridge

/-- A set of slots, some of which hold a value. The empty slots are exactly those in `free`. -/
structure Arena (α : Type) where
  cells : Array (Option α)
  free : List Nat
  nodup : free.Nodup
  mem_free : ∀ k, k ∈ free ↔ cells[k]? = some none

namespace Arena
variable {α : Type}

/-- The arena without slots. -/
def empty : Arena α where
  cells := #[]
  free := []
  nodup := List.nodup_nil
  mem_free := by simp

/-- The value in a slot. -/
def get? (a : Arena α) (k : Nat) : Option α := a.cells[k]?.join

/-- The slot that the next value will be put into. -/
def nextSlot (a : Arena α) : Nat := a.free.head?.getD a.cells.size

/-- Puts a value into the next slot. -/
def insert (a : Arena α) (v : α) : Arena α :=
  match hf : a.free with
  | [] =>
    { cells := a.cells.push (some v)
      free := []
      nodup := List.nodup_nil
      mem_free := fun k => by
        have hk := a.mem_free k
        simp only [hf, List.not_mem_nil, false_iff] at hk
        simp only [List.not_mem_nil, false_iff, Array.getElem?_push]
        split
        · simp
        · exact hk }
  | slot :: rest =>
    { cells := a.cells.setIfInBounds slot (some v)
      free := rest
      nodup := by
        have h := a.nodup
        rw [hf] at h
        exact (List.nodup_cons.mp h).2
      mem_free := fun k => by
        have hk := a.mem_free k
        have hs := a.nodup
        rw [hf] at hk hs
        have hne := (List.nodup_cons.mp hs).1
        rw [Array.getElem?_setIfInBounds]
        by_cases h : slot = k
        · subst h
          simp only [if_true, hne, false_iff]
          split <;> simp
        · rw [if_neg h, ← hk]
          simp only [List.mem_cons, show k ≠ slot from fun e => h e.symm, false_or] }

/-- Empties a slot that holds a value. -/
def remove (a : Arena α) (slot : Nat) : Arena α :=
  if hv : (a.get? slot).isSome then
    { cells := a.cells.setIfInBounds slot none
      free := slot :: a.free
      nodup := by
        refine List.nodup_cons.mpr ⟨fun h => ?_, a.nodup⟩
        have := (a.mem_free slot).mp h
        simp [get?, this] at hv
      mem_free := fun k => by
        have hlt : slot < a.cells.size := by
          rcases Nat.lt_or_ge slot a.cells.size with h | h
          · exact h
          · simp [get?, Array.getElem?_eq_none h] at hv
        rw [Array.getElem?_setIfInBounds, List.mem_cons]
        by_cases h : slot = k
        · subst h
          simp [hlt]
        · simp only [if_neg h, ← a.mem_free k, show k ≠ slot from fun e => h e.symm, false_or] }
  else a

/-- Changes the value in a slot, if there is one. -/
def modify (a : Arena α) (slot : Nat) (f : α → α) : Arena α where
  cells := a.cells.modify slot (Option.map f)
  free := a.free
  nodup := a.nodup
  mem_free := fun k => by
    rw [a.mem_free k, Array.getElem?_modify]
    split
    · cases h : a.cells[k]? with
      | none => simp
      | some o => cases o <;> simp
    · rfl

/-- The values held, by ascending slot. -/
def values (a : Arena α) : List α := a.cells.toList.filterMap id

/-- How many values are held. -/
def size (a : Arena α) : Nat := a.values.length

@[simp] theorem get?_empty (k : Nat) : (empty : Arena α).get? k = none := rfl

@[simp] theorem values_empty : (empty : Arena α).values = [] := rfl

theorem get?_nextSlot (a : Arena α) : a.get? a.nextSlot = none := by
  unfold get? nextSlot
  cases hf : a.free with
  | nil => simp
  | cons slot rest =>
    have := (a.mem_free slot).mp (by simp [hf])
    simp [this]

theorem get?_insert (a : Arena α) (v : α) (k : Nat) :
    (a.insert v).get? k = if k = a.nextSlot then some v else a.get? k := by
  unfold insert get? nextSlot
  split
  · next hf =>
    simp only [hf, List.head?_nil, Option.getD_none, Array.getElem?_push]
    split <;> rfl
  · next slot rest hf =>
    have hv := (a.mem_free slot).mp (by simp [hf])
    have hlt : slot < a.cells.size := by
      rcases Nat.lt_or_ge slot a.cells.size with h | h
      · exact h
      · simp [Array.getElem?_eq_none h] at hv
    simp only [hf, List.head?_cons, Option.getD_some, Array.getElem?_setIfInBounds]
    by_cases h : slot = k
    · subst h
      simp [hlt]
    · rw [if_neg h, if_neg fun e => h e.symm]

theorem get?_remove (a : Arena α) (slot k : Nat) :
    (a.remove slot).get? k = if k = slot then none else a.get? k := by
  unfold remove
  split
  · simp only [get?, Array.getElem?_setIfInBounds]
    by_cases h : slot = k
    · subst h
      simp only [if_true]
      split <;> rfl
    · rw [if_neg h, if_neg fun e => h e.symm]
  · next hv =>
    by_cases h : k = slot
    · subst h
      simpa using hv
    · rw [if_neg h]

theorem get?_of_remove {a : Arena α} {slot k : Nat} {v : α} (hv : (a.remove slot).get? k = some v) :
    k ≠ slot ∧ a.get? k = some v := by
  rw [get?_remove] at hv
  split at hv
  · cases hv
  · next hne => exact ⟨hne, hv⟩

theorem get?_modify (a : Arena α) (slot k : Nat) (f : α → α) :
    (a.modify slot f).get? k = if k = slot then (a.get? k).map f else a.get? k := by
  simp only [modify, get?, Array.getElem?_modify]
  by_cases h : slot = k
  · subst h
    cases ha : a.cells[slot]? with
    | none => simp
    | some o => cases o <;> simp
  · rw [if_neg h, if_neg fun e => h e.symm]

theorem map_get?_modify {β : Type} {f : α → α} {g : α → β} (hg : ∀ v, g (f v) = g v) (a : Arena α)
    (slot k : Nat) : ((a.modify slot f).get? k).map g = (a.get? k).map g := by
  rw [get?_modify]
  split
  · rw [Option.map_map]
    exact Option.map_congr fun v _ => hg v
  · rfl

/-! ### The values as a whole -/

/-- Putting something else into a cell of a list exchanges what the cell holds. -/
theorem perm_set {l : List (Option α)} {i : Nat} {o : Option α} (ho : l[i]? = some o) (o' : Option α) :
    (o.toList ++ (l.set i o').filterMap id).Perm (o'.toList ++ l.filterMap id) := by
  have cons : ∀ (x : Option α) (l : List (Option α)), (x :: l).filterMap id = x.toList ++ l.filterMap id := by
    intro x l
    cases x <;> rfl
  induction l generalizing i with
  | nil => cases ho
  | cons x l ih =>
    cases i with
    | zero =>
      cases ho
      rw [List.set_cons_zero, cons, cons]
      exact List.perm_append_comm_assoc _ _ _
    | succ i =>
      rw [List.set_cons_succ, cons, cons]
      calc (o.toList ++ (x.toList ++ (l.set i o').filterMap id)).Perm
            (x.toList ++ (o.toList ++ (l.set i o').filterMap id)) := List.perm_append_comm_assoc _ _ _
        List.Perm _ (x.toList ++ (o'.toList ++ l.filterMap id)) := (ih ho).append_left _
        List.Perm _ (o'.toList ++ (x.toList ++ l.filterMap id)) := List.perm_append_comm_assoc _ _ _

theorem getElem?_of_get? {a : Arena α} {k : Nat} {v : α} (hv : a.get? k = some v) :
    a.cells.toList[k]? = some (some v) := by
  rw [Array.getElem?_toList]
  exact Option.join_eq_some_iff.mp hv

theorem mem_values {a : Arena α} {k : Nat} {v : α} (hv : a.get? k = some v) : v ∈ a.values :=
  List.mem_filterMap.mpr ⟨some v, List.mem_of_getElem? (getElem?_of_get? hv), rfl⟩

theorem values_insert (a : Arena α) (v : α) : (a.insert v).values.Perm (v :: a.values) := by
  unfold insert
  split
  · unfold values
    rw [Array.toList_push, List.filterMap_append]
    exact List.perm_append_singleton v _
  · next slot rest hf =>
    have hslot : a.cells.toList[slot]? = some none := by
      rw [Array.getElem?_toList]
      exact (a.mem_free slot).mp (hf ▸ List.mem_cons_self)
    unfold values
    rw [Array.toList_setIfInBounds]
    exact perm_set hslot (some v)

theorem values_remove {a : Arena α} {k : Nat} {v : α} (hv : a.get? k = some v) :
    a.values.Perm (v :: (a.remove k).values) := by
  have hsome : (a.get? k).isSome := hv ▸ rfl
  unfold remove
  rw [dif_pos hsome]
  unfold values
  rw [Array.toList_setIfInBounds]
  exact (perm_set (getElem?_of_get? hv) none).symm

theorem map_values_modify {β : Type} {f : α → α} {g : α → β} (hg : ∀ v, g (f v) = g v) (a : Arena α) (k : Nat) :
    (a.modify k f).values.map g = a.values.map g := by
  unfold values modify
  dsimp only
  rw [Array.toList_modify]
  generalize a.cells.toList = l
  induction l generalizing k with
  | nil => rw [List.modify_nil]
  | cons x l ih =>
    cases k with
    | zero =>
      rw [List.modify_zero_cons]
      cases x with
      | none => rfl
      | some v => exact congrArg (· :: _) (hg v)
    | succ k =>
      rw [List.modify_succ_cons]
      cases x with
      | none => exact ih k
      | some v => exact congrArg (_ :: ·) (ih k)

end Arena
end EngineBridge
