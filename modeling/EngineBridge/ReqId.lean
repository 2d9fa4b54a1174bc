import Std.Data.ExtTreeMap

/-! Names of the engine's requests. The engine chooses them; they are only compared, shown and handed
    back. -/

namespace EngineBridge

/-- The engine's name of a request. -/
structure ReqId where
  val : UInt64
deriving DecidableEq, Repr

namespace ReqId

/-- The written form of a request's name. -/
def text (r : ReqId) : String := "#" ++ toString r.val.toNat

instance : Ord ReqId := ⟨fun a b => compare a.val b.val⟩

theorem compare_def (a b : ReqId) : compare a b = compare a.val b.val := rfl

instance : Std.TransOrd ReqId where
  eq_swap {a b} := show compare a.val b.val = (compare b.val a.val).swap from
    Std.OrientedCmp.eq_swap
  isLE_trans {a b c} (h : (compare a.val b.val).isLE) (h' : (compare b.val c.val).isLE) :=
    show (compare a.val c.val).isLE from Std.TransCmp.isLE_trans h h'

instance : Std.LawfulEqOrd ReqId where
  compare_self {a} := show compare a.val a.val = .eq from Std.ReflCmp.compare_self
  eq_of_compare {a b} (h : compare a.val b.val = .eq) := by
    have hv : a.val = b.val := Std.LawfulEqCmp.eq_of_compare h
    cases a
    cases b
    exact congrArg ReqId.mk hv

end ReqId

/-- A table with one entry at most for each request. -/
abbrev ReqMap (α : Type) := Std.ExtTreeMap ReqId α

namespace ReqMap

theorem get?_insert {α : Type} (m : ReqMap α) (k a : ReqId) (v : α) :
    (m.insert k v)[a]? = if k = a then some v else m[a]? := by
  rw [Std.ExtTreeMap.getElem?_insert]
  simp only [Std.LawfulEqCmp.compare_eq_iff_eq]

theorem get?_erase {α : Type} (m : ReqMap α) (k a : ReqId) :
    (m.erase k)[a]? = if k = a then none else m[a]? := by
  rw [Std.ExtTreeMap.getElem?_erase]
  simp only [Std.LawfulEqCmp.compare_eq_iff_eq]

end ReqMap
end EngineBridge
