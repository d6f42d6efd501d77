/-
  Kanagawa.Lib.NatMap

  Ordered maps with natural number keys: lookups after an update, in the form in
  which keys are compared by equality.
-/
import Mathlib

namespace Kanagawa.Lib.NatMap

variable {α : Type}

theorem getElem?_insert (t : Std.ExtTreeMap Nat α) (k a : Nat) (v : α) :
    (t.insert k v)[a]? = if k = a then some v else t[a]? := by
  simp only [Std.ExtTreeMap.getElem?_insert, Std.LawfulEqCmp.compare_eq_iff_eq]

theorem getD_eq (t : Std.ExtTreeMap Nat α) (k : Nat) (v : α) : t.getD k v = t[k]?.getD v :=
  Std.ExtTreeMap.getD_eq_getD_getElem?

theorem getD_insert (t : Std.ExtTreeMap Nat α) (k a : Nat) (v w : α) :
    (t.insert k v).getD a w = if k = a then v else t.getD a w := by
  rw [getD_eq, getElem?_insert, getD_eq]
  split <;> rfl

theorem getD_of_none {t : Std.ExtTreeMap Nat α} {k : Nat} (h : t[k]? = none) (v : α) :
    t.getD k v = v := by
  rw [getD_eq, h]
  rfl

theorem getD_of_some {t : Std.ExtTreeMap Nat α} {k : Nat} {w : α} (h : t[k]? = some w) (v : α) :
    t.getD k v = w := by
  rw [getD_eq, h]
  rfl

theorem contains_eq (t : Std.ExtTreeMap Nat α) (k : Nat) : t.contains k = t[k]?.isSome := by
  rw [Std.ExtTreeMap.contains_eq_isSome_getElem?]

theorem mem_toList_iff {t : Std.ExtTreeMap Nat α} {k : Nat} {v : α} :
    (k, v) ∈ t.toList ↔ t[k]? = some v :=
  Std.ExtTreeMap.mem_toList_iff_getElem?_eq_some

/-- One map has all entries of another. -/
def Extends (t t' : Std.ExtTreeMap Nat α) : Prop :=
  ∀ (k : Nat) (v : α), t[k]? = some v → t'[k]? = some v

end Kanagawa.Lib.NatMap
