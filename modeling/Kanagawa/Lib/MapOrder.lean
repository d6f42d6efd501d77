/-
  Kanagawa.Lib.MapOrder

  Finite maps with ordered values, ordered by what they say.

  A map is below another one if the other has all its keys, with values that are
  not smaller.  If the values have a height that grows with the order, so have the
  maps: a map that is below another one, and different, weighs less.
-/
import Kanagawa.Lib.NatMap

namespace Kanagawa.Lib.MapOrder

variable {α : Type} [PartialOrder α]

/-- The first map says no more than the second one. -/
def Below (t t' : Std.ExtTreeMap Nat α) : Prop :=
  ∀ (k : Nat) (v : α), t[k]? = some v → ∃ v', t'[k]? = some v' ∧ v ≤ v'

theorem Below.refl (t : Std.ExtTreeMap Nat α) : Below t t := fun _ v h => ⟨v, h, le_refl v⟩

theorem Below.trans {t₁ t₂ t₃ : Std.ExtTreeMap Nat α} (h : Below t₁ t₂) (h' : Below t₂ t₃) :
    Below t₁ t₃ := by
  intro k v hv
  obtain ⟨v₂, hv₂, hle⟩ := h k v hv
  obtain ⟨v₃, hv₃, hle'⟩ := h' k v₂ hv₂
  exact ⟨v₃, hv₃, hle.trans hle'⟩

/-! ## Weights -/

/-- What a key adds to the weight of a map. -/
def keyWeight (height : α → Nat) (t : Std.ExtTreeMap Nat α) (k : Nat) : Nat :=
  match t[k]? with
  | some v => height v + 1
  | none => 0

/-- The weight of a map. -/
def weight (height : α → Nat) (t : Std.ExtTreeMap Nat α) : Nat :=
  ∑ k ∈ t.keys.toFinset, keyWeight height t k

variable {height : α → Nat} {t t' : Std.ExtTreeMap Nat α}

omit [PartialOrder α] in
theorem mem_keys_iff {k : Nat} : k ∈ t.keys.toFinset ↔ ∃ v, t[k]? = some v := by
  rw [List.mem_toFinset, Std.ExtTreeMap.mem_keys, Std.ExtTreeMap.mem_iff_isSome_getElem?,
    Option.isSome_iff_exists]

omit [PartialOrder α] in
theorem keyWeight_of_not_mem {k : Nat} (h : k ∉ t.keys.toFinset) : keyWeight height t k = 0 := by
  rw [keyWeight]
  cases hget : t[k]? with
  | none => rfl
  | some v => exact absurd (mem_keys_iff.mpr ⟨v, hget⟩) h

omit [PartialOrder α] in
/-- The weight as a sum over more keys than there are. -/
theorem weight_eq_sum {keys : Finset Nat} (h : t.keys.toFinset ⊆ keys) :
    weight height t = ∑ k ∈ keys, keyWeight height t k :=
  Finset.sum_subset h fun _ _ hk => keyWeight_of_not_mem hk

theorem keyWeight_le (hheight : StrictMono height) (h : Below t t') (k : Nat) :
    keyWeight height t k ≤ keyWeight height t' k := by
  rw [keyWeight, keyWeight]
  cases hget : t[k]? with
  | none => exact Nat.zero_le _
  | some v =>
    obtain ⟨v', hget', hle⟩ := h k v hget
    rw [hget']
    exact Nat.succ_le_succ (hheight.monotone hle)

theorem keys_subset (h : Below t t') : t.keys.toFinset ⊆ t'.keys.toFinset := by
  intro k hk
  obtain ⟨v, hv⟩ := mem_keys_iff.mp hk
  obtain ⟨v', hv', -⟩ := h k v hv
  exact mem_keys_iff.mpr ⟨v', hv'⟩

/-- A map that is below another one, and different, weighs less. -/
theorem weight_lt (hheight : StrictMono height) (h : Below t t') (hne : t ≠ t') :
    weight height t < weight height t' := by
  rw [weight_eq_sum (keys_subset h), weight_eq_sum (Finset.Subset.refl t'.keys.toFinset)]
  refine Finset.sum_lt_sum (fun k _ => keyWeight_le hheight h k) ?_
  -- They differ in some key of the larger map
  by_contra hall
  push Not at hall
  refine hne (Std.ExtTreeMap.ext_getElem? fun k => ?_)
  cases hget' : t'[k]? with
  | none =>
    cases hget : t[k]? with
    | none => rfl
    | some v =>
      obtain ⟨v', hv', -⟩ := h k v hget
      rw [hget'] at hv'
      cases hv'
  | some v' =>
    have hle := hall k (mem_keys_iff.mpr ⟨v', hget'⟩)
    rw [keyWeight, keyWeight, hget'] at hle
    cases hget : t[k]? with
    | none =>
      rw [hget] at hle
      exact absurd hle (Nat.not_succ_le_zero _)
    | some v =>
      obtain ⟨v'', hv'', hvle⟩ := h k v hget
      rw [hget'] at hv''
      obtain rfl := Option.some.inj hv''
      rw [hget] at hle
      rcases hvle.lt_or_eq with hlt | rfl
      · exact absurd (hheight hlt) (Nat.not_lt.mpr (Nat.le_of_succ_le_succ hle))
      · rfl

end Kanagawa.Lib.MapOrder
