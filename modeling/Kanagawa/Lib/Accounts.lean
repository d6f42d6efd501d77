/-
  Kanagawa.Lib.Accounts

  Sums over the items of a kind, while items change their kind one at a time.
-/
import Mathlib

namespace Kanagawa.Lib.Accounts

variable {ι γ : Type*} [DecidableEq γ]

/-- The sum of what the items of kind `c` need. -/
def total (kind : ι → γ) (c : γ) (need : ι → Nat) (items : List ι) : Nat :=
  (items.map fun i => if kind i = c then need i else 0).sum

variable {kind kind' : ι → γ} {need : ι → Nat} {items : List ι}

theorem total_congr (h : ∀ i ∈ items, kind' i = kind i) (c : γ) (need : ι → Nat) :
    total kind' c need items = total kind c need items := by
  rw [total, total]
  congr 1
  apply List.map_congr_left
  intro i hi
  rw [h i hi]

/-- One item changes its kind. -/
theorem total_change (hnodup : items.Nodup) {it : ι} (hit : it ∈ items)
    (hother : ∀ i ∈ items, i ≠ it → kind' i = kind i) (c : γ) (need : ι → Nat) :
    total kind' c need items + (if kind it = c then need it else 0)
      = total kind c need items + if kind' it = c then need it else 0 := by
  induction items with
  | nil => exact nomatch hit
  | cons i items ih =>
      obtain ⟨hi, hitems⟩ := List.nodup_cons.mp hnodup
      have hcons : ∀ k : ι → γ, total k c need (i :: items)
          = (if k i = c then need i else 0) + total k c need items := fun _ => List.sum_cons
      rw [hcons, hcons]
      rcases List.mem_cons.mp hit with rfl | hmem
      · have hrest : total kind' c need items = total kind c need items := by
          apply total_congr
          intro j hj
          exact hother j (List.mem_cons_of_mem _ hj) fun heq => hi (heq ▸ hj)
        rw [hrest]
        omega
      · have hne : i ≠ it := fun heq => hi (heq ▸ hmem)
        have hkind := hother i List.mem_cons_self hne
        have hrest := ih hitems hmem fun j hj => hother j (List.mem_cons_of_mem _ hj)
        rw [hkind]
        omega

/-- An item needs no more than all of its kind. -/
theorem le_total {it : ι} (hit : it ∈ items) (need : ι → Nat) :
    need it ≤ total kind (kind it) need items := by
  induction items with
  | nil => exact nomatch hit
  | cons i items ih =>
      have hcons : total kind (kind it) need (i :: items)
          = (if kind i = kind it then need i else 0) + total kind (kind it) need items :=
        List.sum_cons
      rw [hcons]
      rcases List.mem_cons.mp hit with rfl | hmem
      · rw [if_pos rfl]
        omega
      · have hle := ih hmem
        omega

theorem total_append (kind : ι → γ) (c : γ) (need : ι → Nat) (items items' : List ι) :
    total kind c need (items ++ items')
      = total kind c need items + total kind c need items' := by
  rw [total, List.map_append, List.sum_append]
  rfl

end Kanagawa.Lib.Accounts
