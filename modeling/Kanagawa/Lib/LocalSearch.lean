/-
  Kanagawa.Lib.LocalSearch

  Loops that go on as long as a cost goes down.

  A body that reports progress only when the cost has decreased stops after
  finitely many passes when its states stay in a finite set: each pass with
  progress leaves fewer states that are cheaper.
-/
import Mathlib

namespace Kanagawa.Lib.LocalSearch

variable {α D : Type*}

/-- `do { … } while (progress)`, with a bound on the number of passes. -/
def doWhile (body : α → α × Bool) : Nat → α → Option α
  | 0, _ => none
  | fuel + 1, s => if (body s).2 then doWhile body fuel (body s).1 else some (body s).1

/-! ## Descent -/

section Descent

variable [Preorder D] (cost : α → D)

/-- A state is kept, or replaced by a cheaper one. -/
def Cheaper (s s' : α) : Prop := s' = s ∨ cost s' < cost s

variable {cost}

theorem Cheaper.refl (s : α) : Cheaper cost s s := .inl rfl

theorem Cheaper.trans {s s' s'' : α} (h : Cheaper cost s s') (h' : Cheaper cost s' s'') :
    Cheaper cost s s'' := by
  rcases h with rfl | h
  · exact h'
  · rcases h' with rfl | h'
    · exact .inr h
    · exact .inr (h'.trans h)

theorem Cheaper.trans_lt {s s' s'' : α} (h : Cheaper cost s s') (h' : cost s'' < cost s') :
    cost s'' < cost s := by
  rcases h with rfl | h
  · exact h'
  · exact h'.trans h

theorem Cheaper.lt_trans {s s' s'' : α} (h : cost s' < cost s) (h' : Cheaper cost s' s'') :
    cost s'' < cost s := by
  rcases h' with rfl | h'
  · exact h
  · exact h'.trans h

theorem Cheaper.le {s s' : α} (h : Cheaper cost s s') : cost s' ≤ cost s := by
  rcases h with rfl | h
  · exact le_refl _
  · exact h.le

variable (cost)

/-- A pass from `s`: progress means that the cost went down. -/
structure Descends (s : α) (r : α × Bool) : Prop where
  cheaper : Cheaper cost s r.1
  progress : r.2 = true → cost r.1 < cost s

variable {cost}

/-- The flag may also be kept from before. -/
theorem Descends.trans {s : α} {r r' : α × Bool} (h : Descends cost s r)
    (hcheaper : Cheaper cost r.1 r'.1)
    (hprogress : r'.2 = true → r.2 = true ∨ cost r'.1 < cost r.1) : Descends cost s r' := by
  refine ⟨h.cheaper.trans hcheaper, ?_⟩
  intro hflag
  rcases hprogress hflag with hbefore | hlt
  · exact Cheaper.lt_trans (h.progress hbefore) hcheaper
  · exact h.cheaper.trans_lt hlt

open Classical in
/-- A loop whose body descends within a finite set ends, with a state that is no dearer. -/
theorem doWhile_ends {body : α → α × Bool} (S : Finset α) (hclosed : ∀ s ∈ S, (body s).1 ∈ S)
    (hdescends : ∀ s ∈ S, Descends cost s (body s)) {s : α} (hs : s ∈ S) {fuel : Nat}
    (hfuel : S.card < fuel) :
    ∃ s', doWhile body fuel s = some s' ∧ s' ∈ S ∧ Cheaper cost s s' := by
  -- Induction on the number of states that are cheaper
  have hrank : ∀ n, ∀ s ∈ S, (S.filter fun t => cost t < cost s).card = n → ∀ fuel, n < fuel →
      ∃ s', doWhile body fuel s = some s' ∧ s' ∈ S ∧ Cheaper cost s s' := by
    intro n
    induction n using Nat.strongRecOn with
    | _ n ih =>
        intro s hs hn fuel hfuel
        obtain ⟨fuel, rfl⟩ : ∃ k, fuel = k + 1 := ⟨fuel - 1, by omega⟩
        rw [doWhile]
        split
        · next hflag =>
          have hlt := (hdescends s hs).progress hflag
          have hsub : (S.filter fun t => cost t < cost (body s).1).card < n := by
            rw [← hn]
            apply Finset.card_lt_card
            refine ⟨?_, ?_⟩
            · intro t ht
              rw [Finset.mem_filter] at ht ⊢
              exact ⟨ht.1, ht.2.trans hlt⟩
            · intro hsubset
              have hmem := hsubset (Finset.mem_filter.mpr ⟨hclosed s hs, hlt⟩)
              exact lt_irrefl _ (Finset.mem_filter.mp hmem).2
          obtain ⟨s', hloop, hmem, hcheaper⟩ :=
            ih _ hsub _ (hclosed s hs) rfl fuel (by omega)
          exact ⟨s', hloop, hmem, (hdescends s hs).cheaper.trans hcheaper⟩
        · exact ⟨_, rfl, hclosed s hs, (hdescends s hs).cheaper⟩
  have hle : (S.filter fun t => cost t < cost s).card ≤ S.card := Finset.card_filter_le _ _
  exact hrank _ s hs rfl fuel (by omega)

end Descent

end Kanagawa.Lib.LocalSearch
