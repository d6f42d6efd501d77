/-
  Kanagawa.Lib.SetEquations

  Least solutions of equations between finite sets, by a work list.

  Node `b` has the equation `s b = F s b`.  The sets start empty and grow; when
  the set of a node changes, the nodes whose equations mention it are processed
  again.
-/
import Kanagawa.Lib.WorkList

namespace Kanagawa.Lib.SetEquations

open WorkList

variable {α ε : Type} [DecidableEq α]

/-- Equations for `n` nodes, and the nodes that each node affects. -/
structure System (n : Nat) (F : (Nat → Finset α) → Nat → Finset α) (affected : Nat → List Nat)
    (init : Nat → Finset α) (elements : Finset α) : Prop where
  monotone : ∀ {s s' : Nat → Finset α} (b : Nat), (∀ a, s a ⊆ s' a) → F s b ⊆ F s' b
  /-- An equation only mentions nodes that affect its own. -/
  depends : ∀ {s : Nat → Finset α} {b c : Nat} (set : Finset α), c < n → b ∉ affected c →
    F (Function.update s c set) b = F s b
  affected_lt : ∀ {b c : Nat}, c < n → b ∈ affected c → b < n
  bounded : ∀ {s : Nat → Finset α} {b : Nat}, b < n → (∀ a < n, s a ⊆ elements) →
    (∀ a, n ≤ a → s a = init a) → F s b ⊆ elements

/-- One round: recompute the set of a node. -/
def step (F : (Nat → Finset α) → Nat → Finset α) (affected : Nat → List Nat)
    (s : Nat → Finset α) (b : Nat) : Except ε ((Nat → Finset α) × List Nat) :=
  if F s b ≠ s b then .ok (Function.update s b (F s b), affected b) else .ok (s, [])

variable {n : Nat} {F : (Nat → Finset α) → Nat → Finset α} {affected : Nat → List Nat}
  {elements : Finset α} {init : Nat → Finset α}

/-- What holds of the sets on the way: they are below their next values, and the elements
    have every property that the equations hand on. -/
structure Rising (n : Nat) (F : (Nat → Finset α) → Nat → Finset α) (elements : Finset α)
    (init : Nat → Finset α) (P : Nat → α → Prop) (s : Nat → Finset α) : Prop where
  rises : ∀ b < n, s b ⊆ F s b
  bounded : ∀ b < n, s b ⊆ elements
  outside : ∀ b, n ≤ b → s b = init b
  property : ∀ b < n, ∀ x ∈ s b, P b x

/-- A property that the equations hand on. -/
def HandedOn (n : Nat) (F : (Nat → Finset α) → Nat → Finset α) (init : Nat → Finset α)
    (P : Nat → α → Prop) : Prop :=
  ∀ s : Nat → Finset α, (∀ b, n ≤ b → s b = init b) → (∀ b < n, ∀ x ∈ s b, P b x) →
    ∀ b < n, ∀ x ∈ F s b, P b x

/-- How far the sets are from all there can be. -/
def missing (n : Nat) (elements : Finset α) (s : Nat → Finset α) : Nat :=
  ∑ b ∈ Finset.range n, (elements.card - (s b).card)

omit [DecidableEq α] in
theorem subset_update {s : Nat → Finset α} {b : Nat} {set : Finset α} (h : s b ⊆ set) (a : Nat) :
    s a ⊆ Function.update s b set a := by
  by_cases ha : a = b
  · subst ha
    rw [Function.update_self]
    exact h
  · rw [Function.update_of_ne ha]

omit [DecidableEq α] in
theorem Rising.update {P : Nat → α → Prop} {s : Nat → Finset α} {b : Nat}
    (hsystem : System n F affected init elements) (hP : HandedOn n F init P)
    (h : Rising n F elements init P s) (hb : b < n) :
    Rising n F elements init P (Function.update s b (F s b)) := by
  have hle := subset_update (h.rises b hb)
  refine ⟨fun a ha => ?_, fun a ha => ?_, fun a ha => ?_, fun a ha => ?_⟩
  · have hgrows := hsystem.monotone a hle
    by_cases hab : a = b
    · subst hab
      rw [Function.update_self]
      exact hgrows
    · rw [Function.update_of_ne hab]
      exact (h.rises a ha).trans hgrows
  · by_cases hab : a = b
    · subst hab
      rw [Function.update_self]
      exact hsystem.bounded ha h.bounded h.outside
    · rw [Function.update_of_ne hab]
      exact h.bounded a ha
  · rw [Function.update_of_ne (by omega)]
    exact h.outside a ha
  · by_cases hab : a = b
    · subst hab
      rw [Function.update_self]
      exact hP s h.outside h.property a ha
    · rw [Function.update_of_ne hab]
      exact h.property a ha

omit [DecidableEq α] in
theorem missing_update_lt {P : Nat → α → Prop} {s : Nat → Finset α} {b : Nat}
    (hsystem : System n F affected init elements) (h : Rising n F elements init P s) (hb : b < n)
    (hne : F s b ≠ s b) :
    missing n elements (Function.update s b (F s b)) < missing n elements s := by
  have hcard : (s b).card < (F s b).card :=
    Finset.card_lt_card ((h.rises b hb).ssubset_of_ne hne.symm)
  have hle : (F s b).card ≤ elements.card :=
    Finset.card_le_card (hsystem.bounded hb h.bounded h.outside)
  refine Finset.sum_lt_sum (fun a _ => ?_) ⟨b, Finset.mem_range.mpr hb, ?_⟩
  · exact Nat.sub_le_sub_left (Finset.card_le_card (subset_update (h.rises b hb) a)) _
  · rw [Function.update_self]
    omega

theorem step_eq_ok {s s' : Nat → Finset α} {b : Nat} {added : List Nat}
    (hstep : (step F affected s b : Except ε _) = .ok (s', added)) :
    (F s b ≠ s b ∧ s' = Function.update s b (F s b) ∧ added = affected b) ∨
      (F s b = s b ∧ s' = s ∧ added = []) := by
  rw [step] at hstep
  split at hstep
  · rename_i hne
    obtain ⟨rfl, rfl⟩ := Prod.ext_iff.mp (Except.ok.inj hstep)
    exact .inl ⟨hne, rfl, rfl⟩
  · rename_i heq
    obtain ⟨rfl, rfl⟩ := Prod.ext_iff.mp (Except.ok.inj hstep)
    exact .inr ⟨not_not.mp heq, rfl, rfl⟩

theorem goodStep {P : Nat → α → Prop} (hsystem : System n F affected init elements)
    (hP : HandedOn n F init P) :
    GoodStep (step F affected : _ → _ → Except ε _) n (Rising n F elements init P)
      (missing n elements) where
  invariant := by
    intro s b s' added hI hb hstep
    rcases step_eq_ok hstep with ⟨-, rfl, -⟩ | ⟨-, rfl, -⟩
    · exact hI.update hsystem hP hb
    · exact hI
  known := by
    intro s b s' added hI hb hstep a ha
    rcases step_eq_ok hstep with ⟨-, -, rfl⟩ | ⟨-, -, rfl⟩
    · exact hsystem.affected_lt hb ha
    · exact nomatch ha
  lowers := by
    intro s b s' added hI hb hstep
    rcases step_eq_ok hstep with ⟨hne, rfl, -⟩ | ⟨-, rfl, rfl⟩
    · exact .inr (missing_update_lt hsystem hI hb hne)
    · exact .inl ⟨rfl, Nat.le_refl _⟩

/-- The equation of a node holds after its round, and stays so until a node that affects it
    changes. -/
theorem settlingStep {P : Nat → α → Prop} (hsystem : System n F affected init elements) :
    SettlingStep (step F affected : _ → _ → Except ε _) n (Rising n F elements init P)
      (fun s b => s b = F s b) where
  node := by
    intro s b s' added _ hb hstep
    rcases step_eq_ok hstep with ⟨-, rfl, rfl⟩ | ⟨heq, rfl, -⟩
    · by_cases hself : b ∈ affected b
      · exact .inr hself
      · refine .inl ?_
        rw [Function.update_self, hsystem.depends _ hb hself]
    · exact .inl heq.symm
  others := by
    intro s b s' added a _ hb hstep hsettled hne
    rcases step_eq_ok hstep with ⟨-, rfl, rfl⟩ | ⟨-, rfl, -⟩
    · by_cases haffected : a ∈ affected b
      · exact .inr haffected
      · refine .inl ?_
        rw [Function.update_of_ne hne, hsystem.depends _ hb haffected]
        exact hsettled
    · exact .inl hsettled

/-- The loop ends in a solution of all equations whose elements have every property that
    the equations hand on. -/
theorem solves (hsystem : System n F affected init elements) (hempty : ∀ b < n, init b = ∅) :
    ∃ bound, ∀ fuel, bound ≤ fuel → ∃ s : Nat → Finset α,
      run (step F affected : _ → _ → Except ε _) fuel (List.range n) init = some (.ok s) ∧
      (∀ b < n, s b = F s b) ∧ (∀ b, n ≤ b → s b = init b) ∧
      ∀ P : Nat → α → Prop, HandedOn n F init P → ∀ b < n, ∀ x ∈ s b, P b x := by
  have hrising : ∀ P, Rising n F elements init P init := fun P =>
    ⟨fun b hb => by rw [hempty b hb]; exact Finset.empty_subset _,
      fun b hb => by rw [hempty b hb]; exact Finset.empty_subset _, fun _ _ => rfl,
      fun b hb x hx => by rw [hempty b hb] at hx; exact absurd hx (Finset.notMem_empty x)⟩
  have hany : HandedOn n F init (fun _ _ => True) := fun _ _ _ _ _ _ _ => trivial
  refine ⟨missing n elements init * (n + 1) + n, fun fuel hfuel => ?_⟩
  have hgood := goodStep (ε := ε) hsystem hany
  obtain ⟨r, hr⟩ := hgood.run_terminates fuel (bounded_range n) (hrising _)
    (by rwa [List.length_range])
  have hok : ∀ {s : Nat → Finset α} {b : Nat}, Rising n F elements init (fun _ _ => True) s →
      b < n → ∃ r, (step F affected s b : Except ε _) = .ok r := by
    intro s b _ _
    rw [step]
    split
    · exact ⟨_, rfl⟩
    · exact ⟨_, rfl⟩
  obtain ⟨s, rfl⟩ := hgood.run_ok hok fuel (bounded_range n) (hrising _) hr
  have hfinal := hgood.run_invariant fuel (bounded_range n) (hrising _) hr
  refine ⟨s, hr, fun b hb => ?_, hfinal.outside, fun P hP => ?_⟩
  · refine hgood.run_settled (settlingStep hsystem) fuel (bounded_range n) (hrising _)
      (fun a => ?_) hr hb
    rw [List.mem_range]
    omega
  · exact ((goodStep hsystem hP).run_invariant fuel (bounded_range n) (hrising P) hr).property

end Kanagawa.Lib.SetEquations
