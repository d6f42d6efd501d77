/-
  Kanagawa.Lib.WorkList

  Work-list loops: a set of pending nodes, a step that processes one of them and
  names the nodes to process again.

  The pending nodes are kept in increasing order without repetition, and the least
  one is taken first.  The loop may not terminate, so it runs on fuel; the rules
  below give what holds after a run, and an amount of fuel that always suffices
  when every step that adds nodes lowers a measure.
-/
import Mathlib

namespace Kanagawa.Lib.WorkList

variable {S ε : Type}

/-- A node joins the pending ones, unless it is there already. -/
def add (pending : List Nat) (node : Nat) : List Nat :=
  if node ∈ pending then pending else pending.orderedInsert (· ≤ ·) node

/-- The loop, until nothing is pending or the step fails; `none` when fuel runs out. -/
def run (step : S → Nat → Except ε (S × List Nat)) :
    Nat → List Nat → S → Option (Except ε S)
  | _, [], s => some (.ok s)
  | 0, _ :: _, _ => none
  | fuel + 1, node :: pending, s =>
      match step s node with
      | .error e => some (.error e)
      | .ok (s', added) => run step fuel (added.foldl add pending) s'

/-! ## Pending nodes -/

/-- The pending nodes are different and below a bound. -/
structure Bounded (n : Nat) (pending : List Nat) : Prop where
  nodup : pending.Nodup
  lt : ∀ node ∈ pending, node < n

theorem mem_add {pending : List Nat} {node a : Nat} :
    a ∈ add pending node ↔ a = node ∨ a ∈ pending := by
  unfold add
  split
  next h => exact ⟨Or.inr, fun ha => ha.elim (fun heq => heq ▸ h) id⟩
  next => exact List.mem_orderedInsert (· ≤ ·)

theorem Bounded.add {n node : Nat} {pending : List Nat} (h : Bounded n pending)
    (hnode : node < n) : Bounded n (add pending node) := by
  refine ⟨?_, fun a ha => ?_⟩
  · unfold WorkList.add
    split
    next => exact h.nodup
    next hmem =>
      have hperm := List.perm_orderedInsert (· ≤ ·) node pending
      exact hperm.nodup_iff.mpr (List.nodup_cons.mpr ⟨hmem, h.nodup⟩)
  · rcases mem_add.mp ha with rfl | ha
    · exact hnode
    · exact h.lt a ha

theorem Bounded.foldl_add {n : Nat} (added : List Nat) : ∀ {pending : List Nat},
    Bounded n pending → (∀ node ∈ added, node < n) → Bounded n (added.foldl WorkList.add pending) := by
  induction added with
  | nil => exact fun h _ => h
  | cons node added ih =>
      intro pending h hlt
      exact ih (h.add (hlt node List.mem_cons_self))
        fun a ha => hlt a (List.mem_cons_of_mem _ ha)

theorem Bounded.tail {n node : Nat} {pending : List Nat} (h : Bounded n (node :: pending)) :
    Bounded n pending :=
  ⟨(List.nodup_cons.mp h.nodup).2, fun a ha => h.lt a (List.mem_cons_of_mem _ ha)⟩

theorem Bounded.length_le {n : Nat} {pending : List Nat} (h : Bounded n pending) :
    pending.length ≤ n := by
  have hsub : pending ⊆ List.range n := fun a ha => List.mem_range.mpr (h.lt a ha)
  have hle := (List.subperm_of_subset h.nodup hsub).length_le
  rwa [List.length_range] at hle

/-- The loop starts with all nodes. -/
theorem bounded_range (n : Nat) : Bounded n (List.range n) :=
  ⟨List.nodup_range, fun _ h => List.mem_range.mp h⟩

/-! ## The loop rules -/

section

variable {step : S → Nat → Except ε (S × List Nat)} {n : Nat} {I : S → Prop} {μ : S → Nat}

/-- What a step must do: keep the invariant, add only known nodes, and lower the measure
    when it adds any. -/
structure GoodStep (step : S → Nat → Except ε (S × List Nat)) (n : Nat) (I : S → Prop)
    (μ : S → Nat) : Prop where
  invariant : ∀ {s node s' added}, I s → node < n → step s node = .ok (s', added) → I s'
  known : ∀ {s node s' added}, I s → node < n → step s node = .ok (s', added) →
    ∀ a ∈ added, a < n
  lowers : ∀ {s node s' added}, I s → node < n → step s node = .ok (s', added) →
    (added = [] ∧ μ s' ≤ μ s) ∨ μ s' < μ s

/-- The invariant holds when the loop ends, whatever the fuel. -/
theorem GoodStep.run_invariant (h : GoodStep step n I μ) (fuel : Nat) :
    ∀ {pending : List Nat} {s s' : S}, Bounded n pending → I s →
      run step fuel pending s = some (.ok s') → I s' := by
  induction fuel with
  | zero =>
      intro pending s s' _ hI hrun
      cases pending with
      | nil =>
          simp only [run, Option.some.injEq, Except.ok.injEq] at hrun
          exact hrun ▸ hI
      | cons => exact nomatch hrun
  | succ fuel ih =>
      intro pending s s' hbounded hI hrun
      cases pending with
      | nil =>
          simp only [run, Option.some.injEq, Except.ok.injEq] at hrun
          exact hrun ▸ hI
      | cons node pending =>
          have hnode := hbounded.lt node List.mem_cons_self
          cases hstep : step s node with
          | error e => simp [run, hstep] at hrun
          | ok r =>
              simp only [run, hstep] at hrun
              exact ih (hbounded.tail.foldl_add r.2 (h.known hI hnode hstep))
                (h.invariant hI hnode hstep) hrun

/-- Enough fuel: as many rounds as nodes for every unit of the measure. -/
theorem GoodStep.run_terminates (h : GoodStep step n I μ) (fuel : Nat) :
    ∀ {pending : List Nat} {s : S}, Bounded n pending → I s →
      μ s * (n + 1) + pending.length ≤ fuel → ∃ r, run step fuel pending s = some r := by
  induction fuel with
  | zero =>
      intro pending s _ _ hfuel
      have hnil : pending = [] := List.length_eq_zero_iff.mp (by omega)
      exact ⟨.ok s, by rw [hnil, run]⟩
  | succ fuel ih =>
      intro pending s hbounded hI hfuel
      cases pending with
      | nil => exact ⟨.ok s, by rw [run]⟩
      | cons node pending =>
          have hnode := hbounded.lt node List.mem_cons_self
          cases hstep : step s node with
          | error e => exact ⟨.error e, by simp only [run, hstep]⟩
          | ok r =>
              have hbounded' := hbounded.tail.foldl_add r.2 (h.known hI hnode hstep)
              simp only [run, hstep]
              refine ih hbounded' (h.invariant hI hnode hstep) ?_
              have hlength := hbounded'.length_le
              rw [List.length_cons] at hfuel
              rcases h.lowers hI hnode hstep with ⟨hnone, hle⟩ | hlt
              · -- Nothing was added: the list is one shorter
                rw [hnone, List.foldl_nil]
                have := Nat.mul_le_mul_right (n + 1) hle
                omega
              · -- A unit of the measure pays for the longest list there can be
                have := Nat.mul_le_mul_right (n + 1) hlt
                rw [Nat.succ_mul] at this
                omega

/-- A loop whose steps never fail does not fail. -/
theorem GoodStep.run_ok (h : GoodStep step n I μ)
    (hok : ∀ {s node}, I s → node < n → ∃ r, step s node = .ok r) (fuel : Nat) :
    ∀ {pending : List Nat} {s : S} {r : Except ε S}, Bounded n pending → I s →
      run step fuel pending s = some r → ∃ s', r = .ok s' := by
  induction fuel with
  | zero =>
      intro pending s r _ _ hrun
      cases pending with
      | nil => exact ⟨s, (Option.some.inj hrun).symm⟩
      | cons => exact nomatch hrun
  | succ fuel ih =>
      intro pending s r hbounded hI hrun
      cases pending with
      | nil => exact ⟨s, (Option.some.inj hrun).symm⟩
      | cons node pending =>
          have hnode := hbounded.lt node List.mem_cons_self
          obtain ⟨⟨s', added⟩, hstep⟩ := hok hI hnode
          simp only [run, hstep] at hrun
          exact ih (hbounded.tail.foldl_add added (h.known hI hnode hstep))
            (h.invariant hI hnode hstep) hrun

end

/-! ## Rules about the state and the pending nodes together -/

section

variable {step : S → Nat → Except ε (S × List Nat)} {J : S → List Nat → Prop}

/-- What holds of the state and the pending nodes at the start of every round. -/
def IsInvariant (step : S → Nat → Except ε (S × List Nat)) (J : S → List Nat → Prop) : Prop :=
  ∀ {s node pending s' added}, J s (node :: pending) → step s node = .ok (s', added) →
    J s' (added.foldl add pending)

/-- The invariant holds when the loop ends, and nothing is pending then. -/
theorem IsInvariant.run (h : IsInvariant step J) (fuel : Nat) :
    ∀ {pending : List Nat} {s s' : S}, J s pending →
      WorkList.run step fuel pending s = some (.ok s') → J s' [] := by
  induction fuel with
  | zero =>
      intro pending s s' hJ hrun
      cases pending with
      | nil =>
          simp only [WorkList.run, Option.some.injEq, Except.ok.injEq] at hrun
          exact hrun ▸ hJ
      | cons => exact nomatch hrun
  | succ fuel ih =>
      intro pending s s' hJ hrun
      cases pending with
      | nil =>
          simp only [WorkList.run, Option.some.injEq, Except.ok.injEq] at hrun
          exact hrun ▸ hJ
      | cons node pending =>
          cases hstep : step s node with
          | error e => simp [WorkList.run, hstep] at hrun
          | ok r =>
              simp only [WorkList.run, hstep] at hrun
              exact ih (h hJ hstep) hrun

/-- The loop ends if every round that adds nodes lowers a measure in a well-founded
    order. -/
theorem IsInvariant.run_ends {M : Type} [LinearOrder M] [WellFoundedLT M] {μ : S → M}
    (h : IsInvariant step J)
    (hlowers : ∀ {s node pending s' added}, J s (node :: pending) →
      step s node = .ok (s', added) → (added = [] ∧ μ s' ≤ μ s) ∨ μ s' < μ s) :
    ∀ {pending : List Nat} {s : S}, J s pending →
      ∃ fuel r, WorkList.run step fuel pending s = some r := by
  intro pending s
  -- Each round lowers the measure, or leaves it and the list gets shorter
  induction hm : toLex (μ s, pending.length) using WellFoundedLT.induction generalizing pending s with
  | ind m ih =>
  intro hJ
  cases pending with
  | nil => exact ⟨0, .ok s, by rw [WorkList.run]⟩
  | cons node pending =>
      cases hstep : step s node with
      | error e => exact ⟨1, .error e, by simp only [WorkList.run, hstep]⟩
      | ok r =>
          have hlt : toLex (μ r.1, (r.2.foldl add pending).length) < m := by
            rw [← hm, Prod.Lex.toLex_lt_toLex]
            rcases hlowers hJ hstep with ⟨hnone, hle⟩ | hlt
            · rcases hle.lt_or_eq with hlt | heq
              · exact .inl hlt
              · refine .inr ⟨heq, ?_⟩
                rw [hnone]
                exact Nat.lt_succ_self _
            · exact .inl hlt
          obtain ⟨fuel, r', hr'⟩ := ih _ hlt rfl (h hJ hstep)
          exact ⟨fuel + 1, r', by simp only [WorkList.run, hstep, hr']⟩

end

/-! ## Settled nodes -/

/-- What a step settles: its node, unless it names it to be processed again, and every
    node that was settled, with the same exception. -/
structure SettlingStep (step : S → Nat → Except ε (S × List Nat)) (n : Nat) (I : S → Prop)
    (settled : S → Nat → Prop) : Prop where
  node : ∀ {s node s' added}, I s → node < n → step s node = .ok (s', added) →
    settled s' node ∨ node ∈ added
  others : ∀ {s node s' added a}, I s → node < n → step s node = .ok (s', added) →
    settled s a → a ≠ node → settled s' a ∨ a ∈ added

theorem mem_foldl_add {a : Nat} (added : List Nat) : ∀ {pending : List Nat},
    a ∈ added.foldl add pending ↔ a ∈ added ∨ a ∈ pending := by
  induction added with
  | nil => exact fun {pending} => ⟨Or.inr, fun h => h.resolve_left List.not_mem_nil⟩
  | cons node added ih =>
      intro pending
      rw [List.foldl_cons, ih, mem_add, List.mem_cons]
      tauto

/-- When the loop ends, every node is settled that is pending at the start or settled
    already. -/
theorem GoodStep.run_settled {step : S → Nat → Except ε (S × List Nat)} {n : Nat} {I : S → Prop}
    {μ : S → Nat} {settled : S → Nat → Prop} (h : GoodStep step n I μ)
    (hsettling : SettlingStep step n I settled) (fuel : Nat) {pending : List Nat} {s s' : S}
    {a : Nat} (hbounded : Bounded n pending) (hI : I s)
    (hall : ∀ b, settled s b ∨ b ∈ pending ∨ n ≤ b)
    (hrun : run step fuel pending s = some (.ok s')) (ha : a < n) : settled s' a := by
  have hinvariant : IsInvariant step fun s pending =>
      Bounded n pending ∧ I s ∧ ∀ b, settled s b ∨ b ∈ pending ∨ n ≤ b := by
    rintro s node pending s' added ⟨hbounded, hI, hall⟩ hstep
    have hnode := hbounded.lt node List.mem_cons_self
    refine ⟨hbounded.tail.foldl_add added (h.known hI hnode hstep), h.invariant hI hnode hstep,
      fun b => ?_⟩
    rw [mem_foldl_add]
    by_cases hb : b = node
    · subst hb
      rcases hsettling.node hI hnode hstep with hset | hmem
      · exact .inl hset
      · exact .inr (.inl (.inl hmem))
    · rcases hall b with hset | hmem | hge
      · rcases hsettling.others hI hnode hstep hset hb with hset | hmem
        · exact .inl hset
        · exact .inr (.inl (.inl hmem))
      · exact .inr (.inl (.inr ((List.mem_cons.mp hmem).resolve_left hb)))
      · exact .inr (.inr hge)
  obtain ⟨-, -, hfinal⟩ := hinvariant.run fuel ⟨hbounded, hI, hall⟩ hrun
  rcases hfinal a with hset | hmem | hge
  · exact hset
  · exact nomatch hmem
  · exact absurd ha (Nat.not_lt.mpr hge)

end Kanagawa.Lib.WorkList
