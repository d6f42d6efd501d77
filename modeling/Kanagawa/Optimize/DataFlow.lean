/-
  Kanagawa.Optimize.DataFlow

  What the data-flow passes share: maps of what is known about registers, kept for
  each `Enqueue` that leads to a block, and their intersection.
-/
import Kanagawa.IR.ControlFlow
import Kanagawa.Lib.NatMap
import Kanagawa.Lib.WorkList

namespace Kanagawa.Optimize

open IR Lib

/-- What is known about registers, by index. -/
abbrev RegisterMap (α : Type) := Std.ExtTreeMap Nat α

/-- `PredecessorMap`: the map at each `Enqueue` that leads to a block.  An operation is
    named by its block and its position there; the order of the entries is not read. -/
abbrev PredecessorMap (α : Type) := List ((Nat × Nat) × RegisterMap α)

variable {α : Type}

/-- `predecessorMap[&op] = values`. -/
def setPredecessor (predecessorMap : PredecessorMap α) (op : Nat × Nat)
    (values : RegisterMap α) : PredecessorMap α :=
  predecessorMap.filter (fun q => q.1 ≠ op) ++ [(op, values)]

/-- `predecessorMap.find(&op)`. -/
def findPredecessor (predecessorMap : PredecessorMap α) (op : Nat × Nat) :
    Option (RegisterMap α) :=
  (predecessorMap.find? fun q => q.1 = op).map Prod.snd

/-- Whether all predecessors agree on what a register is. -/
def shouldInsert [DecidableEq α] (predecessorMap : PredecessorMap α) (regIndex : Nat)
    (value : α) : Bool :=
  predecessorMap.all fun q => q.2[regIndex]? == some value

theorem mem_setPredecessor {predecessorMap : PredecessorMap α} {op : Nat × Nat}
    {values : RegisterMap α} {q : (Nat × Nat) × RegisterMap α} :
    q ∈ setPredecessor predecessorMap op values ↔
      (q ∈ predecessorMap ∧ q.1 ≠ op) ∨ q = (op, values) := by
  rw [setPredecessor, List.mem_append, List.mem_filter, List.mem_singleton, decide_eq_true_iff]

theorem mem_of_findPredecessor {predecessorMap : PredecessorMap α} {op : Nat × Nat}
    {values : RegisterMap α} (h : findPredecessor predecessorMap op = some values) :
    (op, values) ∈ predecessorMap := by
  rw [findPredecessor, Option.map_eq_some_iff] at h
  obtain ⟨q, hfind, rfl⟩ := h
  have hq := List.find?_some hfind
  rw [decide_eq_true_iff] at hq
  rw [← hq]
  exact List.mem_of_find?_eq_some hfind

theorem exists_findPredecessor {predecessorMap : PredecessorMap α} {op : Nat × Nat}
    {values : RegisterMap α} (h : (op, values) ∈ predecessorMap) :
    ∃ values', findPredecessor predecessorMap op = some values' := by
  have hsome : (predecessorMap.find? fun q => q.1 = op).isSome := by
    rw [List.find?_isSome]
    exact ⟨_, h, decide_eq_true rfl⟩
  obtain ⟨q, hq⟩ := Option.isSome_iff_exists.mp hsome
  exact ⟨q.2, by rw [findPredecessor, hq, Option.map_some]⟩

/-! ## The inputs of all blocks -/

/-- The inputs of the blocks: each entry belongs to an `Enqueue` that leads there and has a
    property, and those that are done are there. -/
structure Inputs (f : Function) (P : Nat → Nat → Operation → RegisterMap α → Prop)
    (done : Nat → Nat → Prop) (inputValueMap : Nat → PredecessorMap α) : Prop where
  entry : ∀ {c q}, q ∈ inputValueMap c → ∃ op, f.Edge q.1.1 q.1.2 op c ∧ P q.1.1 q.1.2 op q.2
  complete : ∀ {b i op c}, f.Edge b i op c → done b i → ∃ values, ((b, i), values) ∈ inputValueMap c

section

variable {f : Function} {P P' : Nat → Nat → Operation → RegisterMap α → Prop}
  {done done' : Nat → Nat → Prop} {inputValueMap : Nat → PredecessorMap α}

theorem Inputs.mono (h : Inputs f P done inputValueMap)
    (hP : ∀ {b i op values}, P b i op values → P' b i op values) :
    Inputs f P' done inputValueMap := by
  refine ⟨fun hq => ?_, h.complete⟩
  obtain ⟨op, hedge, hp⟩ := h.entry hq
  exact ⟨op, hedge, hP hp⟩

theorem Inputs.weaken (h : Inputs f P done inputValueMap)
    (hdone : ∀ b i, done' b i → done b i) : Inputs f P done' inputValueMap :=
  ⟨h.entry, fun hedge hd => h.complete hedge (hdone _ _ hd)⟩

/-- An `Enqueue` puts values with the property. -/
theorem Inputs.set (h : Inputs f P done inputValueMap) {b i c : Nat} {op : Operation}
    (hedge : f.Edge b i op c) {values : RegisterMap α} (hvalues : P b i op values) :
    Inputs f P (fun b' i' => done b' i' ∨ (b' = b ∧ i' = i))
      (Function.update inputValueMap c (setPredecessor (inputValueMap c) (b, i) values)) := by
  constructor
  · intro c' q hq
    by_cases hc : c' = c
    · subst hc
      rw [Function.update_self] at hq
      rcases mem_setPredecessor.mp hq with ⟨hold, -⟩ | rfl
      · exact h.entry hold
      · exact ⟨op, hedge, hvalues⟩
    · rw [Function.update_of_ne hc] at hq
      exact h.entry hq
  · intro b' i' op' c' hedge' hdone
    by_cases hc : c' = c
    · subst hc
      rw [Function.update_self]
      by_cases hsame : (b', i') = (b, i)
      · rw [hsame]
        exact ⟨values, mem_setPredecessor.mpr (.inr rfl)⟩
      · have hdone' : done b' i' :=
          hdone.resolve_right fun heq => hsame (Prod.ext heq.1 heq.2)
        obtain ⟨values', hmem⟩ := h.complete hedge' hdone'
        exact ⟨values', mem_setPredecessor.mpr (.inl ⟨hmem, hsame⟩)⟩
    · rw [Function.update_of_ne hc]
      refine h.complete hedge' (hdone.resolve_right fun heq => hc ?_)
      -- An operation leads to one block only
      obtain ⟨rfl, rfl⟩ := heq
      have hop := hedge'.position.symm.trans hedge.position
      have hleads := hedge'.leads
      rw [Option.some.inj hop, hedge.leads] at hleads
      exact (Option.some.inj hleads).symm

theorem Inputs.at (h : Inputs f P done inputValueMap) {b i c : Nat} {op : Operation}
    {values : RegisterMap α} (hop : (f.operationsOf b)[i]? = some op)
    (hmem : ((b, i), values) ∈ inputValueMap c) : P b i op values := by
  obtain ⟨op', hedge, hp⟩ := h.entry hmem
  rw [← Option.some.inj (hedge.position.symm.trans hop)]
  exact hp

/-- What all predecessors agree on, each of them has. -/
theorem Inputs.agreed [DecidableEq α] (h : Inputs f P (fun _ _ => True) inputValueMap)
    {c k : Nat} {v : α} (hne : inputValueMap c ≠ [])
    (hagree : shouldInsert (inputValueMap c) k v = true) :
    (∃ b i op, f.Edge b i op c) ∧
      ∀ {b i op}, f.Edge b i op c → ∃ values : RegisterMap α,
        values[k]? = some v ∧ ((b, i), values) ∈ inputValueMap c := by
  rw [shouldInsert, List.all_eq_true] at hagree
  constructor
  · obtain ⟨q, hq⟩ := List.exists_mem_of_ne_nil _ hne
    obtain ⟨op, hedge, -⟩ := h.entry hq
    exact ⟨_, _, op, hedge⟩
  · intro b i op hedge
    obtain ⟨values, hmem⟩ := h.complete hedge trivial
    exact ⟨values, beq_iff_eq.mp (hagree _ hmem), hmem⟩

end

end Kanagawa.Optimize
