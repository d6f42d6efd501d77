/-
  Kanagawa.IR.Quiet

  Operations that leave the world as it is, and what two threads that differ in
  registers nobody reads have in common.

  The steps of a thread take no time here: what happens between them is up to the
  rest of the machine, and is part of the world that a thread finds.
-/
import Kanagawa.IR.ControlFlow

namespace Kanagawa.IR

/-- Values for the destination stay in the thread, or are thrown away. -/
def Target.StaysLocal (table : RegisterTable) : Target → Prop
  | .local _ => True
  | .external r => table.isLocal r = true ∨ (table.desc r).type = .bitBucket
  | .fifo _ => False

/-- A machine in which only the operations that are live by themselves have effects. -/
structure QuietMachine (W : Type) (table : RegisterTable) extends Machine W where
  tick_eq : ∀ world, tick world = world
  exec_quiet : ∀ (info : OpInfo) (values : List Value) (world : W), info.opcode.isLive = false →
    (∀ t ∈ info.targets, t.StaysLocal table) → (exec info values world).2 = world

/-- The destinations of an operation stay in the thread. -/
def Operation.StaysLocal (table : RegisterTable) (op : Operation) : Prop :=
  ∀ dst ∈ op.dst, ∃ r, dst = .register r ∧
    (table.isLocal r = true ∨ (table.desc r).type = .bitBucket)

section

variable {W : Type} {table table' : RegisterTable}

/-- An operation that is not live by itself leaves the world as it is. -/
theorem QuietMachine.world_eq (m : QuietMachine W table) {op : Operation}
    (hlive : op.opcode.isLive = false) (hdst : op.StaysLocal table) (σ : State W) :
    (execOperation m.toMachine table' σ op).world = σ.world := by
  have hstays : ∀ t ∈ (op.info table').targets, t.StaysLocal table := by
    intro t ht
    obtain ⟨dst, hmem, rfl⟩ := List.mem_map.mp ht
    obtain ⟨r, rfl, hr⟩ := hdst dst hmem
    rw [target]
    split
    · trivial
    · exact hr
  rw [execOperation, Machine.run]
  cases (op.info table').pureResult? (evalSources m.toMachine table' σ op) with
  | some result => exact m.tick_eq σ.world
  | none => exact m.exec_quiet _ _ _ hlive hstays

/-- Two states with the same world and the same values of some registers. -/
structure SameOn (registers : Nat → Prop) (σ σ' : State W) : Prop where
  world : σ.world = σ'.world
  locals : ∀ r, registers r → σ.locals r = σ'.locals r

variable {m : Machine W} {registers : Nat → Prop} {σ σ' : State W}

theorem SameOn.evalSources_eq (h : SameOn registers σ σ') {op : Operation}
    (hreads : ∀ r ∈ op.reads, registers r) :
    evalSources m table σ op = evalSources m table σ' op := by
  refine List.map_congr_left fun src hsrc => ?_
  cases src with
  | literal l => rfl
  | stringLiteral s => rfl
  | fifo f => simp only [evalSource, h.world]
  | register r =>
    have hread : r ∈ op.reads := List.mem_filterMap.mpr ⟨_, hsrc, rfl⟩
    simp only [evalSource, h.world, h.locals r (hreads r hread)]

theorem writeDestinations_eq_at {r : Nat} (dsts : List DestinationOperand) :
    ∀ {results : List Nat} {locals locals' : Nat → Nat}, locals r = locals' r →
      writeDestinations table dsts results locals r =
        writeDestinations table dsts results locals' r := by
  induction dsts with
  | nil => exact fun h => h
  | cons dst dsts ih =>
    intro results locals locals' h
    cases dst with
    | fifo f => exact ih h
    | register r' =>
      rw [writeDestinations, writeDestinations]
      refine ih ?_
      split
      · by_cases hr : r = r'
        · subst hr
          rw [Function.update_self, Function.update_self]
        · rw [Function.update_of_ne hr, Function.update_of_ne hr, h]
      · exact h

/-- What an operation does on equal values keeps two states the same. -/
theorem SameOn.exec (h : SameOn registers σ σ') {op op' : Operation}
    (hinfo : op.info table = op'.info table) (hdst : op.dst = op'.dst)
    (hvalues : evalSources m table σ op = evalSources m table σ' op') :
    SameOn registers (execOperation m table σ op) (execOperation m table σ' op') := by
  rw [execOperation, execOperation, hinfo, hvalues, h.world, hdst]
  exact ⟨rfl, fun r hr => writeDestinations_eq_at _ (h.locals r hr)⟩

end

end Kanagawa.IR
