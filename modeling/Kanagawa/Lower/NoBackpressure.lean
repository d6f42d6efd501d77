/-
  Kanagawa.Lower.NoBackpressure

  Input FIFOs of basic blocks that exert no back-pressure (`InferNoBackpressure`).

  A block that cannot introduce back-pressure, with one input, needs no input FIFO
  when none of the FIFOs whose almost-full signal it checks can exert back-pressure.
  Which FIFOs those are is computed at the start; the pass goes through the blocks
  until no FIFO changes.
-/
import Kanagawa.Arith.Literal
import Kanagawa.Lib.Except
import Kanagawa.Lib.Inference

namespace Kanagawa.Lower.NoBackpressure

open Lib.Except Lib.Inference

/-! ## The program -/

/-- `FifoType`. -/
inductive FifoType where
  | default
  | contextSaverCaller (ordered : Bool)
  | reorderBuffer
  | passthrough
  | passthroughRegistered
  | passthroughUnregistered
  | fixedDelay
  deriving Repr, DecidableEq

/-- `FifoImplementation`: only the default one is told apart. -/
inductive FifoImplementation where
  | default
  | other
  deriving Repr, DecidableEq

/-- The fields of a FIFO that are read. -/
structure FifoDesc where
  type : FifoType
  implementation : FifoImplementation
  depth : Nat
  maxDepth : Nat
  deriving Repr, DecidableEq

structure BasicBlock where
  /-- `_successorFifo` of the `Enqueue` operations, in the order of the stages. -/
  enqueues : List Nat
  /-- The semaphores that its unscheduled operations acquire. -/
  acquiredSemaphores : List Nat
  hasStartCondition : Bool
  inputFifos : List Nat
  /-- `_function->_functionThreadRate`. -/
  functionThreadRate : Nat
  /-- `_function->_maxThreadCountInsideFunction`. -/
  maxThreadCountInsideFunction : Nat
  transitiveBackpressurePredecessor : Option Nat := none
  transitiveBackpressureSucessor : Option Nat := none

/-- A function: its blocks are given by their addresses. -/
structure Function where
  modifiers : Nat
  start : Nat
  basicBlocks : List Nat
  deriving DecidableEq

structure Program where
  fifo : Nat → FifoDesc
  basicBlock : Nat → BasicBlock
  functions : List Function

/-- The blocks in the order of the loops, each with its function. -/
def Program.visits (p : Program) : List (Function × Nat) :=
  p.functions.flatMap fun function => function.basicBlocks.map fun bb => (function, bb)

/-! ## The pass -/

/-- `FifoTypeCanBackpressure`. -/
def fifoTypeCanBackpressure : FifoType → Bool
  | .default | .contextSaverCaller _ | .reorderBuffer | .passthrough => true
  | .passthroughRegistered | .passthroughUnregistered | .fixedDelay => false

/-- `addFifosToResult`, for one `Enqueue`: whether the FIFO is to be checked. -/
def enqueueBackpressures (p : Program) (maxThreadCountInsideFunction successorFifo : Nat) :
    Except Failure Bool := do
  let fifoDesc := p.fifo successorFifo
  if fifoDesc.maxDepth > 0 then assert (fifoDesc.depth ≤ fifoDesc.maxDepth)
  -- FIFO overflow is impossible because the depth = max depth
  if fifoDesc.maxDepth > 0 ∧ fifoDesc.depth = fifoDesc.maxDepth then return false
  match fifoDesc.type with
  | .default | .reorderBuffer | .contextSaverCaller true => return true
  | .contextSaverCaller false => do
      assert (fifoDesc.depth ≥ maxThreadCountInsideFunction)
      return false
  | .passthrough | .passthroughRegistered | .passthroughUnregistered => return false
  | .fixedDelay => .error .assertion

def addFifosToResult (p : Program) (maxThreadCountInsideFunction : Nat) (bb : BasicBlock) :
    Except Failure (List Nat) :=
  bb.enqueues.filterM (enqueueBackpressures p maxThreadCountInsideFunction)

/-- `GetBackpressureFifos`: the FIFOs whose almost-full values a block checks. -/
def getBackpressureFifos (p : Program) (bb : Nat) : Except Failure (List Nat) := do
  let block := p.basicBlock bb
  -- Backpressure should not flow transitively more than once
  assert (block.transitiveBackpressurePredecessor.isNone
    || block.transitiveBackpressureSucessor.isNone)
  let own ← if block.transitiveBackpressurePredecessor.isNone then
      addFifosToResult p block.maxThreadCountInsideFunction block
    else pure []
  match block.transitiveBackpressureSucessor with
  | none => return own
  | some successor => do
      assert ((p.basicBlock successor).transitiveBackpressurePredecessor = some bb)
      let transitive ←
        addFifosToResult p block.maxThreadCountInsideFunction (p.basicBlock successor)
      return own ++ transitive

/-- `ParseTreeFunctionModifierAsync | ParseTreeFunctionModifierNoInline`. -/
def allowedModifiers : Nat := 2 ^ 1 ||| 2 ^ 10

/-- `BasicBlockCanIntroduceBackpressure`. -/
def basicBlockCanIntroduceBackpressure (bb : BasicBlock) : Bool :=
  bb.functionThreadRate != 1 || bb.hasStartCondition || !bb.acquiredSemaphores.isEmpty

/-- The conditions on a block itself: its function's modifiers, when it is the first one, that
    it introduces no back-pressure, and that it has one input. -/
def blockQualifies (p : Program) (function : Function) (bb : Nat) : Bool :=
  !(bb == function.start && Nat.ldiff function.modifiers allowedModifiers != 0) &&
    !basicBlockCanIntroduceBackpressure (p.basicBlock bb) &&
    (p.basicBlock bb).inputFifos.length == 1

/-- A downstream FIFO can exert back-pressure. -/
def exertsBackpressure (fifoDesc : FifoDesc) : Bool :=
  fifoDesc.implementation != .default || fifoTypeCanBackpressure fifoDesc.type

/-- The body of the loops: the FIFOs, and whether one was converted. -/
def inferVisit (p : Program) (state : (Nat → FifoDesc) × Bool)
    (visit : (Function × Nat) × List Nat) : (Nat → FifoDesc) × Bool :=
  if blockQualifies p visit.1.1 visit.1.2 && !visit.2.any fun g => exertsBackpressure (state.1 g) then
    match (p.basicBlock visit.1.2).inputFifos with
    | [inputFifoIndex] =>
        let rd := state.1 inputFifoIndex
        if rd.implementation = .default ∧ rd.type = .default then
          (Function.update state.1 inputFifoIndex { rd with type := .passthroughRegistered }, true)
        else state
    | _ => state
  else state

/-- The outer loop, with a bound on the number of iterations. -/
def inferLoop (p : Program) (visits : List ((Function × Nat) × List Nat)) :
    Nat → (Nat → FifoDesc) → Option (Nat → FifoDesc)
  | 0, _ => none
  | fuel + 1, fifos =>
      let result := visits.foldl (inferVisit p) (fifos, false)
      if result.2 then inferLoop p visits fuel result.1 else some result.1

/-- The blocks with the FIFOs that they check. -/
def blockBackpressureFifos (p : Program) :
    Except Failure (List ((Function × Nat) × List Nat)) :=
  p.visits.mapM fun visit => do return (visit, ← getBackpressureFifos p visit.2)

/-- `InferNoBackpressure`. -/
def inferNoBackpressure (fuel : Nat) (p : Program) : Except Failure (Option (Nat → FifoDesc)) := do
  let visits ← blockBackpressureFifos p
  return inferLoop p visits fuel p.fifo

/-! ## What is converted -/

/-- The input FIFOs that become registered pass-throughs: those of a block that cannot introduce
    back-pressure and of whose checked FIFOs each cannot exert it, or is converted too. -/
inductive Converted (p : Program) : Nat → Prop
  | intro (function : Function) (bb input : Nat) (outputs : List Nat)
      (hvisit : (function, bb) ∈ p.visits) (hqualifies : blockQualifies p function bb = true)
      (hinput : (p.basicBlock bb).inputFifos = [input])
      (himplementation : (p.fifo input).implementation = .default)
      (htype : (p.fifo input).type = .default)
      (hchecked : getBackpressureFifos p bb = .ok outputs)
      (houtputs : ∀ g ∈ outputs, (p.fifo g).implementation = .default)
      (hdownstream : ∀ g ∈ outputs, fifoTypeCanBackpressure (p.fifo g).type = true →
        Converted p g) : Converted p input

/-- The rule that a block stands for, if it can ever apply. -/
def ruleOf (p : Program) (visit : (Function × Nat) × List Nat) : Option (Rule Nat) :=
  match (p.basicBlock visit.1.2).inputFifos with
  | [input] =>
      if blockQualifies p visit.1.1 visit.1.2 && (p.fifo input).implementation == .default &&
          (p.fifo input).type == .default &&
          visit.2.all fun g => (p.fifo g).implementation == .default then
        some ⟨visit.2.filter fun g => fifoTypeCanBackpressure (p.fifo g).type, input⟩
      else none
  | _ => none

section Sound

variable {p : Program}

theorem ruleOf_eq_some {visit : (Function × Nat) × List Nat} {r : Rule Nat} :
    ruleOf p visit = some r ↔ ∃ input, (p.basicBlock visit.1.2).inputFifos = [input] ∧
      blockQualifies p visit.1.1 visit.1.2 = true ∧ (p.fifo input).implementation = .default ∧
      (p.fifo input).type = .default ∧ (∀ g ∈ visit.2, (p.fifo g).implementation = .default) ∧
      r = ⟨visit.2.filter fun g => fifoTypeCanBackpressure (p.fifo g).type, input⟩ := by
  rw [ruleOf]
  constructor
  · intro h
    split at h
    next input hinput =>
      split at h
      next hcond =>
        simp only [Bool.and_eq_true, beq_iff_eq, List.all_eq_true] at hcond
        cases h
        exact ⟨input, hinput, hcond.1.1.1, hcond.1.1.2, hcond.1.2, hcond.2, rfl⟩
      next => cases h
    next => cases h
  · rintro ⟨input, hinput, hqualifies, himplementation, htype, houtputs, rfl⟩
    rw [hinput]
    dsimp only
    rw [if_pos]
    simp only [Bool.and_eq_true, beq_iff_eq, List.all_eq_true]
    exact ⟨⟨⟨hqualifies, himplementation⟩, htype⟩, houtputs⟩

/-- The visits are the blocks with what they check. -/
theorem mem_visits {visits : List ((Function × Nat) × List Nat)}
    (h : blockBackpressureFifos p = .ok visits) {visit : (Function × Nat) × List Nat} :
    visit ∈ visits ↔ visit.1 ∈ p.visits ∧ getBackpressureFifos p visit.1.2 = .ok visit.2 := by
  have hall := mapM_related h
  constructor
  · intro hmem
    obtain ⟨i, hi⟩ := List.getElem?_of_mem hmem
    obtain ⟨hlt, hget⟩ := List.getElem?_eq_some_iff.mp hi
    have hlt' : i < p.visits.length := hall.length_eq ▸ hlt
    have hrel := hall.get hlt' hlt
    simp only [List.get_eq_getElem, hget] at hrel
    obtain ⟨outputs, houtputs, heq⟩ := bind_eq_ok_iff.mp hrel
    cases heq
    exact ⟨List.getElem_mem hlt', houtputs⟩
  · rintro ⟨hmem, houtputs⟩
    obtain ⟨i, hi⟩ := List.getElem?_of_mem hmem
    obtain ⟨hlt, hget⟩ := List.getElem?_eq_some_iff.mp hi
    have hlt' : i < visits.length := hall.length_eq ▸ hlt
    have hrel := hall.get hlt hlt'
    simp only [List.get_eq_getElem, hget] at hrel
    obtain ⟨outputs, houtputs', heq⟩ := bind_eq_ok_iff.mp hrel
    rw [houtputs] at houtputs'
    cases houtputs'
    have hvisit : visits[i] = visit := (Except.ok.inj heq).symm
    exact hvisit ▸ List.getElem_mem hlt'

theorem derivable_iff_converted {visits : List ((Function × Nat) × List Nat)}
    (h : blockBackpressureFifos p = .ok visits) (n : Nat) :
    Derivable (visits.filterMap (ruleOf p)) n ↔ Converted p n := by
  constructor
  · intro hderivable
    induction hderivable with
    | intro r hr _ ih =>
        obtain ⟨visit, hvisit, hrule⟩ := List.mem_filterMap.mp hr
        obtain ⟨input, hinput, hqualifies, himplementation, htype, houtputs, rfl⟩ :=
          ruleOf_eq_some.mp hrule
        obtain ⟨hmem, hchecked⟩ := (mem_visits h).mp hvisit
        exact .intro visit.1.1 visit.1.2 input visit.2 hmem hqualifies hinput himplementation htype
          hchecked houtputs fun g hg hcan => ih g (List.mem_filter.mpr ⟨hg, hcan⟩)
  · intro hconverted
    induction hconverted with
    | intro function bb input outputs hvisit hqualifies hinput himplementation htype hchecked
        houtputs _ ih =>
        have hrule : ruleOf p ((function, bb), outputs) = some
            ⟨outputs.filter fun g => fifoTypeCanBackpressure (p.fifo g).type, input⟩ :=
          ruleOf_eq_some.mpr
            ⟨input, hinput, hqualifies, himplementation, htype, houtputs, rfl⟩
        have hmem : ((function, bb), outputs) ∈ visits :=
          (mem_visits h).mpr ⟨hvisit, hchecked⟩
        refine .intro ⟨_, input⟩ (List.mem_filterMap.mpr ⟨_, hmem, hrule⟩) fun g hg => ?_
        obtain ⟨hg, hcan⟩ := List.mem_filter.mp hg
        exact ih g hg hcan

/-- The FIFOs when those that are known are converted. -/
def convertedFifos (p : Program) (known : Nat → Bool) (n : Nat) : FifoDesc :=
  if known n then { p.fifo n with type := .passthroughRegistered } else p.fifo n

theorem exertsBackpressure_converted (known : Nat → Bool) (g : Nat) :
    exertsBackpressure (convertedFifos p known g) = true ↔
      (p.fifo g).implementation ≠ .default ∨
        (fifoTypeCanBackpressure (p.fifo g).type = true ∧ known g = false) := by
  rw [convertedFifos, exertsBackpressure]
  cases known g with
  | true => simp [fifoTypeCanBackpressure]
  | false => simp

/-- One block on the FIFOs is one rule on what is known. -/
theorem inferVisit_eq (known : Nat → Bool) (grown : Bool)
    (visit : (Function × Nat) × List Nat) :
    inferVisit p (convertedFifos p known, grown) visit =
      match ruleOf p visit with
      | some r => (convertedFifos p (applyRule (known, grown) r).1,
          (applyRule (known, grown) r).2)
      | none => (convertedFifos p known, grown) := by
  have hany : (visit.2.any fun g => exertsBackpressure (convertedFifos p known g)) = true ↔
      ∃ g ∈ visit.2, (p.fifo g).implementation ≠ .default ∨
        (fifoTypeCanBackpressure (p.fifo g).type = true ∧ known g = false) := by
    simp only [List.any_eq_true, exertsBackpressure_converted]
  cases hrule : ruleOf p visit with
  | some r =>
      obtain ⟨input, hinput, hqualifies, himplementation, htype, houtputs, rfl⟩ :=
        ruleOf_eq_some.mp hrule
      dsimp only
      rw [inferVisit, applyRule]
      dsimp only
      rw [hqualifies, Bool.true_and, hinput]
      by_cases hall : ∀ g ∈ visit.2, fifoTypeCanBackpressure (p.fifo g).type = true → known g = true
      · -- Nothing downstream exerts back-pressure.
        have hnot : ¬ (visit.2.any fun g => exertsBackpressure (convertedFifos p known g)) = true := by
          rw [hany]
          rintro ⟨g, hg, hne | ⟨hcan, hunknown⟩⟩
          · exact hne (houtputs g hg)
          · rw [hall g hg hcan] at hunknown
            cases hunknown
        have hpremises : ((visit.2.filter fun g => fifoTypeCanBackpressure (p.fifo g).type).all
            known) = true := by
          rw [List.all_eq_true]
          intro g hg
          obtain ⟨hg, hcan⟩ := List.mem_filter.mp hg
          exact hall g hg hcan
        rw [Bool.eq_false_iff.mpr hnot, hpremises, Bool.not_false, if_pos rfl, Bool.true_and]
        dsimp only
        cases hknown : known input with
        | true =>
            rw [if_neg]
            · rfl
            · simp [convertedFifos, hknown]
        | false =>
            have hsame : convertedFifos p known input = p.fifo input := by
              rw [convertedFifos, hknown]
              rfl
            rw [hsame, if_pos ⟨himplementation, htype⟩]
            show (_, true) = (convertedFifos p (Function.update known input true), true)
            congr 1
            funext n
            by_cases hn : n = input
            · subst hn
              rw [Function.update_self, convertedFifos, Function.update_self]
              rfl
            · rw [Function.update_of_ne hn, convertedFifos, convertedFifos,
                Function.update_of_ne hn]
      · -- Some FIFO downstream exerts it still.
        push Not at hall
        obtain ⟨g, hg, hcan, hunknown⟩ := hall
        have hexerts := hany.mpr ⟨g, hg, .inr ⟨hcan, Bool.eq_false_iff.mpr hunknown⟩⟩
        have hpremises : ¬ (((visit.2.filter fun g => fifoTypeCanBackpressure (p.fifo g).type).all
            known) && !known input) = true := by
          rw [Bool.and_eq_true, List.all_eq_true]
          exact fun h => hunknown (h.1 g (List.mem_filter.mpr ⟨hg, hcan⟩))
        rw [hexerts, if_neg hpremises]
        rfl
  | none =>
      dsimp only
      rw [inferVisit]
      split
      next hcond =>
        rw [Bool.and_eq_true, Bool.not_eq_true', Bool.eq_false_iff, ne_eq, hany] at hcond
        split
        next input hinput =>
          rw [if_neg]
          rintro ⟨himplementation, htype⟩
          -- The input is as it was, so the rule would apply.
          have hunknown : known input = false := by
            by_contra hknown
            rw [Bool.not_eq_false] at hknown
            simp only [convertedFifos, hknown, if_true, reduceCtorEq] at htype
          simp only [convertedFifos, hunknown, Bool.false_eq_true, if_false] at himplementation htype
          have hsome := ruleOf_eq_some.mpr ⟨input, hinput, hcond.1, himplementation, htype,
            fun g hg => by_contra fun hne => hcond.2 ⟨g, hg, .inl hne⟩, rfl⟩
          rw [hrule] at hsome
          cases hsome
        next => rfl
      next => rfl

theorem inferPass_eq (visits : List ((Function × Nat) × List Nat)) :
    ∀ (known : Nat → Bool) (grown : Bool),
      visits.foldl (inferVisit p) (convertedFifos p known, grown) =
        (convertedFifos p ((visits.filterMap (ruleOf p)).foldl applyRule (known, grown)).1,
          ((visits.filterMap (ruleOf p)).foldl applyRule (known, grown)).2) := by
  induction visits with
  | nil => exact fun _ _ => rfl
  | cons visit visits ih =>
      intro known grown
      rw [List.foldl_cons, inferVisit_eq, List.filterMap_cons]
      cases ruleOf p visit with
      | some r => exact ih _ _
      | none => exact ih _ _

/-- The loop on the FIFOs is the saturation of the rules. -/
theorem inferLoop_eq (visits : List ((Function × Nat) × List Nat)) (fuel : Nat) :
    ∀ known : Nat → Bool, inferLoop p visits fuel (convertedFifos p known) =
      (saturate (visits.filterMap (ruleOf p)) fuel known).map (convertedFifos p) := by
  induction fuel with
  | zero => exact fun _ => rfl
  | succ fuel ih =>
      intro known
      rw [inferLoop, saturate, inferPass_eq]
      dsimp only
      split
      next => exact ih _
      next => rfl

/-- The pass ends within a number of iterations, and leaves the FIFOs with the converted ones
    changed and the others as they were. -/
theorem inferNoBackpressure_eq {visits : List ((Function × Nat) × List Nat)}
    (h : blockBackpressureFifos p = .ok visits) {fuel : Nat} (hfuel : p.visits.length < fuel) :
    ∃ known : Nat → Bool, inferNoBackpressure fuel p = .ok (some (convertedFifos p known)) ∧
      ∀ n, known n = true ↔ Converted p n := by
  have hlength : (visits.filterMap (ruleOf p)).length < fuel := by
    have hle := List.length_filterMap_le (ruleOf p) visits
    have hsame := (mapM_related h).length_eq
    omega
  have hopen : (unsettled (visits.filterMap (ruleOf p)) fun _ => false).length < fuel :=
    Nat.lt_of_le_of_lt (List.length_filter_le _ _) hlength
  obtain ⟨known, hknown, hiff⟩ := saturate_spec fuel (fun _ => false)
    (fun _ hf => absurd hf Bool.false_ne_true) hopen
  refine ⟨known, ?_, fun n => (hiff n).trans (derivable_iff_converted h n)⟩
  have hstart : convertedFifos p (fun _ => false) = p.fifo := rfl
  have hloop := inferLoop_eq (p := p) visits fuel fun _ => false
  rw [hstart, hknown] at hloop
  rw [inferNoBackpressure, h, ok_bind, hloop]
  rfl

/-- Two blocks in a row: the second one is converted first, then the first one. -/
def twoBlocks : Program :=
  { fifo := fun _ => ⟨.default, .default, 32, 0⟩
    basicBlock := fun bb => ⟨if bb = 0 then [1] else [], [], false, [bb], 1, 1, none, none⟩
    functions := [⟨0, 0, [0, 1]⟩] }

end Sound

end Kanagawa.Lower.NoBackpressure
