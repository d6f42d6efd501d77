/-
  Kanagawa.Search.BranchAndBound

  The integer minimizer (`branch_and_bound.cpp`).

  A parameter vector assigns values to some parameters; the compressed storage
  behind it is "logically a vector of size_t" and is modelled as such, with the
  code book reduced to the range of each parameter.  The callback is a function
  of the vector and of `isOptimalPoint`, and every call made is recorded, in the
  order in which a single worker would make them: the worker threads' results are
  concatenated by element index, so the work list does not depend on the schedule.
-/
import Kanagawa.Arith.Literal
import Kanagawa.Lib.BranchAndBound
import Std.Data.ExtTreeMap.Lemmas
import Std.Data.ExtTreeSet.Lemmas

namespace Kanagawa.Search

/-! ## Parameter vectors -/

/-- `IntegerParameterVector`: `none` where `_valid` is false. -/
abbrev IntegerParameterVector := List (Option Nat)

/-- `ObjectiveFunctionBounds`. -/
structure ObjectiveFunctionBounds where
  lowerBound : Nat
  upperBound : Nat
  deriving Repr, DecidableEq

/-- `BoundObjectiveFunction`: the second argument is `isOptimalPoint`. -/
abbrev BoundObjectiveFunction := IntegerParameterVector → Bool → ObjectiveFunctionBounds

/-- A call of the callback: the vector and `isOptimalPoint`. -/
abbrev Call := IntegerParameterVector × Bool

/-- `IsParameterDefined`. -/
def isParameterDefined (params : IntegerParameterVector) (paramIndex : Nat) :
    Except Failure Bool := do
  assert (paramIndex < params.length)
  return (params.getD paramIndex none).isSome

/-- `GetParameter`. -/
def getParameter (params : IntegerParameterVector) (paramIndex : Nat) : Except Failure Nat :=
  match params.getD paramIndex none with
  | some value => .ok value
  | none => .error .assertion

/-- `SetParameter`: the code book asserts that the value is in the parameter's range. -/
def setParameter (parameterRanges : List Nat) (params : IntegerParameterVector)
    (paramIndex value : Nat) : Except Failure IntegerParameterVector := do
  assert (paramIndex < params.length)
  assert (value < parameterRanges.getD paramIndex 0)
  return params.set paramIndex (some value)

/-! ## The search -/

/-- `WorkListEntry`. -/
structure WorkListEntry where
  parameters : IntegerParameterVector
  bounds : ObjectiveFunctionBounds
  deriving Repr, DecidableEq

/-- The variables of the loop of `IntegerBranchAndBoundImpl`, with the calls made so far. -/
structure SearchState where
  workList : List WorkListEntry
  bestObjectiveFunctionValue : Nat
  bestParameters : IntegerParameterVector
  calls : List Call
  deriving Repr, DecidableEq

/-- The body of the loop of `selectParameterToDefine`: keeps the undefined parameter of
    smallest range seen so far, the first one among equals. -/
def selectBetter (parameterRanges : List Nat) (parametersToOptimize : Std.ExtTreeSet Nat)
    (ipv : IntegerParameterVector) (selected : Option Nat) (i : Nat) :
    Except Failure (Option Nat) := do
  if !(← isParameterDefined ipv i) && parametersToOptimize.contains i then
    match selected with
    | some j =>
        if parameterRanges.getD i 0 < parameterRanges.getD j 0 then return some i
        else return some j
    | none => return some i
  else
    return selected

/-- `selectParameterToDefine`. -/
def selectParameterToDefine (parameterRanges : List Nat)
    (parametersToOptimize : Std.ExtTreeSet Nat) (ipv : IntegerParameterVector) :
    Except Failure Nat := do
  match ← (List.range ipv.length).foldlM
      (selectBetter parameterRanges parametersToOptimize ipv) none with
  | some i => return i
  | none => throw .assertion

/-- `allDefined`. -/
def allDefined (parametersToOptimize : Std.ExtTreeSet Nat) (params : IntegerParameterVector) :
    Except Failure Bool :=
  parametersToOptimize.toList.allM (isParameterDefined params)

/-- The work list entry of `refineCallback` for one value of the new parameter. -/
def refineValue (parameterRanges : List Nat) (boundCallback : BoundObjectiveFunction)
    (baseWle : WorkListEntry) (newParameterIndex : Nat)
    (result : List WorkListEntry × List Call) (newParameterValue : Nat) :
    Except Failure (List WorkListEntry × List Call) := do
  assert (!(← isParameterDefined baseWle.parameters newParameterIndex))
  let newParams ← setParameter parameterRanges baseWle.parameters newParameterIndex
    newParameterValue
  let bounds := boundCallback newParams false
  assert (bounds.lowerBound ≤ bounds.upperBound)
  assert (bounds.lowerBound ≥ baseWle.bounds.lowerBound)
  assert (bounds.upperBound ≥ baseWle.bounds.lowerBound)
  return (result.1 ++ [⟨newParams, bounds⟩], result.2 ++ [(newParams, false)])

/-- `refineCallback`: defines all possible values of one additional parameter. -/
def refineCallback (parameterRanges : List Nat) (boundCallback : BoundObjectiveFunction)
    (parametersToOptimize : Std.ExtTreeSet Nat) (result : List WorkListEntry × List Call)
    (baseWle : WorkListEntry) : Except Failure (List WorkListEntry × List Call) := do
  let newParameterIndex ←
    selectParameterToDefine parameterRanges parametersToOptimize baseWle.parameters
  assert (newParameterIndex < parameterRanges.length)
  (List.range (parameterRanges.getD newParameterIndex 0)).foldlM
    (refineValue parameterRanges boundCallback baseWle newParameterIndex) result

/-- `shouldFilter`, with the two values it captures when an iteration starts. -/
def shouldFilter (lowestUpperBound bestObjectiveFunctionValue : Nat)
    (bounds : ObjectiveFunctionBounds) : Bool :=
  bounds.lowerBound > lowestUpperBound || bounds.lowerBound ≥ bestObjectiveFunctionValue

/-- The loop variables while an iteration goes through the work list. -/
structure Partition where
  bestObjectiveFunctionValue : Nat
  bestParameters : IntegerParameterVector
  elementsToRefine : List WorkListEntry
  newWorkList : List WorkListEntry

/-- What an iteration does with one work list entry. -/
def partitionEntry (parametersToOptimize : Std.ExtTreeSet Nat)
    (lowestLowerBound lowestUpperBound staleBest : Nat) (p : Partition) (wle : WorkListEntry) :
    Except Failure Partition := do
  if shouldFilter lowestUpperBound staleBest wle.bounds then
    return p
  else if ← allDefined parametersToOptimize wle.parameters then
    if wle.bounds.lowerBound < p.bestObjectiveFunctionValue then
      return { p with
        bestObjectiveFunctionValue := wle.bounds.lowerBound
        bestParameters := wle.parameters }
    else
      return p
  else if wle.bounds.lowerBound = lowestLowerBound || wle.bounds.upperBound = lowestUpperBound then
    return { p with elementsToRefine := p.elementsToRefine ++ [wle] }
  else
    return { p with newWorkList := p.newWorkList ++ [wle] }

/-- The lowest value of a bound over the work list. -/
def lowestBound (bound : ObjectiveFunctionBounds → Nat) (workList : List WorkListEntry) : Nat :=
  workList.foldl (fun lowest wle => min lowest (bound wle.bounds)) sizeMax

/-- One iteration of the loop of `IntegerBranchAndBoundImpl`. -/
def iteration (parameterRanges : List Nat) (boundCallback : BoundObjectiveFunction)
    (parametersToOptimize : Std.ExtTreeSet Nat) (s : SearchState) :
    Except Failure SearchState := do
  let lowestLowerBound := lowestBound (·.lowerBound) s.workList
  let lowestUpperBound := lowestBound (·.upperBound) s.workList
  let p ← s.workList.foldlM
    (partitionEntry parametersToOptimize lowestLowerBound lowestUpperBound
      s.bestObjectiveFunctionValue)
    ⟨s.bestObjectiveFunctionValue, s.bestParameters, [], []⟩
  let (workList, calls) ← p.elementsToRefine.foldlM
    (refineCallback parameterRanges boundCallback parametersToOptimize) (p.newWorkList, s.calls)
  return ⟨workList, p.bestObjectiveFunctionValue, p.bestParameters, calls⟩

/-- How the loop of `IntegerBranchAndBoundImpl` is left. -/
inductive LoopExit where
  | outOfFuel
  | workListTooLarge (s : SearchState)
  | workListEmpty (s : SearchState)

/-- The loop of `IntegerBranchAndBoundImpl`. -/
def searchLoop (parameterRanges : List Nat) (boundCallback : BoundObjectiveFunction)
    (parametersToOptimize : Std.ExtTreeSet Nat) (maxWorkListSize : Option Nat) :
    Nat → SearchState → Except Failure LoopExit
  | fuel, s =>
    if s.workList.isEmpty then
      return .workListEmpty s
    -- The limit is ignored for one parameter, as removing vertices would not help
    else if (maxWorkListSize.any fun size => s.workList.length > size) &&
        parametersToOptimize.size > 1 then
      return .workListTooLarge s
    else
      match fuel with
      | 0 => return .outOfFuel
      | fuel + 1 => do
        let s' ← iteration parameterRanges boundCallback parametersToOptimize s
        searchLoop parameterRanges boundCallback parametersToOptimize maxWorkListSize fuel s'

/-- The seed of the work list: a vector with the fixed parameter values. -/
def seedParameters (parameterRanges : List Nat) (fixedParameterValues : Std.ExtTreeMap Nat Nat) :
    Except Failure IntegerParameterVector :=
  fixedParameterValues.toList.foldlM
    (fun params p => do
      assert (!(← isParameterDefined params p.1))
      setParameter parameterRanges params p.1 p.2)
    (List.replicate parameterRanges.length none)

/-- `IntegerBranchAndBoundImpl`: the value returned and the calls made, or nothing when
    the fuel runs out. -/
def integerBranchAndBoundImpl (fuel : Nat) (parameterRanges : List Nat)
    (boundCallback : BoundObjectiveFunction) (parametersToOptimize : Std.ExtTreeSet Nat)
    (maxWorkListSize : Option Nat) (fixedParameterValues : Std.ExtTreeMap Nat Nat) :
    Except Failure (Option (Bool × List Call)) := do
  assert (parameterRanges.length ≠ 0)
  assert (!parametersToOptimize.isEmpty)
  parameterRanges.forM fun range => assert (0 < range)
  let seed ← seedParameters parameterRanges fixedParameterValues
  match ← searchLoop parameterRanges boundCallback parametersToOptimize maxWorkListSize fuel
      ⟨[⟨seed, boundCallback seed false⟩], sizeMax, [], [(seed, false)]⟩ with
  | .outOfFuel => return none
  | .workListTooLarge s => return some (false, s.calls)
  | .workListEmpty s => do
    assert (s.bestObjectiveFunctionValue ≠ sizeMax)
    parametersToOptimize.toList.forM fun paramIndex => do
      assert (← isParameterDefined s.bestParameters paramIndex)
    fixedParameterValues.toList.forM fun p => do
      assert ((← getParameter s.bestParameters p.1) = p.2)
    return some (true, s.calls ++ [(s.bestParameters, true)])

/-- `IntegerBranchAndBound`: the calls made, or nothing when the fuel runs out. -/
def integerBranchAndBound (fuel : Nat) (parameterRanges : List Nat)
    (boundCallback : BoundObjectiveFunction) : Except Failure (Option (List Call)) := do
  if parameterRanges.length = 0 then
    return some [([], true)]
  else
    let parametersToOptimize := Std.ExtTreeSet.ofList (List.range parameterRanges.length)
    match ← integerBranchAndBoundImpl fuel parameterRanges boundCallback parametersToOptimize
        none ∅ with
    | none => return none
    | some (searchResult, calls) => do
      assert searchResult
      return some calls

end Kanagawa.Search
