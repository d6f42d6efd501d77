/-
  Kanagawa.Lower.FifoSize

  The depth of a FIFO and the entries it keeps for threads on the way (`lower.cpp`).

  `ComputeFifoSize` gives a FIFO room for the threads that its producer issues
  before it sees `almost_full`, and enough entries below that for full throughput.
  `SizeFifos` calls it for each enqueue operation.  Sizes are `size_t` values.
-/
import Kanagawa.IR.Basic

namespace Kanagawa.Lower

/-! ## ComputeFifoSize -/

/-- The parameters of `ComputeFifoSize`. -/
structure FifoSizeInput where
  configMinDepth : UInt64
  configDualClockMinDepth : UInt64
  configMinimumAlmostFullDepth : UInt64
  configAlmostFullBackwardLatency : UInt64
  minWriteDelay : UInt64
  maxWriteDelay : UInt64
  modifierMinDepth : UInt64
  callRate : UInt64
  readClock : UInt64
  writeClock : UInt64
  stageIndex : UInt64
  addToResultDepth : Bool
  minDepth : UInt64
  maxDepth : UInt64
  syncCallerMaxThreadCount : UInt64
  contextSaverHasTransactionSize : Bool
  transactionSize : UInt64
  deriving Repr, DecidableEq

/-- The results of `ComputeFifoSize`. -/
structure FifoSize where
  resultDepth : UInt64
  resultAlmostFullSlots : UInt64
  resultWriteDelay : UInt64
  resultMinWriteDelay : UInt64
  deriving Repr, DecidableEq

/-- The assertions of `ComputeFifoSize`, in the order in which they are checked. -/
inductive FifoSizeAssertion where
  | writeDelays
  | computedDepth
  | notBothTransactional
  | threadCountKnown
  | almostFullThreshold
  deriving Repr, DecidableEq

/-- `std::numeric_limits<size_t>::max()`. -/
def noThreadBound : UInt64 := 0xFFFFFFFFFFFFFFFF

namespace FifoSizeInput

variable (i : FifoSizeInput)

def minimumDepth : UInt64 :=
  max (if i.readClock = i.writeClock then i.configMinDepth else i.configDualClockMinDepth)
    i.modifierMinDepth

/-- Write delays are for FIFOs with one clock. -/
def hasWriteDelay : Bool := i.readClock = i.writeClock ∧ 1 < i.maxWriteDelay

def resultMinWriteDelay : UInt64 := if i.hasWriteDelay then i.minWriteDelay else 0

def resultWriteDelay : UInt64 := if i.hasWriteDelay then i.maxWriteDelay else 0

def sizeForDualClock : UInt64 := if i.readClock ≠ i.writeClock then 1 else 0

def sizeToAdd : UInt64 :=
  i.configAlmostFullBackwardLatency + i.sizeForDualClock + 2 * i.resultWriteDelay

/-- The call rate reduces the number of threads on the way. -/
def logicalStageIndex : UInt64 := (i.stageIndex + i.callRate - 1) / i.callRate

def computedDepth : UInt64 := i.logicalStageIndex + i.sizeToAdd

def newDepth : UInt64 :=
  if i.addToResultDepth then i.computedDepth else max i.computedDepth i.minDepth

/-- `resultDepth` with the minimum depths of the configuration and of the modifier. -/
def depthForMinimum : UInt64 := max i.newDepth i.minimumDepth

/-- `resultAlmostFullSlots` before the caps. -/
def almostFullSlots : UInt64 := i.logicalStageIndex + i.configAlmostFullBackwardLatency

def minAlmostFullThreshold : UInt64 :=
  i.configAlmostFullBackwardLatency + i.stageIndex + i.configMinimumAlmostFullDepth +
    (if i.addToResultDepth then i.minDepth else 0) + 2 * i.resultWriteDelay

/-- `resultDepth` for full throughput. -/
def depthForThroughput : UInt64 :=
  max i.depthForMinimum (i.minAlmostFullThreshold + i.almostFullSlots)

/-- `resultDepth` before the caps. -/
def depthForTransactions : UInt64 :=
  if 0 < i.transactionSize then
    max i.depthForThroughput (i.minAlmostFullThreshold + i.transactionSize)
  else if i.contextSaverHasTransactionSize then
    max i.depthForThroughput i.syncCallerMaxThreadCount
  else i.depthForThroughput

/-- The specified maximum depth applies. -/
def maxDepthApplies : Bool := i.maxDepth ≠ 0 ∧ i.maxDepth ≤ i.depthForTransactions

/-- `resultDepth` after the first cap. -/
def depthForMaximum : UInt64 :=
  if i.maxDepthApplies then i.maxDepth else i.depthForTransactions

/-- The thread count of the caller applies. -/
def threadCountApplies : Bool :=
  i.syncCallerMaxThreadCount < i.depthForMaximum ∧ i.minimumDepth ≤ i.syncCallerMaxThreadCount

/-- The subtractions that are made on the way. -/
def subtractions : List (UInt64 × UInt64) :=
  [(i.stageIndex + i.callRate, 1), (i.depthForTransactions, i.almostFullSlots)]

end FifoSizeInput

/-- `assert`, at its place. -/
def FifoSizeAssertion.check (assertion : FifoSizeAssertion) (condition : Bool) :
    Except FifoSizeAssertion Unit :=
  if condition then .ok () else .error assertion

/-- `ComputeFifoSize`. -/
def computeFifoSize (i : FifoSizeInput) : Except FifoSizeAssertion FifoSize := do
  FifoSizeAssertion.writeDelays.check (i.resultMinWriteDelay ≤ i.resultWriteDelay)
  FifoSizeAssertion.computedDepth.check (i.logicalStageIndex + i.sizeToAdd ≤ i.depthForMinimum)
  if 0 < i.transactionSize then
    FifoSizeAssertion.notBothTransactional.check (!i.contextSaverHasTransactionSize)
  else if i.contextSaverHasTransactionSize then
    FifoSizeAssertion.threadCountKnown.check (i.syncCallerMaxThreadCount ≠ noThreadBound)
  FifoSizeAssertion.almostFullThreshold.check
    (i.minAlmostFullThreshold ≤ i.depthForTransactions - i.almostFullSlots)
  return {
    resultDepth := if i.threadCountApplies then i.syncCallerMaxThreadCount else i.depthForMaximum
    -- A cap turns `almost_full` off
    resultAlmostFullSlots :=
      if i.maxDepthApplies || i.threadCountApplies then 0 else i.almostFullSlots
    resultWriteDelay := i.resultWriteDelay
    resultMinWriteDelay := i.resultMinWriteDelay }

/-! ## SizeFifos -/

/-- `FifoImplementation`. -/
inductive FifoImplementation where
  | default | twoRegister | internalBuffer | crossRegion
  deriving Repr, DecidableEq

/-- What `SizeFifos` reads of `CodeGenConfig` and `CodeGenDeviceConfig`. -/
structure SizingConfig where
  minFifoDepth : UInt64
  minDualClockFifoDepth : UInt64
  minAlmostFullDepth : UInt64
  additionalLatency : UInt64
  autoPipelineCrossRegion : UInt64
  autoPipelineScale : UInt64
  supportsAutoPipelining : Bool
  minAutoPipelineDepth : UInt64
  useThreadRateInFifoSizing : Bool
  deriving Repr, DecidableEq

/-- What `SizeFifos` reads of a FIFO's register description. -/
structure FifoDescription where
  implementation : FifoImplementation
  /-- The FIFO is one from the caller to a context saver with a transaction size. -/
  contextSaverHasTransactionSize : Bool
  depth : UInt64
  maxDepth : UInt64
  addMinimumDepth : Bool
  readClock : UInt64
  writeClock : UInt64
  transactionSize : UInt64
  deriving Repr, DecidableEq

/-- What `SizeFifos` reads of an enqueue operation, its block and its function. -/
structure EnqueueSite where
  type : IR.EnqueueType
  /-- The successor block is in the same function. -/
  successorInFunction : Bool
  /-- The function of the successor block is asynchronous. -/
  successorIsAsync : Bool
  minFifoDepth : UInt64
  callRate : UInt64
  threadRate : UInt64
  maxThreadCountInsideFunction : UInt64
  stageAdditionalFifoDepth : UInt64
  /-- `_atomicSequence` of the last stage of the transitive backpressure predecessor. -/
  transitivePredecessorStage : Option UInt64
  deriving Repr, DecidableEq

namespace SizingConfig

variable (config : SizingConfig)

/-- `CodeGenConfig::GetMinCrossRegionFifoWriteDelay`. -/
def getMinCrossRegionFifoWriteDelay : UInt64 :=
  if config.supportsAutoPipelining then config.minAutoPipelineDepth
  else config.autoPipelineCrossRegion

/-- The minimum and the maximum write delay of a FIFO that an enqueue operation writes. -/
def writeDelays (implementation : FifoImplementation) : UInt64 × UInt64 :=
  if implementation = .crossRegion ∧ config.autoPipelineCrossRegion ≠ 0 then
    (config.getMinCrossRegionFifoWriteDelay, config.autoPipelineCrossRegion)
  else if 0 < config.autoPipelineScale then
    if config.supportsAutoPipelining ∧ config.minAutoPipelineDepth < config.autoPipelineScale then
      (config.minAutoPipelineDepth, config.autoPipelineScale)
    else (config.autoPipelineScale, config.autoPipelineScale)
  else (0, 0)

end SizingConfig

/-- `callerMaxThreadCount` of `SizeFifos`. -/
def EnqueueSite.callerMaxThreadCount (site : EnqueueSite) : UInt64 :=
  match site.type with
  | .default =>
      if site.successorInFunction then site.maxThreadCountInsideFunction else noThreadBound
  | .functionCall =>
      if site.successorIsAsync then noThreadBound else site.maxThreadCountInsideFunction
  | .contextSaverCaller => site.maxThreadCountInsideFunction
  | .reorderBuffer | .contextSaverCallee => noThreadBound

/-- What `SizeFifos` passes to `ComputeFifoSize` for an enqueue operation. -/
def sizeFifosInput (config : SizingConfig) (fifo : FifoDescription) (site : EnqueueSite) :
    FifoSizeInput where
  configMinDepth := config.minFifoDepth
  configDualClockMinDepth := config.minDualClockFifoDepth
  configMinimumAlmostFullDepth := config.minAlmostFullDepth
  configAlmostFullBackwardLatency := config.additionalLatency
  minWriteDelay := (config.writeDelays fifo.implementation).1
  maxWriteDelay := (config.writeDelays fifo.implementation).2
  modifierMinDepth := site.minFifoDepth
  callRate := site.callRate * (if config.useThreadRateInFifoSizing then site.threadRate else 1)
  readClock := fifo.readClock
  writeClock := fifo.writeClock
  stageIndex := site.stageAdditionalFifoDepth +
    (match site.transitivePredecessorStage with | some stage => stage + 1 | none => 0)
  addToResultDepth := fifo.addMinimumDepth
  minDepth := fifo.depth
  maxDepth := fifo.maxDepth
  syncCallerMaxThreadCount := site.callerMaxThreadCount
  contextSaverHasTransactionSize := fifo.contextSaverHasTransactionSize
  transactionSize := fifo.transactionSize

end Kanagawa.Lower
