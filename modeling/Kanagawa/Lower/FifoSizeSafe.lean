/-
  Kanagawa.Lower.FifoSizeSafe

  FIFOs of the computed size do not overflow.

  A producer that sees `almost_full` late issues some more threads, and those on
  their way through its stages write in any case.  The entries above the
  threshold are enough for both.
-/
import Kanagawa.Lib.Backpressure
import Kanagawa.Lib.Except
import Kanagawa.Lower.FifoSize

namespace Kanagawa.Lower

open Kanagawa.Backpressure Kanagawa.Lib.Except

/-! ## Runs -/

/-- A run of a FIFO with one clock and no write delay, cycle by cycle: which cycles issue a
    thread, which dequeue an entry, the `almost_full` signal, and the entries in use. -/
structure FifoRun (depth almostFullSlots latency stageIndex callRate : Nat) where
  issue : Nat → Bool
  dequeue : Nat → Bool
  almostFull : Nat → Bool
  used : Nat → Nat
  used_zero : used 0 = 0
  /-- A thread writes `stageIndex` cycles after it is issued. -/
  used_succ : ∀ t, used (t + 1) + (dequeue t).toNat =
    used t + (decide (stageIndex ≤ t) && issue (t - stageIndex)).toNat
  /-- `almost_full` is asserted whenever the entries in use reach the threshold. -/
  almostFull_of_le : ∀ t, depth - almostFullSlots ≤ used t → almostFull t = true
  /-- The producer sees `almost_full` late. -/
  not_almostFull : ∀ t, issue (t + latency) = true → almostFull t = false
  spaced : Spaced callRate issue

/-- The entries above the threshold are enough for the threads on the way. -/
theorem FifoRun.used_le {depth almostFullSlots latency stageIndex callRate : Nat}
    (run : FifoRun depth almostFullSlots latency stageIndex callRate) (hrate : 0 < callRate)
    (hslots : almostFullSlots = (stageIndex + callRate - 1) / callRate + latency)
    (hle : almostFullSlots ≤ depth) (t : Nat) : run.used t ≤ depth := by
  refine @level_le callRate run.used
    (fun t => decide (stageIndex ≤ t) && run.issue (t - stageIndex)) stageIndex latency
    (depth - almostFullSlots) depth hrate run.used_zero (fun t => ?_) ?_ ?_ ?_ ?_ t
  · have hsucc := run.used_succ t
    omega
  · intro t t' ht ht' hlt
    simp only [Bool.and_eq_true, decide_eq_true_eq] at ht ht'
    have hle := run.spaced _ _ ht.2 ht'.2 (by omega)
    omega
  · intro t ht
    rw [decide_eq_false (Nat.not_le.mpr ht), Bool.false_and]
  · intro t hwrite
    rw [Bool.and_eq_true, show t + (stageIndex + latency) - stageIndex = t + latency by omega]
      at hwrite
    by_contra hfull
    have hasserted := run.almostFull_of_le t (Nat.not_lt.mp hfull)
    rw [run.not_almostFull t hwrite.2] at hasserted
    cases hasserted
  · omega

/-! ## Sizes that fit -/

namespace FifoSizeInput

variable (i : FifoSizeInput)

/-- The logical stage index, as a number. -/
def stages : Nat := (i.stageIndex.toNat + i.callRate.toNat - 1) / i.callRate.toNat

/-- The minimum threshold, as a number. -/
def threshold : Nat :=
  i.configAlmostFullBackwardLatency.toNat + i.stageIndex.toNat +
    i.configMinimumAlmostFullDepth.toNat + (if i.addToResultDepth then i.minDepth.toNat else 0) +
    2 * i.resultWriteDelay.toNat

/-- No sum on the way is larger than a `size_t`. -/
structure SizesFit : Prop where
  stages_lt : i.stageIndex.toNat + i.callRate.toNat < 2 ^ 64
  depth_lt : i.stages + (i.configAlmostFullBackwardLatency.toNat + i.sizeForDualClock.toNat +
    2 * i.resultWriteDelay.toNat) < 2 ^ 64
  threshold_lt : i.threshold + (i.stages + i.configAlmostFullBackwardLatency.toNat) < 2 ^ 64
  transaction_lt : i.threshold + i.transactionSize.toNat < 2 ^ 64

variable {i}

theorem toNat_stages (h : i.SizesFit) (hrate : 0 < i.callRate) :
    i.logicalStageIndex.toNat = i.stages := by
  have hpos : 0 < i.callRate.toNat := UInt64.lt_iff_toNat_lt.mp hrate
  have hsum : (i.stageIndex + i.callRate).toNat = i.stageIndex.toNat + i.callRate.toNat := by
    rw [UInt64.toNat_add, Nat.mod_eq_of_lt h.stages_lt]
  have hle : (1 : UInt64) ≤ i.stageIndex + i.callRate := by
    rw [UInt64.le_iff_toNat_le, hsum]
    exact Nat.le_add_left_of_le hpos
  rw [logicalStageIndex, UInt64.toNat_div, UInt64.toNat_sub_of_le _ _ hle, hsum]
  rfl

theorem toNat_almostFullSlots (h : i.SizesFit) (hrate : 0 < i.callRate) :
    i.almostFullSlots.toNat = i.stages + i.configAlmostFullBackwardLatency.toNat := by
  have hlt := h.threshold_lt
  rw [almostFullSlots, UInt64.toNat_add, toNat_stages h hrate, Nat.mod_eq_of_lt (by omega)]

theorem toNat_threshold (h : i.SizesFit) : i.minAlmostFullThreshold.toNat = i.threshold := by
  have hlt : i.threshold < 2 ^ 64 := by
    have := h.threshold_lt
    omega
  simp only [threshold] at hlt ⊢
  have hdelay : (2 * i.resultWriteDelay).toNat = 2 * i.resultWriteDelay.toNat := by
    rw [UInt64.toNat_mul, show UInt64.toNat 2 = 2 from rfl, Nat.mod_eq_of_lt (by omega)]
  have hdepth : (if i.addToResultDepth then i.minDepth else 0).toNat =
      if i.addToResultDepth then i.minDepth.toNat else 0 := by
    split <;> rfl
  simp only [minAlmostFullThreshold, UInt64.toNat_add, hdelay, hdepth]
  omega

theorem toNat_max (a b : UInt64) : (max a b).toNat = max a.toNat b.toNat := by
  change (if a ≤ b then b else a).toNat = _
  split
  · rename_i h
    exact (Nat.max_eq_right (UInt64.le_iff_toNat_le.mp h)).symm
  · rename_i h
    rw [UInt64.le_iff_toNat_le] at h
    exact (Nat.max_eq_left (Nat.le_of_not_le h)).symm

/-- The depth before the caps has room for the threads on the way above the threshold. -/
theorem threshold_le_depth (h : i.SizesFit) (hrate : 0 < i.callRate) :
    i.threshold + i.almostFullSlots.toNat ≤ i.depthForTransactions.toNat := by
  have hsum : (i.minAlmostFullThreshold + i.almostFullSlots).toNat =
      i.threshold + i.almostFullSlots.toNat := by
    have hlt := h.threshold_lt
    rw [← toNat_almostFullSlots h hrate] at hlt
    rw [UInt64.toNat_add, toNat_threshold h, Nat.mod_eq_of_lt hlt]
  have hthroughput : i.threshold + i.almostFullSlots.toNat ≤ i.depthForThroughput.toNat := by
    rw [depthForThroughput, toNat_max, hsum]
    exact Nat.le_max_right _ _
  refine hthroughput.trans ?_
  rw [depthForTransactions]
  split
  · rw [toNat_max]
    exact Nat.le_max_left _ _
  · split
    · rw [toNat_max]
      exact Nat.le_max_left _ _
    · exact Nat.le_refl _

/-! ## Assertions -/

/-- What the assertions say about the parameters: the write delays in use are ordered, a
    FIFO is not both the transactional one and that of a context saver, and the FIFO of a
    context saver has a bound on its threads. -/
structure Consistent (i : FifoSizeInput) : Prop where
  writeDelays : i.readClock = i.writeClock → 1 < i.maxWriteDelay →
    i.minWriteDelay ≤ i.maxWriteDelay
  transactional : 0 < i.transactionSize → i.contextSaverHasTransactionSize = false
  threadCount : i.transactionSize = 0 → i.contextSaverHasTransactionSize = true →
    i.syncCallerMaxThreadCount ≠ noThreadBound

end FifoSizeInput

open FifoSizeInput

variable {i : FifoSizeInput}

theorem check_eq_ok_iff {assertion : FifoSizeAssertion} {condition : Bool} {u : Unit} :
    assertion.check condition = .ok u ↔ condition = true := by
  cases condition <;> simp [FifoSizeAssertion.check]

/-- The result, if no assertion fails. -/
def uncheckedFifoSize (i : FifoSizeInput) : FifoSize where
  resultDepth := if i.threadCountApplies then i.syncCallerMaxThreadCount else i.depthForMaximum
  resultAlmostFullSlots :=
    if i.maxDepthApplies || i.threadCountApplies then 0 else i.almostFullSlots
  resultWriteDelay := i.resultWriteDelay
  resultMinWriteDelay := i.resultMinWriteDelay

theorem writeDelays_le_iff : i.resultMinWriteDelay ≤ i.resultWriteDelay ↔
    (i.readClock = i.writeClock → 1 < i.maxWriteDelay → i.minWriteDelay ≤ i.maxWriteDelay) := by
  rw [resultMinWriteDelay, resultWriteDelay]
  by_cases hdelay : i.hasWriteDelay = true
  · have hboth := of_decide_eq_true hdelay
    rw [if_pos hdelay, if_pos hdelay]
    exact ⟨fun hle _ _ => hle, fun hle => hle hboth.1 hboth.2⟩
  · rw [if_neg hdelay, if_neg hdelay]
    refine ⟨fun _ hclock hlt => ?_, fun _ => UInt64.le_refl _⟩
    exact absurd (decide_eq_true ⟨hclock, hlt⟩) hdelay

/-- The assertions hold exactly for consistent parameters. -/
theorem computeFifoSize_eq_ok_iff (h : i.SizesFit) (hrate : 0 < i.callRate) (r : FifoSize) :
    computeFifoSize i = .ok r ↔ i.Consistent ∧ uncheckedFifoSize i = r := by
  have hcomputed : i.logicalStageIndex + i.sizeToAdd ≤ i.depthForMinimum := by
    rw [UInt64.le_iff_toNat_le, depthForMinimum, toNat_max, newDepth]
    refine le_trans ?_ (Nat.le_max_left _ _)
    split
    · exact Nat.le_refl _
    · rw [toNat_max]
      exact Nat.le_max_left _ _
  have hthreshold : i.minAlmostFullThreshold ≤ i.depthForTransactions - i.almostFullSlots := by
    have hle := threshold_le_depth h hrate
    have hslots : i.almostFullSlots ≤ i.depthForTransactions := by
      rw [UInt64.le_iff_toNat_le]
      omega
    rw [UInt64.le_iff_toNat_le, UInt64.toNat_sub_of_le _ _ hslots, toNat_threshold h]
    omega
  constructor
  · intro hok
    simp only [computeFifoSize, bind_eq_ok_iff, check_eq_ok_iff, decide_eq_true_eq] at hok
    obtain ⟨-, hdelays, -, -, hok⟩ := hok
    split at hok
    · rename_i hpos
      simp only [bind_eq_ok_iff, check_eq_ok_iff, decide_eq_true_eq] at hok
      obtain ⟨-, hsaver, -, -, hr⟩ := hok
      refine ⟨⟨writeDelays_le_iff.mp hdelays, fun _ => ?_, fun hzero => ?_⟩, Except.ok.inj hr⟩
      · rwa [Bool.not_eq_true'] at hsaver
      · rw [hzero] at hpos
        exact absurd hpos (by decide)
    · rename_i hzero
      split at hok
      · simp only [bind_eq_ok_iff, check_eq_ok_iff, decide_eq_true_eq] at hok
        obtain ⟨-, hthreads, -, -, hr⟩ := hok
        exact ⟨⟨writeDelays_le_iff.mp hdelays, fun hpos => absurd hpos hzero,
          fun _ _ => hthreads⟩, Except.ok.inj hr⟩
      · rename_i hsaver
        simp only [pure_eq_ok, bind_eq_ok_iff, check_eq_ok_iff, decide_eq_true_eq] at hok
        obtain ⟨-, -, hr⟩ := hok
        exact ⟨⟨writeDelays_le_iff.mp hdelays, fun hpos => absurd hpos hzero,
          fun _ htrue => absurd htrue hsaver⟩, Except.ok.inj hr⟩
  · rintro ⟨hconsistent, rfl⟩
    have hdelays := writeDelays_le_iff.mpr hconsistent.writeDelays
    simp only [computeFifoSize, bind_eq_ok_iff, check_eq_ok_iff, decide_eq_true_eq]
    refine ⟨(), hdelays, (), hcomputed, ?_⟩
    split
    · rename_i hpos
      rw [hconsistent.transactional hpos]
      simp only [bind_eq_ok_iff, check_eq_ok_iff, decide_eq_true_eq]
      exact ⟨(), rfl, (), hthreshold, rfl⟩
    · rename_i hzero
      have hsize : i.transactionSize = 0 := by
        rw [UInt64.lt_iff_toNat_lt] at hzero
        exact UInt64.toNat_inj.mp (Nat.le_zero.mp (Nat.not_lt.mp hzero))
      split
      · rename_i hsaver
        simp only [bind_eq_ok_iff, check_eq_ok_iff, decide_eq_true_eq]
        exact ⟨(), hconsistent.threadCount hsize hsaver, (), hthreshold, rfl⟩
      · simp only [pure_eq_ok, bind_eq_ok_iff, check_eq_ok_iff, decide_eq_true_eq]
        exact ⟨(), hthreshold, rfl⟩

/-! ## No overflow -/

/-- A cap has turned `almost_full` off. -/
def FifoSizeInput.capped (i : FifoSizeInput) : Bool := i.maxDepthApplies || i.threadCountApplies

/-- The smaller of the specified maximum depth, if there is one, and the bound on the
    threads of the caller. -/
def FifoSizeInput.statedBound (i : FifoSizeInput) : Nat :=
  if i.maxDepth = 0 then i.syncCallerMaxThreadCount.toNat
  else min i.maxDepth.toNat i.syncCallerMaxThreadCount.toNat

/-- `ComputeFifoSize` gives the FIFO a size that prevents overflow. -/
structure PreventsOverflow (i : FifoSizeInput) (r : FifoSize) : Prop where
  /-- No assertion fails. -/
  computed : computeFifoSize i = .ok r
  /-- No subtraction underflows. -/
  subtractions : ∀ p ∈ i.subtractions, p.2 ≤ p.1
  /-- With `almost_full`, no run has more entries in use than the FIFO has. -/
  used_le : i.readClock = i.writeClock → r.resultWriteDelay = 0 → 0 < r.resultAlmostFullSlots →
    ∀ run : FifoRun r.resultDepth.toNat r.resultAlmostFullSlots.toNat
      i.configAlmostFullBackwardLatency.toNat i.stageIndex.toNat i.callRate.toNat,
      ∀ t, run.used t ≤ r.resultDepth.toNat
  /-- Without it, because of a cap, the depth is no less than the bound that replaces it. -/
  bound_le : i.capped = true →
    r.resultAlmostFullSlots = 0 ∧ i.statedBound ≤ r.resultDepth.toNat

theorem statedBound_le (hcapped : i.capped = true) :
    i.statedBound ≤ (uncheckedFifoSize i).resultDepth.toNat := by
  have hbound : i.statedBound ≤ i.syncCallerMaxThreadCount.toNat := by
    rw [FifoSizeInput.statedBound]
    split
    · exact Nat.le_refl _
    · exact Nat.min_le_right _ _
  simp only [uncheckedFifoSize]
  split
  · exact hbound
  · rename_i hthreads
    have hmax : i.maxDepthApplies = true := by
      rw [FifoSizeInput.capped, Bool.or_eq_true] at hcapped
      exact hcapped.resolve_right hthreads
    have hne := (of_decide_eq_true hmax).1
    rw [depthForMaximum, if_pos hmax, FifoSizeInput.statedBound, if_neg hne]
    exact Nat.min_le_left _ _

/-- The computed size prevents overflow exactly if the parameters are consistent. -/
theorem computeFifoSize_preventsOverflow_iff (h : i.SizesFit) (hrate : 1 ≤ i.callRate) :
    (∃ r, PreventsOverflow i r) ↔ i.Consistent := by
  have hpos : 0 < i.callRate := by
    rw [UInt64.lt_iff_toNat_lt]
    exact UInt64.le_iff_toNat_le.mp hrate
  have hdepth := threshold_le_depth h hpos
  have hslots := toNat_almostFullSlots h hpos
  constructor
  · rintro ⟨r, hr⟩
    exact ((computeFifoSize_eq_ok_iff h hpos r).mp hr.computed).1
  · intro hconsistent
    refine ⟨uncheckedFifoSize i, ⟨(computeFifoSize_eq_ok_iff h hpos _).mpr ⟨hconsistent, rfl⟩,
      ?_, ?_, ?_⟩⟩
    · intro p hp
      simp only [FifoSizeInput.subtractions, List.mem_cons, List.not_mem_nil, or_false] at hp
      rcases hp with rfl | rfl
      · rw [UInt64.le_iff_toNat_le, UInt64.toNat_add, Nat.mod_eq_of_lt h.stages_lt]
        exact Nat.le_add_left_of_le (UInt64.lt_iff_toNat_lt.mp hpos)
      · change i.almostFullSlots ≤ i.depthForTransactions
        rw [UInt64.le_iff_toNat_le]
        omega
    · -- Without caps the depth is the one that was computed
      intro _ _ hsome run t
      have hnot : (i.maxDepthApplies || i.threadCountApplies) = false := by
        by_contra hcapped
        simp only [uncheckedFifoSize, Bool.eq_true_of_not_eq_false hcapped, if_true] at hsome
        exact absurd hsome (by decide)
      obtain ⟨hmax, hthreads⟩ := Bool.or_eq_false_iff.mp hnot
      have hresult : (uncheckedFifoSize i).resultDepth = i.depthForTransactions := by
        simp only [uncheckedFifoSize, hthreads, depthForMaximum, hmax]
        rfl
      have hresultSlots : (uncheckedFifoSize i).resultAlmostFullSlots = i.almostFullSlots := by
        simp only [uncheckedFifoSize, hnot]
        rfl
      refine run.used_le (UInt64.lt_iff_toNat_lt.mp hpos) ?_ ?_ t
      · rw [hresultSlots, hslots]
        rfl
      · rw [hresult, hresultSlots]
        omega
    · intro hcapped
      refine ⟨?_, statedBound_le hcapped⟩
      rw [FifoSizeInput.capped] at hcapped
      simp only [uncheckedFifoSize, hcapped, if_true]

/-! ## Write delays -/

/-- A device whose pipelines have at least three stages, and cross-region pipelines of two. -/
def shortCrossRegion : SizingConfig where
  minFifoDepth := 32
  minDualClockFifoDepth := 64
  minAlmostFullDepth := 3
  additionalLatency := 2
  autoPipelineCrossRegion := 2
  autoPipelineScale := 0
  supportsAutoPipelining := true
  minAutoPipelineDepth := 3
  useThreadRateInFifoSizing := false

/-- A FIFO with one clock. -/
def plainFifo (implementation : FifoImplementation) : FifoDescription where
  implementation := implementation
  contextSaverHasTransactionSize := false
  depth := 0
  maxDepth := 0
  addMinimumDepth := false
  readClock := 0
  writeClock := 0
  transactionSize := 0

/-- A call of an asynchronous function in stage 7, every other cycle. -/
def asyncCallSite : EnqueueSite where
  type := .functionCall
  successorInFunction := false
  successorIsAsync := true
  minFifoDepth := 0
  callRate := 2
  threadRate := 1
  maxThreadCountInsideFunction := 512
  stageAdditionalFifoDepth := 7
  transitivePredecessorStage := none

/-- The write delays of a cross-region FIFO are not ordered there. -/
theorem crossRegion_writeDelays_fail :
    ¬ ∃ r, PreventsOverflow
      (sizeFifosInput shortCrossRegion (plainFifo .crossRegion) asyncCallSite) r := by
  rintro ⟨r, hr⟩
  have herror : computeFifoSize
      (sizeFifosInput shortCrossRegion (plainFifo .crossRegion) asyncCallSite) =
        .error .writeDelays := by decide
  have hcomputed := hr.computed
  rw [herror] at hcomputed
  cases hcomputed

/-- Another FIFO of the same program has a size that prevents overflow. -/
theorem computeFifoSize_preventsOverflow_async :
    ∃ r, PreventsOverflow
      (sizeFifosInput shortCrossRegion (plainFifo .default) asyncCallSite) r :=
  (computeFifoSize_preventsOverflow_iff
    (i := sizeFifosInput shortCrossRegion (plainFifo .default) asyncCallSite)
    ⟨by decide, by decide, by decide, by decide⟩ (by decide)).mpr
    ⟨by decide, by decide, by decide⟩

end Kanagawa.Lower
