/-
  Kanagawa.Ram.Mapping

  Mapping memories and FIFOs to RAMs (`MapMemoriesAndFifosToRams`).

  Everything that may use LUT RAM starts there.  A loop moves items from LUT RAM
  to block RAM, and from block RAM to deep RAM, in the order of what each move
  saves, as long as the limits allow.  The ratios that give the order are floats
  in the source; here they are of any type that can be compared.
-/
import Kanagawa.Arith.Literal

namespace Kanagawa.Ram

/-! ## Resources -/

/-- `GetMemoryResourceUsage`: the fewest physical memories that any of the configurations (width
    and depth) needs, and their utilization in percent. -/
def getMemoryResourceUsage (configs : List (Nat × Nat)) (width depth replicaCount : Nat) :
    Nat × Nat :=
  let step := fun (result : Nat × Nat) (c : Nat × Nat) =>
    let numWide := (width + c.1 - 1) / c.1
    let numDeep := (depth + c.2 - 1) / c.2
    let newAtomCount := numWide * numDeep * replicaCount
    if newAtomCount < result.1 then
      (newAtomCount,
        if newAtomCount > 0 then (width * depth * 100) / (c.1 * c.2 * numWide * numDeep) else 100)
    else result
  (configs.takeWhile fun c => c.1 != 0).foldl step (sizeMax, 0)

/-- The memories of a device and the options that limit their use. -/
structure RamConfig where
  lutRamConfigs : List (Nat × Nat)
  blockRamConfigs : List (Nat × Nat)
  deepRamConfigs : List (Nat × Nat)
  maxBlockRam : Nat
  maxDeepRam : Nat
  minBlockRamUtilization : Nat
  minDeepRamUtilization : Nat

/-- `RegisterDescription`, as far as the mapping reads it. -/
inductive RegisterDesc where
  | memory (elementWidth elementCount replicaCount writePortCount minReadLatency : Nat)
      (ecc hasInitialData : Bool)
  | fifo (physicalWidth depth : Nat) (passthrough useDsp dualClock : Bool)
  | other
  deriving Repr, DecidableEq

/-- `_useLutRam` and `_useBlockRam`. -/
structure RamFlags where
  useLutRam : Bool := false
  useBlockRam : Bool := false
  deriving Repr, DecidableEq

/-- `MemoryOrFifo`, of a register. -/
structure MemoryOrFifo (K : Type) where
  registerIndex : Nat
  isMemory : Bool
  lutRamsNeeded : Nat
  blockRamsNeeded : Nat
  blockRamUtilization : Nat
  deepRamsNeeded : Nat
  deepRamUtilization : Nat
  lutRamsSavedPerBlock : K
  blockRamsSavedPerDeep : K

variable {K : Type}

/-- `c_defaultMemoryReadLatency`. -/
def defaultMemoryReadLatency : Nat := 2

/-- `MemoryOrFifo::init`. -/
def MemoryOrFifo.init (config : RamConfig) (ratio : Nat → Nat → K) (zero : K)
    (registerIndex : Nat) (isMemory : Bool) (width depth replicaCount : Nat)
    (lutRamAllowed deepRamAllowed rom : Bool) : MemoryOrFifo K :=
  let lutRamUsage := getMemoryResourceUsage config.lutRamConfigs width depth replicaCount
  let lutRamsNeeded := if lutRamAllowed then lutRamUsage.1 else 0
  -- If ROM, can use true dual port thus halve the number of replicas (rounded up)
  let blockRamUsage := getMemoryResourceUsage config.blockRamConfigs width depth
    (if rom then (replicaCount + 1) / 2 else replicaCount)
  let deepRamUsage := getMemoryResourceUsage config.deepRamConfigs width depth replicaCount
  let deepRamsNeeded := if deepRamAllowed then deepRamUsage.1 else 0
  { registerIndex := registerIndex
    isMemory := isMemory
    lutRamsNeeded := lutRamsNeeded
    blockRamsNeeded := blockRamUsage.1
    blockRamUtilization := blockRamUsage.2
    deepRamsNeeded := deepRamsNeeded
    deepRamUtilization := if deepRamAllowed then deepRamUsage.2 else 0
    lutRamsSavedPerBlock := ratio lutRamsNeeded blockRamUsage.1
    blockRamsSavedPerDeep :=
      if deepRamAllowed then ratio blockRamUsage.1 deepRamsNeeded else zero }

/-- The constructor for a register that takes part: the item and the flags it sets. -/
def MemoryOrFifo.ofRegister (config : RamConfig) (ratio : Nat → Nat → K) (zero : K)
    (registerIndex : Nat) : RegisterDesc → Except Failure (Option (MemoryOrFifo K × RamFlags))
  | .memory width depth replicaCount writePortCount minReadLatency ecc hasInitialData => do
      let hasOutputRegister := decide (minReadLatency ≥ defaultMemoryReadLatency)
      assert (width > 0 && depth > 0 && replicaCount > 0)
      let lutRamAllowed := hasOutputRegister && !ecc
      let deepRamAllowed := !hasInitialData && hasOutputRegister
      let item := MemoryOrFifo.init config ratio zero registerIndex true width depth replicaCount
        lutRamAllowed deepRamAllowed (writePortCount == 0)
      if lutRamAllowed then do
        assert (item.lutRamsNeeded > 0)
        return some (item, { useLutRam := true })
      else do
        assert (item.blockRamsNeeded > 0)
        if deepRamAllowed then assert (item.deepRamsNeeded > 0)
        return some (item, { useBlockRam := true })
  | .fifo width depth passthrough useDsp dualClock =>
      if width > 0 && !passthrough && !useDsp then do
        assert (width > 0 && depth > 0)
        -- LUT RAM with dual-clock FIFOs causes a timing violation
        let lutRamAllowed := !dualClock
        let item := MemoryOrFifo.init config ratio zero registerIndex false width depth 1
          lutRamAllowed false false
        if lutRamAllowed then do
          assert (item.lutRamsNeeded > 0)
          return some (item, { useLutRam := true })
        else do
          assert (item.blockRamsNeeded > 0)
          return some (item, {})
      else return none
  | .other => return none

/-! ## The state of the mapping -/

structure RamState (K : Type) where
  potentialBlockRams : List (MemoryOrFifo K)
  potentialDeepRams : List (MemoryOrFifo K)
  lutRamsUsed : Nat
  blockRamsUsed : Nat
  deepRamsUsed : Nat
  flags : Nat → RamFlags

/-- `multiset::insert`, in descending order of the key: after the elements with the same key. -/
def insertDescending [LT K] [DecidableLT K] (key : MemoryOrFifo K → K) (x : MemoryOrFifo K) :
    List (MemoryOrFifo K) → List (MemoryOrFifo K)
  | [] => [x]
  | e :: es => if key e < key x then x :: e :: es else e :: insertDescending key x es

/-- A subtraction of `size_t` that must not wrap. -/
def subtract (a b : Nat) : Except Failure Nat := do
  assert (b ≤ a)
  return a - b

/-- `LutToBlockRam`. -/
def MemoryOrFifo.lutToBlockRam (item : MemoryOrFifo K) (flags : Nat → RamFlags) :
    Except Failure (Nat → RamFlags) := do
  assert (flags item.registerIndex).useLutRam
  return Function.update flags item.registerIndex
    { (flags item.registerIndex) with
      useLutRam := false
      useBlockRam := item.isMemory || (flags item.registerIndex).useBlockRam }

/-- `BlockToDeepRam`. -/
def MemoryOrFifo.blockToDeepRam (item : MemoryOrFifo K) (flags : Nat → RamFlags) :
    Except Failure (Nat → RamFlags) := do
  assert (item.deepRamsNeeded > 0)
  assert item.isMemory
  assert (flags item.registerIndex).useBlockRam
  return Function.update flags item.registerIndex
    { (flags item.registerIndex) with useBlockRam := false }

section Loop

variable [LT K] [DecidableLT K] (config : RamConfig)

/-- The block RAMs of the item fit, and are used well enough. -/
def FitsBlockRam (st : RamState K) (item : MemoryOrFifo K) : Prop :=
  st.blockRamsUsed + item.blockRamsNeeded ≤ config.maxBlockRam ∧
    item.blockRamUtilization ≥ config.minBlockRamUtilization

def FitsDeepRam (st : RamState K) (item : MemoryOrFifo K) : Prop :=
  st.deepRamsUsed + item.deepRamsNeeded ≤ config.maxDeepRam ∧
    item.deepRamUtilization ≥ config.minDeepRamUtilization

instance (st : RamState K) (item : MemoryOrFifo K) : Decidable (FitsBlockRam config st item) :=
  inferInstanceAs (Decidable (_ ∧ _))

instance (st : RamState K) (item : MemoryOrFifo K) : Decidable (FitsDeepRam config st item) :=
  inferInstanceAs (Decidable (_ ∧ _))

/-- Moves an item from LUT RAM to block RAM; the others are `remaining`. -/
def moveToBlockRam (remaining : List (MemoryOrFifo K)) (item : MemoryOrFifo K) (st : RamState K) :
    Except Failure (RamState K) := do
  let lutRamsUsed ← subtract st.lutRamsUsed item.lutRamsNeeded
  let flags ← item.lutToBlockRam st.flags
  let potentialDeepRams :=
    if config.maxDeepRam > 0 ∧ item.deepRamsNeeded > 0 then
      insertDescending MemoryOrFifo.blockRamsSavedPerDeep item st.potentialDeepRams
    else st.potentialDeepRams
  return { st with
    potentialBlockRams := remaining
    potentialDeepRams := potentialDeepRams
    lutRamsUsed := lutRamsUsed
    blockRamsUsed := st.blockRamsUsed + item.blockRamsNeeded
    flags := flags }

/-- Moves an item from block RAM to deep RAM. -/
def moveToDeepRam (remaining : List (MemoryOrFifo K)) (item : MemoryOrFifo K) (st : RamState K) :
    Except Failure (RamState K) := do
  let blockRamsUsed ← subtract st.blockRamsUsed item.blockRamsNeeded
  let flags ← item.blockToDeepRam st.flags
  return { st with
    potentialDeepRams := remaining
    blockRamsUsed := blockRamsUsed
    deepRamsUsed := st.deepRamsUsed + item.deepRamsNeeded
    flags := flags }

/-- Consider moving memories from LUTRAM into BlockRAM: the state, and whether one was moved.
    The iterator stands between `visited` and the rest. -/
def lutToBlockLoop (visited : List (MemoryOrFifo K)) : List (MemoryOrFifo K) → RamState K →
    Except Failure (RamState K × Bool)
  | [], st => .ok (st, false)
  | cheapest :: rest, st =>
      if st.blockRamsUsed < config.maxBlockRam then
        if FitsBlockRam config st cheapest then do
          let st' ← moveToBlockRam config (visited ++ rest) cheapest st
          let result ← lutToBlockLoop visited rest st'
          return (result.1, true)
        else lutToBlockLoop (visited ++ [cheapest]) rest st
      else .ok (st, false)

/-- Consider moving memories from BlockRAM into DeepRAM: at most one is moved. -/
def blockToDeepLoop (visited : List (MemoryOrFifo K)) : List (MemoryOrFifo K) → RamState K →
    Except Failure (RamState K × Bool)
  | [], st => .ok (st, false)
  | cheapest :: rest, st =>
      if st.deepRamsUsed < config.maxDeepRam then
        if FitsDeepRam config st cheapest then do
          let st' ← moveToDeepRam (visited ++ rest) cheapest st
          return (st', true)
        else blockToDeepLoop (visited ++ [cheapest]) rest st
      else .ok (st, false)

/-- The body of the loop: whether something was moved. -/
def mapStep (st : RamState K) : Except Failure (RamState K × Bool) := do
  let afterBlock ← lutToBlockLoop config [] st.potentialBlockRams st
  let afterDeep ← blockToDeepLoop config [] afterBlock.1.potentialDeepRams afterBlock.1
  return (afterDeep.1, afterBlock.2 || afterDeep.2)

/-- The loop, up to a fixed point, with a bound on the number of iterations. -/
def mapLoop : Nat → RamState K → Except Failure (Option (RamState K))
  | 0, _ => .ok none
  | fuel + 1, st => do
      let result ← mapStep config st
      if result.2 then mapLoop fuel result.1
      else do
        assert (result.1.deepRamsUsed ≤ config.maxDeepRam)
        return some result.1

/-- Adds an item: to LUT RAM when it may use it, else to block RAM. -/
def addItem (item : MemoryOrFifo K) (itemFlags : RamFlags) (st : RamState K) : RamState K :=
  let flags := Function.update st.flags item.registerIndex itemFlags
  if item.lutRamsNeeded > 0 then
    { st with
      lutRamsUsed := st.lutRamsUsed + item.lutRamsNeeded
      potentialBlockRams :=
        insertDescending MemoryOrFifo.lutRamsSavedPerBlock item st.potentialBlockRams
      flags := flags }
  else
    { st with
      blockRamsUsed := st.blockRamsUsed + item.blockRamsNeeded
      potentialDeepRams :=
        if config.maxDeepRam > 0 ∧ item.deepRamsNeeded > 0 then
          insertDescending MemoryOrFifo.blockRamsSavedPerDeep item st.potentialDeepRams
        else st.potentialDeepRams
      flags := flags }

end Loop

/-- The item of a register, with the flags it sets. -/
def registerItem (config : RamConfig) (ratio : Nat → Nat → K) (zero : K)
    (entry : RegisterDesc × Nat) : Except Failure (Option (MemoryOrFifo K × RamFlags)) :=
  MemoryOrFifo.ofRegister config ratio zero entry.2 entry.1

/-- Extract all memories and FIFOs, and the block RAMs of the routers of synchronous extern
    functions (given by their logarithmic depth and call index width). -/
def extractMemories [LT K] [DecidableLT K] (config : RamConfig) (ratio : Nat → Nat → K) (zero : K)
    (registerTable : List RegisterDesc) (routers : List (Nat × Nat)) :
    Except Failure (List (MemoryOrFifo K × RamFlags) × RamState K) := do
  assert (config.maxBlockRam > 0)
  let items ← registerTable.zipIdx.mapM (registerItem config ratio zero)
  let items := items.filterMap id
  let start : RamState K := ⟨[], [], 0, 0, 0, fun _ => {}⟩
  let st := items.foldl (fun st item => addItem config item.1 item.2 st) start
  let routerRams := routers.map fun r =>
    (getMemoryResourceUsage config.blockRamConfigs (1 + 1 + r.2) (2 ^ r.1) 1).1
  return (items, { st with blockRamsUsed := st.blockRamsUsed + routerRams.sum })

end Kanagawa.Ram
