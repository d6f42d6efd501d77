/-
  Kanagawa.Lower.UniqueNames

  The names of debug views and of functions (`MakeDebugViewNamesUnique` and the loop of
  `OptimizeScheduleAndPipeline` that sets `_uniqueName`, `lower.cpp`).

  Both append how often a name was met before.  A name with a number can be a name that the
  program has anyway, and nothing looks for that.
-/
import Kanagawa.IR.Basic
import Kanagawa.Lib.NumberedNames

namespace Kanagawa.Lower.UniqueNames

open IR Lib.NumberedNames

/-! ## The program -/

/-- An operation, with `_flags._debugView->_label` for a debug view. -/
structure ViewOperation where
  opcode : Opcode
  label : String

/-- A basic block, with the stages that are scheduled already. -/
structure ViewBlock where
  startConditionOperations : List ViewOperation
  operations : List ViewOperation
  stages : List (List ViewOperation)

/-- A function and the object it belongs to. -/
structure NamedFunction where
  objectName : String
  name : String
  uniqueName : String
  basicBlocks : List ViewBlock

/-- `g_globalObjectName`. -/
def globalObjectName : String := "__globalObject__"

/-- How often each name was met: `duplicateCount`, `nameToIndex`. -/
abbrev NameCounts := Std.ExtTreeMap String Nat

/-! ## The two loops -/

/-- A loop that changes its elements and counts names. -/
def visitAll {α : Type} (visit : NameCounts → α → NameCounts × α) (counts : NameCounts) :
    List α → NameCounts × List α
  | [] => (counts, [])
  | x :: xs =>
      let visited := visit counts x
      let rest := visitAll visit visited.1 xs
      (rest.1, visited.2 :: rest.2)

/-- `operationCallback` of `MakeDebugViewNamesUnique`. -/
def makeLabelUnique (duplicateCount : NameCounts) (op : ViewOperation) :
    NameCounts × ViewOperation :=
  if op.opcode = .debugView then
    let count := duplicateCount.getD op.label 0
    -- Append the count to make the label unique
    let label := if count > 0 then op.label ++ toString count else op.label
    (duplicateCount.insert op.label (count + 1), { op with label := label })
  else
    (duplicateCount, op)

/-- `ForEachOperationForward` over a basic block. -/
def makeBlockLabelsUnique (duplicateCount : NameCounts) (basicBlock : ViewBlock) :
    NameCounts × ViewBlock :=
  let startConditionOperations :=
    visitAll makeLabelUnique duplicateCount basicBlock.startConditionOperations
  let operations := visitAll makeLabelUnique startConditionOperations.1 basicBlock.operations
  let stages := visitAll (visitAll makeLabelUnique) operations.1 basicBlock.stages
  (stages.1, ⟨startConditionOperations.2, operations.2, stages.2⟩)

def makeFunctionLabelsUnique (duplicateCount : NameCounts) (function : NamedFunction) :
    NameCounts × NamedFunction :=
  let basicBlocks := visitAll makeBlockLabelsUnique duplicateCount function.basicBlocks
  (basicBlocks.1, { function with basicBlocks := basicBlocks.2 })

/-- `MakeDebugViewNamesUnique`. -/
def makeDebugViewNamesUnique (functions : List NamedFunction) : List NamedFunction :=
  (visitAll makeFunctionLabelsUnique ∅ functions).2

/-- `funcName`: the object name is added if it is not the one of the global object. -/
def NamedFunction.funcName (function : NamedFunction) : String :=
  (if function.objectName = globalObjectName then "" else function.objectName ++ "_") ++
    function.name

/-- The loop body of `OptimizeScheduleAndPipeline`. -/
def setUniqueName (nameToIndex : NameCounts) (function : NamedFunction) :
    NameCounts × NamedFunction :=
  let nameIndex := nameToIndex.getD function.funcName 0
  (nameToIndex.insert function.funcName (nameIndex + 1),
    { function with
      uniqueName :=
        if nameIndex > 0 then function.funcName ++ "_" ++ toString nameIndex
        else function.funcName })

/-- The loop of `OptimizeScheduleAndPipeline`. -/
def setUniqueNames (functions : List NamedFunction) : List NamedFunction :=
  (visitAll setUniqueName ∅ functions).2

/-! ## The names of a program -/

/-- The label of a debug view. -/
def ViewOperation.labels (op : ViewOperation) : List String :=
  if op.opcode = .debugView then [op.label] else []

def ViewBlock.labels (basicBlock : ViewBlock) : List String :=
  basicBlock.startConditionOperations.flatMap ViewOperation.labels ++
    basicBlock.operations.flatMap ViewOperation.labels ++
    basicBlock.stages.flatMap (·.flatMap ViewOperation.labels)

def NamedFunction.labels (function : NamedFunction) : List String :=
  function.basicBlocks.flatMap ViewBlock.labels

/-! ## What the loops do -/

/-- The counts after some names were met. -/
def Counts (counts : NameCounts) (seen : List String) : Prop :=
  ∀ name, counts.getD name 0 = seen.count name

/-- A visit numbers the names of what it visits. -/
def Numbers {α : Type} (sep : String) (before after : α → List String)
    (visit : NameCounts → α → NameCounts × α) : Prop :=
  ∀ ⦃counts seen⦄, Counts counts seen → ∀ x,
    Counts (visit counts x).1 ((before x).reverse ++ seen) ∧
    after (visit counts x).2 = (numberFrom seen (before x)).map fun p => numbered sep p.1 p.2

variable {α : Type} {sep : String} {before after : α → List String}
  {visit : NameCounts → α → NameCounts × α} {counts : NameCounts} {seen : List String}

theorem Counts.insert (h : Counts counts seen) (name : String) :
    Counts (counts.insert name (counts.getD name 0 + 1)) (name :: seen) := by
  intro other
  by_cases heq : name = other
  · rw [← heq, Std.ExtTreeMap.getD_insert_self, List.count_cons_self, h name]
  · rw [List.count_cons_of_ne heq, ← h other, Std.ExtTreeMap.getD_insert, if_neg]
    exact fun hcompare => heq (Std.LawfulEqCmp.eq_of_compare hcompare)

/-- A loop numbers names as its body does. -/
theorem Numbers.visitAll (h : Numbers sep before after visit) :
    Numbers sep (·.flatMap before) (·.flatMap after) (visitAll visit) := by
  intro counts seen hcounts xs
  induction xs generalizing counts seen with
  | nil => exact ⟨hcounts, rfl⟩
  | cons x xs ih =>
      obtain ⟨hfirst, hname⟩ := h hcounts x
      obtain ⟨hrest, hnames⟩ := ih hfirst
      dsimp only
      rw [List.flatMap_cons]
      constructor
      · rw [List.reverse_append, List.append_assoc]
        exact hrest
      · rw [numberFrom_append, List.map_append, ← hname]
        exact congrArg _ hnames

theorem makeLabelUnique_numbers :
    Numbers "" ViewOperation.labels ViewOperation.labels makeLabelUnique := by
  intro counts seen hcounts op
  by_cases hop : op.opcode = .debugView
  · rw [makeLabelUnique, if_pos hop, ViewOperation.labels, if_pos hop]
    refine ⟨hcounts.insert op.label, ?_⟩
    rw [ViewOperation.labels, if_pos hop, numberFrom, List.map_cons, ← hcounts op.label, numbered,
      String.append_empty]
    rfl
  · rw [makeLabelUnique, if_neg hop, ViewOperation.labels, if_neg hop]
    exact ⟨hcounts, rfl⟩

theorem makeBlockLabelsUnique_numbers :
    Numbers "" ViewBlock.labels ViewBlock.labels makeBlockLabelsUnique := by
  intro counts seen hcounts basicBlock
  obtain ⟨hcounts, hstart⟩ :=
    makeLabelUnique_numbers.visitAll hcounts basicBlock.startConditionOperations
  obtain ⟨hcounts, hoperations⟩ := makeLabelUnique_numbers.visitAll hcounts basicBlock.operations
  obtain ⟨hcounts, hstages⟩ :=
    makeLabelUnique_numbers.visitAll.visitAll hcounts basicBlock.stages
  constructor
  · rw [ViewBlock.labels, List.reverse_append, List.reverse_append, List.append_assoc,
      List.append_assoc]
    exact hcounts
  · rw [ViewBlock.labels, ViewBlock.labels, numberFrom_append, numberFrom_append, List.map_append,
      List.map_append, List.reverse_append, List.append_assoc, List.append_assoc,
      List.append_assoc]
    exact congrArg₂ _ hstart (congrArg₂ _ hoperations hstages)

theorem makeFunctionLabelsUnique_numbers :
    Numbers "" NamedFunction.labels NamedFunction.labels makeFunctionLabelsUnique :=
  fun _ _ hcounts function => makeBlockLabelsUnique_numbers.visitAll hcounts function.basicBlocks

theorem setUniqueName_numbers :
    Numbers "_" (fun function => [function.funcName]) (fun function => [function.uniqueName])
      setUniqueName := by
  intro counts seen hcounts function
  refine ⟨hcounts.insert function.funcName, ?_⟩
  show [if counts.getD function.funcName 0 > 0 then _ else _] = [numbered _ _ _]
  rw [hcounts function.funcName]
  rfl

/-- The labels and the names that come out are unique exactly if no label is another one with
    one of its numbers, and no function name is another one with an underscore and one of its
    numbers. -/
theorem names_unique_iff (functions : List NamedFunction) :
    (((makeDebugViewNamesUnique functions).flatMap NamedFunction.labels).Nodup ∧
      ((setUniqueNames functions).map NamedFunction.uniqueName).Nodup) ↔
    (∀ label k, 0 < k → k < (functions.flatMap NamedFunction.labels).count label →
      label ++ toString k ∉ functions.flatMap NamedFunction.labels) ∧
    (∀ name k, 0 < k → k < (functions.map NamedFunction.funcName).count name →
      name ++ "_" ++ toString k ∉ functions.map NamedFunction.funcName) := by
  have hempty : Counts ∅ [] := fun name => by
    rw [Std.ExtTreeMap.getD_empty, List.count_nil]
  have hlabels := (makeFunctionLabelsUnique_numbers.visitAll hempty functions).2
  have hnames := (setUniqueName_numbers.visitAll hempty functions).2
  dsimp only at hlabels hnames
  rw [← List.map_eq_flatMap, ← List.map_eq_flatMap] at hnames
  rw [makeDebugViewNamesUnique, setUniqueNames, hlabels, hnames,
    nodup_numbered_iff separates_empty, nodup_numbered_iff separates_underscore]
  simp only [String.append_empty]

/-- Two debug views have the label `x` and one has the label `x1`. -/
theorem not_labels_unique :
    ¬ ((makeDebugViewNamesUnique [⟨globalObjectName, "f", "", [⟨[],
      [⟨.debugView, "x"⟩, ⟨.debugView, "x"⟩, ⟨.debugView, "x1"⟩], []⟩]⟩]).flatMap
        NamedFunction.labels).Nodup := by
  decide +kernel

end Kanagawa.Lower.UniqueNames
