/-
  Kanagawa.Search.Iteration

  One iteration of the integer minimizer.

  Parameter vectors form a tree: a vector's children give all values to the
  parameter `selectParameterToDefine` picks, and a vector is a leaf when all
  parameters to optimize are defined.  This file says what each piece of an
  iteration does in terms of that tree.
-/
import Kanagawa.Search.BranchAndBound
import Kanagawa.Lib.Except

namespace Kanagawa.Search

open Lib.BranchAndBound Lib.Except

/-! ## Undefined parameters -/

section Select

variable {parameterRanges : List Nat} {parametersToOptimize : Std.ExtTreeSet Nat}
  {params : IntegerParameterVector}

/-- The parameter is to be optimized and has no value yet. -/
def isOpen (parametersToOptimize : Std.ExtTreeSet Nat) (params : IntegerParameterVector)
    (i : Nat) : Bool :=
  (params.getD i none).isNone && parametersToOptimize.contains i

theorem isParameterDefined_eq {i : Nat} (h : i < params.length) :
    isParameterDefined params i = .ok (params.getD i none).isSome := by
  simp [isParameterDefined, assert, h]

/-- The choice between the parameter selected so far and an open one. -/
def better (parameterRanges : List Nat) (selected : Option Nat) (i : Nat) : Option Nat :=
  match selected with
  | some j => if parameterRanges.getD i 0 < parameterRanges.getD j 0 then some i else some j
  | none => some i

theorem mem_better {selected : Option Nat} {i j : Nat} (h : j ∈ better parameterRanges selected i) :
    j ∈ selected ∨ j = i := by
  unfold better at h
  rcases selected with _ | k
  · exact .inr (by simpa using h.symm)
  · simp only at h
    split_ifs at h
    · exact .inr (by simpa using h.symm)
    · exact .inl h

theorem better_isSome (selected : Option Nat) (i : Nat) :
    (better parameterRanges selected i).isSome := by
  unfold better
  rcases selected with _ | k
  · rfl
  · simp only
    split_ifs <;> rfl

theorem selectBetter_eq {i : Nat} (h : i < params.length) (selected : Option Nat) :
    selectBetter parameterRanges parametersToOptimize params selected i =
      .ok (if isOpen parametersToOptimize params i then better parameterRanges selected i
        else selected) := by
  have hcond : (!(params.getD i none).isSome && parametersToOptimize.contains i)
      = isOpen parametersToOptimize params i := by
    rw [isOpen, Option.not_isSome]
  simp only [selectBetter, isParameterDefined_eq h, ok_bind, pure_eq_ok, hcond]
  by_cases ho : isOpen parametersToOptimize params i = true
  · simp only [if_pos ho]
    rcases selected with _ | j
    · rfl
    · simp only [better]
      split_ifs <;> rfl
  · simp only [if_neg ho]

/-- Whatever a scan has selected is an open parameter, and something is selected
    once there is one. -/
theorem foldlM_selectBetter (parameterRanges : List Nat) (parametersToOptimize : Std.ExtTreeSet Nat)
    (l : List Nat) (hl : ∀ i ∈ l, i < params.length) (selected : Option Nat) :
    ∃ selected', l.foldlM (selectBetter parameterRanges parametersToOptimize params) selected
        = .ok selected' ∧
      (∀ j ∈ selected', j ∈ selected ∨ j ∈ l ∧ isOpen parametersToOptimize params j = true) ∧
      ((selected.isSome ∨ ∃ i ∈ l, isOpen parametersToOptimize params i = true) →
        selected'.isSome) := by
  induction l generalizing selected with
  | nil => exact ⟨selected, rfl, fun j hj => .inl hj, by simp⟩
  | cons i rest ih =>
      have hi := hl i List.mem_cons_self
      have hrest : ∀ j ∈ rest, j < params.length := fun j hj => hl j (List.mem_cons_of_mem _ hj)
      rw [List.foldlM_cons, selectBetter_eq hi, ok_bind]
      by_cases ho : isOpen parametersToOptimize params i = true
      · rw [if_pos ho]
        obtain ⟨selected', hok, hmem, hsome⟩ := ih hrest (better parameterRanges selected i)
        refine ⟨selected', hok, ?_, fun _ => hsome (.inl (better_isSome selected i))⟩
        intro j hj
        rcases hmem j hj with h | ⟨h, hjo⟩
        · rcases mem_better h with h | rfl
          · exact .inl h
          · exact .inr ⟨List.mem_cons_self, ho⟩
        · exact .inr ⟨List.mem_cons_of_mem _ h, hjo⟩
      · rw [if_neg ho]
        obtain ⟨selected', hok, hmem, hsome⟩ := ih hrest selected
        refine ⟨selected', hok, ?_, ?_⟩
        · intro j hj
          rcases hmem j hj with h | ⟨h, hjo⟩
          · exact .inl h
          · exact .inr ⟨List.mem_cons_of_mem _ h, hjo⟩
        · rintro (h | ⟨k, hk, hko⟩)
          · exact hsome (.inl h)
          · rcases List.mem_cons.mp hk with rfl | hk
            · exact absurd hko ho
            · exact hsome (.inr ⟨k, hk, hko⟩)

/-- `selectParameterToDefine` finds an open parameter whenever there is one. -/
theorem selectParameterToDefine_ok (parameterRanges : List Nat)
    (h : ∃ i < params.length, isOpen parametersToOptimize params i = true) :
    ∃ i, selectParameterToDefine parameterRanges parametersToOptimize params = .ok i ∧
      i < params.length ∧ isOpen parametersToOptimize params i = true := by
  obtain ⟨i, hi, ho⟩ := h
  obtain ⟨selected, hok, hmem, hsome⟩ := foldlM_selectBetter parameterRanges
    parametersToOptimize (List.range params.length) (fun j hj => List.mem_range.mp hj) none
  obtain ⟨j, rfl⟩ := Option.isSome_iff_exists.mp
    (hsome (.inr ⟨i, List.mem_range.mpr hi, ho⟩))
  rcases hmem j rfl with h | ⟨hj, hjo⟩
  · exact nomatch h
  · refine ⟨j, ?_, List.mem_range.mp hj, hjo⟩
    rw [selectParameterToDefine, hok]
    rfl

end Select

/-! ## The search tree -/

/-- The children of a vector: all values of the parameter selected for it. -/
def refinements (parameterRanges : List Nat) (parametersToOptimize : Std.ExtTreeSet Nat)
    (params : IntegerParameterVector) : List IntegerParameterVector :=
  match selectParameterToDefine parameterRanges parametersToOptimize params with
  | .ok i => (List.range (parameterRanges.getD i 0)).map fun value => params.set i (some value)
  | .error _ => []

/-- Parameter vectors as a tree; a vector is a leaf when all parameters to optimize
    are defined. -/
def searchTree (parameterRanges : List Nat) (boundCallback : BoundObjectiveFunction)
    (parametersToOptimize : Std.ExtTreeSet Nat) : BranchTree IntegerParameterVector where
  leaf params := ∀ i ∈ parametersToOptimize, (params.getD i none).isSome = true
  children := refinements parameterRanges parametersToOptimize
  lower params := (boundCallback params false).lowerBound
  upper params := (boundCallback params false).upperBound

/-- The vectors the search meets: right length, values in range, and refining the seed. -/
structure Refines (parameterRanges : List Nat) (seed params : IntegerParameterVector) : Prop where
  length_eq : params.length = parameterRanges.length
  inRange : ∀ {i x}, params.getD i none = some x → x < parameterRanges.getD i 0
  extends_seed : ∀ {i x}, seed.getD i none = some x → params.getD i none = some x

/-- The number of parameters still to be defined. -/
def openCount (parametersToOptimize : Std.ExtTreeSet Nat) (params : IntegerParameterVector) : Nat :=
  (List.range params.length).countP (isOpen parametersToOptimize params)

section Tree

variable {parameterRanges : List Nat} {boundCallback : BoundObjectiveFunction}
  {parametersToOptimize : Std.ExtTreeSet Nat} {seed params : IntegerParameterVector}

theorem getD_set (params : IntegerParameterVector) {i : Nat} (h : i < params.length)
    (v : Option Nat) (j : Nat) :
    (params.set i v).getD j none = if j = i then v else params.getD j none := by
  rw [List.getD_eq_getElem?_getD, List.getElem?_set, List.getD_eq_getElem?_getD]
  by_cases hji : j = i
  · subst hji
    simp [h]
  · rw [if_neg (Ne.symm hji), if_neg hji]

/-- Defining an open parameter closes it and no other. -/
theorem isOpen_set {i : Nat} (h : i < params.length) (x j : Nat) :
    isOpen parametersToOptimize (params.set i (some x)) j =
      (decide (j ≠ i) && isOpen parametersToOptimize params j) := by
  rw [isOpen, getD_set params h]
  by_cases hji : j = i
  · simp [hji]
  · simp [hji, isOpen]

theorem openCount_set_lt {i : Nat} (h : i < params.length)
    (ho : isOpen parametersToOptimize params i = true) (x : Nat) :
    openCount parametersToOptimize (params.set i (some x)) <
      openCount parametersToOptimize params := by
  have hset : isOpen parametersToOptimize (params.set i (some x)) =
      fun j => decide (j ≠ i) && isOpen parametersToOptimize params j :=
    funext (isOpen_set h x)
  -- Parameter `i` is counted before and not after, the others as before
  rw [openCount, openCount, List.length_set, hset, ← List.countP_filter,
    List.countP_eq_length_filter, List.countP_eq_length_filter,
    List.length_filter_lt_length_iff_exists]
  exact ⟨i, List.mem_filter.mpr ⟨List.mem_range.mpr h, ho⟩, by simp⟩

/-- A vector that is not a leaf has an open parameter. -/
theorem exists_isOpen (hopt : ∀ i ∈ parametersToOptimize, i < parameterRanges.length)
    (hp : params.length = parameterRanges.length)
    (hleaf : ¬ (searchTree parameterRanges boundCallback parametersToOptimize).leaf params) :
    ∃ i < params.length, isOpen parametersToOptimize params i = true := by
  obtain ⟨i, hi⟩ := not_forall.mp hleaf
  obtain ⟨hmem, hnone⟩ := Classical.not_imp.mp hi
  refine ⟨i, hp ▸ hopt i hmem, ?_⟩
  rw [isOpen, Bool.and_eq_true]
  refine ⟨?_, Std.ExtTreeSet.contains_iff_mem.mpr hmem⟩
  rwa [Bool.not_eq_true, Option.isSome_eq_false_iff] at hnone

/-- The children of a vector that is not a leaf. -/
theorem refinements_of_not_leaf (hopt : ∀ i ∈ parametersToOptimize, i < parameterRanges.length)
    (hp : params.length = parameterRanges.length)
    (hleaf : ¬ (searchTree parameterRanges boundCallback parametersToOptimize).leaf params) :
    ∃ i, selectParameterToDefine parameterRanges parametersToOptimize params = .ok i ∧
      i < params.length ∧ isOpen parametersToOptimize params i = true ∧
      refinements parameterRanges parametersToOptimize params =
        (List.range (parameterRanges.getD i 0)).map fun x => params.set i (some x) := by
  obtain ⟨i, hok, hi, ho⟩ :=
    selectParameterToDefine_ok parameterRanges (exists_isOpen hopt hp hleaf)
  exact ⟨i, hok, hi, ho, by rw [refinements, hok]⟩

/-- Defining one more parameter keeps a vector a refinement of the seed. -/
theorem Refines.set (h : Refines parameterRanges seed params) {i x : Nat} (hi : i < params.length)
    (ho : isOpen parametersToOptimize params i = true) (hx : x < parameterRanges.getD i 0) :
    Refines parameterRanges seed (params.set i (some x)) := by
  refine ⟨by rw [List.length_set, h.length_eq], ?_, ?_⟩
  · intro j y hj
    rw [getD_set params hi] at hj
    split_ifs at hj with hji
    · obtain rfl : x = y := by simpa using hj
      rwa [hji]
    · exact h.inRange hj
  · intro j y hj
    have hpj := h.extends_seed hj
    rw [getD_set params hi, if_neg, hpj]
    rintro rfl
    -- An open parameter has no value, not even in the seed
    rw [isOpen, hpj] at ho
    exact nomatch ho

end Tree

/-! ## One iteration -/

/-- The work list entry of a vector. -/
abbrev entry (boundCallback : BoundObjectiveFunction) (params : IntegerParameterVector) :
    WorkListEntry :=
  ⟨params, boundCallback params false⟩

/-- All parameters to optimize are defined. -/
def isLeaf (parametersToOptimize : Std.ExtTreeSet Nat) (params : IntegerParameterVector) : Bool :=
  parametersToOptimize.toList.all fun i => (params.getD i none).isSome

/-- The entry is neither filtered nor a leaf, and touches an extreme bound. -/
def toRefine (boundCallback : BoundObjectiveFunction) (parametersToOptimize : Std.ExtTreeSet Nat)
    (lowestLowerBound lowestUpperBound staleBest : Nat) (params : IntegerParameterVector) : Bool :=
  !shouldFilter lowestUpperBound staleBest (boundCallback params false) &&
  !isLeaf parametersToOptimize params &&
  ((boundCallback params false).lowerBound = lowestLowerBound ||
    (boundCallback params false).upperBound = lowestUpperBound)

/-- The entry is neither filtered nor a leaf, and touches no extreme bound. -/
def toKeep (boundCallback : BoundObjectiveFunction) (parametersToOptimize : Std.ExtTreeSet Nat)
    (lowestLowerBound lowestUpperBound staleBest : Nat) (params : IntegerParameterVector) : Bool :=
  !shouldFilter lowestUpperBound staleBest (boundCallback params false) &&
  !isLeaf parametersToOptimize params &&
  !((boundCallback params false).lowerBound = lowestLowerBound ||
    (boundCallback params false).upperBound = lowestUpperBound)

section Iteration

variable {parameterRanges : List Nat} {boundCallback : BoundObjectiveFunction}
  {parametersToOptimize : Std.ExtTreeSet Nat} {seed params : IntegerParameterVector}

theorem isLeaf_iff : isLeaf parametersToOptimize params = true ↔
    (searchTree parameterRanges boundCallback parametersToOptimize).leaf params := by
  rw [isLeaf, List.all_eq_true]
  exact ⟨fun h i hi => h i (Std.ExtTreeSet.mem_toList.mpr hi),
    fun h i hi => h i (Std.ExtTreeSet.mem_toList.mp hi)⟩

theorem allM_isParameterDefined (l : List Nat) (hl : ∀ i ∈ l, i < params.length) :
    l.allM (isParameterDefined params) = .ok (l.all fun i => (params.getD i none).isSome) := by
  induction l with
  | nil => rfl
  | cons i rest ih =>
      have ih' := ih fun j hj => hl j (List.mem_cons_of_mem _ hj)
      rw [List.allM, isParameterDefined_eq (hl i List.mem_cons_self), ok_bind, List.all_cons]
      rcases (params.getD i none).isSome with _ | _
      · rfl
      · rw [Bool.true_and]
        exact ih'

theorem allDefined_eq (hopt : ∀ i ∈ parametersToOptimize, i < parameterRanges.length)
    (hp : params.length = parameterRanges.length) :
    allDefined parametersToOptimize params = .ok (isLeaf parametersToOptimize params) := by
  rw [allDefined, isLeaf]
  refine allM_isParameterDefined _ fun i hi => ?_
  rw [hp]
  exact hopt i (Std.ExtTreeSet.mem_toList.mp hi)

/-- What the loop over the work list has done: the entries to refine and to keep are
    split off in order, and the recorded value is the smallest of the old one and of
    the leaves that were not filtered. -/
structure PartitionSpec (boundCallback : BoundObjectiveFunction)
    (parametersToOptimize : Std.ExtTreeSet Nat)
    (lowestLowerBound lowestUpperBound staleBest : Nat) (l : List IntegerParameterVector)
    (p p' : Partition) : Prop where
  elementsToRefine : p'.elementsToRefine = p.elementsToRefine ++
    (l.filter (toRefine boundCallback parametersToOptimize lowestLowerBound lowestUpperBound
      staleBest)).map (entry boundCallback)
  newWorkList : p'.newWorkList = p.newWorkList ++
    (l.filter (toKeep boundCallback parametersToOptimize lowestLowerBound lowestUpperBound
      staleBest)).map (entry boundCallback)
  best_le : p'.bestObjectiveFunctionValue ≤ p.bestObjectiveFunctionValue
  best_cases : (p'.bestObjectiveFunctionValue = p.bestObjectiveFunctionValue ∧
      p'.bestParameters = p.bestParameters) ∨
    ∃ e ∈ l, isLeaf parametersToOptimize e = true ∧ p'.bestParameters = e ∧
      p'.bestObjectiveFunctionValue = (boundCallback e false).lowerBound
  best_le_leaf : ∀ e ∈ l, isLeaf parametersToOptimize e = true →
    shouldFilter lowestUpperBound staleBest (boundCallback e false) = false →
    p'.bestObjectiveFunctionValue ≤ (boundCallback e false).lowerBound

/-- One entry of the work list. -/
theorem partitionEntry_spec (boundCallback : BoundObjectiveFunction)
    (hopt : ∀ i ∈ parametersToOptimize, i < parameterRanges.length)
    (lowestLowerBound lowestUpperBound staleBest : Nat)
    (hp : params.length = parameterRanges.length) (p : Partition) :
    ∃ p', partitionEntry parametersToOptimize lowestLowerBound lowestUpperBound staleBest p
        (entry boundCallback params) = .ok p' ∧
      PartitionSpec boundCallback parametersToOptimize lowestLowerBound lowestUpperBound staleBest
        [params] p p' := by
  unfold partitionEntry
  simp only [entry, allDefined_eq hopt hp, ok_bind, pure_eq_ok]
  by_cases hf : shouldFilter lowestUpperBound staleBest (boundCallback params false) = true
  · rw [if_pos hf]
    refine ⟨p, rfl, ?_, ?_, Nat.le_refl _, .inl ⟨rfl, rfl⟩, ?_⟩
    · simp [toRefine, hf]
    · simp [toKeep, hf]
    · intro e he _ hnf
      rw [List.mem_singleton.mp he, hf] at hnf
      exact nomatch hnf
  · rw [if_neg hf]
    by_cases hl : isLeaf parametersToOptimize params = true
    · rw [if_pos hl]
      by_cases hlt : (boundCallback params false).lowerBound < p.bestObjectiveFunctionValue
      · rw [if_pos hlt]
        refine ⟨_, rfl, ?_, ?_, Nat.le_of_lt hlt, .inr ⟨params, by simp, hl, rfl, rfl⟩, ?_⟩
        · simp [toRefine, hl]
        · simp [toKeep, hl]
        · intro e he _ _
          rw [List.mem_singleton.mp he]
      · rw [if_neg hlt]
        refine ⟨p, rfl, ?_, ?_, Nat.le_refl _, .inl ⟨rfl, rfl⟩, ?_⟩
        · simp [toRefine, hl]
        · simp [toKeep, hl]
        · intro e he _ _
          rw [List.mem_singleton.mp he]
          exact Nat.not_lt.mp hlt
    · rw [if_neg hl]
      have hleaf : ∀ e ∈ [params], isLeaf parametersToOptimize e = true →
          shouldFilter lowestUpperBound staleBest (boundCallback e false) = false →
          p.bestObjectiveFunctionValue ≤ (boundCallback e false).lowerBound := by
        intro e he hle _
        rw [List.mem_singleton.mp he] at hle
        exact absurd hle hl
      rw [Bool.not_eq_true] at hf hl
      split_ifs with hx
      · refine ⟨_, rfl, ?_, ?_, Nat.le_refl _, .inl ⟨rfl, rfl⟩, hleaf⟩
        · simp [toRefine, hf, hl, hx]
        · simp [toKeep, hf, hl, hx]
      · rw [Bool.not_eq_true] at hx
        refine ⟨_, rfl, ?_, ?_, Nat.le_refl _, .inl ⟨rfl, rfl⟩, hleaf⟩
        · simp [toRefine, hf, hl, hx]
        · simp [toKeep, hf, hl, hx]

/-- The loop over the work list. -/
theorem foldlM_partitionEntry (boundCallback : BoundObjectiveFunction)
    (hopt : ∀ i ∈ parametersToOptimize, i < parameterRanges.length)
    (lowestLowerBound lowestUpperBound staleBest : Nat) (l : List IntegerParameterVector)
    (hl : ∀ e ∈ l, e.length = parameterRanges.length) (p : Partition) :
    ∃ p', (l.map (entry boundCallback)).foldlM (partitionEntry parametersToOptimize
        lowestLowerBound lowestUpperBound staleBest) p = .ok p' ∧
      PartitionSpec boundCallback parametersToOptimize lowestLowerBound lowestUpperBound staleBest
        l p p' := by
  induction l generalizing p with
  | nil => exact ⟨p, rfl, by simp, by simp, Nat.le_refl _, .inl ⟨rfl, rfl⟩, by simp⟩
  | cons e rest ih =>
      obtain ⟨p1, hok1, hs1⟩ := partitionEntry_spec boundCallback hopt
        lowestLowerBound lowestUpperBound staleBest (hl e List.mem_cons_self) p
      obtain ⟨p2, hok2, hs2⟩ := ih (fun x hx => hl x (List.mem_cons_of_mem _ hx)) p1
      refine ⟨p2, ?_, ?_, ?_, hs2.best_le.trans hs1.best_le, ?_, ?_⟩
      · rw [List.map_cons, List.foldlM_cons, hok1, ok_bind]
        exact hok2
      · rw [hs2.elementsToRefine, hs1.elementsToRefine, List.append_assoc, ← List.map_append,
          ← List.filter_append, List.singleton_append]
      · rw [hs2.newWorkList, hs1.newWorkList, List.append_assoc, ← List.map_append,
          ← List.filter_append, List.singleton_append]
      · rcases hs2.best_cases with ⟨hv, hpar⟩ | ⟨x, hx, hrest⟩
        · rcases hs1.best_cases with ⟨hv1, hpar1⟩ | ⟨x, hx, hleaf, hpar1, hv1⟩
          · exact .inl ⟨hv.trans hv1, hpar.trans hpar1⟩
          · rw [List.mem_singleton.mp hx] at hleaf hpar1 hv1
            exact .inr ⟨e, List.mem_cons_self, hleaf, hpar.trans hpar1, hv.trans hv1⟩
        · exact .inr ⟨x, List.mem_cons_of_mem _ hx, hrest⟩
      · intro x hx hleaf hnf
        rcases List.mem_cons.mp hx with rfl | hx
        · exact hs2.best_le.trans (hs1.best_le_leaf x (by simp) hleaf hnf)
        · exact hs2.best_le_leaf x hx hleaf hnf

theorem assert_true {c : Prop} [Decidable c] (h : c) : assert (decide c) = .ok () := by
  simp [assert, h]

/-- One value of the new parameter; no assertion fires when the new bounds are ordered
    and the lower bound does not loosen. -/
theorem refineValue_eq {i x : Nat} (hi : i < params.length)
    (ho : isOpen parametersToOptimize params i = true) (hx : x < parameterRanges.getD i 0)
    (hle : (boundCallback (params.set i (some x)) false).lowerBound ≤
      (boundCallback (params.set i (some x)) false).upperBound)
    (hge : (boundCallback params false).lowerBound ≤
      (boundCallback (params.set i (some x)) false).lowerBound)
    (result : List WorkListEntry × List Call) :
    refineValue parameterRanges boundCallback (entry boundCallback params) i result x =
      .ok (result.1 ++ [entry boundCallback (params.set i (some x))],
        result.2 ++ [(params.set i (some x), false)]) := by
  have hnone : (params.getD i none).isSome = false := by
    rw [isOpen, Bool.and_eq_true] at ho
    rw [Option.isSome_eq_false_iff]
    exact ho.1
  have hup := Nat.le_trans hge hle
  simp only [refineValue, setParameter, isParameterDefined_eq hi, hnone, assert_true hi,
    assert_true hx, assert_true hle, assert_true hge, assert_true hup, ok_bind, pure_eq_ok,
    ge_iff_le]
  rfl

/-- Refining an entry appends its children and records one call for each. -/
theorem refineCallback_eq (hopt : ∀ i ∈ parametersToOptimize, i < parameterRanges.length)
    (hB : Bounded (searchTree parameterRanges boundCallback parametersToOptimize)
      (Refines parameterRanges seed)) (hp : Refines parameterRanges seed params)
    (hleaf : ¬ (searchTree parameterRanges boundCallback parametersToOptimize).leaf params)
    (result : List WorkListEntry × List Call) :
    refineCallback parameterRanges boundCallback parametersToOptimize result
        (entry boundCallback params) =
      .ok (result.1 ++ (refinements parameterRanges parametersToOptimize params).map
            (entry boundCallback),
        result.2 ++ (refinements parameterRanges parametersToOptimize params).map (·, false)) := by
  obtain ⟨i, hok, hi, ho, hch⟩ := refinements_of_not_leaf hopt hp.length_eq hleaf
  have hi' : i < parameterRanges.length := hp.length_eq ▸ hi
  have hmem : ∀ x < parameterRanges.getD i 0, params.set i (some x) ∈
      refinements parameterRanges parametersToOptimize params := by
    intro x hx
    rw [hch]
    exact List.mem_map.mpr ⟨x, List.mem_range.mpr hx, rfl⟩
  -- The values defined so far are a prefix of the range
  have hfold : ∀ (l : List Nat), (∀ x ∈ l, x < parameterRanges.getD i 0) →
      ∀ result : List WorkListEntry × List Call,
      l.foldlM (refineValue parameterRanges boundCallback (entry boundCallback params) i) result =
        .ok (result.1 ++ l.map (fun x => entry boundCallback (params.set i (some x))),
          result.2 ++ l.map (fun x => (params.set i (some x), false))) := by
    intro l
    induction l with
    | nil => intro _ result; simp
    | cons x rest ih =>
        intro hl result
        have hx := hl x List.mem_cons_self
        have hq := hB.child_valid hp hleaf (hmem x hx)
        rw [List.foldlM_cons, refineValue_eq hi ho hx (hB.lower_le_upper hq)
          (hB.lower_child hp hleaf (hmem x hx)), ok_bind,
          ih fun y hy => hl y (List.mem_cons_of_mem _ hy)]
        simp
  simp only [refineCallback, hok, ok_bind, assert_true hi']
  rw [hfold _ (fun x hx => List.mem_range.mp hx), hch]
  simp [List.map_map, Function.comp_def]

/-- Refining the selected entries, in order. -/
theorem foldlM_refineCallback (hopt : ∀ i ∈ parametersToOptimize, i < parameterRanges.length)
    (hB : Bounded (searchTree parameterRanges boundCallback parametersToOptimize)
      (Refines parameterRanges seed)) (l : List IntegerParameterVector)
    (hl : ∀ e ∈ l, Refines parameterRanges seed e ∧
      ¬ (searchTree parameterRanges boundCallback parametersToOptimize).leaf e)
    (result : List WorkListEntry × List Call) :
    (l.map (entry boundCallback)).foldlM
        (refineCallback parameterRanges boundCallback parametersToOptimize) result =
      .ok (result.1 ++ (l.flatMap (refinements parameterRanges parametersToOptimize)).map
            (entry boundCallback),
        result.2 ++ (l.flatMap (refinements parameterRanges parametersToOptimize)).map
          (·, false)) := by
  induction l generalizing result with
  | nil => simp
  | cons e rest ih =>
      obtain ⟨hp, hleaf⟩ := hl e List.mem_cons_self
      rw [List.map_cons, List.foldlM_cons, refineCallback_eq hopt hB hp hleaf, ok_bind,
        ih fun x hx => hl x (List.mem_cons_of_mem _ hx)]
      simp

/-! ### Lowest bounds -/

theorem lowestBound_map (bound : ObjectiveFunctionBounds → Nat) (l : List IntegerParameterVector) :
    lowestBound bound (l.map (entry boundCallback)) =
      l.foldl (fun lowest e => min lowest (bound (boundCallback e false))) sizeMax := by
  rw [lowestBound, List.foldl_map]

theorem foldl_min_le {f : IntegerParameterVector → Nat} (l : List IntegerParameterVector)
    (m : Nat) : l.foldl (fun lowest e => min lowest (f e)) m ≤ m ∧
      ∀ e ∈ l, l.foldl (fun lowest e => min lowest (f e)) m ≤ f e := by
  induction l generalizing m with
  | nil => exact ⟨Nat.le_refl m, nofun⟩
  | cons e rest ih =>
      obtain ⟨hm, hrest⟩ := ih (min m (f e))
      rw [List.foldl_cons]
      refine ⟨hm.trans (Nat.min_le_left _ _), fun x hx => ?_⟩
      rcases List.mem_cons.mp hx with rfl | hx
      · exact hm.trans (Nat.min_le_right _ _)
      · exact hrest x hx

theorem foldl_min_attained {f : IntegerParameterVector → Nat} (l : List IntegerParameterVector)
    (m : Nat) : l.foldl (fun lowest e => min lowest (f e)) m = m ∨
      ∃ e ∈ l, f e = l.foldl (fun lowest e => min lowest (f e)) m := by
  induction l generalizing m with
  | nil => exact .inl rfl
  | cons e rest ih =>
      rw [List.foldl_cons]
      rcases ih (min m (f e)) with h | ⟨x, hx, h⟩
      · rw [h]
        rcases Nat.le_total m (f e) with hle | hle
        · exact .inl (Nat.min_eq_left hle)
        · exact .inr ⟨e, List.mem_cons_self, (Nat.min_eq_right hle).symm⟩
      · exact .inr ⟨x, List.mem_cons_of_mem _ hx, h⟩

end Iteration

end Kanagawa.Search
