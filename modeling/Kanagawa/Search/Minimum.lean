/-
  Kanagawa.Search.Minimum

  The integer minimizer finds a minimum.

  Each iteration is a round of branch and bound over the tree of parameter vectors,
  so the work list and the recorded vector always cover all completions of the
  seed, and each iteration lowers the weight of the work list.
-/
import Kanagawa.Search.Iteration

namespace Kanagawa.Search

open Lib.BranchAndBound Lib.Except

/-! ## Whole runs -/

/-- The vector defines no parameter but those of the seed and those to optimize. -/
def DefinesOnly (parametersToOptimize : Std.ExtTreeSet Nat) (seed params : IntegerParameterVector) :
    Prop :=
  ∀ i, (params.getD i none).isSome = true → (seed.getD i none).isSome = true ∨
    i ∈ parametersToOptimize

/-- What holds before every iteration, with `frontier` the vectors on the work list. -/
structure SearchInvariant (parameterRanges : List Nat) (boundCallback : BoundObjectiveFunction)
    (parametersToOptimize : Std.ExtTreeSet Nat) (seed : IntegerParameterVector)
    (frontier : List IntegerParameterVector) (s : SearchState) : Prop where
  workList_eq : s.workList = frontier.map (entry boundCallback)
  refines : ∀ e ∈ frontier, Refines parameterRanges seed e
  covers : ∀ c, Completion (searchTree parameterRanges boundCallback parametersToOptimize) seed c →
    Covers (searchTree parameterRanges boundCallback parametersToOptimize) frontier
      s.bestObjectiveFunctionValue c
  defines : ∀ e ∈ frontier, DefinesOnly parametersToOptimize seed e
  best : s.bestObjectiveFunctionValue = sizeMax ∨
    Refines parameterRanges seed s.bestParameters ∧
    DefinesOnly parametersToOptimize seed s.bestParameters ∧
    (searchTree parameterRanges boundCallback parametersToOptimize).leaf s.bestParameters ∧
    (boundCallback s.bestParameters false).lowerBound = s.bestObjectiveFunctionValue
  calls : ∀ call ∈ s.calls, call.2 = false

/-- The weight of the work list, which every iteration lowers. -/
def workListWeight (parameterRanges : List Nat) (parametersToOptimize : Std.ExtTreeSet Nat)
    (frontier : List IntegerParameterVector) : Nat :=
  (frontier.map (weight parameterRanges.sum (openCount parametersToOptimize))).sum

section Run

variable {parameterRanges : List Nat} {boundCallback : BoundObjectiveFunction}
  {parametersToOptimize : Std.ExtTreeSet Nat} {seed : IntegerParameterVector}
  (hopt : ∀ i ∈ parametersToOptimize, i < parameterRanges.length)
  (hB : Bounded (searchTree parameterRanges boundCallback parametersToOptimize)
    (Refines parameterRanges seed))
  (hlt : ∀ c, Refines parameterRanges seed c →
    (searchTree parameterRanges boundCallback parametersToOptimize).leaf c →
    (boundCallback c false).lowerBound < sizeMax)

include hB hlt in
/-- Every lower bound the search meets is below the maximum. -/
theorem lowerBound_lt_sizeMax {e : IntegerParameterVector} (he : Refines parameterRanges seed e) :
    (boundCallback e false).lowerBound < sizeMax := by
  obtain ⟨c, hc, -⟩ := hB.upper_attained he
  exact (hB.lower_le hc he).trans_lt (hlt c (hB.completion_valid hc he) hc.isLeaf)

include hopt in
/-- A refined vector weighs more than its children together. -/
theorem sum_weight_refinements_lt {e : IntegerParameterVector}
    (he : Refines parameterRanges seed e)
    (hleaf : ¬ (searchTree parameterRanges boundCallback parametersToOptimize).leaf e) :
    ((refinements parameterRanges parametersToOptimize e).map
        (weight parameterRanges.sum (openCount parametersToOptimize))).sum <
      weight parameterRanges.sum (openCount parametersToOptimize) e := by
  obtain ⟨i, -, hi, ho, hch⟩ := refinements_of_not_leaf hopt he.length_eq hleaf
  have hi' : i < parameterRanges.length := he.length_eq ▸ hi
  rw [hch]
  refine sum_weight_children_lt ?_ ?_
  · rw [List.length_map, List.length_range, List.getD_eq_getElem _ _ hi']
    exact List.single_le_sum (fun _ _ => Nat.zero_le _) _ (List.getElem_mem hi')
  · intro q hq
    obtain ⟨x, -, rfl⟩ := List.mem_map.mp hq
    exact openCount_set_lt hi ho x

include hopt in
/-- A refinement defines one more parameter to optimize. -/
theorem DefinesOnly.refinement {e q : IntegerParameterVector}
    (h : DefinesOnly parametersToOptimize seed e) (he : Refines parameterRanges seed e)
    (hleaf : ¬ (searchTree parameterRanges boundCallback parametersToOptimize).leaf e)
    (hq : q ∈ refinements parameterRanges parametersToOptimize e) :
    DefinesOnly parametersToOptimize seed q := by
  obtain ⟨i, -, hi, ho, hch⟩ := refinements_of_not_leaf hopt he.length_eq hleaf
  rw [hch] at hq
  obtain ⟨x, -, rfl⟩ := List.mem_map.mp hq
  intro j hj
  rw [getD_set e hi] at hj
  split_ifs at hj with hji
  · rw [isOpen, Bool.and_eq_true, Std.ExtTreeSet.contains_iff_mem] at ho
    exact .inr (hji ▸ ho.2)
  · exact h j hj

include hB hlt in
/-- A filtered entry is prunable: the captured bounds are those of the frontier. -/
theorem prunable_of_shouldFilter {frontier : List IntegerParameterVector} {best : Nat}
    (href : ∀ e ∈ frontier, Refines parameterRanges seed e) {e : IntegerParameterVector}
    (he : e ∈ frontier)
    (hf : shouldFilter (lowestBound (·.upperBound) (frontier.map (entry boundCallback))) best
      (boundCallback e false) = true) :
    Prunable (searchTree parameterRanges boundCallback parametersToOptimize) frontier best e := by
  rw [lowestBound_map, shouldFilter, Bool.or_eq_true, decide_eq_true_eq, decide_eq_true_eq] at hf
  rcases hf with hgt | hge
  · have hlow := lowerBound_lt_sizeMax hB hlt (href e he)
    rcases foldl_min_attained (f := fun e => (boundCallback e false).upperBound) frontier sizeMax
      with h | ⟨e', he', h⟩
    · omega
    · refine .inr ⟨e', he', ?_, fun e'' he'' => ?_⟩
      · show (boundCallback e' false).upperBound < (boundCallback e false).lowerBound
        omega
      · show (boundCallback e' false).upperBound ≤ (boundCallback e'' false).upperBound
        have := (foldl_min_le (f := fun e => (boundCallback e false).upperBound) frontier
          sizeMax).2 e'' he''
        omega
  · exact .inl hge

/-- The vectors an iteration adds to the work list. -/
def newVectors (parameterRanges : List Nat) (boundCallback : BoundObjectiveFunction)
    (parametersToOptimize : Std.ExtTreeSet Nat) (frontier : List IntegerParameterVector)
    (low up best : Nat) : List IntegerParameterVector :=
  (frontier.filter (toRefine boundCallback parametersToOptimize low up best)).flatMap
    (refinements parameterRanges parametersToOptimize)

/-- The vectors on the work list after an iteration. -/
def nextFrontier (parameterRanges : List Nat) (boundCallback : BoundObjectiveFunction)
    (parametersToOptimize : Std.ExtTreeSet Nat) (frontier : List IntegerParameterVector)
    (low up best : Nat) : List IntegerParameterVector :=
  frontier.filter (toKeep boundCallback parametersToOptimize low up best) ++
    newVectors parameterRanges boundCallback parametersToOptimize frontier low up best

theorem not_leaf_of_toRefine {low up best : Nat} {e : IntegerParameterVector}
    (h : toRefine boundCallback parametersToOptimize low up best e = true) :
    ¬ (searchTree parameterRanges boundCallback parametersToOptimize).leaf e := by
  rw [toRefine, Bool.and_eq_true, Bool.and_eq_true, Bool.not_eq_true', Bool.not_eq_true'] at h
  rw [← isLeaf_iff, h.1.2]
  exact Bool.false_ne_true

include hB hlt in
/-- An iteration is a round of the search tree. -/
theorem round_of_partition {frontier : List IntegerParameterVector} {best low : Nat}
    {p p' : Partition} (href : ∀ e ∈ frontier, Refines parameterRanges seed e)
    (hs : PartitionSpec boundCallback parametersToOptimize low
      (lowestBound (·.upperBound) (frontier.map (entry boundCallback))) best frontier p p')
    (hp : p.bestObjectiveFunctionValue = best) :
    Round (searchTree parameterRanges boundCallback parametersToOptimize) frontier best
      (nextFrontier parameterRanges boundCallback parametersToOptimize frontier low
        (lowestBound (·.upperBound) (frontier.map (entry boundCallback))) best)
      p'.bestObjectiveFunctionValue := by
  refine ⟨hp ▸ hs.best_le, fun e he => ?_⟩
  rcases hf : shouldFilter (lowestBound (·.upperBound) (frontier.map (entry boundCallback))) best
    (boundCallback e false) with _ | _
  · rcases hl : isLeaf parametersToOptimize e with _ | _
    · refine .inr (.inr ?_)
      rcases hx : (decide ((boundCallback e false).lowerBound = low) ||
        decide ((boundCallback e false).upperBound =
          lowestBound (·.upperBound) (frontier.map (entry boundCallback)))) with _ | _
      · refine .inl (List.mem_append_left _ (List.mem_filter.mpr ⟨he, ?_⟩))
        rw [toKeep, hf, hl, hx]
        rfl
      · have hr : toRefine boundCallback parametersToOptimize low
            (lowestBound (·.upperBound) (frontier.map (entry boundCallback))) best e = true := by
          rw [toRefine, hf, hl, hx]
          rfl
        refine .inr ⟨not_leaf_of_toRefine hr, fun q hq => List.mem_append_right _ ?_⟩
        exact List.mem_flatMap.mpr ⟨e, List.mem_filter.mpr ⟨he, hr⟩, hq⟩
    · exact .inr (.inl ⟨isLeaf_iff.mp hl, hs.best_le_leaf e he hl hf⟩)
  · exact .inl (prunable_of_shouldFilter hB hlt href he hf)

include hB hlt in
/-- The entry with the lowest lower bound never stays on the work list. -/
theorem exists_not_toKeep {frontier : List IntegerParameterVector} (up best : Nat)
    (href : ∀ e ∈ frontier, Refines parameterRanges seed e) (hne : frontier ≠ []) :
    ∃ e ∈ frontier, toKeep boundCallback parametersToOptimize
      (lowestBound (·.lowerBound) (frontier.map (entry boundCallback))) up best e = false := by
  obtain ⟨e, he⟩ := List.exists_mem_of_ne_nil frontier hne
  have hlow := lowerBound_lt_sizeMax hB hlt (href e he)
  rw [lowestBound_map]
  have hle := (foldl_min_le (f := fun e => (boundCallback e false).lowerBound) frontier
    sizeMax).2 e he
  rcases foldl_min_attained (f := fun e => (boundCallback e false).lowerBound) frontier sizeMax
    with h | ⟨x, hx, h⟩
  · omega
  · refine ⟨x, hx, ?_⟩
    simp only [toKeep, h, decide_true, Bool.true_or, Bool.not_true, Bool.and_false]

include hopt hB hlt in
theorem workListWeight_nextFrontier_lt {frontier : List IntegerParameterVector} (up best : Nat)
    (href : ∀ e ∈ frontier, Refines parameterRanges seed e) (hne : frontier ≠ []) :
    workListWeight parameterRanges parametersToOptimize
        (nextFrontier parameterRanges boundCallback parametersToOptimize frontier
          (lowestBound (·.lowerBound) (frontier.map (entry boundCallback))) up best) <
      workListWeight parameterRanges parametersToOptimize frontier := by
  refine sum_weight_round_lt _ _ ?_ ?_ (weight_pos _ _) (exists_not_toKeep hB hlt up best href hne)
  · intro e _ hk
    rw [toKeep, Bool.and_eq_true, Bool.not_eq_true'] at hk
    rw [toRefine, hk.2, Bool.and_false]
  · intro e he hr
    have hleaf : ¬ (searchTree parameterRanges boundCallback parametersToOptimize).leaf e :=
      not_leaf_of_toRefine hr
    exact sum_weight_refinements_lt hopt (href e he) hleaf

include hopt hB hlt in
/-- An iteration on a work list that is not empty succeeds, keeps the invariant and
    lowers the weight. -/
theorem iteration_spec {frontier : List IntegerParameterVector} {s : SearchState}
    (hI : SearchInvariant parameterRanges boundCallback parametersToOptimize seed frontier s)
    (hne : frontier ≠ []) :
    ∃ frontier' s', iteration parameterRanges boundCallback parametersToOptimize s = .ok s' ∧
      SearchInvariant parameterRanges boundCallback parametersToOptimize seed frontier' s' ∧
      workListWeight parameterRanges parametersToOptimize frontier' <
        workListWeight parameterRanges parametersToOptimize frontier := by
  obtain ⟨p, hok, hs⟩ := foldlM_partitionEntry boundCallback hopt
    (lowestBound (·.lowerBound) s.workList) (lowestBound (·.upperBound) s.workList)
    s.bestObjectiveFunctionValue frontier (fun e he => (hI.refines e he).length_eq)
    ⟨s.bestObjectiveFunctionValue, s.bestParameters, [], []⟩
  rw [hI.workList_eq] at hok hs
  have hround := round_of_partition hB hlt hI.refines hs rfl
  have hweight := workListWeight_nextFrontier_lt hopt hB hlt
    (lowestBound (·.upperBound) (frontier.map (entry boundCallback)))
    s.bestObjectiveFunctionValue hI.refines hne
  have hnew := hs.newWorkList
  have hel := hs.elementsToRefine
  have hiter : iteration parameterRanges boundCallback parametersToOptimize s = .ok
      ⟨p.newWorkList ++ (newVectors parameterRanges boundCallback parametersToOptimize frontier
          (lowestBound (·.lowerBound) (frontier.map (entry boundCallback)))
          (lowestBound (·.upperBound) (frontier.map (entry boundCallback)))
          s.bestObjectiveFunctionValue).map (entry boundCallback),
        p.bestObjectiveFunctionValue, p.bestParameters,
        s.calls ++ (newVectors parameterRanges boundCallback parametersToOptimize frontier
          (lowestBound (·.lowerBound) (frontier.map (entry boundCallback)))
          (lowestBound (·.upperBound) (frontier.map (entry boundCallback)))
          s.bestObjectiveFunctionValue).map (·, false)⟩ := by
    simp only [iteration, hI.workList_eq, hok, ok_bind, hel, List.nil_append]
    rw [foldlM_refineCallback hopt hB _ fun e he => ⟨hI.refines e (List.mem_filter.mp he).1,
      not_leaf_of_toRefine (List.mem_filter.mp he).2⟩]
    rfl
  rw [List.nil_append] at hnew
  refine ⟨_, _, hiter, ⟨?_, ?_, fun c hc => hround.covers hB hI.refines (hI.covers c hc), ?_, ?_,
    ?_⟩, hweight⟩
  · rw [hnew, nextFrontier, List.map_append]
  · intro e he
    rcases List.mem_append.mp he with he | he
    · exact hI.refines e (List.mem_filter.mp he).1
    · obtain ⟨b, hb, hq⟩ := List.mem_flatMap.mp he
      obtain ⟨hbmem, hr⟩ := List.mem_filter.mp hb
      exact hB.child_valid (hI.refines b hbmem) (not_leaf_of_toRefine hr) hq
  · intro e he
    rcases List.mem_append.mp he with he | he
    · exact hI.defines e (List.mem_filter.mp he).1
    · obtain ⟨b, hb, hq⟩ := List.mem_flatMap.mp he
      obtain ⟨hbmem, hr⟩ := List.mem_filter.mp hb
      exact (hI.defines b hbmem).refinement hopt (hI.refines b hbmem)
        (not_leaf_of_toRefine hr : ¬ (searchTree parameterRanges boundCallback _).leaf b) hq
  · rcases hs.best_cases with ⟨hv, hpar⟩ | ⟨e, he, hleaf, hpar, hv⟩
    · rw [hv, hpar]
      exact hI.best
    · rw [hv, hpar]
      exact .inr ⟨hI.refines e he, hI.defines e he, isLeaf_iff.mp hleaf, rfl⟩
  · intro call hcall
    rcases List.mem_append.mp hcall with hcall | hcall
    · exact hI.calls call hcall
    · obtain ⟨q, -, rfl⟩ := List.mem_map.mp hcall
      rfl

/-- The loop is left at once when the work list is empty. -/
theorem searchLoop_of_empty (maxWorkListSize : Option Nat) (fuel : Nat) {s : SearchState}
    (hs : s.workList = []) :
    searchLoop parameterRanges boundCallback parametersToOptimize maxWorkListSize fuel s =
      .ok (.workListEmpty s) := by
  rw [searchLoop.eq_def]
  simp [hs]

include hopt hB hlt in
/-- The loop ends, with an empty work list or because of the size limit, and the
    invariant holds where it ends. -/
theorem searchLoop_spec (maxWorkListSize : Option Nat) (frontier : List IntegerParameterVector)
    (s : SearchState)
    (hI : SearchInvariant parameterRanges boundCallback parametersToOptimize seed frontier s) :
    ∃ n frontier' s',
      SearchInvariant parameterRanges boundCallback parametersToOptimize seed frontier' s' ∧
      ((frontier' = [] ∧ ∀ fuel ≥ n, searchLoop parameterRanges boundCallback
          parametersToOptimize maxWorkListSize fuel s = .ok (.workListEmpty s')) ∨
        ((maxWorkListSize.isSome ∧ 1 < parametersToOptimize.size) ∧
          ∀ fuel ≥ n, searchLoop parameterRanges boundCallback
            parametersToOptimize maxWorkListSize fuel s = .ok (.workListTooLarge s'))) := by
  -- Induction on the weight of the work list
  induction hw : workListWeight parameterRanges parametersToOptimize frontier
    using Nat.strong_induction_on generalizing frontier s with
  | _ w ih =>
      by_cases hne : frontier = []
      · subst hne
        exact ⟨0, [], s, hI, .inl ⟨rfl, fun fuel _ => searchLoop_of_empty _ _ hI.workList_eq⟩⟩
      have hempty : s.workList.isEmpty = false := by
        rw [hI.workList_eq, List.isEmpty_eq_false_iff]
        exact fun h => hne (List.map_eq_nil_iff.mp h)
      by_cases hlarge : ((maxWorkListSize.any fun size => s.workList.length > size) &&
          decide (parametersToOptimize.size > 1)) = true
      · have hsome : maxWorkListSize.isSome := by
          rcases maxWorkListSize with _ | _
          · exact nomatch hlarge
          · rfl
        have hsize : 1 < parametersToOptimize.size :=
          of_decide_eq_true (Bool.and_eq_true _ _ ▸ hlarge).2
        refine ⟨0, frontier, s, hI, .inr ⟨⟨hsome, hsize⟩, fun fuel _ => ?_⟩⟩
        rw [searchLoop.eq_def]
        simp only [hempty, Bool.false_eq_true, if_false, hlarge, if_true, pure_eq_ok]
      · obtain ⟨frontier1, s1, hok, hI1, hlt1⟩ := iteration_spec hopt hB hlt hI hne
        obtain ⟨n, frontier', s', hI', hend⟩ := ih _ (hw ▸ hlt1) frontier1 s1 hI1 rfl
        have hstep : ∀ fuel, searchLoop parameterRanges boundCallback parametersToOptimize
            maxWorkListSize (fuel + 1) s = searchLoop parameterRanges boundCallback
            parametersToOptimize maxWorkListSize fuel s1 := by
          intro fuel
          rw [searchLoop.eq_def]
          simp only [hempty, Bool.false_eq_true, if_false, hlarge, hok, ok_bind]
        refine ⟨n + 1, frontier', s', hI', ?_⟩
        refine hend.imp (fun h => ⟨h.1, fun fuel hf => ?_⟩) (fun h => ⟨h.1, fun fuel hf => ?_⟩) <;>
          obtain ⟨k, rfl⟩ := Nat.exists_eq_add_of_le hf
        · rw [show n + 1 + k = n + k + 1 by omega, hstep]
          exact h.2 _ (by omega)
        · rw [show n + 1 + k = n + k + 1 by omega, hstep]
          exact h.2 _ (by omega)

include hopt hB hlt in
/-- `IntegerBranchAndBoundImpl` ends: it passes a completion of the seed with the
    smallest bound of all completions to its only call with `isOptimalPoint` set, or
    the work list got too large for several parameters and it makes no such call. -/
theorem integerBranchAndBoundImpl_spec (hne : parameterRanges ≠ [])
    (hpos : ∀ r ∈ parameterRanges, 0 < r) (hS : parametersToOptimize.isEmpty = false)
    (maxWorkListSize : Option Nat) {fixedParameterValues : Std.ExtTreeMap Nat Nat}
    (hseed : seedParameters parameterRanges fixedParameterValues = .ok seed)
    (hrefines : Refines parameterRanges seed seed)
    (hfixed : ∀ p ∈ fixedParameterValues.toList, seed.getD p.1 none = some p.2) :
    ∃ n calls, (∀ call ∈ calls, call.2 = false) ∧
      ((∃ best, Refines parameterRanges seed best ∧
          DefinesOnly parametersToOptimize seed best ∧
          (searchTree parameterRanges boundCallback parametersToOptimize).leaf best ∧
          (∀ c, Completion (searchTree parameterRanges boundCallback parametersToOptimize) seed c →
            (boundCallback best false).lowerBound ≤ (boundCallback c false).lowerBound) ∧
          ∀ fuel ≥ n, integerBranchAndBoundImpl fuel parameterRanges boundCallback
            parametersToOptimize maxWorkListSize fixedParameterValues =
              .ok (some (true, calls ++ [(best, true)]))) ∨
        ((maxWorkListSize.isSome ∧ 1 < parametersToOptimize.size) ∧
          ∀ fuel ≥ n, integerBranchAndBoundImpl fuel parameterRanges
            boundCallback parametersToOptimize maxWorkListSize fixedParameterValues =
              .ok (some (false, calls)))) := by
  have hI : SearchInvariant parameterRanges boundCallback parametersToOptimize seed [seed]
      ⟨[⟨seed, boundCallback seed false⟩], sizeMax, [], [(seed, false)]⟩ := by
    refine ⟨rfl, ?_, fun c hc => .inr ⟨seed, by simp, c, hc, Nat.le_refl _⟩, ?_, .inl rfl, by simp⟩
    · intro e he
      rw [List.mem_singleton.mp he]
      exact hrefines
    · intro e he
      rw [List.mem_singleton.mp he]
      exact fun i hi => .inl hi
  have hlen : parameterRanges.length ≠ 0 := fun h => hne (List.length_eq_zero_iff.mp h)
  have hranges : parameterRanges.forM (fun range => assert (decide (0 < range))) = .ok () :=
    forM_eq_ok fun r hr => assert_true (hpos r hr)
  obtain ⟨n, frontier', s', hI', hend⟩ := searchLoop_spec hopt hB hlt maxWorkListSize _ _ hI
  refine ⟨n, s'.calls, hI'.calls, ?_⟩
  refine hend.imp ?_ ?_
  · rintro ⟨rfl, hloop⟩
    obtain ⟨c, hc, -⟩ := hB.upper_attained hrefines
    have hcover := (hI'.covers c hc).best_le
    have hclt := hlt c (hB.completion_valid hc hrefines) hc.isLeaf
    rcases hI'.best with hmax | ⟨href, honly, hleaf, hval⟩
    · -- Nothing recorded: but the seed has a completion
      rw [hmax] at hcover
      exact absurd hcover (Nat.not_le.mpr hclt)
    · refine ⟨s'.bestParameters, href, honly, hleaf, ?_, fun fuel hf => ?_⟩
      · intro c hc
        rw [hval]
        exact (hI'.covers c hc).best_le
      · have hvalne : s'.bestObjectiveFunctionValue ≠ sizeMax := by
          have := hlt _ href hleaf
          omega
        have hdefined : (parametersToOptimize.toList.forM fun paramIndex => do
            assert (← isParameterDefined s'.bestParameters paramIndex)) = .ok () := by
          refine forM_eq_ok fun i hi => ?_
          have hi' := Std.ExtTreeSet.mem_toList.mp hi
          rw [isParameterDefined_eq (href.length_eq ▸ hopt i hi'), ok_bind, hleaf i hi']
          rfl
        have hfixed' : (fixedParameterValues.toList.forM fun p => do
            assert ((← getParameter s'.bestParameters p.1) = p.2)) = .ok () := by
          refine forM_eq_ok fun p hp => ?_
          rw [getParameter, href.extends_seed (hfixed p hp)]
          exact assert_true rfl
        simp only [integerBranchAndBoundImpl, assert_true hlen, hS, hranges, hseed, hloop fuel hf,
          hdefined, hfixed', assert_true hvalne, ok_bind, pure_eq_ok]
        rfl
  · rintro ⟨hsome, hloop⟩
    refine ⟨hsome, fun fuel hf => ?_⟩
    simp only [integerBranchAndBoundImpl, assert_true hlen, hS, hranges, hseed, hloop fuel hf,
      ok_bind, pure_eq_ok]
    rfl

end Run

/-! ## Minimizing an objective -/

/-- A value for every parameter. -/
structure IsAssignment (parameterRanges : List Nat) (a : List Nat) : Prop where
  length_eq : a.length = parameterRanges.length
  inRange : ∀ i < parameterRanges.length, a.getD i 0 < parameterRanges.getD i 0

/-- A vector of the right length whose values are in range. -/
structure IsPartial (parameterRanges : List Nat) (params : IntegerParameterVector) : Prop where
  length_eq : params.length = parameterRanges.length
  inRange : ∀ {i x}, params.getD i none = some x → x < parameterRanges.getD i 0

/-- The full assignments that agree with a vector. -/
def completions (parameterRanges : List Nat) (params : IntegerParameterVector) : Set (List Nat) :=
  {a | IsAssignment parameterRanges a ∧ ∀ i x, params.getD i none = some x → a.getD i 0 = x}

/-- What `branch_and_bound.h` asks of the callback: on every partial assignment the
    bounds enclose the minimum over its completions, on full assignments they are
    equal, the lower bound never loosens under refinement, and the objective stays
    below the largest `size_t`. -/
structure BoundContract (parameterRanges : List Nat) (objective : List Nat → Nat)
    (boundCallback : BoundObjectiveFunction) : Prop where
  encloses : ∀ {params m}, IsPartial parameterRanges params →
    IsLeast (objective '' completions parameterRanges params) m →
    (boundCallback params false).lowerBound ≤ m ∧ m ≤ (boundCallback params false).upperBound
  exact_of_full : ∀ {a}, IsAssignment parameterRanges a →
    (boundCallback (a.map some) false).lowerBound = (boundCallback (a.map some) false).upperBound
  tightens : ∀ {p q}, IsPartial parameterRanges p → IsPartial parameterRanges q →
    (∀ i x, p.getD i none = some x → q.getD i none = some x) →
    (boundCallback p false).lowerBound ≤ (boundCallback q false).lowerBound
  objective_lt : ∀ {a}, IsAssignment parameterRanges a → objective a < sizeMax

section Minimize

variable {parameterRanges : List Nat} {boundCallback : BoundObjectiveFunction}
  {objective : List Nat → Nat}

/-- The parameters `IntegerBranchAndBound` optimizes: all of them. -/
theorem mem_allParameters {i : Nat} :
    i ∈ Std.ExtTreeSet.ofList (List.range parameterRanges.length) ↔ i < parameterRanges.length := by
  rw [← Std.ExtTreeSet.contains_iff_mem, Std.ExtTreeSet.contains_ofList, List.contains_iff_mem,
    List.mem_range]

/-- The vector with no parameter defined. -/
def undefinedVector (parameterRanges : List Nat) : IntegerParameterVector :=
  List.replicate parameterRanges.length none

theorem undefinedVector_getD (i : Nat) : (undefinedVector parameterRanges).getD i none = none := by
  rw [undefinedVector, List.getD_eq_getElem?_getD, List.getElem?_replicate]
  split_ifs <;> rfl

theorem refines_undefinedVector_iff {params : IntegerParameterVector} :
    Refines parameterRanges (undefinedVector parameterRanges) params ↔
      IsPartial parameterRanges params := by
  refine ⟨fun h => ⟨h.length_eq, h.inRange⟩, fun h => ⟨h.length_eq, h.inRange, ?_⟩⟩
  intro i x hx
  rw [undefinedVector_getD] at hx
  exact nomatch hx

theorem getD_map_some {a : List Nat} {i : Nat} (h : i < a.length) :
    (a.map some).getD i none = some (a.getD i 0) := by
  rw [List.getD_eq_getElem _ _ (by simpa using h), List.getD_eq_getElem _ _ h, List.getElem_map]

theorem IsAssignment.isPartial {a : List Nat} (h : IsAssignment parameterRanges a) :
    IsPartial parameterRanges (a.map some) := by
  refine ⟨by rw [List.length_map, h.length_eq], ?_⟩
  intro i x hx
  by_cases hi : i < a.length
  · rw [getD_map_some hi, Option.some.injEq] at hx
    rw [← hx]
    exact h.inRange i (h.length_eq ▸ hi)
  · rw [List.getD_eq_default _ _ (by simpa using hi)] at hx
    exact nomatch hx

/-- A vector with all parameters defined is a full assignment. -/
theorem IsPartial.eq_map_some {params : IntegerParameterVector}
    (h : IsPartial parameterRanges params)
    (hall : ∀ i < parameterRanges.length, (params.getD i none).isSome = true) :
    ∃ a, IsAssignment parameterRanges a ∧ params = a.map some := by
  have hval : ∀ i < parameterRanges.length,
      params.getD i none = some ((params.map (·.getD 0)).getD i 0) := by
    intro i hi
    have hi' : i < params.length := h.length_eq ▸ hi
    obtain ⟨x, hx⟩ := Option.isSome_iff_exists.mp (hall i hi)
    rw [hx, List.getD_eq_getElem _ _ (by simpa using hi'), List.getElem_map]
    rw [List.getD_eq_getElem _ _ hi'] at hx
    rw [hx]
    rfl
  refine ⟨params.map (·.getD 0), ⟨by rw [List.length_map, h.length_eq], ?_⟩, ?_⟩
  · intro i hi
    exact h.inRange (hval i hi)
  · refine List.ext_getElem (by simp) fun i hi _ => ?_
    have hi' : i < parameterRanges.length := h.length_eq ▸ hi
    have hv := hval i hi'
    rw [List.getD_eq_getElem _ _ hi] at hv
    rw [hv, List.getElem_map, List.getD_eq_getElem _ _ (by simpa using hi)]

/-- The search tree of `IntegerBranchAndBound`. -/
abbrev fullTree (parameterRanges : List Nat) (boundCallback : BoundObjectiveFunction) :
    BranchTree IntegerParameterVector :=
  searchTree parameterRanges boundCallback
    (Std.ExtTreeSet.ofList (List.range parameterRanges.length))

theorem fullTree_leaf_iff {params : IntegerParameterVector} :
    (fullTree parameterRanges boundCallback).leaf params ↔
      ∀ i < parameterRanges.length, (params.getD i none).isSome = true :=
  ⟨fun h i hi => h i (mem_allParameters.mpr hi), fun h i hi => h i (mem_allParameters.mp hi)⟩

section Tree

variable {parametersToOptimize : Std.ExtTreeSet Nat}
  (hopt : ∀ i ∈ parametersToOptimize, i < parameterRanges.length)
include hopt

/-- A child of a partial assignment is one, and defines one more parameter. -/
theorem IsPartial.child {params q : IntegerParameterVector} (h : IsPartial parameterRanges params)
    (hleaf : ¬ (searchTree parameterRanges boundCallback parametersToOptimize).leaf params)
    (hq : q ∈ (searchTree parameterRanges boundCallback parametersToOptimize).children params) :
    IsPartial parameterRanges q ∧
      ∀ i x, params.getD i none = some x → q.getD i none = some x := by
  obtain ⟨i, -, hi, ho, hch⟩ := refinements_of_not_leaf hopt h.length_eq hleaf
  obtain ⟨x, hx, rfl⟩ : ∃ x ∈ List.range (parameterRanges.getD i 0), params.set i (some x) = q := by
    rw [show (searchTree parameterRanges boundCallback parametersToOptimize).children params = _
      from hch] at hq
    exact List.mem_map.mp hq
  -- Seen as a refinement of the vector itself, the child extends it
  have hself : Refines parameterRanges params params := ⟨h.length_eq, h.inRange, id⟩
  have hset := hself.set hi ho (List.mem_range.mp hx)
  exact ⟨⟨hset.length_eq, hset.inRange⟩, fun j y => hset.extends_seed⟩

/-- Every leaf that extends a vector by values for parameters to optimize is a leaf
    below it. -/
theorem completion_of_extends {c : IntegerParameterVector} (hc : IsPartial parameterRanges c)
    (hcleaf : (searchTree parameterRanges boundCallback parametersToOptimize).leaf c) (n : Nat) :
    ∀ params : IntegerParameterVector, IsPartial parameterRanges params →
      (∀ i x, params.getD i none = some x → c.getD i none = some x) →
      DefinesOnly parametersToOptimize params c →
      openCount parametersToOptimize params = n →
      Completion (searchTree parameterRanges boundCallback parametersToOptimize) params c := by
  induction n using Nat.strong_induction_on with
  | _ n ih =>
      intro params h hext honly hn
      by_cases hleaf : (searchTree parameterRanges boundCallback parametersToOptimize).leaf params
      · -- A leaf already has all the values of the one below it
        have heq : params = c := by
          refine List.ext_getElem (by rw [h.length_eq, hc.length_eq]) fun i hi hi' => ?_
          rw [← List.getD_eq_getElem _ none hi, ← List.getD_eq_getElem _ none hi']
          rcases hx : params.getD i none with _ | x
          · rcases hy : c.getD i none with _ | y
            · rfl
            · have hsome : (params.getD i none).isSome = true :=
                (honly i (by rw [hy]; rfl)).elim id (hleaf i)
              rw [hx] at hsome
              exact nomatch hsome
          · rw [hext i x hx]
        exact heq ▸ .leaf hleaf
      · obtain ⟨i, -, hi, ho, hch⟩ := refinements_of_not_leaf hopt h.length_eq hleaf
        have hmem : i ∈ parametersToOptimize := by
          rw [isOpen, Bool.and_eq_true, Std.ExtTreeSet.contains_iff_mem] at ho
          exact ho.2
        obtain ⟨y, hy⟩ := Option.isSome_iff_exists.mp (hcleaf i hmem)
        have hq : params.set i (some y) ∈
            (searchTree parameterRanges boundCallback parametersToOptimize).children params := by
          rw [show (searchTree parameterRanges boundCallback parametersToOptimize).children params
            = _ from hch]
          exact List.mem_map.mpr ⟨y, List.mem_range.mpr (hc.inRange hy), rfl⟩
        refine .child hleaf hq (ih _ (hn ▸ openCount_set_lt hi ho _) _ (h.child hopt hleaf hq).1 ?_
          ?_ rfl)
        · intro j x hj
          rw [getD_set params hi] at hj
          split_ifs at hj with hji
          · rw [hji, hy]
            exact hj
          · exact hext j x hj
        · intro j hj
          rcases honly j hj with h1 | h1
          · obtain ⟨x, hx⟩ := Option.isSome_iff_exists.mp h1
            exact .inl (by rw [(h.child hopt hleaf hq).2 j x hx]; rfl)
          · exact .inr h1

end Tree

/-- Every full assignment that agrees with a vector is a leaf below it. -/
theorem completion_of_mem_completions {a : List Nat} {params : IntegerParameterVector}
    (h : IsPartial parameterRanges params) (ha : a ∈ completions parameterRanges params) :
    Completion (fullTree parameterRanges boundCallback) params (a.map some) := by
  obtain ⟨hassign, hagree⟩ := ha
  have hdef : ∀ i < parameterRanges.length, (a.map some).getD i none = some (a.getD i 0) :=
    fun i hi => getD_map_some (hassign.length_eq ▸ hi)
  refine completion_of_extends (fun i hi => mem_allParameters.mp hi) hassign.isPartial
    (fullTree_leaf_iff.mpr fun i hi => by rw [hdef i hi]; rfl) _ params h ?_ ?_ rfl
  · intro i x hx
    have hi : i < parameterRanges.length := by
      by_contra hn
      rw [List.getD_eq_default _ _ (by rw [h.length_eq]; omega)] at hx
      exact nomatch hx
    rw [hdef i hi, hagree i x hx]
  · intro i hi
    refine .inr (mem_allParameters.mpr ?_)
    by_contra hn
    rw [List.getD_eq_default _ _ (by rw [List.length_map, hassign.length_eq]; omega)] at hi
    exact nomatch hi

/-- A partial assignment has a best completion. -/
theorem exists_isLeast_completions (hpos : ∀ r ∈ parameterRanges, 0 < r)
    (objective : List Nat → Nat) {params : IntegerParameterVector}
    (h : IsPartial parameterRanges params) :
    ∃ m, IsLeast (objective '' completions parameterRanges params) m := by
  have hmem : params.map (·.getD 0) ∈ completions parameterRanges params := by
    refine ⟨⟨by rw [List.length_map, h.length_eq], fun i hi => ?_⟩, fun i x hx => ?_⟩
    · have hi' : i < params.length := h.length_eq ▸ hi
      rw [List.getD_eq_getElem _ _ (by simpa using hi'), List.getElem_map]
      rcases hx : params[i] with _ | x
      · rw [List.getD_eq_getElem _ _ hi]
        exact hpos _ (List.getElem_mem hi)
      · exact h.inRange (by rw [List.getD_eq_getElem _ _ hi', hx]; rfl)
    · by_cases hi : i < params.length
      · rw [List.getD_eq_getElem _ _ hi] at hx
        rw [List.getD_eq_getElem _ _ (by simpa using hi), List.getElem_map, hx]
        rfl
      · rw [List.getD_eq_default _ _ (by omega)] at hx
        exact nomatch hx
  classical
  have hne : ∃ m, m ∈ objective '' completions parameterRanges params := ⟨_, _, hmem, rfl⟩
  exact ⟨Nat.find hne, Nat.find_spec hne, fun m hm => Nat.find_min' hne hm⟩

/-- On a full assignment both bounds are the objective. -/
theorem BoundContract.lowerBound_eq (hC : BoundContract parameterRanges objective boundCallback)
    {a : List Nat} (ha : IsAssignment parameterRanges a) :
    (boundCallback (a.map some) false).lowerBound = objective a := by
  have hself : a ∈ completions parameterRanges (a.map some) := by
    refine ⟨ha, fun i x hx => ?_⟩
    by_cases hi : i < a.length
    · rw [getD_map_some hi] at hx
      exact Option.some.inj hx
    · rw [List.getD_eq_default _ _ (by simpa using hi)] at hx
      exact nomatch hx
  have honly : ∀ b ∈ completions parameterRanges (a.map some), b = a := by
    rintro b ⟨hb, hagree⟩
    refine List.ext_getElem (by rw [hb.length_eq, ha.length_eq]) fun i hi hi' => ?_
    have := hagree i _ (getD_map_some hi')
    rwa [List.getD_eq_getElem _ _ hi, List.getD_eq_getElem _ _ hi'] at this
  have hleast : IsLeast (objective '' completions parameterRanges (a.map some)) (objective a) := by
    refine ⟨⟨a, hself, rfl⟩, ?_⟩
    rintro _ ⟨b, hb, rfl⟩
    rw [honly b hb]
  obtain ⟨hlow, hup⟩ := hC.encloses ha.isPartial hleast
  have := hC.exact_of_full ha
  omega

/-- The vector with the values of `a` for the parameters to optimize it leaves open. -/
def fillIn (parametersToOptimize : Std.ExtTreeSet Nat) (params : IntegerParameterVector)
    (a : List Nat) : IntegerParameterVector :=
  (List.range params.length).map fun i =>
    if isOpen parametersToOptimize params i then some (a.getD i 0) else params.getD i none

theorem getD_fillIn {parametersToOptimize : Std.ExtTreeSet Nat} {params : IntegerParameterVector}
    {i : Nat} (hi : i < params.length) (a : List Nat) :
    (fillIn parametersToOptimize params a).getD i none =
      if isOpen parametersToOptimize params i then some (a.getD i 0) else params.getD i none := by
  rw [fillIn, List.getD_eq_getElem _ _ (by simpa using hi), List.getElem_map, List.getElem_range]

/-- The contract makes the bounds sound on the tree of any set of parameters: the best
    completion of a vector lies below a leaf, whose lower bound does not exceed it. -/
theorem BoundContract.bounded (hC : BoundContract parameterRanges objective boundCallback)
    (hpos : ∀ r ∈ parameterRanges, 0 < r) {parametersToOptimize : Std.ExtTreeSet Nat}
    (hopt : ∀ i ∈ parametersToOptimize, i < parameterRanges.length)
    (seed : IntegerParameterVector) :
    Bounded (searchTree parameterRanges boundCallback parametersToOptimize)
      (Refines parameterRanges seed) := by
  refine ⟨fun hp hleaf hq => ?_, fun hp hleaf hq => ?_, fun {p} hp => ?_⟩
  · obtain ⟨hq', hext⟩ := IsPartial.child hopt ⟨hp.length_eq, hp.inRange⟩ hleaf hq
    exact ⟨hq'.length_eq, hq'.inRange, fun h => hext _ _ (hp.extends_seed h)⟩
  · have hp' : IsPartial parameterRanges _ := ⟨hp.length_eq, hp.inRange⟩
    obtain ⟨hq', hext⟩ := hp'.child hopt hleaf hq
    exact hC.tightens hp' hq' hext
  · have hp' : IsPartial parameterRanges p := ⟨hp.length_eq, hp.inRange⟩
    obtain ⟨m, hm⟩ := exists_isLeast_completions hpos objective hp'
    obtain ⟨a, ha, hma⟩ := hm.1
    have hget : ∀ i < p.length, (fillIn parametersToOptimize p a).getD i none =
        if isOpen parametersToOptimize p i then some (a.getD i 0) else p.getD i none :=
      fun i hi => getD_fillIn hi a
    have hlen : (fillIn parametersToOptimize p a).length = p.length := by simp [fillIn]
    have hdefined : ∀ {i x}, (fillIn parametersToOptimize p a).getD i none = some x →
        i < p.length := by
      intro i x hx
      by_contra hn
      rw [List.getD_eq_default _ _ (by omega)] at hx
      exact nomatch hx
    have hc : IsPartial parameterRanges (fillIn parametersToOptimize p a) := by
      refine ⟨hlen.trans hp.length_eq, fun {i x} hx => ?_⟩
      have hi := hdefined hx
      rw [hget i hi] at hx
      split_ifs at hx
      · exact Option.some.inj hx ▸ ha.1.inRange i (hp.length_eq ▸ hi)
      · exact hp.inRange hx
    refine ⟨fillIn parametersToOptimize p a,
      completion_of_extends hopt hc ?_ _ p hp' ?_ ?_ rfl, ?_⟩
    · intro i hi
      rw [hget i (hp.length_eq ▸ hopt i hi)]
      split_ifs with ho
      · rfl
      · rw [isOpen, Std.ExtTreeSet.contains_iff_mem.mpr hi, Bool.and_true,
          Bool.not_eq_true, Option.isNone_eq_false_iff] at ho
        exact ho
    · intro i x hx
      have hi : i < p.length := by
        by_contra hn
        rw [List.getD_eq_default _ _ (by omega)] at hx
        exact nomatch hx
      rw [hget i hi, if_neg, hx]
      rw [isOpen, hx]
      exact Bool.false_ne_true
    · intro i hi
      obtain ⟨x, hx⟩ := Option.isSome_iff_exists.mp hi
      rw [hget i (hdefined hx)] at hx
      split_ifs at hx with ho
      · rw [isOpen, Bool.and_eq_true, Std.ExtTreeSet.contains_iff_mem] at ho
        exact .inr ho.2
      · exact .inl (by rw [hx]; rfl)
    · -- The best completion of the vector is also one of the leaf
      obtain ⟨k, hk⟩ := exists_isLeast_completions hpos objective hc
      have hmem : a ∈ completions parameterRanges (fillIn parametersToOptimize p a) := by
        refine ⟨ha.1, fun i x hx => ?_⟩
        rw [hget i (hdefined hx)] at hx
        split_ifs at hx
        · exact Option.some.inj hx
        · exact ha.2 i x hx
      show (boundCallback (fillIn parametersToOptimize p a) false).lowerBound ≤
        (boundCallback p false).upperBound
      have h1 := (hC.encloses hc hk).1
      have h2 := hk.2 ⟨a, hmem, rfl⟩
      have h3 := (hC.encloses hp' hm).2
      omega

/-- `IntegerBranchAndBound` ends, makes exactly one call with `isOptimalPoint` set, its
    last one, and passes it a full assignment that minimizes the objective. -/
theorem integerBranchAndBound_minimizes (hne : parameterRanges ≠ [])
    (hpos : ∀ r ∈ parameterRanges, 0 < r)
    (hC : BoundContract parameterRanges objective boundCallback) :
    ∃ n calls best, (∀ fuel ≥ n, integerBranchAndBound fuel parameterRanges boundCallback =
        .ok (some (calls ++ [(best.map some, true)]))) ∧
      (∀ call ∈ calls, call.2 = false) ∧
      IsAssignment parameterRanges best ∧
      ∀ a, IsAssignment parameterRanges a → objective best ≤ objective a := by
  have hB := hC.bounded hpos (fun i hi => mem_allParameters.mp hi) (undefinedVector parameterRanges)
  have hlen : 0 < parameterRanges.length := List.length_pos_iff.mpr hne
  have hroot : IsPartial parameterRanges (undefinedVector parameterRanges) := by
    refine ⟨List.length_replicate, fun {i x} hx => ?_⟩
    rw [undefinedVector_getD] at hx
    exact nomatch hx
  have hlt : ∀ c, Refines parameterRanges (undefinedVector parameterRanges) c →
      (fullTree parameterRanges boundCallback).leaf c →
      (boundCallback c false).lowerBound < sizeMax := by
    intro c hc hleaf
    obtain ⟨a, ha, rfl⟩ :=
      (refines_undefinedVector_iff.mp hc).eq_map_some (fullTree_leaf_iff.mp hleaf)
    rw [hC.lowerBound_eq ha]
    exact hC.objective_lt ha
  have hS : (Std.ExtTreeSet.ofList (List.range parameterRanges.length)).isEmpty = false := by
    rw [← Bool.not_eq_true, Std.ExtTreeSet.isEmpty_iff]
    intro h
    have := mem_allParameters.mpr hlen
    rw [h] at this
    exact Std.ExtTreeSet.not_mem_empty this
  have hfixed : (∅ : Std.ExtTreeMap Nat Nat).toList = [] := rfl
  have hseed : seedParameters parameterRanges ∅ = .ok (undefinedVector parameterRanges) := by
    rw [seedParameters, hfixed]
    rfl
  obtain ⟨n, calls, hcalls, hend⟩ := integerBranchAndBoundImpl_spec
    (fun i hi => mem_allParameters.mp hi) hB hlt hne hpos hS none hseed
    (refines_undefinedVector_iff.mpr hroot) (by rw [hfixed]; exact nofun)
  rcases hend with ⟨best, href, -, hleaf, hmin, hrun⟩ | ⟨⟨h, -⟩, -⟩
  · obtain ⟨a, ha, rfl⟩ :=
      (refines_undefinedVector_iff.mp href).eq_map_some (fullTree_leaf_iff.mp hleaf)
    refine ⟨n, calls, a, fun fuel hf => ?_, hcalls, ha, fun b hb => ?_⟩
    · simp only [integerBranchAndBound, Nat.pos_iff_ne_zero.mp hlen, if_false, hrun fuel hf,
        ok_bind, pure_eq_ok]
      rfl
    · have hmem : b ∈ completions parameterRanges (undefinedVector parameterRanges) := by
        refine ⟨hb, fun i x hx => ?_⟩
        rw [undefinedVector_getD] at hx
        exact nomatch hx
      have := hmin _ (completion_of_mem_completions hroot hmem)
      rwa [hC.lowerBound_eq ha, hC.lowerBound_eq hb] at this
  · exact nomatch h

end Minimize

/-- A callback for one parameter with two values whose objective is the value itself. -/
def valueBounds : BoundObjectiveFunction := fun params _ =>
  match params.getD 0 none with
  | some x => ⟨x, x⟩
  | none => ⟨0, 1⟩

/-- The theorem for `valueBounds`: the search ends and passes a vector of value 0. -/
theorem integerBranchAndBound_minimizes_value :
    ∃ n calls best, (∀ fuel ≥ n, integerBranchAndBound fuel [2] valueBounds =
        .ok (some (calls ++ [(best.map some, true)]))) ∧
      (∀ call ∈ calls, call.2 = false) ∧ IsAssignment [2] best ∧
      ∀ a, IsAssignment [2] a → best.getD 0 0 ≤ a.getD 0 0 := by
  have hC : BoundContract [2] (fun a => a.getD 0 0) valueBounds := by
    refine ⟨?_, ?_, ?_, ?_⟩
    · rintro params m - ⟨⟨a, ⟨ha, hagree⟩, rfl⟩, -⟩
      have hlt : a.getD 0 0 < 2 := ha.inRange 0 (by decide)
      unfold valueBounds
      rcases hx : params.getD 0 none with _ | x
      · exact ⟨Nat.zero_le _, by show a.getD 0 0 ≤ 1; omega⟩
      · have := hagree 0 x hx
        exact ⟨by show x ≤ a.getD 0 0; omega, by show a.getD 0 0 ≤ x; omega⟩
    · intro a ha
      have hlen : 0 < a.length := by rw [ha.length_eq]; decide
      simp only [valueBounds, getD_map_some hlen]
    · intro p q _ _ hext
      unfold valueBounds
      rcases hx : p.getD 0 none with _ | x
      · exact Nat.zero_le _
      · rw [hext 0 x hx]
    · intro a ha
      exact (ha.inRange 0 (by decide)).trans (by decide)
  exact integerBranchAndBound_minimizes (by decide) (by decide) hC

end Kanagawa.Search
