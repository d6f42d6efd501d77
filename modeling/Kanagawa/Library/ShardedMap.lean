/-
  Kanagawa.Library.ShardedMap

  `sharded_map` and `sharded_for_each` of `data/vector.k` over the calls of
  `parallel_map` and `parallel_for`.

  Every shard gathers the indices of the elements that are assigned to it and
  applies the function to them one after the other. The results are collected
  in a state that survives from earlier calls; the first thread of a call
  clears it.
-/
import Kanagawa.Library.Parallel
import Kanagawa.Library.VectorMemory

namespace Kanagawa.Library

open Kanagawa.Runs

/-- `vector<T, N>` -/
structure Vec (T : Type) where
  data : Nat → T
  size : Nat

section Sharded

variable {T R : Type}

/-- `map` of a vector; the elements behind its end are zero. -/
def Vec.map {S : Type} [Inhabited S] (f : T → S) (x : Vec T) : Vec S where
  data i := if i < x.size then f (x.data i) else default
  size := x.size

/-- `first_valid` -/
def firstValid {α : Type} (xs : List (Option α)) : Option α :=
  (reduce (fun a b => if a.isSome then a else b) xs).join

variable (n : Nat) (shardIds : Vec Nat) (x : Vec T)

/-- The elements of a shard. -/
def thisShardMask (shardIdx element : Nat) : Bool :=
  decide (element < x.size) && shardIds.data element == shardIdx

/-- `gather_shard_indices` -/
def gatherShardIndices (shardIdx : Nat) : (Nat → Nat) × Nat :=
  gather n (thisShardMask shardIds x shardIdx) id

/-- The thread with index `i` of the call of `pipelined_last`. -/
def shardThread (f : Nat → T → R) (shardIdx i : Nat) (prev : Nat → Option R) : Nat → Option R :=
  let index := (gatherShardIndices n shardIds x shardIdx).1 i
  let result := f shardIdx (x.data index)
  let curr := if i = 0 then fun _ => none else prev
  fun j => if j = index then some result else curr j

/-- The body of `sharded_map` on a shard: its result, and the state that stays. -/
def shardBody (f : Nat → T → R) (shardIdx : Nat) (prev : Nat → Option R) :
    (Nat → Option R) × (Nat → Option R) :=
  pipelinedLast (gatherShardIndices n shardIds x shardIdx).2
    (fun i prev =>
      let curr := shardThread n shardIds x f shardIdx i prev
      (curr, curr)) prev

/-- The arguments of `f` on a shard, in the order of the threads, for `sharded_map` and
`sharded_for_each`. -/
def shardArguments (shardIdx : Nat) : List T :=
  let gathered := gatherShardIndices n shardIds x shardIdx
  (List.range gathered.2).map fun i => x.data (gathered.1 i)

/-- The results of the shards for an element. -/
def shardRow (shards : Nat) (perShardResults : Nat → Nat → Option R) (e : Nat) :
    Option R := firstValid ((List.range shards).map fun s => perShardResults s e)

/-- The result of `sharded_map` from the results of the shards. -/
def combineShards [Inhabited R] (shards : Nat) (x : Vec T)
    (perShardResults : Nat → Nat → Option R) : Vec R where
  data e := (shardRow shards perShardResults e).getD default
  size := x.size

/-- The assertion of `sharded_map`. -/
def combineAssert (n shards : Nat) (x : Vec T) (perShardResults : Nat → Nat → Option R) : Bool :=
  (List.range n).all fun e =>
    (shardRow shards perShardResults e).isSome || decide (x.size ≤ e)

/-! ## What a shard computes -/

variable {n shardIds x}

theorem getElem?_gathered {shardIdx i : Nat} {k : Nat}
    (h : ((List.range n).filter (thisShardMask shardIds x shardIdx))[i]? = some k) :
    (gatherShardIndices n shardIds x shardIdx).1 i = k := by
  obtain ⟨hk, hvalid, rfl⟩ := getElem?_filter_range.mp h
  exact gather_data _ _ hk hvalid

variable (shardIds x) in
/-- The threads of a call leave the results of the elements that they were given. -/
theorem foldl_shardThread (f : Nat → T → R) (shardIdx : Nat) (prev : Nat → Option R) {count : Nat}
    (hcount : count + 1 ≤ ((List.range n).filter (thisShardMask shardIds x shardIdx)).length)
    (e : Nat) :
    (List.range (count + 1)).foldl (fun s i => shardThread n shardIds x f shardIdx i s) prev e =
      if e ∈ ((List.range n).filter (thisShardMask shardIds x shardIdx)).take (count + 1) then
        some (f shardIdx (x.data e))
      else none := by
  induction count with
  | zero =>
    have hfirst := List.getElem?_eq_getElem (Nat.lt_of_lt_of_le Nat.zero_lt_one hcount)
    rw [List.range_succ, List.range_zero, List.nil_append, List.foldl_cons, List.foldl_nil,
      List.take_add_one, List.take_zero, List.nil_append, hfirst, Option.toList_some,
      shardThread, getElem?_gathered hfirst]
    by_cases he : e = ((List.range n).filter (thisShardMask shardIds x shardIdx))[0]
    · simp [he]
    · simp [he]
  | succ count ih =>
    have hlast := List.getElem?_eq_getElem (Nat.lt_of_succ_le hcount)
    rw [List.range_succ, List.foldl_append, List.foldl_cons, List.foldl_nil, shardThread,
      getElem?_gathered hlast, List.take_add_one, hlast, Option.toList_some]
    simp only [Nat.add_one_ne_zero, if_false, ih (by omega), List.mem_append,
      List.mem_singleton]
    by_cases he : e = ((List.range n).filter (thisShardMask shardIds x shardIdx))[count + 1]
    · simp [he]
    · simp [he]

variable (shardIds x) in
theorem gatherShardIndices_size (hn : 0 < n) (shardIdx : Nat) :
    (gatherShardIndices n shardIds x shardIdx).2 =
      ((List.range n).filter (thisShardMask shardIds x shardIdx)).length := by
  rw [length_filter_range]
  exact gather_size _ _ hn

/-- A shard returns the results of its elements and of no others, whatever state earlier calls
have left. -/
theorem shardBody_eq (hn : 0 < n) (f : Nat → T → R) (shardIdx : Nat) (prev : Nat → Option R)
    {e : Nat} (he : e < n) :
    (shardBody n shardIds x f shardIdx prev).1 e =
      if thisShardMask shardIds x shardIdx e then some (f shardIdx (x.data e)) else none := by
  have hsize := gatherShardIndices_size shardIds x hn shardIdx
  have hmem : e ∈ (List.range n).filter (thisShardMask shardIds x shardIdx) ↔
      thisShardMask shardIds x shardIdx e = true := by
    rw [List.mem_filter, List.mem_range]
    exact ⟨And.right, fun h => ⟨he, h⟩⟩
  rcases Nat.eq_zero_or_pos (gatherShardIndices n shardIds x shardIdx).2 with hzero | hpos
  · -- An empty shard returns the default value.
    have hnil := List.eq_nil_of_length_eq_zero (hsize.symm.trans hzero)
    rw [hnil] at hmem
    rw [shardBody, hzero, if_neg fun h => absurd (hmem.mpr h) List.not_mem_nil]
    rfl
  · have hlast := pipelinedLast_eq hpos
      (fun i s => shardThread n shardIds x f shardIdx i s) id prev
    obtain ⟨count, hcount⟩ : ∃ c, (gatherShardIndices n shardIds x shardIdx).2 = c + 1 :=
      ⟨_, (Nat.sub_add_cancel hpos).symm⟩
    have hfold := foldl_shardThread (n := n) shardIds x f shardIdx prev
      (by omega : count + 1 ≤ _) e
    rw [List.take_of_length_le (by omega)] at hfold
    simp only [hmem] at hfold
    rw [← hfold, ← hcount]
    exact congrFun (congrArg Prod.fst hlast) e

/-- A shard applies the function to its elements in the order of the input. -/
theorem shardArguments_eq (hn : 0 < n) (shardIdx : Nat) :
    shardArguments n shardIds x shardIdx =
      ((List.range n).filter (thisShardMask shardIds x shardIdx)).map x.data := by
  have hsize := gatherShardIndices_size shardIds x hn shardIdx
  refine List.ext_getElem (by simp [shardArguments, hsize]) ?_
  intro i hi hi'
  rw [List.length_map] at hi'
  have hget := getElem?_gathered (List.getElem?_eq_getElem hi')
  simp [shardArguments, hget]

/-- The elements of a shard are those below the size of the input. -/
theorem filter_thisShardMask (hsize : x.size ≤ n) (getShardIdx : T → Nat) (shardIdx : Nat) :
    (List.range n).filter (thisShardMask (x.map getShardIdx) x shardIdx) =
      (List.range x.size).filter fun e => getShardIdx (x.data e) == shardIdx := by
  obtain ⟨rest, rfl⟩ : ∃ rest, n = x.size + rest := ⟨n - x.size, by omega⟩
  rw [List.range_add, List.filter_append]
  have hnil : ((List.range rest).map (x.size + ·)).filter
      (thisShardMask (x.map getShardIdx) x shardIdx) = [] := by
    rw [List.filter_eq_nil_iff]
    intro e he
    obtain ⟨j, -, rfl⟩ := List.mem_map.mp he
    simp [thisShardMask]
  rw [hnil, List.append_nil]
  refine List.filter_congr fun e he => ?_
  have hlt := List.mem_range.mp he
  simp [thisShardMask, Vec.map, hlt]

/-! ## All shards -/

/-- The only valid element is the first one. -/
theorem firstValid_eq_some {row : List (Option R)} {v : R} (hmem : some v ∈ row)
    (hall : ∀ y ∈ row, y = none ∨ y = some v) : firstValid row = some v := by
  have hassoc : ∀ a b c : Option R,
      (if (if a.isSome then a else b).isSome then (if a.isSome then a else b) else c) =
        if a.isSome then a else if b.isSome then b else c := by
    intro a b c
    cases a <;> cases b <;> simp
  have hfold : ∀ (l : List (Option R)) (a : Option R), (a = none ∨ a = some v) →
      (∀ y ∈ l, y = none ∨ y = some v) → (a = some v ∨ some v ∈ l) →
      l.foldl (fun a b => if a.isSome then a else b) a = some v := by
    intro l
    induction l with
    | nil => exact fun a _ _ h => h.resolve_right List.not_mem_nil
    | cons y l ih =>
      intro a ha hl hv
      have hy := hl y List.mem_cons_self
      rw [List.foldl_cons]
      refine ih _ ?_ (fun z hz => hl z (List.mem_cons_of_mem y hz)) ?_
      · rcases ha with rfl | rfl
        · exact hy
        · exact .inr rfl
      · rcases ha with rfl | rfl
        · have hmem := List.mem_cons.mp (hv.resolve_left (by simp))
          exact hmem.imp Eq.symm id
        · exact .inl rfl
  cases row with
  | nil => exact absurd hmem List.not_mem_nil
  | cons y row =>
    rw [firstValid, reduce_eq_foldl hassoc, hfold row y (hall y List.mem_cons_self)
      (fun z hz => hall z (List.mem_cons_of_mem y hz))]
    · rfl
    · exact (List.mem_cons.mp hmem).imp Eq.symm id

/-- The results of the shards together are the results of all elements. -/
theorem combineShards_eq [Inhabited R] (hn : 0 < n) {shards : Nat} (f : Nat → T → R)
    (getShardIdx : T → Nat) (hsize : x.size ≤ n)
    (hshards : ∀ e < x.size, getShardIdx (x.data e) < shards)
    {perShardResults : Nat → Nat → Option R}
    (hresults : ∀ s < shards, ∃ prev,
      perShardResults s = (shardBody n (x.map getShardIdx) x f s prev).1) :
    combineAssert n shards x perShardResults = true ∧
      (combineShards shards x perShardResults).size = x.size ∧
      ∀ e < x.size, (combineShards shards x perShardResults).data e =
        f (getShardIdx (x.data e)) (x.data e) := by
  have hrow : ∀ e < x.size, shardRow shards perShardResults e =
      some (f (getShardIdx (x.data e)) (x.data e)) := by
    intro e he
    have hshard : ∀ s < shards, perShardResults s e =
        if getShardIdx (x.data e) = s then some (f s (x.data e)) else none := by
      intro s hs
      obtain ⟨prev, hprev⟩ := hresults s hs
      rw [hprev, shardBody_eq hn f s prev (by omega)]
      simp [thisShardMask, Vec.map, he]
    refine firstValid_eq_some ?_ ?_
    · refine List.mem_map.mpr ⟨getShardIdx (x.data e), List.mem_range.mpr (hshards e he), ?_⟩
      rw [hshard _ (hshards e he), if_pos rfl]
    · intro y hy
      obtain ⟨s, hs, rfl⟩ := List.mem_map.mp hy
      rw [hshard s (List.mem_range.mp hs)]
      split
      · rename_i hidx
        exact .inr (by rw [hidx])
      · exact .inl rfl
  refine ⟨?_, rfl, fun e he => ?_⟩
  · rw [combineAssert, List.all_eq_true]
    intro e _
    by_cases he : e < x.size
    · rw [hrow e he]
      rfl
    · simp [Nat.le_of_not_lt he]
  · rw [combineShards]
    simp only [hrow e he, Option.getD_some]

end Sharded

/-! ## Parallel calls -/

/-- `parallel<N, MaxThreads, HasResult, ResultType>` -/
def parallelMode (maxThreads : Nat) (hasResult : Bool) : Mode := ⟨false, hasResult, maxThreads⟩

/-- `fork_join`, with any number of callers. -/
def forkJoinMode (maxCallers : Nat) : Mode := ⟨true, true, maxCallers⟩

/-- Calls that run tasks on several replicas return their own results, when the FIFOs of the
results have at least two entries; hence `sharded_map` returns the results of all elements. -/
theorem parallelCalls_own_results (k : Nat) (hk : 0 < k) :
    (∀ (T : Type) (n : Nat) (dataMem : Nat → Memory T (2 ^ k)) (s : Parallel T (2 ^ k)),
      (Parallel.system (parallelMode (2 ^ k) true) n dataMem).Reachable s →
      s.Safe (parallelMode (2 ^ k) true) n) ∧
    (∀ (T : Type) (n maxThreads : Nat) (dataMem : Nat → Memory T maxThreads)
        (s : Parallel T maxThreads),
      (Parallel.system (parallelMode maxThreads false) n dataMem).Reachable s →
      s.Safe (parallelMode maxThreads false) n) ∧
    (∀ (T : Type) (n maxCallers : Nat) (dataMem : Nat → Memory T (2 ^ k)) (s : Parallel T (2 ^ k)),
      (Parallel.system (forkJoinMode maxCallers) n dataMem).Reachable s →
      s.Safe (forkJoinMode maxCallers) n) ∧
    (∀ (T R : Type) [Inhabited R] (n shards : Nat) (f : Nat → T → R) (getShardIdx : T → Nat)
        (x : Vec T), 0 < n → x.size ≤ n → (∀ e < x.size, getShardIdx (x.data e) < shards) →
      (∀ shardIdx, shardArguments n (x.map getShardIdx) x shardIdx =
        ((List.range x.size).filter fun e => getShardIdx (x.data e) == shardIdx).map x.data) ∧
      ∀ (dataMem : Nat → Memory (Nat → Option R) (2 ^ k)) (s : Parallel (Nat → Option R) (2 ^ k)),
      (Parallel.system (parallelMode (2 ^ k) true) shards dataMem).Reachable s →
      ∀ (call : Nat) (perShardResults : Nat → Nat → Option R),
      (∀ i < shards, ∀ v, (call, v) ∈ (s.lanes i).produced →
        ∃ prev, v = (shardBody n (x.map getShardIdx) x f i prev).1) →
      (∀ i < shards, (call, perShardResults i) ∈ (s.lanes i).results) →
      combineAssert n shards x perShardResults = true ∧
        (combineShards shards x perShardResults).size = x.size ∧
        ∀ e < x.size, (combineShards shards x perShardResults).data e =
          f (getShardIdx (x.data e)) (x.data e)) := by
  have hwraps : PointerWraps (2 ^ k) := pointerWraps_two_pow hk
  have hparallel : Parallel.Fits (parallelMode (2 ^ k) true) (2 ^ k) :=
    ⟨fun _ => hwraps, .inr le_rfl⟩
  refine ⟨?_, ?_, ?_, ?_⟩
  · intro T n dataMem s hs
    exact ((Parallel.invariant hparallel dataMem).of_reachable hs).safe hparallel
  · intro T n maxThreads dataMem s hs
    have hfits : Parallel.Fits (parallelMode maxThreads false) maxThreads :=
      ⟨fun h => absurd h Bool.false_ne_true, .inr le_rfl⟩
    exact ((Parallel.invariant hfits dataMem).of_reachable hs).safe hfits
  · intro T n maxCallers dataMem s hs
    have hfits : Parallel.Fits (forkJoinMode maxCallers) (2 ^ k) :=
      ⟨fun _ => hwraps, .inl ⟨rfl, rfl⟩⟩
    exact ((Parallel.invariant hfits dataMem).of_reachable hs).safe hfits
  · intro T R _ n shards f getShardIdx x hn hsize hshards
    refine ⟨fun shardIdx => ?_, ?_⟩
    · rw [shardArguments_eq hn, filter_thisShardMask hsize]
    · intro dataMem s hs call perShardResults hproduced hresults
      have hsafe := ((Parallel.invariant hparallel dataMem).of_reachable hs).safe hparallel
      exact combineShards_eq hn f getShardIdx hsize hshards fun i hi =>
        hproduced i hi _ ((hsafe.results i hi).subset (hresults i hi))

/-- Two calls on one lane, from memories with two entries. -/
def twoCalls : List (Parallel.Event Nat) :=
  let call (v : Nat) : List (Parallel.Event Nat) :=
    [.call fun i => i == 0, .bodyReturns 0 v, .enqueueWait 0, .enqueueClaim 0, .enqueueStore 0,
      .enqueuePost 0, .increment 0, .test, .dequeueWait 0, .dequeueClaim 0, .dequeueLoad 0 0,
      .dequeuePost 0, .callReturns]
  call 5 ++ call 7

theorem parallelCalls_own_results_two_calls :
    (((Parallel.system (parallelMode (2 ^ 1) true) 1 fun _ => #v[9, 9]).run
      { lanes := fun _ => { fifo := { ring := { dataMem := #v[9, 9] } } } } twoCalls).lanes
        0).results = [(0, 5), (1, 7)] ∧
    ((Parallel.system (parallelMode (2 ^ 1) true) 1 fun _ => #v[9, 9]).run
      { lanes := fun _ => { fifo := { ring := { dataMem := #v[9, 9] } } } } twoCalls).Safe
        (parallelMode (2 ^ 1) true) 1 := by
  refine ⟨by decide +kernel, ?_⟩
  refine (parallelCalls_own_results 1 (by decide)).1 Nat 1 (fun _ => #v[9, 9]) _ (.run .start ?_)
  decide +kernel

/-- With one caller at most the FIFO of the results has one entry, and the second call gets an
unknown value instead of its own. -/
theorem parallelCalls_not_own_results :
    ∃ s, (Parallel.system (parallelMode (2 ^ 0) true) 1
        (fun _ => (#v[9] : Memory Nat (2 ^ 0)))).Reachable s ∧
      (s.lanes 0).produced = [(0, 5), (1, 7)] ∧ (s.lanes 0).results = [(0, 5), (1, 0)] := by
  refine ⟨(Parallel.system (parallelMode (2 ^ 0) true) 1 fun _ => #v[9]).run
    { lanes := fun _ => { fifo := { ring := { dataMem := #v[9] } } } } twoCalls, .run .start ?_, ?_⟩
  · decide +kernel
  · decide +kernel

end Kanagawa.Library
