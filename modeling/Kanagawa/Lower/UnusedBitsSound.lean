/-
  Kanagawa.Lower.UnusedBitsSound

  What the unused-bit analysis reports.

  The callbacks only add bits: an operation that is forced to be live adds all bits of its
  sources, and a lookup table what the entries of its used bits look at.  A bit that is reported
  for a register is missing in the map at the start of the block that writes the register, and so
  in the map at every place of the block.
-/
import Kanagawa.Lower.UnusedBits
import Kanagawa.Optimize.DataFlowFixpoint

namespace Kanagawa.Lower.UnusedBits

open Kanagawa.IR Kanagawa.Optimize Kanagawa.Lib Lib.Except

/-! ## The used bits -/

/-- A bit of a register is in the map. -/
def Used (regToUsedBits : RegisterMap BitSet) (r b : Nat) : Prop :=
  b ∈ regToUsedBits.getD r ∅

section Callback

variable {table : RegisterTable} {regToUsedBits : RegisterMap BitSet} {r b : Nat}

theorem used_insertUsedBits {registerIndex : Nat} {bits : BitSet} :
    Used (insertUsedBits regToUsedBits registerIndex bits) r b ↔
      (registerIndex = r ∧ b ∈ bits) ∨ Used regToUsedBits r b := by
  rw [Used, insertUsedBits, NatMap.getD_insert]
  split
  next h =>
    subst h
    rw [Finset.mem_union, Used]
    tauto
  next h => rw [Used]; tauto

theorem used_useSource {bits : BitSet} {srcOperand : SourceOperand} :
    Used (useSource table bits regToUsedBits srcOperand) r b ↔
      (srcOperand = .register r ∧ (table.desc r).type.isLocal = true ∧ b ∈ bits) ∨
        Used regToUsedBits r b := by
  cases srcOperand with
  | register registerIndex =>
      rw [useSource]
      split
      next hlocal =>
        rw [used_insertUsedBits]
        constructor
        · rintro (⟨rfl, hb⟩ | h)
          · exact .inl ⟨rfl, hlocal, hb⟩
          · exact .inr h
        · rintro (⟨heq, -, hb⟩ | h)
          · exact .inl ⟨SourceOperand.register.inj heq, hb⟩
          · exact .inr h
      next hlocal =>
        refine ⟨.inr, fun h => h.resolve_left ?_⟩
        rintro ⟨heq, hr, -⟩
        exact hlocal (SourceOperand.register.inj heq ▸ hr)
  | literal _ | fifo _ | stringLiteral _ => exact ⟨.inr, fun h => h.resolve_left (by simp)⟩

/-- Loops that only add bits have those that their steps add, and those from before. -/
theorem used_foldl {α : Type} {f : RegisterMap BitSet → α → RegisterMap BitSet}
    (hgrow : ∀ m a r b, Used m r b → Used (f m a) r b) (l : List α) :
    ∀ {regToUsedBits : RegisterMap BitSet}, Used regToUsedBits r b →
      Used (l.foldl f regToUsedBits) r b := by
  induction l with
  | nil => exact fun h => h
  | cons a l ih => exact fun h => ih (hgrow _ a r b h)

/-- Whatever a step adds for an element, the loop has in the end. -/
theorem used_foldl_of_mem {α : Type} {f : RegisterMap BitSet → α → RegisterMap BitSet}
    (hgrow : ∀ m a r b, Used m r b → Used (f m a) r b) {l : List α} {a : α} (ha : a ∈ l)
    {P : RegisterMap BitSet → Prop} (hP : P regToUsedBits)
    (hkeep : ∀ m a, P m → P (f m a)) (hadd : ∀ m, P m → Used (f m a) r b) :
    Used (l.foldl f regToUsedBits) r b := by
  induction l generalizing regToUsedBits with
  | nil => exact absurd ha List.not_mem_nil
  | cons a' l ih =>
      rcases List.mem_cons.mp ha with rfl | ha
      · exact used_foldl hgrow l (hadd _ hP)
      · exact ih ha (hkeep _ _ hP)

theorem useSource_grows (bits : BitSet) (srcOperand : SourceOperand)
    (h : Used regToUsedBits r b) : Used (useSource table bits regToUsedBits srcOperand) r b :=
  used_useSource.mpr (.inr h)

theorem useAllSources_grows (src : List SourceOperand) (h : Used regToUsedBits r b) :
    Used (useAllSources table src regToUsedBits) r b :=
  used_foldl (fun _ _ _ _ => useSource_grows _ _) src h

theorem used_useAllSources {src : List SourceOperand} (hmem : .register r ∈ src)
    (hlocal : (table.desc r).type.isLocal = true) (hb : b < (table.desc r).width) :
    Used (useAllSources table src regToUsedBits) r b := by
  refine used_foldl_of_mem (fun _ _ _ _ => useSource_grows _ _) hmem (P := fun _ => True) trivial
    (fun _ _ h => h) fun m _ => ?_
  exact used_useSource.mpr (.inl ⟨rfl, hlocal, Finset.mem_range.mpr hb⟩)

theorem useEntry_grows (src : List SourceOperand) (lutEntry : LutEntry)
    (h : Used regToUsedBits r b) : Used (useEntry table src lutEntry regToUsedBits) r b := by
  refine used_foldl (fun m s r b h => ?_) lutEntry.sources h
  split
  · exact useSource_grows _ _ h
  · exact h

theorem used_useEntry {src : List SourceOperand} {lutEntry : LutEntry} {s : Nat × Nat}
    (hs : s ∈ lutEntry.sources) (hsrc : src[s.1]? = some (.register r))
    (hlocal : (table.desc r).type.isLocal = true) :
    Used (useEntry table src lutEntry regToUsedBits) r s.2 := by
  refine used_foldl_of_mem (fun m s r b h => ?_) hs (P := fun _ => True) trivial
    (fun _ _ h => h) fun m _ => ?_
  · split
    · exact useSource_grows _ _ h
    · exact h
  · rw [hsrc]
    exact used_useSource.mpr (.inl ⟨rfl, hlocal, Finset.mem_singleton_self _⟩)

theorem useEntries_step_grows (src : List SourceOperand) (dstReg : Nat) (p : LutEntry × Nat)
    (h : Used regToUsedBits r b) :
    Used (if p.2 ∈ regToUsedBits.getD dstReg ∅ then useEntry table src p.1 regToUsedBits
      else regToUsedBits) r b := by
  split
  · exact useEntry_grows _ _ h
  · exact h

/-- The use of a bit of the destination is passed on to what its entry looks at. -/
theorem used_useEntries {src : List SourceOperand} {dstReg j : Nat} {entries : List LutEntry}
    {lutEntry : LutEntry} (hj : Used regToUsedBits dstReg j) (hentry : entries[j]? = some lutEntry)
    {s : Nat × Nat} (hs : s ∈ lutEntry.sources) (hsrc : src[s.1]? = some (.register r))
    (hlocal : (table.desc r).type.isLocal = true) :
    Used (useEntries table src dstReg entries regToUsedBits) r s.2 := by
  refine used_foldl_of_mem (fun m p r b h => useEntries_step_grows src dstReg p h)
    (List.mem_zipIdx_iff_getElem?.mpr hentry : (lutEntry, j) ∈ entries.zipIdx)
    (P := fun m => Used m dstReg j) hj (fun m p h => useEntries_step_grows src dstReg p h)
    fun m hm => ?_
  rw [if_pos (show j ∈ m.getD dstReg ∅ from hm)]
  exact used_useEntry hs hsrc hlocal

theorem operationCb_grows (inputOp : Operation) (h : Used regToUsedBits r b) :
    Used (operationCb table inputOp regToUsedBits) r b := by
  rw [operationCb]
  split
  · exact useAllSources_grows _ h
  · split
    · exact used_foldl (fun m p r b h => useEntries_step_grows _ _ p h) _ h
    · exact useAllSources_grows _ h

end Callback

/-! ## What is reported -/

/-- The bits that are used by the operations of a block from a place on, and after the block. -/
def usedFrom (table : RegisterTable) (operations : List Operation) (after : RegisterMap BitSet)
    (i : Nat) : RegisterMap BitSet :=
  (operations.drop i).foldr (operationCb table) after

section Reported

variable {table : RegisterTable} {cfg : PostPipelineGraph} {operations : List Operation}
  {after regToUsedBits initial result : RegisterMap BitSet} {op : Operation} {i r b : Nat}

theorem usedFrom_eq (hop : operations[i]? = some op) :
    usedFrom table operations after i =
      operationCb table op (usedFrom table operations after (i + 1)) := by
  obtain ⟨hi, rfl⟩ := List.getElem?_eq_some_iff.mp hop
  rw [usedFrom, List.drop_eq_getElem_cons hi]
  rfl

theorem used_zero_of_usedFrom (h : Used (usedFrom table operations after i) r b) :
    Used (usedFrom table operations after 0) r b := by
  have hgrow : ∀ l : List Operation, Used (usedFrom table operations after i) r b →
      Used (l.foldr (operationCb table) (usedFrom table operations after i)) r b := by
    intro l h
    induction l with
    | nil => exact h
    | cons op l ih => exact operationCb_grows op ih
  have hall := hgrow (operations.take i) h
  rwa [usedFrom, ← List.foldr_append, List.take_append_drop] at hall

/-- Every map of the analysis is empty or made by the callbacks of its block. -/
def MadeByCallbacks (table : RegisterTable) (cfg : PostPipelineGraph) (s : DataFlowState BitSet) :
    Prop :=
  ∀ bb, s.basicBlockMaps bb = ∅ ∨ ∃ after,
    s.basicBlockMaps bb = usedFrom table ((dfa table cfg).operations bb) after 0

theorem runCallbacks_eq (bb : Nat) :
    (dfa table cfg).runCallbacks bb after =
      usedFrom table ((dfa table cfg).operations bb) after 0 := by
  show List.foldl _ _ (List.reverse _) = _
  rw [List.foldl_reverse, usedFrom, List.drop_zero]
  rfl

theorem madeByCallbacks_run {fuel : Nat} {s : DataFlowState BitSet}
    (h : (dfa table cfg).run fuel = some (.ok s)) : MadeByCallbacks table cfg s := by
  have hinvariant : WorkList.IsInvariant (dfa table cfg).processBlock
      fun s _ => MadeByCallbacks table cfg s := by
    intro s bb pending s' added hs hstep bb'
    obtain ⟨m, hm, rfl, -⟩ := DataFlowAnalysis.processBlock_eq_ok hstep
    obtain ⟨joined, -, rfl⟩ := DataFlowAnalysis.computeMap_eq_ok hm
    by_cases hbb : bb' = bb
    · subst hbb
      exact .inr ⟨_, (Function.update_self ..).trans (runCallbacks_eq _)⟩
    · simp only [Function.update_of_ne hbb]
      exact hs bb'
  exact hinvariant.run fuel (fun _ => .inl rfl) h

/-- A reported register is written by the block, local, and in the map of the block; its
    reported bits are not. -/
structure ReportedBy (table : RegisterTable) (operations : List Operation)
    (regToUsedBits : RegisterMap BitSet) (r : Nat) (bits : BitSet) : Prop where
  written : ∃ op ∈ operations, r ∈ op.writes
  isLocal : (table.desc r).type.isLocal = true
  found : ∃ usedBits, regToUsedBits[r]? = some usedBits
  unused : ∀ b ∈ bits, ¬ Used regToUsedBits r b

theorem mem_writes {dst : DestinationOperand} (hdst : dst ∈ op.dst)
    (hr : dst = .register r) : r ∈ op.writes :=
  List.mem_filterMap.mpr ⟨dst, hdst, by rw [hr]; rfl⟩

theorem recordBlock_reported (h : recordBlock table operations regToUsedBits initial = .ok result)
    {bits : BitSet} (hr : result[r]? = some bits) :
    initial[r]? = some bits ∨ ReportedBy table operations regToUsedBits r bits := by
  refine foldlM_preserves
    (fun result : RegisterMap BitSet => ∀ bits, result[r]? = some bits → initial[r]? = some bits ∨
      ReportedBy table operations regToUsedBits r bits)
    (fun dst hdst m m' hm hstep bits hbits => ?_) (fun _ h => .inl h) h bits hr
  obtain ⟨op, hop, hdst⟩ := List.mem_flatMap.mp hdst
  cases dst with
  | fifo f =>
      obtain rfl := Except.ok.inj hstep
      exact hm bits hbits
  | register registerIndex =>
      simp only [recordDestination, bind_eq_ok_iff] at hstep
      obtain ⟨_, -, hstep⟩ := hstep
      split at hstep
      next =>
        obtain rfl := Except.ok.inj hstep
        exact hm bits hbits
      next usedBits hused =>
        simp only [bind_eq_ok_iff] at hstep
        obtain ⟨_, hlocal, hstep⟩ := hstep
        split at hstep
        next =>
          obtain rfl := Except.ok.inj hstep
          exact hm bits hbits
        next =>
          obtain ⟨-, rfl⟩ := DataFlowAnalysis.safeInsert_eq_ok hstep
          rw [NatMap.getElem?_insert] at hbits
          split at hbits
          next heq =>
            subst heq
            obtain rfl := Option.some.inj hbits
            refine .inr ⟨⟨op, hop, mem_writes hdst rfl⟩, of_assert hlocal, ⟨usedBits, hused⟩, ?_⟩
            intro b hb hnot
            rw [Used, NatMap.getD_of_some hused] at hnot
            exact (Finset.mem_filter.mp hb).2 hnot
          next => exact hm bits hbits

/-- What is reported for a register comes from the block that writes it. -/
theorem determineUnusedBitsForFunction_reported {fuel : Nat} {bits : BitSet}
    (h : determineUnusedBitsForFunction table cfg fuel initial = some (.ok result))
    (hnew : initial[r]? = none) (hr : result[r]? = some bits) :
    ∃ bb after, ReportedBy table ((dfa table cfg).operations bb)
      (usedFrom table ((dfa table cfg).operations bb) after 0) r bits := by
  obtain ⟨outcome, hrun, houtcome⟩ := Option.map_eq_some_iff.mp h
  simp only [bind_eq_ok_iff] at houtcome
  obtain ⟨s, rfl, _, -, hrecord⟩ := houtcome
  have hmade := madeByCallbacks_run hrun
  have hreported : result[r]? = some bits → initial[r]? = some bits ∨ ∃ bb,
      ReportedBy table ((dfa table cfg).operations bb) (s.basicBlockMaps bb) r bits := by
    refine foldlM_preserves
      (fun result : RegisterMap BitSet => result[r]? = some bits → initial[r]? = some bits ∨ ∃ bb,
        ReportedBy table ((dfa table cfg).operations bb) (s.basicBlockMaps bb) r bits)
      (fun bb _ m m' hm hstep hbits => ?_) .inl hrecord
    rcases recordBlock_reported hstep hbits with hbefore | hreport
    · exact hm hbefore
    · exact .inr ⟨bb, hreport⟩
  rcases hreported hr with hinitial | ⟨bb, hreport⟩
  · rw [hnew] at hinitial
    exact nomatch hinitial
  · rcases hmade bb with hempty | ⟨after, hafter⟩
    · obtain ⟨usedBits, hfound⟩ := hreport.found
      rw [hempty, Std.ExtTreeMap.getElem?_empty] at hfound
      exact nomatch hfound
    · exact ⟨bb, after, hafter ▸ hreport⟩

end Reported

end Kanagawa.Lower.UnusedBits
