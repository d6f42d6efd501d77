/-
  Kanagawa.Optimize.KillMovesRun

  The work-list loop of `KillMoves`: a round keeps every equality justified, a round
  that adds blocks has found a new equality, so the loop terminates, and no
  assertion fails when every block can be reached.
-/
import Kanagawa.Optimize.KillMovesMaps

namespace Kanagawa.Optimize

open IR Lib Lib.Except Lib.NatMap Lower

variable {table : RegisterTable} {f : Function} {optimizing : Bool}

/-- What holds of the maps between two rounds. -/
structure MapsInvariant (table : RegisterTable) (f : Function) (s : KillMovesState) : Prop where
  inputs : Inputs f (PassedOn s.equalValueMaps) (fun _ _ => True) s.inputValueMap
  justified : Justified table f s.equalValueMaps
  typed : ∀ (c k : Nat) (v : SourceOperand), (s.equalValueMaps c)[k]? = some v →
    TypedEquality table k v

theorem Initialized.invariant (hf : MovableFunction table f) {s : KillMovesState}
    (h : Initialized table f f.basicBlocks.length s) : MapsInvariant table f s := by
  refine ⟨⟨h.inputs.entry, fun hedge _ => h.inputs.complete hedge hedge.block_lt⟩,
    fun c k v hkv => .inl (h.recorded c k v hkv), fun c k v hkv => (h.recorded c k v hkv).typed hf⟩

/-! ## The intersection -/

/-- What the intersection has done to the equalities of a block: it has added some on which
    all predecessors agree. -/
structure Joined (predecessorMap : PredecessorMap SourceOperand) (equalValues : EqualValueMap)
    (s : EqualValueMap × EqualValueMap) : Prop where
  grows : Extends equalValues s.1
  agreed : ∀ (k : Nat) (v : SourceOperand), s.1[k]? = some v →
    equalValues[k]? = some v ∨ shouldInsert predecessorMap k v = true
  new : s.2 = ∅ ∨ ∃ k : Nat, equalValues[k]? = none ∧ ∃ v, s.1[k]? = some v

theorem Joined.refl (predecessorMap : PredecessorMap SourceOperand) (equalValues : EqualValueMap) :
    Joined predecessorMap equalValues (equalValues, ∅) :=
  ⟨fun _ _ => id, fun _ _ => .inl, .inl rfl⟩

theorem Joined.insert {predecessorMap : PredecessorMap SourceOperand} {equalValues : EqualValueMap}
    {s : EqualValueMap × EqualValueMap} (h : Joined predecessorMap equalValues s) {k : Nat}
    {v : SourceOperand} (hagree : shouldInsert predecessorMap k v = true)
    (hnone : s.1[k]? = none) :
    Joined predecessorMap equalValues (s.1.insert k v, s.2.insert k v) := by
  refine ⟨fun k' v' hkv => ?_, fun k' v' hkv => ?_, .inr ⟨k, ?_, v, ?_⟩⟩
  · have hne : k ≠ k' := by
      rintro rfl
      rw [h.grows k v' hkv] at hnone
      exact nomatch hnone
    rw [getElem?_insert, if_neg hne]
    exact h.grows k' v' hkv
  · rw [getElem?_insert] at hkv
    split at hkv
    next hk =>
      rw [← hk, ← Option.some.inj hkv]
      exact .inr hagree
    next => exact h.agreed k' v' hkv
  · cases hk : equalValues[k]? with
    | none => rfl
    | some v' =>
        rw [h.grows k v' hk] at hnone
        exact nomatch hnone
  · rw [getElem?_insert, if_pos rfl]

theorem intersectEntry_joined {predecessorMap : PredecessorMap SourceOperand} {equalValues : EqualValueMap}
    {s s' : EqualValueMap × EqualValueMap} {p : Nat × SourceOperand}
    (h : Joined predecessorMap equalValues s)
    (hok : intersectEntry predecessorMap s p = .ok s') :
    Joined predecessorMap equalValues s' := by
  unfold intersectEntry at hok
  split at hok
  next hagree =>
    split at hok
    next hnone =>
      rw [← Except.ok.inj hok]
      exact h.insert hagree hnone
    next =>
      rw [bind_eq_ok_iff] at hok
      obtain ⟨-, -, hok⟩ := hok
      exact Except.ok.inj hok ▸ h
  next => exact Except.ok.inj hok ▸ h

theorem intersectPredecessors_joined {predecessorMap : PredecessorMap SourceOperand}
    {equalValues : EqualValueMap} {s : EqualValueMap × EqualValueMap}
    (hok : intersectPredecessors predecessorMap equalValues = .ok s) :
    Joined predecessorMap equalValues s ∧ (predecessorMap = [] → s = (equalValues, ∅)) := by
  cases predecessorMap with
  | nil =>
      rw [intersectPredecessors, Except.ok.injEq] at hok
      rw [← hok]
      exact ⟨.refl _ _, fun _ => rfl⟩
  | cons predecessor0 rest =>
      refine ⟨?_, nofun⟩
      exact foldlM_preserves (Joined (predecessor0 :: rest) equalValues)
        (fun p _ s s' h hok => intersectEntry_joined h hok) (.refl _ _) hok

/-- The assertion of the intersection: no two equalities for one register. -/
theorem intersectPredecessors_ok {predecessorMap : PredecessorMap SourceOperand} {equalValues : EqualValueMap}
    (hunique : ∀ (k : Nat) (v v' : SourceOperand), predecessorMap ≠ [] →
      shouldInsert predecessorMap k v = true →
      equalValues[k]? = some v' ∨ shouldInsert predecessorMap k v' = true → v' = v) :
    ∃ s, intersectPredecessors predecessorMap equalValues = .ok s := by
  cases predecessorMap with
  | nil => exact ⟨_, rfl⟩
  | cons predecessor0 rest =>
      have hstep : ∀ p ∈ predecessor0.2.toList, ∀ s, Joined (predecessor0 :: rest) equalValues s →
          ∃ s', intersectEntry (predecessor0 :: rest) s p = .ok s' ∧
            Joined (predecessor0 :: rest) equalValues s' := by
        intro p _ s hs
        have hok : ∃ s', intersectEntry (predecessor0 :: rest) s p = .ok s' := by
          unfold intersectEntry
          split
          next hagree =>
            split
            next => exact ⟨_, rfl⟩
            next srcOp hsome =>
              have heq := hunique p.1 p.2 srcOp nofun hagree (hs.agreed _ _ hsome)
              exact ⟨s, by rw [assert_of_true (decide_eq_true heq)]; rfl⟩
          next => exact ⟨_, rfl⟩
        obtain ⟨s', hok⟩ := hok
        exact ⟨s', hok, intersectEntry_joined hs hok⟩
      obtain ⟨s, hok, -⟩ := foldlM_succeeds _ hstep (.refl _ _)
      exact ⟨s, hok⟩

/-! ## Passing equalities on -/

theorem mergeEqualValue_preserves {P : Nat → SourceOperand → Prop}
    {values values' : EqualValueMap} {p : Nat × SourceOperand} (hp : P p.1 p.2)
    (hvalues : ∀ (k : Nat) (v : SourceOperand), values[k]? = some v → P k v)
    (hok : mergeEqualValue values p = .ok values') :
    ∀ (k : Nat) (v : SourceOperand), values'[k]? = some v → P k v := by
  unfold mergeEqualValue at hok
  split at hok
  next =>
    rw [bind_eq_ok_iff] at hok
    obtain ⟨-, -, hok⟩ := hok
    exact Except.ok.inj hok ▸ hvalues
  next =>
    rw [← Except.ok.inj hok]
    intro k v hkv
    rw [getElem?_insert] at hkv
    split at hkv
    next hk =>
      rw [← hk, ← Option.some.inj hkv]
      exact hp
    next => exact hvalues k v hkv

theorem mergeEqualValues_preserves {P : Nat → SourceOperand → Prop}
    {previousValues valuesForSuccessor merged : EqualValueMap}
    (hprevious : ∀ (k : Nat) (v : SourceOperand), previousValues[k]? = some v → P k v)
    (hvalues : ∀ (k : Nat) (v : SourceOperand), valuesForSuccessor[k]? = some v → P k v)
    (hok : mergeEqualValues previousValues valuesForSuccessor = .ok merged) :
    ∀ (k : Nat) (v : SourceOperand), merged[k]? = some v → P k v :=
  foldlM_preserves (fun values : EqualValueMap =>
    ∀ (k : Nat) (v : SourceOperand), values[k]? = some v → P k v)
    (fun _ hp _ _ hI hstep =>
      mergeEqualValue_preserves (hvalues _ _ (mem_toList_iff.mp hp)) hI hstep) hprevious hok

/-- The assertion of the merge: old and new values are never different. -/
theorem mergeEqualValues_ok {P : Nat → SourceOperand → Prop}
    {previousValues valuesForSuccessor : EqualValueMap}
    (hprevious : ∀ (k : Nat) (v : SourceOperand), previousValues[k]? = some v → P k v)
    (hvalues : ∀ (k : Nat) (v : SourceOperand), valuesForSuccessor[k]? = some v → P k v)
    (hunique : ∀ {k v v'}, P k v → P k v' → v = v') :
    ∃ merged, mergeEqualValues previousValues valuesForSuccessor = .ok merged := by
  have hstep : ∀ p ∈ valuesForSuccessor.toList, ∀ values : EqualValueMap,
      (∀ (k : Nat) (v : SourceOperand), values[k]? = some v → P k v) →
      ∃ values', mergeEqualValue values p = .ok values' ∧
        ∀ (k : Nat) (v : SourceOperand), values'[k]? = some v → P k v := by
    intro p hp values hI
    have hnew := hvalues _ _ (mem_toList_iff.mp hp)
    have hok : ∃ values', mergeEqualValue values p = .ok values' := by
      unfold mergeEqualValue
      split
      next srcOp hsome =>
        have heq := hunique hnew (hI _ _ hsome)
        exact ⟨values, by rw [assert_of_true (decide_eq_true heq)]; rfl⟩
      next => exact ⟨_, rfl⟩
    obtain ⟨values', hok⟩ := hok
    exact ⟨values', hok, mergeEqualValue_preserves hnew hI hok⟩
  obtain ⟨merged, hok, -⟩ := foldlM_succeeds _ hstep hprevious
  exact ⟨merged, hok⟩

section

variable {equalValueMaps : Nat → EqualValueMap} {b : Nat}

/-- The walk over the operations of a block after new equalities were found. -/
structure Propagated (f : Function) (equalValueMaps : Nat → EqualValueMap)
    (s : (Nat → PredecessorMap SourceOperand) × List Nat) : Prop where
  inputs : Inputs f (PassedOn equalValueMaps) (fun _ _ => True) s.1
  known : ∀ a ∈ s.2, a < f.basicBlocks.length

theorem propagateToSuccessor_spec {s s' : (Nat → PredecessorMap SourceOperand) × List Nat}
    {p : Operation × Nat} (hp : (f.operationsOf b)[p.2]? = some p.1)
    (h : Propagated f equalValueMaps s)
    (hok : propagateToSuccessor f b (equalValueMaps b) s p = .ok s') :
    Propagated f equalValueMaps s' := by
  unfold propagateToSuccessor at hok
  split at hok
  next c hsucc =>
    have hedge : f.Edge b p.2 p.1 c := ⟨hp, hsucc⟩
    split at hok
    next previousValues hfind =>
      rw [bind_eq_ok_iff] at hok
      obtain ⟨merged, hmerge, hok⟩ := hok
      rw [pure_eq_ok, Except.ok.injEq] at hok
      subst hok
      have hcarries := h.inputs.at hp (mem_of_findPredecessor hfind)
      have hmerged := mergeEqualValues_preserves hcarries
        (fun k v => renameEqualValues_carries) hmerge
      refine ⟨(h.inputs.set hedge hmerged).weaken fun _ _ _ => .inl trivial, fun a ha => ?_⟩
      rcases List.mem_append.mp ha with ha | ha
      · exact h.known a ha
      · exact List.mem_singleton.mp ha ▸ hedge.lt
    next => exact nomatch hok
  next => exact Except.ok.inj hok ▸ h

theorem propagateToSuccessor_ok (hf : MovableFunction table f)
    {s : (Nat → PredecessorMap SourceOperand) × List Nat} {p : Operation × Nat}
    (hp : (f.operationsOf b)[p.2]? = some p.1) (h : Propagated f equalValueMaps s) :
    ∃ s', propagateToSuccessor f b (equalValueMaps b) s p = .ok s' := by
  unfold propagateToSuccessor
  split
  next c hsucc =>
    have hedge : f.Edge b p.2 p.1 c := ⟨hp, hsucc⟩
    split
    next previousValues hfind =>
      have hcarries := h.inputs.at hp (mem_of_findPredecessor hfind)
      obtain ⟨merged, hmerge⟩ := mergeEqualValues_ok hcarries
        (fun k v => renameEqualValues_carries) (Carries.unique (hf.inverse hedge))
      exact ⟨_, by rw [hmerge]; rfl⟩
    next hnone =>
      obtain ⟨values, hmem⟩ := h.inputs.complete hedge trivial
      obtain ⟨values', hfind⟩ := exists_findPredecessor hmem
      rw [hfind] at hnone
      exact nomatch hnone
  next => exact ⟨_, rfl⟩

theorem propagateToSuccessors_spec {s s' : (Nat → PredecessorMap SourceOperand) × List Nat}
    (h : Propagated f equalValueMaps s)
    (hok : (f.operationsOf b).zipIdx.foldlM
      (propagateToSuccessor f b (equalValueMaps b)) s = .ok s') :
    Propagated f equalValueMaps s' :=
  foldlM_preserves (Propagated f equalValueMaps)
    (fun _ hp _ _ hI hstep =>
      propagateToSuccessor_spec (List.mem_zipIdx_iff_getElem?.mp hp) hI hstep) h hok

theorem propagateToSuccessors_ok (hf : MovableFunction table f)
    {s : (Nat → PredecessorMap SourceOperand) × List Nat} (h : Propagated f equalValueMaps s) :
    ∃ s', (f.operationsOf b).zipIdx.foldlM
      (propagateToSuccessor f b (equalValueMaps b)) s = .ok s' := by
  have hstep : ∀ p ∈ (f.operationsOf b).zipIdx, ∀ s, Propagated f equalValueMaps s →
      ∃ s', propagateToSuccessor f b (equalValueMaps b) s p = .ok s' ∧
        Propagated f equalValueMaps s' := by
    intro p hp s hs
    have hat := List.mem_zipIdx_iff_getElem?.mp hp
    obtain ⟨s', hok⟩ := propagateToSuccessor_ok hf hat hs
    exact ⟨s', hok, propagateToSuccessor_spec hat hs hok⟩
  obtain ⟨s', hok, -⟩ := foldlM_succeeds _ hstep h
  exact ⟨s', hok⟩

end

/-! ## One round -/

/-- The equalities of the other blocks stay, and those of the block grow. -/
theorem extends_update {equalValueMaps : Nat → EqualValueMap} {b : Nat}
    {equalValues : EqualValueMap} (hext : Extends (equalValueMaps b) equalValues) (c : Nat) :
    Extends (equalValueMaps c) (Function.update equalValueMaps b equalValues c) := by
  by_cases hc : c = b
  · subst hc
    rwa [Function.update_self]
  · rw [Function.update_of_ne hc]
    exact fun _ _ => id

/-- The equalities after the intersection are justified again. -/
theorem MapsInvariant.joined (hf : MovableFunction table f) {s : KillMovesState}
    (h : MapsInvariant table f s) {b : Nat} {new : EqualValueMap × EqualValueMap}
    (hjoined : Joined (s.inputValueMap b) (s.equalValueMaps b) new)
    (hnil : s.inputValueMap b = [] → new = (s.equalValueMaps b, ∅)) :
    MapsInvariant table f
      ⟨Function.update s.equalValueMaps b new.1, s.inputValueMap⟩ := by
  have hext := extends_update hjoined.grows
  have hnew : ∀ (k : Nat) (v : SourceOperand), new.1[k]? = some v →
      (s.equalValueMaps b)[k]? = some v ∨ Inherited f s.equalValueMaps b k v := by
    intro k v hkv
    by_cases hempty : s.inputValueMap b = []
    · rw [hnil hempty] at hkv
      exact .inl hkv
    · exact (hjoined.agreed k v hkv).imp_right (inherited_of_shouldInsert h.inputs hempty)
  refine ⟨h.inputs.mono fun hp => hp.mono hext, fun c k v hkv => ?_, fun c k v hkv => ?_⟩
  · dsimp only at hkv ⊢
    by_cases hc : c = b
    · subst hc
      rw [Function.update_self] at hkv
      rcases hnew k v hkv with hold | hinh
      · exact (h.justified c k v hold).imp_right fun hi => hi.mono hext
      · exact .inr (hinh.mono hext)
    · rw [Function.update_of_ne hc] at hkv
      exact (h.justified c k v hkv).imp_right fun hi => hi.mono hext
  · dsimp only at hkv
    by_cases hc : c = b
    · subst hc
      rw [Function.update_self] at hkv
      rcases hnew k v hkv with hold | hinh
      · exact h.typed c k v hold
      · obtain ⟨b', i, op, hedge⟩ := hinh.some
        exact (hinh.all hedge).typed hf hedge (h.typed b')
    · rw [Function.update_of_ne hc] at hkv
      exact h.typed c k v hkv

/-- One round keeps the invariant, adds known blocks, and adds none unless the block has
    got a new equality. -/
theorem processBlock_spec (hf : MovableFunction table f) {s s' : KillMovesState} {b : Nat}
    {added : List Nat} (h : MapsInvariant table f s)
    (hok : processBlock f s b = .ok (s', added)) :
    MapsInvariant table f s' ∧ (∀ a ∈ added, a < f.basicBlocks.length) ∧
      (∀ c, Extends (s.equalValueMaps c) (s'.equalValueMaps c)) ∧
      (added = [] ∨ ∃ k : Nat, (s.equalValueMaps b)[k]? = none ∧
        ∃ v, (s'.equalValueMaps b)[k]? = some v) := by
  unfold processBlock at hok
  rw [bind_eq_ok_iff] at hok
  obtain ⟨new, hnew, hok⟩ := hok
  obtain ⟨hjoined, hnil⟩ := intersectPredecessors_joined hnew
  have hinv := h.joined hf hjoined hnil
  have hext := extends_update hjoined.grows
  dsimp only at hok
  split at hok
  next =>
    rw [pure_eq_ok, Except.ok.injEq, Prod.mk.injEq] at hok
    obtain ⟨rfl, rfl⟩ := hok
    exact ⟨hinv, nofun, hext, .inl rfl⟩
  next hsome =>
    rw [bind_eq_ok_iff] at hok
    obtain ⟨walked, hwalk, hok⟩ := hok
    rw [pure_eq_ok, Except.ok.injEq, Prod.mk.injEq] at hok
    obtain ⟨rfl, rfl⟩ := hok
    have hself : Function.update s.equalValueMaps b new.1 b = new.1 := Function.update_self ..
    rw [← hself] at hwalk
    have hprop := propagateToSuccessors_spec
      ⟨hinv.inputs, fun _ hmem => absurd hmem List.not_mem_nil⟩ hwalk
    refine ⟨⟨hprop.inputs, hinv.justified, hinv.typed⟩, hprop.known, hext, .inr ?_⟩
    rcases hjoined.new with hempty | hfound
    · rw [hempty] at hsome
      exact absurd Std.ExtTreeMap.isEmpty_empty hsome
    · dsimp only
      rwa [hself]

/-- The assertions of a round hold for a block that can be reached. -/
theorem processBlock_ok (hf : MovableFunction table f) (hstart : NoEdgeToStart f)
    {s : KillMovesState} {b : Nat} (h : MapsInvariant table f s) (hreach : f.Reachable b) :
    ∃ r, processBlock f s b = .ok r := by
  have hunique : ∀ (k : Nat) (v v' : SourceOperand), s.inputValueMap b ≠ [] →
      shouldInsert (s.inputValueMap b) k v = true →
      (s.equalValueMaps b)[k]? = some v' ∨ shouldInsert (s.inputValueMap b) k v' = true →
      v' = v := by
    intro k v v' hne hagree hother
    have hinh := inherited_of_shouldInsert h.inputs hne hagree
    have hsame : ∀ {v'}, Inherited f s.equalValueMaps b k v' → v' = v := by
      intro v' hinh'
      obtain ⟨b', i, op, hedge⟩ := hinh.some
      exact (hinh'.all hedge).unique (hf.inverse hedge) (hinh.all hedge)
    rcases hother with hold | hagree'
    · rcases h.justified b k v' hold with hrec | hinh'
      · -- The block writes the register itself, so it cannot start with an equality for it
        obtain ⟨j, -, hwritten⟩ := hrec.writtenAt
        exact absurd hwritten ((hinh.not_written hf hstart h.justified hreach).1
          (hrec.typed hf).isLocal j)
      · exact hsame hinh'
    · exact hsame (inherited_of_shouldInsert h.inputs hne hagree')
  obtain ⟨new, hnew⟩ := intersectPredecessors_ok hunique
  obtain ⟨hjoined, hnil⟩ := intersectPredecessors_joined hnew
  have hinv := h.joined hf hjoined hnil
  have hself : Function.update s.equalValueMaps b new.1 b = new.1 := Function.update_self ..
  obtain ⟨walked, hwalk⟩ := propagateToSuccessors_ok (b := b) hf
    (s := (s.inputValueMap, [])) ⟨hinv.inputs, fun _ hmem => absurd hmem List.not_mem_nil⟩
  dsimp only at hwalk
  rw [hself] at hwalk
  unfold processBlock
  rw [hnew, ok_bind]
  dsimp only
  split
  · exact ⟨_, rfl⟩
  · exact ⟨_, by rw [hwalk]; rfl⟩

/-! ## The loop -/

/-- The equalities that the blocks do not have yet. -/
def missingEqualities (table : RegisterTable) (f : Function) (s : KillMovesState) : Nat :=
  ∑ b ∈ Finset.range f.basicBlocks.length,
    ((Finset.range table.length).filter fun k => (s.equalValueMaps b)[k]? = none).card

theorem missing_subset {equalValues equalValues' : EqualValueMap}
    (hext : Extends equalValues equalValues') :
    ((Finset.range table.length).filter fun k => equalValues'[k]? = none) ⊆
      (Finset.range table.length).filter fun k => equalValues[k]? = none := by
  intro k hk
  rw [Finset.mem_filter] at hk ⊢
  refine ⟨hk.1, ?_⟩
  cases hv : equalValues[k]? with
  | none => rfl
  | some v =>
      rw [hext k v hv] at hk
      exact nomatch hk.2

theorem processBlock_good (hf : MovableFunction table f) :
    WorkList.GoodStep (processBlock f) f.basicBlocks.length (MapsInvariant table f)
      (missingEqualities table f) := by
  refine ⟨fun hI _ hok => (processBlock_spec hf hI hok).1,
    fun hI _ hok => (processBlock_spec hf hI hok).2.1, fun {s b s' added} hI hb hok => ?_⟩
  obtain ⟨hinv, -, hext, hadded⟩ := processBlock_spec hf hI hok
  have hle : ∀ c ∈ Finset.range f.basicBlocks.length,
      ((Finset.range table.length).filter fun k => (s'.equalValueMaps c)[k]? = none).card ≤
        ((Finset.range table.length).filter fun k => (s.equalValueMaps c)[k]? = none).card :=
    fun c _ => Finset.card_le_card (missing_subset (hext c))
  rcases hadded with hnil | ⟨k, hnone, v, hsome⟩
  · exact .inl ⟨hnil, Finset.sum_le_sum hle⟩
  · refine .inr (Finset.sum_lt_sum hle ⟨b, Finset.mem_range.mpr hb, ?_⟩)
    refine Finset.card_lt_card ⟨missing_subset (hext b), fun hsub => ?_⟩
    have hlt := lt_of_isLocalVariable (hinv.typed b k v hsome).isLocal
    have hk := hsub (Finset.mem_filter.mpr ⟨Finset.mem_range.mpr hlt, hnone⟩)
    rw [Finset.mem_filter, hsome] at hk
    exact nomatch hk.2

end Kanagawa.Optimize
