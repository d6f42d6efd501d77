/-
  Kanagawa.Optimize.DataFlowFixpoint

  When the data-flow solver ends in a fixpoint.

  The map of a block only falls after the block has been processed for the first
  time, so that the solver ends.  A block whose map is empty when it is processed
  for the first time does not count as changed: what depends on it is neither
  processed nor processed again.
-/
import Kanagawa.Lib.Except
import Kanagawa.Lib.MapOrder
import Kanagawa.Optimize.DataFlowAnalysis

namespace Kanagawa.Optimize

open IR Lib Lib.Except Lib.MapOrder

namespace DataFlowAnalysis

variable {T : Type} {analysis : DataFlowAnalysis T}

/-! ## Maps -/


theorem safeInsert_eq_ok {m m' : RegisterMap T} {k : Nat} {v : T}
    (h : safeInsert m k v = .ok m') : m[k]? = none ∧ m' = m.insert k v := by
  rw [safeInsert] at h
  split at h
  · cases h
  · rename_i hnot
    rw [NatMap.contains_eq, Bool.not_eq_true, Option.isSome_eq_false_iff,
      Option.isNone_iff_eq_none] at hnot
    exact ⟨hnot, (Except.ok.inj h).symm⟩

theorem translate_fold_spec {a b : Nat} {entries : List (Nat × T)} :
    ∀ {m m' : RegisterMap T},
      entries.foldlM (fun translated p =>
        match analysis.translateRegisterIndex a b p.1 with
        | some translatedRegister =>
            safeInsert translated translatedRegister (analysis.translateCb p.2 a b)
        | none => .ok translated) m = .ok m' →
      ∀ k v, m'[k]? = some v ↔ m[k]? = some v ∨
        ∃ p ∈ entries, analysis.translateRegisterIndex a b p.1 = some k ∧
          analysis.translateCb p.2 a b = v := by
  induction entries with
  | nil =>
    intro m m' h k v
    rw [List.foldlM_nil, pure_eq_ok] at h
    rw [Except.ok.inj h]
    simp
  | cons p entries ih =>
    intro m m' h k v
    rw [List.foldlM_cons, bind_eq_ok_iff] at h
    obtain ⟨m₁, hm₁, hrest⟩ := h
    rw [ih hrest k v]
    cases hindex : analysis.translateRegisterIndex a b p.1 with
    | none =>
      rw [hindex] at hm₁
      rw [Except.ok.inj hm₁]
      simp [hindex]
    | some k' =>
      rw [hindex] at hm₁
      obtain ⟨hnone, rfl⟩ := safeInsert_eq_ok hm₁
      rw [NatMap.getElem?_insert]
      by_cases hk : k' = k
      · subst hk
        simp [hindex, hnone]
      · simp [hindex, hk]

/-- The entries of a map under the names of another block. -/
theorem translateRegisterMap_spec {a b : Nat} {m m' : RegisterMap T}
    (h : analysis.translateRegisterMap a b m = .ok m') (k : Nat) (v : T) :
    m'[k]? = some v ↔ ∃ k' v', m[k']? = some v' ∧
      analysis.translateRegisterIndex a b k' = some k ∧ analysis.translateCb v' a b = v := by
  rw [translate_fold_spec h k v, Std.ExtTreeMap.getElem?_empty]
  constructor
  · rintro (hnone | ⟨⟨k', v'⟩, hmem, hk, hv⟩)
    · cases hnone
    · exact ⟨k', v', NatMap.mem_toList_iff.mp hmem, hk, hv⟩
  · rintro ⟨k', v', hget, hk, hv⟩
    exact .inr ⟨(k', v'), NatMap.mem_toList_iff.mpr hget, hk, hv⟩

theorem getElem?_joinRegToT {m m' : RegisterMap T} {k : Nat} {v : T} :
    (analysis.joinRegToT m m')[k]? = some v ↔
      ∃ w w', m[k]? = some w ∧ m'[k]? = some w' ∧ analysis.joinCb w w' = v := by
  rw [joinRegToT, Std.ExtTreeMap.getElem?_filterMap', Option.bind_eq_some_iff]
  simp only [Option.map_eq_some_iff]
  constructor
  · rintro ⟨w, hw, w', hw', hv⟩
    exact ⟨w, w', hw, hw', hv⟩
  · rintro ⟨w, w', hw, hw', hv⟩
    exact ⟨w, hw, w', hw', hv⟩

/-! ## The map of a block -/

/-- A block without others, or with one that has been processed. -/
def HasInput (analysis : DataFlowAnalysis T) (s : DataFlowState T) (b : Nat) : Prop :=
  analysis.otherBbs b = [] ∨ ∃ c ∈ analysis.otherBbs b, s.processedBasicBlocks c = true

theorem joinOther_ne_none {s : DataFlowState T} {b c : Nat} {m m' : Option (RegisterMap T)}
    (h : m ≠ none ∨ s.processedBasicBlocks c = true) (hm : analysis.joinOther s b m c = .ok m') :
    m' ≠ none := by
  rw [joinOther] at hm
  split at hm
  · obtain ⟨t, -, hm⟩ := bind_eq_ok_iff.mp hm
    cases m with
    | none =>
      obtain rfl := Except.ok.inj hm
      exact Option.some_ne_none _
    | some r =>
      obtain rfl := Except.ok.inj hm
      exact Option.some_ne_none _
  · rename_i hnot
    obtain rfl := Except.ok.inj hm
    exact h.resolve_right hnot

/-- The others have a map if one of them has been processed. -/
theorem joinOthers_ne_none {s : DataFlowState T} {b c : Nat} {m : Option (RegisterMap T)}
    (hc : c ∈ analysis.otherBbs b) (hprocessed : s.processedBasicBlocks c = true)
    (hm : analysis.joinOthers s b = .ok m) : m ≠ none := by
  have hfold : ∀ (others : List Nat) (m m' : Option (RegisterMap T)), (m ≠ none ∨ c ∈ others) →
      others.foldlM (analysis.joinOther s b) m = .ok m' → m' ≠ none := by
    intro others
    induction others with
    | nil =>
      intro m m' h hm
      rw [List.foldlM_nil, pure_eq_ok] at hm
      obtain rfl := Except.ok.inj hm
      exact h.resolve_right List.not_mem_nil
    | cons c' others ih =>
      intro m m' h hm
      rw [List.foldlM_cons, bind_eq_ok_iff] at hm
      obtain ⟨m₁, hm₁, hm⟩ := hm
      refine ih m₁ m' ?_ hm
      rcases h with hne | hmem
      · exact .inl (joinOther_ne_none (.inl hne) hm₁)
      · rcases List.mem_cons.mp hmem with rfl | hmem
        · exact .inl (joinOther_ne_none (.inr hprocessed) hm₁)
        · exact .inr hmem
  exact hfold _ none m (.inr hc) hm

theorem computeMap_eq_ok {s : DataFlowState T} {b : Nat} {m : RegisterMap T}
    (h : analysis.computeMap s b = .ok m) :
    ∃ joined, analysis.joinOthers s b = .ok joined ∧
      m = analysis.runCallbacks b (joined.getD ∅) := by
  rw [computeMap, bind_eq_ok_iff] at h
  obtain ⟨joined, hjoined, h⟩ := h
  obtain ⟨-, -, h⟩ := bind_eq_ok_iff.mp h
  exact ⟨joined, hjoined, (Except.ok.inj h).symm⟩

/-- Only the maps of the others matter, and whether they have been processed. -/
theorem computeMap_congr {s s' : DataFlowState T} {b : Nat}
    (h : ∀ c ∈ analysis.otherBbs b, s.basicBlockMaps c = s'.basicBlockMaps c ∧
      s.processedBasicBlocks c = s'.processedBasicBlocks c) :
    analysis.computeMap s b = analysis.computeMap s' b := by
  have hfold : ∀ (others : List Nat) (m : Option (RegisterMap T)),
      (∀ c ∈ others, s.basicBlockMaps c = s'.basicBlockMaps c ∧
        s.processedBasicBlocks c = s'.processedBasicBlocks c) →
      others.foldlM (analysis.joinOther s b) m = others.foldlM (analysis.joinOther s' b) m := by
    intro others
    induction others with
    | nil => exact fun _ _ => rfl
    | cons c others ih =>
      intro m hall
      obtain ⟨hmap, hprocessed⟩ := hall c List.mem_cons_self
      rw [List.foldlM_cons, List.foldlM_cons]
      have hhead : analysis.joinOther s b m c = analysis.joinOther s' b m c := by
        rw [joinOther, joinOther, hmap, hprocessed]
      rw [hhead]
      refine bind_congr fun m' => ih m' fun c' hc' => hall c' (List.mem_cons_of_mem _ hc')
  rw [computeMap, computeMap, joinOthers, joinOthers, hfold _ none h]

/-! ## Blocks and their neighbours -/

/-- The second block gets the map of the first one. -/
def feeds (analysis : DataFlowAnalysis T) (b c : Nat) : Bool :=
  match analysis.direction with
  | .forward => analysis.leadsTo b c
  | .backward => analysis.leadsTo c b

theorem mem_dependents {b c : Nat} :
    c ∈ analysis.dependents b ↔ c < analysis.blockCount ∧ analysis.feeds b c = true := by
  rw [dependents, feeds]
  cases analysis.direction <;>
    simp only [getSuccessors, getPredecessors, List.mem_filter, List.mem_range]

theorem mem_otherBbs {b c : Nat} :
    c ∈ analysis.otherBbs b ↔ c < analysis.blockCount ∧ analysis.feeds c b = true := by
  rw [otherBbs, feeds]
  cases analysis.direction <;>
    simp only [getSuccessors, getPredecessors, List.mem_filter, List.mem_range]

/-- A block depends on those whose maps it gets. -/
theorem mem_dependents_iff {b c : Nat} (hb : b < analysis.blockCount)
    (hc : c < analysis.blockCount) : c ∈ analysis.dependents b ↔ b ∈ analysis.otherBbs c := by
  rw [mem_dependents, mem_otherBbs]
  constructor
  · exact fun h => ⟨hb, h.2⟩
  · exact fun h => ⟨hc, h.2⟩

theorem dependents_lt {b c : Nat} (h : c ∈ analysis.dependents b) : c < analysis.blockCount :=
  (mem_dependents.mp h).1

/-- The solver starts with a block of the function that gets no other maps. -/
structure StartsAlone (analysis : DataFlowAnalysis T) : Prop where
  start_lt : analysis.startBlock < analysis.blockCount
  start_others : analysis.otherBbs analysis.startBlock = []

theorem pending_eq (hstart : analysis.StartsAlone) :
    (if analysis.function.basicBlocks.isEmpty then [] else [analysis.startBlock]) =
      [analysis.startBlock] := by
  refine if_neg fun hempty => ?_
  have hlt := hstart.start_lt
  rw [blockCount, List.isEmpty_iff.mp hempty] at hlt
  exact absurd hlt (Nat.not_lt_zero _)

/-- A block is reached from another one in the direction of the analysis. -/
def Reaches (analysis : DataFlowAnalysis T) : Nat → Nat → Prop :=
  Relation.ReflTransGen fun b c => c ∈ analysis.dependents b

/-- A block where information starts: one without others, the start of the function or,
    backward, a block of a cycle. -/
def IsStarting (analysis : DataFlowAnalysis T) (b : Nat) : Prop :=
  b < analysis.blockCount ∧ (analysis.otherBbs b = [] ∨
    match analysis.direction with
    | .forward => b = analysis.function.start
    | .backward => Relation.TransGen (fun b c => c ∈ analysis.dependents b) b b)

/-- The map of a block is what its operations make of the join over all others. -/
def IsFixpoint (analysis : DataFlowAnalysis T) (s : DataFlowState T) (b : Nat) : Prop :=
  analysis.computeMap ⟨s.basicBlockMaps, fun _ => true⟩ b = .ok (s.basicBlockMaps b)

/-- The first block in the direction of the analysis is the only source of information, and
    no block that others depend on is left with an empty map. -/
structure PropagatesAll (analysis : DataFlowAnalysis T) : Prop extends analysis.StartsAlone where
  starting_reached : ∀ {b : Nat}, analysis.IsStarting b → analysis.Reaches analysis.startBlock b
  others_reached : ∀ {b c : Nat}, analysis.Reaches analysis.startBlock b →
    c ∈ analysis.otherBbs b → analysis.Reaches analysis.startBlock c
  never_empty : ∀ {b : Nat} (m : RegisterMap T), analysis.Reaches analysis.startBlock b →
    analysis.dependents b ≠ [] → analysis.runCallbacks b m ≠ ∅

/-! ## One round -/

variable {s s' : DataFlowState T} {b : Nat} {pending added : List Nat}


theorem processBlock_eq_ok [DecidableEq T]
    (h : analysis.processBlock s b = .ok (s', added)) :
    ∃ m, analysis.computeMap s b = .ok m ∧
      s' = ⟨Function.update s.basicBlockMaps b m, Function.update s.processedBasicBlocks b true⟩ ∧
      ((s.basicBlockMaps b ≠ m ∧ added = analysis.dependents b) ∨
        (s.basicBlockMaps b = m ∧ added = [])) := by
  rw [processBlock, bind_eq_ok_iff] at h
  obtain ⟨m, hm, h⟩ := h
  obtain ⟨rfl, rfl⟩ := Prod.ext_iff.mp (Except.ok.inj h)
  refine ⟨m, hm, rfl, ?_⟩
  by_cases hne : s.basicBlockMaps b ≠ m
  · exact .inl ⟨hne, if_pos hne⟩
  · exact .inr ⟨not_not.mp hne, if_neg hne⟩

theorem run_eq [DecidableEq T] (hstart : analysis.StartsAlone) (fuel : Nat) :
    analysis.run fuel = WorkList.run analysis.processBlock fuel [analysis.startBlock]
      ⟨fun _ => ∅, fun _ => false⟩ := by
  rw [run, pending_eq hstart]

/-! ## Maps fall -/

section

variable [PartialOrder T]

/-- The callbacks are monotone, and a join is no more than what it joins. -/
structure IsMonotone (analysis : DataFlowAnalysis T) : Prop where
  translate : ∀ {v v' : T} (a b : Nat), v ≤ v' →
    analysis.translateCb v a b ≤ analysis.translateCb v' a b
  join : ∀ {v v' w w' : T}, v ≤ v' → w ≤ w' → analysis.joinCb v w ≤ analysis.joinCb v' w'
  join_le_left : ∀ v w : T, analysis.joinCb v w ≤ v
  join_le_right : ∀ v w : T, analysis.joinCb v w ≤ w
  callback : ∀ {m m' : RegisterMap T} (op : Operation), Below m m' →
    Below (analysis.opCallback op m) (analysis.opCallback op m')

theorem translateRegisterMap_below (hmono : analysis.IsMonotone) {a b : Nat}
    {m m₀ t t₀ : RegisterMap T} (hbelow : Below m m₀)
    (ht : analysis.translateRegisterMap a b m = .ok t)
    (ht₀ : analysis.translateRegisterMap a b m₀ = .ok t₀) : Below t t₀ := by
  intro k v hv
  obtain ⟨k', v', hget, hk, rfl⟩ := (translateRegisterMap_spec ht k v).mp hv
  obtain ⟨v₀, hget₀, hle⟩ := hbelow k' v' hget
  exact ⟨analysis.translateCb v₀ a b,
    (translateRegisterMap_spec ht₀ k _).mpr ⟨k', v₀, hget₀, hk, rfl⟩, hmono.translate a b hle⟩

theorem joinRegToT_below (hmono : analysis.IsMonotone) {m₁ m₂ m₁' m₂' : RegisterMap T}
    (h₁ : Below m₁ m₁') (h₂ : Below m₂ m₂') :
    Below (analysis.joinRegToT m₁ m₂) (analysis.joinRegToT m₁' m₂') := by
  intro k v hv
  obtain ⟨w₁, w₂, hw₁, hw₂, rfl⟩ := getElem?_joinRegToT.mp hv
  obtain ⟨w₁', hw₁', hle₁⟩ := h₁ k w₁ hw₁
  obtain ⟨w₂', hw₂', hle₂⟩ := h₂ k w₂ hw₂
  exact ⟨_, getElem?_joinRegToT.mpr ⟨w₁', w₂', hw₁', hw₂', rfl⟩, hmono.join hle₁ hle₂⟩

theorem joinRegToT_below_left (hmono : analysis.IsMonotone) (m m' : RegisterMap T) :
    Below (analysis.joinRegToT m m') m := by
  intro k v hv
  obtain ⟨w, w', hw, -, rfl⟩ := getElem?_joinRegToT.mp hv
  exact ⟨w, hw, hmono.join_le_left w w'⟩

theorem joinRegToT_below_right (hmono : analysis.IsMonotone) (m m' : RegisterMap T) :
    Below (analysis.joinRegToT m m') m' := by
  intro k v hv
  obtain ⟨w, w', -, hw', rfl⟩ := getElem?_joinRegToT.mp hv
  exact ⟨w', hw', hmono.join_le_right w w'⟩

/-- Later states have more blocks processed, and less in their maps. -/
def Lower (s s₀ : DataFlowState T) : Prop :=
  ∀ b, s₀.processedBasicBlocks b = true →
    s.processedBasicBlocks b = true ∧ Below (s.basicBlockMaps b) (s₀.basicBlockMaps b)

theorem Lower.trans {s₁ s₂ s₃ : DataFlowState T} (h : Lower s₁ s₂) (h' : Lower s₂ s₃) :
    Lower s₁ s₃ := by
  intro b hb
  obtain ⟨hb₂, hbelow₂⟩ := h' b hb
  obtain ⟨hb₁, hbelow₁⟩ := h b hb₂
  exact ⟨hb₁, hbelow₁.trans hbelow₂⟩

/-- Once there is a map, there is one that says less. -/
def JoinBelow (m m₀ : Option (RegisterMap T)) : Prop :=
  ∀ t₀, m₀ = some t₀ → ∃ t, m = some t ∧ Below t t₀

theorem joinOther_below (hmono : analysis.IsMonotone) {s s₀ : DataFlowState T} {b c : Nat}
    (hlower : Lower s s₀) {m m₀ m' m₀' : Option (RegisterMap T)} (hbelow : JoinBelow m m₀)
    (hm : analysis.joinOther s b m c = .ok m') (hm₀ : analysis.joinOther s₀ b m₀ c = .ok m₀') :
    JoinBelow m' m₀' := by
  rw [joinOther] at hm hm₀
  cases hc₀ : s₀.processedBasicBlocks c with
  | true =>
    obtain ⟨hc, hmaps⟩ := hlower c hc₀
    simp only [hc₀, hc, if_true, bind_eq_ok_iff] at hm hm₀
    obtain ⟨t, ht, hm⟩ := hm
    obtain ⟨t₀, ht₀, hm₀⟩ := hm₀
    have htranslated := translateRegisterMap_below hmono hmaps ht ht₀
    cases m₀ with
    | none =>
      obtain rfl := Except.ok.inj hm₀
      intro t₀' ht₀'
      obtain rfl := Option.some.inj ht₀'
      cases m with
      | none =>
        obtain rfl := Except.ok.inj hm
        exact ⟨t, rfl, htranslated⟩
      | some r =>
        obtain rfl := Except.ok.inj hm
        exact ⟨_, rfl, (joinRegToT_below_right hmono r t).trans htranslated⟩
    | some r₀ =>
      obtain ⟨r, rfl, hr⟩ := hbelow r₀ rfl
      obtain rfl := Except.ok.inj hm
      obtain rfl := Except.ok.inj hm₀
      intro t₀' ht₀'
      obtain rfl := Option.some.inj ht₀'
      exact ⟨_, rfl, joinRegToT_below hmono hr htranslated⟩
  | false =>
    rw [hc₀, if_neg Bool.false_ne_true] at hm₀
    obtain rfl := Except.ok.inj hm₀
    split at hm
    · obtain ⟨t, -, hm⟩ := bind_eq_ok_iff.mp hm
      intro t₀ ht₀
      obtain ⟨r, rfl, hr⟩ := hbelow t₀ ht₀
      obtain rfl := Except.ok.inj hm
      exact ⟨_, rfl, (joinRegToT_below_left hmono r t).trans hr⟩
    · obtain rfl := Except.ok.inj hm
      exact hbelow

theorem joinOthers_below (hmono : analysis.IsMonotone) {s s₀ : DataFlowState T} {b : Nat}
    (hlower : Lower s s₀) {m m₀ : Option (RegisterMap T)}
    (hm : analysis.joinOthers s b = .ok m) (hm₀ : analysis.joinOthers s₀ b = .ok m₀) :
    JoinBelow m m₀ := by
  have hfold : ∀ (others : List Nat) (m m₀ m' m₀' : Option (RegisterMap T)), JoinBelow m m₀ →
      others.foldlM (analysis.joinOther s b) m = .ok m' →
      others.foldlM (analysis.joinOther s₀ b) m₀ = .ok m₀' → JoinBelow m' m₀' := by
    intro others
    induction others with
    | nil =>
      intro m m₀ m' m₀' hbelow hm hm₀
      rw [List.foldlM_nil, pure_eq_ok] at hm hm₀
      obtain rfl := Except.ok.inj hm
      obtain rfl := Except.ok.inj hm₀
      exact hbelow
    | cons c others ih =>
      intro m m₀ m' m₀' hbelow hm hm₀
      rw [List.foldlM_cons, bind_eq_ok_iff] at hm hm₀
      obtain ⟨m₁, hm₁, hm⟩ := hm
      obtain ⟨m₂, hm₂, hm₀⟩ := hm₀
      exact ih m₁ m₂ m' m₀' (joinOther_below hmono hlower hbelow hm₁ hm₂) hm hm₀
  exact hfold _ none none m m₀ (fun _ h => nomatch h) hm hm₀

theorem runCallbacks_below (hmono : analysis.IsMonotone) (b : Nat) {m m' : RegisterMap T}
    (h : Below m m') : Below (analysis.runCallbacks b m) (analysis.runCallbacks b m') := by
  have hfold : ∀ (ops : List Operation) (m m' : RegisterMap T), Below m m' →
      Below (ops.foldl (fun map op => analysis.opCallback op map) m)
        (ops.foldl (fun map op => analysis.opCallback op map) m') := by
    intro ops
    induction ops with
    | nil => exact fun _ _ h => h
    | cons op ops ih => exact fun m m' h => ih _ _ (hmono.callback op h)
  exact hfold _ m m' h

/-- The map of a block falls as the state does. -/
theorem computeMap_below (hmono : analysis.IsMonotone) {s s₀ : DataFlowState T} {b : Nat}
    (hlower : Lower s s₀) (hinput : analysis.HasInput s₀ b) {m m₀ : RegisterMap T}
    (hm : analysis.computeMap s b = .ok m) (hm₀ : analysis.computeMap s₀ b = .ok m₀) :
    Below m m₀ := by
  obtain ⟨joined, hjoined, rfl⟩ := computeMap_eq_ok hm
  obtain ⟨joined₀, hjoined₀, rfl⟩ := computeMap_eq_ok hm₀
  refine runCallbacks_below hmono b ?_
  rcases hinput with hnone | ⟨c, hc, hprocessed⟩
  · rw [joinOthers, hnone, List.foldlM_nil, pure_eq_ok] at hjoined hjoined₀
    rw [← Except.ok.inj hjoined, ← Except.ok.inj hjoined₀]
    exact .refl _
  · obtain ⟨t₀, rfl⟩ := Option.ne_none_iff_exists'.mp (joinOthers_ne_none hc hprocessed hjoined₀)
    obtain ⟨t, rfl, hbelow⟩ := joinOthers_below hmono hlower hjoined hjoined₀ t₀ rfl
    exact hbelow

/-- What holds in every round: each block that is pending has an input, and the map of each
    block that has been processed was computed in a state that was no lower. -/
structure Falling (analysis : DataFlowAnalysis T) (s : DataFlowState T) (pending : List Nat) :
    Prop where
  pending_lt : ∀ b ∈ pending, b < analysis.blockCount
  processed_lt : ∀ b, s.processedBasicBlocks b = true → b < analysis.blockCount
  input : ∀ b ∈ pending, analysis.HasInput s b
  computed : ∀ b, s.processedBasicBlocks b = true → ∃ s₀, Lower s s₀ ∧ analysis.HasInput s₀ b ∧
    analysis.computeMap s₀ b = .ok (s.basicBlockMaps b)

theorem HasInput.lower {s₀ : DataFlowState T} (h : analysis.HasInput s₀ b)
    (hlower : Lower s s₀) : analysis.HasInput s b := by
  rcases h with hnone | ⟨c, hc, hprocessed⟩
  · exact .inl hnone
  · exact .inr ⟨c, hc, (hlower c hprocessed).1⟩

/-- Processing a block again gives it a map that says no more. -/
theorem Falling.map_below (hmono : analysis.IsMonotone) (h : analysis.Falling s pending)
    (hprocessed : s.processedBasicBlocks b = true) {m : RegisterMap T}
    (hm : analysis.computeMap s b = .ok m) : Below m (s.basicBlockMaps b) := by
  obtain ⟨s₀, hlower, hinput, hm₀⟩ := h.computed b hprocessed
  exact computeMap_below hmono hlower hinput hm hm₀

theorem Falling.lower (hmono : analysis.IsMonotone) (h : analysis.Falling s pending)
    {m : RegisterMap T} (hm : analysis.computeMap s b = .ok m) :
    Lower ⟨Function.update s.basicBlockMaps b m, Function.update s.processedBasicBlocks b true⟩
      s := by
  intro a ha
  by_cases hab : a = b
  · subst hab
    simp only [Function.update_self]
    exact ⟨trivial, h.map_below hmono ha hm⟩
  · simp only [Function.update_of_ne hab]
    exact ⟨ha, .refl _⟩

theorem initial_falling (hstart : analysis.StartsAlone) :
    analysis.Falling ⟨fun _ => ∅, fun _ => false⟩ [analysis.startBlock] where
  pending_lt b hb := by
    rw [List.mem_singleton.mp hb]
    exact hstart.start_lt
  processed_lt _ h := nomatch h
  input b hb := by
    rw [List.mem_singleton.mp hb]
    exact .inl hstart.start_others
  computed _ h := nomatch h

theorem Falling.step [DecidableEq T] (hmono : analysis.IsMonotone) (h : analysis.Falling s (b :: pending))
    (hstep : analysis.processBlock s b = .ok (s', added)) :
    analysis.Falling s' (added.foldl WorkList.add pending) := by
  obtain ⟨m, hm, rfl, hadded⟩ := processBlock_eq_ok hstep
  have hb := h.pending_lt b List.mem_cons_self
  have hlower := h.lower hmono hm
  have hdepends : ∀ a ∈ added, a ∈ analysis.dependents b := by
    rcases hadded with ⟨-, rfl⟩ | ⟨-, rfl⟩
    · exact fun a ha => ha
    · exact fun a ha => nomatch ha
  refine ⟨fun a ha => ?_, fun a ha => ?_, fun a ha => ?_, fun a ha => ?_⟩
  · rcases (WorkList.mem_foldl_add added).mp ha with ha | ha
    · exact dependents_lt (hdepends a ha)
    · exact h.pending_lt a (List.mem_cons_of_mem _ ha)
  · by_cases hab : a = b
    · exact hab ▸ hb
    · simp only [Function.update_of_ne hab] at ha
      exact h.processed_lt a ha
  · rcases (WorkList.mem_foldl_add added).mp ha with ha | ha
    · -- The block that was processed is an input of those it adds
      have hdependent := hdepends a ha
      refine .inr ⟨b, (mem_dependents_iff hb (dependents_lt hdependent)).mp hdependent, ?_⟩
      exact Function.update_self _ _ _
    · exact (h.input a (List.mem_cons_of_mem _ ha)).lower hlower
  · by_cases hab : a = b
    · subst hab
      refine ⟨s, hlower, h.input a List.mem_cons_self, ?_⟩
      simp only [Function.update_self]
      exact hm
    · simp only [Function.update_of_ne hab] at ha ⊢
      obtain ⟨s₀, hlower₀, hinput, hcomputed⟩ := h.computed a ha
      exact ⟨s₀, hlower.trans hlower₀, hinput, hcomputed⟩

end

/-! ## The solver ends -/

/-- The blocks to process for the first time. -/
def unprocessed (analysis : DataFlowAnalysis T) (s : DataFlowState T) : Finset Nat :=
  (Finset.range analysis.blockCount).filter fun b => s.processedBasicBlocks b = false

/-- The weight of all maps. -/
def totalWeight (analysis : DataFlowAnalysis T) (height : T → Nat) (s : DataFlowState T) : Nat :=
  ∑ b ∈ Finset.range analysis.blockCount, weight height (s.basicBlockMaps b)

/-- How much can still happen. -/
def remaining (analysis : DataFlowAnalysis T) (height : T → Nat) (s : DataFlowState T) :
    Nat ×ₗ Nat :=
  toLex ((analysis.unprocessed s).card, analysis.totalWeight height s)

theorem unprocessed_ssubset {m : RegisterMap T} (hb : b < analysis.blockCount)
    (hprocessed : s.processedBasicBlocks b = false) :
    analysis.unprocessed ⟨Function.update s.basicBlockMaps b m,
      Function.update s.processedBasicBlocks b true⟩ ⊂ analysis.unprocessed s := by
  rw [Finset.ssubset_iff_of_subset]
  · refine ⟨b, Finset.mem_filter.mpr ⟨Finset.mem_range.mpr hb, hprocessed⟩, fun hmem => ?_⟩
    have hfalse := (Finset.mem_filter.mp hmem).2
    simp only [Function.update_self] at hfalse
    cases hfalse
  · intro a ha
    obtain ⟨hrange, hfalse⟩ := Finset.mem_filter.mp ha
    have hab : a ≠ b := by
      rintro rfl
      simp only [Function.update_self] at hfalse
      cases hfalse
    simp only [Function.update_of_ne hab] at hfalse
    exact Finset.mem_filter.mpr ⟨hrange, hfalse⟩

theorem totalWeight_lt {height : T → Nat} {m : RegisterMap T} {processed : Nat → Bool}
    (hb : b < analysis.blockCount)
    (hlt : weight height m < weight height (s.basicBlockMaps b)) :
    analysis.totalWeight height ⟨Function.update s.basicBlockMaps b m, processed⟩ <
      analysis.totalWeight height s := by
  refine Finset.sum_lt_sum (fun a _ => ?_) ⟨b, Finset.mem_range.mpr hb, ?_⟩
  · by_cases hab : a = b
    · subst hab
      simp only [Function.update_self]
      exact hlt.le
    · simp only [Function.update_of_ne hab]
      exact Nat.le_refl _
  · simp only [Function.update_self]
    exact hlt

section

variable [PartialOrder T] [DecidableEq T] {height : T → Nat}

theorem remaining_lt (hheight : StrictMono height)
    (hmono : analysis.IsMonotone) (h : analysis.Falling s (b :: pending))
    (hstep : analysis.processBlock s b = .ok (s', added)) :
    (added = [] ∧ analysis.remaining height s' ≤ analysis.remaining height s) ∨
      analysis.remaining height s' < analysis.remaining height s := by
  obtain ⟨m, hm, rfl, hadded⟩ := processBlock_eq_ok hstep
  have hb := h.pending_lt b List.mem_cons_self
  cases hprocessed : s.processedBasicBlocks b with
  | false =>
    -- One block less to process for the first time
    refine .inr (Prod.Lex.toLex_lt_toLex.mpr (.inl ?_))
    exact Finset.card_lt_card (unprocessed_ssubset hb hprocessed)
  | true =>
    have hsame : Function.update s.processedBasicBlocks b true = s.processedBasicBlocks := by
      rw [← hprocessed, Function.update_eq_self]
    rw [hsame]
    rcases hadded with ⟨hne, -⟩ | ⟨heq, rfl⟩
    · have hlt := weight_lt hheight (h.map_below hmono hprocessed hm) hne.symm
      exact .inr (Prod.Lex.toLex_lt_toLex.mpr (.inr ⟨rfl, totalWeight_lt hb hlt⟩))
    · refine .inl ⟨rfl, ?_⟩
      rw [← heq, Function.update_eq_self]

/-- The solver ends. -/
theorem run_ends (hheight : StrictMono height) (hmono : analysis.IsMonotone)
    (hstart : analysis.StartsAlone) : ∃ fuel r, analysis.run fuel = some r := by
  have hinvariant : WorkList.IsInvariant analysis.processBlock analysis.Falling :=
    fun h hstep => h.step hmono hstep
  simp only [run_eq hstart]
  exact hinvariant.run_ends (fun h hstep => remaining_lt hheight hmono h hstep)
    (initial_falling hstart)

end

/-! ## The solver ends in a fixpoint -/

/-- What holds in every round, if no map is left empty: the blocks that have been processed
    are settled, and those that depend on them have been processed, or they are pending. -/
structure Settling (analysis : DataFlowAnalysis T) (s : DataFlowState T) (pending : List Nat) :
    Prop where
  reached : ∀ b, s.processedBasicBlocks b = true ∨ b ∈ pending →
    analysis.Reaches analysis.startBlock b
  start : s.processedBasicBlocks analysis.startBlock = true ∨ analysis.startBlock ∈ pending
  closed : ∀ b, s.processedBasicBlocks b = true → ∀ c ∈ analysis.dependents b,
    s.processedBasicBlocks c = true ∨ c ∈ pending
  settled : ∀ b, s.processedBasicBlocks b = true →
    analysis.computeMap s b = .ok (s.basicBlockMaps b) ∨ b ∈ pending
  unprocessed : ∀ b, s.processedBasicBlocks b = false → s.basicBlockMaps b = ∅

/-- A block whose round adds nothing was processed before, or nothing depends on it. -/
theorem Settling.unchanged (hall : analysis.PropagatesAll) (h : analysis.Settling s (b :: pending))
    {m : RegisterMap T} (hm : analysis.computeMap s b = .ok m) (heq : s.basicBlockMaps b = m) :
    s.processedBasicBlocks b = true ∨ analysis.dependents b = [] := by
  by_contra hnot
  push Not at hnot
  obtain ⟨hprocessed, hdependents⟩ := hnot
  have hempty := h.unprocessed b (Bool.not_eq_true _ ▸ hprocessed)
  obtain ⟨joined, -, hmap⟩ := computeMap_eq_ok hm
  refine hall.never_empty (joined.getD ∅) (h.reached b (.inr List.mem_cons_self)) hdependents ?_
  rw [← hmap, ← heq, hempty]

theorem initial_settling :
    analysis.Settling ⟨fun _ => ∅, fun _ => false⟩ [analysis.startBlock] where
  reached b hb := by
    rcases hb with hb | hb
    · cases hb
    · rw [List.mem_singleton.mp hb]
      exact .refl
  start := .inr (List.mem_singleton.mpr rfl)
  closed _ h := nomatch h
  settled _ h := nomatch h
  unprocessed _ _ := rfl

/-- When nothing is pending, every block that is reached is a fixpoint. -/
theorem Settling.isFixpoint (hall : analysis.PropagatesAll) (h : analysis.Settling s [])
    (hb : analysis.Reaches analysis.startBlock b) : analysis.IsFixpoint s b := by
  have hprocessed : ∀ {c}, analysis.Reaches analysis.startBlock c →
      s.processedBasicBlocks c = true := by
    intro c hc
    induction hc with
    | refl => exact h.start.resolve_right List.not_mem_nil
    | tail _ hdependent ih => exact (h.closed _ ih _ hdependent).resolve_right List.not_mem_nil
  have hsettled := (h.settled b (hprocessed hb)).resolve_right List.not_mem_nil
  rw [IsFixpoint, ← hsettled]
  refine computeMap_congr fun c hc => ⟨rfl, ?_⟩
  exact (hprocessed (hall.others_reached hb hc)).symm

variable [PartialOrder T] [DecidableEq T]

theorem Settling.step (hall : analysis.PropagatesAll) (hfalling : analysis.Falling s (b :: pending))
    (h : analysis.Settling s (b :: pending))
    (hstep : analysis.processBlock s b = .ok (s', added)) :
    analysis.Settling s' (added.foldl WorkList.add pending) := by
  obtain ⟨m, hm, rfl, hadded⟩ := processBlock_eq_ok hstep
  have hb := hfalling.pending_lt b List.mem_cons_self
  have hreached := h.reached b (.inr List.mem_cons_self)
  -- Either the dependents are added, or the state does not change for them
  have hcases : added = analysis.dependents b ∨ (s.basicBlockMaps b = m ∧
      (s.processedBasicBlocks b = true ∨ analysis.dependents b = [])) := by
    rcases hadded with ⟨-, hadded⟩ | ⟨heq, -⟩
    · exact .inl hadded
    · exact .inr ⟨heq, h.unchanged hall hm heq⟩
  have hadded' : ∀ c ∈ added, c ∈ analysis.dependents b := by
    rcases hadded with ⟨-, rfl⟩ | ⟨-, rfl⟩
    · exact fun c hc => hc
    · exact fun c hc => nomatch hc
  have hpending : ∀ c, s.processedBasicBlocks c = true ∨ c ∈ b :: pending →
      Function.update s.processedBasicBlocks b true c = true ∨
        c ∈ added.foldl WorkList.add pending := by
    intro c hc
    by_cases hcb : c = b
    · exact .inl (hcb ▸ Function.update_self _ _ _)
    · rw [Function.update_of_ne hcb, WorkList.mem_foldl_add]
      rcases hc with hc | hc
      · exact .inl hc
      · exact .inr (.inr ((List.mem_cons.mp hc).resolve_left hcb))
  refine ⟨fun a ha => ?_, hpending _ h.start, fun a ha c hc => ?_, fun a ha => ?_, fun a ha => ?_⟩
  · by_cases hab : a = b
    · exact hab ▸ hreached
    · rw [WorkList.mem_foldl_add] at ha
      simp only [Function.update_of_ne hab] at ha
      rcases ha with ha | ha | ha
      · exact h.reached a (.inl ha)
      · exact hreached.tail (hadded' a ha)
      · exact h.reached a (.inr (List.mem_cons_of_mem _ ha))
  · by_cases hab : a = b
    · subst hab
      rcases hcases with rfl | ⟨-, hprocessed | hnone⟩
      · exact .inr ((WorkList.mem_foldl_add _).mpr (.inl hc))
      · exact hpending c (h.closed a hprocessed c hc)
      · rw [hnone] at hc
        exact nomatch hc
    · simp only [Function.update_of_ne hab] at ha
      exact hpending c (h.closed a ha c hc)
  · -- The maps of blocks that do not depend on this one are what they were
    have hlt : a < analysis.blockCount := by
      by_cases hab : a = b
      · exact hab ▸ hb
      · simp only [Function.update_of_ne hab] at ha
        exact hfalling.processed_lt a ha
    have hsettled : analysis.computeMap s a =
        .ok (Function.update s.basicBlockMaps b m a) ∨ a ∈ added.foldl WorkList.add pending := by
      by_cases hab : a = b
      · subst hab
        rw [Function.update_self]
        exact .inl hm
      · simp only [Function.update_of_ne hab] at ha ⊢
        rcases h.settled a ha with hset | hmem
        · exact .inl hset
        · exact .inr ((WorkList.mem_foldl_add _).mpr
            (.inr ((List.mem_cons.mp hmem).resolve_left hab)))
    by_cases hdependent : a ∈ analysis.dependents b
    · rcases hcases with rfl | ⟨heq, hprocessed | hnone⟩
      · exact .inr ((WorkList.mem_foldl_add _).mpr (.inl hdependent))
      · have hsame : Function.update s.processedBasicBlocks b true = s.processedBasicBlocks := by
          rw [← hprocessed, Function.update_eq_self]
        rw [← heq, Function.update_eq_self] at hsettled ⊢
        rw [hsame]
        exact hsettled
      · rw [hnone] at hdependent
        exact nomatch hdependent
    · refine hsettled.imp_left fun hset => ?_
      rw [← hset]
      refine computeMap_congr fun c hc => ?_
      have hcb : c ≠ b := by
        rintro rfl
        exact hdependent ((mem_dependents_iff hb hlt).mpr hc)
      simp only [Function.update_of_ne hcb, and_self]
  · by_cases hab : a = b
    · subst hab
      simp only [Function.update_self] at ha
      cases ha
    · simp only [Function.update_of_ne hab] at ha ⊢
      exact h.unprocessed a ha

/-- Which registers have been written: a print writes register 0, and so does an enqueue if
    `atEnqueue` holds. -/
def writtenCallback (atEnqueue : Bool) (op : Operation) (map : RegisterMap Unit) :
    RegisterMap Unit :=
  if op.opcode = .print ∨ atEnqueue = true then map.insert 0 () else map

/-- Block 0 leads to block 1, which prints. -/
def writtenAnalysis (atEnqueue : Bool) : DataFlowAnalysis Unit where
  table := [⟨1, .local, false, false, none⟩]
  function := ⟨0, [⟨[], [{ opcode := .enqueue false, successorBlock := some 1 }], []⟩,
    ⟨[], [{ opcode := .print }], []⟩]⟩
  mode := .unscheduled
  direction := .forward
  front := 0
  back := 1
  translateRegisterIndex _ _ register := some register
  translateCb v _ _ := v
  joinCb v _ := v
  opCallback := writtenCallback atEnqueue

theorem insert_below {m m' : RegisterMap Unit} (k : Nat) (h : Below m m') :
    Below (m.insert k ()) (m'.insert k ()) := by
  intro k' v hv
  rw [NatMap.getElem?_insert] at hv ⊢
  split
  · exact ⟨(), rfl, le_refl _⟩
  · rename_i hk
    rw [if_neg hk] at hv
    exact h k' v hv

theorem writtenAnalysis_isMonotone (atEnqueue : Bool) :
    (writtenAnalysis atEnqueue).IsMonotone where
  translate _ _ h := h
  join h _ := h
  join_le_left _ _ := le_refl _
  join_le_right _ _ := le_refl _
  callback op h := by
    simp only [writtenAnalysis, writtenCallback]
    split
    · exact insert_below 0 h
    · exact h

theorem unit_strictMono : StrictMono fun _ : Unit => 0 := fun _ _ h => absurd h (lt_irrefl ())

theorem writtenAnalysis_dependents (atEnqueue : Bool) :
    ∀ b, (writtenAnalysis atEnqueue).dependents b = if b = 0 then [1] else []
  | 0 => rfl
  | 1 => rfl
  | _ + 2 => rfl

theorem writtenAnalysis_reaches {atEnqueue : Bool} {b : Nat} (hb : b < 2) :
    (writtenAnalysis atEnqueue).Reaches 0 b := by
  rcases (by omega : b = 0 ∨ b = 1) with rfl | rfl
  · exact .refl
  · refine .single ?_
    rw [writtenAnalysis_dependents]
    exact List.mem_singleton.mpr rfl

theorem writtenAnalysis_isStarting {atEnqueue : Bool} :
    (writtenAnalysis atEnqueue).IsStarting 0 := ⟨Nat.zero_lt_two, .inl rfl⟩

/-- With something known after every operation the maps of both blocks are fixpoints. -/
theorem writtenAnalysis_propagatesAll : (writtenAnalysis true).PropagatesAll where
  start_lt := Nat.zero_lt_two
  start_others := rfl
  starting_reached h := writtenAnalysis_reaches h.1
  others_reached _ hc := by
    exact writtenAnalysis_reaches (mem_otherBbs.mp hc).1
  never_empty := by
    intro b m _ hdependents
    rw [writtenAnalysis_dependents] at hdependents
    obtain rfl : b = 0 := by
      by_contra hb
      exact hdependents (if_neg hb)
    exact Std.ExtTreeMap.insert_ne_empty

end DataFlowAnalysis

end Kanagawa.Optimize
