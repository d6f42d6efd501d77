/-
  Kanagawa.Ram.MappingSound

  The mapping keeps its accounts, and stops where no rule applies.

  `Invariant` ties the three counters to the sums over the items of each kind,
  and the two candidate sets to the kinds.  A single move of an item keeps it, so
  every state between the start and the end of the loop has it; no assertion
  fires and no subtraction wraps because the item that moves is one of its kind.
-/
import Kanagawa.Lib.Accounts
import Kanagawa.Lib.Except
import Kanagawa.Ram.Mapping

namespace Kanagawa.Ram

open Lib.Accounts Lib.Except

variable {K : Type}

/-! ## The kind of an item -/

/-- The RAM an item is mapped to. -/
inductive RamKind where
  | lut
  | block
  | deep
  deriving Repr, DecidableEq

/-- The kind that the flags of an item stand for: FIFOs have no flag for block RAM. -/
def MemoryOrFifo.ramKind (flags : Nat → RamFlags) (item : MemoryOrFifo K) : RamKind :=
  if (flags item.registerIndex).useLutRam then .lut
  else if item.isMemory && !(flags item.registerIndex).useBlockRam then .deep
  else .block

/-- What the constructor promises of an item and its flags. -/
structure Constructed (item : MemoryOrFifo K) (flags : RamFlags) : Prop where
  lut_iff : flags.useLutRam = true ↔ 0 < item.lutRamsNeeded
  exclusive : ¬ (flags.useLutRam ∧ flags.useBlockRam)
  block : flags.useLutRam = false → item.isMemory → flags.useBlockRam
  deep : 0 < item.deepRamsNeeded → item.isMemory

/-- The items of a program: one for a register, and only memories fit a deep RAM. -/
structure Items (items : List (MemoryOrFifo K)) : Prop where
  nodup : items.Nodup
  index_inj : ∀ i ∈ items, ∀ j ∈ items, i.registerIndex = j.registerIndex → i = j
  deep : ∀ i ∈ items, 0 < i.deepRamsNeeded → i.isMemory

/-- The accounts of the three kinds, with the items that may still move. -/
structure Invariant (config : RamConfig) (items : List (MemoryOrFifo K)) (routerRams : Nat)
    (st : RamState K) : Prop where
  lut_eq : st.lutRamsUsed
    = total (MemoryOrFifo.ramKind st.flags) .lut MemoryOrFifo.lutRamsNeeded items
  block_eq : st.blockRamsUsed
    = total (MemoryOrFifo.ramKind st.flags) .block MemoryOrFifo.blockRamsNeeded items + routerRams
  deep_eq : st.deepRamsUsed
    = total (MemoryOrFifo.ramKind st.flags) .deep MemoryOrFifo.deepRamsNeeded items
  deep_le : st.deepRamsUsed ≤ config.maxDeepRam
  exclusive : ∀ i ∈ items, ¬ ((st.flags i.registerIndex).useLutRam
    ∧ (st.flags i.registerIndex).useBlockRam)
  block_nodup : st.potentialBlockRams.Nodup
  mem_block : ∀ i, i ∈ st.potentialBlockRams ↔ i ∈ items ∧ i.ramKind st.flags = .lut
  deep_nodup : st.potentialDeepRams.Nodup
  mem_deep : ∀ i, i ∈ st.potentialDeepRams ↔ i ∈ items ∧ i.ramKind st.flags = .block ∧
    0 < config.maxDeepRam ∧ 0 < i.deepRamsNeeded

section Flags

variable {items : List (MemoryOrFifo K)} {item : MemoryOrFifo K} {flags : Nat → RamFlags}

theorem useLutRam_of_ramKind (h : item.ramKind flags = .lut) :
    (flags item.registerIndex).useLutRam = true := by
  by_contra hne
  rw [MemoryOrFifo.ramKind, if_neg hne] at h
  split at h <;> cases h

/-- A memory in block RAM has its flag set, and the other one not. -/
theorem flags_of_ramKind_block (h : item.ramKind flags = .block) (hmem : item.isMemory) :
    (flags item.registerIndex).useLutRam = false ∧
      (flags item.registerIndex).useBlockRam = true := by
  rw [MemoryOrFifo.ramKind] at h
  split at h
  next => cases h
  next hlut =>
    split at h
    next => cases h
    next hblock =>
      rw [hmem, Bool.true_and, Bool.not_eq_true, Bool.not_eq_false'] at hblock
      exact ⟨Bool.eq_false_iff.mpr hlut, hblock⟩

/-- The flags of one item do not change the kind of another. -/
theorem ramKind_update_of_ne (h : Items items) (hitem : item ∈ items) (f : RamFlags) :
    ∀ i ∈ items, i ≠ item →
      i.ramKind (Function.update flags item.registerIndex f) = i.ramKind flags := by
  intro i hi hne
  have hindex : i.registerIndex ≠ item.registerIndex :=
    fun heq => hne (h.index_inj i hi item hitem heq)
  rw [MemoryOrFifo.ramKind, MemoryOrFifo.ramKind, Function.update_of_ne hindex]

theorem ramKind_update_self (f : RamFlags) :
    item.ramKind (Function.update flags item.registerIndex f)
      = if f.useLutRam then .lut else if item.isMemory && !f.useBlockRam then .deep else .block := by
  rw [MemoryOrFifo.ramKind, Function.update_self]

/-- The flags stay exclusive when those of one item do. -/
theorem exclusive_update {f : RamFlags} (hf : ¬ (f.useLutRam ∧ f.useBlockRam))
    (h : ∀ i ∈ items, ¬ ((flags i.registerIndex).useLutRam
      ∧ (flags i.registerIndex).useBlockRam)) (n : Nat) :
    ∀ i ∈ items, ¬ ((Function.update flags n f i.registerIndex).useLutRam
      ∧ (Function.update flags n f i.registerIndex).useBlockRam) := by
  intro i hi
  by_cases hindex : i.registerIndex = n
  · rw [hindex, Function.update_self]
    exact hf
  · rw [Function.update_of_ne hindex]
    exact h i hi

end Flags

/-! ## Candidate sets -/

theorem insertDescending_perm [LT K] [DecidableLT K] (key : MemoryOrFifo K → K)
    (x : MemoryOrFifo K) (l : List (MemoryOrFifo K)) :
    (insertDescending key x l).Perm (x :: l) := by
  induction l with
  | nil => exact .refl _
  | cons e es ih =>
      rw [insertDescending]
      split
      next => exact .refl _
      next => exact (ih.cons e).trans (.swap x e es)

theorem subtract_of_le {a b : Nat} (h : b ≤ a) : subtract a b = .ok (a - b) := by
  rw [subtract, assert_of_true (decide_eq_true h)]
  rfl

/-! ## One move -/

section Moves

variable [LT K] [DecidableLT K] {config : RamConfig} {items : List (MemoryOrFifo K)}
  {routerRams : Nat} {st st' : RamState K}

/-- One item moves: from LUT RAM to block RAM, or from block RAM to deep RAM. -/
inductive Move (config : RamConfig) (st st' : RamState K) : Prop
  | toBlock (item : MemoryOrFifo K) (visited rest : List (MemoryOrFifo K))
      (hcandidates : st.potentialBlockRams = visited ++ item :: rest)
      (hused : st.blockRamsUsed < config.maxBlockRam) (hfits : FitsBlockRam config st item)
      (hmove : moveToBlockRam config (visited ++ rest) item st = .ok st')
  | toDeep (item : MemoryOrFifo K) (visited rest : List (MemoryOrFifo K))
      (hcandidates : st.potentialDeepRams = visited ++ item :: rest)
      (hused : st.deepRamsUsed < config.maxDeepRam) (hfits : FitsDeepRam config st item)
      (hmove : moveToDeepRam (visited ++ rest) item st = .ok st')

/-- The state after a move to block RAM. -/
def movedToBlockRam (config : RamConfig) (remaining : List (MemoryOrFifo K))
    (item : MemoryOrFifo K) (st : RamState K) : RamState K :=
  { st with
    potentialBlockRams := remaining
    potentialDeepRams :=
      if config.maxDeepRam > 0 ∧ item.deepRamsNeeded > 0 then
        insertDescending MemoryOrFifo.blockRamsSavedPerDeep item st.potentialDeepRams
      else st.potentialDeepRams
    lutRamsUsed := st.lutRamsUsed - item.lutRamsNeeded
    blockRamsUsed := st.blockRamsUsed + item.blockRamsNeeded
    flags := Function.update st.flags item.registerIndex
      { (st.flags item.registerIndex) with
        useLutRam := false
        useBlockRam := item.isMemory || (st.flags item.registerIndex).useBlockRam } }

/-- The state after a move to deep RAM. -/
def movedToDeepRam (remaining : List (MemoryOrFifo K)) (item : MemoryOrFifo K)
    (st : RamState K) : RamState K :=
  { st with
    potentialDeepRams := remaining
    blockRamsUsed := st.blockRamsUsed - item.blockRamsNeeded
    deepRamsUsed := st.deepRamsUsed + item.deepRamsNeeded
    flags := Function.update st.flags item.registerIndex
      { (st.flags item.registerIndex) with useBlockRam := false } }

omit [LT K] [DecidableLT K] in
theorem Invariant.lut_candidate (h : Invariant config items routerRams st)
    {item : MemoryOrFifo K} (hmem : item ∈ st.potentialBlockRams) :
    item ∈ items ∧ item.ramKind st.flags = .lut ∧ item.lutRamsNeeded ≤ st.lutRamsUsed := by
  obtain ⟨hitem, hkind⟩ := (h.mem_block item).mp hmem
  refine ⟨hitem, hkind, ?_⟩
  rw [h.lut_eq, ← hkind]
  exact le_total hitem _

omit [LT K] [DecidableLT K] in
theorem Invariant.block_candidate (h : Invariant config items routerRams st)
    {item : MemoryOrFifo K} (hmem : item ∈ st.potentialDeepRams) :
    item ∈ items ∧ item.ramKind st.flags = .block ∧ 0 < item.deepRamsNeeded ∧
      item.blockRamsNeeded ≤ st.blockRamsUsed := by
  obtain ⟨hitem, hkind, -, hdeep⟩ := (h.mem_deep item).mp hmem
  have hle : item.blockRamsNeeded
      ≤ total (MemoryOrFifo.ramKind st.flags) .block MemoryOrFifo.blockRamsNeeded items := by
    rw [← hkind]
    exact le_total hitem _
  have hused := h.block_eq
  exact ⟨hitem, hkind, hdeep, by omega⟩

/-- A candidate for block RAM can move: nothing wraps, and its flag is the one that is asserted. -/
theorem moveToBlockRam_eq (h : Invariant config items routerRams st) {item : MemoryOrFifo K}
    (hmem : item ∈ st.potentialBlockRams) (remaining : List (MemoryOrFifo K)) :
    moveToBlockRam config remaining item st = .ok (movedToBlockRam config remaining item st) := by
  obtain ⟨-, hkind, hle⟩ := h.lut_candidate hmem
  rw [moveToBlockRam, subtract_of_le hle, MemoryOrFifo.lutToBlockRam,
    assert_of_true (useLutRam_of_ramKind hkind)]
  rfl

omit [LT K] [DecidableLT K] in
theorem moveToDeepRam_eq (hitems : Items items) (h : Invariant config items routerRams st)
    {item : MemoryOrFifo K} (hmem : item ∈ st.potentialDeepRams)
    (remaining : List (MemoryOrFifo K)) :
    moveToDeepRam remaining item st = .ok (movedToDeepRam remaining item st) := by
  obtain ⟨hitem, hkind, hdeep, hle⟩ := h.block_candidate hmem
  have hmemory := hitems.deep item hitem hdeep
  have hflag := (flags_of_ramKind_block hkind hmemory).2
  rw [moveToDeepRam, subtract_of_le hle, MemoryOrFifo.blockToDeepRam,
    assert_of_true (decide_eq_true hdeep), assert_of_true hmemory, assert_of_true hflag]
  rfl

theorem Invariant.movedToBlockRam (hitems : Items items)
    (h : Invariant config items routerRams st) {item : MemoryOrFifo K}
    {visited rest : List (MemoryOrFifo K)}
    (hcandidates : st.potentialBlockRams = visited ++ item :: rest) :
    Invariant config items routerRams (movedToBlockRam config (visited ++ rest) item st) := by
  have hperm : st.potentialBlockRams.Perm (item :: (visited ++ rest)) := by
    rw [hcandidates]
    exact List.perm_middle
  obtain ⟨hitem, hkind, hle⟩ := h.lut_candidate (hperm.mem_iff.mpr List.mem_cons_self)
  obtain ⟨hnot, hnodup⟩ := List.nodup_cons.mp (hperm.nodup_iff.mp h.block_nodup)
  let f : RamFlags :=
    { (st.flags item.registerIndex) with
      useLutRam := false
      useBlockRam := item.isMemory || (st.flags item.registerIndex).useBlockRam }
  have hother := @ramKind_update_of_ne _ _ _ st.flags hitems hitem f
  have hself : item.ramKind (Function.update st.flags item.registerIndex f) = .block := by
    rw [ramKind_update_self]
    show (if false = true then RamKind.lut
      else if item.isMemory && !(item.isMemory || (st.flags item.registerIndex).useBlockRam)
        then .deep else .block) = .block
    cases item.isMemory <;> rfl
  have hchange := fun c need => total_change hitems.nodup hitem hother c need
  simp only [hkind, hself] at hchange
  have hlut := hchange .lut MemoryOrFifo.lutRamsNeeded
  have hblock := hchange .block MemoryOrFifo.blockRamsNeeded
  have hdeep := hchange .deep MemoryOrFifo.deepRamsNeeded
  have hlutEq := h.lut_eq
  have hblockEq := h.block_eq
  have hdeepEq := h.deep_eq
  simp only [if_true, if_false, reduceCtorEq] at hlut hblock hdeep
  -- The kind of an item afterwards, for the two candidate sets.
  have hkinds : ∀ i ∈ items, i ≠ item →
      i.ramKind (Function.update st.flags item.registerIndex f) = i.ramKind st.flags := hother
  refine ⟨?_, ?_, ?_, h.deep_le, ?_, hnodup, ?_, ?_, ?_⟩
  · show st.lutRamsUsed - item.lutRamsNeeded = total (MemoryOrFifo.ramKind
      (Function.update st.flags item.registerIndex f)) .lut _ items
    omega
  · show st.blockRamsUsed + item.blockRamsNeeded = total (MemoryOrFifo.ramKind
      (Function.update st.flags item.registerIndex f)) .block _ items + routerRams
    omega
  · show st.deepRamsUsed = total (MemoryOrFifo.ramKind
      (Function.update st.flags item.registerIndex f)) .deep _ items
    omega
  · exact exclusive_update (fun hf => Bool.false_ne_true hf.1) h.exclusive _
  · intro i
    show i ∈ visited ++ rest ↔ i ∈ items ∧ i.ramKind (Function.update _ _ f) = .lut
    rcases eq_or_ne i item with rfl | hne
    · rw [hself]
      exact ⟨fun hi => absurd hi hnot, fun hi => nomatch hi.2⟩
    · have hmem : i ∈ st.potentialBlockRams ↔ i ∈ visited ++ rest := by
        rw [hperm.mem_iff, List.mem_cons, or_iff_right hne]
      rw [← hmem, h.mem_block]
      constructor
      · rintro ⟨hi, hi'⟩
        exact ⟨hi, (hkinds i hi hne).trans hi'⟩
      · rintro ⟨hi, hi'⟩
        exact ⟨hi, (hkinds i hi hne).symm.trans hi'⟩
  · show (ite _ _ _ : List (MemoryOrFifo K)).Nodup
    split
    next =>
      rw [(insertDescending_perm _ _ _).nodup_iff, List.nodup_cons]
      refine ⟨fun hi => ?_, h.deep_nodup⟩
      have hblockKind := ((h.mem_deep item).mp hi).2.1
      rw [hkind] at hblockKind
      cases hblockKind
    next => exact h.deep_nodup
  · intro i
    show i ∈ (ite _ _ _ : List (MemoryOrFifo K)) ↔ i ∈ items ∧
      i.ramKind (Function.update _ _ f) = .block ∧ _ ∧ _
    rcases eq_or_ne i item with rfl | hne
    · rw [hself]
      split
      next hcan =>
        rw [(insertDescending_perm _ _ _).mem_iff]
        exact ⟨fun _ => ⟨hitem, rfl, hcan⟩, fun _ => List.mem_cons_self⟩
      next hcan =>
        refine ⟨fun hi => ?_, fun hi => absurd hi.2.2 hcan⟩
        exact absurd ((h.mem_deep i).mp hi).2.2 hcan
    · have hmem : i ∈ (if config.maxDeepRam > 0 ∧ item.deepRamsNeeded > 0 then
          insertDescending MemoryOrFifo.blockRamsSavedPerDeep item st.potentialDeepRams
          else st.potentialDeepRams) ↔ i ∈ st.potentialDeepRams := by
        split
        next => rw [(insertDescending_perm _ _ _).mem_iff, List.mem_cons, or_iff_right hne]
        next => exact Iff.rfl
      rw [hmem, h.mem_deep]
      constructor
      · rintro ⟨hi, hi'⟩
        exact ⟨hi, (hkinds i hi hne).trans hi'.1, hi'.2⟩
      · rintro ⟨hi, hi'⟩
        exact ⟨hi, (hkinds i hi hne).symm.trans hi'.1, hi'.2⟩

omit [LT K] [DecidableLT K] in
theorem Invariant.movedToDeepRam (hitems : Items items)
    (h : Invariant config items routerRams st) {item : MemoryOrFifo K}
    {visited rest : List (MemoryOrFifo K)}
    (hcandidates : st.potentialDeepRams = visited ++ item :: rest)
    (hfits : FitsDeepRam config st item) :
    Invariant config items routerRams (movedToDeepRam (visited ++ rest) item st) := by
  have hperm : st.potentialDeepRams.Perm (item :: (visited ++ rest)) := by
    rw [hcandidates]
    exact List.perm_middle
  obtain ⟨hitem, hkind, hneeded, hle⟩ := h.block_candidate (hperm.mem_iff.mpr List.mem_cons_self)
  obtain ⟨hnot, hnodup⟩ := List.nodup_cons.mp (hperm.nodup_iff.mp h.deep_nodup)
  have hmemory := hitems.deep item hitem hneeded
  have hnoLut := (flags_of_ramKind_block hkind hmemory).1
  let f : RamFlags := { (st.flags item.registerIndex) with useBlockRam := false }
  have hother := @ramKind_update_of_ne _ _ _ st.flags hitems hitem f
  have hself : item.ramKind (Function.update st.flags item.registerIndex f) = .deep := by
    rw [ramKind_update_self, hmemory]
    show (if (st.flags item.registerIndex).useLutRam then RamKind.lut else _) = _
    rw [hnoLut]
    rfl
  have hchange := fun c need => total_change hitems.nodup hitem hother c need
  simp only [hkind, hself] at hchange
  have hlut := hchange .lut MemoryOrFifo.lutRamsNeeded
  have hblock := hchange .block MemoryOrFifo.blockRamsNeeded
  have hdeep := hchange .deep MemoryOrFifo.deepRamsNeeded
  have hlutEq := h.lut_eq
  have hblockEq := h.block_eq
  have hdeepEq := h.deep_eq
  simp only [if_true, if_false, reduceCtorEq] at hlut hblock hdeep
  refine ⟨?_, ?_, ?_, hfits.1, ?_, h.block_nodup, ?_, hnodup, ?_⟩
  · show st.lutRamsUsed = total (MemoryOrFifo.ramKind
      (Function.update st.flags item.registerIndex f)) .lut _ items
    omega
  · show st.blockRamsUsed - item.blockRamsNeeded = total (MemoryOrFifo.ramKind
      (Function.update st.flags item.registerIndex f)) .block _ items + routerRams
    omega
  · show st.deepRamsUsed + item.deepRamsNeeded = total (MemoryOrFifo.ramKind
      (Function.update st.flags item.registerIndex f)) .deep _ items
    omega
  · exact exclusive_update (fun hf => Bool.false_ne_true hf.2) h.exclusive _
  · intro i
    show i ∈ st.potentialBlockRams ↔ i ∈ items ∧ i.ramKind (Function.update _ _ f) = .lut
    rw [h.mem_block]
    rcases eq_or_ne i item with rfl | hne
    · rw [hself, hkind]
      exact ⟨fun hi => (nomatch hi.2), fun hi => (nomatch hi.2)⟩
    · constructor
      · rintro ⟨hi, hi'⟩
        exact ⟨hi, (hother i hi hne).trans hi'⟩
      · rintro ⟨hi, hi'⟩
        exact ⟨hi, (hother i hi hne).symm.trans hi'⟩
  · intro i
    show i ∈ visited ++ rest ↔ i ∈ items ∧ i.ramKind (Function.update _ _ f) = .block ∧ _ ∧ _
    rcases eq_or_ne i item with rfl | hne
    · rw [hself]
      exact ⟨fun hi => absurd hi hnot, fun hi => nomatch hi.2.1⟩
    · have hmem : i ∈ st.potentialDeepRams ↔ i ∈ visited ++ rest := by
        rw [hperm.mem_iff, List.mem_cons, or_iff_right hne]
      rw [← hmem, h.mem_deep]
      constructor
      · rintro ⟨hi, hi'⟩
        exact ⟨hi, (hother i hi hne).trans hi'.1, hi'.2⟩
      · rintro ⟨hi, hi'⟩
        exact ⟨hi, (hother i hi hne).symm.trans hi'.1, hi'.2⟩

end Moves

/-! ## The loops -/

section Loops

variable [LT K] [DecidableLT K] {config : RamConfig} {items : List (MemoryOrFifo K)}
  {routerRams : Nat} {st : RamState K}

/-- No step of the loop fails, and every move keeps the invariant. -/
theorem Move.invariant (hitems : Items items) (h : Invariant config items routerRams st)
    {st' : RamState K} (hmove : Move config st st') : Invariant config items routerRams st' := by
  cases hmove with
  | toBlock item visited rest hcandidates hused hfits hmove =>
      have hmem : item ∈ st.potentialBlockRams := by
        rw [hcandidates]
        exact List.mem_append_right _ List.mem_cons_self
      rw [moveToBlockRam_eq h hmem] at hmove
      cases hmove
      exact h.movedToBlockRam hitems hcandidates
  | toDeep item visited rest hcandidates hused hfits hmove =>
      have hmem : item ∈ st.potentialDeepRams := by
        rw [hcandidates]
        exact List.mem_append_right _ List.mem_cons_self
      rw [moveToDeepRam_eq hitems h hmem] at hmove
      cases hmove
      exact h.movedToDeepRam hitems hcandidates hfits

/-- The invariant holds of every state that moves lead to. -/
theorem Invariant.of_moves (hitems : Items items) (h : Invariant config items routerRams st)
    {st' : RamState K} (hmoves : Relation.ReflTransGen (Move config) st st') :
    Invariant config items routerRams st' := by
  induction hmoves with
  | refl => exact h
  | tail _ hmove ih => exact hmove.invariant hitems ih

/-- A move to block RAM respects the limit, and no other adds to the block RAMs. -/
theorem blockRamsUsed_of_moves (hitems : Items items) (h : Invariant config items routerRams st)
    {st' : RamState K} (hmoves : Relation.ReflTransGen (Move config) st st') :
    st'.blockRamsUsed ≤ config.maxBlockRam ∨ st'.blockRamsUsed ≤ st.blockRamsUsed := by
  induction hmoves with
  | refl => exact .inr (Nat.le_refl _)
  | @tail mid last hmoves hmove ih =>
      have hmid := h.of_moves hitems hmoves
      cases hmove with
      | toBlock item visited rest hcandidates hused hfits hmove =>
          have hmem : item ∈ mid.potentialBlockRams := by
            rw [hcandidates]
            exact List.mem_append_right _ List.mem_cons_self
          rw [moveToBlockRam_eq hmid hmem] at hmove
          cases hmove
          exact .inl hfits.1
      | toDeep item visited rest hcandidates hused hfits hmove =>
          have hmem : item ∈ mid.potentialDeepRams := by
            rw [hcandidates]
            exact List.mem_append_right _ List.mem_cons_self
          rw [moveToDeepRam_eq hitems hmid hmem] at hmove
          cases hmove
          have hle : mid.blockRamsUsed - item.blockRamsNeeded ≤ mid.blockRamsUsed :=
            Nat.sub_le _ _
          exact ih.imp hle.trans hle.trans

/-- How many moves can still be made, at most: an item moves twice. -/
def movesLeft (st : RamState K) : Nat :=
  2 * st.potentialBlockRams.length + st.potentialDeepRams.length

/-- Every move uses one up. -/
theorem movesLeft_lt_of_move (hitems : Items items) (h : Invariant config items routerRams st)
    {st' : RamState K} (hmove : Move config st st') : movesLeft st' < movesLeft st := by
  cases hmove with
  | toBlock item visited rest hcandidates hused hfits hmove =>
      have hmem : item ∈ st.potentialBlockRams := by
        rw [hcandidates]
        exact List.mem_append_right _ List.mem_cons_self
      rw [moveToBlockRam_eq h hmem] at hmove
      cases hmove
      have hblock : st.potentialBlockRams.length = (visited ++ rest).length + 1 := by
        rw [hcandidates, List.length_append, List.length_append, List.length_cons]
        omega
      have hdeep : (movedToBlockRam config (visited ++ rest) item st).potentialDeepRams.length
          ≤ st.potentialDeepRams.length + 1 := by
        show (ite _ _ _ : List (MemoryOrFifo K)).length ≤ _
        split
        next => rw [(insertDescending_perm _ _ _).length_eq, List.length_cons]
        next => exact Nat.le_succ _
      show 2 * (visited ++ rest).length + _ < 2 * st.potentialBlockRams.length + _
      omega
  | toDeep item visited rest hcandidates hused hfits hmove =>
      have hmem : item ∈ st.potentialDeepRams := by
        rw [hcandidates]
        exact List.mem_append_right _ List.mem_cons_self
      rw [moveToDeepRam_eq hitems h hmem] at hmove
      cases hmove
      show 2 * st.potentialBlockRams.length + (visited ++ rest).length
        < 2 * st.potentialBlockRams.length + st.potentialDeepRams.length
      rw [hcandidates, List.length_append, List.length_append, List.length_cons]
      omega

/-- A run of the first loop is a chain of moves; without one, no candidate fits. -/
theorem lutToBlockLoop_spec (hitems : Items items) (rest : List (MemoryOrFifo K)) :
    ∀ (visited : List (MemoryOrFifo K)) (st : RamState K), Invariant config items routerRams st →
      st.potentialBlockRams = visited ++ rest →
      ∃ st' moved, lutToBlockLoop config visited rest st = .ok (st', moved) ∧
        Relation.ReflTransGen (Move config) st st' ∧
        (moved = true → Relation.TransGen (Move config) st st') ∧
        (moved = false → st' = st ∧
          ∀ i ∈ rest, ¬ (st.blockRamsUsed < config.maxBlockRam ∧ FitsBlockRam config st i)) := by
  induction rest with
  | nil =>
      intro visited st h hcandidates
      exact ⟨st, false, rfl, .refl, nofun, fun _ => ⟨rfl, nofun⟩⟩
  | cons cheapest rest ih =>
      intro visited st h hcandidates
      rw [lutToBlockLoop]
      split
      next hused =>
        split
        next hfits =>
          have hmem : cheapest ∈ st.potentialBlockRams := by
            rw [hcandidates]
            exact List.mem_append_right _ List.mem_cons_self
          have hok := moveToBlockRam_eq h hmem (visited ++ rest)
          have hmove := Move.toBlock cheapest visited rest hcandidates hused hfits hok
          obtain ⟨st', moved, hrun, hmoves, -, -⟩ :=
            ih visited _ (hmove.invariant hitems h) rfl
          rw [hok]
          refine ⟨st', true, ?_, hmoves.head hmove, fun _ => .head' hmove hmoves, nofun⟩
          show (lutToBlockLoop config visited rest _ >>= _) = _
          rw [hrun]
          rfl
        next hfits =>
          have hcandidates' : st.potentialBlockRams = visited ++ [cheapest] ++ rest := by
            rw [hcandidates, List.append_assoc]
            rfl
          obtain ⟨st', moved, hrun, hmoves, hsome, hnone⟩ := ih _ st h hcandidates'
          refine ⟨st', moved, hrun, hmoves, hsome, fun hmoved => ⟨(hnone hmoved).1, ?_⟩⟩
          intro i hi
          rcases List.mem_cons.mp hi with rfl | hi
          · exact fun hi => hfits hi.2
          · exact (hnone hmoved).2 i hi
      next hused =>
        exact ⟨st, false, rfl, .refl, nofun, fun _ => ⟨rfl, fun i _ hi => hused hi.1⟩⟩

/-- The second loop makes at most one move; without one, no candidate fits. -/
theorem blockToDeepLoop_spec (hitems : Items items) (rest : List (MemoryOrFifo K)) :
    ∀ visited : List (MemoryOrFifo K), Invariant config items routerRams st →
      st.potentialDeepRams = visited ++ rest →
      ∃ st' moved, blockToDeepLoop config visited rest st = .ok (st', moved) ∧
        (moved = true → Move config st st') ∧
        (moved = false → st' = st ∧
          ∀ i ∈ rest, ¬ (st.deepRamsUsed < config.maxDeepRam ∧ FitsDeepRam config st i)) := by
  induction rest with
  | nil =>
      intro visited h hcandidates
      exact ⟨st, false, rfl, nofun, fun _ => ⟨rfl, nofun⟩⟩
  | cons cheapest rest ih =>
      intro visited h hcandidates
      rw [blockToDeepLoop]
      split
      next hused =>
        split
        next hfits =>
          have hmem : cheapest ∈ st.potentialDeepRams := by
            rw [hcandidates]
            exact List.mem_append_right _ List.mem_cons_self
          have hok := moveToDeepRam_eq hitems h hmem (visited ++ rest)
          rw [hok]
          exact ⟨_, true, rfl,
            fun _ => .toDeep cheapest visited rest hcandidates hused hfits hok, nofun⟩
        next hfits =>
          have hcandidates' : st.potentialDeepRams = visited ++ [cheapest] ++ rest := by
            rw [hcandidates, List.append_assoc]
            rfl
          obtain ⟨st', moved, hrun, hsome, hnone⟩ := ih _ h hcandidates'
          refine ⟨st', moved, hrun, hsome, fun hmoved => ⟨(hnone hmoved).1, ?_⟩⟩
          intro i hi
          rcases List.mem_cons.mp hi with rfl | hi
          · exact fun hi => hfits hi.2
          · exact (hnone hmoved).2 i hi
      next hused =>
        exact ⟨st, false, rfl, nofun, fun _ => ⟨rfl, fun i _ hi => hused hi.1⟩⟩

/-- No item can move by either of the two rules. -/
structure Settled (config : RamConfig) (items : List (MemoryOrFifo K)) (st : RamState K) :
    Prop where
  block : ∀ i ∈ items, i.ramKind st.flags = .lut →
    ¬ (st.blockRamsUsed < config.maxBlockRam ∧ FitsBlockRam config st i)
  deep : ∀ i ∈ items, i.ramKind st.flags = .block → 0 < i.deepRamsNeeded →
    ¬ (st.deepRamsUsed < config.maxDeepRam ∧ FitsDeepRam config st i)

/-- One iteration: a chain of moves, and when it is empty, nothing can move. -/
theorem mapStep_spec (hitems : Items items) (h : Invariant config items routerRams st) :
    ∃ st' moved, mapStep config st = .ok (st', moved) ∧
      Relation.ReflTransGen (Move config) st st' ∧
      (moved = true → Relation.TransGen (Move config) st st') ∧
      (moved = false → Settled config items st') := by
  obtain ⟨st₁, moved₁, hrun₁, hmoves₁, hsome₁, hnone₁⟩ :=
    lutToBlockLoop_spec hitems st.potentialBlockRams [] st h rfl
  have h₁ := h.of_moves hitems hmoves₁
  obtain ⟨st₂, moved₂, hrun₂, hsome₂, hnone₂⟩ :=
    blockToDeepLoop_spec hitems st₁.potentialDeepRams [] h₁ rfl
  have hstep : mapStep config st = .ok (st₂, moved₁ || moved₂) := by
    rw [mapStep, hrun₁]
    show (blockToDeepLoop config [] st₁.potentialDeepRams st₁ >>= _) = _
    rw [hrun₂]
    rfl
  refine ⟨st₂, _, hstep, ?_, ?_, ?_⟩
  · cases moved₂ with
    | true => exact hmoves₁.tail (hsome₂ rfl)
    | false =>
        rw [(hnone₂ rfl).1]
        exact hmoves₁
  · intro hmoved
    cases moved₂ with
    | true => exact .tail' hmoves₁ (hsome₂ rfl)
    | false =>
        rw [(hnone₂ rfl).1]
        rw [Bool.or_false] at hmoved
        exact hsome₁ hmoved
  · intro hmoved
    obtain ⟨rfl, rfl⟩ := Bool.or_eq_false_iff.mp hmoved
    obtain ⟨rfl, hblock⟩ := hnone₁ rfl
    obtain ⟨rfl, hdeep⟩ := hnone₂ rfl
    constructor
    · intro i hi hkind
      exact hblock i ((h.mem_block i).mpr ⟨hi, hkind⟩)
    · intro i hi hkind hneeded hcan
      -- The limit is positive when it is not reached.
      have hmax : 0 < config.maxDeepRam := Nat.lt_of_le_of_lt (Nat.zero_le _) hcan.1
      exact hdeep i ((h.mem_deep i).mpr ⟨hi, hkind, hmax, hneeded⟩) hcan

/-- The number of moves left falls along a chain that is not empty. -/
theorem movesLeft_lt_of_moves (hitems : Items items) (h : Invariant config items routerRams st)
    {st' : RamState K} (hmoves : Relation.TransGen (Move config) st st') :
    movesLeft st' < movesLeft st := by
  induction hmoves with
  | single hmove => exact movesLeft_lt_of_move hitems h hmove
  | tail hmoves hmove ih =>
      have hmid := h.of_moves hitems hmoves.to_reflTransGen
      exact (movesLeft_lt_of_move hitems hmid hmove).trans ih

/-- The loop ends, after a chain of moves, where nothing can move. -/
theorem mapLoop_spec (hitems : Items items) (fuel : Nat) :
    ∀ st : RamState K, Invariant config items routerRams st → movesLeft st < fuel →
      ∃ st', mapLoop config fuel st = .ok (some st') ∧
        Relation.ReflTransGen (Move config) st st' ∧ Settled config items st' := by
  induction fuel with
  | zero => exact fun st _ hfuel => absurd hfuel (Nat.not_lt_zero _)
  | succ fuel ih =>
      intro st h hfuel
      obtain ⟨st₁, moved, hstep, hmoves, hsome, hnone⟩ := mapStep_spec hitems h
      rw [mapLoop, hstep]
      cases moved with
      | true =>
          have hlt := movesLeft_lt_of_moves hitems h (hsome rfl)
          have h₁ := h.of_moves hitems hmoves
          obtain ⟨st', hrun, hmoves', hsettled⟩ := ih st₁ h₁ (by omega)
          exact ⟨st', hrun, hmoves.trans hmoves', hsettled⟩
      | false =>
          have hle := (h.of_moves hitems hmoves).deep_le
          refine ⟨st₁, ?_, hmoves, hnone rfl⟩
          show (assert (decide (st₁.deepRamsUsed ≤ config.maxDeepRam)) >>= _) = _
          rw [assert_of_true (decide_eq_true hle)]
          rfl

end Loops

/-! ## The start -/

section Start

variable {config : RamConfig} {ratio : Nat → Nat → K} {zero : K}

/-- What the constructor establishes. -/
theorem MemoryOrFifo.ofRegister_constructed {registerIndex : Nat} {desc : RegisterDesc}
    {item : MemoryOrFifo K} {flags : RamFlags}
    (h : MemoryOrFifo.ofRegister config ratio zero registerIndex desc = .ok (some (item, flags))) :
    item.registerIndex = registerIndex ∧ Constructed item flags := by
  cases desc with
  | memory width depth replicaCount writePortCount minReadLatency ecc hasInitialData =>
      rw [MemoryOrFifo.ofRegister] at h
      obtain ⟨-, -, h⟩ := bind_eq_ok_iff.mp h
      dsimp only at h
      split at h
      next hallowed =>
        obtain ⟨u, hlut, h⟩ := bind_eq_ok_iff.mp h
        cases h
        have hpos := of_decide_eq_true (of_assert hlut)
        exact ⟨rfl, ⟨fun _ => hpos, fun _ => rfl⟩, fun hf => Bool.false_ne_true hf.2,
          fun hf => (nomatch hf), fun _ => rfl⟩
      next hallowed =>
        obtain ⟨-, -, h⟩ := bind_eq_ok_iff.mp h
        have hflags : item.registerIndex = registerIndex ∧ item.lutRamsNeeded = 0 ∧
            item.isMemory ∧ flags = { useBlockRam := true } := by
          split at h
          next =>
            obtain ⟨-, -, h⟩ := bind_eq_ok_iff.mp h
            cases h
            exact ⟨rfl, if_neg hallowed, rfl, rfl⟩
          next =>
            cases h
            exact ⟨rfl, if_neg hallowed, rfl, rfl⟩
        obtain ⟨hindex, hlut, hmemory, rfl⟩ := hflags
        refine ⟨hindex, ⟨nofun, fun hpos => ?_⟩, fun hf => Bool.false_ne_true hf.1,
          fun _ _ => rfl, fun _ => hmemory⟩
        omega
  | fifo width depth passthrough useDsp dualClock =>
      rw [MemoryOrFifo.ofRegister] at h
      split at h
      next =>
        obtain ⟨-, -, h⟩ := bind_eq_ok_iff.mp h
        dsimp only at h
        split at h
        next hallowed =>
          obtain ⟨u, hlut, h⟩ := bind_eq_ok_iff.mp h
          cases h
          have hpos := of_decide_eq_true (of_assert hlut)
          exact ⟨rfl, ⟨fun _ => hpos, fun _ => rfl⟩, fun hf => Bool.false_ne_true hf.2,
            fun hf => (nomatch hf), fun hdeep => absurd hdeep (Nat.lt_irrefl 0)⟩
        next hallowed =>
          obtain ⟨-, -, h⟩ := bind_eq_ok_iff.mp h
          cases h
          have hlut : (MemoryOrFifo.init config ratio zero registerIndex false width depth 1
              (!dualClock) false false).lutRamsNeeded = 0 := if_neg hallowed
          refine ⟨rfl, ⟨nofun, fun hpos => ?_⟩, fun hf => Bool.false_ne_true hf.1,
            fun _ hmemory => (nomatch hmemory), fun hdeep => absurd hdeep (Nat.lt_irrefl 0)⟩
          omega
      next => cases h
  | other => cases h

/-- The items are of different registers, each as its constructor left it. -/
structure Extracted (items : List (MemoryOrFifo K × RamFlags)) : Prop where
  nodup : (items.map fun e => e.1.registerIndex).Nodup
  constructed : ∀ e ∈ items, Constructed e.1 e.2

theorem Extracted.items {items : List (MemoryOrFifo K × RamFlags)} (h : Extracted items) :
    Items (items.map Prod.fst) := by
  have hnodup : ((items.map Prod.fst).map MemoryOrFifo.registerIndex).Nodup := by
    rw [List.map_map]
    exact h.nodup
  constructor
  · exact List.Nodup.of_map _ hnodup
  · intro i hi j hj heq
    exact List.inj_on_of_nodup_map hnodup hi hj heq
  · intro i hi hpos
    obtain ⟨e, he, rfl⟩ := List.mem_map.mp hi
    exact (h.constructed e he).deep hpos

/-- Registers in the order of the table give items in that order. -/
theorem registerItem_sublist {entries : List (RegisterDesc × Nat)}
    {results : List (Option (MemoryOrFifo K × RamFlags))}
    (h : entries.mapM (registerItem config ratio zero) = .ok results) :
    ((results.filterMap id).map fun e => e.1.registerIndex).Sublist (entries.map Prod.snd) ∧
      ∀ e ∈ results.filterMap id, Constructed e.1 e.2 := by
  induction entries generalizing results with
  | nil =>
      cases h
      exact ⟨.slnil, nofun⟩
  | cons entry entries ih =>
      rw [List.mapM_cons] at h
      obtain ⟨result, hresult, h⟩ := bind_eq_ok_iff.mp h
      obtain ⟨rest, hrest, h⟩ := bind_eq_ok_iff.mp h
      cases h
      obtain ⟨hsublist, hconstructed⟩ := ih hrest
      cases result with
      | none => exact ⟨hsublist.cons _, hconstructed⟩
      | some e =>
          obtain ⟨hindex, hitem⟩ := MemoryOrFifo.ofRegister_constructed hresult
          constructor
          · show (e.1.registerIndex :: _).Sublist (entry.2 :: _)
            rw [hindex]
            exact hsublist.cons_cons _
          · intro e' he'
            rcases List.mem_cons.mp he' with rfl | he'
            · exact hitem
            · exact hconstructed e' he'

/-- The kinds after the flags of a new item are set. -/
theorem ramKind_append {items : List (MemoryOrFifo K)} {flags : Nat → RamFlags}
    {item : MemoryOrFifo K} (hnew : ∀ i ∈ items, i.registerIndex ≠ item.registerIndex)
    (f : RamFlags) (kind : RamKind) (i : MemoryOrFifo K) :
    (i ∈ items ++ [item] ∧ i.ramKind (Function.update flags item.registerIndex f) = kind) ↔
      (i ∈ items ∧ i.ramKind flags = kind) ∨
        (i = item ∧ item.ramKind (Function.update flags item.registerIndex f) = kind) := by
  have hsame : ∀ i ∈ items,
      i.ramKind (Function.update flags item.registerIndex f) = i.ramKind flags := by
    intro i hi
    rw [MemoryOrFifo.ramKind, MemoryOrFifo.ramKind, Function.update_of_ne (hnew i hi)]
  rw [List.mem_append, List.mem_singleton]
  constructor
  · rintro ⟨hi | rfl, hkind⟩
    · exact .inl ⟨hi, (hsame i hi).symm.trans hkind⟩
    · exact .inr ⟨rfl, hkind⟩
  · rintro (⟨hi, hkind⟩ | ⟨rfl, hkind⟩)
    · exact ⟨.inl hi, (hsame i hi).trans hkind⟩
    · exact ⟨.inr rfl, hkind⟩

theorem total_ramKind_append {items : List (MemoryOrFifo K)} {flags : Nat → RamFlags}
    {item : MemoryOrFifo K} (hnew : ∀ i ∈ items, i.registerIndex ≠ item.registerIndex)
    (f : RamFlags) (kind : RamKind) (need : MemoryOrFifo K → Nat) :
    total (MemoryOrFifo.ramKind (Function.update flags item.registerIndex f)) kind need
        (items ++ [item])
      = total (MemoryOrFifo.ramKind flags) kind need items
        + if item.ramKind (Function.update flags item.registerIndex f) = kind
          then need item else 0 := by
  rw [total_append]
  congr 1
  · apply total_congr
    intro i hi
    rw [MemoryOrFifo.ramKind, MemoryOrFifo.ramKind, Function.update_of_ne (hnew i hi)]

/-- What stays out of LUT RAM: the routers, and the items that may not use it. -/
def fixedBlockRams (items : List (MemoryOrFifo K)) (routerRams : Nat) : Nat :=
  ((items.filter fun i => i.lutRamsNeeded == 0).map MemoryOrFifo.blockRamsNeeded).sum + routerRams

/-- The block RAMs of the routers. -/
def routerRams (config : RamConfig) (routers : List (Nat × Nat)) : Nat :=
  (routers.map fun r =>
    (getMemoryResourceUsage config.blockRamConfigs (1 + 1 + r.2) (2 ^ r.1) 1).1).sum

variable [LT K] [DecidableLT K]

/-- An item that is added has the kind its constructor chose; the others keep theirs. -/
theorem Invariant.addItem {items : List (MemoryOrFifo K)} {routerRams : Nat} {st : RamState K}
    (h : Invariant config items routerRams st) {item : MemoryOrFifo K} {f : RamFlags}
    (hitem : Constructed item f) (hnew : ∀ i ∈ items, i.registerIndex ≠ item.registerIndex) :
    Invariant config (items ++ [item]) routerRams (addItem config item f st) := by
  have hfresh : item ∉ items := fun hi => hnew item hi rfl
  have htotal := fun kind need => @total_ramKind_append _ _ st.flags _ hnew f kind need
  have hkinds := @ramKind_append _ _ st.flags _ hnew f
  have hself := @ramKind_update_self _ item st.flags f
  have hexclusive : ∀ i ∈ items ++ [item],
      ¬ ((Function.update st.flags item.registerIndex f i.registerIndex).useLutRam
        ∧ (Function.update st.flags item.registerIndex f i.registerIndex).useBlockRam) := by
    intro i hi
    rcases List.mem_append.mp hi with hi | hi
    · exact exclusive_update hitem.exclusive h.exclusive _ i hi
    · rw [List.mem_singleton.mp hi, Function.update_self]
      exact hitem.exclusive
  have hlutEq := h.lut_eq
  have hblockEq := h.block_eq
  have hdeepEq := h.deep_eq
  rw [Ram.addItem]
  split
  next hpos =>
    -- The item starts in LUT RAM.
    rw [if_pos (hitem.lut_iff.mpr hpos)] at hself
    simp only [hself] at htotal hkinds
    have hlut := htotal .lut MemoryOrFifo.lutRamsNeeded
    have hblock := htotal .block MemoryOrFifo.blockRamsNeeded
    have hdeep := htotal .deep MemoryOrFifo.deepRamsNeeded
    simp only [if_true, if_false, reduceCtorEq] at hlut hblock hdeep
    refine ⟨?_, ?_, ?_, h.deep_le, hexclusive, ?_, ?_, h.deep_nodup, ?_⟩
    · show st.lutRamsUsed + item.lutRamsNeeded = total (MemoryOrFifo.ramKind
        (Function.update st.flags item.registerIndex f)) .lut _ _
      omega
    · show st.blockRamsUsed = total (MemoryOrFifo.ramKind
        (Function.update st.flags item.registerIndex f)) .block _ _ + routerRams
      omega
    · show st.deepRamsUsed = total (MemoryOrFifo.ramKind
        (Function.update st.flags item.registerIndex f)) .deep _ _
      omega
    · show (insertDescending _ item st.potentialBlockRams).Nodup
      rw [(insertDescending_perm _ _ _).nodup_iff, List.nodup_cons]
      exact ⟨fun hi => hfresh ((h.mem_block item).mp hi).1, h.block_nodup⟩
    · intro i
      show i ∈ insertDescending _ item st.potentialBlockRams ↔ _
      rw [hkinds, (insertDescending_perm _ _ _).mem_iff, List.mem_cons, h.mem_block]
      constructor
      · exact fun hi => hi.symm.imp_right fun heq => ⟨heq, rfl⟩
      · exact fun hi => hi.symm.imp_left And.left
    · intro i
      show i ∈ st.potentialDeepRams ↔ _
      rw [← and_assoc, hkinds, h.mem_deep, ← and_assoc]
      refine and_congr_left fun _ => ⟨.inl, fun hi => hi.resolve_right fun heq => nomatch heq.2⟩
  next hpos =>
    -- It may not use LUT RAM, and starts in block RAM.
    have hnoLut : f.useLutRam = false := Bool.eq_false_iff.mpr (mt hitem.lut_iff.mp hpos)
    have hkind : item.ramKind (Function.update st.flags item.registerIndex f) = .block := by
      rw [hself, if_neg (Bool.eq_false_iff.mp hnoLut)]
      cases hmemory : item.isMemory with
      | false => rfl
      | true =>
          rw [hitem.block hnoLut hmemory]
          rfl
    simp only [hkind] at htotal hkinds
    have hlut := htotal .lut MemoryOrFifo.lutRamsNeeded
    have hblock := htotal .block MemoryOrFifo.blockRamsNeeded
    have hdeep := htotal .deep MemoryOrFifo.deepRamsNeeded
    simp only [if_true, if_false, reduceCtorEq] at hlut hblock hdeep
    refine ⟨?_, ?_, ?_, h.deep_le, hexclusive, h.block_nodup, ?_, ?_, ?_⟩
    · show st.lutRamsUsed = total (MemoryOrFifo.ramKind
        (Function.update st.flags item.registerIndex f)) .lut _ _
      omega
    · show st.blockRamsUsed + item.blockRamsNeeded = total (MemoryOrFifo.ramKind
        (Function.update st.flags item.registerIndex f)) .block _ _ + routerRams
      omega
    · show st.deepRamsUsed = total (MemoryOrFifo.ramKind
        (Function.update st.flags item.registerIndex f)) .deep _ _
      omega
    · intro i
      show i ∈ st.potentialBlockRams ↔ _
      rw [hkinds, h.mem_block]
      exact ⟨.inl, fun hi => hi.resolve_right fun heq => nomatch heq.2⟩
    · show (ite _ _ _ : List (MemoryOrFifo K)).Nodup
      split
      next =>
        rw [(insertDescending_perm _ _ _).nodup_iff, List.nodup_cons]
        exact ⟨fun hi => hfresh ((h.mem_deep item).mp hi).1, h.deep_nodup⟩
      next => exact h.deep_nodup
    · intro i
      show i ∈ (ite _ _ _ : List (MemoryOrFifo K)) ↔ i ∈ items ++ [item] ∧
        i.ramKind (Function.update _ _ f) = .block ∧ _ ∧ _
      rw [← and_assoc, hkinds]
      split
      next hcan =>
        rw [(insertDescending_perm _ _ _).mem_iff, List.mem_cons, h.mem_deep, ← and_assoc]
        constructor
        · rintro (rfl | ⟨hi, hi'⟩)
          · exact ⟨.inr ⟨rfl, rfl⟩, hcan⟩
          · exact ⟨.inl hi, hi'⟩
        · rintro ⟨hi | hi, hi'⟩
          · exact .inr ⟨hi, hi'⟩
          · exact .inl hi.1
      next hcan =>
        rw [h.mem_deep, ← and_assoc]
        constructor
        · rintro ⟨hi, hi'⟩
          exact ⟨.inl hi, hi'⟩
        · rintro ⟨hi | ⟨rfl, -⟩, hi'⟩
          · exact ⟨hi, hi'⟩
          · exact absurd hi' hcan

theorem Invariant.foldl_addItem (entries : List (MemoryOrFifo K × RamFlags)) :
    ∀ {items : List (MemoryOrFifo K)} {routerRams : Nat} {st : RamState K},
      Invariant config items routerRams st →
      (items.map MemoryOrFifo.registerIndex
        ++ entries.map fun e => e.1.registerIndex).Nodup →
      (∀ e ∈ entries, Constructed e.1 e.2) →
      Invariant config (items ++ entries.map Prod.fst) routerRams
        (entries.foldl (fun st e => Ram.addItem config e.1 e.2 st) st) := by
  induction entries with
  | nil =>
      intro items routerRams st h _ _
      rw [List.map_nil, List.append_nil]
      exact h
  | cons e entries ih =>
      intro items routerRams st h hnodup hconstructed
      have hnew : ∀ i ∈ items, i.registerIndex ≠ e.1.registerIndex := by
        intro i hi heq
        apply (List.nodup_append.mp hnodup).2.2 i.registerIndex (List.mem_map_of_mem hi)
          e.1.registerIndex List.mem_cons_self heq
      have hadd := h.addItem (hconstructed e List.mem_cons_self) hnew
      have hrest := ih hadd (by
        rw [List.map_append, List.append_assoc]
        exact hnodup) fun e' he' => hconstructed e' (List.mem_cons_of_mem _ he')
      rw [List.append_assoc] at hrest
      exact hrest

theorem foldl_addItem_blockRamsUsed (entries : List (MemoryOrFifo K × RamFlags)) :
    ∀ st : RamState K,
      (entries.foldl (fun st e => Ram.addItem config e.1 e.2 st) st).blockRamsUsed
        = st.blockRamsUsed + fixedBlockRams (entries.map Prod.fst) 0 := by
  induction entries with
  | nil => exact fun st => rfl
  | cons e entries ih =>
      intro st
      rw [List.foldl_cons, ih, Ram.addItem]
      split
      next hpos =>
        have hzero : ¬ (e.1.lutRamsNeeded == 0) = true := by
          rw [beq_iff_eq]
          omega
        show st.blockRamsUsed + _ = st.blockRamsUsed + fixedBlockRams (e.1 :: _) 0
        rw [fixedBlockRams, fixedBlockRams, List.filter_cons_of_neg (p := fun i : MemoryOrFifo K => i.lutRamsNeeded == 0) hzero]
      next hpos =>
        have hzero : (e.1.lutRamsNeeded == 0) = true := by
          rw [beq_iff_eq]
          omega
        show st.blockRamsUsed + e.1.blockRamsNeeded + _
          = st.blockRamsUsed + fixedBlockRams (e.1 :: _) 0
        rw [fixedBlockRams, fixedBlockRams, List.filter_cons_of_pos (p := fun i : MemoryOrFifo K => i.lutRamsNeeded == 0) hzero, List.map_cons,
          List.sum_cons]
        omega

/-- The state before the loop has the invariant. -/
theorem extractMemories_invariant {registerTable : List RegisterDesc} {routers : List (Nat × Nat)}
    {items : List (MemoryOrFifo K × RamFlags)} {st : RamState K}
    (h : extractMemories config ratio zero registerTable routers = .ok (items, st)) :
    Extracted items ∧
      Invariant config (items.map Prod.fst) (routerRams config routers) st ∧
      st.blockRamsUsed = fixedBlockRams (items.map Prod.fst) (routerRams config routers) := by
  rw [extractMemories] at h
  obtain ⟨-, -, h⟩ := bind_eq_ok_iff.mp h
  obtain ⟨results, hresults, h⟩ := bind_eq_ok_iff.mp h
  cases h
  obtain ⟨hsublist, hconstructed⟩ := registerItem_sublist hresults
  have hnodup : ((results.filterMap id).map fun e => e.1.registerIndex).Nodup := by
    apply hsublist.nodup
    rw [List.zipIdx_map_snd]
    exact List.nodup_range'
  have hstart : Invariant config ([] : List (MemoryOrFifo K)) 0 ⟨[], [], 0, 0, 0, fun _ => {}⟩ :=
    ⟨rfl, rfl, rfl, Nat.zero_le _, nofun, .nil, fun _ => ⟨nofun, fun hi => nomatch hi.1⟩, .nil,
      fun _ => ⟨nofun, fun hi => nomatch hi.1⟩⟩
  have hfold := hstart.foldl_addItem (results.filterMap id) hnodup hconstructed
  refine ⟨⟨hnodup, hconstructed⟩, ⟨hfold.lut_eq, ?_, hfold.deep_eq, hfold.deep_le,
    hfold.exclusive, hfold.block_nodup, hfold.mem_block, hfold.deep_nodup, hfold.mem_deep⟩, ?_⟩
  · have hblock := hfold.block_eq
    show _ + _ = _
    rw [hblock]
    rfl
  · show _ + _ = _
    rw [foldl_addItem_blockRamsUsed]
    show 0 + (_ + 0) + _ = _ + _
    rw [Nat.zero_add, Nat.add_zero]
    rfl

/-! ## The whole mapping -/

end Start

end Kanagawa.Ram
