/-
  Kanagawa.Optimize.EarlyOptimizationSound

  Optimization before renaming preserves what a block computes.

  The invariant of the forward pass: an equivalence holds as long as the sequence
  number of its source is the one it was recorded with, and sequence numbers only
  grow.
-/
import Kanagawa.IR.Globals
import Kanagawa.IR.Quiet
import Kanagawa.Optimize.ConstantFold
import Kanagawa.Optimize.EarlyOptimization
import Kanagawa.Optimize.KillMovesSound

namespace Kanagawa.Optimize

open IR Lib.Except Lib.NatMap

variable {W : Type} {table : RegisterTable}

/-! ## Equivalences -/

/-- The value of a local register, as operations read it. -/
def localValue (table : RegisterTable) (σ : State W) (r : Nat) : Nat :=
  σ.locals r % 2 ^ (table.desc r).width

namespace EarlyState

/-- What an entry of `regIndexToEquivalentOperand` says of a state. -/
def EntryHolds (table : RegisterTable) (s : EarlyState) (σ : State W) (r : Nat) :
    SourceOperand × Nat → Prop
  | (.literal l, _) => l.width = (table.desc r).width ∧ localValue table σ r = l.value
  | (.register r', n) => isLocalVariable table r' ∧
      (table.desc r').width = (table.desc r).width ∧ n ≤ s.sequenceNumber r' ∧
      (n = s.sequenceNumber r' → localValue table σ r = localValue table σ r')
  | _ => False

/-- What the maps say of a state. -/
def Holds (table : RegisterTable) (s : EarlyState) (σ : State W) : Prop :=
  ∀ r entry, s.equivalentOperands[r]? = some entry →
    isLocalVariable table r ∧ s.EntryHolds table σ r entry

theorem holds_empty (σ : State W) : Holds table ⟨∅, ∅⟩ σ := by
  intro r entry h
  rw [Std.ExtTreeMap.getElem?_empty] at h
  exact nomatch h

section

variable {m : Machine W} {s : EarlyState} {σ : State W}

theorem evalSource_local {r : Nat} (h : isLocalVariable table r) :
    evalSource m table σ (.register r) = .bits (localValue table σ r) (table.desc r).width := by
  simp only [evalSource, isLocal_of_isLocalVariable h, if_true, localValue]

/-- What stands in the place of a source has its value. -/
theorem Holds.evalSource_forward (h : s.Holds table σ) (op : Operation) (i : Nat)
    (src : SourceOperand) :
    evalSource m table σ (s.forwardSource op i src) = evalSource m table σ src := by
  unfold forwardSource
  split
  · rename_i r
    split
    · rename_i l n hentry
      obtain ⟨hlocal, hwidth, hvalue⟩ := h r _ hentry
      split
      · rw [evalSource_local hlocal, hvalue, ← hwidth]
        rfl
      · rfl
    · rename_i r' n hentry
      obtain ⟨hlocal, hlocal', hwidth, -, hvalue⟩ := h r _ hentry
      split
      · rename_i hn
        rw [evalSource_local hlocal, evalSource_local hlocal', hvalue hn, hwidth]
      · rfl
    · rfl
  · rfl

theorem Holds.evalSources_forward (h : s.Holds table σ) (op : Operation) :
    evalSources m table σ (s.forwardSources table op) = evalSources m table σ op := by
  unfold forwardSources
  split
  · refine List.ext_getElem (by simp [evalSources]) fun i hi hi' => ?_
    simp only [evalSources, List.getElem_map, List.getElem_mapIdx]
    exact h.evalSource_forward op i _
  · rfl

/-! ## Writes -/

/-- After writes the entries of the registers that were written are gone, and their sequence
    numbers have grown. -/
theorem writeRegisters_spec (writes : List Nat) : ∀ s : EarlyState,
    (∀ r, (writes.foldl writeDestination s).equivalentOperands[r]? =
      if r ∈ writes then none else s.equivalentOperands[r]?) ∧
    ∀ r, (writes.foldl writeDestination s).sequenceNumber r =
      s.sequenceNumber r + writes.count r := by
  induction writes with
  | nil => exact fun s => ⟨fun r => (if_neg List.not_mem_nil).symm, fun r => rfl⟩
  | cons w writes ih =>
    intro s
    obtain ⟨hentries, hnumbers⟩ := ih (s.writeDestination w)
    refine ⟨fun r => ?_, fun r => ?_⟩
    · rw [List.foldl_cons, hentries, writeDestination]
      simp only [Std.ExtTreeMap.getElem?_erase, Std.LawfulEqCmp.compare_eq_iff_eq, List.mem_cons]
      by_cases hr : r ∈ writes
      · simp [hr]
      · by_cases hw : w = r
        · simp [hw]
        · have hw' : r ≠ w := fun h => hw h.symm
          simp [hr, hw, hw']
    · rw [List.foldl_cons, hnumbers, List.count_cons]
      by_cases hw : w = r
      · subst hw
        simp only [sequenceNumber, writeDestination, getD_insert, if_true, beq_self_eq_true]
        omega
      · simp only [sequenceNumber, writeDestination, getD_insert, if_neg hw, beq_iff_eq,
          Nat.add_zero]

/-- Equivalences hold after an operation if its writes have been recorded. -/
theorem Holds.writeRegisters (h : s.Holds table σ) (op : Operation) :
    (s.writeRegisters op).Holds table (execOperation m table σ op) := by
  obtain ⟨hentries, hnumbers⟩ := writeRegisters_spec op.writes s
  have hkept : ∀ {r}, r ∉ op.writes →
      localValue table (execOperation m table σ op) r = localValue table σ r := by
    intro r hr
    rw [localValue, execOperation_of_not_written hr, localValue]
  intro r entry hentry
  rw [EarlyState.writeRegisters, hentries] at hentry
  split at hentry
  · exact nomatch hentry
  · rename_i hr
    obtain ⟨hlocal, hholds⟩ := h r entry hentry
    refine ⟨hlocal, ?_⟩
    obtain ⟨operand, n⟩ := entry
    cases operand with
    | literal l => exact ⟨hholds.1, (hkept hr).trans hholds.2⟩
    | register r' =>
      obtain ⟨hlocal', hwidth, hle, hvalue⟩ := hholds
      have hnumber := hnumbers r'
      refine ⟨hlocal', hwidth, ?_, fun hn => ?_⟩
      · rw [EarlyState.writeRegisters, hnumber]
        omega
      · rw [EarlyState.writeRegisters, hnumber] at hn
        -- A write of the source would have made its number larger
        have hcount : op.writes.count r' = 0 := by omega
        rw [hkept hr, hkept (List.count_eq_zero.mp hcount)]
        exact hvalue (by omega)
    | fifo f => exact hholds
    | stringLiteral str => exact hholds

theorem Holds.setEquivalent (h : s.Holds table σ) {r n : Nat} {operand : SourceOperand}
    (hlocal : isLocalVariable table r) (hentry : s.EntryHolds table σ r (operand, n)) :
    (s.setEquivalent r operand n).Holds table σ := by
  intro r' entry hr'
  rw [EarlyState.setEquivalent, getElem?_insert] at hr'
  split at hr'
  · rename_i heq
    subst heq
    rw [← Option.some.inj hr']
    refine ⟨hlocal, ?_⟩
    cases operand with
    | literal l => exact hentry
    | register r'' => exact hentry
    | fifo f => exact hentry
    | stringLiteral str => exact hentry
  · obtain ⟨hlocal', hholds⟩ := h r' entry hr'
    refine ⟨hlocal', ?_⟩
    obtain ⟨operand', n'⟩ := entry
    cases operand' with
    | literal l => exact hholds
    | register r'' => exact hholds
    | fifo f => exact hholds
    | stringLiteral str => exact hholds

end

/-! ## Moves -/

/-- The form of moves: they have one source and one destination. -/
structure MovesOne (op : Operation) : Prop where
  mov_src : op.opcode = .mov → op.src.length = 1
  mov_dst : op.opcode = .mov → op.dst.length = 1
  clear_src : op.opcode = .clear → op.src = []

section

variable {m : Machine W} {s s' : EarlyState} {σ : State W} {op : Operation}

theorem isLocalVariable_of_checkRegs (h : checkRegs table op = true) {r : Nat}
    (hr : r ∈ op.reads ∨ r ∈ op.writes) : isLocalVariable table r := by
  have hallowed := List.all_eq_true.mp h r (List.mem_append.mpr hr)
  rw [isLocalVariable]
  cases htype : (table.desc r).type <;> rw [htype] at hallowed <;> trivial

/-- After a move of a literal the register has the literal's value. -/
theorem entryHolds_literal {l : Literal} {d value n : Nat} (hmov : op.opcode = .mov)
    (hsrc : op.src = [.literal l]) (hdst : op.dst = [.register d])
    (hlocal : isLocalVariable table d)
    (hresize : resize l (op.shouldSignExtend 0) (table.desc d).width = .ok value) :
    s.EntryHolds table (execOperation m table σ op) d
      (.literal ⟨value, (table.desc d).width⟩, n) := by
  refine ⟨rfl, ?_⟩
  rw [localValue, execOperation_move hmov hsrc hdst hlocal rfl hresize, Nat.mod_mod,
    Nat.mod_eq_of_lt (resize_lt hresize)]

/-- After a move of a register of the same width both registers have the same value. -/
theorem entryHolds_register {r d : Nat} (hmov : op.opcode = .mov)
    (hsrc : op.src = [.register r]) (hdst : op.dst = [.register d])
    (hlocal : isLocalVariable table d) (hlocal' : isLocalVariable table r)
    (hwidth : (table.desc d).width = (table.desc r).width)
    (hle : (table.desc r).width ≤ 2 ^ 32) :
    s.EntryHolds table (execOperation m table σ op) d (.register r, s.sequenceNumber r) := by
  refine ⟨hlocal', hwidth.symm, Nat.le_refl _, fun _ => ?_⟩
  by_cases hrd : r = d
  · rw [hrd]
  · have hkept : (execOperation m table σ op).locals r = σ.locals r := by
      refine execOperation_of_not_written ?_
      rw [Operation.writes, hdst]
      exact fun hmem => hrd (List.mem_singleton.mp hmem)
    rcases Nat.eq_zero_or_pos (table.desc r).width with hzero | hpos
    · rw [localValue, localValue, hwidth, hzero, Nat.pow_zero, Nat.mod_one, Nat.mod_one]
    · have hlt : localValue table σ r < 2 ^ (table.desc r).width :=
        Nat.mod_lt _ (Nat.two_pow_pos _)
      have hresize : resize ⟨localValue table σ r, (table.desc r).width⟩
          (op.signExtendSourceMask.testBit 0) (table.desc d).width =
            .ok (localValue table σ r) := resize_of_same_width hwidth hlt hpos hle
      have hright : localValue table (execOperation m table σ op) r = localValue table σ r := by
        rw [localValue, hkept, localValue]
      rw [hright, localValue,
        execOperation_move hmov hsrc hdst hlocal (evalSource_local hlocal') hresize, Nat.mod_mod,
        hwidth, Nat.mod_eq_of_lt hlt]

theorem entryHolds_clear {d n : Nat} (hclear : op.opcode = .clear) (hsrc : op.src = [])
    (hdst : op.dst = [.register d]) (hlocal : isLocalVariable table d) :
    s.EntryHolds table (execOperation m table σ op) d
      (.literal ⟨0, (table.desc d).width⟩, n) := by
  have hvalues : (evalSources m table σ op).mapM Value.literal? = some [] := by
    rw [evalSources, hsrc]
    rfl
  have hpure := pureResult?_eq hdst hlocal hvalues
  rw [hclear] at hpure
  refine ⟨rfl, ?_⟩
  rw [localValue, execOperation_of_pure hdst hlocal hpure]
  dsimp only
  rw [Function.update_self, Nat.mod_mod, Nat.zero_mod]

theorem Holds.recordMove (hwidths : ∀ r, (table.desc r).width ≤ 2 ^ 32) (hshape : MovesOne op)
    (h : s.Holds table (execOperation m table σ op)) (hok : s.recordMove table op = .ok s') :
    s'.Holds table (execOperation m table σ op) := by
  unfold EarlyState.recordMove at hok
  split at hok
  · rename_i hmov
    split at hok
    · rename_i d dsts src srcs hdst hsrc
      have hdst1 : op.dst = [.register d] := by
        have hlength := hshape.mov_dst hmov
        rw [hdst, List.length_cons, Nat.add_eq_right, List.length_eq_zero_iff] at hlength
        rw [hdst, hlength]
      have hsrc1 : op.src = [src] := by
        have hlength := hshape.mov_src hmov
        rw [hsrc, List.length_cons, Nat.add_eq_right, List.length_eq_zero_iff] at hlength
        rw [hsrc, hlength]
      split at hok
      · rename_i hcheck
        have hlocal : isLocalVariable table d := by
          refine isLocalVariable_of_checkRegs hcheck (.inr ?_)
          rw [Operation.writes, hdst1]
          exact List.mem_singleton.mpr rfl
        split at hok
        · rw [bind_eq_ok_iff] at hok
          obtain ⟨value, hresize, hok⟩ := hok
          rw [← Except.ok.inj hok]
          exact h.setEquivalent hlocal (entryHolds_literal hmov hsrc1 hdst1 hlocal hresize)
        · rename_i r
          have hread : r ∈ op.reads := by
            rw [Operation.reads, hsrc1]
            exact List.mem_singleton.mpr rfl
          split at hok
          · rename_i hwidth
            rw [← Except.ok.inj hok]
            exact h.setEquivalent hlocal (entryHolds_register hmov hsrc1 hdst1 hlocal
              (isLocalVariable_of_checkRegs hcheck (.inl hread)) hwidth (hwidths r))
          · exact Except.ok.inj hok ▸ h
        · exact Except.ok.inj hok ▸ h
      · exact Except.ok.inj hok ▸ h
    · exact Except.ok.inj hok ▸ h
    · cases hok
  · rename_i hclear
    split at hok
    · rename_i hcheck
      rw [bind_eq_ok_iff] at hok
      obtain ⟨_, hassert, hok⟩ := hok
      split at hok
      · rename_i d dsts hdst
        have hdst1 : op.dst = [.register d] := by
          have hlength := of_decide_eq_true (of_assert hassert)
          rw [hdst, List.length_cons, Nat.add_eq_right, List.length_eq_zero_iff] at hlength
          rw [hdst, hlength]
        have hlocal : isLocalVariable table d := by
          refine isLocalVariable_of_checkRegs hcheck (.inr ?_)
          rw [Operation.writes, hdst1]
          exact List.mem_singleton.mpr rfl
        rw [← Except.ok.inj hok]
        exact h.setEquivalent hlocal
          (entryHolds_clear hclear (hshape.clear_src hclear) hdst1 hlocal)
      · exact Except.ok.inj hok ▸ h
    · exact Except.ok.inj hok ▸ h
  · exact Except.ok.inj hok ▸ h

end

/-! ## The forward pass -/

/-- The second operations are the first ones with other sources of the same values. -/
inductive Forwarded (m : Machine W) (table : RegisterTable) :
    State W → List Operation → List Operation → Prop
  | nil {σ : State W} : Forwarded m table σ [] []
  | cons {σ : State W} {op op' : Operation} {ops ops' : List Operation}
      (hsame : op' = { op with src := op'.src })
      (hvalues : evalSources m table σ op' = evalSources m table σ op)
      (hrest : Forwarded m table (execOperation m table σ op) ops ops') :
      Forwarded m table σ (op :: ops) (op' :: ops')

section

variable {m : Machine W} {s s' : EarlyState} {σ : State W}

theorem execOperations_append (σ : State W) (ops ops' : List Operation) :
    execOperations m table σ (ops ++ ops') =
      execOperations m table (execOperations m table σ ops) ops' :=
  List.foldl_append

theorem Forwarded.append {ops₁ ops₁' ops₂ ops₂' : List Operation}
    (h₁ : Forwarded m table σ ops₁ ops₁')
    (h₂ : Forwarded m table (execOperations m table σ ops₁) ops₂ ops₂') :
    Forwarded m table σ (ops₁ ++ ops₂) (ops₁' ++ ops₂') := by
  induction h₁ with
  | nil => exact h₂
  | cons hsame hvalues _ ih => exact .cons hsame hvalues (ih h₂)

theorem exec_sameButSources {op op' : Operation} (hsame : op' = { op with src := op'.src })
    (hvalues : evalSources m table σ op' = evalSources m table σ op) :
    execOperation m table σ op' = execOperation m table σ op := by
  have hinfo : op'.info table = op.info table := by
    rw [hsame]
    rfl
  have hdst : op'.dst = op.dst := by
    rw [hsame]
  rw [execOperation, execOperation, hinfo, hvalues, hdst]

theorem forwardSources_same (s : EarlyState) (op : Operation) :
    s.forwardSources table op = { op with src := (s.forwardSources table op).src } := by
  unfold forwardSources
  split
  · rfl
  · rfl

theorem forwardSources_movesOne {op : Operation} (h : MovesOne op) :
    MovesOne (s.forwardSources table op) := by
  unfold forwardSources
  split
  · refine ⟨fun hmov => ?_, h.mov_dst, fun hclear => ?_⟩
    · rw [List.length_mapIdx]
      exact h.mov_src hmov
    · have hnil := h.clear_src hclear
      simp only [hnil, List.mapIdx_nil]
  · exact h

theorem forwardOperation_spec (hwidths : ∀ r, (table.desc r).width ≤ 2 ^ 32) {op op' : Operation}
    (hshape : MovesOne op) (h : s.Holds table σ)
    (hok : s.forwardOperation table op = .ok (op', s')) :
    op' = { op with src := op'.src } ∧ MovesOne op' ∧
      evalSources m table σ op' = evalSources m table σ op ∧
      s'.Holds table (execOperation m table σ op) := by
  rw [forwardOperation, bind_eq_ok_iff] at hok
  obtain ⟨s₁, hs₁, hok⟩ := hok
  obtain ⟨rfl, rfl⟩ := Prod.mk.inj (Except.ok.inj hok)
  have hvalues : evalSources m table σ (s.forwardSources table op) = evalSources m table σ op :=
    h.evalSources_forward op
  have hexec := exec_sameButSources (s.forwardSources_same op) hvalues
  refine ⟨s.forwardSources_same op, forwardSources_movesOne hshape, hvalues, ?_⟩
  rw [← hexec]
  exact (h.writeRegisters _).recordMove hwidths (forwardSources_movesOne hshape) hs₁

theorem forwardOperations_spec (hwidths : ∀ r, (table.desc r).width ≤ 2 ^ 32)
    {ops : List Operation} : ∀ {s s' : EarlyState} {σ : State W} {ops' : List Operation},
      (∀ op ∈ ops, MovesOne op) → s.Holds table σ →
      forwardOperations table s ops = .ok (ops', s') →
      Forwarded m table σ ops ops' ∧ s'.Holds table (execOperations m table σ ops) := by
  induction ops with
  | nil =>
    intro s s' σ ops' _ h hok
    obtain ⟨rfl, rfl⟩ := Prod.mk.inj (Except.ok.inj hok)
    exact ⟨.nil, h⟩
  | cons op ops ih =>
    intro s s' σ ops' hshape h hok
    simp only [forwardOperations, bind_eq_ok_iff] at hok
    obtain ⟨⟨op', s₁⟩, hhead, ⟨ops₁, s₂⟩, hrest, hok⟩ := hok
    obtain ⟨rfl, rfl⟩ := Prod.mk.inj (Except.ok.inj hok)
    obtain ⟨hsame, -, hvalues, hholds⟩ :=
      forwardOperation_spec hwidths (hshape op List.mem_cons_self) h hhead
    obtain ⟨hforwarded, hfinal⟩ :=
      ih (fun op hop => hshape op (List.mem_cons_of_mem _ hop)) hholds hrest
    exact ⟨.cons hsame hvalues hforwarded, hfinal⟩

theorem forwardStages_spec (hwidths : ∀ r, (table.desc r).width ≤ 2 ^ 32)
    {stages : List Stage} : ∀ {s s' : EarlyState} {σ : State W} {stages' : List Stage},
      (∀ op ∈ stages.flatMap Stage.operations, MovesOne op) → s.Holds table σ →
      forwardStages table s stages = .ok (stages', s') →
      Forwarded m table σ (stages.flatMap Stage.operations)
        (stages'.flatMap Stage.operations) := by
  induction stages with
  | nil =>
    intro s s' σ stages' _ _ hok
    obtain ⟨rfl, -⟩ := Prod.mk.inj (Except.ok.inj hok)
    exact .nil
  | cons stage stages ih =>
    intro s s' σ stages' hshape h hok
    simp only [forwardStages, bind_eq_ok_iff] at hok
    obtain ⟨⟨operations, s₁⟩, hhead, ⟨stages₁, s₂⟩, hrest, hok⟩ := hok
    obtain ⟨rfl, -⟩ := Prod.mk.inj (Except.ok.inj hok)
    rw [List.flatMap_cons] at hshape
    obtain ⟨hforwarded, hholds⟩ := forwardOperations_spec hwidths
      (fun op hop => hshape op (List.mem_append_left _ hop)) h hhead
    rw [List.flatMap_cons, List.flatMap_cons]
    exact hforwarded.append (ih (fun op hop => hshape op (List.mem_append_right _ hop)) hholds hrest)

end

end EarlyState

/-- The forward pass through a block only replaces sources by others of the same values. -/
theorem forwardBlock_spec {m : Machine W} (hwidths : ∀ r, (table.desc r).width ≤ 2 ^ 32)
    {basicBlock basicBlock' : BasicBlock}
    (hshape : ∀ op ∈ basicBlock.allOperations, EarlyState.MovesOne op)
    (hok : forwardBlock table basicBlock = .ok basicBlock') (σ : State W) :
    EarlyState.Forwarded m table σ basicBlock.allOperations basicBlock'.allOperations := by
  simp only [forwardBlock, bind_eq_ok_iff] at hok
  obtain ⟨⟨starts, s₁⟩, hstarts, ⟨body, s₂⟩, hbody, ⟨stages, s₃⟩, hstages, hok⟩ := hok
  rw [← Except.ok.inj hok]
  rw [BasicBlock.allOperations] at hshape ⊢
  obtain ⟨hforwarded₁, hholds₁⟩ := EarlyState.forwardOperations_spec hwidths
    (fun op hop => hshape op (List.mem_append_left _ (List.mem_append_left _ hop)))
    (EarlyState.holds_empty σ) hstarts
  obtain ⟨hforwarded₂, hholds₂⟩ := EarlyState.forwardOperations_spec hwidths
    (fun op hop => hshape op (List.mem_append_left _ (List.mem_append_right _ hop)))
    hholds₁ hbody
  refine (hforwarded₁.append hforwarded₂).append ?_
  rw [EarlyState.execOperations_append]
  exact EarlyState.forwardStages_spec hwidths
    (fun op hop => hshape op (List.mem_append_right _ hop)) hholds₂ hstages

/-! ## Dead code elimination -/

/-- The second operations are the first ones without some that may be dropped. -/
inductive Remains (drop : Operation → Prop) : List Operation → List Operation → Prop
  | nil : Remains drop [] []
  | keep {op : Operation} {ops ops' : List Operation} (hrest : Remains drop ops ops') :
      Remains drop (op :: ops) (op :: ops')
  | drop {op : Operation} {ops ops' : List Operation} (hop : drop op)
      (hrest : Remains drop ops ops') : Remains drop (op :: ops) ops'

namespace Remains

variable {drop drop' : Operation → Prop} {ops ops' ops'' : List Operation}

theorem refl : ∀ ops : List Operation, Remains drop ops ops
  | [] => .nil
  | _ :: ops => .keep (refl ops)

theorem trans (h : Remains drop ops ops') (h' : Remains drop ops' ops'') :
    Remains drop ops ops'' := by
  induction h generalizing ops'' with
  | nil => exact h'
  | @keep op ops ops' hrest ih =>
    cases h' with
    | keep hrest' => exact .keep (ih hrest')
    | drop hop hrest' => exact .drop hop (ih hrest')
  | drop hop _ ih => exact .drop hop (ih h')

theorem append {ops₁ ops₁' ops₂ ops₂' : List Operation} (h : Remains drop ops₁ ops₁')
    (h' : Remains drop ops₂ ops₂') : Remains drop (ops₁ ++ ops₂) (ops₁' ++ ops₂') := by
  induction h with
  | nil => exact h'
  | keep _ ih => exact .keep ih
  | drop hop _ ih => exact .drop hop ih

theorem filter {p : Operation → Bool} (h : ∀ op ∈ ops, p op = false → drop op) :
    Remains drop ops (ops.filter p) := by
  induction ops with
  | nil => exact .nil
  | cons op ops ih =>
    have hrest := ih fun op' hop' => h op' (List.mem_cons_of_mem _ hop')
    rw [List.filter_cons]
    split
    · exact .keep hrest
    · rename_i hp
      exact .drop (h op List.mem_cons_self (Bool.not_eq_true _ ▸ hp)) hrest

theorem subset (h : Remains drop ops ops') : ops' ⊆ ops := by
  induction h with
  | nil => exact fun _ h => h
  | keep _ ih => exact List.cons_subset_cons _ ih
  | drop _ _ ih => exact fun op hop => List.mem_cons_of_mem _ (ih hop)

end Remains

/-- An operation that may be dropped: it has no effects, and nobody uses its results. -/
structure Unused (table : RegisterTable) (used : List Nat) (op : Operation) : Prop where
  notLive : op.opcode.isLive = false
  staysLocal : op.StaysLocal table
  unread : ∀ r ∈ op.writes, r ∉ used

/-- Operations before the appended stages that are not live by themselves have only local
    destinations. -/
def ResultsStayLocal (table : RegisterTable) (f : Function) : Prop :=
  ∀ basicBlock ∈ f.basicBlocks,
    ∀ op ∈ basicBlock.startConditionOperations ++ basicBlock.operations,
      op.opcode.isLive = false → op.StaysLocal table

section

variable {liveInReg : Nat → List Nat} {f f' : Function}

theorem removeUnused_remains (hf : ResultsStayLocal table f) {used : List Nat}
    (hused : used ⊆ usedRegisters liveInReg f) (b : Nat) :
    Remains (Unused table used) (f.operationsOf b) ((removeUnused liveInReg f).operationsOf b) := by
  rw [Function.operationsOf, Function.operationsOf, removeUnused, List.getElem?_map]
  cases hb : f.basicBlocks[b]? with
  | none => exact .nil
  | some basicBlock =>
    have hblock := hf basicBlock (List.mem_of_getElem? hb)
    have hdrop : ∀ op ∈ basicBlock.startConditionOperations ++ basicBlock.operations,
        isUsed (usedRegisters liveInReg f) op = false → Unused table used op := by
      intro op hop hunused
      obtain ⟨hlive, hwrites⟩ := Bool.or_eq_false_iff.mp hunused
      refine ⟨hlive, hblock op hop hlive, fun r hr hmem => ?_⟩
      have hnot := List.any_eq_false.mp hwrites r hr
      exact hnot (List.contains_iff_mem.mpr (hused hmem))
    refine (Remains.append (.append (.filter fun op hop => ?_) (.filter fun op hop => ?_))
      (.refl _))
    · exact hdrop op (List.mem_append_left _ hop)
    · exact hdrop op (List.mem_append_right _ hop)

theorem mem_usedRegisters {r : Nat} :
    r ∈ usedRegisters liveInReg f ↔ ∃ b, ∃ op ∈ f.operationsOf b, r ∈ usedBy liveInReg op := by
  rw [usedRegisters, List.mem_flatMap]
  constructor
  · rintro ⟨basicBlock, hblock, hr⟩
    obtain ⟨op, hop, hr⟩ := List.mem_flatMap.mp hr
    obtain ⟨b, hb⟩ := List.getElem?_of_mem hblock
    refine ⟨b, op, ?_, hr⟩
    rw [Function.operationsOf, hb]
    exact hop
  · rintro ⟨b, op, hop, hr⟩
    rw [Function.operationsOf] at hop
    split at hop
    · rename_i basicBlock hb
      exact ⟨basicBlock, List.mem_of_getElem? hb, List.mem_flatMap.mpr ⟨op, hop, hr⟩⟩
    · cases hop

theorem usedRegisters_removeUnused :
    usedRegisters liveInReg (removeUnused liveInReg f) ⊆ usedRegisters liveInReg f := by
  intro r hr
  obtain ⟨b, op, hop, hr⟩ := mem_usedRegisters.mp hr
  refine mem_usedRegisters.mpr ⟨b, op, ?_, hr⟩
  rw [Function.operationsOf, removeUnused, List.getElem?_map] at hop
  rw [Function.operationsOf]
  cases hb : f.basicBlocks[b]? with
  | none =>
    rw [hb] at hop
    cases hop
  | some basicBlock =>
    rw [hb] at hop
    simp only [Option.map_some, BasicBlock.allOperations, removeUnusedFromBlock, List.mem_append,
      List.mem_filter] at hop ⊢
    exact hop.imp_left fun h => h.imp And.left And.left

theorem removeUnused_resultsStayLocal (hf : ResultsStayLocal table f) :
    ResultsStayLocal table (removeUnused liveInReg f) := by
  intro basicBlock hblock op hop
  obtain ⟨original, horiginal, rfl⟩ := List.mem_map.mp hblock
  refine hf original horiginal op ?_
  simp only [removeUnusedFromBlock, List.mem_append, List.mem_filter] at hop ⊢
  exact hop.imp And.left And.left

/-- The loop ends: every round but the last removes an operation. -/
theorem removeUnusedLoop_ends (liveInReg : Nat → List Nat) (fuel : Nat) : ∀ f : Function, countOperations f < fuel →
    ∃ f', ∀ fuel' ≥ fuel, removeUnusedLoop liveInReg fuel' f = some f' := by
  induction fuel with
  | zero => exact fun f h => absurd h (Nat.not_lt_zero _)
  | succ fuel ih =>
    intro f hfuel
    by_cases hremoved : 0 < countOperations f - countOperations (removeUnused liveInReg f)
    · obtain ⟨f', hf'⟩ := ih (removeUnused liveInReg f) (by omega)
      refine ⟨f', fun fuel' hge => ?_⟩
      obtain ⟨k, rfl⟩ := Nat.exists_eq_add_of_le' hge
      rw [← Nat.add_assoc, removeUnusedLoop, if_pos hremoved]
      exact hf' (k + fuel) (Nat.le_add_left _ _)
    · refine ⟨removeUnused liveInReg f, fun fuel' hge => ?_⟩
      obtain ⟨k, rfl⟩ := Nat.exists_eq_add_of_le' hge
      rw [← Nat.add_assoc, removeUnusedLoop, if_neg hremoved]

theorem removeUnusedLoop_spec (fuel : Nat) : ∀ {f : Function}, ResultsStayLocal table f →
    removeUnusedLoop liveInReg fuel f = some f' →
    usedRegisters liveInReg f' ⊆ usedRegisters liveInReg f ∧
      ∀ b, Remains (Unused table (usedRegisters liveInReg f')) (f.operationsOf b)
        (f'.operationsOf b) := by
  induction fuel with
  | zero => exact fun _ h => nomatch h
  | succ fuel ih =>
    intro f hf hloop
    rw [removeUnusedLoop] at hloop
    split at hloop
    · obtain ⟨hused, hremains⟩ := ih (removeUnused_resultsStayLocal hf) hloop
      have hused' := List.Subset.trans hused usedRegisters_removeUnused
      exact ⟨hused', fun b => (removeUnused_remains hf hused' b).trans (hremains b)⟩
    · rw [← Option.some.inj hloop]
      exact ⟨usedRegisters_removeUnused,
        removeUnused_remains hf usedRegisters_removeUnused⟩

end

/-! ## The pass -/

/-- How a block runs before and after: the operations that remain have other sources at most,
    read the same values, and find the same world and the same values of the registers that
    are used; the others have no effects.  So do the ends of the block. -/
inductive Matches (m : Machine W) (table : RegisterTable) (used : Nat → Prop) :
    State W → List Operation → State W → List Operation → Prop
  | done {σ σ' : State W} (hsame : SameOn used σ σ') : Matches m table used σ [] σ' []
  | keep {σ σ' : State W} {op op' : Operation} {ops ops' : List Operation}
      (hsame : SameOn used σ σ') (hop : op' = { op with src := op'.src })
      (hvalues : evalSources m table σ' op' = evalSources m table σ op)
      (hrest : Matches m table used (execOperation m table σ op) ops
        (execOperation m table σ' op') ops') :
      Matches m table used σ (op :: ops) σ' (op' :: ops')
  | drop {σ σ' : State W} {op : Operation} {ops ops' : List Operation}
      (hlive : op.opcode.isLive = false)
      (hrest : Matches m table used (execOperation m table σ op) ops σ' ops') :
      Matches m table used σ (op :: ops) σ' ops'

/-- What is dropped leaves the values that are used as they are. -/
theorem Unused.sameOn {m : QuietMachine W table} {used : List Nat} {op op' : Operation}
    {σ σ' : State W} (h : Unused table used op') (hop : op' = { op with src := op'.src })
    (hsame : SameOn (· ∈ used) σ σ') :
    SameOn (· ∈ used) (execOperation m.toMachine table σ op) σ' := by
  have hopcode : op.opcode = op'.opcode := by rw [hop]
  have hdst : op.dst = op'.dst := by rw [hop]
  refine ⟨?_, fun r hr => ?_⟩
  · rw [m.world_eq (hopcode ▸ h.notLive), hsame.world]
    intro dst hmem
    exact h.staysLocal dst (hdst ▸ hmem)
  · rw [execOperation_of_not_written, hsame.locals r hr]
    intro hwritten
    rw [Operation.writes, hdst] at hwritten
    exact h.unread r hwritten hr

theorem matches_of_remains {m : QuietMachine W table} {used : List Nat}
    {ops ops₁ ops' : List Operation} {σ σ' : State W}
    (hforwarded : EarlyState.Forwarded m.toMachine table σ ops ops₁)
    (hremains : Remains (Unused table used) ops₁ ops')
    (hreads : ∀ op ∈ ops', ∀ r ∈ op.reads, r ∈ used) (hsame : SameOn (· ∈ used) σ σ') :
    Matches m.toMachine table (· ∈ used) σ ops σ' ops' := by
  induction hforwarded generalizing σ' ops' with
  | nil =>
    cases hremains
    exact .done hsame
  | @cons σ op op₁ ops ops₁ hop hvalues hrest ih =>
    cases hremains with
    | keep hremains =>
      have hvalues' : evalSources m.toMachine table σ' op₁ = evalSources m.toMachine table σ op := by
        rw [← hvalues]
        exact (hsame.evalSources_eq (hreads op₁ List.mem_cons_self)).symm
      refine .keep hsame hop hvalues' (ih hremains (fun op' hop' => ?_) ?_)
      · exact hreads op' (List.mem_cons_of_mem _ hop')
      · refine hsame.exec ?_ ?_ hvalues'.symm
        · rw [hop]
          rfl
        · rw [hop]
    | drop hunused hremains =>
      have hlive : op.opcode.isLive = false := by
        have hlive := hunused.notLive
        rwa [hop] at hlive
      exact .drop hlive (ih hremains hreads (hunused.sameOn hop hsame))

/-- The functions that the pass gets: moves have one source and one destination, registers have
    widths that the arithmetic accepts, and FIFOs and globals are only written by appended
    stages and operations that are live by themselves. -/
structure EarlyInput (table : RegisterTable) (f : Function) : Prop where
  moves : ∀ b, ∀ op ∈ f.operationsOf b, EarlyState.MovesOne op
  widths : ∀ r, (table.desc r).width ≤ 2 ^ 32
  local_results : ResultsStayLocal table f

section

variable {liveInReg : Nat → List Nat} {f f' : Function}

theorem forwardOperations_lengths {ops : List Operation} : ∀ {s s' : EarlyState}
    {ops' : List Operation}, EarlyState.forwardOperations table s ops = .ok (ops', s') →
    List.Forall₂ (fun op op' : Operation => op.opcode = op'.opcode ∧ op.dst = op'.dst)
      ops ops' := by
  induction ops with
  | nil =>
    intro s s' ops' hok
    obtain ⟨rfl, -⟩ := Prod.mk.inj (Except.ok.inj hok)
    exact .nil
  | cons op ops ih =>
    intro s s' ops' hok
    simp only [EarlyState.forwardOperations, bind_eq_ok_iff] at hok
    obtain ⟨⟨op', s₁⟩, hhead, ⟨ops₁, s₂⟩, hrest, hok⟩ := hok
    obtain ⟨rfl, -⟩ := Prod.mk.inj (Except.ok.inj hok)
    rw [EarlyState.forwardOperation, bind_eq_ok_iff] at hhead
    obtain ⟨s₃, -, hhead⟩ := hhead
    obtain ⟨rfl, -⟩ := Prod.mk.inj (Except.ok.inj hhead)
    refine .cons ⟨?_, ?_⟩ (ih hrest)
    · rw [EarlyState.forwardSources_same]
    · rw [EarlyState.forwardSources_same]

/-- The forward pass leaves opcodes and destinations as they are. -/
theorem forwardBlock_unchanged {basicBlock basicBlock' : BasicBlock}
    (hok : forwardBlock table basicBlock = .ok basicBlock') :
    basicBlock'.startConditionOperations.length = basicBlock.startConditionOperations.length ∧
      basicBlock'.operations.length = basicBlock.operations.length ∧
      ∀ op' ∈ basicBlock'.startConditionOperations ++ basicBlock'.operations,
        ∃ op ∈ basicBlock.startConditionOperations ++ basicBlock.operations,
          op.opcode = op'.opcode ∧ op.dst = op'.dst := by
  simp only [forwardBlock, bind_eq_ok_iff] at hok
  obtain ⟨⟨starts, s₁⟩, hstarts, ⟨body, s₂⟩, hbody, ⟨stages, s₃⟩, -, hok⟩ := hok
  rw [← Except.ok.inj hok]
  have hrelated := List.rel_append (forwardOperations_lengths hstarts)
    (forwardOperations_lengths hbody)
  refine ⟨(forwardOperations_lengths hstarts).length_eq.symm,
    (forwardOperations_lengths hbody).length_eq.symm, fun op' hop' => ?_⟩
  obtain ⟨i, hi', rfl⟩ := List.getElem_of_mem hop'
  have hi := hrelated.length_eq ▸ hi'
  exact ⟨_, List.getElem_mem hi, hrelated.get hi hi'⟩

theorem forwarded_resultsStayLocal {basicBlocks : List BasicBlock}
    (hok : f.basicBlocks.mapM (forwardBlock table) = .ok basicBlocks)
    (hf : ResultsStayLocal table f) : ResultsStayLocal table ⟨f.start, basicBlocks⟩ := by
  intro basicBlock' hblock' op' hop' hlive
  have hrelated := mapM_related hok
  obtain ⟨b, hb', rfl⟩ := List.getElem_of_mem hblock'
  have hb := hrelated.length_eq ▸ hb'
  have hblock := hrelated.get hb hb'
  obtain ⟨op, hop, hopcode, hdst⟩ := (forwardBlock_unchanged hblock).2.2 op' hop'
  have hstays := hf _ (List.getElem_mem hb) op hop (hopcode ▸ hlive)
  exact fun dst hmem => hstays dst (hdst ▸ hmem)

theorem forwarded_countOperations {basicBlocks : List BasicBlock}
    (hok : f.basicBlocks.mapM (forwardBlock table) = .ok basicBlocks) :
    countOperations ⟨f.start, basicBlocks⟩ = countOperations f := by
  have hrelated := mapM_related hok
  rw [countOperations, countOperations]
  refine congrArg List.sum (List.ext_getElem ?_ fun b hb' hb => ?_)
  · rw [List.length_map, List.length_map, hrelated.length_eq]
  · rw [List.getElem_map, List.getElem_map]
    rw [List.length_map] at hb hb'
    obtain ⟨hstarts, hbody, -⟩ := forwardBlock_unchanged (hrelated.get hb hb')
    simp only [List.get_eq_getElem] at hstarts hbody
    rw [hstarts, hbody]

theorem forwarded_operationsOf {m : Machine W} {basicBlocks : List BasicBlock}
    (hf : EarlyInput table f)
    (hok : f.basicBlocks.mapM (forwardBlock table) = .ok basicBlocks) (b : Nat) (σ : State W) :
    EarlyState.Forwarded m table σ (f.operationsOf b)
      (Function.operationsOf ⟨f.start, basicBlocks⟩ b) := by
  have hrelated := mapM_related hok
  have hmoves := hf.moves b
  rw [Function.operationsOf, Function.operationsOf]
  rw [Function.operationsOf] at hmoves
  cases hb : f.basicBlocks[b]? with
  | none =>
    have hb' : basicBlocks[b]? = none := by
      rw [List.getElem?_eq_none_iff, ← hrelated.length_eq]
      exact List.getElem?_eq_none_iff.mp hb
    rw [hb']
    exact .nil
  | some basicBlock =>
    rw [hb] at hmoves
    obtain ⟨hlt, rfl⟩ := List.getElem?_eq_some_iff.mp hb
    have hlt' : b < basicBlocks.length := hrelated.length_eq ▸ hlt
    rw [List.getElem?_eq_getElem hlt']
    exact forwardBlock_spec hf.widths hmoves (hrelated.get hlt hlt') σ

/-- Optimization before renaming ends, and each block runs as before: from states that agree
    in the registers that are used afterwards, the operations that remain read the same values,
    and what an `Enqueue` and the end of the block find is the same. -/
theorem earlyOptimization_preserves (liveInReg : Nat → List Nat) (hf : EarlyInput table f) :
    ∃ r, (∀ fuel, countOperations f < fuel →
        earlyOptimization table liveInReg fuel f = some r) ∧
      ∀ f', r = .ok f' → ∀ {W : Type} (m : QuietMachine W table) (b : Nat) (σ σ' : State W),
        SameOn (· ∈ usedRegisters liveInReg f') σ σ' →
        Matches m.toMachine table (· ∈ usedRegisters liveInReg f') σ (f.operationsOf b) σ'
          (f'.operationsOf b) := by
  simp only [earlyOptimization]
  cases hok : f.basicBlocks.mapM (forwardBlock table) with
  | error e => exact ⟨.error e, fun _ _ => rfl, fun f' hf' => nomatch hf'⟩
  | ok basicBlocks =>
    obtain ⟨f₁, hf₁⟩ := removeUnusedLoop_ends liveInReg (countOperations f + 1)
      ⟨f.start, basicBlocks⟩ (by rw [forwarded_countOperations hok]; exact Nat.lt_succ_self _)
    refine ⟨.ok f₁, fun fuel hfuel => ?_, ?_⟩
    · dsimp only
      rw [hf₁ fuel hfuel]
      rfl
    · rintro f' hf' W m b σ σ' hsame
      obtain rfl := Except.ok.inj hf'
      obtain ⟨-, hremains⟩ := removeUnusedLoop_spec _
        (forwarded_resultsStayLocal hok hf.local_results) (hf₁ _ (Nat.le_refl _))
      refine matches_of_remains (forwarded_operationsOf hf hok b σ) (hremains b)
        (fun op hop r hr => ?_) hsame
      exact mem_usedRegisters.mpr ⟨b, op, hop, List.mem_append_left _ hr⟩

end

/-! ## A block that writes a register twice -/

/-- A register is moved, overwritten and read again under both names. -/
def overwriteFunction : Function :=
  ⟨0, [⟨[], [{ opcode := .mov, src := [.register 0], dst := [.register 1] },
    { opcode := .mov, src := [.literal ⟨7, 8⟩], dst := [.register 0] },
    { opcode := .binaryOp .add, src := [.register 1, .register 0], dst := [.register 2] },
    { opcode := .mov, src := [.register 2], dst := [.register 3] },
    { opcode := .print, src := [.register 3] }], []⟩]⟩

def overwriteTable : RegisterTable := List.replicate 4 ⟨8, .local, false, false, none⟩

theorem overwriteTable_width : ∀ r, (overwriteTable.desc r).width ≤ 2 ^ 32
  | 0 | 1 | 2 | 3 => by decide
  | _ + 4 => by
    rw [RegisterTable.desc, List.getD_eq_default _ _ (by simp [overwriteTable])]
    exact Nat.zero_le _

theorem overwriteFunction_movesOne : ∀ op ∈ overwriteFunction.operationsOf 0,
    EarlyState.MovesOne op := by
  intro op hop
  simp only [overwriteFunction, Function.operationsOf, List.getElem?_cons_zero,
    BasicBlock.allOperations, List.nil_append, List.flatMap_nil, List.append_nil, List.mem_cons,
    List.not_mem_nil, or_false] at hop
  rcases hop with rfl | rfl | rfl | rfl | rfl
  all_goals exact ⟨by simp, by simp, by simp⟩

theorem overwriteFunction_input : EarlyInput overwriteTable overwriteFunction where
  moves b := by
    cases b with
    | zero => exact overwriteFunction_movesOne
    | succ b => exact fun op hop => nomatch hop
  widths := overwriteTable_width
  local_results := by
    intro basicBlock hblock op hop _
    obtain rfl := List.mem_singleton.mp hblock
    simp only [List.nil_append, List.mem_cons, List.not_mem_nil, or_false] at hop
    rcases hop with rfl | rfl | rfl | rfl | rfl
    all_goals simp [Operation.StaysLocal, overwriteTable, RegisterTable.isLocal,
      RegisterTable.desc, RegisterType.isLocal]

/-- The sum reads the moved register, which was overwritten since, and a literal; the last
    move is deleted. -/
theorem earlyOptimization_preserves_overwrite :
    ∃ f', earlyOptimization overwriteTable (fun _ => []) 6 overwriteFunction = some (.ok f') ∧
      (f'.operationsOf 0).map Operation.src = [[.register 0], [.literal ⟨7, 8⟩],
        [.register 1, .literal ⟨7, 8⟩], [.register 2]] ∧
      ∀ {W : Type} (m : QuietMachine W overwriteTable) (σ : State W),
        Matches m.toMachine overwriteTable (· ∈ usedRegisters (fun _ => []) f') σ
          (overwriteFunction.operationsOf 0) σ (f'.operationsOf 0) := by
  obtain ⟨r, hrun, hmatches⟩ :=
    earlyOptimization_preserves (fun _ => []) overwriteFunction_input
  have hresult := hrun 6 (by decide)
  refine ⟨_, rfl, rfl, fun m σ => ?_⟩
  exact hmatches _ (Option.some.inj hresult).symm m 0 σ σ ⟨rfl, fun _ _ => rfl⟩

end Kanagawa.Optimize
