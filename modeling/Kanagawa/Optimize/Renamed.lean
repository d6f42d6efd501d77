/-
  Kanagawa.Optimize.Renamed

  The form in which the optimizer finds a function: every local register is written
  at one place, and the `Enqueue` operations carry the renaming tables.

  An `Enqueue` passes a register on under its original name: the tables translate
  in both directions, and registers they do not mention keep their names.
-/
import Kanagawa.IR.ControlFlow
import Kanagawa.Lower.RenameSound

namespace Kanagawa.Optimize

open IR Lib.NatMap Lower

variable {table : RegisterTable} {f : Function}

def isLocalVariable (table : RegisterTable) (r : Nat) : Prop :=
  (table.desc r).type = .local

/-- Operation `i` of block `b` writes the register. -/
def WrittenAt (f : Function) (b i r : Nat) : Prop :=
  ∃ op, (f.operationsOf b)[i]? = some op ∧ r ∈ op.writes

/-- A function after renaming. -/
structure RenamedFunction (table : RegisterTable) (f : Function) : Prop where
  /-- a local register is written at one place -/
  writtenOnce : ∀ {r b b' i i'}, isLocalVariable table r → WrittenAt f b i r →
    WrittenAt f b' i' r → b = b' ∧ i = i'
  /-- the two tables of an `Enqueue` are inverse to each other -/
  inverse : ∀ {b i op c}, f.Edge b i op c → InverseTables op
  /-- a register is renamed to one of the same kind -/
  sameKind : ∀ {b i op c o r}, f.Edge b i op c → op.renamingTable[o]? = some r →
    isLocalVariable table o ∧ isLocalVariable table r ∧
      (table.desc o).width = (table.desc r).width
  /-- a register that is renamed is not written under its own name -/
  originals : ∀ {b i op c o r}, f.Edge b i op c → op.renamingTable[o]? = some r →
    ∀ {b' i'}, ¬ WrittenAt f b' i' o

theorem isLocal_of_isLocalVariable {r : Nat} (h : isLocalVariable table r) :
    table.isLocal r = true := by
  rw [RegisterTable.isLocal, h]
  rfl

/-- Registers outside the table are not local variables. -/
theorem lt_of_isLocalVariable {r : Nat} (h : isLocalVariable table r) : r < table.length := by
  by_contra hge
  rw [isLocalVariable, RegisterTable.desc,
    List.getD_eq_default _ _ (Nat.le_of_not_lt hge)] at h
  cases h

/-- An operation that only computes gives its local register the result. -/
theorem execOperation_of_pure {W : Type} {m : Machine W} {σ : State W} {op : Operation}
    {k result : Nat} (hdst : op.dst = [.register k]) (hlocal : isLocalVariable table k)
    (hpure : (op.info table).pureResult? (evalSources m table σ op) = some result) :
    execOperation m table σ op =
      ⟨Function.update σ.locals k (result % 2 ^ (table.desc k).width), m.tick σ.world⟩ := by
  rw [execOperation, Machine.run, hpure, hdst]
  simp only [writeDestinations, isLocal_of_isLocalVariable hlocal, if_true, List.headD_cons]

/-- The result of an operation that only computes, from the values of its sources. -/
theorem pureResult?_eq {W : Type} {m : Machine W} {σ : State W} {op : Operation} {k : Nat}
    {literals : List Literal} (hdst : op.dst = [.register k])
    (hlocal : isLocalVariable table k)
    (hvalues : (evalSources m table σ op).mapM Value.literal? = some literals) :
    (op.info table).pureResult? (evalSources m table σ op) =
      pureResult op.opcode op.signExtendSourceMask (table.desc k).width literals := by
  simp only [Operation.info, hdst, List.map_cons, List.map_nil, target,
    isLocal_of_isLocalVariable hlocal, if_true, OpInfo.pureResult?, hvalues, Option.bind_eq_bind,
    Option.bind_some]

/-- A register that the block does not write keeps its value. -/
theorem locals_of_not_written {W : Type} {m : Machine W}
    {σ : State W} {b i r : Nat} (hnot : ∀ j, ¬ WrittenAt f b j r) :
    (execOperations m table σ ((f.operationsOf b).take i)).locals r = σ.locals r :=
  execOperations_take_of_not_written (Nat.zero_le i) fun k op _ _ hop hmem =>
    hnot k ⟨op, hop, hmem⟩

/-! ## Names in the successor -/

/-- Registers that are not renamed keep different names in the successor. -/
theorem mapRenamed_injective {op : Operation} (h : InverseTables op) {r r' : Nat}
    (hr : op.renamingTable[r]? = none) (hr' : op.renamingTable[r']? = none)
    (heq : op.mapRenamedToOriginalRegisterIndex r = op.mapRenamedToOriginalRegisterIndex r') :
    r = r' := by
  unfold Operation.mapRenamedToOriginalRegisterIndex optionallyMapIndex at heq
  cases ho : op.reverseRenamingTable[r]? with
  | none =>
      cases ho' : op.reverseRenamingTable[r']? with
      | none => rwa [getD_of_none ho, getD_of_none ho'] at heq
      | some o' =>
          rw [getD_of_none ho, getD_of_some ho'] at heq
          rw [heq, (h o' r').mpr ho'] at hr
          exact nomatch hr
  | some o =>
      have hfwd := (h o r).mpr ho
      cases ho' : op.reverseRenamingTable[r']? with
      | none =>
          rw [getD_of_some ho, getD_of_none ho'] at heq
          rw [← heq, hfwd] at hr'
          exact nomatch hr'
      | some o' =>
          rw [getD_of_some ho, getD_of_some ho'] at heq
          have hfwd' := (h o' r').mpr ho'
          rw [← heq, hfwd] at hfwd'
          exact Option.some.inj hfwd'

/-- A register that is not renamed is found again under its new name. -/
theorem mapOriginal_mapRenamed {op : Operation} (htables : InverseTables op) {r : Nat}
    (hr : op.renamingTable[r]? = none) :
    op.mapOriginalToRenamedRegisterIndex (op.mapRenamedToOriginalRegisterIndex r) = r := by
  unfold Operation.mapOriginalToRenamedRegisterIndex Operation.mapRenamedToOriginalRegisterIndex
    optionallyMapIndex
  cases ho : op.reverseRenamingTable[r]? with
  | none => rw [getD_of_none ho, getD_of_none hr]
  | some o => rw [getD_of_some ho, getD_of_some ((htables o r).mpr ho)]

namespace RenamedFunction

/-- A register that some operation writes is passed on under its own name. -/
theorem mapRenamed_of_written (hf : RenamedFunction table f)
    {b i c r d j : Nat} {op : Operation} (hedge : f.Edge b i op c)
    (hwritten : WrittenAt f d j (op.mapRenamedToOriginalRegisterIndex r)) :
    op.mapRenamedToOriginalRegisterIndex r = r := by
  unfold Operation.mapRenamedToOriginalRegisterIndex optionallyMapIndex at hwritten ⊢
  cases ho : op.reverseRenamingTable[r]? with
  | none => exact getD_of_none ho r
  | some o =>
      rw [getD_of_some ho] at hwritten
      exact absurd hwritten (hf.originals hedge ((hf.inverse hedge o r).mpr ho))

/-- The name of a register in the successor is that of a register of the same kind. -/
theorem mapRenamed_sameKind (hf : RenamedFunction table f) {b i c r : Nat}
    {op : Operation} (hedge : f.Edge b i op c) (hlocal : isLocalVariable table r) :
    isLocalVariable table (op.mapRenamedToOriginalRegisterIndex r) ∧
      (table.desc (op.mapRenamedToOriginalRegisterIndex r)).width = (table.desc r).width := by
  unfold Operation.mapRenamedToOriginalRegisterIndex optionallyMapIndex
  cases ho : op.reverseRenamingTable[r]? with
  | none =>
      rw [getD_of_none ho]
      exact ⟨hlocal, rfl⟩
  | some o =>
      rw [getD_of_some ho]
      obtain ⟨hlocal', -, hwidth⟩ := hf.sameKind hedge ((hf.inverse hedge o r).mpr ho)
      exact ⟨hlocal', hwidth⟩

/-- Behind its own write a register keeps its value. -/
theorem locals_after_write (hf : RenamedFunction table f) {W : Type} {m : Machine W}
    {σ : State W} {b j i r : Nat} (hlocal : isLocalVariable table r)
    (hwritten : WrittenAt f b j r) (hji : j < i) :
    (execOperations m table σ ((f.operationsOf b).take i)).locals r =
      (execOperations m table σ ((f.operationsOf b).take (j + 1))).locals r := by
  refine execOperations_take_of_not_written hji fun k op hk _ hop hmem => ?_
  have := (hf.writtenOnce hlocal hwritten ⟨op, hop, hmem⟩).2
  omega

end RenamedFunction

end Kanagawa.Optimize
