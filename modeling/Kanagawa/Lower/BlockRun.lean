/-
  Kanagawa.Lower.BlockRun

  What the operations of a pipelined block read and write.

  Wires, pipeline registers and locals belong to a pass of a thread through the block; globals,
  memories, FIFOs and everything outside are its surroundings.
-/
import Kanagawa.IR.Basic

namespace Kanagawa.Lower

open Kanagawa.IR

/-- What surrounds the operations of a function.  `device` is what an operation does that is not
    combinational, with the values it gives its destinations. -/
structure Surroundings (E : Type) where
  readRegister : E → Nat → Nat
  readFifo : E → FifoSubset → Nat
  device : E → Operation → List Literal → E × List Nat

namespace Surroundings

variable {E : Type} (d : Surroundings E) (table : RegisterTable)

/-- A register gives as many bits as it is wide. -/
def sourceValue (env : E) (regs : Nat → Nat) : SourceOperand → Literal
  | .literal l => l
  | .register r =>
      let value := if (table.desc r).type.isLocal then regs r else d.readRegister env r
      ⟨value % 2 ^ (table.desc r).width, (table.desc r).width⟩
  | .fifo f => ⟨d.readFifo env f % 2 ^ f.width, f.width⟩
  | .stringLiteral _ => ⟨0, 0⟩

def sourceValues (env : E) (regs : Nat → Nat) (op : Operation) : List Literal :=
  op.src.map (d.sourceValue table env regs)

end Surroundings

/-- The values that an operation gives its destinations. -/
def writeAll (regs : Nat → Nat) (writes : List (DestinationOperand × Nat)) : Nat → Nat :=
  writes.foldl
    (fun regs p =>
      match p.1 with
      | .register r => Function.update regs r p.2
      | .fifo _ => regs)
    regs

/-- Writing the same values keeps what relates the values of each register. -/
theorem writeAll_related {R : Nat → Nat → Nat → Prop} (hrefl : ∀ r v, R r v v)
    (writes : List (DestinationOperand × Nat)) : ∀ {regs regs' : Nat → Nat},
      (∀ r, R r (regs r) (regs' r)) → ∀ r, R r (writeAll regs writes r) (writeAll regs' writes r) := by
  induction writes with
  | nil => exact fun h => h
  | cons p writes ih =>
      intro regs regs' h
      obtain ⟨dst, v⟩ := p
      cases dst with
      | register r =>
          refine ih fun r' => ?_
          show R r' (Function.update regs r v r') (Function.update regs' r v r')
          by_cases hr : r' = r
          · subst hr
            rw [Function.update_self, Function.update_self]
            exact hrefl r' v
          · rw [Function.update_of_ne hr, Function.update_of_ne hr]
            exact h r'
      | fifo f => exact ih h

end Kanagawa.Lower
