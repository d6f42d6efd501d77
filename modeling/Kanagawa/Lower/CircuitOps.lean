/-
  Kanagawa.Lower.CircuitOps

  The circuits that are built for operations (`ConvertOpToCirct`, `circt_util.cpp`).

  Every source is first extended or cut to the width that the operation works with.  For a
  shift this is the larger one of the widths of the destination and of the shifted operand, and
  the shift amount is cut to it as well.
-/
import Kanagawa.Lower.LutDependence

namespace Kanagawa.Lower.RegisterWidth

open Kanagawa.IR Kanagawa.Optimize

def isComparison : BinaryOpType → Bool
  | .eq | .ne | .gt | .ge | .lt | .le => true
  | _ => false

/-- The operations that only compute. -/
def onlyComputes : Opcode → Bool
  | .mov | .movCrossFunction | .movLatencyPlaceholder | .clear | .unaryOp _ | .binaryOp _
  | .select | .gather _ | .lut _ | .conditionalIgnore => true
  | _ => false

end Kanagawa.Lower.RegisterWidth
