/-
  Kanagawa.Lower.GlobalViewsSound

  When a global view has the value of the operand it replaces.

  The pass takes every operation without side effects whose register sources are globals,
  or locals that are functions of globals, for a function of globals.  Its results are
  right for operations whose results only depend on their operands.  An operation without
  register sources need not be one: a cycle counter is taken for a function of globals
  too, and its value in the view is not the value it had in the block.
-/
import Kanagawa.Lib.Except
import Kanagawa.Lib.NatMap
import Kanagawa.Lib.StraightLine
import Kanagawa.Lower.GlobalViews

namespace Kanagawa.Lower.GlobalViews

open Kanagawa.IR
open Kanagawa.Lib
open Kanagawa.Lib.Except

/-! ## Sequential execution -/

/-- What operations compute, from their sources and from what else there is: the cycle
    count, FIFOs, the state of other modules. -/
structure Device (A : Type) where
  compute : AtomicOperation → A → List Nat → List Nat
  fifo : A → FifoSubset → Nat

/-- The value of a source operand. -/
def Device.value {A : Type} (d : Device A) (ambient : A) (regs : Nat → Nat) : SourceOperand → Nat
  | .literal l => l.value
  | .register r => regs r
  | .fifo f => d.fifo ambient f
  | .stringLiteral _ => 0

/-- Gives destination registers their values, in order. -/
def storeResults : List DestinationOperand → List Nat → (Nat → Nat) → Nat → Nat
  | [], _, regs => regs
  | .register r :: rest, results, regs =>
      storeResults rest results.tail (Function.update regs r (results.headD 0))
  | .fifo _ :: rest, results, regs => storeResults rest results.tail regs

/-- One operation. -/
def Device.exec {A : Type} (d : Device A) (ambient : A) (operation : AtomicOperation)
    (regs : Nat → Nat) : Nat → Nat :=
  storeResults operation.op.dst
    (d.compute operation ambient (operation.op.src.map (d.value ambient regs))) regs

/-- The registers after `n` operations from the place `b` on. -/
def Device.stateAt {A : Type} (d : Device A) (ambients : Nat → A)
    (operations : List AtomicOperation) (b : Nat) (regs : Nat → Nat) : Nat → Nat → Nat
  | 0 => regs
  | n + 1 =>
      match operations[b + n]? with
      | some operation =>
          d.exec (ambients (b + n)) operation (d.stateAt ambients operations b regs n)
      | none => d.stateAt ambients operations b regs n

/-- The value of a global view: its function runs on the values of the globals. -/
def Device.viewValue {A : Type} (d : Device A) (ambient : A) (function : List AtomicOperation)
    (regs : Nat → Nat) : Nat → Nat :=
  StraightLine.replay (d.exec ambient) function regs

abbrev readsOf (operation : AtomicOperation) : List Nat := operation.op.reads

abbrev writesOf (operation : AtomicOperation) : List Nat := operation.op.writes

/-- The result only depends on the operands, and these are no FIFOs. -/
def Device.Functional {A : Type} (d : Device A) (operation : AtomicOperation) : Prop :=
  (∀ ambient ambient' values, d.compute operation ambient values =
      d.compute operation ambient' values) ∧
    ∀ f, SourceOperand.fifo f ∉ operation.op.src

section

variable {A : Type} {d : Device A} {operation : AtomicOperation} {r : Nat}

theorem storeResults_of_not_written {dsts : List DestinationOperand} {results : List Nat}
    {regs : Nat → Nat} (hr : r ∉ dsts.filterMap DestinationOperand.register?) :
    storeResults dsts results regs r = regs r := by
  induction dsts generalizing results regs with
  | nil => rfl
  | cons dst rest ih =>
      cases dst with
      | register r' =>
          rw [List.filterMap_cons_some (show DestinationOperand.register? (.register r') = some r'
            from rfl), List.mem_cons, not_or] at hr
          rw [storeResults, ih hr.2, Function.update_of_ne hr.1]
      | fifo f => exact ih hr

/-- What is stored in a destination does not depend on what the registers held. -/
theorem storeResults_written {dsts : List DestinationOperand} {results : List Nat}
    {regs regs' : Nat → Nat} (hr : r ∈ dsts.filterMap DestinationOperand.register?) :
    storeResults dsts results regs r = storeResults dsts results regs' r := by
  induction dsts generalizing results regs regs' with
  | nil => exact absurd hr List.not_mem_nil
  | cons dst rest ih =>
      cases dst with
      | register r' =>
          rw [storeResults, storeResults]
          by_cases hlater : r ∈ rest.filterMap DestinationOperand.register?
          · exact ih hlater
          · rw [storeResults_of_not_written hlater, storeResults_of_not_written hlater]
            rw [List.filterMap_cons_some (show DestinationOperand.register? (.register r') = some r'
              from rfl), List.mem_cons] at hr
            rcases hr with rfl | hr
            · rw [Function.update_self, Function.update_self]
            · exact absurd hr hlater
      | fifo f => exact ih hr

theorem exec_of_not_written {ambient : A} {regs : Nat → Nat} (hr : r ∉ writesOf operation) :
    d.exec ambient operation regs r = regs r :=
  storeResults_of_not_written hr

/-- An operation whose result only depends on its operands. -/
theorem exec_functional (hd : d.Functional operation) {ambient ambient' : A}
    {regs regs' : Nat → Nat} (hreads : ∀ s ∈ readsOf operation, regs s = regs' s)
    (hr : r ∈ writesOf operation) :
    d.exec ambient operation regs r = d.exec ambient' operation regs' r := by
  have hvalues : operation.op.src.map (d.value ambient regs) =
      operation.op.src.map (d.value ambient' regs') := by
    apply List.map_congr_left
    intro srcOp hsrc
    cases srcOp with
    | literal l => rfl
    | register s => exact hreads s (List.mem_filterMap.mpr ⟨_, hsrc, rfl⟩)
    | fifo f => exact absurd hsrc (hd.2 f)
    | stringLiteral s => rfl
  rw [Device.exec, Device.exec, hvalues, hd.1 ambient ambient']
  exact storeResults_written hr

/-- A register that is not written between two places keeps its value. -/
theorem stateAt_of_not_written {ambients : Nat → A} {operations : List AtomicOperation}
    {b x y : Nat} {regs : Nat → Nat} (hxy : x ≤ y)
    (hr : ∀ q o, b + x ≤ q → q < b + y → operations[q]? = some o → r ∉ writesOf o) :
    d.stateAt ambients operations b regs y r = d.stateAt ambients operations b regs x r := by
  induction y, hxy using Nat.le_induction with
  | base => rfl
  | succ y hle ih =>
      rw [Device.stateAt]
      have hprev := ih fun q o hq hlt => hr q o hq (by omega)
      cases hget : operations[b + y]? with
      | none => exact hprev
      | some o =>
          have hnot := hr (b + y) o (by omega) (by omega) hget
          exact (exec_of_not_written hnot).trans hprev

end

/-! ## What a register is computed from -/

/-- The register is computed with the operation at a place: it writes the register, or a
    local that is read, at a later place, to compute it. -/
inductive Needs (table : RegisterTable) (operations : List AtomicOperation) : Nat → Nat → Prop
  | writer {r p o} : operations[p]? = some o → r ∈ writesOf o → Needs table operations r p
  | source {r p o s q} : operations[p]? = some o → r ∈ writesOf o → s ∈ readsOf o →
      isLocalVariable table s = true → q < p → Needs table operations s q →
      Needs table operations r q

/-- The sources of the operation at a place are globals, or locals written before. -/
def Sourced (table : RegisterTable) (operations : List AtomicOperation) (p : Nat)
    (o : AtomicOperation) : Prop :=
  ∀ s ∈ readsOf o, isGlobalVariable table s = true ∨ (isLocalVariable table s = true ∧
    ∃ q o', q < p ∧ operations[q]? = some o' ∧ s ∈ writesOf o')

/-- The pass changes sources only, and only of operations with registered inputs; new
    sources are new registers. -/
structure Rewritten (table : RegisterTable) (o o' : AtomicOperation) : Prop where
  eq_of_not_registered : operationHasRegisteredInput o = false → o' = o
  dst_eq : o'.op.dst = o.op.dst
  reads : ∀ s ∈ readsOf o', s ∈ readsOf o ∨ table.length ≤ s

theorem Rewritten.refl (table : RegisterTable) (o : AtomicOperation) : Rewritten table o o :=
  ⟨fun _ => rfl, rfl, fun _ hs => .inl hs⟩

theorem Rewritten.writes_eq {table : RegisterTable} {o o' : AtomicOperation}
    (h : Rewritten table o o') : writesOf o' = writesOf o := by
  rw [writesOf, writesOf, Operation.writes, Operation.writes, h.dst_eq]

/-- A `BeginAtomic` stands at a place. -/
def BeginsAt (operations : List AtomicOperation) (b : Nat) : Prop :=
  ∃ o desc, operations[b]? = some o ∧ o.op.opcode = .beginAtomic desc

/-- What a view function has to be, for a register read at the place `i`. -/
structure Flattened (table : RegisterTable) (operations : List AtomicOperation) (r i : Nat)
    (function : List AtomicOperation) : Prop where
  /-- Every operation is listed after the ones that define its sources; the sources left
      are globals, or global views. -/
  ordered : StraightLine.Ordered readsOf writesOf
    (fun s => isGlobalVariable table s = true ∨ table.length ≤ s) function
  mem : ∀ x ∈ function, ∃ p o, p < i ∧ operations[p]? = some o ∧ Rewritten table o x ∧
    Needs table operations r p ∧ Sourced table operations p o ∧
    ∀ b, b < i → BeginsAt operations b → b < p
  writes : ∃ x ∈ function, r ∈ writesOf x

/-! ## The value of a view -/

/-- What a pass before this one made of a block: registers exist, and a local is written
    once (`Rename`). -/
structure BlockWellFormed (table : RegisterTable) (operations : List AtomicOperation) : Prop where
  reads_lt : ∀ o ∈ operations, ∀ s ∈ readsOf o, s < table.length
  writes_lt : ∀ o ∈ operations, ∀ s ∈ writesOf o, s < table.length
  renamed : ∀ (p q : Nat) o o', p < q → operations[p]? = some o → operations[q]? = some o' →
    ∀ r, isLocalVariable table r = true → r ∈ writesOf o → r ∉ writesOf o'

/-- The operations that compute a register have no registered inputs, and results that
    only depend on their operands; they only write locals, and read no global that was
    written after the place `b`. -/
def ComputedFromGlobals {A : Type} (d : Device A) (table : RegisterTable)
    (operations : List AtomicOperation) (b r : Nat) : Prop :=
  ∀ p o, Needs table operations r p → operations[p]? = some o →
    d.Functional o ∧ operationHasRegisteredInput o = false ∧
      (∀ w ∈ writesOf o, isLocalVariable table w = true) ∧
      ∀ g ∈ readsOf o, isGlobalVariable table g = true →
        ∀ q o', b ≤ q → q < p → operations[q]? = some o' → g ∉ writesOf o'

theorem not_global_of_local {table : RegisterTable} {r : Nat}
    (h : isLocalVariable table r = true) : isGlobalVariable table r = false := by
  rw [isLocalVariable, beq_iff_eq] at h
  rw [isGlobalVariable, h]
  rfl

/-- What the registers mean where a view is read: globals have the value of the beginning of
    the block, others that of the place. -/
def meaning (table : RegisterTable) (regs here : Nat → Nat) (s : Nat) : Nat :=
  if isGlobalVariable table s then regs s else here s

theorem meaning_of_global {table : RegisterTable} {regs here : Nat → Nat} {s : Nat}
    (hs : isGlobalVariable table s = true) : meaning table regs here s = regs s :=
  if_pos hs

theorem meaning_of_local {table : RegisterTable} {regs here : Nat → Nat} {s : Nat}
    (hs : isLocalVariable table s = true) : meaning table regs here s = here s :=
  if_neg (by rw [not_global_of_local hs]; exact Bool.false_ne_true)

/-- **The function of a view computes the operand**, from the values the globals have at
    the `BeginAtomic`. -/
theorem viewValue_eq {A : Type} {d : Device A} {table : RegisterTable}
    {operations : List AtomicOperation} (hblock : BlockWellFormed table operations)
    {r i b : Nat} {function : List AtomicOperation}
    (hfunction : Flattened table operations r i function) (hb : BeginsAt operations b)
    (hbi : b < i) (hlocal : isLocalVariable table r = true)
    (hcomputed : ComputedFromGlobals d table operations b r) (ambients : Nat → A) (ambient : A)
    {regs env : Nat → Nat} (henv : ∀ g, isGlobalVariable table g = true → env g = regs g) :
    d.viewValue ambient function env r = d.stateAt ambients operations b regs (i - b) r := by
  -- A local keeps its value once it is written
  have hkeep : ∀ {q s x : Nat} {o}, q < x → b ≤ x → x ≤ i → operations[q]? = some o →
      s ∈ writesOf o → isLocalVariable table s = true →
        d.stateAt ambients operations b regs (i - b) s =
          d.stateAt ambients operations b regs (x - b) s := by
    intro q s x o hqx hbx hxi hget hwrites hs
    apply stateAt_of_not_written (by omega)
    intro q' o' hq' _ hget'
    exact hblock.renamed q q' o o' (by omega) hget hget' s hs hwrites
  have hresult := @StraightLine.replay_eq _ _ _ readsOf writesOf (d.exec ambient)
    (meaning table regs (d.stateAt ambients operations b regs (i - b))) _ function
    (fun x _ σ s hs => exec_of_not_written hs) ?_ hfunction.ordered env ?_ r
    (.inl hfunction.writes)
  · rw [meaning_of_local hlocal] at hresult
    exact hresult
  · intro x hx σ hσ w hw
    obtain ⟨p, o, hpi, hget, hrewritten, hneeds, hsourced, hbegins⟩ := hfunction.mem x hx
    obtain ⟨hfunctional, hinput, hwrites, hglobals⟩ := hcomputed p o hneeds hget
    obtain rfl := hrewritten.eq_of_not_registered hinput
    have hbp := hbegins b hbi hb
    have hstate : d.stateAt ambients operations b regs (p + 1 - b) =
        d.exec (ambients p) x (d.stateAt ambients operations b regs (p - b)) := by
      rw [show p + 1 - b = p - b + 1 by omega, Device.stateAt, show b + (p - b) = p by omega, hget]
    rw [meaning_of_local (hwrites w hw),
      hkeep (Nat.lt_succ_self p) (by omega) hpi hget hw (hwrites w hw), hstate]
    apply exec_functional hfunctional _ hw
    intro s hs
    rw [hσ s hs]
    rcases hsourced s hs with hglobal | ⟨hslocal, q, o', hqp, hget', hwritten⟩
    · rw [meaning_of_global hglobal]
      symm
      apply stateAt_of_not_written (Nat.zero_le _)
      intro q o' hq hlt hget'
      exact hglobals s hs hglobal q o' (by omega) (by omega) hget'
    · rw [meaning_of_local hslocal]
      exact hkeep hqp (by omega) (by omega) hget' hwritten hslocal
  · rintro x hx s hs (hglobal | hnew)
    · rw [meaning_of_global hglobal]
      exact henv s hglobal
    · -- The operations of the function read no new registers
      obtain ⟨p, o, -, hget, hrewritten, hneeds, -⟩ := hfunction.mem x hx
      obtain ⟨-, hinput, -⟩ := hcomputed p o hneeds hget
      obtain rfl := hrewritten.eq_of_not_registered hinput
      exact absurd (hblock.reads_lt x (List.mem_of_getElem? hget) s hs) (Nat.not_lt.mpr hnew)

end Kanagawa.Lower.GlobalViews
