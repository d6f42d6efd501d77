/-
  Kanagawa.Optimize.LutEquivalence

  Comparing lookup tables in canonical form (`optimize.cpp`,
  `LutOperationsProduceSameResult`).

  The variables of a table are the bits of registers its columns look at.  In
  canonical form different columns look at different bits and all of them matter,
  so tables that always give the same bit look at the same bits of registers, and
  the comparison, which finds the equivalent of each column, is complete.
-/
import Kanagawa.Optimize.CommonSubexpressionSound
import Kanagawa.Optimize.FixupLutOpsSound

namespace Kanagawa.Optimize

open IR Lib Lib.Bits Lib.Except

/-! ## Columns -/

/-- A lookup table in the form in which `FixupLutOps` leaves it, with one entry for each bit of
    its destination, and columns for bits of its registers. -/
structure ComparableLut (table : RegisterTable) (dstWidth : Nat) (op : Operation)
    (entries : List LutEntry) : Prop where
  lut : LutOperation op entries
  canonical : Canonical op.src entries
  dst : op.dst.map (·.width table) = [dstWidth]
  numDestinationBits : entries.length = dstWidth
  bits : ∀ entry ∈ entries, ∀ source ∈ entry.sources, ∀ r,
    op.src[source.1]? = some (.register r) → source.2 < (table.desc r).width

/-- The register and the bit a column looks at. -/
def regAndBit (op : Operation) (source : Nat × Nat) : Nat × Nat :=
  ((op.src[source.1]?.bind SourceOperand.register?).getD 0, source.2)

/-- The registers and bits the columns of an entry look at. -/
def columnBits (op : Operation) (entry : LutEntry) : List (Nat × Nat) :=
  entry.sources.map (regAndBit op)

/-- The bit of a register. -/
def registerBit (table : RegisterTable) (regs : Nat → Nat) (x : Nat × Nat) : Bool :=
  (regs x.1 % 2 ^ (table.desc x.1).width).testBit x.2

section

variable {table : RegisterTable} {dstWidth : Nat} {op : Operation} {entries : List LutEntry}

theorem ComparableLut.getRegAndBit_eq (h : ComparableLut table dstWidth op entries)
    {entry : LutEntry} (hentry : entry ∈ entries) {source : Nat × Nat}
    (hsource : source ∈ entry.sources) :
    ∃ r, op.src[source.1]? = some (.register r) ∧ regAndBit op source = (r, source.2) ∧
      getRegAndBit op source = .ok (regAndBit op source) := by
  have hlt := h.lut.inRange entry hentry source hsource
  obtain ⟨r, hr⟩ := h.canonical.registers _ (List.getElem_mem hlt)
  have hat := List.getElem?_eq_getElem hlt
  rw [hr] at hat
  have heq : regAndBit op source = (r, source.2) := by
    rw [regAndBit, hat]
    rfl
  refine ⟨r, hat, heq, ?_⟩
  rw [heq, getRegAndBit, hat]

theorem ComparableLut.src_eq (h : ComparableLut table dstWidth op entries) :
    op.src = op.reads.map .register := by
  rw [Operation.reads]
  have hall := h.canonical.registers
  generalize op.src = src at hall
  induction src with
  | nil => rfl
  | cons s src ih =>
      obtain ⟨r, rfl⟩ := hall s List.mem_cons_self
      have hcons : (SourceOperand.register r :: src).filterMap SourceOperand.register? =
          r :: src.filterMap SourceOperand.register? := rfl
      rw [hcons, List.map_cons, ← ih fun s hs => hall s (List.mem_cons_of_mem _ hs)]

theorem ComparableLut.canonicalLut (h : ComparableLut table dstWidth op entries) :
    CanonicalLut op entries := by
  refine ⟨h.src_eq, List.Nodup.of_map SourceOperand.register ?_, h.canonical.referenced, h.canonical.columns⟩
  rw [← h.src_eq]
  exact h.canonical.distinct

/-- Different columns look at different bits, and all of them matter. -/
theorem ComparableLut.reduced (h : ComparableLut table dstWidth op entries) {entry : LutEntry}
    (hentry : entry ∈ entries) : TruthTable.Reduced (columnBits op entry) entry.table := by
  refine ⟨?_, fun c hc => ?_⟩
  · refine (h.canonical.columns entry hentry).map_on fun source hsource source' hsource' heq => ?_
    obtain ⟨-, -, -, hget⟩ := h.getRegAndBit_eq hentry hsource
    obtain ⟨-, -, -, hget'⟩ := h.getRegAndBit_eq hentry hsource'
    exact h.canonicalLut.getRegAndBit_injective hget (heq ▸ hget')
  · rw [columnBits, List.length_map] at hc ⊢
    exact h.canonical.affects entry hentry c hc

theorem ComparableLut.bit_lt (h : ComparableLut table dstWidth op entries) {entry : LutEntry}
    (hentry : entry ∈ entries) {x : Nat × Nat} (hx : x ∈ columnBits op entry) :
    x.2 < (table.desc x.1).width := by
  obtain ⟨source, hsource, rfl⟩ := List.mem_map.mp hx
  obtain ⟨r, hr, heq, -⟩ := h.getRegAndBit_eq hentry hsource
  rw [heq]
  exact h.bits entry hentry source hsource r hr

/-- The literal a register holds. -/
def registerValue (table : RegisterTable) (regs : Nat → Nat) (r : Nat) : Literal :=
  ⟨regs r % 2 ^ (table.desc r).width, (table.desc r).width⟩

theorem ComparableLut.operands_eq (h : ComparableLut table dstWidth op entries)
    (regs : Nat → Nat) :
    op.src.map (operandLiteral table regs) = op.reads.map (registerValue table regs) := by
  conv_lhs => rw [h.src_eq]
  rw [List.map_map]
  rfl

/-- An entry computes a function of the bits its columns look at. -/
theorem ComparableLut.evaluate_eq (h : ComparableLut table dstWidth op entries)
    {entry : LutEntry} (hentry : entry ∈ entries) (regs : Nat → Nat) :
    entry.evaluate (op.reads.map (registerValue table regs)) =
      TruthTable.eval (registerBit table regs) (columnBits op entry) entry.table := by
  rw [evaluate_eq_eval, TruthTable.eval, TruthTable.eval, columnBits, TruthTable.row_map]
  refine congrArg entry.table.testBit (TruthTable.row_congr fun source hsource => ?_)
  obtain ⟨-, -, -, hget⟩ := h.getRegAndBit_eq hentry hsource
  exact h.canonicalLut.selectedBit_eq (registerValue table regs) hget

end

/-! ## Registers with given bits -/

/-- A register with given bits. -/
def registerOf (table : RegisterTable) (bit : Nat × Nat → Bool) (r : Nat) : Nat :=
  TruthTable.row bit ((List.range (table.desc r).width).map fun b => (r, b))

theorem registerBit_registerOf (table : RegisterTable) (bit : Nat × Nat → Bool) {x : Nat × Nat}
    (hx : x.2 < (table.desc x.1).width) :
    registerBit table (registerOf table bit) x = bit x := by
  rw [registerBit, registerOf, Nat.testBit_mod_two_pow, decide_eq_true hx, Bool.true_and,
    TruthTable.testBit_row, List.getElem?_map, List.getElem?_range hx]
  rfl

/-! ## The comparison -/

section

variable {op1 op2 : Operation}

/-- The search finds the only column for a bit, without a second one, if there is one. -/
theorem findColumn_foldlM {x : Nat × Nat} :
    ∀ {sources : List (Nat × Nat)} (k : Nat),
      (∀ source ∈ sources, getRegAndBit op2 source = .ok (regAndBit op2 source)) →
      (sources.map (regAndBit op2)).Nodup → ∀ found : Option Nat,
      (found ≠ none → x ∉ sources.map (regAndBit op2)) →
      (sources.zipIdx k).foldlM
        (fun found p => do
          let regAndBit2 ← getRegAndBit op2 p.1
          if x = regAndBit2 then
            assert found.isNone
            return some p.2
          else return found) found =
        .ok (if x ∈ sources.map (regAndBit op2) then
          some (k + (sources.map (regAndBit op2)).idxOf x) else found) := by
  intro sources
  induction sources with
  | nil => exact fun k _ _ found _ => rfl
  | cons source sources ih =>
      intro k hget hnodup found hfound
      rw [List.map_cons] at hnodup hfound ⊢
      obtain ⟨hnot, hnodup⟩ := List.nodup_cons.mp hnodup
      have hrest := fun found' => ih (k + 1)
        (fun s hs => hget s (List.mem_cons_of_mem _ hs)) hnodup found'
      rw [List.zipIdx_cons, List.foldlM_cons, hget source List.mem_cons_self, ok_bind]
      by_cases heq : x = regAndBit op2 source
      · -- This is the column; the assertion holds, and no other one follows
        have hnone : found = none :=
          by_contra fun hsome => hfound hsome (heq ▸ List.mem_cons_self)
        have hrest' := hrest (some k) fun _ => heq ▸ hnot
        rw [if_neg (heq ▸ hnot)] at hrest'
        have hassert : assert (none : Option Nat).isNone = .ok () := rfl
        rw [if_pos heq, hnone, hassert, ok_bind, pure_eq_ok, ok_bind, hrest',
          if_pos (heq ▸ List.mem_cons_self), heq, List.idxOf_cons_self, Nat.add_zero]
      · have hrest' := hrest found fun hsome hmem => hfound hsome (List.mem_cons_of_mem _ hmem)
        rw [if_neg heq, pure_eq_ok, ok_bind, hrest', List.idxOf_cons_ne _ (Ne.symm heq)]
        by_cases hmem : x ∈ sources.map (regAndBit op2)
        · rw [if_pos hmem, if_pos (List.mem_cons_of_mem _ hmem)]
          congr 2
          omega
        · have hmem' : x ∉ regAndBit op2 source :: sources.map (regAndBit op2) := fun hx =>
            (List.mem_cons.mp hx).elim heq hmem
          rw [if_neg hmem, if_neg hmem']

theorem findColumn_eq {x : Nat × Nat} {sources : List (Nat × Nat)}
    (hget : ∀ source ∈ sources, getRegAndBit op2 source = .ok (regAndBit op2 source))
    (hnodup : (sources.map (regAndBit op2)).Nodup) :
    findColumn op2 x sources = .ok (if x ∈ sources.map (regAndBit op2) then
      some ((sources.map (regAndBit op2)).idxOf x) else none) := by
  have h := findColumn_foldlM (x := x) 0 hget hnodup none (fun hne => absurd rfl hne)
  rw [Nat.zero_add] at h
  exact h

/-- The equivalents of all columns, if there are any. -/
theorem operandMap_ok {sources2 : List (Nat × Nat)}
    (hget2 : ∀ source ∈ sources2, getRegAndBit op2 source = .ok (regAndBit op2 source))
    (hnodup2 : (sources2.map (regAndBit op2)).Nodup) :
    ∀ {sources1 : List (Nat × Nat)},
      (∀ source ∈ sources1, getRegAndBit op1 source = .ok (regAndBit op1 source)) →
      ∃ found, operandMap op1 op2 sources2 sources1 = .ok found ∧
        (sources1.map (regAndBit op1) ⊆ sources2.map (regAndBit op2) → found ≠ none) := by
  intro sources1
  induction sources1 with
  | nil => exact fun _ => ⟨_, rfl, fun _ => nofun⟩
  | cons source sources1 ih =>
      intro hget1
      obtain ⟨found, hok, hfound⟩ := ih fun s hs => hget1 s (List.mem_cons_of_mem _ hs)
      simp only [operandMap, hget1 source List.mem_cons_self, ok_bind, findColumn_eq hget2 hnodup2]
      by_cases hmem : regAndBit op1 source ∈ sources2.map (regAndBit op2)
      · rw [if_pos hmem]
        simp only [hok, ok_bind]
        refine ⟨_, rfl, fun hsub hnone => ?_⟩
        have hrest : sources1.map (regAndBit op1) ⊆ sources2.map (regAndBit op2) :=
          fun x hx => hsub (List.mem_cons_of_mem _ hx)
        exact hfound hrest (Option.map_eq_none_iff.mp hnone)
      · rw [if_neg hmem]
        exact ⟨none, rfl, fun hsub => absurd (hsub List.mem_cons_self) hmem⟩

end

section

variable {table : RegisterTable} {dstWidth : Nat} {op1 op2 : Operation}
  {entries1 entries2 : List LutEntry} {le1 le2 : LutEntry}

/-- Entries that compute the same for all registers look at the same bits. -/
theorem columnBits_perm (h1 : ComparableLut table dstWidth op1 entries1)
    (h2 : ComparableLut table dstWidth op2 entries2) (hmem1 : le1 ∈ entries1)
    (hmem2 : le2 ∈ entries2)
    (heval : ∀ regs, le1.evaluate (op1.reads.map (registerValue table regs)) =
      le2.evaluate (op2.reads.map (registerValue table regs))) :
    (columnBits op1 le1).Perm (columnBits op2 le2) := by
  refine (h1.reduced hmem1).perm_of_eval_eq (h2.reduced hmem2) fun bit => ?_
  have hregs := heval (registerOf table bit)
  rw [h1.evaluate_eq hmem1, h2.evaluate_eq hmem2] at hregs
  have hcongr : ∀ {op : Operation} {entries : List LutEntry} {le : LutEntry},
      ComparableLut table dstWidth op entries → le ∈ entries →
        TruthTable.eval (registerBit table (registerOf table bit)) (columnBits op le) le.table =
          TruthTable.eval bit (columnBits op le) le.table := fun h hmem =>
    TruthTable.eval_congr fun x hx => registerBit_registerOf table bit (h.bit_lt hmem hx)
  rwa [hcongr h1 hmem1, hcongr h2 hmem2] at hregs

/-- The comparison of two entries has a result. -/
theorem lutEntriesProduceSameResult_ok (h1 : ComparableLut table dstWidth op1 entries1)
    (h2 : ComparableLut table dstWidth op2 entries2) (hmem1 : le1 ∈ entries1)
    (hmem2 : le2 ∈ entries2) :
    ∃ same, lutEntriesProduceSameResult op1 op2 (le1, le2) = .ok same := by
  obtain ⟨found, hok, -⟩ := operandMap_ok
    (fun source hs => (h2.getRegAndBit_eq hmem2 hs).choose_spec.2.2) (h2.reduced hmem2).nodup
    fun source hs => (h1.getRegAndBit_eq hmem1 hs).choose_spec.2.2
  unfold lutEntriesProduceSameResult
  dsimp only
  split
  · exact ⟨false, rfl⟩
  · rw [assert_of_true (decide_eq_true (h1.lut.length_le le1 hmem1)), ok_bind, hok, ok_bind]
    cases found with
    | none => exact ⟨false, rfl⟩
    | some columns => exact ⟨_, rfl⟩

/-- Entries that compute the same for all registers are found equal. -/
theorem lutEntriesProduceSameResult_complete (h1 : ComparableLut table dstWidth op1 entries1)
    (h2 : ComparableLut table dstWidth op2 entries2) (hmem1 : le1 ∈ entries1)
    (hmem2 : le2 ∈ entries2)
    (heval : ∀ regs, le1.evaluate (op1.reads.map (registerValue table regs)) =
      le2.evaluate (op2.reads.map (registerValue table regs))) :
    lutEntriesProduceSameResult op1 op2 (le1, le2) = .ok true := by
  have hperm := columnBits_perm h1 h2 hmem1 hmem2 heval
  have hlength : le1.sources.length = le2.sources.length := by
    have := hperm.length_eq
    rwa [columnBits, columnBits, List.length_map, List.length_map] at this
  obtain ⟨found, hok, hfound⟩ := operandMap_ok
    (fun source hs => (h2.getRegAndBit_eq hmem2 hs).choose_spec.2.2) (h2.reduced hmem2).nodup
    fun source hs => (h1.getRegAndBit_eq hmem1 hs).choose_spec.2.2
  obtain ⟨columns, rfl⟩ := Option.ne_none_iff_exists'.mp (hfound hperm.subset)
  unfold lutEntriesProduceSameResult
  simp only [ne_eq, not_true_eq_false, if_false, ok_bind, pure_eq_ok, hok, hlength,
    assert_of_true (decide_eq_true (hlength ▸ h1.lut.length_le le1 hmem1))]
  congr 1
  rw [List.all_eq_true]
  intro row1 hrow1
  rw [List.mem_range, ← hlength] at hrow1
  -- Some registers select the row
  have hlt : row1 < 2 ^ (columnBits op1 le1).length := by
    rwa [columnBits, List.length_map]
  obtain ⟨bit, hrow⟩ : ∃ bit, TruthTable.row bit (columnBits op1 le1) = row1 :=
    ⟨_, TruthTable.exists_row (h1.reduced hmem1).nodup hlt⟩
  let regs := registerOf table bit
  have hselected : selectedRow (op1.reads.map (registerValue table regs)) le1.sources = row1 := by
    refine Eq.trans ?_ hrow
    rw [columnBits, TruthTable.row_map]
    refine TruthTable.row_congr fun source hsource => ?_
    obtain ⟨-, -, -, hget⟩ := h1.getRegAndBit_eq hmem1 hsource
    rw [h1.canonicalLut.selectedBit_eq (registerValue table regs) hget]
    exact registerBit_registerOf table bit (h1.bit_lt hmem1 (List.mem_map_of_mem hsource))
  have hmove := truthTableRow2_selectedRow h1.canonicalLut h2.canonicalLut
    (h1.canonical.columns le1 hmem1) hlength hok (registerValue table regs)
  have hsame := heval regs
  rw [evaluate_eq, evaluate_eq, ← hmove, hselected] at hsame
  exact beq_iff_eq.mpr hsame

theorem allM_ok {p : LutEntry × LutEntry → Except Failure Bool}
    {l : List (LutEntry × LutEntry)} (h : ∀ a ∈ l, ∃ b, p a = .ok b) :
    ∃ b, l.allM p = .ok b ∧ ((∀ a ∈ l, p a = .ok true) → b = true) := by
  induction l with
  | nil => exact ⟨true, rfl, fun _ => rfl⟩
  | cons a l ih =>
      obtain ⟨b, hb⟩ := h a List.mem_cons_self
      obtain ⟨b', hb', htrue⟩ := ih fun a' ha' => h a' (List.mem_cons_of_mem _ ha')
      rw [List.allM, hb, ok_bind]
      cases b with
      | false => exact ⟨false, rfl, fun hall => absurd (hb.symm.trans (hall a List.mem_cons_self))
          (by simp)⟩
      | true => exact ⟨b', hb', fun hall => htrue fun a' ha' => hall a' (List.mem_cons_of_mem _ ha')⟩

/-- The values of the operations, bit by bit. -/
theorem operationValue_eq_iff (h1 : ComparableLut table dstWidth op1 entries1)
    (h2 : ComparableLut table dstWidth op2 entries2) (regs : Nat → Nat) :
    operationValue table regs dstWidth op1 = operationValue table regs dstWidth op2 ↔
      ∀ entries ∈ entries1.zip entries2,
        entries.1.evaluate (op1.reads.map (registerValue table regs)) =
          entries.2.evaluate (op2.reads.map (registerValue table regs)) := by
  have hlength : entries1.length = entries2.length :=
    h1.numDestinationBits.trans h2.numDestinationBits.symm
  have hbit : ∀ (entries : List LutEntry) (values : List Literal) (j : Nat),
      (truncate (lutBits entries values : Nat) dstWidth).testBit j =
        (decide (j < dstWidth) && entries[j]?.any (·.evaluate values)) := by
    intro entries values j
    rw [testBit_truncate]
    congr 1
    exact testBit_foldl_zipIdx entries (·.evaluate values) j
  rw [h1.lut.value_eq, h2.lut.value_eq, h1.operands_eq, h2.operands_eq, Option.some_inj]
  constructor
  · rintro heq ⟨le1, le2⟩ hmem
    obtain ⟨j, hj⟩ := List.getElem?_of_mem hmem
    obtain ⟨hj1, hj2⟩ := List.getElem?_zip_eq_some.mp hj
    have hj' := congrArg (Nat.testBit · j) heq
    have hlt := (List.getElem?_eq_some_iff.mp hj1).1
    simpa only [hbit, hj1, hj2, Option.any_some, decide_eq_true (h1.numDestinationBits ▸ hlt),
      Bool.true_and] using hj'
  · intro hall
    refine Nat.eq_of_testBit_eq fun j => ?_
    rw [hbit, hbit]
    congr 1
    by_cases hj : j < entries1.length
    · have hj2 : j < entries2.length := hlength ▸ hj
      rw [List.getElem?_eq_getElem hj, List.getElem?_eq_getElem hj2]
      exact hall _ (getElem_mem_zip hj hj2)
    · rw [List.getElem?_eq_none (by omega), List.getElem?_eq_none (by omega)]
      rfl

/-- Operations with the same value look at the same registers. -/
theorem reads_subset (h1 : ComparableLut table dstWidth op1 entries1)
    (h2 : ComparableLut table dstWidth op2 entries2)
    (hvalue : ∀ regs, operationValue table regs dstWidth op1 =
      operationValue table regs dstWidth op2) : op1.reads ⊆ op2.reads := by
  intro r hr
  obtain ⟨i, hi⟩ := List.getElem?_of_mem hr
  have hsrc := h1.canonicalLut.getElem?.mpr hi
  obtain ⟨le1, hle1, source, hsource, rfl⟩ :=
    h1.canonical.referenced i (List.getElem?_eq_some_iff.mp hsrc).1
  obtain ⟨n, hn, rfl⟩ := List.getElem_of_mem hle1
  have hn2 : n < entries2.length := by
    rw [h2.numDestinationBits, ← h1.numDestinationBits]
    exact hn
  have hperm := columnBits_perm h1 h2 hle1 (List.getElem_mem hn2) fun regs =>
    (operationValue_eq_iff h1 h2 regs).mp (hvalue regs) _ (getElem_mem_zip hn hn2)
  -- The equivalent of the column is a bit of the same register
  obtain ⟨r', hr', heq, -⟩ := h1.getRegAndBit_eq hle1 hsource
  obtain rfl := SourceOperand.register.inj (Option.some.inj (hsrc.symm.trans hr'))
  have hmem := hperm.subset (List.mem_map_of_mem hsource)
  obtain ⟨source2, hsource2, heq2⟩ := List.mem_map.mp hmem
  obtain ⟨r2, hr2, hbit2, -⟩ := h2.getRegAndBit_eq (List.getElem_mem hn2) hsource2
  rw [heq, hbit2] at heq2
  obtain rfl : r2 = r := (Prod.mk.inj heq2).1
  exact List.mem_of_getElem? (h2.canonicalLut.getElem?.mp hr2)

theorem hashOperands_registers (hash : HashCombine) (reads : List Nat) : ∀ init : Nat,
    hashOperands hash (reads.map .register) init = .ok (reads.foldl hash.size init) := by
  induction reads with
  | nil => exact fun init => rfl
  | cons r reads ih => exact fun init => ih (hash.size init r)

/-- On lookup tables in canonical form the comparison always has a result, which is true
    exactly when the operations have the same value for all registers, and then they have the
    same hash. -/
theorem lutOperationsProduceSameResult_iff (hash : HashCombine)
    (h1 : ComparableLut table dstWidth op1 entries1)
    (h2 : ComparableLut table dstWidth op2 entries2) :
    ∃ same, lutOperationsProduceSameResult op1 op2 entries1 entries2 = .ok same ∧
      (same = true ↔ ∀ regs, operationValue table regs dstWidth op1 =
        operationValue table regs dstWidth op2) ∧
      (same = true → ∃ opHash, operationHash hash op1 = .ok opHash ∧
        operationHash hash op2 = .ok opHash) := by
  have hlength : entries1.length = entries2.length :=
    h1.numDestinationBits.trans h2.numDestinationBits.symm
  obtain ⟨same, hok, hcomplete⟩ := allM_ok (p := lutEntriesProduceSameResult op1 op2)
    (l := entries1.zip entries2) fun entries hmem =>
      lutEntriesProduceSameResult_ok h1 h2 (List.of_mem_zip hmem).1 (List.of_mem_zip hmem).2
  have hresult : lutOperationsProduceSameResult op1 op2 entries1 entries2 = .ok same := by
    simp only [lutOperationsProduceSameResult, assert_of_true (decide_eq_true h1.lut.mask),
      assert_of_true (decide_eq_true h2.lut.mask), ok_bind, hlength, ne_eq, not_true_eq_false,
      if_false, hok]
  have hiff : same = true ↔ ∀ regs, operationValue table regs dstWidth op1 =
      operationValue table regs dstWidth op2 := by
    constructor
    · rintro rfl regs
      refine (operationValue_eq_iff h1 h2 regs).mpr fun entries hmem => ?_
      exact lutEntriesProduceSameResult_evaluate h1.canonicalLut h2.canonicalLut
        (List.of_mem_zip hmem).1 (allM_eq_true hok entries hmem) (registerValue table regs)
    · intro hvalue
      refine hcomplete fun entries hmem => ?_
      exact lutEntriesProduceSameResult_complete h1 h2 (List.of_mem_zip hmem).1
        (List.of_mem_zip hmem).2 fun regs =>
          (operationValue_eq_iff h1 h2 regs).mp (hvalue regs) entries hmem
  refine ⟨same, hresult, hiff, fun htrue => ?_⟩
  have hvalue := hiff.mp htrue
  subst htrue
  have hperm : op1.reads.Perm op2.reads :=
    (List.perm_ext_iff_of_nodup h1.canonicalLut.reads_nodup h2.canonicalLut.reads_nodup).mpr
      fun r => ⟨fun hr => reads_subset h1 h2 hvalue hr,
        fun hr => reads_subset h2 h1 (fun regs => (hvalue regs).symm) hr⟩
  have heq := operationHash_of_perm hash h1.lut.opcode h2.lut.opcode h1.canonicalLut
    h2.canonicalLut hperm (lutOperationsProduceSameResult_lengths hresult)
  obtain ⟨opHash, hhash⟩ : ∃ opHash, operationHash hash op1 = .ok opHash := by
    simp only [operationHash, h1.lut.opcode, h1.src_eq, sortOperands_registers,
      hashOperands_registers, ok_bind]
    exact ⟨_, rfl⟩
  exact ⟨opHash, hhash, heq ▸ hhash⟩

end

/-! ## Permuted columns -/

/-- A lookup table of bits of the registers 32 and 22. -/
def lutOfBits (src : List SourceOperand) (entry : LutEntry) : Operation where
  opcode := .lut [⟨[], 0⟩, entry]
  src := src
  dst := [.register 0]

/-- Registers of four bits, and a destination of two. -/
def nibbleTable : RegisterTable :=
  ⟨2, .local, false, false, none⟩ :: List.replicate 32 ⟨4, .local, false, false, none⟩

theorem lutOfBits_comparable {src : List SourceOperand} {entry : LutEntry}
    (hregisters : src = [.register 32, .register 22] ∨ src = [.register 22, .register 32])
    (hsources : entry.sources = [(0, 3), (1, 2)] ∨ entry.sources = [(1, 2), (0, 3)] ∨
      entry.sources = [(1, 3), (0, 2)])
    (haffects : ∀ c < 2, TruthTable.DependsOn entry.table 2 c) :
    ComparableLut nibbleTable 2 (lutOfBits src entry) [⟨[], 0⟩, entry] := by
  obtain ⟨sources, table⟩ := entry
  dsimp only at hsources haffects
  have hlut : LutOperation (lutOfBits src ⟨sources, table⟩) [⟨[], 0⟩, ⟨sources, table⟩] := by
    refine ⟨rfl, rfl, rfl, fun s hs => ?_, ?_, ?_, ?_⟩
    · rcases hregisters with rfl | rfl <;>
        (simp only [lutOfBits, List.mem_cons, List.not_mem_nil, or_false] at hs
         rcases hs with rfl | rfl <;> exact .register _)
    all_goals
      rcases hregisters with rfl | rfl <;> rcases hsources with rfl | rfl | rfl <;>
        simp [lutOfBits, maxLutSources] <;> omega
  have hcanonical : Canonical (lutOfBits src ⟨sources, table⟩).src
      [⟨[], 0⟩, ⟨sources, table⟩] := by
    refine ⟨fun s hs => ?_, ?_, ?_, hlut.inRange, ?_, ?_⟩
    · rcases hregisters with rfl | rfl <;>
        (simp only [lutOfBits, List.mem_cons, List.not_mem_nil, or_false] at hs
         rcases hs with rfl | rfl <;> exact ⟨_, rfl⟩)
    · rcases hregisters with rfl | rfl <;> simp [lutOfBits]
    · rcases hregisters with rfl | rfl <;> rcases hsources with rfl | rfl | rfl <;>
        (intro i hi
         simp only [lutOfBits, List.length_cons, List.length_nil] at hi
         have : i = 0 ∨ i = 1 := by omega
         rcases this with rfl | rfl <;> simp)
    · rcases hsources with rfl | rfl | rfl <;> simp
    · intro entry hentry c hc
      simp only [List.mem_cons, List.not_mem_nil, or_false] at hentry
      rcases hentry with rfl | rfl
      · exact absurd hc (Nat.not_lt_zero c)
      · have htwo : sources.length = 2 := by rcases hsources with rfl | rfl | rfl <;> rfl
        rw [htwo] at hc ⊢
        exact haffects c hc
  refine ⟨hlut, hcanonical, rfl, rfl, ?_⟩
  intro entry hentry source hsource r hr
  simp only [List.mem_cons, List.not_mem_nil, or_false] at hentry
  rcases hentry with rfl | rfl
  · exact nomatch hsource
  · rcases hregisters with rfl | rfl <;> rcases hsources with rfl | rfl | rfl <;>
      (simp only [List.mem_cons, List.not_mem_nil, or_false] at hsource
       rcases hsource with rfl | rfl <;> cases hr <;> decide)

/-- The comparison sees through operands and columns in another order. -/
theorem lutOperationsProduceSameResult_iff_permuted :
    ∃ same, lutOperationsProduceSameResult
        (lutOfBits [.register 32, .register 22] ⟨[(0, 3), (1, 2)], 0xb⟩)
        (lutOfBits [.register 22, .register 32] ⟨[(1, 3), (0, 2)], 0xb⟩)
        [⟨[], 0⟩, ⟨[(0, 3), (1, 2)], 0xb⟩] [⟨[], 0⟩, ⟨[(1, 3), (0, 2)], 0xb⟩] = .ok same ∧
      (same = true ↔ ∀ regs,
        operationValue nibbleTable regs 2
            (lutOfBits [.register 32, .register 22] ⟨[(0, 3), (1, 2)], 0xb⟩) =
          operationValue nibbleTable regs 2
            (lutOfBits [.register 22, .register 32] ⟨[(1, 3), (0, 2)], 0xb⟩)) ∧
      (same = true → ∃ opHash,
        operationHash ⟨fun h v => 31 * h + v, fun h v => 31 * h + v⟩
            (lutOfBits [.register 32, .register 22] ⟨[(0, 3), (1, 2)], 0xb⟩) = .ok opHash ∧
          operationHash ⟨fun h v => 31 * h + v, fun h v => 31 * h + v⟩
            (lutOfBits [.register 22, .register 32] ⟨[(1, 3), (0, 2)], 0xb⟩) = .ok opHash) :=
  lutOperationsProduceSameResult_iff _
    (lutOfBits_comparable (.inl rfl) (.inl rfl) (by decide))
    (lutOfBits_comparable (.inr rfl) (.inr (.inr rfl)) (by decide))

end Kanagawa.Optimize
