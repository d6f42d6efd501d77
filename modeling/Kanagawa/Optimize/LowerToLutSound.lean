/-
  Kanagawa.Optimize.LowerToLutSound

  What `LowerToLut` keeps of the value of an operation.

  A conversion is judged bit by bit: the entry of a destination bit evaluates to
  that bit of an integer (`Converts`), the exact result of the operation for all
  conversions but the one that tabulates `ImplementBinaryOp`.  There the result
  is exact as far as the reference arithmetic is.
-/
import Kanagawa.Optimize.AlgebraicIdentitiesSound
import Kanagawa.Optimize.LowerToLut

namespace Kanagawa.Optimize

open IR Lib.Bits Lib.Except

/-! ## Values of the sources -/

/-- The registers give the sources their values. -/
def ValuesOf (table : RegisterTable) (src : List SourceOperand) (values : List Literal) : Prop :=
  ∃ regs, src.mapM (SourceOperand.literalIn table regs) = some values

section Values

variable {table : RegisterTable} {src : List SourceOperand} {values : List Literal}

theorem forall₂_of_mapM {regs : Nat → Nat} (h : src.mapM (SourceOperand.literalIn table regs) = some values) :
    List.Forall₂ (fun s l => s.literalIn table regs = some l) src values := by
  induction src generalizing values with
  | nil =>
      cases h
      exact .nil
  | cons s src ih =>
      rw [List.mapM_cons] at h
      obtain ⟨l, hl, h⟩ := Option.bind_eq_some_iff.mp h
      obtain ⟨rest, hrest, h⟩ := Option.bind_eq_some_iff.mp h
      cases h
      exact .cons hl (ih hrest)

theorem ValuesOf.length_eq (h : ValuesOf table src values) : src.length = values.length := by
  obtain ⟨regs, h⟩ := h
  exact (forall₂_of_mapM h).length_eq

/-- The value of one source. -/
theorem ValuesOf.get? (h : ValuesOf table src values) {i : Nat} {s : SourceOperand}
    (hs : src[i]? = some s) : ∃ regs l, values[i]? = some l ∧ s.literalIn table regs = some l := by
  obtain ⟨regs, h⟩ := h
  have hall := forall₂_of_mapM h
  have hi : i < values.length := by
    rw [← hall.length_eq]
    exact (List.getElem?_eq_some_iff.mp hs).1
  refine ⟨regs, values[i], List.getElem?_eq_getElem hi, ?_⟩
  obtain ⟨hsrc, rfl⟩ := List.getElem?_eq_some_iff.mp hs
  exact hall.get hsrc hi

/-- A literal source has its own value. -/
theorem ValuesOf.literal_eq (h : ValuesOf table src values) {i : Nat} {l : Literal}
    (hs : src[i]? = some (.literal l)) : values[i]? = some l := by
  obtain ⟨regs, l', hl', heq⟩ := h.get? hs
  cases heq
  exact hl'

/-- A register source has a value of the width of the register. -/
theorem ValuesOf.register_value (h : ValuesOf table src values) {i r : Nat}
    (hs : src[i]? = some (.register r)) :
    ∃ v, v < 2 ^ (table.desc r).width ∧ values[i]? = some ⟨v, (table.desc r).width⟩ := by
  obtain ⟨regs, l', hl', heq⟩ := h.get? hs
  cases heq
  exact ⟨_, Nat.mod_lt _ (Nat.two_pow_pos _), hl'⟩

theorem selectedBit_of_get? {i b : Nat} {l : Literal} (h : values[i]? = some l) :
    selectedBit values (i, b) = l.value.testBit b := by
  rw [selectedBit, List.getD_eq_getElem?_getD, h]
  rfl

end Values

/-! ## Entries -/

/-- An entry has at most six sources, and they are bits of registers. -/
structure EntryFits (table : RegisterTable) (src : List SourceOperand) (entry : LutEntry) :
    Prop where
  length_le : entry.sources.length ≤ maxLutSources
  registers : ∀ s ∈ entry.sources,
    ∃ r, src[s.1]? = some (.register r) ∧ s.2 < (table.desc r).width

/-- The entry of each bit of the destination fits, and evaluates to that bit of the result,
    where there is one. -/
def Converts (table : RegisterTable) (src : List SourceOperand) (d : Nat)
    (entries : List LutEntry) (result : List Literal → Option Int) : Prop :=
  List.Forall₂ (fun j entry => EntryFits table src entry ∧
    ∀ values x, ValuesOf table src values → result values = some x →
      entry.evaluate values = x.testBit j) (List.range d) entries

section Entries

variable {table : RegisterTable} {src : List SourceOperand} {d : Nat} {entries : List LutEntry}
  {result : List Literal → Option Int}

/-- What is known of one element of a list that was made from indices. -/
theorem get?_of_forall₂_range {α : Type} {l : List α} {R : Nat → α → Prop}
    (h : List.Forall₂ R (List.range d) l) {j : Nat} (hj : j < d) :
    ∃ a, l[j]? = some a ∧ R j a := by
  have hlen : l.length = d := by rw [← h.length_eq, List.length_range]
  have hget := h.get (i := j) (by simpa using hj) (by omega)
  refine ⟨l[j], List.getElem?_eq_getElem (by omega), ?_⟩
  simpa using hget

/-- The converse, for entries that are known one by one. -/
theorem forall₂_range {R : Nat → LutEntry → Prop} (hlen : entries.length = d)
    (h : ∀ j entry, entries[j]? = some entry → R j entry) :
    List.Forall₂ R (List.range d) entries := by
  rw [List.forall₂_iff_get]
  refine ⟨by rw [List.length_range, hlen], fun i hi hi' => ?_⟩
  have hget := h i _ (List.getElem?_eq_getElem hi')
  simpa using hget

theorem Converts.fits (h : Converts table src d entries result) {entry : LutEntry}
    (hmem : entry ∈ entries) : EntryFits table src entry := by
  have hlen : entries.length = d := by rw [← h.length_eq, List.length_range]
  obtain ⟨j, hj⟩ := List.getElem?_of_mem hmem
  have hjd : j < d := by
    rw [← hlen]
    exact (List.getElem?_eq_some_iff.mp hj).1
  obtain ⟨entry', hentry', hfits, -⟩ := get?_of_forall₂_range h hjd
  rw [hj, Option.some.injEq] at hentry'
  subst hentry'
  exact hfits

/-- A conversion computes the result in the width of the destination. -/
theorem Converts.lutBits_eq (h : Converts table src d entries result) {values : List Literal}
    {x : Int} (hvalues : ValuesOf table src values) (hx : result values = some x) :
    lutBits entries values = truncate x d := by
  have hlen : entries.length = d := by rw [← h.length_eq, List.length_range]
  refine Nat.eq_of_testBit_eq fun j => ?_
  rw [testBit_lutBits, testBit_truncate]
  rcases Nat.lt_or_ge j d with hj | hj
  · obtain ⟨entry, hentry, -, heval⟩ := get?_of_forall₂_range h hj
    rw [hentry, Option.any_some, heval values x hvalues hx, decide_eq_true hj, Bool.true_and]
  · rw [List.getElem?_eq_none (by omega), Option.any_none, decide_eq_false (by omega),
      Bool.false_and]

end Entries

/-! ## Described bits -/

/-- The bit that a described source has. -/
def LutSourceDesc.bitIn (values : List Literal) (srcOperandIndex : Nat) : LutSourceDesc → Bool
  | .literal literalVal => literalVal
  | .bit srcBitIndex => selectedBit values (srcOperandIndex, srcBitIndex)

section Described

variable {table : RegisterTable} {op : Operation} {values : List Literal}

theorem bitTest_eq {v j : Nat} {b : Bool} (h : bitTest v j = .ok b) : b = v.testBit j := by
  rw [bitTest] at h
  split at h
  · exact (Except.ok.inj h).symm
  · cases h

theorem getLiteralBit_spec {i j : Nat} {l : Literal} {b : Bool} (hl : l.WellFormed)
    (hsrc : op.src[i]? = some (.literal l)) (h : getLiteralBit op i j = .ok b) :
    b = (l.denote (op.shouldSignExtend i)).testBit j := by
  rw [getLiteralBit, hsrc] at h
  rw [testBit_denote hl.fits]
  simp only [bind_eq_ok_iff] at h
  obtain ⟨-, -, h⟩ := h
  split at h
  next hj =>
    rw [if_pos hj]
    exact bitTest_eq h
  next hj =>
    rw [if_neg hj]
    cases hs : op.shouldSignExtend i with
    | true =>
        rw [hs] at h
        exact bitTest_eq h
    | false =>
        rw [hs] at h
        cases h
        rfl

/-- A description gives the bit of the extended source, and looks at a bit of a register. -/
theorem getSourceOperandDescription_spec {i j : Nat} {s : SourceOperand} {desc : LutSourceDesc}
    (hshape : SourceShape table s) (hsrc : op.src[i]? = some s)
    (h : getSourceOperandDescription table op j s i = .ok desc) :
    (∀ l, ValuesOf table op.src values → values[i]? = some l →
      desc.bitIn values i = (l.denote (op.shouldSignExtend i)).testBit j) ∧
    ∀ b, desc = .bit b → ∃ r, s = .register r ∧ b < (table.desc r).width := by
  cases s with
  | literal l =>
      obtain ⟨b, hb, rfl⟩ : ∃ b, getLiteralBit op i j = .ok b ∧ LutSourceDesc.literal b = desc := by
        rw [getSourceOperandDescription] at h
        cases hbit : getLiteralBit op i j with
        | error _ => rw [hbit] at h; cases h
        | ok b => rw [hbit] at h; exact ⟨b, rfl, Except.ok.inj h⟩
      refine ⟨fun l' hvalues hl' => ?_, (by intro _ h; cases h)⟩
      rw [hvalues.literal_eq hsrc, Option.some.injEq] at hl'
      subst hl'
      exact getLiteralBit_spec hshape hsrc hb
  | register r =>
      simp only [getSourceOperandDescription, bind_eq_ok_iff] at h
      obtain ⟨_, hpos, h⟩ := h
      have hpos : 0 < (table.desc r).width := of_decide_eq_true (of_assert hpos)
      have hvalue : ∀ l, ValuesOf table op.src values → values[i]? = some l →
          l.width = (table.desc r).width ∧ l.value < 2 ^ l.width := by
        intro l hvalues hl
        obtain ⟨v, hv, heq⟩ := hvalues.register_value hsrc
        rw [hl, Option.some.injEq] at heq
        subst heq
        exact ⟨rfl, hv⟩
      show (_ ∧ _)
      by_cases hj : j < (table.desc r).width
      · rw [if_pos (by exact hj)] at h
        cases h
        refine ⟨fun l hvalues hl => ?_, fun b hb => ⟨r, rfl, by cases hb; exact hj⟩⟩
        obtain ⟨hw, hlt⟩ := hvalue l hvalues hl
        rw [testBit_denote hlt, if_pos (by omega)]
        exact selectedBit_of_get? hl
      · rw [if_neg (by exact hj)] at h
        cases hs : op.shouldSignExtend i with
        | true =>
            rw [hs] at h
            cases h
            refine ⟨fun l hvalues hl => ?_, fun b hb => ⟨r, rfl, ?_⟩⟩
            · obtain ⟨hw, hlt⟩ := hvalue l hvalues hl
              rw [testBit_denote hlt, if_neg (by omega), Literal.negative, Bool.true_and, hw]
              exact selectedBit_of_get? hl
            · cases hb
              show (table.desc r).width - 1 < _
              omega
        | false =>
            rw [hs] at h
            cases h
            refine ⟨fun l hvalues hl => ?_, (by intro _ h; cases h)⟩
            obtain ⟨hw, hlt⟩ := hvalue l hvalues hl
            rw [testBit_denote hlt, if_neg (by omega), Literal.negative_false]
            rfl
  | fifo _ => exact hshape.elim
  | stringLiteral _ => exact hshape.elim

/-- What the descriptions of all sources give. -/
structure Described (table : RegisterTable) (op : Operation) (j : Nat)
    (descs : List LutSourceDesc) : Prop where
  length_eq : descs.length = op.src.length
  bits : ∀ (values : List Literal) (i : Nat) (desc : LutSourceDesc) (l : Literal),
    ValuesOf table op.src values → descs[i]? = some desc → values[i]? = some l → desc.bitIn values i = (l.denote (op.shouldSignExtend i)).testBit j
  registers : ∀ (i b : Nat), descs[i]? = some (.bit b) →
    ∃ r, op.src[i]? = some (.register r) ∧ b < (table.desc r).width

theorem getSourceOperandDescriptions_spec {j : Nat} {descs : List LutSourceDesc}
    (hshape : ∀ s ∈ op.src, SourceShape table s)
    (h : getSourceOperandDescriptions table op j = .ok descs) : Described table op j descs := by
  have hall := mapM_related h
  have hlen : descs.length = op.src.length := by rw [← hall.length_eq, List.length_zipIdx]
  have hget : ∀ i desc, descs[i]? = some desc → ∃ s, op.src[i]? = some s ∧
      getSourceOperandDescription table op j s i = .ok desc := by
    intro i desc hi
    obtain ⟨hlt, rfl⟩ := List.getElem?_eq_some_iff.mp hi
    have hat := hall.get (i := i) (by rw [List.length_zipIdx]; omega) hlt
    refine ⟨op.src[i], List.getElem?_eq_getElem (by omega), ?_⟩
    simpa using hat
  refine ⟨hlen, fun values i desc l hvalues hdesc hl => ?_, fun i b hb => ?_⟩
  · obtain ⟨s, hs, hok⟩ := hget i desc hdesc
    exact (getSourceOperandDescription_spec (hshape s (List.mem_of_getElem? hs)) hs hok).1 l
      hvalues hl
  · obtain ⟨s, hs, hok⟩ := hget i _ hb
    obtain ⟨r, rfl, hr⟩ := (@getSourceOperandDescription_spec _ _ [] _ _ _ _
      (hshape s (List.mem_of_getElem? hs)) hs hok).2 b rfl
    exact ⟨r, hs, hr⟩

/-! ### Numbering -/

/-- The sources of an entry are the bits of the descriptions that are not known. -/
theorem mem_lutSources {descs : List LutSourceDesc} {s : Nat × Nat} : ∀ {start : Nat},
    s ∈ lutSources descs start → start ≤ s.1 ∧ descs[s.1 - start]? = some (.bit s.2) := by
  induction descs with
  | nil => exact fun h => nomatch h
  | cons desc descs ih =>
      intro start h
      have hnext : s ∈ lutSources descs (start + 1) →
          start ≤ s.1 ∧ (desc :: descs)[s.1 - start]? = some (.bit s.2) := by
        intro h
        obtain ⟨hle, hget⟩ := ih h
        refine ⟨by omega, ?_⟩
        rw [show s.1 - start = s.1 - (start + 1) + 1 by omega, List.getElem?_cons_succ]
        exact hget
      cases desc with
      | literal _ => exact hnext h
      | bit b =>
          rcases List.mem_cons.mp h with rfl | h
          · exact ⟨Nat.le_refl _, by simp⟩
          · exact hnext h

theorem length_lutSources_le (descs : List LutSourceDesc) : ∀ start : Nat,
    (lutSources descs start).length ≤ descs.length := by
  induction descs with
  | nil => exact fun _ => Nat.le_refl _
  | cons desc descs ih =>
      intro start
      have h := ih (start + 1)
      cases desc with
      | literal _ =>
          show (lutSources descs (start + 1)).length ≤ descs.length + 1
          omega
      | bit b =>
          show (lutSources descs (start + 1)).length + 1 ≤ descs.length + 1
          omega

/-- In the row that the sources select, every source has the bit that was described.  The
    induction is on the descriptions; `before` are the sources numbered so far. -/
theorem sourceBits_selectedRow (values : List Literal) (descs : List LutSourceDesc) :
    ∀ (before : List (Nat × Nat)) (start : Nat),
      sourceBits descs (selectedRow values (before ++ lutSources descs start)) before.length =
        (descs.zipIdx start).map fun p => p.1.bitIn values p.2 := by
  induction descs with
  | nil => exact fun _ _ => rfl
  | cons desc descs ih =>
      intro before start
      cases desc with
      | literal b =>
          rw [List.zipIdx_cons, List.map_cons, ← ih before (start + 1)]
          rfl
      | bit b =>
          rw [List.zipIdx_cons, List.map_cons, ← ih (before ++ [(start, b)]) (start + 1)]
          have hrow : before ++ lutSources (.bit b :: descs) start
              = before ++ [(start, b)] ++ lutSources descs (start + 1) := by
            rw [List.append_assoc]
            rfl
          rw [hrow, sourceBits, testBit_selectedRow, List.append_assoc,
            List.getElem?_append_right (Nat.le_refl _), Nat.sub_self, List.length_append]
          rfl

theorem testBit_indexOfBits (bits : List Bool) (c : Nat) :
    (indexOfBits bits).testBit c = bits[c]?.any fun b => b :=
  testBit_foldl_zipIdx bits (fun b => b) c

/-- The bits of the sources are those of the integers they stand for. -/
theorem Described.bits_eq {j : Nat} {descs : List LutSourceDesc} (h : Described table op j descs)
    (hvalues : ValuesOf table op.src values) :
    (descs.zipIdx.map fun p => p.1.bitIn values p.2) =
      values.zipIdx.map fun p => (p.1.denote (op.shouldSignExtend p.2)).testBit j := by
  have hlen : descs.length = values.length := h.length_eq.trans hvalues.length_eq
  refine List.ext_getElem? fun i => ?_
  rw [List.getElem?_map, List.getElem?_map, List.getElem?_zipIdx, List.getElem?_zipIdx]
  rcases Nat.lt_or_ge i descs.length with hi | hi
  · rw [List.getElem?_eq_getElem hi, List.getElem?_eq_getElem (hlen ▸ hi)]
    simp only [Option.map_some, Nat.zero_add, Option.some.injEq]
    exact h.bits values i _ _ hvalues (List.getElem?_eq_getElem hi)
      (List.getElem?_eq_getElem (hlen ▸ hi))
  · rw [List.getElem?_eq_none hi, List.getElem?_eq_none (hlen ▸ hi)]
    rfl

/-- The row that sources select, looked up in a table that was filled row by row. -/
theorem evaluate_buildTable (values : List Literal) (sources : List (Nat × Nat))
    (row : Nat → Bool) :
    LutEntry.evaluate ⟨sources, buildTable (2 ^ sources.length) row⟩ values
      = row (selectedRow values sources) := by
  rw [evaluate_eq, testBit_buildTable, decide_eq_true (selectedRow_lt values sources),
    Bool.true_and]

end Described

/-! ## Exact results -/

/-- The integer a binary operation on extended sources gives. -/
def exactBinaryResult (op : Operation) (type : BinaryOpType) : List Literal → Option Int
  | [a, b] =>
      if type.Defined (b.denote (op.shouldSignExtend 1)) then
        some (exactBinaryOp type (a.denote (op.shouldSignExtend 0))
          (b.denote (op.shouldSignExtend 1)))
      else none
  | _ => none

theorem exactBinaryResult_eq_some {op : Operation} {type : BinaryOpType} {values : List Literal}
    {x : Int} (h : exactBinaryResult op type values = some x) :
    ∃ a b, values = [a, b] ∧ type.Defined (b.denote (op.shouldSignExtend 1)) ∧
      exactBinaryOp type (a.denote (op.shouldSignExtend 0)) (b.denote (op.shouldSignExtend 1))
        = x := by
  unfold exactBinaryResult at h
  split at h
  next a b =>
    split at h
    next hdefined => exact ⟨a, b, rfl, hdefined, Option.some.inj h⟩
    next => exact nomatch h
  next => exact nomatch h

/-- The integer an operation gives before it is cut to the width of the destination. -/
def exactResult (op : Operation) (values : List Literal) : Option Int :=
  match op.opcode, values with
  | .mov, [a] => some (a.denote (op.shouldSignExtend 0))
  | .clear, [] => some 0
  | .unaryOp .invert, [a] => some (Int.lnot (a.denote (op.shouldSignExtend 0)))
  | .binaryOp type, values => exactBinaryResult op type values
  | .select, index :: choices =>
      choices[index.value]?.map fun choice => choice.denote (op.shouldSignExtend (index.value + 1))
  | .gather entries, values => some (gatherBits entries values : Nat)
  | _, _ => none

theorem exactResult_binaryOp {op : Operation} {type : BinaryOpType}
    (hop : op.opcode = .binaryOp type) : exactResult op = exactBinaryResult op type := by
  funext values
  unfold exactResult
  rw [hop]

theorem exactResult_mov {op : Operation} {values : List Literal} {x : Int}
    (hop : op.opcode = .mov) (h : exactResult op values = some x) :
    ∃ a, values = [a] ∧ a.denote (op.shouldSignExtend 0) = x := by
  unfold exactResult at h
  rw [hop] at h
  rcases values with _ | ⟨a, _ | _⟩
  · exact nomatch h
  · exact ⟨a, rfl, Option.some.inj h⟩
  · exact nomatch h

theorem exactResult_clear {op : Operation} {values : List Literal} {x : Int}
    (hop : op.opcode = .clear) (h : exactResult op values = some x) : x = 0 := by
  unfold exactResult at h
  rw [hop] at h
  rcases values with _ | ⟨a, rest⟩
  · exact (Option.some.inj h).symm
  · exact nomatch h

theorem exactResult_invert {op : Operation} {values : List Literal} {x : Int}
    (hop : op.opcode = .unaryOp .invert) (h : exactResult op values = some x) :
    ∃ a, values = [a] ∧ Int.lnot (a.denote (op.shouldSignExtend 0)) = x := by
  unfold exactResult at h
  rw [hop] at h
  rcases values with _ | ⟨a, _ | _⟩
  · exact nomatch h
  · exact ⟨a, rfl, Option.some.inj h⟩
  · exact nomatch h

/-! ## Pointwise operations -/

section Pointwise

variable {table : RegisterTable} {op : Operation} {d inputTable : Nat}

/-- The index into the input table that the sources stand for at bit `j`. -/
def inputIndex (op : Operation) (values : List Literal) (j : Nat) : Nat :=
  indexOfBits (values.zipIdx.map fun p => (p.1.denote (op.shouldSignExtend p.2)).testBit j)

theorem pointwiseEntry_spec {j : Nat} {entry : LutEntry} (hlen : op.src.length ≤ maxLutSources)
    (hshape : ∀ s ∈ op.src, SourceShape table s)
    (h : pointwiseEntry table op inputTable j = .ok entry) :
    EntryFits table op.src entry ∧ ∀ values, ValuesOf table op.src values →
      entry.evaluate values = inputTable.testBit (inputIndex op values j) := by
  simp only [pointwiseEntry, bind_eq_ok_iff, pure_eq_ok, Except.ok.injEq] at h
  obtain ⟨descs, hdescs, rfl⟩ := h
  have hdescribed := getSourceOperandDescriptions_spec hshape hdescs
  refine ⟨⟨?_, fun s hs => ?_⟩, fun values hvalues => ?_⟩
  · have hle := length_lutSources_le descs 0
    rw [hdescribed.length_eq] at hle
    exact hle.trans hlen
  · exact hdescribed.registers s.1 s.2 (mem_lutSources hs).2
  · have hbits := sourceBits_selectedRow values descs [] 0
    rw [hdescribed.bits_eq hvalues] at hbits
    rw [evaluate_buildTable, inputIndex, ← hbits]
    rfl

theorem convertPointwiseOpToLut_spec {entries : List LutEntry}
    (hshape : ∀ s ∈ op.src, SourceShape table s) {result : List Literal → Option Int}
    (hresult : ∀ values x j, values.length = op.src.length → result values = some x →
      inputTable.testBit (inputIndex op values j) = x.testBit j)
    (h : convertPointwiseOpToLut table op inputTable d = .ok entries) :
    Converts table op.src d entries result := by
  simp only [convertPointwiseOpToLut, bind_eq_ok_iff] at h
  obtain ⟨_, hlen, h⟩ := h
  have hlen : op.src.length ≤ maxLutSources := of_decide_eq_true (of_assert hlen)
  refine (mapM_related h).imp fun j entry hentry => ?_
  obtain ⟨hfits, heval⟩ := pointwiseEntry_spec hlen hshape hentry
  refine ⟨hfits, fun values x hvalues hx => ?_⟩
  rw [heval values hvalues, hresult values x j hvalues.length_eq.symm hx]

theorem inputIndex_one (a : Literal) (j : Nat) :
    inputIndex op [a] j = indexOfBits [(a.denote (op.shouldSignExtend 0)).testBit j] := rfl

theorem inputIndex_two (a b : Literal) (j : Nat) :
    inputIndex op [a, b] j = indexOfBits [(a.denote (op.shouldSignExtend 0)).testBit j,
      (b.denote (op.shouldSignExtend 1)).testBit j] := rfl

theorem testBit_passThrough (x : Bool) : Nat.testBit 2 (indexOfBits [x]) = x := by
  cases x <;> decide

theorem testBit_flip (x : Bool) : Nat.testBit 1 (indexOfBits [x]) = !x := by
  cases x <;> decide

theorem testBit_andTable (x y : Bool) : Nat.testBit 8 (indexOfBits [x, y]) = (x && y) := by
  cases x <;> cases y <;> decide

theorem testBit_orTable (x y : Bool) : Nat.testBit 14 (indexOfBits [x, y]) = (x || y) := by
  cases x <;> cases y <;> decide

theorem testBit_xorTable (x y : Bool) : Nat.testBit 6 (indexOfBits [x, y]) = (x ^^ y) := by
  cases x <;> cases y <;> decide

end Pointwise

/-! ## Shifts -/

/-- Bit `j` of the integer that a source of `w` bits stands for is one of its bits. -/
def extendedBit (w : Nat) (signed : Bool) (j : Nat) : Option Nat :=
  if j < w then some j else if signed then some (w - 1) else none

theorem testBit_denote_extended {l : Literal} (hl : l.WellFormed) (signed : Bool) (j : Nat) :
    (l.denote signed).testBit j = (extendedBit l.width signed j).any l.value.testBit := by
  rw [testBit_denote hl.fits, extendedBit]
  split
  · rfl
  · cases signed with
    | true => rw [Literal.negative, Bool.true_and]; rfl
    | false => rw [Literal.negative_false]; rfl

theorem shlSourceBit_eq (w n : Nat) (signed : Bool) (j : Nat) :
    shlSourceBit w n signed j = if n ≤ j then extendedBit w signed (j - n) else none := by
  rw [shlSourceBit, extendedBit]
  rcases Nat.lt_or_ge j n with hj | hj
  · rw [if_pos hj, if_neg (by omega)]
  · rw [if_neg (by omega), if_pos hj]
    by_cases hw : j ≥ w + n
    · have hout : ¬ j - n < w := by omega
      rw [if_pos hw, if_neg hout]
    · have hin : j - n < w := by omega
      rw [if_neg hw, if_pos hin]

theorem shrSourceBit_eq (w n : Nat) (signed : Bool) (j : Nat) :
    shrSourceBit w n signed j = extendedBit w signed (n + j) := by
  simp only [shrSourceBit, extendedBit]
  -- The four regimes: the shift within the source or not, the source signed or not
  by_cases hw : w ≥ n
  · rw [if_pos hw]
    by_cases hj : j ≥ w - n
    · cases signed with
      | true => rw [if_pos rfl, if_pos hj, if_neg (by omega), if_pos rfl]
      | false => rw [if_neg Bool.false_ne_true, if_pos hj, if_neg (by omega),
          if_neg Bool.false_ne_true]
    · cases signed with
      | true => rw [if_pos rfl, if_neg hj, if_pos (by omega), Nat.add_comm]
      | false => rw [if_neg Bool.false_ne_true, if_neg hj, if_pos (by omega), Nat.add_comm]
  · have hout : ¬ n + j < w := by omega
    rw [if_neg hw, if_neg hout]

theorem shiftEntry_spec {table : RegisterTable} {src : List SourceOperand} {r : Nat}
    {sourceBit : Option Nat} {entry : LutEntry} (hsrc : src[0]? = some (.register r))
    (h : shiftEntry (table.desc r).width sourceBit = .ok entry) :
    EntryFits table src entry ∧ ∀ a rest,
      entry.evaluate (a :: rest) = sourceBit.any a.value.testBit := by
  cases sourceBit with
  | none =>
      cases h
      exact ⟨⟨by decide, nofun⟩, fun a rest => by simp [evaluate_eq]⟩
  | some b =>
      simp only [shiftEntry, bind_eq_ok_iff, pure_eq_ok, Except.ok.injEq] at h
      obtain ⟨_, hb, rfl⟩ := h
      have hb : b < (table.desc r).width := of_decide_eq_true (of_assert hb)
      refine ⟨⟨Nat.le_of_ble_eq_true rfl, fun s hs => ?_⟩, fun a rest => ?_⟩
      · rw [List.mem_singleton] at hs
        subst hs
        exact ⟨r, hsrc, hb⟩
      · exact testBit_passThrough (a.value.testBit b)

theorem convertShiftOpToLut_spec {table : RegisterTable} {op : Operation} {type : BinaryOpType}
    {d : Nat} {entries : List LutEntry} (htype : type = .shl ∨ type = .shr)
    (hshape : ∀ s ∈ op.src, SourceShape table s)
    (h : convertShiftOpToLut table op type d = .ok (some entries)) :
    (∃ r l, op.src = [.register r, .literal l]) ∧
      Converts table op.src d entries (exactBinaryResult op type) := by
  simp only [convertShiftOpToLut, bind_eq_ok_iff] at h
  obtain ⟨_, hunsigned, h⟩ := h
  have hunsigned : op.shouldSignExtend 1 = false := by simpa using of_assert hunsigned
  split at h
  next => cases h
  next src0 amount hnot hsrc =>
    cases src0 with
    | literal l => exact (hnot l rfl).elim
    | fifo f => exact (hshape (.fifo f) (by rw [hsrc]; exact List.mem_cons_self)).elim
    | stringLiteral f =>
        exact (hshape (.stringLiteral f) (by rw [hsrc]; exact List.mem_cons_self)).elim
    | register r =>
        refine ⟨⟨r, amount, hsrc⟩, ?_⟩
        simp only [bind_eq_ok_iff] at h
        obtain ⟨shiftAmount, hamount, h⟩ := h
        have hvalue : shiftAmount = amount.value := by
          rw [mpToSizeT] at hamount
          split at hamount
          · cases hamount
          · exact (Except.ok.inj hamount).symm
        subst hvalue
        obtain ⟨entries', hmap, hsome⟩ := map_eq_ok h
        cases hsome
        have hsrc0 : op.src[0]? = some (.register r) := by rw [hsrc]; rfl
        refine (mapM_related hmap).imp fun j entry hentry => ?_
        obtain ⟨hfits, heval⟩ := shiftEntry_spec hsrc0 hentry
        refine ⟨hfits, fun values x hvalues hx => ?_⟩
        obtain ⟨a, b, rfl, hdefined, rfl⟩ := exactBinaryResult_eq_some hx
        have hb : b = amount := by
          have hat : [a, b][1]? = some amount := hvalues.literal_eq (by rw [hsrc]; rfl)
          exact Option.some.inj hat
        obtain ⟨regs, l, hl, hregs⟩ := hvalues.get? hsrc0
        cases hl
        have hwidth : a.width = (table.desc r).width := literalIn_width hregs
        have hwf : a.WellFormed :=
          literalIn_wellFormed (hshape _ (by rw [hsrc]; exact List.mem_cons_self)) hregs
        rw [heval, hb, hunsigned, denote_false]
        rcases htype with rfl | rfl
        · rw [exactBinaryOp, Int.toNat_natCast, testBit_mul_two_pow, testBit_denote_extended hwf,
            if_pos rfl, shlSourceBit_eq, hwidth]
          split
          next hle => rw [decide_eq_true hle, Bool.true_and]; rfl
          next hlt => rw [decide_eq_false hlt, Bool.false_and]; rfl
        · rw [exactBinaryOp, Int.toNat_natCast, testBit_ediv_two_pow, testBit_denote_extended hwf,
            if_neg (by simp), shrSourceBit_eq, hwidth]
          rfl
  next => cases h
  next => cases h

/-! ## Tabulated results -/

section Tabulated

variable {table : RegisterTable} {op : Operation} {type : BinaryOpType} {d : Nat}
  {values : List Literal}

theorem length_registerBits (table : RegisterTable) (src : List SourceOperand) : ∀ start : Nat,
    (registerBits table src start).length = inputBitCount table src := by
  induction src with
  | nil => exact fun _ => rfl
  | cons s src ih =>
      intro start
      have hrest := ih (start + 1)
      rw [inputBitCount] at hrest ⊢
      rw [List.map_cons, List.sum_cons, ← hrest]
      cases s with
      | register r =>
          rw [registerBits, List.length_append, List.length_map, List.length_range]
          rfl
      | literal _ => exact (Nat.zero_add _).symm
      | fifo _ => exact (Nat.zero_add _).symm
      | stringLiteral _ => exact (Nat.zero_add _).symm

theorem mem_registerBits {src : List SourceOperand} {s : Nat × Nat} : ∀ {start : Nat},
    s ∈ registerBits table src start →
      start ≤ s.1 ∧ ∃ r, src[s.1 - start]? = some (.register r) ∧ s.2 < (table.desc r).width := by
  induction src with
  | nil => exact fun h => nomatch h
  | cons srcOp src ih =>
      intro start h
      have hnext : s ∈ registerBits table src (start + 1) → start ≤ s.1 ∧
          ∃ r, (srcOp :: src)[s.1 - start]? = some (.register r) ∧ s.2 < (table.desc r).width := by
        intro h
        obtain ⟨hle, r, hget, hlt⟩ := ih h
        refine ⟨by omega, r, ?_, hlt⟩
        rw [show s.1 - start = s.1 - (start + 1) + 1 by omega, List.getElem?_cons_succ]
        exact hget
      cases srcOp with
      | register r =>
          rcases List.mem_append.mp h with h | h
          · obtain ⟨i, hi, rfl⟩ := List.mem_map.mp h
            exact ⟨Nat.le_refl _, r, by simp, List.mem_range.mp hi⟩
          · exact hnext h
      | literal _ => exact hnext h
      | fifo _ => exact hnext h
      | stringLiteral _ => exact hnext h

/-- The field of a row where a register's bits stand holds the register's value. -/
theorem field_selectedRow {values : List Literal} {before rest : List (Nat × Nat)} {i v w : Nat}
    (hv : v < 2 ^ w) (hget : values[i]? = some ⟨v, w⟩) :
    (selectedRow values (before ++ (((List.range w).map fun b => (i, b)) ++ rest)) >>>
      before.length) &&& (2 ^ w - 1) = v := by
  refine Nat.eq_of_testBit_eq fun c => ?_
  rw [Nat.testBit_and, Nat.testBit_two_pow_sub_one, Nat.testBit_shiftRight, testBit_selectedRow,
    List.getElem?_append_right (Nat.le_add_right _ _), Nat.add_sub_cancel_left]
  rcases Nat.lt_or_ge c w with hc | hc
  · rw [List.getElem?_append_left (by simpa using hc), List.getElem?_map, List.getElem?_range hc,
      decide_eq_true hc, Bool.and_true]
    exact selectedBit_of_get? hget
  · have hout : ¬ c < w := by omega
    rw [decide_eq_false hout, Bool.and_false, Nat.testBit_lt_two_pow]
    exact Nat.lt_of_lt_of_le hv (Nat.pow_le_pow_right (by decide) hc)

/-- In the row that the registers' bits select, the decoded values are the values.  The
    induction is on the operands that are left; `before` are the bits listed so far. -/
theorem rowValues_selectedRow (hshape : ∀ s ∈ op.src, SourceShape table s)
    (hvalues : ValuesOf table op.src values) (src : List SourceOperand) :
    ∀ (before : List (Nat × Nat)) (start : Nat), op.src.drop start = src →
      rowValues table src (selectedRow values (before ++ registerBits table src start))
        before.length = values.drop start := by
  induction src with
  | nil =>
      intro before start hdrop
      have hle : op.src.length ≤ start := List.drop_eq_nil_iff.mp hdrop
      rw [List.drop_eq_nil_of_le (hvalues.length_eq ▸ hle)]
      rfl
  | cons s src ih =>
      intro before start hdrop
      have hsrc : op.src[start]? = some s := by
        rw [← List.head?_drop, hdrop]
        rfl
      have hrest : op.src.drop (start + 1) = src := by
        rw [← List.tail_drop, hdrop]
        rfl
      have hsplit : ∀ l, values[start]? = some l → values.drop start = l :: values.drop (start + 1) := by
        intro l hl
        obtain ⟨hlt, rfl⟩ := List.getElem?_eq_some_iff.mp hl
        exact List.drop_eq_getElem_cons hlt
      cases s with
      | literal l =>
          rw [hsplit l (hvalues.literal_eq hsrc), ← ih before (start + 1) hrest]
          rfl
      | register r =>
          obtain ⟨v, hv, hget⟩ := hvalues.register_value hsrc
          have hfield := @field_selectedRow _ before
            (registerBits table src (start + 1)) _ _ _ hv hget
          have hnext := ih (before ++ (List.range (table.desc r).width).map fun b => (start, b))
            (start + 1) hrest
          rw [List.append_assoc, List.length_append, List.length_map, List.length_range] at hnext
          rw [hsplit _ hget, registerBits, rowValues, SourceOperand.width, hfield, hnext]
          nofun
      | fifo f => exact (hshape _ (List.mem_of_getElem? hsrc)).elim
      | stringLiteral f => exact (hshape _ (List.mem_of_getElem? hsrc)).elim

theorem resultEntry_eq {sources : List (Nat × Nat)} {resultTable : List Nat} {j : Nat}
    {entry : LutEntry} (h : resultEntry sources resultTable j = .ok entry) :
    entry = ⟨sources, buildTable resultTable.length fun i => (resultTable.getD i 0).testBit j⟩ := by
  simp only [resultEntry, bind_eq_ok_iff, pure_eq_ok, Except.ok.injEq] at h
  obtain ⟨resultBits, hbits, rfl⟩ := h
  have hmap : resultBits = resultTable.map fun v => v.testBit j := by
    have hall := mapM_related hbits
    clear hbits
    induction hall with
    | nil => rfl
    | cons hbit _ ih => rw [List.map_cons, bitTest_eq hbit, ← ih]
  subst hmap
  congr 2
  funext i
  rw [List.getD_eq_getElem?_getD, List.getD_eq_getElem?_getD, List.getElem?_map]
  cases resultTable[i]? with
  | none => exact (Nat.zero_testBit j).symm
  | some v => rfl

/-- Where results are tabulated, `ImplementBinaryOp` has a result for all values of the
    sources, and the entries compute it. -/
theorem convertBinaryOpToLut_spec {entries : List LutEntry}
    (hshape : ∀ s ∈ op.src, SourceShape table s)
    (h : convertBinaryOpToLut table op type d = .ok (some entries)) :
    (∀ values, ValuesOf table op.src values → ∃ v, rowResult op type d values = .ok v) ∧
      Converts table op.src d entries fun values =>
        (rowResult op type d values).toOption.map Int.ofNat := by
  rw [convertBinaryOpToLut] at h
  split at h
  next hcount =>
    simp only [bind_eq_ok_iff] at h
    obtain ⟨_, -, resultTable, hresults, h⟩ := h
    obtain ⟨entries', hentries, hsome⟩ := map_eq_ok h
    cases hsome
    have hbits := length_registerBits table op.src 0
    have hrows := mapM_related hresults
    have hsize : resultTable.length = 2 ^ (registerBits table op.src 0).length := by
      rw [hbits, ← hrows.length_eq, List.length_range]
    -- The row that the registers select holds the result of their values
    have hrow : ∀ values, ValuesOf table op.src values → ∃ v,
        resultTable[selectedRow values (registerBits table op.src 0)]? = some v ∧
          rowResult op type d values = .ok v := by
      intro values hvalues
      have hlt := selectedRow_lt values (registerBits table op.src 0)
      rw [hbits] at hlt
      obtain ⟨v, hv, hok⟩ := get?_of_forall₂_range hrows hlt
      have hvals := rowValues_selectedRow hshape hvalues op.src [] 0 rfl
      rw [List.drop_zero, List.nil_append, List.length_nil] at hvals
      rw [hvals] at hok
      exact ⟨v, hv, hok⟩
    refine ⟨fun values hvalues => ?_, (mapM_related hentries).imp fun j entry hentry => ?_⟩
    · obtain ⟨v, -, hok⟩ := hrow values hvalues
      exact ⟨v, hok⟩
    · rw [resultEntry_eq hentry]
      refine ⟨⟨?_, fun s hs => (mem_registerBits hs).2⟩, fun values x hvalues hx => ?_⟩
      · rw [hbits]
        exact hcount
      · obtain ⟨v, hv, hok⟩ := hrow values hvalues
        dsimp only at hx
        rw [hok] at hx
        cases hx
        rw [hsize, evaluate_buildTable, List.getD_eq_getElem?_getD, hv]
        rfl
  next => exact nomatch h

end Tabulated

/-! ## Selection -/

section Selection

variable {table : RegisterTable} {op : Operation} {d : Nat}

theorem isPow2_iff {n : Nat} (h : isPow2 n = true) : n = 2 ^ n.log2 := by
  simp only [isPow2, Bool.and_eq_true, decide_eq_true_eq, beq_iff_eq] at h
  obtain ⟨k, hk⟩ := Nat.ne_zero_and_sub_one_eq_zero_iff_isPowerOfTwo.mp ⟨by omega, h.2⟩
  rw [hk, Nat.log2_two_pow]

theorem convertBits_spec {α : Type} {f : Nat → Except Failure (Option α)} {l : List Nat} :
    ∀ {entries : List α}, convertBits f l = .ok (some entries) →
      List.Forall₂ (fun j entry => f j = .ok (some entry)) l entries := by
  induction l with
  | nil =>
      intro entries h
      cases h
      exact .nil
  | cons j l ih =>
      intro entries h
      simp only [convertBits, bind_eq_ok_iff] at h
      obtain ⟨entry, hentry, h⟩ := h
      cases entry with
      | none => exact nomatch h
      | some entry =>
          obtain ⟨rest, hrest, hmap⟩ := map_eq_ok h
          obtain ⟨entries', rfl, rfl⟩ := Option.map_eq_some_iff.mp hmap
          exact .cons hentry (ih hrest)

theorem selectEntry_spec {j n r : Nat} {choices : List SourceOperand} {entry : LutEntry}
    (hsrc : op.src = .register r :: choices) (hn : choices.length = 2 ^ n)
    (hwidth : n ≤ (table.desc r).width) (hshape : ∀ s ∈ op.src, SourceShape table s)
    (h : selectEntry table op n j = .ok (some entry)) :
    EntryFits table op.src entry ∧ ∀ index rest choice,
      ValuesOf table op.src (index :: rest) → rest[index.value]? = some choice →
      entry.evaluate (index :: rest) =
        (choice.denote (op.shouldSignExtend (index.value + 1))).testBit j := by
  simp only [selectEntry, bind_eq_ok_iff] at h
  obtain ⟨descs, hdescs, h⟩ := h
  have hdescribed := getSourceOperandDescriptions_spec hshape hdescs
  split at h
  next => exact nomatch h
  next hle =>
    cases h
    refine ⟨⟨Nat.le_of_not_lt hle, fun s hs => ?_⟩, fun index rest choice hvalues hchoice => ?_⟩
    · rcases List.mem_append.mp hs with hs | hs
      · obtain ⟨i, hi, rfl⟩ := List.mem_map.mp hs
        exact ⟨r, by rw [hsrc]; rfl, Nat.lt_of_lt_of_le (List.mem_range.mp hi) hwidth⟩
      · obtain ⟨hpos, hget⟩ := mem_lutSources hs
        rw [List.getElem?_tail, Nat.sub_add_cancel hpos] at hget
        exact hdescribed.registers _ _ hget
    · let before := (List.range n).map fun i => ((0, i) : Nat × Nat)
      let row := selectedRow (index :: rest) (before ++ lutSources descs.tail 1)
      have hlen : before.length = n := by simp [before]
      have hrest : rest.length = 2 ^ n := by
        have hlen := hvalues.length_eq
        rw [hsrc, List.length_cons, List.length_cons] at hlen
        omega
      have hindex : index.value < 2 ^ n := hrest ▸ (List.getElem?_eq_some_iff.mp hchoice).1
      -- The low bits of the row are those of the index
      have hrow : row &&& (2 ^ n - 1) = index.value := by
        refine Nat.eq_of_testBit_eq fun c => ?_
        rw [Nat.testBit_and, Nat.testBit_two_pow_sub_one, testBit_selectedRow]
        rcases Nat.lt_or_ge c n with hc | hc
        · rw [List.getElem?_append_left (hlen.symm ▸ hc), List.getElem?_map,
            List.getElem?_range hc, decide_eq_true hc, Bool.and_true]
          rfl
        · have hout : ¬ c < n := by omega
          rw [decide_eq_false hout, Bool.and_false, Nat.testBit_lt_two_pow]
          exact Nat.lt_of_lt_of_le hindex (Nat.pow_le_pow_right (by decide) hc)
      have hbits := sourceBits_selectedRow (index :: rest) descs.tail before 1
      have hall := hdescribed.bits_eq hvalues
      rw [hlen] at hbits
      have hbit : (sourceBits descs.tail row n)[index.value]? =
          some ((choice.denote (op.shouldSignExtend (index.value + 1))).testBit j) := by
        have hat := congrArg (fun l : List Bool => l[index.value + 1]?) hall
        simp only [List.getElem?_map, List.getElem?_zipIdx, List.getElem?_cons_succ, hchoice,
          Option.map_some, Nat.zero_add] at hat
        rw [hbits, List.getElem?_map, List.getElem?_zipIdx, List.getElem?_tail, Nat.add_comm 1]
        exact hat
      rw [evaluate_buildTable]
      show (indexOfBits (sourceBits descs.tail row n)).testBit (row &&& (2 ^ n - 1)) = _
      rw [testBit_indexOfBits, hrow, hbit, Option.any_some]

theorem convertSelectOpToLut_spec {entries : List LutEntry}
    (hopcode : op.opcode = .select) (hshape : ∀ s ∈ op.src, SourceShape table s)
    (h : convertSelectOpToLut table op d = .ok (some entries)) :
    Converts table op.src d entries (exactResult op) := by
  rw [convertSelectOpToLut] at h
  split at h
  next r choices hsrc =>
    simp only [bind_eq_ok_iff] at h
    obtain ⟨_, hpow, _, hwidth, h⟩ := h
    have hwidth : choices.length.log2 ≤ (table.desc r).width := of_decide_eq_true (of_assert hwidth)
    refine (convertBits_spec h).imp fun j entry hentry => ?_
    obtain ⟨hfits, heval⟩ := selectEntry_spec hsrc (isPow2_iff (of_assert hpow)) hwidth hshape hentry
    refine ⟨hfits, fun values x hvalues hx => ?_⟩
    unfold exactResult at hx
    rw [hopcode] at hx
    cases values with
    | nil => exact nomatch hx
    | cons index rest =>
      obtain ⟨choice, hchoice, rfl⟩ := Option.map_eq_some_iff.mp hx
      exact heval index rest choice hvalues hchoice
  next => exact nomatch h
  next => exact nomatch h

end Selection

/-! ## Gathering -/

/-- What the code that makes a `Gather` establishes: entries for disjoint ranges of the
    destination, slices inside their registers, and no sign extension. -/
structure GatherShape (table : RegisterTable) (op : Operation) (gatherEntries : List GatherEntry) :
    Prop where
  unsigned : ∀ i < op.src.length, op.shouldSignExtend i = false
  disjoint : gatherEntries.Pairwise fun e e' =>
    e.destOffset + e.numBits ≤ e'.destOffset ∨ e'.destOffset + e'.numBits ≤ e.destOffset
  slices : ∀ (i r : Nat) (e : GatherEntry), op.src[i]? = some (.register r) →
    gatherEntries[i]? = some e → e.sourceOffset + e.numBits ≤ (table.desc r).width

section Gathering

variable {table : RegisterTable} {op : Operation} {gatherEntries : List GatherEntry} {d : Nat}

theorem mem_gatherBitList {b : GatherBit} :
    b ∈ gatherBitList op gatherEntries ↔ ∃ e k, op.src[b.srcOperandIndex]? = some b.srcOp ∧
      gatherEntries[b.srcOperandIndex]? = some e ∧ k < e.numBits ∧
      b.srcBit = e.sourceOffset + k ∧ b.dstBit = e.destOffset + k := by
  rw [gatherBitList, List.mem_flatMap]
  constructor
  · rintro ⟨⟨⟨s, e⟩, i⟩, hmem, hb⟩
    obtain ⟨k, hk, rfl⟩ := List.mem_map.mp hb
    obtain ⟨hs, he⟩ := List.getElem?_zip_eq_some.mp (List.mem_zipIdx_iff_getElem?.mp hmem)
    exact ⟨e, k, hs, he, List.mem_range.mp hk, rfl, rfl⟩
  · rintro ⟨e, k, hs, he, hk, hsrc, hdst⟩
    refine ⟨((b.srcOp, e), b.srcOperandIndex), List.mem_zipIdx_iff_getElem?.mpr
      (List.getElem?_zip_eq_some.mpr ⟨hs, he⟩), List.mem_map.mpr ⟨k, List.mem_range.mpr hk, ?_⟩⟩
    show GatherBit.mk _ _ (e.sourceOffset + k) (e.destOffset + k) = b
    rw [← hsrc, ← hdst]

/-- At most one bit is copied to a bit of the destination. -/
theorem gatherBitList_unique (hshape : GatherShape table op gatherEntries) {b b' : GatherBit}
    (hb : b ∈ gatherBitList op gatherEntries) (hb' : b' ∈ gatherBitList op gatherEntries)
    (hdst : b.dstBit = b'.dstBit) : b = b' := by
  obtain ⟨e, k, hs, he, hk, hsrcBit, hdstBit⟩ := mem_gatherBitList.mp hb
  obtain ⟨e', k', hs', he', hk', hsrcBit', hdstBit'⟩ := mem_gatherBitList.mp hb'
  have hindex : b.srcOperandIndex = b'.srcOperandIndex := by
    have hpair := List.pairwise_iff_getElem.mp hshape.disjoint
    obtain ⟨hi, rfl⟩ := List.getElem?_eq_some_iff.mp he
    obtain ⟨hi', rfl⟩ := List.getElem?_eq_some_iff.mp he'
    rcases Nat.lt_trichotomy b.srcOperandIndex b'.srcOperandIndex with hlt | heq | hlt
    · have := hpair _ _ hi hi' hlt
      omega
    · exact heq
    · have := hpair _ _ hi' hi hlt
      omega
  rw [← hindex, he, Option.some.injEq] at he'
  rw [← hindex, hs, Option.some.injEq] at hs'
  subst he'
  have hsrc : b.srcBit = b'.srcBit := by omega
  cases b
  cases b'
  simp_all

/-- The bit that is copied. -/
def GatherBit.value (values : List Literal) (b : GatherBit) : Bool :=
  selectedBit values (b.srcOperandIndex, b.srcBit)

theorem gatherLutEntry_spec {b : GatherBit} {entry : LutEntry}
    (hgather : GatherShape table op gatherEntries) (hshape : ∀ s ∈ op.src, SourceShape table s)
    (hb : b ∈ gatherBitList op gatherEntries) (h : gatherLutEntry op b = .ok entry) :
    EntryFits table op.src entry ∧
      ∀ values, ValuesOf table op.src values → entry.evaluate values = b.value values := by
  obtain ⟨e, k, hs, he, hk, hsrcBit, -⟩ := mem_gatherBitList.mp hb
  rw [gatherLutEntry] at h
  split at h
  next l hl =>
    simp only [bind_eq_ok_iff, pure_eq_ok, Except.ok.injEq] at h
    obtain ⟨bit, hbit, rfl⟩ := h
    rw [hl] at hs
    have hwf : l.WellFormed := hshape _ (List.mem_of_getElem? hs)
    have hunsigned := hgather.unsigned _ (List.getElem?_eq_some_iff.mp hs).1
    refine ⟨⟨Nat.zero_le _, nofun⟩, fun values hvalues => ?_⟩
    have hvalue := getLiteralBit_spec hwf hs hbit
    rw [hunsigned, denote_false] at hvalue
    rw [GatherBit.value, selectedBit_of_get? (hvalues.literal_eq hs), evaluate_eq]
    have hvalue : bit = l.value.testBit b.srcBit := hvalue
    rw [← hvalue]
    show bit.toNat.testBit 0 = bit
    cases bit <;> rfl
  next hnot =>
    cases h
    cases hop : b.srcOp with
    | literal l => exact absurd hop (hnot l)
    | fifo f => exact (hshape (.fifo f) (List.mem_of_getElem? (hop ▸ hs))).elim
    | stringLiteral f => exact (hshape (.stringLiteral f) (List.mem_of_getElem? (hop ▸ hs))).elim
    | register r =>
        rw [hop] at hs
        refine ⟨⟨Nat.le_of_ble_eq_true rfl, fun s hmem => ?_⟩, fun values _ => ?_⟩
        · rw [List.mem_singleton] at hmem
          subst hmem
          have hslice := hgather.slices _ r e hs he
          exact ⟨r, hs, by show b.srcBit < _; omega⟩
        · exact testBit_passThrough _

/-- The entries after some bits have been copied: those of the bits, and elsewhere what they
    were before.  The induction is on the bits; the last one copied to a place counts. -/
theorem gatherStep_run {bits : List GatherBit} (hunique : ∀ b ∈ bits, ∀ b' ∈ bits,
      b.dstBit = b'.dstBit → b = b') :
    ∀ {entries entries' : List LutEntry}, bits.foldlM (gatherStep op d) entries = .ok entries' →
      entries.length = d → entries'.length = d ∧ ∀ j < d,
        (∃ b ∈ bits, ∃ entry, b.dstBit = j ∧ gatherLutEntry op b = .ok entry ∧
          entries'[j]? = some entry) ∨
        ((∀ b ∈ bits, b.dstBit ≠ j) ∧ entries'[j]? = entries[j]?) := by
  induction bits with
  | nil =>
      intro entries entries' h hlen
      cases h
      exact ⟨hlen, fun j _ => .inr ⟨nofun, rfl⟩⟩
  | cons b bits ih =>
      intro entries entries' h hlen
      simp only [List.foldlM_cons, gatherStep, bind_eq_ok_iff, pure_eq_ok, Except.ok.injEq] at h
      obtain ⟨_, ⟨_, hdst, entry, hentry, rfl⟩, h⟩ := h
      have hdst : b.dstBit < d := of_decide_eq_true (of_assert hdst)
      obtain ⟨hlen', hall⟩ := ih
        (fun c hc c' hc' => hunique c (List.mem_cons_of_mem _ hc) c' (List.mem_cons_of_mem _ hc')) h
        (by rw [List.length_set, hlen])
      refine ⟨hlen', fun j hj => ?_⟩
      rcases hall j hj with ⟨c, hc, e, hcj, he, hget⟩ | ⟨hnone, hget⟩
      · exact .inl ⟨c, List.mem_cons_of_mem _ hc, e, hcj, he, hget⟩
      · by_cases hbj : b.dstBit = j
        · refine .inl ⟨b, List.mem_cons_self, entry, hbj, hentry, ?_⟩
          rw [hget, ← hbj, List.getElem?_set_self (hlen.symm ▸ hdst)]
        · refine .inr ⟨fun c hc => ?_, ?_⟩
          · rcases List.mem_cons.mp hc with rfl | hc
            · exact hbj
            · exact hnone c hc
          · rw [hget, List.getElem?_set_ne hbj]

/-- A bit of what is gathered. -/
theorem testBit_gatherBits {values : List Literal} (hlength : values.length = op.src.length)
    {j : Nat} : (gatherBits gatherEntries values).testBit j = true ↔
      ∃ b ∈ gatherBitList op gatherEntries, b.dstBit = j ∧ b.value values = true := by
  rw [gatherBits, testBit_foldl_or, Nat.zero_testBit, Bool.false_or, List.any_eq_true]
  have hterm : ∀ (e : GatherEntry) (l : Literal),
      (truncate (l.value >>> e.sourceOffset : Nat) e.numBits <<< e.destOffset).testBit j = true ↔
        ∃ k, k < e.numBits ∧ j = e.destOffset + k ∧ l.value.testBit (e.sourceOffset + k) = true := by
    intro e l
    rw [Nat.testBit_shiftLeft, truncate_natCast, Nat.testBit_mod_two_pow, Nat.testBit_shiftRight]
    simp only [Bool.and_eq_true, decide_eq_true_eq]
    constructor
    · rintro ⟨hle, hlt, hbit⟩
      exact ⟨j - e.destOffset, hlt, by omega, hbit⟩
    · rintro ⟨k, hk, rfl, hbit⟩
      refine ⟨Nat.le_add_right _ _, ?_, ?_⟩
      · rw [Nat.add_sub_cancel_left]
        exact hk
      · rw [Nat.add_sub_cancel_left]
        exact hbit
  constructor
  · rintro ⟨⟨e, l⟩, hmem, hbit⟩
    obtain ⟨k, hk, rfl, hselected⟩ := (hterm e l).mp hbit
    obtain ⟨i, hi⟩ := List.getElem?_of_mem hmem
    obtain ⟨he, hl⟩ := List.getElem?_zip_eq_some.mp hi
    have hlt : i < op.src.length := hlength ▸ (List.getElem?_eq_some_iff.mp hl).1
    refine ⟨⟨op.src[i], i, e.sourceOffset + k, e.destOffset + k⟩, mem_gatherBitList.mpr
      ⟨e, k, List.getElem?_eq_getElem hlt, he, hk, rfl, rfl⟩, rfl, ?_⟩
    rw [GatherBit.value, selectedBit_of_get? hl]
    exact hselected
  · rintro ⟨b, hb, rfl, hbit⟩
    obtain ⟨e, k, hs, he, hk, hsrcBit, hdstBit⟩ := mem_gatherBitList.mp hb
    have hlt : b.srcOperandIndex < values.length :=
      hlength.symm ▸ (List.getElem?_eq_some_iff.mp hs).1
    have hl := List.getElem?_eq_getElem hlt
    refine ⟨(e, values[b.srcOperandIndex]), List.mem_of_getElem?
      (List.getElem?_zip_eq_some.mpr ⟨he, hl⟩), (hterm e _).mpr ⟨k, hk, hdstBit, ?_⟩⟩
    rw [GatherBit.value, selectedBit_of_get? hl, hsrcBit] at hbit
    exact hbit

theorem convertGatherOpToLut_spec {entries : List LutEntry}
    (hgather : GatherShape table op gatherEntries) (hshape : ∀ s ∈ op.src, SourceShape table s)
    (h : convertGatherOpToLut op gatherEntries d = .ok entries) :
    Converts table op.src d entries fun values => some (gatherBits gatherEntries values : Nat) := by
  simp only [convertGatherOpToLut, bind_eq_ok_iff] at h
  obtain ⟨_, -, h⟩ := h
  obtain ⟨hlen, hall⟩ := gatherStep_run
    (fun b hb b' hb' => gatherBitList_unique hgather hb hb') h (List.length_replicate)
  refine forall₂_range hlen fun j entry hentry => ?_
  have hj : j < d := hlen ▸ (List.getElem?_eq_some_iff.mp hentry).1
  rcases hall j hj with ⟨b, hb, e, hbj, he, hget⟩ | ⟨hnone, hget⟩
  · rw [hentry, Option.some.injEq] at hget
    subst hget
    obtain ⟨hfits, heval⟩ := gatherLutEntry_spec hgather hshape hb he
    refine ⟨hfits, fun values x hvalues hx => ?_⟩
    cases hx
    rw [heval values hvalues, Bool.eq_iff_iff]
    refine Iff.trans ?_ (testBit_gatherBits hvalues.length_eq.symm).symm
    constructor
    · exact fun hbit => ⟨b, hb, hbj, hbit⟩
    · rintro ⟨b', hb', hbj', hbit⟩
      rw [gatherBitList_unique hgather hb hb' (hbj.trans hbj'.symm)]
      exact hbit
  · rw [hentry, List.getElem?_replicate_of_lt hj, Option.some.injEq] at hget
    subst hget
    refine ⟨⟨by decide, nofun⟩, fun values x hvalues hx => ?_⟩
    cases hx
    have hfalse : (gatherBits gatherEntries values).testBit j = false := by
      rw [← Bool.not_eq_true, testBit_gatherBits hvalues.length_eq.symm]
      rintro ⟨b, hb, hbj, -⟩
      exact hnone b hb hbj
    rw [evaluate_eq, Nat.zero_testBit]
    exact hfalse.symm

end Gathering

/-! ## Where the reference arithmetic misjudges -/

/-- Sources for which `ImplementBinaryOp` has a result and the result is not exact: two
    different integers with the same pattern in the larger width, which `EQ` and `NE` take for
    equal, and a right shift of a negative source by so much that the width it is extended to
    wraps around. -/
def Misjudged (a b : Literal) (d : Nat) (s0 s1 : Bool) : BinaryOpType → Prop
  | .eq | .ne => a.denote s0 ≠ b.denote s1 ∧
      a.denote s0 ≡ b.denote s1 [ZMOD 2 ^ max a.width b.width]
  | .shr => a.negative s0 = true ∧ 2 ^ 64 ≤ d + b.value
  | _ => False

section Reference

variable {a b : Literal} {s0 s1 : Bool} {d v : Nat}

theorem dst_pos_of_ok {type : BinaryOpType} (h : implementBinaryOp a b d s0 s1 type = .ok v) :
    0 < d := by
  simp only [implementBinaryOp, bind_eq_ok_iff] at h
  obtain ⟨_, _, _, _, _, hd, _⟩ := h
  exact of_decide_eq_true (of_assert hd)

/-- The width a right shift that has a result extends its sources to. -/
theorem requiredSourceWidth_shr_of_ok (h0 : a.WellFormed) (h1 : b.WellFormed)
    (h : implementBinaryOp a b d s0 s1 .shr = .ok v) :
    requiredSourceWidth a b d .shr = .ok ((d + b.value) % 2 ^ 64) := by
  by_cases hbig : b.value > sizeMax
  · simp [implementBinaryOp, assert, h0.width_pos, h1.width_pos, dst_pos_of_ok h,
      requiredSourceWidth, mpToSizeT, hbig, bind, Except.bind] at h
  · simp [requiredSourceWidth, mpToSizeT, hbig, bind, Except.bind, pure, Except.pure]

/-- A right shift that has a result is misjudged where the width wraps around. -/
theorem inRange_shr_iff (h0 : a.WellFormed) (h1 : b.WellFormed) (hd : 0 < d)
    (h : implementBinaryOp a b d s0 s1 .shr = .ok v) :
    BinaryOpInRange a b d s0 s1 .shr ↔ ¬ Misjudged a b d s0 s1 .shr := by
  have hreq := requiredSourceWidth_shr_of_ok h0 h1 h
  obtain ⟨hneg, hvalue⟩ := not_negative_of_shift_ok (.inr rfl) h0 h1 hd hreq h
  obtain ⟨hw0, hw1⟩ := widenable_of_ok h0 h1 hd hreq h
  constructor
  · rintro ⟨hin, -, -⟩ ⟨hneg0, hwrap⟩
    have hle := hin.2 hneg0
    simp only [sourceWidth] at hle
    omega
  · intro hnot
    refine ⟨⟨hw0.1, fun hneg0 => ?_⟩, ⟨hw1.1, fun hneg1 => ?_⟩, hvalue⟩
    · have hlt : d + b.value < 2 ^ 64 := Nat.lt_of_not_le fun hwrap => hnot ⟨hneg0, hwrap⟩
      have hle := hw0.2 hneg0
      rw [Nat.mod_eq_of_lt hlt] at hle
      exact hle
    · rw [hneg] at hneg1
      cases hneg1

/-- Where `ImplementBinaryOp` has a result, it is exact unless it is misjudged. -/
theorem inRange_iff_not_misjudged {type : BinaryOpType} (h0 : a.WellFormed) (h1 : b.WellFormed)
    (hdef : type.Defined (b.denote s1)) (h : implementBinaryOp a b d s0 s1 type = .ok v) :
    BinaryOpInRange a b d s0 s1 type ↔ ¬ Misjudged a b d s0 s1 type := by
  have hd := dst_pos_of_ok h
  cases type
  case shr => exact inRange_shr_iff h0 h1 hd h
  case shl =>
    obtain ⟨hw0, hw1⟩ := widenable_of_ok h0 h1 hd rfl h
    exact iff_of_true ⟨hw0, hw1, (not_negative_of_shift_ok (.inl rfl) h0 h1 hd rfl h).2⟩ id
  case div =>
    obtain ⟨hw0, hw1⟩ := widenable_of_ok h0 h1 hd rfl h
    refine iff_of_true ⟨hw0, hw1, fun hneg => ?_⟩ id
    by_contra hi
    rw [implementBinaryOp_of_widenable h0 h1 hd rfl hw0 hw1,
      binaryOpResult_div_neg_error h0 h1 hdef hneg hi] at h
    exact nomatch h
  case mod =>
    obtain ⟨hw0, hw1⟩ := widenable_of_ok h0 h1 hd rfl h
    refine iff_of_true ⟨hw0, hw1, fun hneg => ?_⟩ id
    by_contra hi
    rw [implementBinaryOp_of_widenable h0 h1 hd rfl hw0 hw1,
      binaryOpResult_mod_neg_error h0 h1 hdef hneg hi] at h
    exact nomatch h
  case eq | ne =>
    obtain ⟨hw0, hw1⟩ := widenable_of_ok h0 h1 hd rfl h
    constructor
    · rintro ⟨-, -, hin⟩ ⟨hne, hcongr⟩
      exact hin.elim hne fun hnot => hnot hcongr
    · intro hnot
      refine ⟨hw0, hw1, ?_⟩
      by_cases heq : a.denote s0 = b.denote s1
      · exact .inl heq
      · exact .inr fun hcongr => hnot ⟨heq, hcongr⟩
  all_goals
    obtain ⟨hw0, hw1⟩ := widenable_of_ok h0 h1 hd rfl h
    exact iff_of_true ⟨hw0, hw1, trivial⟩ id

/-- A misjudged operation is one that is defined on its sources. -/
theorem defined_of_misjudged {type : BinaryOpType} (h0 : a.WellFormed) (h1 : b.WellFormed)
    (hmis : Misjudged a b d s0 s1 type) (h : implementBinaryOp a b d s0 s1 type = .ok v) :
    type.Defined (b.denote s1) := by
  have hd := dst_pos_of_ok h
  cases type
  case eq | ne => exact trivial
  case shr =>
    obtain ⟨hneg, -⟩ := not_negative_of_shift_ok (.inr rfl) h0 h1 hd
      (requiredSourceWidth_shr_of_ok h0 h1 h) h
    show 0 ≤ b.denote s1
    rw [Literal.denote_of_not_negative hneg]
    exact Int.natCast_nonneg _
  all_goals exact hmis.elim

end Reference

/-! ## The pass -/

/-- An operation that can be lowered: sources are registers and literals. -/
structure LoweringShape (table : RegisterTable) (op : Operation) (dst : DestinationOperand) : Prop where
  dst_eq : op.dst = [dst]
  src_shape : ∀ s ∈ op.src, SourceShape table s
  gather : ∀ entries, op.opcode = .gather entries → GatherShape table op entries
  not_lut : ∀ entries, op.opcode ≠ .lut entries

/-- Some values of the sources are misjudged.  A shift of a register by a literal amount does
    not go through the reference arithmetic. -/
def MisjudgedIn (table : RegisterTable) (op : Operation) (dst : DestinationOperand) : Prop :=
  ∃ type a b, op.opcode = .binaryOp type ∧ ValuesOf table op.src [a, b] ∧
    (type = .shr → ∀ r l, op.src ≠ [.register r, .literal l]) ∧
    Misjudged a b (dst.width table) (op.shouldSignExtend 0) (op.shouldSignExtend 1) type

/-- The entries compute what the operation leaves in its destination. -/
def Preserves (table : RegisterTable) (op : Operation) (dst : DestinationOperand)
    (entries : List LutEntry) : Prop :=
  ∀ values v, ValuesOf table op.src values →
    combinationalResult op.opcode op.signExtendSourceMask (dst.width table) values = some v →
      lutBits entries values = v

section Pass

variable {table : RegisterTable} {op : Operation} {dst : DestinationOperand}
  {entries : List LutEntry} {d : Nat}

/-- The value in the destination is the exact result, cut to the width. -/
theorem exactResult_of_combinational {values : List Literal} {v : Nat}
    (hinvert : ∀ type, op.opcode = .unaryOp type → type = .invert)
    (hlut : ∀ entries, op.opcode ≠ .lut entries)
    (h : combinationalResult op.opcode op.signExtendSourceMask d values = some v) :
    ∃ x, exactResult op values = some x ∧ v = truncate x d := by
  unfold exactResult exactBinaryResult
  unfold combinationalResult at h
  split at h
  next a hop =>
    rw [hop]
    exact ⟨_, rfl, (Option.some.inj h).symm⟩
  next hop =>
    rw [hop]
    cases h
    exact ⟨0, rfl, (truncate_natCast_of_lt (Nat.two_pow_pos d)).symm⟩
  next type a hop =>
    rw [hop, hinvert type hop]
    rw [hinvert type hop] at h
    exact ⟨_, rfl, (Option.some.inj h).symm⟩
  next type a b hop =>
    rw [hop]
    split at h
    next hdefined =>
      refine ⟨_, if_pos hdefined, (Option.some.inj h).symm⟩
    next => exact nomatch h
  next index choices hop =>
    rw [hop]
    obtain ⟨choice, hchoice, rfl⟩ := Option.map_eq_some_iff.mp h
    refine ⟨_, ?_, rfl⟩
    dsimp only
    rw [hchoice]
    rfl
  next entries values hop =>
    rw [hop]
    exact ⟨_, rfl, (Option.some.inj h).symm⟩
  next hop => exact absurd hop (hlut _)
  next => exact nomatch h

/-- What a conversion establishes: its entries compute the exact result, or tabulate the
    reference arithmetic. -/
inductive Conversion (table : RegisterTable) (op : Operation) (d : Nat)
    (entries : List LutEntry) : Prop
  | exact (hinvert : ∀ type, op.opcode = .unaryOp type → type = .invert)
      (hconverts : Converts table op.src d entries (exactResult op))
      (htype : ∀ type, op.opcode = .binaryOp type → type ∈ [.and, .or, .xor, .shl] ∨
        (type = .shr ∧ ∃ r l, op.src = [.register r, .literal l]))
  | tabulated (type : BinaryOpType) (hopcode : op.opcode = .binaryOp type)
      (hresult : ∀ values, ValuesOf table op.src values → ∃ v, rowResult op type d values = .ok v)
      (hconverts : Converts table op.src d entries fun values =>
        (rowResult op type d values).toOption.map Int.ofNat)
      (hshift : type = .shr → ∀ r l, op.src ≠ [.register r, .literal l])

theorem convertShiftOpToLut_none {type : BinaryOpType}
    (h : convertShiftOpToLut table op type d = .ok none) (r : Nat) (l : Literal) :
    op.src ≠ [.register r, .literal l] := by
  intro hsrc
  rw [convertShiftOpToLut, hsrc] at h
  simp only [bind_eq_ok_iff] at h
  obtain ⟨_, -, _, -, h⟩ := h
  obtain ⟨_, -, hsome⟩ := map_eq_ok h
  exact nomatch hsome

/-- Pointwise operators of two sources. -/
theorem pointwise_converts {type : BinaryOpType} {inputTable : Nat}
    (hopcode : op.opcode = .binaryOp type) (hshape : ∀ s ∈ op.src, SourceShape table s)
    (hbits : ∀ (x y : Int) (j : Nat),
      inputTable.testBit (indexOfBits [x.testBit j, y.testBit j]) = (exactBinaryOp type x y).testBit j)
    (h : some <$> convertPointwiseOpToLut table op inputTable d = .ok (some entries)) :
    Converts table op.src d entries (exactResult op) := by
  obtain ⟨entries', hentries, hsome⟩ := map_eq_ok h
  cases hsome
  refine convertPointwiseOpToLut_spec hshape (fun values x j _ hx => ?_) hentries
  unfold exactResult at hx
  rw [hopcode] at hx
  obtain ⟨a, b, rfl, -, rfl⟩ := exactBinaryResult_eq_some hx
  rw [inputIndex_two]
  exact hbits _ _ j

theorem pointwise_conversion {type : BinaryOpType} {inputTable : Nat}
    (hopcode : op.opcode = .binaryOp type) (htype : type ∈ [BinaryOpType.and, .or, .xor, .shl])
    (hshape : ∀ s ∈ op.src, SourceShape table s)
    (hbits : ∀ (x y : Int) (j : Nat),
      inputTable.testBit (indexOfBits [x.testBit j, y.testBit j]) = (exactBinaryOp type x y).testBit j)
    (h : some <$> convertPointwiseOpToLut table op inputTable d = .ok (some entries)) :
    Conversion table op d entries := by
  refine .exact (fun type' h' => by rw [hopcode] at h'; exact nomatch h')
    (pointwise_converts hopcode hshape hbits h) (fun type' h' => .inl ?_)
  rw [hopcode, Opcode.binaryOp.injEq] at h'
  exact h' ▸ htype

theorem tabulated_conversion {type : BinaryOpType} (hopcode : op.opcode = .binaryOp type)
    (hshape : ∀ s ∈ op.src, SourceShape table s)
    (hshift : type = .shr → ∀ r l, op.src ≠ [.register r, .literal l])
    (h : convertBinaryOpToLut table op type d = .ok (some entries)) :
    Conversion table op d entries := by
  obtain ⟨hresult, hconverts⟩ := convertBinaryOpToLut_spec hshape h
  exact .tabulated type hopcode hresult hconverts hshift

/-- A shift is tabulated only where its amount is not a literal, or its source is one. -/
theorem shift_conversion {type : BinaryOpType} {shifted : Option (List LutEntry)}
    (hopcode : op.opcode = .binaryOp type) (htype : type = .shl ∨ type = .shr)
    (hshape : ∀ s ∈ op.src, SourceShape table s)
    (hshifted : convertShiftOpToLut table op type d = .ok shifted)
    (hsome : ∀ entries', shifted = some entries' → entries' = entries)
    (hnone : shifted = none → convertBinaryOpToLut table op type d = .ok (some entries)) :
    Conversion table op d entries := by
  cases shifted with
  | none =>
      exact tabulated_conversion hopcode hshape (fun _ => convertShiftOpToLut_none hshifted)
        (hnone rfl)
  | some entries' =>
      obtain rfl := hsome entries' rfl
      obtain ⟨hsrc, hconverts⟩ := convertShiftOpToLut_spec htype hshape hshifted
      refine .exact (fun type' h' => by rw [hopcode] at h'; exact nomatch h')
        (exactResult_binaryOp hopcode ▸ hconverts) fun type' h' => ?_
      rw [hopcode, Opcode.binaryOp.injEq] at h'
      subst h'
      rcases htype with rfl | rfl
      · exact .inl (by simp)
      · exact .inr ⟨rfl, hsrc⟩

theorem binaryOpToLut_conversion {type : BinaryOpType} (hopcode : op.opcode = .binaryOp type)
    (hshape : ∀ s ∈ op.src, SourceShape table s)
    (h : binaryOpToLut table op type d = .ok (some entries)) : Conversion table op d entries := by
  simp only [binaryOpToLut, bind_eq_ok_iff] at h
  obtain ⟨_, -, h⟩ := h
  cases type with
  | and =>
      exact pointwise_conversion hopcode (by simp) hshape (fun x y j => by
        rw [testBit_andTable, exactBinaryOp, Int.testBit_land]) h
  | or =>
      exact pointwise_conversion hopcode (by simp) hshape (fun x y j => by
        rw [testBit_orTable, exactBinaryOp, Int.testBit_lor]) h
  | xor =>
      exact pointwise_conversion hopcode (by simp) hshape (fun x y j => by
        rw [testBit_xorTable, exactBinaryOp, Int.testBit_lxor]) h
  | shl | shr =>
      simp only [bind_eq_ok_iff] at h
      obtain ⟨shifted, hshifted, h⟩ := h
      refine shift_conversion hopcode (by simp) hshape hshifted (fun entries' h' => ?_) fun h' => ?_
      · subst h'
        exact Option.some.inj (Except.ok.inj h)
      · subst h'
        exact h
  | _ => exact tabulated_conversion hopcode hshape (by intro h; cases h) h

theorem convertToLut_conversion (hshape : LoweringShape table op dst)
    (h : convertToLut table op d = .ok (some entries)) : Conversion table op d entries := by
  have hunary : ∀ {inputTable : Nat}, (∀ type, op.opcode = .unaryOp type → type = .invert) →
      (∀ type, op.opcode ≠ .binaryOp type) →
      (∀ values x j, values.length = op.src.length → exactResult op values = some x →
        inputTable.testBit (inputIndex op values j) = x.testBit j) →
      some <$> convertPointwiseOpToLut table op inputTable d = .ok (some entries) →
      Conversion table op d entries := by
    intro inputTable hinvert hbinary hresult h
    obtain ⟨entries', hentries, hsome⟩ := map_eq_ok h
    cases hsome
    exact .exact hinvert (convertPointwiseOpToLut_spec hshape.src_shape hresult hentries)
      fun type htype => absurd htype (hbinary type)
  unfold convertToLut at h
  split at h
  next hop =>
    simp only [bind_eq_ok_iff] at h
    obtain ⟨_, -, h⟩ := h
    refine hunary (by simp [hop]) (by simp [hop]) (fun values x j _ hx => ?_) h
    obtain ⟨a, rfl, rfl⟩ := exactResult_mov hop hx
    rw [inputIndex_one, testBit_passThrough]
  next hop =>
    simp only [bind_eq_ok_iff] at h
    obtain ⟨_, -, h⟩ := h
    refine hunary (by simp [hop]) (by simp [hop]) (fun values x j _ hx => ?_) h
    rw [exactResult_clear hop hx]
    exact (Nat.zero_testBit _).trans (Nat.zero_testBit j).symm
  next type hop =>
    simp only [bind_eq_ok_iff] at h
    obtain ⟨_, -, _, hinvert, h⟩ := h
    have hinvert : type = .invert := of_decide_eq_true (of_assert hinvert)
    subst hinvert
    refine hunary (by simp [hop]) (by simp [hop]) (fun values x j _ hx => ?_) h
    obtain ⟨a, rfl, rfl⟩ := exactResult_invert hop hx
    rw [inputIndex_one, testBit_flip, Int.testBit_lnot]
  next type hop => exact binaryOpToLut_conversion hop hshape.src_shape h
  next hop =>
    exact .exact (by simp [hop]) (convertSelectOpToLut_spec hop hshape.src_shape h) (by simp [hop])
  next gatherEntries hop =>
    obtain ⟨entries', hentries, hsome⟩ := map_eq_ok h
    cases hsome
    have hexact : exactResult op = fun values => some ((gatherBits gatherEntries values : Nat) : Int) := by
      funext values
      unfold exactResult
      rw [hop]
    refine .exact (by simp [hop]) ?_ (by simp [hop])
    rw [hexact]
    exact convertGatherOpToLut_spec (hshape.gather _ hop) hshape.src_shape hentries
  next entries' hop => exact absurd hop (hshape.not_lut entries')
  next => exact nomatch h

theorem Conversion.fits (h : Conversion table op d entries) {entry : LutEntry}
    (hmem : entry ∈ entries) : EntryFits table op.src entry := by
  cases h with
  | exact _ hconverts _ => exact hconverts.fits hmem
  | tabulated _ _ _ hconverts _ => exact hconverts.fits hmem

theorem wellFormed_of_values {a b : Literal} (hshape : ∀ s ∈ op.src, SourceShape table s)
    (hvalues : ValuesOf table op.src [a, b]) : a.WellFormed ∧ b.WellFormed := by
  obtain ⟨regs, h⟩ := hvalues
  have hall := forall₂_of_mapM h
  cases hsrc : op.src with
  | nil => rw [hsrc] at hall; exact nomatch hall
  | cons s0 rest =>
      rw [hsrc] at hall hshape
      obtain ⟨ha, hall⟩ := List.forall₂_cons.mp hall
      cases rest with
      | nil => exact nomatch hall
      | cons s1 rest =>
          obtain ⟨hb, -⟩ := List.forall₂_cons.mp hall
          exact ⟨literalIn_wellFormed (hshape s0 (by simp)) ha,
            literalIn_wellFormed (hshape s1 (by simp)) hb⟩

/-- Where results are tabulated, the entries compute what `ImplementBinaryOp` gives, and that is
    exact unless it is misjudged. -/
theorem tabulated_value {type : BinaryOpType} {a b : Literal}
    (hshape : ∀ s ∈ op.src, SourceShape table s) (hvalues : ValuesOf table op.src [a, b])
    (hresult : ∀ values, ValuesOf table op.src values → ∃ v, rowResult op type d values = .ok v)
    (hconverts : Converts table op.src d entries fun values =>
      (rowResult op type d values).toOption.map Int.ofNat) :
    implementBinaryOp a b d (op.shouldSignExtend 0) (op.shouldSignExtend 1) type
        = .ok (lutBits entries [a, b]) ∧
      (type.Defined (b.denote (op.shouldSignExtend 1)) →
        (lutBits entries [a, b] = truncate (exactBinaryOp type (a.denote (op.shouldSignExtend 0))
            (b.denote (op.shouldSignExtend 1))) d ↔
          ¬ Misjudged a b d (op.shouldSignExtend 0) (op.shouldSignExtend 1) type)) := by
  obtain ⟨ha, hb⟩ := wellFormed_of_values hshape hvalues
  obtain ⟨v, hv⟩ := hresult _ hvalues
  have hbits := hconverts.lutBits_eq (x := Int.ofNat v) hvalues (by rw [hv]; rfl)
  have hv : implementBinaryOp a b d (op.shouldSignExtend 0) (op.shouldSignExtend 1) type = .ok v :=
    hv
  rw [Int.ofNat_eq_natCast, truncate_natCast_of_lt (implementBinaryOp_lt hv)] at hbits
  rw [hbits]
  refine ⟨hv, fun hdef => ?_⟩
  rw [← inRange_iff_not_misjudged ha hb hdef hv,
    ← implementBinaryOp_exact_iff ha hb _ _ (dst_pos_of_ok hv) type hdef, hv, Except.ok.injEq,
    truncate_eq]

theorem Conversion.preserves_iff (hshape : LoweringShape table op dst)
    (h : Conversion table op (dst.width table) entries) :
    Preserves table op dst entries ↔ ¬ MisjudgedIn table op dst := by
  cases h with
  | exact hinvert hconverts htype =>
      refine iff_of_true (fun values v hvalues hv => ?_) ?_
      · obtain ⟨x, hx, rfl⟩ := exactResult_of_combinational hinvert hshape.not_lut hv
        exact hconverts.lutBits_eq hvalues hx
      · rintro ⟨type, a, b, hop, -, hshr, hmis⟩
        rcases htype type hop with hmem | ⟨rfl, r, l, hsrc⟩
        · simp only [List.mem_cons, List.not_mem_nil, or_false] at hmem
          rcases hmem with rfl | rfl | rfl | rfl <;> exact hmis
        · exact hshr rfl r l hsrc
  | tabulated type hop hresult hconverts hshift =>
      constructor
      · rintro hpreserves ⟨type', a, b, hop', hvalues, -, hmis⟩
        rw [hop, Opcode.binaryOp.injEq] at hop'
        subst hop'
        obtain ⟨ha, hb⟩ := wellFormed_of_values hshape.src_shape hvalues
        obtain ⟨hok, hiff⟩ := tabulated_value hshape.src_shape hvalues hresult hconverts
        have hdef := defined_of_misjudged ha hb hmis hok
        refine (hiff hdef).mp (hpreserves _ _ hvalues ?_) hmis
        rw [hop]
        exact if_pos hdef
      · intro hnot values v hvalues hv
        rw [hop] at hv
        obtain ⟨x, hx, rfl⟩ : ∃ x, exactBinaryResult op type values = some x ∧
            v = truncate x (dst.width table) := by
          obtain ⟨x, hx, hv⟩ := @exactResult_of_combinational op (dst.width table)
            values v (by simp [hop]) hshape.not_lut (by rw [hop]; exact hv)
          unfold exactResult at hx
          rw [hop] at hx
          exact ⟨x, hx, hv⟩
        obtain ⟨a, b, rfl, hdef, rfl⟩ := exactBinaryResult_eq_some hx
        obtain ⟨-, hiff⟩ := tabulated_value hshape.src_shape hvalues hresult hconverts
        exact (hiff hdef).mpr fun hmis => hnot ⟨type, a, b, hop, hvalues, hshift, hmis⟩

/-- An operation that is not lowered is left as it is.  One that is lowered becomes a lookup
    table that looks at six bits of registers at most for each bit of the destination, and
    computes the value of the operation exactly where the reference arithmetic, as far as it was
    tabulated, misjudges no values of the sources. -/
theorem lowerToLut_preserves_iff {converted : Bool} {op' : Operation}
    (hshape : LoweringShape table op dst) (h : lowerToLut table op = .ok (converted, op')) :
    (converted = false → op' = op) ∧
    (converted = true → ∃ entries,
      op' = { op with opcode := .lut entries, signExtendSourceMask := 0 } ∧
      (∀ entry ∈ entries, entry.sources.length ≤ maxLutSources ∧ ∀ s ∈ entry.sources,
        ∃ r, op.src[s.1]? = some (.register r) ∧ s.2 < (table.desc r).width) ∧
      (Preserves table op dst entries ↔ ¬ MisjudgedIn table op dst)) := by
  rw [lowerToLut, hshape.dst_eq] at h
  simp only [bind_eq_ok_iff] at h
  obtain ⟨entries?, hentries, h⟩ := h
  cases entries? with
  | none =>
      cases h
      exact ⟨fun _ => rfl, nofun⟩
  | some entries =>
      cases h
      have hconversion := convertToLut_conversion hshape hentries
      refine ⟨nofun, fun _ => ⟨entries, by rw [hshape.dst_eq], fun entry hmem => ?_,
        hconversion.preserves_iff hshape⟩⟩
      have hfits := hconversion.fits hmem
      exact ⟨hfits.length_le, hfits.registers⟩

end Pass

/-- A three-bit comparison for equality, the first source signed. -/
def tripleEquality : Operation :=
  { opcode := .binaryOp .eq, signExtendSourceMask := 1
    src := [.register 0, .register 1], dst := [.register 2] }

def twoTriples : RegisterTable := [localRegister 3, localRegister 3, localRegister 1]

/-- Minus one is not seven, but the table says they are equal. -/
theorem lowerToLut_misjudges :
    combinationalResult (.binaryOp .eq) 1 1 [⟨7, 3⟩, ⟨7, 3⟩] = some 0 ∧
      (lowerToLut twoTriples tripleEquality).map (fun result =>
          (result.1, match result.2.opcode with
            | .lut entries => some (lutBits entries [⟨7, 3⟩, ⟨7, 3⟩])
            | _ => none))
        = .ok (true, some 1) := by
  constructor <;> decide +kernel

/-- A sign-extended bit moved to two bits. -/
def spreadBit : Operation :=
  { opcode := .mov, signExtendSourceMask := 1, src := [.register 0], dst := [.register 1] }

def spreadBitTable : RegisterTable := [localRegister 1, localRegister 2]

theorem spreadBit_shape : LoweringShape spreadBitTable spreadBit (.register 1) where
  dst_eq := rfl
  src_shape := by
    intro s hs
    rw [show s = .register 0 by simpa [spreadBit] using hs]
    exact ⟨by decide, by decide⟩
  gather := nofun
  not_lut := nofun

theorem lowerToLut_preserves_iff_spreadBit :
    ∃ entries, lowerToLut spreadBitTable spreadBit
        = .ok (true, { spreadBit with opcode := .lut entries, signExtendSourceMask := 0 }) ∧
      (Preserves spreadBitTable spreadBit (.register 1) entries ↔
        ¬ MisjudgedIn spreadBitTable spreadBit (.register 1)) := by
  have h : lowerToLut spreadBitTable spreadBit = .ok (true, { spreadBit with
      opcode := .lut [⟨[(0, 0)], 2⟩, ⟨[(0, 0)], 2⟩], signExtendSourceMask := 0 }) := rfl
  obtain ⟨entries, hop, -, hiff⟩ := (lowerToLut_preserves_iff spreadBit_shape h).2 rfl
  exact ⟨entries, hop ▸ h, hiff⟩

end Kanagawa.Optimize
