/-
  Kanagawa.Lower.FifoCodeLossless

  When narrowing a FIFO loses nothing.

  The builder lays the registers of a FIFO out one after the other, in the order of
  the map's keys and without the registers that are not written.  The moves put them
  where the map says.  The two layouts have to be the same for the code to give back
  what was moved.
-/
import Kanagawa.Lower.FifoCode
import Kanagawa.Lib.NatMap
import Kanagawa.Arith.Exact

namespace Kanagawa.Lower

open IR Lib Lib.Except Lib.NatMap

/-! ## Register values of a block -/

/-- `op` moves `srcOp` to the register `dst`, both local, without sign extension. -/
structure LocalMove (table : RegisterTable) (op : Operation) (dst : Nat) (srcOp : SourceOperand) :
    Prop where
  opcode : op.opcode = .mov ∨ op.opcode = .movCrossFunction
  isLocal : operationUsesOnlyLocalReg table op = true
  unsigned : op.signExtendSourceMask = 0
  dst : op.dst = [.register dst]
  src : op.src = [srcOp]

/-- Values of the registers of a block: they fit, and moves between local registers
    have been carried out. -/
structure Consistent (table : RegisterTable) (operations : List Operation) (v : Nat → Nat) :
    Prop where
  fits : ∀ r, v r < 2 ^ (table.desc r).width
  literal : ∀ {op dst l}, op ∈ operations → LocalMove table op dst (.literal l) →
    v dst = l.value % 2 ^ (table.desc dst).width
  register : ∀ {op dst r}, op ∈ operations → LocalMove table op dst (.register r) →
    v dst = v r % 2 ^ (table.desc dst).width

/-- Blocks in which registers have one write location and moves have one source and one
    destination. -/
structure WellFormedMoves (operations : List Operation) : Prop where
  writeOnce : (operations.flatMap Operation.writes).Nodup
  move : ∀ op ∈ operations, op.opcode = .mov ∨ op.opcode = .movCrossFunction →
    op.src.length = 1 ∧ op.dst.length = 1

/-- The moves that are followed are local moves. -/
theorem followedMove_spec (optimizing : Bool) (table : RegisterTable) {op : Operation}
    (h : op.opcode = .mov ∨ op.opcode = .movCrossFunction → op.src.length = 1 ∧ op.dst.length = 1) :
    followedMove optimizing table op = .ok none ∨
      ∃ dst srcOp, followedMove optimizing table op = .ok (some (dst, srcOp)) ∧
        LocalMove table op dst srcOp := by
  rw [followedMove]
  split
  · next hcond =>
      simp only [Bool.and_eq_true, Bool.or_eq_true, beq_iff_eq] at hcond
      obtain ⟨⟨⟨-, hopcode⟩, hlocal⟩, hmask⟩ := hcond
      obtain ⟨hsrc, hdst⟩ := h hopcode
      obtain ⟨dst, hdst⟩ := List.length_eq_one_iff.mp hdst
      obtain ⟨srcOp, hsrc⟩ := List.length_eq_one_iff.mp hsrc
      rcases dst with r | f
      · refine .inr ⟨r, srcOp, ?_, hopcode, hlocal, hmask, hdst, hsrc⟩
        rw [hdst, hsrc]
        rfl
      · left
        rw [hdst]
  · exact .inl rfl

/-! ## What the builder knows -/

/-- What the map of the builder says about a register holds for all register values of
    the block. -/
structure RegisterMapSound (table : RegisterTable) (C : (Nat → Nat) → Prop)
    (registerMap : Std.ExtTreeMap Nat SourceOperand) : Prop where
  shape : ∀ {r : Nat} {srcOp}, registerMap[r]? = some srcOp →
    (∃ l, srcOp = .literal l) ∨ ∃ q, srcOp = .register q
  literal : ∀ {r : Nat} {l}, registerMap[r]? = some (.literal l) →
    ∀ v, C v → v r = l.value % 2 ^ (table.desc r).width
  register : ∀ {r q : Nat}, registerMap[r]? = some (.register q) →
    (table.desc r).width = (table.desc q).width ∧ ∀ v, C v → v r = v q

theorem RegisterMapSound.insert {table : RegisterTable} {C : (Nat → Nat) → Prop}
    {registerMap : Std.ExtTreeMap Nat SourceOperand} (h : RegisterMapSound table C registerMap)
    {dst : Nat} {srcOp : SourceOperand}
    (hshape : (∃ l, srcOp = .literal l) ∨ ∃ q, srcOp = .register q)
    (hliteral : ∀ l, srcOp = .literal l → ∀ v, C v → v dst = l.value % 2 ^ (table.desc dst).width)
    (hregister : ∀ q, srcOp = .register q → (table.desc dst).width = (table.desc q).width ∧
      ∀ v, C v → v dst = v q) :
    RegisterMapSound table C (registerMap.insert dst srcOp) := by
  refine ⟨?_, ?_, ?_⟩
  · intro r srcOp' hr
    rw [getElem?_insert] at hr
    split at hr
    · cases hr
      exact hshape
    · exact h.shape hr
  · intro r l hr
    rw [getElem?_insert] at hr
    split at hr
    · next heq =>
        subst heq
        exact hliteral l (Option.some.inj hr)
    · exact h.literal hr
  · intro r q hr
    rw [getElem?_insert] at hr
    split at hr
    · next heq =>
        subst heq
        exact hregister q (Option.some.inj hr)
    · exact h.register hr

/-- One operation of the block. -/
theorem processOperation_spec (optimizing : Bool) {table : RegisterTable}
    {operations : List Operation} {fcb : FifoCodeBuilder} {op : Operation}
    (hmoves : WellFormedMoves operations) (hop : op ∈ operations)
    (hsound : RegisterMapSound table (Consistent table operations) fcb.registerMap)
    (hfresh : ∀ r ∈ op.writes, fcb.registerMap[r]? = none) :
    ∃ fcb', fcb.processOperation optimizing table op = .ok fcb' ∧
      RegisterMapSound table (Consistent table operations) fcb'.registerMap ∧
      ∀ r ∉ op.writes, fcb'.registerMap[r]? = fcb.registerMap[r]? := by
  rw [FifoCodeBuilder.processOperation]
  rcases followedMove_spec optimizing table (hmoves.move op hop) with hnone | ⟨dst, srcOp, hok, hmove⟩
  · exact ⟨fcb, by rw [hnone]; rfl, hsound, fun r _ => rfl⟩
  have hdst : dst ∈ op.writes := by simp [Operation.writes, hmove.dst, DestinationOperand.register?]
  have hframe : ∀ (srcOp : SourceOperand), ∀ r ∉ op.writes,
      (fcb.registerMap.insert dst srcOp)[r]? = fcb.registerMap[r]? := by
    intro srcOp r hr
    rw [getElem?_insert, if_neg (fun heq : dst = r => hr (heq ▸ hdst))]
  rw [hok, ok_bind]
  rcases srcOp with l | q | f | t
  · refine ⟨{ fcb with registerMap := fcb.registerMap.insert dst (.literal l) }, ?_, ?_, hframe _⟩
    · simp only [safeInsert_of_none (hfresh dst hdst), ok_bind, pure_eq_ok]
    · refine hsound.insert (.inl ⟨l, rfl⟩) ?_ (fun q heq => by cases heq)
      rintro _ ⟨⟩ v hv
      exact hv.literal hop hmove
  · by_cases hwidth : (table.desc q).width = (table.desc dst).width
    · refine ⟨{ fcb with registerMap :=
        fcb.registerMap.insert dst (fcb.registerMap.getD q (.register q)) }, ?_, ?_, hframe _⟩
      · simp only [hwidth, beq_self_eq_true, if_true, safeInsert_of_none (hfresh dst hdst), ok_bind,
          pure_eq_ok]
      · -- a move between registers of one width copies the value
        have hcopy : ∀ v, Consistent table operations v → v dst = v q := by
          intro v hv
          rw [hv.register hop hmove, ← hwidth]
          exact Nat.mod_eq_of_lt (hv.fits q)
        rcases hq : fcb.registerMap[q]? with _ | srcOp
        · rw [getD_of_none hq]
          refine hsound.insert (.inr ⟨q, rfl⟩) (fun l heq => by cases heq) ?_
          rintro _ ⟨⟩
          exact ⟨hwidth.symm, hcopy⟩
        · rw [getD_of_some hq]
          refine hsound.insert (hsound.shape hq) ?_ ?_
          · rintro l rfl v hv
            rw [hcopy v hv, hsound.literal hq v hv, hwidth]
          · rintro q' rfl
            obtain ⟨hw, heq⟩ := hsound.register hq
            exact ⟨by rw [← hw, hwidth], fun v hv => (hcopy v hv).trans (heq v hv)⟩
    · refine ⟨fcb, ?_, hsound, fun r _ => rfl⟩
      simp [hwidth]
  · exact ⟨fcb, rfl, hsound, fun r _ => rfl⟩
  · exact ⟨fcb, rfl, hsound, fun r _ => rfl⟩

/-- All operations of the block. -/
theorem processOperations_spec (optimizing : Bool) (table : RegisterTable)
    {operations : List Operation} (hmoves : WellFormedMoves operations) :
    ∃ fcb, processOperations optimizing table operations = .ok fcb ∧
      RegisterMapSound table (Consistent table operations) fcb.registerMap := by
  -- registers written later are not in the map yet
  have hrun : ∀ (rest : List Operation) (fcb : FifoCodeBuilder), (∀ op ∈ rest, op ∈ operations) →
      (rest.flatMap Operation.writes).Nodup →
      (∀ r ∈ rest.flatMap Operation.writes, fcb.registerMap[r]? = none) →
      RegisterMapSound table (Consistent table operations) fcb.registerMap →
      ∃ fcb', rest.foldlM (fun fcb op => fcb.processOperation optimizing table op) fcb = .ok fcb' ∧
        RegisterMapSound table (Consistent table operations) fcb'.registerMap := by
    intro rest
    induction rest with
    | nil => exact fun fcb _ _ _ hsound => ⟨fcb, rfl, hsound⟩
    | cons op rest ih =>
        intro fcb hsub hnodup hfresh hsound
        rw [List.flatMap_cons] at hnodup hfresh
        obtain ⟨fcb₁, hok₁, hsound₁, hframe₁⟩ := processOperation_spec optimizing
          hmoves (hsub op List.mem_cons_self) hsound
          (fun r hr => hfresh r (List.mem_append_left _ hr))
        have hfresh₁ : ∀ r ∈ rest.flatMap Operation.writes, fcb₁.registerMap[r]? = none := by
          intro r hr
          rw [hframe₁ r (fun hw => List.disjoint_of_nodup_append hnodup hw hr)]
          exact hfresh r (List.mem_append_right _ hr)
        obtain ⟨fcb₂, hok₂, hsound₂⟩ := ih fcb₁ (fun o ho => hsub o (List.mem_cons_of_mem _ ho))
          (List.nodup_append.mp hnodup).2.1 hfresh₁ hsound₁
        exact ⟨fcb₂, by rw [List.foldlM_cons, hok₁, ok_bind, hok₂], hsound₂⟩
  refine hrun operations {} (fun _ h => h) hmoves.writeOnce ?_ ?_
  · intro r _
    simp
  · refine ⟨?_, ?_, ?_⟩
    · intro r srcOp hr
      simp at hr
    · intro r l hr
      simp at hr
    · intro r q hr
      simp at hr

/-! ## Input ranges -/

/-- The set holds the offsets of the input ranges so far. -/
theorem mem_coveredRanges (outputRanges : List FifoCodeOutputRange) (e : Nat) :
    e ∈ (outputRanges.foldl coverRange (∅, [])).1 ↔
      ∃ ι ∈ inputRangesOf outputRanges, ι.encodedOffset = e := by
  induction outputRanges using List.reverseRecOn with
  | nil => simp [inputRangesOf]
  | append_singleton outputRanges x ih =>
      rw [inputRangesOf] at ih ⊢
      rw [List.foldl_concat, coverRange]
      split
      · exact ih
      · split
        · exact ih
        · rw [Std.ExtTreeSet.mem_insert, ih, Std.LawfulEqCmp.compare_eq_iff_eq]
          simp only [List.mem_append, List.mem_singleton, or_and_right, exists_or, exists_eq_left]
          exact or_comm

/-- The first output range of a physical range gives an input range, later ones do not. -/
theorem inputRangesOf_concat (outputRanges : List FifoCodeOutputRange) (x : FifoCodeOutputRange) :
    inputRangesOf (outputRanges ++ [x]) =
      if x.isLiteral then inputRangesOf outputRanges
      else if ∃ ι ∈ inputRangesOf outputRanges, ι.encodedOffset = x.encodedOffset then
        inputRangesOf outputRanges
      else inputRangesOf outputRanges ++ [x.toInput] := by
  rw [inputRangesOf, List.foldl_concat, coverRange]
  simp only [Std.ExtTreeSet.contains_iff_mem, mem_coveredRanges]
  split
  · rfl
  · split <;> rfl

/-! ## The invariant of the encoding -/

/-- A register and the offset the map assigns to it, with the output range it gets. -/
abbrev Encoded := (Nat × Nat) × FifoCodeOutputRange

/-- The logical ranges, as the builder lays them out. -/
def logicalRanges (pairs : List Encoded) : List (Nat × Nat) :=
  pairs.map fun p => (p.2.decodedOffset, p.2.width)

/-- The physical ranges. -/
def physicalRanges (inputRanges : List FifoCodeInputRange) : List (Nat × Nat) :=
  inputRanges.map fun ι => (ι.encodedOffset, ι.width)

/-- `p` gives an input range that holds the value of the register `r`. -/
structure Stores (C : (Nat → Nat) → Prop) (inputRanges : List FifoCodeInputRange) (p : Encoded)
    (r width encodedOffset : Nat) : Prop where
  mem : p.2.toInput ∈ inputRanges
  offset : p.2.encodedOffset = encodedOffset
  width : p.2.width = width
  value : ∀ v, C v → v p.1.1 = v r

/-- What holds after the registers in `pairs` have been encoded. -/
structure EncodeInvariant (table : RegisterTable) (C : (Nat → Nat) → Prop)
    (registerMap : Std.ExtTreeMap Nat SourceOperand) (pairs : List Encoded)
    (fcb : FifoCodeBuilder) : Prop where
  registerMap_eq : fcb.registerMap = registerMap
  code : fcb.fifoCode = { outputRanges := pairs.map Prod.snd }
  decoded : Consecutive 0 (logicalRanges pairs)
  logical : fcb.logicalBitsEncoded = totalWidth (logicalRanges pairs)
  encoded : Consecutive 0 (physicalRanges (inputRangesOf (pairs.map Prod.snd)))
  physical : fcb.physicalBitsEncoded =
    totalWidth (physicalRanges (inputRangesOf (pairs.map Prod.snd)))
  width : ∀ p ∈ pairs, p.2.width = (table.desc p.1.1).width
  isLiteral : ∀ p ∈ pairs, p.2.isLiteral = true ↔ ∃ l, registerMap[p.1.1]? = some (.literal l)
  literal : ∀ p ∈ pairs, ∀ l, registerMap[p.1.1]? = some (.literal l) →
    p.2.literal = l.value % 2 ^ (table.desc p.1.1).width
  stored : ∀ p ∈ pairs, p.2.isLiteral = false → ∃ p' ∈ pairs,
    Stores C (inputRangesOf (pairs.map Prod.snd)) p' p.1.1 p.2.width p.2.encodedOffset
  encodeMap : ∀ {q first offset : Nat}, fcb.encodeMap[q]? = some (first, offset) →
    ∃ p ∈ pairs, p.1.1 = first ∧
      Stores C (inputRangesOf (pairs.map Prod.snd)) p q (table.desc q).width offset

section

variable {table : RegisterTable} {C : (Nat → Nat) → Prop}
  {registerMap : Std.ExtTreeMap Nat SourceOperand} {pairs : List Encoded} {fcb : FifoCodeBuilder}

theorem EncodeInvariant.start (fcb : FifoCodeBuilder) :
    EncodeInvariant table C fcb.registerMap [] fcb.beginEncode := by
  refine ⟨rfl, rfl, trivial, rfl, trivial, rfl, ?_, ?_, ?_, ?_, ?_⟩
  · simp
  · simp
  · simp
  · simp
  · intro q first offset h
    simp [FifoCodeBuilder.beginEncode] at h

/-- Input ranges come from the output ranges. -/
theorem exists_of_mem_inputRangesOf {outputRanges : List FifoCodeOutputRange}
    {ι : FifoCodeInputRange} (h : ι ∈ inputRangesOf outputRanges) :
    ∃ x ∈ outputRanges, x.toInput = ι := by
  induction outputRanges using List.reverseRecOn with
  | nil => simp [inputRangesOf] at h
  | append_singleton outputRanges x ih =>
      rw [inputRangesOf_concat] at h
      have hold : ι ∈ inputRangesOf outputRanges → ∃ y ∈ outputRanges ++ [x], y.toInput = ι := by
        intro hι
        obtain ⟨y, hy, heq⟩ := ih hι
        exact ⟨y, List.mem_append_left _ hy, heq⟩
      split at h
      · exact hold h
      · split at h
        · exact hold h
        · rcases List.mem_append.mp h with hι | hι
          · exact hold hι
          · rw [List.mem_singleton] at hι
            exact ⟨x, by simp, hι.symm⟩

/-- Input ranges lie in the physical word, so the next free offset is not covered. -/
theorem EncodeInvariant.not_covered (h : EncodeInvariant table C registerMap pairs fcb)
    (hpos : ∀ p ∈ pairs, 0 < (table.desc p.1.1).width) :
    ¬ ∃ ι ∈ inputRangesOf (pairs.map Prod.snd), ι.encodedOffset = fcb.physicalBitsEncoded := by
  rintro ⟨ι, hι, heq⟩
  obtain ⟨x, hx, rfl⟩ := exists_of_mem_inputRangesOf hι
  obtain ⟨p, hp, rfl⟩ := List.mem_map.mp hx
  have hbound := (h.encoded.bounds (List.mem_map.mpr ⟨_, hι, rfl⟩)).2
  have hwidth := hpos p hp
  rw [← h.width p hp] at hwidth
  rw [← h.physical] at hbound
  simp only [FifoCodeOutputRange.toInput] at heq hbound
  omega

theorem logicalRanges_concat (pairs : List Encoded) (p : Encoded) :
    logicalRanges (pairs ++ [p]) = logicalRanges pairs ++ [(p.2.decodedOffset, p.2.width)] := by
  simp [logicalRanges]

theorem Stores.mono {inputRanges inputRanges' : List FifoCodeInputRange}
    (hsub : ∀ ι ∈ inputRanges, ι ∈ inputRanges') {p : Encoded} {r width encodedOffset : Nat}
    (h : Stores C inputRanges p r width encodedOffset) :
    Stores C inputRanges' p r width encodedOffset :=
  ⟨hsub _ h.mem, h.offset, h.width, h.value⟩

/-- What the next register needs, whatever range it gets. -/
structure NextRange (table : RegisterTable) (registerMap : Std.ExtTreeMap Nat SourceOperand)
    (fcb : FifoCodeBuilder) (r : Nat) (x : FifoCodeOutputRange) : Prop where
  width : x.width = (table.desc r).width
  decodedOffset : x.decodedOffset = fcb.logicalBitsEncoded
  isLiteral : x.isLiteral = true ↔ ∃ l, registerMap[r]? = some (.literal l)
  literal : ∀ l, registerMap[r]? = some (.literal l) →
    x.literal = l.value % 2 ^ (table.desc r).width

/-- The next register, with the input ranges it adds. -/
theorem EncodeInvariant.push (h : EncodeInvariant table C registerMap pairs fcb) {r o : Nat}
    {x : FifoCodeOutputRange} (hx : NextRange table registerMap fcb r x)
    {fcb' : FifoCodeBuilder} (hregisterMap : fcb'.registerMap = fcb.registerMap)
    (hcode : fcb'.fifoCode = (fcb.push x).fifoCode)
    (hlogical : fcb'.logicalBitsEncoded = fcb.logicalBitsEncoded + x.width)
    (hsub : ∀ ι ∈ inputRangesOf (pairs.map Prod.snd),
      ι ∈ inputRangesOf (pairs.map Prod.snd ++ [x]))
    (hencoded : Consecutive 0 (physicalRanges (inputRangesOf (pairs.map Prod.snd ++ [x]))))
    (hphysical : fcb'.physicalBitsEncoded =
      totalWidth (physicalRanges (inputRangesOf (pairs.map Prod.snd ++ [x]))))
    (hstored : x.isLiteral = false → ∃ p ∈ pairs ++ [((r, o), x)],
      Stores C (inputRangesOf (pairs.map Prod.snd ++ [x])) p r x.width x.encodedOffset)
    (hencodeMap : ∀ {q first offset : Nat}, fcb'.encodeMap[q]? = some (first, offset) →
      fcb.encodeMap[q]? = some (first, offset) ∨ ∃ p ∈ pairs ++ [((r, o), x)], p.1.1 = first ∧
        Stores C (inputRangesOf (pairs.map Prod.snd ++ [x])) p q (table.desc q).width offset) :
    EncodeInvariant table C registerMap (pairs ++ [((r, o), x)]) fcb' := by
  have hmap : (pairs ++ [((r, o), x)]).map Prod.snd = pairs.map Prod.snd ++ [x] := by simp
  have hnew : ((r, o), x) ∈ pairs ++ [((r, o), x)] := by simp
  refine ⟨hregisterMap.trans h.registerMap_eq, ?_, ?_, ?_, ?_, ?_, ?_, ?_, ?_, ?_, ?_⟩
  · rw [hcode, FifoCodeBuilder.push, h.code, hmap]
  · rw [logicalRanges_concat, hx.decodedOffset, h.logical]
    simpa using h.decoded.concat x.width
  · rw [logicalRanges_concat, totalWidth_append, hlogical, h.logical]
    simp
  · rw [hmap]
    exact hencoded
  · rw [hmap]
    exact hphysical
  · intro p hp
    rcases List.mem_append.mp hp with hp | hp
    · exact h.width p hp
    · rw [List.mem_singleton.mp hp]
      exact hx.width
  · intro p hp
    rcases List.mem_append.mp hp with hp | hp
    · exact h.isLiteral p hp
    · rw [List.mem_singleton.mp hp]
      exact hx.isLiteral
  · intro p hp
    rcases List.mem_append.mp hp with hp | hp
    · exact h.literal p hp
    · rw [List.mem_singleton.mp hp]
      exact hx.literal
  · intro p hp hliteral
    rw [hmap]
    rcases List.mem_append.mp hp with hp | hp
    · obtain ⟨p', hp', hstores⟩ := h.stored p hp hliteral
      exact ⟨p', List.mem_append_left _ hp', hstores.mono hsub⟩
    · rw [List.mem_singleton.mp hp] at hliteral ⊢
      exact hstored hliteral
  · intro q first offset hq
    rw [hmap]
    rcases hencodeMap hq with hold | hnew
    · obtain ⟨p, hp, hfirst, hstores⟩ := h.encodeMap hold
      exact ⟨p, List.mem_append_left _ hp, hfirst, hstores.mono hsub⟩
    · exact hnew

/-- A register that takes no room in the physical word. -/
theorem EncodeInvariant.pushOld (h : EncodeInvariant table C registerMap pairs fcb) {r o : Nat}
    {x : FifoCodeOutputRange} (hx : NextRange table registerMap fcb r x)
    (hold : x.isLiteral = true ∨ ∃ p ∈ pairs,
      Stores C (inputRangesOf (pairs.map Prod.snd)) p r x.width x.encodedOffset) :
    EncodeInvariant table C registerMap (pairs ++ [((r, o), x)]) (fcb.push x) := by
  have hins : inputRangesOf (pairs.map Prod.snd ++ [x]) = inputRangesOf (pairs.map Prod.snd) := by
    rw [inputRangesOf_concat]
    rcases hold with hliteral | ⟨p, hp, hstores⟩
    · rw [if_pos hliteral]
    · have hcovered : ∃ ι ∈ inputRangesOf (pairs.map Prod.snd), ι.encodedOffset = x.encodedOffset :=
        ⟨_, hstores.mem, hstores.offset⟩
      rw [if_pos hcovered, ite_self]
  refine h.push hx rfl rfl rfl ?_ ?_ ?_ ?_ (fun hq => .inl hq)
  · rw [hins]
    exact fun ι hι => hι
  · rw [hins]
    exact h.encoded
  · rw [hins]
    exact h.physical
  · intro hliteral
    rw [hins]
    rcases hold with hliteral' | ⟨p, hp, hstores⟩
    · rw [hliteral] at hliteral'
      cases hliteral'
    · exact ⟨p, List.mem_append_left _ hp, hstores⟩

/-- A register that is stored at the next free offset. -/
theorem EncodeInvariant.pushNew (h : EncodeInvariant table C registerMap pairs fcb) {r o : Nat}
    (hpos : ∀ p ∈ pairs, 0 < (table.desc p.1.1).width)
    {x : FifoCodeOutputRange} (hx : NextRange table registerMap fcb r x)
    (hliteral : x.isLiteral = false) (hoffset : x.encodedOffset = fcb.physicalBitsEncoded)
    {encodeMap : Std.ExtTreeMap Nat (Nat × Nat)}
    (hencodeMap : ∀ {q first offset : Nat}, encodeMap[q]? = some (first, offset) →
      fcb.encodeMap[q]? = some (first, offset) ∨ (first = r ∧ offset = fcb.physicalBitsEncoded ∧
        (table.desc r).width = (table.desc q).width ∧ ∀ v, C v → v r = v q)) :
    EncodeInvariant table C registerMap (pairs ++ [((r, o), x)])
      { fcb.push x with
        encodeMap := encodeMap
        physicalBitsEncoded := fcb.physicalBitsEncoded + x.width } := by
  have hins : inputRangesOf (pairs.map Prod.snd ++ [x]) =
      inputRangesOf (pairs.map Prod.snd) ++ [x.toInput] := by
    rw [inputRangesOf_concat, hliteral, if_neg (by simp), hoffset, if_neg (h.not_covered hpos)]
  have hranges : physicalRanges (inputRangesOf (pairs.map Prod.snd) ++ [x.toInput]) =
      physicalRanges (inputRangesOf (pairs.map Prod.snd)) ++
        [(fcb.physicalBitsEncoded, x.width)] := by
    simp [physicalRanges, FifoCodeOutputRange.toInput, hoffset]
  have hself : ∀ q, (∀ v, C v → v r = v q) →
      Stores C (inputRangesOf (pairs.map Prod.snd ++ [x])) ((r, o), x) q x.width
        x.encodedOffset := by
    intro q hq
    exact ⟨by rw [hins]; simp, rfl, rfl, hq⟩
  refine h.push hx rfl rfl rfl ?_ ?_ ?_ ?_ ?_
  · rw [hins]
    exact fun ι hι => List.mem_append_left _ hι
  · rw [hins, hranges, h.physical]
    simpa using h.encoded.concat x.width
  · rw [hins, hranges, totalWidth_append, ← h.physical]
    simp
  · intro _
    exact ⟨((r, o), x), by simp, hself r (fun v _ => rfl)⟩
  · intro q first offset hq
    rcases hencodeMap hq with hold | ⟨rfl, rfl, hwidth, hvalue⟩
    · exact .inl hold
    · refine .inr ⟨((first, o), x), by simp, rfl, ?_⟩
      rw [← hwidth, ← hx.width, ← hoffset]
      exact hself q hvalue

/-! ## One register -/

/-- What `EncodeReg` does to the state of `CopyToFifo`. -/
structure EncodeRegSpec (table : RegisterTable) (C : (Nat → Nat) → Prop)
    (registerMap : Std.ExtTreeMap Nat SourceOperand) (pairs : List Encoded) (s : CopyState)
    (r o : Nat) (s' : CopyState) (literalValue : Option Literal) : Prop where
  invariant : ∃ x, EncodeInvariant table C registerMap (pairs ++ [((r, o), x)]) s'.fcb
  grows : table <+: s'.registerTable
  operations : ∃ asserts, s'.operations = asserts ++ s.operations ∧
    ∀ op ∈ asserts, op.opcode = .assert
  value : ∀ l ∈ literalValue, ∀ v, C v → l.value = v r

/-- Only registers of the table have a width. -/
theorem lt_length_of_width_pos {q : Nat} (h : 0 < (table.desc q).width) : q < table.length := by
  by_contra hge
  rw [RegisterTable.desc, List.getD_eq_default _ _ (by omega)] at h
  exact absurd h (by decide)

theorem encodeReg_spec {s : CopyState}
    (h : EncodeInvariant table C registerMap pairs s.fcb) (hgrows : table <+: s.registerTable)
    (hsound : RegisterMapSound table C registerMap)
    (hpos : ∀ p ∈ pairs, 0 < (table.desc p.1.1).width) {r : Nat}
    (hr : 0 < (table.desc r).width) (o : Nat) :
    ∃ s' literalValue, encodeReg s r = .ok (s', literalValue) ∧
      EncodeRegSpec table C registerMap pairs s r o s' literalValue := by
  have hdesc : ∀ {q}, 0 < (table.desc q).width → s.registerTable.desc q = table.desc q :=
    fun hq => desc_of_grow hgrows (lt_length_of_width_pos hq)
  rw [encodeReg, h.registerMap_eq, hdesc hr]
  rcases hx : registerMap[r]? with _ | srcOp
  · -- nothing is known about the register
    have hnext : NextRange table registerMap s.fcb r
        ⟨(table.desc r).width, s.fcb.logicalBitsEncoded, false, s.fcb.physicalBitsEncoded, 0⟩ :=
      ⟨rfl, rfl, by simp [hx], by simp [hx]⟩
    exact ⟨_, _, rfl, ⟨_, h.pushNew hpos hnext rfl rfl (fun hq => .inl hq)⟩, hgrows,
      ⟨[], rfl, by simp⟩, by simp⟩
  rcases hsound.shape hx with ⟨l, rfl⟩ | ⟨q, rfl⟩
  · have hnext : NextRange table registerMap s.fcb r
        ⟨(table.desc r).width, s.fcb.logicalBitsEncoded, true, 0,
          truncate l.value (table.desc r).width⟩ := by
      refine ⟨rfl, rfl, by simp [hx], ?_⟩
      intro l' hl'
      rw [hx] at hl'
      cases hl'
      exact truncate_natCast _ _
    refine ⟨_, _, rfl, ⟨_, h.pushOld hnext (.inl rfl)⟩, hgrows, ⟨[], rfl, by simp⟩, ?_⟩
    rintro _ ⟨⟩ v hv
    rw [hsound.literal hx v hv]
    exact truncate_natCast _ _
  · -- the register is a copy of `q`
    obtain ⟨hwidth, hvalue⟩ := hsound.register hx
    have hassert : assert ((table.desc r).width == (s.registerTable.desc q).width) = .ok () := by
      rw [hdesc (hwidth ▸ hr)]
      exact assert_of_true (beq_iff_eq.mpr hwidth)
    have hnext : ∀ offset, NextRange table registerMap s.fcb r
        ⟨(table.desc r).width, s.fcb.logicalBitsEncoded, false, offset, 0⟩ :=
      fun offset => ⟨rfl, rfl, by simp [hx], by simp [hx]⟩
    simp only [hassert, ok_bind]
    rcases hq : s.fcb.encodeMap[q]? with _ | ⟨first, offset⟩
    · have hmap : ∀ {q' first offset : Nat},
          (s.fcb.encodeMap.insert q (r, s.fcb.physicalBitsEncoded))[q']? = some (first, offset) →
          s.fcb.encodeMap[q']? = some (first, offset) ∨ (first = r ∧
            offset = s.fcb.physicalBitsEncoded ∧ (table.desc r).width = (table.desc q').width ∧
            ∀ v, C v → v r = v q') := by
        intro q' first offset hq'
        rw [getElem?_insert] at hq'
        split at hq'
        · next heq =>
            cases heq
            cases hq'
            exact .inr ⟨rfl, rfl, hwidth, hvalue⟩
        · exact .inl hq'
      simp only [safeInsert_of_none hq, ok_bind]
      exact ⟨_, _, rfl, ⟨_, h.pushNew hpos (hnext _) rfl rfl hmap⟩, hgrows, ⟨[], rfl, by simp⟩,
        by simp⟩
    · -- a copy of `q` is in the fifo already
      obtain ⟨p, hp, hfirst, hstores⟩ := h.encodeMap hq
      have hstores' : Stores C (inputRangesOf (pairs.map Prod.snd)) p r (table.desc r).width
          offset := by
        refine ⟨hstores.mem, hstores.offset, hstores.width.trans hwidth.symm, ?_⟩
        intro v hv
        rw [hstores.value v hv, hvalue v hv]
      refine ⟨_, _, rfl, ⟨_, h.pushOld (hnext offset) (.inr ⟨p, hp, hstores'⟩)⟩, ?_,
        ⟨[duplicateAssert r first], rfl, ?_⟩, by simp⟩
      · exact hgrows.trans (List.prefix_append _ _)
      · simp [duplicateAssert]

end

/-! ## All registers of a FIFO -/

/-- The local register of the block that the map's register is renamed to. -/
def CopyInput.localRegister (input : CopyInput) (registerIndex : Nat) : Nat :=
  optionallyMapIndex registerIndex input.originalToRenamedMap

/-- The register that is written for an entry of the map, with its offset. -/
def CopyInput.writtenRegister (input : CopyInput) (p : Nat × Nat) : Option (Nat × Nat) :=
  (input.sourceRegisterIndexMap[input.localRegister p.1]?).map fun r => (r, p.2)

/-- The registers that are written, in the order of the map, with their offsets. -/
def CopyInput.writtenRegisters (input : CopyInput) : List (Nat × Nat) :=
  input.destFifoOffsetMap.toList.filterMap input.writtenRegister

/-- The ranges of the logical word that the map assigns to them. -/
def CopyInput.slots (table : RegisterTable) (input : CopyInput) : List (Nat × Nat) :=
  input.writtenRegisters.map fun p => (p.2, (table.desc p.1).width)

/-- What callers of `CopyToFifo` provide: a local register and its register in the
    pipeline have one width, registers missing in the source may be skipped, and the
    map gives disjoint ranges to distinct registers. -/
structure WellFormedInput (table : RegisterTable) (input : CopyInput) : Prop where
  width : ∀ p ∈ input.destFifoOffsetMap.toList, ∀ r,
    input.sourceRegisterIndexMap[input.localRegister p.1]? = some r →
    (table.desc (input.localRegister p.1)).width = (table.desc r).width ∧
      0 < (table.desc r).width
  isLocal : ∀ p ∈ input.writtenRegisters, RegisterTable.isLocal table p.1 = true
  skip : ∀ p ∈ input.destFifoOffsetMap.toList,
    input.sourceRegisterIndexMap[input.localRegister p.1]? = none →
    input.canSkipFifoWrites (input.localRegister p.1) = true
  distinct : (input.writtenRegisters.map Prod.fst).Nodup
  disjoint : (input.slots table).Pairwise fun a b => a.1 + a.2 ≤ b.1 ∨ b.1 + b.2 ≤ a.1

section

variable {table : RegisterTable} {C : (Nat → Nat) → Prop}
  {registerMap : Std.ExtTreeMap Nat SourceOperand} {input : CopyInput}

theorem WellFormedInput.written_pos (h : WellFormedInput table input) {p : Nat × Nat}
    (hp : p ∈ input.writtenRegisters) : 0 < (table.desc p.1).width := by
  obtain ⟨q, hq, heq⟩ := List.mem_filterMap.mp hp
  obtain ⟨r, hr, rfl⟩ := Option.map_eq_some_iff.mp heq
  exact (h.width q hq r hr).2

/-- The slice of the logical word that a written register gets. -/
def registerSlice (table : RegisterTable) (v : Nat → Nat) (p : Nat × Nat) : Slice :=
  ⟨p.2, (table.desc p.1).width, (v p.1).testBit⟩

/-- What holds after the registers in `done` have been copied. -/
structure CopyInvariant (table : RegisterTable) (C : (Nat → Nat) → Prop)
    (registerMap : Std.ExtTreeMap Nat SourceOperand) (input : CopyInput) (stage : List Operation)
    (done : List (Nat × Nat)) (s : CopyState) : Prop where
  encoded : ∃ pairs : List Encoded, pairs.map Prod.fst = done ∧
    EncodeInvariant table C registerMap pairs s.fcb
  grows : table <+: s.registerTable
  moves : ∀ v, C v → s.operations.filterMap (fifoSlice input.dstFifoIndex v) =
    (done.map (registerSlice table v)).reverse ++
      stage.filterMap (fifoSlice input.dstFifoIndex v)

/-- One round of the loop of `CopyToFifo`. -/
theorem copyRegister_spec (hinput : WellFormedInput table input)
    (hsound : RegisterMapSound table C registerMap) {stage : List Operation}
    {done : List (Nat × Nat)} {s : CopyState}
    (h : CopyInvariant table C registerMap input stage done s)
    (hdone : ∀ p ∈ done, p ∈ input.writtenRegisters) {p : Nat × Nat}
    (hp : p ∈ input.destFifoOffsetMap.toList) :
    ∃ s', copyRegister input s p = .ok s' ∧ CopyInvariant table C registerMap input stage
      (done ++ (input.writtenRegister p).toList) s' := by
  obtain ⟨⟨pairs, hpairs, hencoded⟩, hgrows, hmoves⟩ := h
  rw [copyRegister, CopyInput.writtenRegister, ← CopyInput.localRegister]
  rcases hr : input.sourceRegisterIndexMap[input.localRegister p.1]? with _ | r
  · refine ⟨s, ?_, ?_⟩
    · simp only [assert_of_true (hinput.skip p hp hr), ok_bind, pure_eq_ok]
    · simpa using ⟨⟨pairs, hpairs, hencoded⟩, hgrows, hmoves⟩
  obtain ⟨hwidth, hpos⟩ := hinput.width p hp r hr
  have hpairsPos : ∀ q ∈ pairs, 0 < (table.desc q.1.1).width := by
    intro q hq
    apply hinput.written_pos (hdone q.1 _)
    rw [← hpairs]
    exact List.mem_map_of_mem hq
  obtain ⟨s₁, literalValue, hok, ⟨x, hx⟩, hgrows₁, ⟨asserts, hops, hasserts⟩, hvalue⟩ :=
    encodeReg_spec hencoded hgrows hsound hpairsPos hpos p.2
  have hdesc : (s₁.registerTable.desc (input.localRegister p.1)).width = (table.desc r).width := by
    rw [desc_of_grow hgrows₁ (lt_length_of_width_pos (hwidth ▸ hpos)), hwidth]
  simp only [hok, ok_bind, pure_eq_ok, hdesc, Option.map_some, Option.toList_some]
  refine ⟨_, rfl, ⟨_, ?_, hx⟩, hgrows₁, ?_⟩
  · rw [List.map_append, hpairs]
    rfl
  · intro v hv
    have hassert : asserts.filterMap (fifoSlice input.dstFifoIndex v) = [] := by
      rw [List.filterMap_eq_nil_iff]
      intro op hop
      simp [fifoSlice, hasserts op hop]
    have hoperand : operandValue v (moveSource literalValue r) = v r := by
      rcases literalValue with _ | l
      · rfl
      · exact hvalue l rfl v hv
    have hslice : fifoSlice input.dstFifoIndex v
        { opcode := .mov
          src := [moveSource literalValue r]
          dst := [.fifo ⟨input.dstFifoIndex, p.2, (table.desc r).width⟩] } =
        some (registerSlice table v (r, p.2)) := by
      simp only [fifoSlice, if_true, hoperand, registerSlice]
    rw [List.filterMap_cons_some hslice, hops, List.filterMap_append, hassert, List.nil_append,
      hmoves v hv]
    simp

/-- The code of a list of encoded registers. -/
def codeOf (pairs : List Encoded) : FifoCode :=
  { initialized := true
    encodedWidth := totalWidth (physicalRanges (inputRangesOf (pairs.map Prod.snd)))
    inputRanges := inputRangesOf (pairs.map Prod.snd)
    outputRanges := pairs.map Prod.snd }

/-- `CopyToFifo` on a FIFO without a code. -/
theorem copyToFifo_spec (hinput : WellFormedInput table input) {fcb : FifoCodeBuilder}
    (hsound : RegisterMapSound table C fcb.registerMap) (stage : List Operation) :
    ∃ s pairs, copyToFifo input {} ⟨fcb, table, stage⟩ = .ok (s, codeOf pairs) ∧
      pairs.map Prod.fst = input.writtenRegisters ∧
      EncodeInvariant table C fcb.registerMap pairs s.fcb ∧
      ∀ v, C v → s.operations.filterMap (fifoSlice input.dstFifoIndex v) =
        (input.writtenRegisters.map (registerSlice table v)).reverse ++
          stage.filterMap (fifoSlice input.dstFifoIndex v) := by
  -- the registers copied so far are the written ones among those the loop has passed
  have hloop : ∀ (rest passed : List (Nat × Nat)) (s : CopyState),
      passed ++ rest = input.destFifoOffsetMap.toList →
      CopyInvariant table C fcb.registerMap input stage
        (passed.filterMap input.writtenRegister) s →
      ∃ s', rest.foldlM (copyRegister input) s = .ok s' ∧
        CopyInvariant table C fcb.registerMap input stage input.writtenRegisters s' := by
    intro rest
    induction rest with
    | nil =>
        intro passed s hsplit h
        rw [List.append_nil] at hsplit
        rw [hsplit] at h
        exact ⟨s, rfl, h⟩
    | cons p rest ih =>
        intro passed s hsplit h
        have hp : p ∈ input.destFifoOffsetMap.toList := by
          rw [← hsplit]
          simp
        have hdone : ∀ q ∈ passed.filterMap input.writtenRegister,
            q ∈ input.writtenRegisters := by
          intro q hq
          rw [CopyInput.writtenRegisters, ← hsplit, List.filterMap_append]
          exact List.mem_append_left _ hq
        have hone : [p].filterMap input.writtenRegister = (input.writtenRegister p).toList := by
          rw [List.filterMap_cons]
          rcases input.writtenRegister p with _ | q <;> rfl
        obtain ⟨s₁, hok₁, h₁⟩ := copyRegister_spec hinput hsound h hdone hp
        rw [← hone, ← List.filterMap_append] at h₁
        obtain ⟨s₂, hok₂, h₂⟩ := ih (passed ++ [p]) s₁ (by simpa using hsplit) h₁
        exact ⟨s₂, by rw [List.foldlM_cons, hok₁, ok_bind, hok₂], h₂⟩
  obtain ⟨s, hok, ⟨pairs, hpairs, hencoded⟩, -, hmoves⟩ := hloop _ [] ⟨fcb.beginEncode, table, stage⟩
    (List.nil_append _) ⟨⟨[], rfl, EncodeInvariant.start fcb⟩, List.prefix_refl _, by simp⟩
  refine ⟨s, pairs, ?_, hpairs, hencoded, hmoves⟩
  rw [copyToFifo, hok, ok_bind]
  simp only [FifoCodeBuilder.endEncode, hencoded.code, hencoded.physical]
  rfl

/-! ## Encoding and decoding -/

/-- Different written registers have disjoint slots. -/
theorem WellFormedInput.slot_unique (h : WellFormedInput table input) {p p' : Nat × Nat}
    (hp : p ∈ input.writtenRegisters) (hp' : p' ∈ input.writtenRegisters) {i : Nat}
    (hi : p.2 ≤ i ∧ i < p.2 + (table.desc p.1).width)
    (hi' : p'.2 ≤ i ∧ i < p'.2 + (table.desc p'.1).width) : p = p' := by
  by_contra hne
  have hpair := List.pairwise_map.mp h.disjoint
  have : Std.Symm fun a b : Nat × Nat => a.2 + (table.desc a.1).width ≤ b.2 ∨
      b.2 + (table.desc b.1).width ≤ a.2 := ⟨fun _ _ h => h.symm⟩
  have := hpair.forall hp hp' hne
  omega

/-- The moves put the register values where the map says. -/
theorem logicalWord_eq (hinput : WellFormedInput table input) {v : Nat → Nat}
    {operations stage : List Operation}
    (hmoves : operations.filterMap (fifoSlice input.dstFifoIndex v) =
      (input.writtenRegisters.map (registerSlice table v)).reverse ++
        stage.filterMap (fifoSlice input.dstFifoIndex v))
    (hstage : ∀ op ∈ stage, fifoSlice input.dstFifoIndex v op = none) (word : Nat → Bool)
    {p : Nat × Nat} (hp : p ∈ input.writtenRegisters) {t : Nat}
    (ht : t < (table.desc p.1).width) :
    logicalWord input.dstFifoIndex v operations word (p.2 + t) = (v p.1).testBit t := by
  rw [logicalWord, hmoves, List.filterMap_eq_nil_iff.mpr hstage, List.append_nil]
  apply Slice.assignAll_of_covers
  · refine ⟨registerSlice table v p, ?_, ?_, ?_⟩
    · rw [List.mem_reverse]
      exact List.mem_map_of_mem hp
    · simp [registerSlice]
    · simp only [registerSlice]
      omega
  · intro slice hslice hcovers
    rw [List.mem_reverse] at hslice
    obtain ⟨p', hp', rfl⟩ := List.mem_map.mp hslice
    obtain rfl := hinput.slot_unique hp hp' ⟨by omega, by omega⟩ hcovers
    simp [registerSlice]

variable {pairs : List Encoded} {fcb : FifoCodeBuilder}

/-- A physical range holds the bits that its input range takes from the logical word. -/
theorem encode_apply (h : EncodeInvariant table C registerMap pairs fcb) {ι : FifoCodeInputRange}
    (hι : ι ∈ inputRangesOf (pairs.map Prod.snd)) {t : Nat} (ht : t < ι.width)
    (dataIn undriven : Nat → Bool) :
    (codeOf pairs).encode dataIn undriven (ι.encodedOffset + t) = dataIn (ι.decodedOffset + t) := by
  apply Slice.assignAll_of_covers
  · refine ⟨_, List.mem_map_of_mem hι, ?_, ?_⟩
    · simp
    · simpa using ht
  · intro slice hslice hcovers
    obtain ⟨ι', hι', rfl⟩ := List.mem_map.mp hslice
    obtain ⟨a, ha⟩ := List.mem_iff_getElem?.mp hι
    obtain ⟨b, hb⟩ := List.mem_iff_getElem?.mp hι'
    -- the position is in one physical range only
    have hab : a = b := by
      refine h.encoded.unique (i := ι.encodedOffset + t) (x := (ι.encodedOffset, ι.width))
        (y := (ι'.encodedOffset, ι'.width)) ?_ ?_ ⟨by simp, by simpa using ht⟩ hcovers
      · simp [physicalRanges, ha]
      · simp only [codeOf] at hb
        simp [physicalRanges, hb]
    subst hab
    simp only [codeOf] at hb
    rw [ha] at hb
    cases hb
    simp

/-- A logical range gets the literal or the bits of its physical range. -/
theorem decode_apply (h : EncodeInvariant table C registerMap pairs fcb) {p : Encoded}
    (hp : p ∈ pairs) {t : Nat} (ht : t < p.2.width) (encodedDataOut undriven : Nat → Bool) :
    (codeOf pairs).decode encodedDataOut undriven (p.2.decodedOffset + t) =
      if p.2.isLiteral then p.2.literal.testBit t else encodedDataOut (p.2.encodedOffset + t) := by
  apply Slice.assignAll_of_covers
  · refine ⟨_, List.mem_map_of_mem (List.mem_map_of_mem hp), ?_, ?_⟩
    · simp
    · simpa using ht
  · intro slice hslice hcovers
    obtain ⟨x', hx', rfl⟩ := List.mem_map.mp hslice
    obtain ⟨p', hp', rfl⟩ := List.mem_map.mp hx'
    obtain ⟨a, ha⟩ := List.mem_iff_getElem?.mp hp
    obtain ⟨b, hb⟩ := List.mem_iff_getElem?.mp hp'
    have hab : a = b := by
      refine h.decoded.unique (i := p.2.decodedOffset + t) (x := (p.2.decodedOffset, p.2.width))
        (y := (p'.2.decodedOffset, p'.2.width)) ?_ ?_ ⟨by simp, by simpa using ht⟩ hcovers
      · simp [logicalRanges, ha]
      · simp [logicalRanges, hb]
    subst hab
    rw [ha] at hb
    cases hb
    simp

/-- Beyond the logical ranges nothing is driven. -/
theorem decode_undriven (h : EncodeInvariant table C registerMap pairs fcb) {i : Nat}
    (hi : totalWidth (logicalRanges pairs) ≤ i) (encodedDataOut undriven : Nat → Bool) :
    (codeOf pairs).decode encodedDataOut undriven i = undriven i := by
  apply Slice.assignAll_of_not_covers
  intro slice hslice hcovers
  obtain ⟨x, hx, rfl⟩ := List.mem_map.mp hslice
  obtain ⟨p, hp, rfl⟩ := List.mem_map.mp hx
  have hmem : (p.2.decodedOffset, p.2.width) ∈ logicalRanges pairs :=
    List.mem_map.mpr ⟨p, hp, rfl⟩
  have := (h.decoded.bounds hmem).2
  have hlt := hcovers.2
  simp only at this hlt
  omega

/-- The input ranges are disjoint and cover exactly the encoded bits. -/
def TilesEncodedWidth (code : FifoCode) : Prop :=
  code.inputRanges.Pairwise (fun a b => a.encodedOffset + a.width ≤ b.encodedOffset) ∧
    ∀ i, i < code.encodedWidth ↔
      ∃ ι ∈ code.inputRanges, ι.encodedOffset ≤ i ∧ i < ι.encodedOffset + ι.width

theorem tilesEncodedWidth_codeOf (h : EncodeInvariant table C registerMap pairs fcb) :
    TilesEncodedWidth (codeOf pairs) := by
  refine ⟨List.pairwise_map.mp h.encoded.pairwise, ?_⟩
  intro i
  have hcovers := h.encoded.covers i
  simp only [physicalRanges, List.mem_map, exists_exists_and_eq_and, Nat.zero_le, true_and,
    Nat.zero_add] at hcovers
  exact hcovers.symm

/-! ## Narrowing loses nothing when the layouts agree -/

/-- The slots of the map are the logical ranges of the builder, up to their offsets. -/
theorem slots_map_snd (h : EncodeInvariant table C registerMap pairs fcb)
    (hpairs : pairs.map Prod.fst = input.writtenRegisters) :
    (input.slots table).map Prod.snd = (logicalRanges pairs).map Prod.snd := by
  rw [CopyInput.slots, ← hpairs, logicalRanges, List.map_map, List.map_map, List.map_map]
  exact List.map_congr_left fun p hp => (h.width p hp).symm

/-- Decoding the encoded word gives back every written register. -/
theorem decode_encode_of_consecutive (hsound : RegisterMapSound table C registerMap)
    (h : EncodeInvariant table C registerMap pairs fcb)
    (hpairs : pairs.map Prod.fst = input.writtenRegisters)
    (hslots : Consecutive 0 (input.slots table)) {v : Nat → Nat} (hv : C v) {word : Nat → Bool}
    (hword : ∀ p ∈ input.writtenRegisters, ∀ t < (table.desc p.1).width,
      word (p.2 + t) = (v p.1).testBit t)
    (undriven undriven' : Nat → Bool) {p : Nat × Nat} (hp : p ∈ input.writtenRegisters) {t : Nat}
    (ht : t < (table.desc p.1).width) :
    (codeOf pairs).decode ((codeOf pairs).encode word undriven) undriven' (p.2 + t) =
      (v p.1).testBit t := by
  -- the builder's offsets are those of the map
  have hoffset : ∀ q ∈ pairs, q.2.decodedOffset = q.1.2 := by
    have heq := hslots.eq_of_widths h.decoded (slots_map_snd h hpairs)
    rw [CopyInput.slots, ← hpairs, logicalRanges, List.map_map] at heq
    intro q hq
    exact (congrArg Prod.fst (List.map_inj_left.mp heq q hq)).symm
  have hmem : ∀ q ∈ pairs, q.1 ∈ input.writtenRegisters := by
    intro q hq
    rw [← hpairs]
    exact List.mem_map_of_mem hq
  rw [← hpairs] at hp
  obtain ⟨q, hq, rfl⟩ := List.mem_map.mp hp
  rw [← h.width q hq] at ht
  rw [← hoffset q hq, decode_apply h hq ht]
  rcases hliteral : q.2.isLiteral with _ | _
  · -- the register's value is found in the physical word
    obtain ⟨q', hq', hstores⟩ := h.stored q hq hliteral
    have ht' : t < q'.2.toInput.width := by
      rw [FifoCodeOutputRange.toInput, hstores.width]
      exact ht
    have hbit := encode_apply h hstores.mem ht' word undriven
    simp only [FifoCodeOutputRange.toInput, hstores.offset, hoffset q' hq'] at hbit
    rw [if_neg (by simp), hbit, hword q'.1 (hmem q' hq') t, hstores.value v hv]
    rw [← h.width q' hq', hstores.width]
    exact ht
  · obtain ⟨l, hl⟩ := (h.isLiteral q hq).mp hliteral
    rw [if_pos rfl, h.literal q hq l hl, hsound.literal hl v hv]

end

/-- Narrowing the FIFO that `input` describes, in a block with these operations, loses
    nothing: the code is built, its input ranges tile the physical word, the moves put
    the registers where the map says, and decoding gives them back there. -/
def NarrowsLosslessly (optimizing : Bool) (table : RegisterTable) (operations : List Operation)
    (input : CopyInput) (stage : List Operation) : Prop :=
  ∃ processed, processOperations optimizing table operations = .ok processed ∧
    ∀ fcb : FifoCodeBuilder, fcb.registerMap = processed.registerMap →
    ∃ s code, copyToFifo input {} ⟨fcb, table, stage⟩ = .ok (s, code) ∧ TilesEncodedWidth code ∧
    ∀ v, Consistent table operations v → ∀ (word undriven undriven' : Nat → Bool),
    ∀ p ∈ input.writtenRegisters, ∀ t < (table.desc p.1).width,
      let dataIn := logicalWord input.dstFifoIndex v s.operations word
      dataIn (p.2 + t) = (v p.1).testBit t ∧
        code.decode (code.encode dataIn undriven) undriven' (p.2 + t) = dataIn (p.2 + t)

theorem narrowsLosslessly_of_consecutive {table : RegisterTable} {input : CopyInput}
    (hinput : WellFormedInput table input) (hslots : Consecutive 0 (input.slots table))
    (optimizing : Bool) {operations : List Operation} (hmoves : WellFormedMoves operations)
    {stage : List Operation}
    (hstage : ∀ op ∈ stage, ∀ v, fifoSlice input.dstFifoIndex v op = none) :
    NarrowsLosslessly optimizing table operations input stage := by
  obtain ⟨processed, hprocessed, hsound⟩ := processOperations_spec optimizing table hmoves
  refine ⟨processed, hprocessed, ?_⟩
  intro fcb hfcb
  rw [← hfcb] at hsound
  obtain ⟨s, pairs, hok, hpairs, hencoded, hemitted⟩ := copyToFifo_spec hinput hsound stage
  refine ⟨s, codeOf pairs, hok, tilesEncodedWidth_codeOf hencoded, ?_⟩
  intro v hv word undriven undriven' p hp t ht
  have hword : ∀ p ∈ input.writtenRegisters, ∀ t < (table.desc p.1).width,
      logicalWord input.dstFifoIndex v s.operations word (p.2 + t) = (v p.1).testBit t :=
    fun p hp t ht => logicalWord_eq hinput (hemitted v hv) (fun op hop => hstage op hop v) word hp ht
  refine ⟨hword p hp t ht, ?_⟩
  rw [hword p hp t ht]
  exact decode_encode_of_consecutive hsound hencoded hpairs hslots hv hword undriven
    undriven' hp ht

/-! ## Other layouts lose something -/

/-- The values that are all ones, but zero in one register. -/
def onesExcept (table : RegisterTable) (r : Nat) : Nat → Nat :=
  fun q => if q = r then 0 else 2 ^ (table.desc q).width - 1

/-- The block that clears a register by a move. -/
def clearRegister (r : Nat) : List Operation :=
  [{ opcode := .mov, src := [.literal ⟨0, 1⟩], dst := [.register r] }]

theorem wellFormedMoves_clearRegister (r : Nat) : WellFormedMoves (clearRegister r) := by
  refine ⟨?_, ?_⟩
  · simp [clearRegister, Operation.writes, DestinationOperand.register?]
  · simp [clearRegister]

theorem consistent_onesExcept (table : RegisterTable) (r : Nat) :
    Consistent table (clearRegister r) (onesExcept table r) := by
  refine ⟨?_, ?_, ?_⟩
  · intro q
    have := Nat.two_pow_pos (table.desc q).width
    rw [onesExcept]
    split <;> omega
  · intro op dst l hop hmove
    rw [clearRegister, List.mem_singleton] at hop
    subst hop
    have hdst := hmove.dst
    have hsrc := hmove.src
    simp only [List.cons.injEq, DestinationOperand.register.injEq, SourceOperand.literal.injEq,
      and_true] at hdst hsrc
    subst hdst hsrc
    simp [onesExcept]
  · intro op dst q hop hmove
    rw [clearRegister, List.mem_singleton] at hop
    subst hop
    have hsrc := hmove.src
    simp at hsrc

theorem processOperations_clearRegister {table : RegisterTable} {r : Nat}
    (hlocal : RegisterTable.isLocal table r = true) :
    ∃ fcb, processOperations true table (clearRegister r) = .ok fcb ∧
      fcb.registerMap[r]? = some (.literal ⟨0, 1⟩) := by
  refine ⟨{ registerMap := (∅ : Std.ExtTreeMap Nat SourceOperand).insert r (.literal ⟨0, 1⟩) },
    ?_, ?_⟩
  · have hmove : followedMove true table
        { opcode := .mov, src := [.literal ⟨0, 1⟩], dst := [.register r] } =
        .ok (some (r, .literal ⟨0, 1⟩)) := by
      have huses : operationUsesOnlyLocalReg table
          { opcode := .mov, src := [.literal ⟨0, 1⟩], dst := [.register r] } = true := by
        simp [operationUsesOnlyLocalReg, Operation.reads, Operation.writes,
          SourceOperand.register?, DestinationOperand.register?, hlocal]
      simp only [followedMove, huses]
      rfl
    have hinsert : safeInsert (∅ : Std.ExtTreeMap Nat SourceOperand) r
        (SourceOperand.literal ⟨0, 1⟩) =
        .ok ((∅ : Std.ExtTreeMap Nat SourceOperand).insert r (.literal ⟨0, 1⟩)) := by
      apply safeInsert_of_none
      simp
    simp only [processOperations, clearRegister, List.foldlM_cons, List.foldlM_nil,
      FifoCodeBuilder.processOperation, hmove, ok_bind, hinsert, pure_eq_ok]
  · rw [getElem?_insert, if_pos rfl]

section

variable {table : RegisterTable} {input : CopyInput}

/-- What a FIFO that is narrowed without loss says about the code that is built. -/
theorem NarrowsLosslessly.exists_code (hinput : WellFormedInput table input)
    {operations : List Operation} (hmoves : WellFormedMoves operations)
    (h : NarrowsLosslessly true table operations input []) :
    ∃ (processed fcb : FifoCodeBuilder) (pairs : List Encoded),
      processOperations true table operations = .ok processed ∧
      pairs.map Prod.fst = input.writtenRegisters ∧
      EncodeInvariant table (Consistent table operations) processed.registerMap pairs fcb ∧
      ∀ v, Consistent table operations v → ∃ encoded, ∀ undriven,
        ∀ p ∈ input.writtenRegisters, ∀ t < (table.desc p.1).width,
          (codeOf pairs).decode encoded undriven (p.2 + t) = (v p.1).testBit t := by
  obtain ⟨processed, hprocessed, hall⟩ := h
  obtain ⟨processed', hprocessed', hsound⟩ := processOperations_spec true table hmoves
  rw [hprocessed] at hprocessed'
  cases hprocessed'
  obtain ⟨s, code, hok, -, hgives⟩ := hall processed rfl
  obtain ⟨s', pairs, hok', hpairs, hencoded, -⟩ := copyToFifo_spec hinput hsound []
  rw [hok] at hok'
  cases hok'
  refine ⟨processed, s.fcb, pairs, hprocessed, hpairs, hencoded, ?_⟩
  intro v hv
  refine ⟨(codeOf pairs).encode (logicalWord input.dstFifoIndex v s.operations fun _ => false)
    fun _ => false, ?_⟩
  intro undriven p hp t ht
  obtain ⟨hmoved, hback⟩ := hgives v hv (fun _ => false) (fun _ => false) undriven p hp t ht
  rw [← hmoved]
  exact hback

/-- A written register lies in the part of the word that the code drives. -/
theorem slot_bound_of_narrowsLosslessly (hinput : WellFormedInput table input)
    (h : NarrowsLosslessly true table [] input []) {slot : Nat × Nat}
    (hslot : slot ∈ input.slots table) : slot.1 + slot.2 ≤ totalWidth (input.slots table) := by
  obtain ⟨p, hp, rfl⟩ := List.mem_map.mp hslot
  obtain ⟨processed, fcb, pairs, -, hpairs, hencoded, hgives⟩ :=
    h.exists_code hinput ⟨by simp, by simp⟩
  have htotal : totalWidth (input.slots table) = totalWidth (logicalRanges pairs) := by
    rw [totalWidth, slots_map_snd hencoded hpairs, totalWidth]
  -- all registers are zero, and what is not driven reads as one
  by_contra hout
  have hpos := hinput.written_pos hp
  simp only at hout
  obtain ⟨encoded, hback⟩ := hgives (fun _ => 0) ⟨fun r => Nat.two_pow_pos _, by simp, by simp⟩
  have hlast := hback (fun _ => true) p hp ((table.desc p.1).width - 1) (by omega)
  rw [decode_undriven hencoded (by omega)] at hlast
  simp at hlast

/-- A register that is known to be constant has to be where the code puts it. -/
theorem offset_eq_of_narrowsLosslessly (hinput : WellFormedInput table input)
    (hcover : ∀ i < totalWidth (input.slots table), ∃ slot ∈ input.slots table,
      slot.1 ≤ i ∧ i < slot.1 + slot.2) {p : Nat × Nat} (hp : p ∈ input.writtenRegisters)
    (h : NarrowsLosslessly true table (clearRegister p.1) input []) :
    ∃ pairs : List Encoded, pairs.map Prod.fst = input.writtenRegisters ∧
      Consecutive 0 (logicalRanges pairs) ∧
      (input.slots table).map Prod.snd = (logicalRanges pairs).map Prod.snd ∧
      ∀ q ∈ pairs, q.1 = p → (q.2.decodedOffset, q.2.width) = (p.2, (table.desc p.1).width) := by
  obtain ⟨processed, fcb, pairs, hprocessed, hpairs, hencoded, hgives⟩ :=
    h.exists_code hinput (wellFormedMoves_clearRegister p.1)
  obtain ⟨cleared, hcleared, hknown⟩ := processOperations_clearRegister (hinput.isLocal p hp)
  rw [hprocessed] at hcleared
  cases hcleared
  have hwidths := slots_map_snd hencoded hpairs
  refine ⟨pairs, hpairs, hencoded.decoded, hwidths, ?_⟩
  rintro q hq rfl
  obtain ⟨encoded, hback⟩ := hgives _ (consistent_onesExcept table q.1.1)
  -- the bits of the constant's logical range are zero, so no other register is there
  have hself : ∀ t < (table.desc q.1.1).width, q.1.2 ≤ q.2.decodedOffset + t ∧
      q.2.decodedOffset + t < q.1.2 + (table.desc q.1.1).width := by
    intro t ht
    rw [← hencoded.width q hq] at ht
    have hbound : q.2.decodedOffset + t < totalWidth (input.slots table) := by
      have hmem : (q.2.decodedOffset, q.2.width) ∈ logicalRanges pairs :=
        List.mem_map.mpr ⟨q, hq, rfl⟩
      have := (hencoded.decoded.bounds hmem).2
      rw [totalWidth, hwidths, ← totalWidth]
      simp only at this
      omega
    obtain ⟨slot, hslot, hle, hlt⟩ := hcover _ hbound
    obtain ⟨p', hp', rfl⟩ := List.mem_map.mp hslot
    simp only at hle hlt
    by_cases hsame : p'.1 = q.1.1
    · rw [← List.inj_on_of_nodup_map hinput.distinct hp' hp hsame]
      exact ⟨hle, hlt⟩
    · -- a bit of the other register is one
      obtain ⟨t', ht'⟩ : ∃ t', q.2.decodedOffset + t = p'.2 + t' :=
        ⟨q.2.decodedOffset + t - p'.2, by omega⟩
      have hone := hback (fun _ => false) p' hp' t' (by omega)
      rw [← ht', decode_apply hencoded hq ht,
        if_pos ((hencoded.isLiteral q hq).mpr ⟨_, hknown⟩), hencoded.literal q hq _ hknown,
        onesExcept, if_neg hsame, Nat.testBit_two_pow_sub_one] at hone
      simp only [Nat.zero_mod, Nat.zero_testBit] at hone
      exact absurd (hone.symm) (by simp; omega)
  have hpos := hinput.written_pos hp
  have hfirst := hself 0 hpos
  have hlast := hself ((table.desc q.1.1).width - 1) (by omega)
  rw [hencoded.width q hq, Prod.mk.injEq]
  exact ⟨by omega, rfl⟩

/-- A FIFO is narrowed without loss in every block exactly when each written register
    is at the offset that is the sum of the widths of the written registers in front of
    it, in the order of the map's keys. -/
theorem narrowsLosslessly_iff (table : RegisterTable) (input : CopyInput)
    (hinput : WellFormedInput table input) :
    (∀ (optimizing : Bool) (operations stage : List Operation), WellFormedMoves operations →
      (∀ op ∈ stage, ∀ v, fifoSlice input.dstFifoIndex v op = none) →
      NarrowsLosslessly optimizing table operations input stage) ↔
      Consecutive 0 (input.slots table) := by
  refine ⟨?_, ?_⟩
  · intro h
    have hbound : ∀ slot ∈ input.slots table, slot.1 + slot.2 ≤ totalWidth (input.slots table) :=
      fun slot hslot => slot_bound_of_narrowsLosslessly hinput
        (h true [] [] ⟨by simp, by simp⟩ (by simp)) hslot
    have hcover : ∀ i < totalWidth (input.slots table), ∃ slot ∈ input.slots table,
        slot.1 ≤ i ∧ i < slot.1 + slot.2 :=
      fun i hi => covers_of_disjoint hinput.disjoint hbound hi
    obtain ⟨processed₀, fcb₀, pairs₀, -, hpairs₀, hencoded₀, -⟩ :=
      (h true [] [] ⟨by simp, by simp⟩ (by simp)).exists_code hinput ⟨by simp, by simp⟩
    have heq : input.slots table = logicalRanges pairs₀ := by
      apply List.ext_getElem?
      intro k
      rcases hk : input.writtenRegisters[k]? with _ | p
      · rw [CopyInput.slots, List.getElem?_map, hk, logicalRanges, List.getElem?_map]
        rw [← hpairs₀, List.getElem?_map, Option.map_eq_none_iff] at hk
        rw [hk]
        rfl
      · -- the block in which this register is constant tells where it is
        have hp := List.mem_of_getElem? hk
        obtain ⟨pairs, hpairs, hdecoded, hwidths, hoffset⟩ := offset_eq_of_narrowsLosslessly hinput
          hcover hp (h true (clearRegister p.1) [] (wellFormedMoves_clearRegister p.1) (by simp))
        have hsame : logicalRanges pairs₀ = logicalRanges pairs :=
          hencoded₀.decoded.eq_of_widths hdecoded
            ((slots_map_snd hencoded₀ hpairs₀).symm.trans hwidths)
        obtain ⟨q, hq, rfl⟩ : ∃ q, pairs[k]? = some q ∧ q.1 = p := by
          rw [← hpairs, List.getElem?_map] at hk
          exact Option.map_eq_some_iff.mp hk
        rw [hsame, CopyInput.slots, List.getElem?_map, hk, logicalRanges, List.getElem?_map, hq,
          Option.map_some, Option.map_some, hoffset q (List.mem_of_getElem? hq) rfl]
    rw [heq]
    exact hencoded₀.decoded
  · intro hslots optimizing operations stage hmoves hstage
    exact narrowsLosslessly_of_consecutive hinput hslots optimizing hmoves hstage

end

/-! ## A call site and its return site -/

/-- Two live registers of the return site, their pipeline registers at the call site
    and the FIFO between the two. -/
def callSiteTable : RegisterTable :=
  [⟨8, .local, false, false, none⟩, ⟨8, .local, false, false, none⟩,
   ⟨8, .pipeline, false, false, none⟩, ⟨8, .pipeline, false, false, none⟩,
   ⟨16, .fifo, false, false, none⟩]

/-- Both registers have a value at the call site. -/
def fullInput : CopyInput :=
  ⟨4, ((∅ : Std.ExtTreeMap Nat Nat).insert 0 0).insert 1 8,
    ((∅ : Std.ExtTreeMap Nat Nat).insert 0 2).insert 1 3, ∅, fun _ => false⟩

theorem wellFormed_fullInput : WellFormedInput callSiteTable fullInput := by
  have hlist : fullInput.destFifoOffsetMap.toList = [(0, 0), (1, 8)] := by rfl
  have hwritten : fullInput.writtenRegisters = [(2, 0), (3, 8)] := by rfl
  refine ⟨?_, ?_, ?_, ?_, ?_⟩
  · rw [hlist]
    intro p hp r hr
    rcases List.mem_pair.mp hp with rfl | rfl
    · cases (show some 2 = some r from hr)
      decide
    · cases (show some 3 = some r from hr)
      decide
  · rw [hwritten]
    decide
  · rw [hlist]
    intro p hp hnone
    rcases List.mem_pair.mp hp with rfl | rfl
    · cases (show some 2 = none from hnone)
    · cases (show some 3 = none from hnone)
  · rw [hwritten]
    decide
  · rw [CopyInput.slots, hwritten]
    decide

theorem narrowsLosslessly_fullInput :
    NarrowsLosslessly true callSiteTable (clearRegister 3) fullInput [] :=
  (narrowsLosslessly_iff callSiteTable fullInput wellFormed_fullInput).mpr ⟨rfl, rfl, trivial⟩
    true (clearRegister 3) [] (wellFormedMoves_clearRegister 3) (by simp)

/-- A predicated call: the first register is the return value, which has no value at the
    call site and is skipped. -/
def skippedInput : CopyInput :=
  ⟨4, ((∅ : Std.ExtTreeMap Nat Nat).insert 0 0).insert 1 8,
    (∅ : Std.ExtTreeMap Nat Nat).insert 1 3, ∅, fun r => r == 0⟩

theorem wellFormed_skippedInput : WellFormedInput callSiteTable skippedInput := by
  have hlist : skippedInput.destFifoOffsetMap.toList = [(0, 0), (1, 8)] := by rfl
  have hwritten : skippedInput.writtenRegisters = [(3, 8)] := by rfl
  refine ⟨?_, ?_, ?_, ?_, ?_⟩
  · rw [hlist]
    intro p hp r hr
    rcases List.mem_pair.mp hp with rfl | rfl
    · cases (show none = some r from hr)
    · cases (show some 3 = some r from hr)
      decide
  · rw [hwritten]
    decide
  · rw [hlist]
    intro p hp hnone
    rcases List.mem_pair.mp hp with rfl | rfl
    · rfl
    · cases (show some 3 = none from hnone)
  · rw [hwritten]
    decide
  · rw [CopyInput.slots, hwritten]
    decide

/-- The register behind the skipped one is lost: the code drives the first eight bits of
    the word, the register is in the next eight. -/
theorem not_narrowsLosslessly_skippedInput :
    WellFormedInput callSiteTable skippedInput ∧ WellFormedMoves [] ∧
      ¬ NarrowsLosslessly true callSiteTable [] skippedInput [] := by
  refine ⟨wellFormed_skippedInput, ⟨by simp, by simp⟩, ?_⟩
  intro h
  have hslots : skippedInput.slots callSiteTable = [(8, 8)] := by rfl
  have hbound := slot_bound_of_narrowsLosslessly wellFormed_skippedInput h
    (hslots ▸ List.mem_singleton_self (8, 8))
  rw [hslots] at hbound
  exact absurd hbound (by decide)

end Kanagawa.Lower
