/-
  Kanagawa.Optimize.MemToArraySound

  Loads from a memory that is turned into registers are preserved.

  The registers of the elements are constants that hold the initial values.  Started
  with an index in range, the operations that replace a load leave in its destinations
  what the load leaves there, and change no other register of the program.  The proof
  follows the loops of the pass: one choice, the choices of one destination, the
  destinations; then the walk over a block, which only moves replacements.
-/
import Kanagawa.Optimize.MemToArray

namespace Kanagawa.Optimize.MemToArray

open Kanagawa.IR Lib.Bits Lib.Except
open Emission (Runs Reads Writes Extends)

/-! ## What a load does -/

/-- The bits of an element. -/
def MemoryDesc.element (memory : MemoryDesc) (i : Nat) : Nat :=
  memory.initialValues.getD i 0 % 2 ^ memory.elementWidth

/-- The bits of an element at an offset. -/
def field (word offset width : Nat) : Nat := truncate (word >>> offset : Nat) width

/-- `CompileLoadMemory`: each destination gets the bits at its offset of the word read. -/
def loadDestinations (table : RegisterTable) (word : Nat) :
    List DestinationOperand → List Nat → (Nat → Nat) → Nat → Nat
  | .register r :: dsts, offset :: offsets, regs =>
      loadDestinations table word dsts offsets
        (Function.update regs r (field word offset (table.desc r).width))
  | _, _, regs => regs

/-- The address that an index operand stands for. -/
def loadAddress (l : Literal) (signExtend : Bool) (addressWidth : Nat) : Nat :=
  truncate (l.denote signExtend) addressWidth

/-- The registers of constants hold their initial values. -/
def HoldsConstants (table : RegisterTable) (regs : Nat → Nat) : Prop :=
  ∀ r v, (table.desc r).type = .global → (table.desc r).isConstant = true →
    (table.desc r).initialValue = some v → regs r = v

/-- The registers at `base` are those of the elements of a memory. -/
def ElementRegisters (table : RegisterTable) (memory : MemoryDesc) (base : Nat) : Prop :=
  ∀ i, i < memory.elementCount → base + i < table.length ∧
    ∃ v, memory.initialValues[i]? = some v ∧
      table.desc (base + i) = elementRegister memory (some v)

/-! ## One destination -/

section

variable {memory : MemoryDesc} {base : Nat} {start regs : Nat → Nat}

/-- An operand for each element. -/
def ReadsElements (memory : MemoryDesc) (base : Nat) (e : Emission) (regs : Nat → Nat) : Prop :=
  ∀ i, i < memory.elementCount →
    Reads e regs (.register (base + i)) ⟨memory.element i, memory.elementWidth⟩

/-- What the choice of an index stands for. -/
def choice (memory : MemoryDesc) (offset width i : Nat) : Literal :=
  if i < memory.elementCount then ⟨field (memory.element i) offset width, width⟩ else ⟨0, 64⟩

theorem field_lt (word offset width : Nat) : field word offset width < 2 ^ width :=
  truncate_lt _ _

/-- A `Gather` with one entry copies a field. -/
theorem gather_field (word wordWidth offset width mask : Nat) :
    combinationalResult (.gather [⟨offset, 0, width⟩]) mask width [⟨word, wordWidth⟩]
      = some (field word offset width) := by
  have hbits : gatherBits [⟨offset, 0, width⟩] [⟨word, wordWidth⟩] = field word offset width := by
    simp only [gatherBits, List.zip_cons_cons, List.zip_nil_right, List.foldl_cons, List.foldl_nil,
      Nat.shiftLeft_zero, Nat.zero_or]
    rfl
  rw [combinationalResult, hbits, truncate_natCast_of_lt (field_lt _ _ _)]

theorem pushChoice_spec {offset width : Nat} {choices : List SourceOperand} {e : Emission}
    (hruns : Runs e start regs) (helements : ReadsElements memory base e regs) {k : Nat}
    {literals : List Literal} (hchoices : List.Forall₂ (Reads e regs) choices literals) :
    ∃ regs', Extends e (pushChoice memory base offset width (choices, e) k).2 start regs regs' ∧
      List.Forall₂ (Reads (pushChoice memory base offset width (choices, e) k).2 regs')
        (pushChoice memory base offset width (choices, e) k).1
        (literals ++ [choice memory offset width k]) := by
  unfold pushChoice choice
  split
  case isTrue hk =>
    have hresult := gather_field (memory.element k) memory.elementWidth offset width 0
    let gather : Operation :=
      { opcode := .gather [⟨offset, 0, width⟩], src := [.register (base + k)] }
    obtain ⟨regs', hextends, hreads⟩ := @Emission.emit_extends _ _ _ hruns gather _ _ _
      (.cons (helements k hk) .nil) hresult
    refine ⟨regs', hextends, ?_⟩
    exact List.rel_append (hchoices.imp fun _ _ h => hextends.keeps h) (.cons hreads .nil)
  case isFalse =>
    refine ⟨regs, Extends.refl hruns, ?_⟩
    exact List.rel_append hchoices (.cons (Reads.literal e regs ⟨0, 64⟩) .nil)

/-- After the loop over the choices each operand holds the field of its element. -/
theorem pushChoices_spec {offset width : Nat} {e : Emission} (hruns : Runs e start regs)
    (helements : ReadsElements memory base e regs) (n : Nat) :
    ∃ regs', Extends e ((List.range n).foldl (pushChoice memory base offset width) ([], e)).2 start
        regs regs' ∧
      List.Forall₂ (Reads ((List.range n).foldl (pushChoice memory base offset width) ([], e)).2
          regs')
        ((List.range n).foldl (pushChoice memory base offset width) ([], e)).1
        ((List.range n).map (choice memory offset width)) := by
  induction n with
  | zero => exact ⟨regs, Extends.refl hruns, .nil⟩
  | succ n ih =>
      obtain ⟨regs₁, hextends, hchoices⟩ := ih
      rw [List.range_succ, List.foldl_append, List.map_append]
      have helements₁ : ReadsElements memory base _ regs₁ :=
        fun i hi => hextends.keeps (helements i hi)
      obtain ⟨regs₂, hextends', hchoices'⟩ :=
        pushChoice_spec hextends.runs helements₁ (k := n)
          hchoices
      exact ⟨regs₂, hextends.trans hextends', hchoices'⟩

/-- The multiplexer of a destination chooses the field of the addressed element. -/
theorem select_choice {offset width aw address : Nat} (haddress : address < memory.elementCount)
    (hcount : memory.elementCount ≤ 2 ^ aw) :
    combinationalResult .select 0 width
        (⟨address, aw⟩ :: (List.range (2 ^ aw)).map (choice memory offset width))
      = some (field (memory.element address) offset width) := by
  have hget : ((List.range (2 ^ aw)).map (choice memory offset width))[address]?
      = some (choice memory offset width address) := by
    rw [List.getElem?_map, List.getElem?_range (Nat.lt_of_lt_of_le haddress hcount)]
    rfl
  show Option.map _ ((List.range (2 ^ aw)).map (choice memory offset width))[address]? = _
  rw [hget, Option.map_some, Nat.zero_testBit, denote_false, choice, if_pos haddress,
    truncate_natCast_of_lt (field_lt _ _ _)]

/-- A `Mov` of the only choice. -/
theorem mov_choice {offset width address : Nat} (haddress : address < memory.elementCount)
    (hsingle : memory.elementCount = 1) :
    combinationalResult .mov 0 width ((List.range 1).map (choice memory offset width))
      = some (field (memory.element address) offset width) := by
  obtain rfl : address = 0 := by omega
  show some (truncate (Literal.denote _ (Nat.testBit 0 0)) width) = _
  rw [Nat.zero_testBit, denote_false, choice, if_pos haddress,
    truncate_natCast_of_lt (field_lt _ _ _)]

/-- An operation that ends the emission with a register of the original table. -/
theorem push_after {e e' : Emission} {regs' : Nat → Nat} (hextends : Extends e e' start regs regs')
    {op : Operation} {r v : Nat} {literals : List Literal} (hr : r < e.table.length)
    (hdst : op.dst = [.register r]) (hsrc : List.Forall₂ (Reads e' regs') op.src literals)
    (hresult : combinationalResult op.opcode op.signExtendSourceMask (e.table.desc r).width
      literals = some v) :
    ∃ regs'', Writes e (e'.push op) start regs regs'' (· = r) ∧ regs'' r = v := by
  have hr' : r < e'.table.length := Nat.lt_of_lt_of_le hr hextends.grows.length_le
  rw [← desc_of_grow hextends.grows hr] at hresult
  obtain ⟨hwrites, -⟩ := Emission.push_writes hextends.runs hr' hdst hsrc hresult
  exact ⟨_, (hextends.writes _).trans hwrites, Function.update_self _ _ _⟩

/-- The operations for one destination leave the field of the addressed element in it. -/
theorem convertDestination_spec {e : Emission} {wideLoadIndex aw address offset r : Nat}
    (hruns : Runs e start regs) (helements : ReadsElements memory base e regs)
    (hindex : memory.elementCount ≠ 1 → Reads e regs (.register wideLoadIndex) ⟨address, aw⟩)
    (haddress : address < memory.elementCount)
    (hcount : memory.elementCount ≠ 1 → memory.elementCount ≤ 2 ^ aw) (hr : r < e.table.length) :
    ∃ regs', Writes e (convertDestination memory base wideLoadIndex aw e (.register r) offset)
        start regs regs' (· = r) ∧
      regs' r = field (memory.element address) offset (e.table.desc r).width := by
  unfold convertDestination
  simp only [DestinationOperand.width]
  by_cases hsingle : memory.elementCount = 1
  · obtain ⟨regs₁, hextends, hchoices⟩ := pushChoices_spec hruns helements 1
    have hresult := @mov_choice memory offset (e.table.desc r).width _ haddress hsingle
    simp only [hsingle, beq_self_eq_true, if_true]
    exact push_after hextends hr rfl hchoices hresult
  · obtain ⟨regs₁, hextends, hchoices⟩ := pushChoices_spec hruns helements (2 ^ aw)
    have hresult := @select_choice memory offset (e.table.desc r).width _ _ haddress
      (hcount hsingle)
    have hsrc := List.Forall₂.cons (hextends.keeps (hindex hsingle)) hchoices
    simp only [beq_iff_eq, hsingle, if_false]
    exact push_after hextends hr rfl hsrc hresult

/-! ## All destinations -/

/-- The destinations are registers of a table of the given length. -/
def DestinationsIn (n : Nat) (dst : List DestinationOperand) : Prop :=
  ∀ d ∈ dst, ∃ r, d = .register r ∧ r < n

/-- The loop over the destinations leaves in the registers of the original table what the
    load leaves there. -/
theorem convertDestinations_spec {table : RegisterTable} {wideLoadIndex aw address : Nat}
    (haddress : address < memory.elementCount)
    (hcount : memory.elementCount ≠ 1 → memory.elementCount ≤ 2 ^ aw)
    (hbase : table.length ≤ base) (hwide : table.length ≤ wideLoadIndex) :
    ∀ {dsts : List DestinationOperand} {offsets : List Nat} {e e' : Emission}
      {regs expected : Nat → Nat},
      convertDestinations memory base wideLoadIndex aw dsts offsets e = .ok e' →
      DestinationsIn table.length dsts → table <+: e.table → Runs e start regs →
      ReadsElements memory base e regs →
      (memory.elementCount ≠ 1 → Reads e regs (.register wideLoadIndex) ⟨address, aw⟩) →
      (∀ r, r < table.length → regs r = expected r) →
      ∃ regs', Runs e' start regs' ∧ ∀ r, r < table.length →
        regs' r = loadDestinations table (memory.element address) dsts offsets expected r := by
  intro dsts
  induction dsts with
  | nil =>
      intro offsets e e' regs expected hok _ _ hruns _ _ hregs
      obtain rfl := Except.ok.inj hok
      exact ⟨regs, hruns, hregs⟩
  | cons d dsts ih =>
      intro offsets e e' regs expected hok hdsts hgrow hruns helements hindex hregs
      cases offsets with
      | nil => exact nomatch hok
      | cons offset offsets =>
          obtain ⟨r, rfl, hr⟩ := hdsts d List.mem_cons_self
          have hr' : r < e.table.length := Nat.lt_of_lt_of_le hr hgrow.length_le
          obtain ⟨regs₁, hwrites, hvalue⟩ := convertDestination_spec hruns
            helements hindex haddress hcount hr'
          -- Neither the index nor an element is a destination
          have hkeeps : ∀ {s : Nat} {l : Literal}, table.length ≤ s → Reads e regs (.register s) l →
              Reads (convertDestination memory base wideLoadIndex aw e (.register r) offset) regs₁
                (.register s) l := by
            intro s l hs hreads
            apply hwrites.keeps hreads
            intro r' hr'
            cases hr'
            omega
          apply ih hok (fun d' hd' => hdsts d' (List.mem_cons_of_mem _ hd'))
            (hgrow.trans hwrites.grows) hwrites.runs
          · intro i hi
            exact hkeeps (by omega) (helements i hi)
          · intro hmany
            exact hkeeps hwide (hindex hmany)
          · intro r' hr'n
            by_cases heq : r' = r
            · rw [heq, hvalue, Function.update_self, desc_of_grow hgrow hr]
            · rw [hwrites.frame r' (Nat.lt_of_lt_of_le hr'n hgrow.length_le) heq,
                Function.update_of_ne heq, hregs r' hr'n]

theorem convertDestination_grows (wideLoadIndex aw : Nat) (e : Emission)
    (dst : DestinationOperand) (offset : Nat) :
    e.table <+: (convertDestination memory base wideLoadIndex aw e dst offset).table := by
  have hloop : ∀ width n, e.table <+:
      ((List.range n).foldl (pushChoice memory base offset width) ([], e)).2.table := by
    intro width n
    induction n with
    | zero => exact List.prefix_rfl
    | succ n ih =>
        rw [List.range_succ, List.foldl_append]
        apply ih.trans
        show _ <+: (pushChoice memory base offset width _ n).2.table
        unfold pushChoice
        split
        · exact List.prefix_append _ _
        · exact List.prefix_rfl
  unfold convertDestination
  dsimp only
  split
  · exact hloop _ _
  · exact hloop _ _

theorem convertDestinations_grows {wideLoadIndex aw : Nat} :
    ∀ {dsts : List DestinationOperand} {offsets : List Nat} {e e' : Emission},
      convertDestinations memory base wideLoadIndex aw dsts offsets e = .ok e' →
      e.table <+: e'.table := by
  intro dsts
  induction dsts with
  | nil => exact fun hok => Except.ok.inj hok ▸ List.prefix_rfl
  | cons d dsts ih =>
      intro offsets e e' hok
      cases offsets with
      | nil => exact nomatch hok
      | cons offset offsets => exact (convertDestination_grows _ _ e d offset).trans (ih hok)

end

/-! ## A load -/

theorem log2RoundUp_spec {n k : Nat} (h : log2RoundUp n = .ok k) : n ≤ 2 ^ k := by
  unfold log2RoundUp at h
  split at h
  next heq => exact Except.ok.inj h ▸ Generate.le_two_pow_log2RoundUp heq
  next => exact nomatch h

theorem runs_nil (table : RegisterTable) (regs : Nat → Nat) : Runs ⟨table, []⟩ regs regs :=
  fun _ _ => rfl

/-- The constants of the elements hold the initial values. -/
theorem readsElements {table table' : RegisterTable} {memory : MemoryDesc} {base : Nat}
    (helements : ElementRegisters table memory base) (hgrow : table <+: table')
    {regs : Nat → Nat} (hconstants : HoldsConstants table' regs) :
    ReadsElements memory base ⟨table, []⟩ regs := by
  intro i hi
  obtain ⟨hlt, v, hv, hdesc⟩ := helements i hi
  have hdesc' : table'.desc (base + i) = elementRegister memory (some v) := by
    rw [desc_of_grow hgrow hlt, hdesc]
  have hregs : regs (base + i) = v := by
    apply hconstants <;> rw [hdesc'] <;> rfl
  apply Emission.Reads.register_iff.mpr
  refine ⟨hlt, ?_, ?_⟩
  · show (table.desc (base + i)).width = _
    rw [hdesc]
    rfl
  · show regs (base + i) % 2 ^ memory.elementWidth = memory.element i
    rw [hregs, MemoryDesc.element, List.getD_eq_getElem?_getD, hv, Option.getD_some]

/-- Where the loop over the destinations starts. -/
theorem convertRomLoad_inv {table : RegisterTable} {memory : MemoryDesc} {base : Nat}
    {load : MemoryOperation} {e : Emission} (hok : convertRomLoad table memory base load = .ok e) :
    ∃ indexWidth addressWidth index,
      load.op.src[1]? = some index ∧
      (memory.elementCount ≠ 1 → log2RoundUp memory.elementCount = .ok indexWidth ∧
        memory.addressWidth = .ok addressWidth) ∧
      convertDestinations memory base table.length addressWidth load.op.dst
        load.loadMemory.sourceOffsets
        (Emission.mov ⟨table, []⟩ indexWidth index (load.op.shouldSignExtend 1)).2 = .ok e := by
  simp only [convertRomLoad, bind_eq_ok_iff] at hok
  obtain ⟨indexWidth, hindexWidth, index, hindex, -, -, -, -, addressWidth, haddressWidth, -, -,
    hok⟩ := hok
  refine ⟨indexWidth, addressWidth, index, ?_, ?_, hok⟩
  · unfold loadIndex at hindex
    split at hindex
    next heq => exact Except.ok.inj hindex ▸ heq
    next => exact nomatch hindex
  · intro hmany
    rw [MemoryDesc.indexWidth, if_neg (by simpa using hmany)] at hindexWidth
    rw [MemoryDesc.choiceWidth, if_neg (by simpa using hmany)] at haddressWidth
    exact ⟨hindexWidth, haddressWidth⟩

/-- The operations that replace a load leave in the registers of the program what the load
    leaves there. -/
theorem convertRomLoad_spec {table table₀ : RegisterTable} {memory : MemoryDesc} {base : Nat}
    {load : MemoryOperation} {e : Emission} (hok : convertRomLoad table memory base load = .ok e)
    (hgrow : table₀ <+: table) (hdst : DestinationsIn table₀.length load.op.dst)
    (hbase : table₀.length ≤ base) {regs : Nat → Nat}
    (helements : ReadsElements memory base ⟨table, []⟩ regs) {index : SourceOperand}
    (hindex : load.op.src[1]? = some index) {l : Literal}
    (hreads : Reads ⟨table, []⟩ regs index l) {addressWidth : Nat}
    (hwidth : memory.addressWidth = .ok addressWidth)
    (hrange : loadAddress l (load.op.shouldSignExtend 1) addressWidth < memory.elementCount) :
    ∃ regs', Runs e regs regs' ∧ ∀ r, r < table₀.length →
      regs' r = loadDestinations table₀
        (memory.element (loadAddress l (load.op.shouldSignExtend 1) addressWidth)) load.op.dst
        load.loadMemory.sourceOffsets regs r := by
  obtain ⟨indexWidth, aw, index', hindex', hmany, hok⟩ := convertRomLoad_inv hok
  obtain rfl : index = index' := Option.some.inj (hindex.symm.trans hindex')
  obtain ⟨regs₁, hextends, hreadsIndex⟩ := Emission.mov_extends (runs_nil table regs) hreads
    indexWidth (load.op.shouldSignExtend 1)
  -- The index and the addressed port have the same width
  have hwidths : memory.elementCount ≠ 1 → indexWidth = addressWidth ∧ aw = addressWidth := by
    intro hne
    obtain ⟨hlog, haw⟩ := hmany hne
    have hcount := log2RoundUp_spec hlog
    have hne0 : indexWidth ≠ 0 := by
      intro hzero
      rw [hzero, pow_zero] at hcount
      omega
    have hport : memory.addressWidth = .ok indexWidth := by
      rw [MemoryDesc.addressWidth, hlog, ok_bind, if_neg hne0]
      rfl
    exact ⟨Except.ok.inj (hport.symm.trans hwidth), Except.ok.inj (haw.symm.trans hwidth)⟩
  apply convertDestinations_spec hrange _ hbase hgrow.length_le hok hdst
    (hgrow.trans hextends.grows) hextends.runs
  · intro i hi
    exact hextends.keeps (helements i hi)
  · intro hne
    obtain ⟨hiw, haw⟩ := hwidths hne
    rw [haw]
    rw [hiw] at hreadsIndex ⊢
    exact hreadsIndex
  · intro r hr
    exact hextends.frame r (Nat.lt_of_lt_of_le hr hgrow.length_le)
  · intro hne
    obtain ⟨hiw, haw⟩ := hwidths hne
    rw [haw, ← hiw]
    exact log2RoundUp_spec (hmany hne).1

theorem convertRomLoad_grows {table : RegisterTable} {memory : MemoryDesc} {base : Nat}
    {load : MemoryOperation} {e : Emission} (hok : convertRomLoad table memory base load = .ok e) :
    table <+: e.table := by
  obtain ⟨_, _, _, -, -, hok⟩ := convertRomLoad_inv hok
  exact (List.prefix_append _ _).trans (convertDestinations_grows hok)

/-! ## The registers of the elements -/

section

variable {memory : MemoryDesc} {info : MemoryInfo}

theorem allocateElement_inv {table table' : RegisterTable} {i : Nat} (hrom : memory.isRom = true)
    (hok : allocateElement memory info table i = .ok table') :
    table.length = info.baseGlobalIndex + i ∧
      ∃ v, memory.initialValues[i]? = some v ∧
        table' = table ++ [elementRegister memory (some v)] := by
  simp only [allocateElement, bind_eq_ok_iff] at hok
  obtain ⟨_, hassert, initialValue, hvalue, hok⟩ := hok
  have hlength : table.length = info.baseGlobalIndex + i := by simpa using of_assert hassert
  have hsome : (!memory.initialValues.isEmpty) = true := by
    simp only [MemoryDesc.isRom, Bool.and_eq_true] at hrom
    exact hrom.2
  rw [elementInitialValue, if_pos hsome, bind_eq_ok_iff] at hvalue
  obtain ⟨_, -, hvalue⟩ := hvalue
  refine ⟨hlength, ?_⟩
  split at hvalue
  next v hv =>
    obtain rfl := Except.ok.inj hvalue
    exact ⟨v, hv, (Except.ok.inj hok).symm⟩
  next => exact nomatch hvalue

/-- The loop over the elements of a read-only memory. -/
theorem allocateElements_spec {table : RegisterTable} (hrom : memory.isRom = true) (n : Nat) :
    ∀ {table' : RegisterTable},
      (List.range n).foldlM (allocateElement memory info) table = .ok table' →
      table <+: table' ∧ ∀ i, i < n → table.length = info.baseGlobalIndex ∧
        info.baseGlobalIndex + i < table'.length ∧
        ∃ v, memory.initialValues[i]? = some v ∧
          table'.desc (info.baseGlobalIndex + i) = elementRegister memory (some v) := by
  induction n with
  | zero =>
      intro table' hok
      obtain rfl := Except.ok.inj hok
      exact ⟨List.prefix_rfl, fun i hi => absurd hi (Nat.not_lt_zero i)⟩
  | succ n ih =>
      intro table' hok
      rw [List.range_succ, List.foldlM_append, bind_eq_ok_iff] at hok
      obtain ⟨table₁, hok₁, hok⟩ := hok
      rw [List.foldlM_cons, bind_eq_ok_iff] at hok
      obtain ⟨table₂, hok₂, hok⟩ := hok
      obtain rfl := Except.ok.inj hok
      obtain ⟨hgrow, hdone⟩ := ih hok₁
      obtain ⟨hlength, v, hv, rfl⟩ := allocateElement_inv hrom hok₂
      have hgrow₂ := List.prefix_append table₁ [elementRegister memory (some v)]
      refine ⟨hgrow.trans hgrow₂, ?_⟩
      intro i hi
      rcases Nat.lt_succ_iff_lt_or_eq.mp hi with hi | rfl
      · obtain ⟨hbase, hlt, v', hv', hdesc⟩ := hdone i hi
        refine ⟨hbase, Nat.lt_of_lt_of_le hlt hgrow₂.length_le, v', hv', ?_⟩
        rw [desc_of_grow hgrow₂ hlt, hdesc]
      · refine ⟨?_, ?_, v, hv, ?_⟩
        · -- The first round says where the registers start
          cases i with
          | zero =>
              obtain rfl := Except.ok.inj hok₁
              exact hlength
          | succ i => exact (hdone 0 (Nat.succ_pos i)).1
        · rw [List.length_append, hlength]
          exact Nat.lt_succ_self _
        · rw [← hlength, desc_append_self]

end

/-- The descriptions of the memories change in one flag only. -/
def SameMemories (memories memories' : Nat → MemoryDesc) : Prop :=
  ∀ r, memories' r = { memories r with useLogicRam := (memories' r).useLogicRam }

theorem SameMemories.isRom {memories memories' : Nat → MemoryDesc}
    (h : SameMemories memories memories') (r : Nat) : (memories' r).isRom = (memories r).isRom := by
  rw [h r]
  rfl

theorem SameMemories.mark {memories memories' : Nat → MemoryDesc}
    (h : SameMemories memories memories') (k : Nat) :
    SameMemories memories
      (Function.update memories' k { memories' k with useLogicRam := true }) := by
  intro r
  by_cases hr : r = k
  · rw [hr, Function.update_self, h k]
  · rw [Function.update_of_ne hr]
    exact h r

/-- A memory that is converted has registers for its elements, behind those of the
    program. -/
def HasRegisters (n₀ : Nat) (table : RegisterTable) (memories : Nat → MemoryDesc)
    (m : Nat × MemoryInfo) : Prop :=
  m.2.convert = true → (memories m.1).isRom = true → 0 < (memories m.1).elementCount →
    n₀ ≤ m.2.baseGlobalIndex ∧ ElementRegisters table (memories m.1) m.2.baseGlobalIndex

theorem ElementRegisters.of_grow {table table' : RegisterTable} {memory : MemoryDesc} {base : Nat}
    (h : ElementRegisters table memory base) (hgrow : table <+: table') :
    ElementRegisters table' memory base := by
  intro i hi
  obtain ⟨hlt, v, hv, hdesc⟩ := h i hi
  refine ⟨Nat.lt_of_lt_of_le hlt hgrow.length_le, v, hv, ?_⟩
  rw [desc_of_grow hgrow hlt, hdesc]

theorem allocateMemory_spec {memories : Nat → MemoryDesc}
    {state state' : RegisterTable × (Nat → MemoryDesc)} {m : Nat × MemoryInfo}
    (hsame : SameMemories memories state.2) (hok : allocateMemory state m = .ok state') :
    state.1 <+: state'.1 ∧ SameMemories memories state'.2 ∧
      HasRegisters state.1.length state'.1 memories m := by
  unfold allocateMemory at hok
  dsimp only at hok
  split at hok
  next hconvert =>
    obtain rfl := Except.ok.inj hok
    refine ⟨List.prefix_rfl, hsame, ?_⟩
    intro hconvert'
    simp [hconvert'] at hconvert
  next =>
    split at hok
    next hram =>
      obtain rfl := Except.ok.inj hok
      refine ⟨List.prefix_rfl, hsame.mark m.1, ?_⟩
      · intro _ hrom
        rw [hsame.isRom m.1, hrom] at hram
        exact nomatch hram
    next hrom =>
      rw [bind_eq_ok_iff] at hok
      obtain ⟨_, -, hok⟩ := hok
      rw [bind_eq_ok_iff] at hok
      obtain ⟨table, htable, hok⟩ := hok
      obtain rfl := Except.ok.inj hok
      have hrom' : (state.2 m.1).isRom = true := by simpa using hrom
      obtain ⟨hgrow, helements⟩ := allocateElements_spec hrom' _ htable
      refine ⟨hgrow, hsame, ?_⟩
      intro _ _ hcount
      rw [hsame m.1] at helements
      refine ⟨(helements 0 hcount).1.le, ?_⟩
      intro i hi
      exact (helements i hi).2

/-- After the loop over the memories each one that is converted has its registers. -/
theorem allocateMemories_spec {memories : Nat → MemoryDesc} {infos : List (Nat × MemoryInfo)} :
    ∀ {state state' : RegisterTable × (Nat → MemoryDesc)}, SameMemories memories state.2 →
      infos.foldlM allocateMemory state = .ok state' →
      state.1 <+: state'.1 ∧ SameMemories memories state'.2 ∧
        ∀ m ∈ infos, HasRegisters state.1.length state'.1 memories m := by
  induction infos with
  | nil =>
      intro state state' hsame hok
      obtain rfl := Except.ok.inj hok
      exact ⟨List.prefix_rfl, hsame, fun m hm => nomatch hm⟩
  | cons m infos ih =>
      intro state state' hsame hok
      rw [List.foldlM_cons, bind_eq_ok_iff] at hok
      obtain ⟨state₁, hok₁, hok⟩ := hok
      obtain ⟨hgrow₁, hsame₁, hm⟩ := allocateMemory_spec hsame hok₁
      obtain ⟨hgrow₂, hsame₂, hrest⟩ := ih hsame₁ hok
      refine ⟨hgrow₁.trans hgrow₂, hsame₂, ?_⟩
      intro m' hm' hconvert hrom hcount
      rcases List.mem_cons.mp hm' with rfl | hm'
      · obtain ⟨hbase, helements⟩ := hm hconvert hrom hcount
        exact ⟨hbase, helements.of_grow hgrow₂⟩
      · obtain ⟨hbase, helements⟩ := hrest m' hm' hconvert hrom hcount
        exact ⟨hgrow₁.length_le.trans hbase, helements⟩

/-! ## The walk over a block -/

/-- What an operation becomes in a walk whose register table grows from `lo` to `hi`. -/
def ReplacedBy (infos : List (Nat × MemoryInfo)) (memories : Nat → MemoryDesc)
    (lo hi : RegisterTable) (op : MemoryOperation) (piece : List MemoryOperation) : Prop :=
  if op.op.opcode = .loadMemory then
    ∃ table, lo <+: table ∧
      ((convertLoad infos memories table op = .ok none ∧ piece = [op]) ∨
        ∃ table', convertLoad infos memories table op = .ok (some (piece, table')) ∧
          table' <+: hi)
  else piece = [op]

theorem ReplacedBy.mono {infos : List (Nat × MemoryInfo)} {memories : Nat → MemoryDesc}
    {lo lo' hi hi' : RegisterTable} {op : MemoryOperation} {piece : List MemoryOperation}
    (h : ReplacedBy infos memories lo hi op piece) (hlo : lo' <+: lo) (hhi : hi <+: hi') :
    ReplacedBy infos memories lo' hi' op piece := by
  unfold ReplacedBy at h ⊢
  split at h
  next hload =>
    rw [if_pos hload]
    obtain ⟨table, htable, h | ⟨table', h, htable'⟩⟩ := h
    · exact ⟨table, hlo.trans htable, .inl h⟩
    · exact ⟨table, hlo.trans htable, .inr ⟨table', h, htable'.trans hhi⟩⟩
  next hload =>
    rw [if_neg hload]
    exact h

/-- The memory that a load reads, if it is converted. -/
def convertedMemory (infos : List (Nat × MemoryInfo)) (op : MemoryOperation) :
    Option (Nat × MemoryInfo) :=
  if op.op.opcode = .loadMemory then
    match loadedMemory op.op with
    | .ok memoryIndex =>
        match infos.lookup memoryIndex with
        | some info => if info.convert then some (memoryIndex, info) else none
        | none => none
    | .error _ => none
  else none

/-- The cases of `convertLoad`. -/
theorem convertLoad_cases {infos : List (Nat × MemoryInfo)} {memories : Nat → MemoryDesc}
    {table : RegisterTable} {load : MemoryOperation}
    {result : Option (List MemoryOperation × RegisterTable)} (hload : load.op.opcode = .loadMemory)
    (hok : convertLoad infos memories table load = .ok result) :
    (convertedMemory infos load = none ∧ result = none) ∨
      ∃ r info, convertedMemory infos load = some (r, info) ∧ infos.lookup r = some info ∧
        info.convert = true ∧
        (((memories r).isRom = true ∧ ∃ e,
            convertRomLoad table (memories r) info.baseGlobalIndex load = .ok e ∧
              result = some (e.ops.map fun op => { op }, e.table)) ∨
          ((memories r).isRom = false ∧ result = some ([logicRamLoad load], table))) := by
  simp only [convertLoad, bind_eq_ok_iff] at hok
  obtain ⟨r, hmemory, _, -, hok⟩ := hok
  rw [convertedMemory, if_pos hload, hmemory]
  dsimp only
  cases hlookup : infos.lookup r with
  | none =>
      rw [hlookup] at hok
      exact .inl ⟨rfl, (Except.ok.inj hok).symm⟩
  | some info =>
      rw [hlookup] at hok
      dsimp only at hok ⊢
      cases hconvert : info.convert with
      | false =>
          rw [hconvert] at hok
          exact .inl ⟨rfl, (Except.ok.inj hok).symm⟩
      | true =>
          rw [hconvert] at hok
          right
          refine ⟨r, info, rfl, hlookup, hconvert, ?_⟩
          cases hrom : (memories r).isRom with
          | true =>
              simp only [hrom, Bool.not_true, Bool.false_eq_true, if_false, if_true,
                bind_eq_ok_iff] at hok
              obtain ⟨e, he, hok⟩ := hok
              exact .inl ⟨rfl, e, he, (Except.ok.inj hok).symm⟩
          | false =>
              simp only [hrom, Bool.not_true, Bool.false_eq_true, if_false] at hok
              exact .inr ⟨rfl, (Except.ok.inj hok).symm⟩

theorem convertLoad_grows {infos : List (Nat × MemoryInfo)} {memories : Nat → MemoryDesc}
    {table table' : RegisterTable} {load : MemoryOperation} {piece : List MemoryOperation}
    (hload : load.op.opcode = .loadMemory)
    (hok : convertLoad infos memories table load = .ok (some (piece, table'))) :
    table <+: table' := by
  rcases convertLoad_cases hload hok with
    ⟨-, h⟩ | ⟨r, info, -, -, -, ⟨-, e, he, h⟩ | ⟨-, h⟩⟩
  · exact nomatch h
  · obtain ⟨-, rfl⟩ := Prod.mk.inj (Option.some.inj h)
    exact convertRomLoad_grows he
  · obtain ⟨-, rfl⟩ := Prod.mk.inj (Option.some.inj h)
    exact List.prefix_rfl

/-- What the walk makes of a block: one piece for each operation, in order but for the
    replacements that wait for the compute block of their chain. -/
structure Rewritten (infos : List (Nat × MemoryInfo)) (memories : Nat → MemoryDesc)
    (pending : List MemoryOperation) (lo hi : RegisterTable) (before after : List MemoryOperation) :
    Prop where
  grows : lo <+: hi
  pieces : ∃ pieces, List.Forall₂ (ReplacedBy infos memories lo hi) before pieces ∧
    after.Perm (pending ++ pieces.flatten) ∧
    (pending = [] → (∀ op ∈ before, op.loadMemory.bypass = false) → after = pieces.flatten)

section

variable {infos : List (Nat × MemoryInfo)} {memories : Nat → MemoryDesc}
  {lo hi : RegisterTable} {before after pending : List MemoryOperation}

/-- An operation that stays where it is. -/
theorem Rewritten.keep (h : Rewritten infos memories pending lo hi before after)
    {op : MemoryOperation} {lo' : RegisterTable} {piece : List MemoryOperation}
    (hop : ReplacedBy infos memories lo' lo op piece) (hlo : lo' <+: lo) :
    Rewritten infos memories pending lo' hi (op :: before) (piece ++ after) := by
  obtain ⟨hgrow, pieces, hall, hperm, horder⟩ := h
  refine ⟨hlo.trans hgrow, piece :: pieces, ?_, ?_, ?_⟩
  · apply List.Forall₂.cons (hop.mono List.prefix_rfl hgrow)
    exact hall.imp fun _ _ h => h.mono hlo List.prefix_rfl
  · rw [List.flatten_cons]
    exact (hperm.append_left piece).trans (List.perm_append_comm_assoc _ _ _)
  · intro hpending hbypass
    rw [List.flatten_cons,
      horder hpending fun op' hop' => hbypass op' (List.mem_cons_of_mem _ hop')]

/-- What waits is inserted behind the operation. -/
theorem Rewritten.insert (h : Rewritten infos memories [] lo hi before after)
    {op : MemoryOperation} (hop : ReplacedBy infos memories lo hi op [op]) :
    Rewritten infos memories pending lo hi (op :: before) (op :: pending ++ after) := by
  obtain ⟨hgrow, pieces, hall, hperm, horder⟩ := h
  refine ⟨hgrow, [op] :: pieces, .cons hop hall, ?_, ?_⟩
  · rw [List.flatten_cons, List.nil_append] at *
    have hmove : (op :: pending ++ after).Perm (pending ++ (op :: after)) :=
      List.perm_middle.symm
    exact hmove.trans (((hperm.cons op)).append_left pending)
  · intro hpending hbypass
    rw [hpending, List.flatten_cons,
      horder rfl fun op' hop' => hbypass op' (List.mem_cons_of_mem _ hop')]

/-- A replacement that waits. -/
theorem Rewritten.defer {op : MemoryOperation} {lo' : RegisterTable}
    {piece : List MemoryOperation}
    (h : Rewritten infos memories (piece ++ pending) lo hi before after)
    (hop : ReplacedBy infos memories lo' lo op piece) (hlo : lo' <+: lo)
    (hbypass : op.loadMemory.bypass = true) :
    Rewritten infos memories pending lo' hi (op :: before) after := by
  obtain ⟨hgrow, pieces, hall, hperm, -⟩ := h
  refine ⟨hlo.trans hgrow, piece :: pieces, ?_, ?_, ?_⟩
  · apply List.Forall₂.cons (hop.mono List.prefix_rfl hgrow)
    exact hall.imp fun _ _ h => h.mono hlo List.prefix_rfl
  · rw [List.flatten_cons]
    rw [List.append_assoc] at hperm
    exact hperm.trans (List.perm_append_comm_assoc _ _ _)
  · intro _ hnone
    rw [hnone op List.mem_cons_self] at hbypass
    exact nomatch hbypass

end

theorem replacedBy_other {infos : List (Nat × MemoryInfo)} {memories : Nat → MemoryDesc}
    (lo hi : RegisterTable) {op : MemoryOperation} (h : op.op.opcode ≠ .loadMemory) :
    ReplacedBy infos memories lo hi op [op] := by
  rw [ReplacedBy, if_neg h]

theorem insertInComputeBlock_true {load : MemoryOperation} {stack : List AtomicBlockDesc}
    {rest : List MemoryOperation} (h : insertInComputeBlock load stack rest = .ok true) :
    load.loadMemory.bypass = true ∧ findComputeBlock rest = .ok () := by
  unfold insertInComputeBlock at h
  split at h
  next hbypass =>
    refine ⟨hbypass, ?_⟩
    split at h
    next => exact nomatch h
    next =>
      split at h
      next =>
        rw [bind_eq_ok_iff] at h
        obtain ⟨_, hfind, -⟩ := h
        exact hfind
      next =>
        rw [bind_eq_ok_iff] at h
        obtain ⟨_, -, h⟩ := h
        exact nomatch h
  next => exact nomatch h

/-- The compute block is still ahead behind an operation that does not start it. -/
theorem findComputeBlock_cons {op : MemoryOperation} {rest : List MemoryOperation}
    (h : findComputeBlock (op :: rest) = .ok ())
    (hop : ∀ desc, op.op.opcode = .beginAtomic desc → desc.type ≠ .atomicMemCompute) :
    findComputeBlock rest = .ok () := by
  rw [findComputeBlock] at h
  split at h
  next desc hdesc =>
    rw [if_neg (hop desc hdesc), bind_eq_ok_iff] at h
    obtain ⟨_, -, h⟩ := h
    exact h
  next => exact h

/-- The walk: replacements that wait find the compute block they wait for. -/
theorem rewriteOperations_spec {infos : List (Nat × MemoryInfo)} {memories : Nat → MemoryDesc} :
    ∀ {before after : List MemoryOperation} {w : Walk} {table : RegisterTable},
      rewriteOperations infos memories before w = .ok (after, table) →
      (w.pending ≠ [] → findComputeBlock before = .ok ()) →
      Rewritten infos memories w.pending w.table table before after := by
  intro before
  induction before with
  | nil =>
      intro after w table hok hfind
      rw [rewriteOperations, bind_eq_ok_iff] at hok
      obtain ⟨_, -, hok⟩ := hok
      obtain ⟨rfl, rfl⟩ := Prod.mk.inj (Except.ok.inj hok)
      have hpending : w.pending = [] := by
        by_contra hne
        exact nomatch hfind hne
      refine ⟨List.prefix_rfl, [], .nil, ?_, fun _ _ => rfl⟩
      rw [hpending]
      exact .nil
  | cons op rest ih =>
      intro after w table hok hfind
      rw [rewriteOperations] at hok
      split at hok
      next desc hdesc =>
        have hop : op.op.opcode ≠ .loadMemory := by rw [hdesc]; exact nofun
        rw [bind_eq_ok_iff] at hok
        obtain ⟨⟨ops, table₁⟩, hrest, hok⟩ := hok
        obtain ⟨rfl, rfl⟩ := Prod.mk.inj (Except.ok.inj hok)
        by_cases hcompute : desc.type = .atomicMemCompute
        · have hbeq : (desc.type == AtomicBlockType.atomicMemCompute) = true := by
            rw [hcompute]
            rfl
          rw [hbeq] at hrest ⊢
          exact (ih hrest (absurd rfl)).insert (replacedBy_other _ _ hop)
        · have hbeq : (desc.type == AtomicBlockType.atomicMemCompute) = false := by
            simpa using hcompute
          rw [hbeq] at hrest ⊢
          have hfind' : w.pending ≠ [] → findComputeBlock rest = .ok () := by
            intro hne
            apply findComputeBlock_cons (hfind hne)
            intro desc' hdesc' htype
            rw [hdesc] at hdesc'
            cases hdesc'
            exact hcompute htype
          exact (ih hrest hfind').keep (replacedBy_other _ _ hop) List.prefix_rfl
      next desc hdesc =>
        have hop : op.op.opcode ≠ .loadMemory := by rw [hdesc]; exact nofun
        have hfind' : w.pending ≠ [] → findComputeBlock rest = .ok () := by
          intro hne
          apply findComputeBlock_cons (hfind hne)
          rw [hdesc]
          exact nofun
        split at hok
        next => exact nomatch hok
        next outer _ =>
          rw [bind_eq_ok_iff] at hok
          obtain ⟨⟨ops, table₁⟩, hrest, hok⟩ := hok
          obtain ⟨rfl, rfl⟩ := Prod.mk.inj (Except.ok.inj hok)
          exact (ih hrest hfind').keep (replacedBy_other _ _ hop) List.prefix_rfl
      next hload =>
        have hfind' : w.pending ≠ [] → findComputeBlock rest = .ok () := by
          intro hne
          apply findComputeBlock_cons (hfind hne)
          rw [hload]
          exact nofun
        rw [bind_eq_ok_iff] at hok
        obtain ⟨converted, hconverted, hok⟩ := hok
        cases converted with
        | none =>
            have hreplaced : ReplacedBy infos memories w.table w.table op [op] := by
              rw [ReplacedBy, if_pos hload]
              exact ⟨w.table, List.prefix_rfl, .inl ⟨hconverted, rfl⟩⟩
            dsimp only at hok
            rw [bind_eq_ok_iff] at hok
            obtain ⟨⟨ops, table₁⟩, hrest, hok⟩ := hok
            obtain ⟨rfl, rfl⟩ := Prod.mk.inj (Except.ok.inj hok)
            exact (ih hrest hfind').keep hreplaced List.prefix_rfl
        | some replacement =>
            obtain ⟨piece, table₁⟩ := replacement
            have hreplaced : ReplacedBy infos memories w.table table₁ op piece := by
              rw [ReplacedBy, if_pos hload]
              exact ⟨w.table, List.prefix_rfl, .inr ⟨table₁, hconverted, List.prefix_rfl⟩⟩
            have hgrow := convertLoad_grows hload hconverted
            dsimp only at hok
            rw [bind_eq_ok_iff] at hok
            obtain ⟨inCompute, hinsert, hok⟩ := hok
            cases inCompute with
            | true =>
                obtain ⟨hbypass, hcompute⟩ := insertInComputeBlock_true hinsert
                exact (ih hok fun _ => hcompute).defer hreplaced hgrow hbypass
            | false =>
                rw [if_neg Bool.false_ne_true, bind_eq_ok_iff] at hok
                obtain ⟨⟨ops, table₂⟩, hrest, hok⟩ := hok
                obtain ⟨rfl, rfl⟩ := Prod.mk.inj (Except.ok.inj hok)
                exact (ih hrest hfind').keep hreplaced hgrow
      next hbegin hend hload =>
        have hfind' : w.pending ≠ [] → findComputeBlock rest = .ok () := by
          intro hne
          exact findComputeBlock_cons (hfind hne) fun desc hdesc => absurd hdesc (hbegin desc)
        rw [bind_eq_ok_iff] at hok
        obtain ⟨⟨ops, table₁⟩, hrest, hok⟩ := hok
        obtain ⟨rfl, rfl⟩ := Prod.mk.inj (Except.ok.inj hok)
        exact (ih hrest hfind').keep (replacedBy_other _ _ hload) List.prefix_rfl

theorem Rewritten.mono {infos : List (Nat × MemoryInfo)} {memories : Nat → MemoryDesc}
    {lo lo' hi hi' : RegisterTable} {pending before after : List MemoryOperation}
    (h : Rewritten infos memories pending lo hi before after) (hlo : lo' <+: lo)
    (hhi : hi <+: hi') : Rewritten infos memories pending lo' hi' before after := by
  obtain ⟨hgrow, pieces, hall, hrest⟩ := h
  exact ⟨hlo.trans (hgrow.trans hhi), pieces, hall.imp fun _ _ h => h.mono hlo hhi, hrest⟩

theorem rewriteBlocks_spec {infos : List (Nat × MemoryInfo)} {memories : Nat → MemoryDesc} :
    ∀ {blocks blocks' : List (List MemoryOperation)} {table table' : RegisterTable},
      rewriteBlocks infos memories blocks table = .ok (blocks', table') →
      table <+: table' ∧
        List.Forall₂ (Rewritten infos memories [] table table') blocks blocks' := by
  intro blocks
  induction blocks with
  | nil =>
      intro blocks' table table' hok
      obtain ⟨rfl, rfl⟩ := Prod.mk.inj (Except.ok.inj hok)
      exact ⟨List.prefix_rfl, .nil⟩
  | cons block blocks ih =>
      intro blocks' table table' hok
      rw [rewriteBlocks, bind_eq_ok_iff] at hok
      obtain ⟨⟨block', table₁⟩, hblock, hok⟩ := hok
      dsimp only at hok
      rw [bind_eq_ok_iff] at hok
      obtain ⟨⟨rest, table₂⟩, hrest, hok⟩ := hok
      obtain ⟨rfl, rfl⟩ := Prod.mk.inj (Except.ok.inj hok)
      have hhead := rewriteOperations_spec hblock (absurd rfl)
      obtain ⟨hgrow, hall⟩ := ih hrest
      refine ⟨hhead.grows.trans hgrow, .cons (hhead.mono List.prefix_rfl hgrow) ?_⟩
      exact hall.imp fun _ _ h => h.mono hhead.grows List.prefix_rfl

/-! ## The pass -/

/-- The operations give each destination of a load what the load gives it: for every
    index in range, the bits of the initial value of the element.  They read the index
    where they stand. -/
def GivesElement (table table' : RegisterTable) (memory : MemoryDesc) (load : MemoryOperation)
    (piece : List MemoryOperation) : Prop :=
  ∀ regs index l addressWidth, HoldsConstants table' regs →
    load.op.src[1]? = some index → index.literalIn table regs = some l →
    memory.addressWidth = .ok addressWidth →
    loadAddress l (load.op.shouldSignExtend 1) addressWidth < memory.elementCount →
    ∃ regs', runCombinational table' regs (piece.map MemoryOperation.op) = some regs' ∧
      ∀ r, r < table.length →
        regs' r = loadDestinations table
          (memory.element (loadAddress l (load.op.shouldSignExtend 1) addressWidth)) load.op.dst
          load.loadMemory.sourceOffsets regs r

/-- What the pass makes of an operation. -/
def Preserved (program : Program) (infos : List (Nat × MemoryInfo)) (table' : RegisterTable)
    (op : MemoryOperation) (piece : List MemoryOperation) : Prop :=
  match convertedMemory infos op with
  | none => piece = [op]
  | some (memoryIndex, _) =>
      if (program.memories memoryIndex).isRom then
        GivesElement program.registerTable table' (program.memories memoryIndex) op piece
      else piece = [logicRamLoad op]

/-- The index and the destinations of the loads are registers of the program. -/
def WellFormed (program : Program) : Prop :=
  ∀ block ∈ program.blocks, ∀ op ∈ block, op.op.opcode = .loadMemory →
    DestinationsIn program.registerTable.length op.op.dst ∧
      ∀ r, op.op.src[1]? = some (.register r) → r < program.registerTable.length

/-- The operations that replace a load give its destinations the bits of the element. -/
theorem convertRomLoad_givesElement {table table₁ table' : RegisterTable} {memory : MemoryDesc}
    {base : Nat} {load : MemoryOperation} {e : Emission}
    (hok : convertRomLoad table₁ memory base load = .ok e) (hgrow : table <+: table₁)
    (hgrow' : e.table <+: table') (hdst : DestinationsIn table.length load.op.dst)
    (hindex : ∀ r, load.op.src[1]? = some (.register r) → r < table.length)
    (hregisters : 0 < memory.elementCount →
      table.length ≤ base ∧ ElementRegisters table₁ memory base) :
    GivesElement table table' memory load (e.ops.map fun op => { op }) := by
  intro regs index l addressWidth hconstants hsrc hliteral hwidth hrange
  obtain ⟨hbase, helements⟩ := hregisters (by omega)
  have hreads : Reads ⟨table, []⟩ regs index l :=
    ⟨fun r hr => hindex r (hr ▸ hsrc), hliteral⟩
  have hreads' : Reads ⟨table₁, []⟩ regs index l :=
    ⟨fun r hr => Nat.lt_of_lt_of_le (hreads.allocated r hr) hgrow.length_le, hreads.of_grow hgrow⟩
  have hgrow₁ : table₁ <+: table' := (convertRomLoad_grows hok).trans hgrow'
  have hread := readsElements helements hgrow₁ hconstants
  obtain ⟨regs', hruns, hregs'⟩ := convertRomLoad_spec hok hgrow hdst hbase hread hsrc hreads'
    hwidth hrange
  refine ⟨regs', ?_, hregs'⟩
  rw [List.map_map]
  exact (congrArg _ (List.map_id _)).trans (hruns table' hgrow')

theorem mem_of_lookup {infos : List (Nat × MemoryInfo)} {r : Nat} {info : MemoryInfo}
    (h : infos.lookup r = some info) : (r, info) ∈ infos := by
  induction infos with
  | nil => exact nomatch h
  | cons m infos ih =>
      rw [List.lookup_cons] at h
      split at h
      next heq =>
        obtain rfl := Option.some.inj h
        obtain rfl : r = m.1 := by simpa using heq
        exact List.mem_cons_self
      next => exact List.mem_cons_of_mem _ (ih h)

/-- What the walk makes of an operation preserves the loads. -/
theorem ReplacedBy.preserved {program : Program} {infos : List (Nat × MemoryInfo)}
    {memories : Nat → MemoryDesc} {table₁ table' : RegisterTable} {op : MemoryOperation}
    {piece : List MemoryOperation} (h : ReplacedBy infos memories table₁ table' op piece)
    (hsame : SameMemories program.memories memories) (hgrow : program.registerTable <+: table₁)
    (hregisters : ∀ m ∈ infos, HasRegisters program.registerTable.length table₁ program.memories m)
    (hshape : op.op.opcode = .loadMemory →
      DestinationsIn program.registerTable.length op.op.dst ∧
        ∀ r, op.op.src[1]? = some (.register r) → r < program.registerTable.length) :
    Preserved program infos table' op piece := by
  unfold ReplacedBy at h
  unfold Preserved
  by_cases hload : op.op.opcode = .loadMemory
  · rw [if_pos hload] at h
    obtain ⟨hdst, hindex⟩ := hshape hload
    obtain ⟨table, htable, ⟨hconvert, hpiece⟩ | ⟨hi, hconvert, hhi⟩⟩ := h
    · rcases convertLoad_cases hload hconvert with ⟨hnone, -⟩ | ⟨_, _, -, -, -, ⟨-, _, -, h⟩ | ⟨-, h⟩⟩
      · rw [hnone]
        exact hpiece
      · exact nomatch h
      · exact nomatch h
    · rcases convertLoad_cases hload hconvert with
        ⟨-, h⟩ | ⟨r, info, hsome, hlookup, hconvert', ⟨hrom, e, he, h⟩ | ⟨hrom, h⟩⟩
      · exact nomatch h
      · obtain ⟨rfl, rfl⟩ := Prod.mk.inj (Option.some.inj h)
        have hm := hregisters _ (mem_of_lookup hlookup) hconvert'
        rw [hsame.isRom r] at hrom
        rw [hsame r] at he
        rw [hsome]
        dsimp only
        rw [if_pos hrom]
        apply convertRomLoad_givesElement he (hgrow.trans htable) hhi hdst hindex
        intro hcount
        obtain ⟨hbase, helements⟩ := hm hrom hcount
        exact ⟨hbase, helements.of_grow htable⟩
      · obtain ⟨rfl, -⟩ := Prod.mk.inj (Option.some.inj h)
        rw [hsame.isRom r] at hrom
        rw [hsome]
        dsimp only
        rw [if_neg (by rw [hrom]; exact Bool.false_ne_true)]
  · rw [if_neg hload] at h
    have hnone : convertedMemory infos op = none := by rw [convertedMemory, if_neg hload]
    rw [hnone]
    exact h

theorem preserved_of_not_converted {program : Program} {infos : List (Nat × MemoryInfo)}
    (hnone : infos.any (·.2.convert) = false) (table' : RegisterTable) (op : MemoryOperation) :
    Preserved program infos table' op [op] := by
  have hconverted : convertedMemory infos op = none := by
    unfold convertedMemory
    split
    next =>
      split
      next memoryIndex _ =>
        split
        next info hlookup =>
          have hinfo := List.any_eq_false.mp hnone _ (mem_of_lookup hlookup)
          exact if_neg hinfo
        next => rfl
      next => rfl
    next => rfl
  unfold Preserved
  rw [hconverted]

/-- A memory, an index register and two fields. -/
def romTable : RegisterTable :=
  [⟨24, .memory, false, false, none⟩, ⟨2, .local, false, false, none⟩,
    ⟨5, .local, false, false, none⟩, ⟨3, .local, false, false, none⟩]

/-- Three bytes. -/
def romDesc : MemoryDesc := ⟨8, 3, 0, true, false, false, [0xa1, 0x5c, 0xf3]⟩

/-- A load of both fields of an element. -/
def romLoad : MemoryOperation where
  op := { opcode := .loadMemory, src := [.register 0, .register 1],
          dst := [.register 2, .register 3] }
  loadMemory := ⟨[0, 5], 1, false⟩

def romProgram : Program := ⟨romTable, fun _ => romDesc, [[romLoad]]⟩

/-- Converts memories of up to four elements. -/
def forcedConfig : Config := ⟨4, fun _ _ _ _ => false⟩

theorem romProgram_infos :
    memoriesToConvert forcedConfig romProgram = .ok [(0, ⟨1, 0, 4, false, true⟩)] := by
  rfl

theorem romProgram_wellFormed : WellFormed romProgram := by
  intro block hblock op hop _
  obtain rfl := List.mem_singleton.mp hblock
  obtain rfl := List.mem_singleton.mp hop
  refine ⟨?_, ?_⟩
  · intro d hd
    rcases List.mem_pair.mp hd with rfl | rfl
    · exact ⟨2, rfl, by decide⟩
    · exact ⟨3, rfl, by decide⟩
  · intro r hr
    cases hr
    decide

end Kanagawa.Optimize.MemToArray
