/-
  Kanagawa.Lower.UnusedBitsRun

  What an unused bit cannot change.

  Two runs of a function take the same steps in the same order, and in the second one a bit of
  a register is flipped after some of the writes to the register.  The registers agree in all
  bits that the operations still to come use, and every step keeps this: an operation whose
  sources are all used gets the same values in both runs, and a lookup table gives the same value
  to every bit of its destination that is used.
-/
import Kanagawa.Lower.BlockRun
import Kanagawa.Lower.LutDependence
import Kanagawa.Lower.UnusedBitsSound
import Kanagawa.Lib.Runs

namespace Kanagawa.Lower.UnusedBits

open Kanagawa.IR Kanagawa.Optimize Kanagawa.Lib Lib.Except Kanagawa.Runs

/-! ## Runs of a function -/

/-- The surroundings of a function, and what the arithmetic leaves open. -/
structure Machine (E : Type) extends Surroundings E where
  undefinedResult : Operation → List Literal → Nat

/-- A pass of a thread through a block: the place of the next operation, and the wires and
    pipeline registers. -/
structure Pass where
  block : Nat
  position : Nat
  regs : Nat → Nat

structure RunState (E : Type) where
  env : E
  passes : Nat → Pass

/-- Any number of passes is in flight, and their steps interleave in any order.  A pass starts
    with arbitrary registers.  `flip` marks the steps that differ in the second run. -/
inductive Event where
  | start (pass block : Nat) (regs : Nat → Nat)
  | step (pass : Nat) (flip : Bool)

namespace Machine

variable {E : Type} (d : Machine E) (table : RegisterTable)

/-- The register that an operation which only computes writes. -/
def computes? (op : Operation) : Option Nat :=
  match op.dst with
  | [.register r] => if canOpcodeBeLoweredToLut op.opcode then some r else none
  | _ => none

def execute (env : E) (regs : Nat → Nat) (op : Operation) : E × (Nat → Nat) :=
  let values := d.sourceValues table env regs op
  match computes? op with
  | some r =>
      (env, Function.update regs r (lutResult d.undefinedResult op (table.desc r).width values))
  | none =>
      let result := d.device env op values
      (result.1, writeAll regs (op.dst.zip result.2))

end Machine

/-- The value written to a bit of a register, flipped. -/
def tamper (site : Option (Nat × Nat)) (op : Operation) (regs : Nat → Nat) : Nat → Nat :=
  match site with
  | some (r, b) => if r ∈ op.writes then Function.update regs r (regs r ^^^ 2 ^ b) else regs
  | none => regs

/-- The operations whose source values must not change: those that are live or write to
    something that is not a register, and those that cannot be expressed as lookup tables. -/
def isObserved (table : RegisterTable) (op : Operation) : Bool :=
  forceLive op || match lutForm table op with
    | .ok (some _) => false
    | _ => true

/-- A source value that must not change: which pass, which operation, and the values. -/
abbrev Observation := Nat × Operation × List Literal

/-- One event of a run.  At a site the second run flips the bit where the event is marked. -/
def next {E : Type} (d : Machine E) (table : RegisterTable) (cfg : PostPipelineGraph)
    (site : Option (Nat × Nat)) (s : RunState E) : Event → RunState E × List Observation
  | .start pass block regs => (⟨s.env, Function.update s.passes pass ⟨block, 0, regs⟩⟩, [])
  | .step pass flip =>
      let p := s.passes pass
      match ((dfa table cfg).operations p.block)[p.position]? with
      | none => (s, [])
      | some op =>
          let after := d.execute table s.env p.regs op
          let regs := if flip then tamper site op after.2 else after.2
          (⟨after.1, Function.update s.passes pass ⟨p.block, p.position + 1, regs⟩⟩,
            if isObserved table op then [(pass, op, d.sourceValues table s.env p.regs op)] else [])

/-- What pipelining leaves: the operations that can be lowered to lookup tables are moves from
    FIFOs, lookup tables, or read literals and registers only; and a wire or pipeline register
    is written in one block. -/
structure Pipelined (table : RegisterTable) (cfg : PostPipelineGraph) : Prop where
  lowering_shape : ∀ bb, ∀ op ∈ (dfa table cfg).operations bb, ∀ r, Machine.computes? op = some r →
    (∃ f, op.opcode = .mov ∧ op.src = [.fifo f]) ∨ (∃ entries, op.opcode = .lut entries) ∨
      LoweringShape table op (.register r)
  one_block : ∀ bb bb', ∀ op ∈ (dfa table cfg).operations bb,
    ∀ op' ∈ (dfa table cfg).operations bb', ∀ r ∈ op.writes, r ∈ op'.writes →
      (table.desc r).type.isLocal = true → bb = bb'

/-! ## One operation -/

/-- The registers of two runs agree in the used bits. -/
def AgreeOn (regToUsedBits : RegisterMap BitSet) (regs regs' : Nat → Nat) : Prop :=
  ∀ r b, Used regToUsedBits r b → (regs r).testBit b = (regs' r).testBit b

section Operations

variable {E : Type} {d : Machine E} {table : RegisterTable} {cfg : PostPipelineGraph} {env : E}
  {regs regs' : Nat → Nat} {op : Operation} {after : RegisterMap BitSet} {r b : Nat}

theorem computes?_eq_some (h : Machine.computes? op = some r) :
    op.dst = [.register r] ∧ canOpcodeBeLoweredToLut op.opcode = true := by
  rw [Machine.computes?] at h
  split at h
  next r' hdst =>
    split at h
    next hlower =>
      obtain rfl := Option.some.inj h
      exact ⟨hdst, hlower⟩
    next => exact nomatch h
  next => exact nomatch h

theorem AgreeOn.update (h : AgreeOn after regs regs') {v v' : Nat}
    (hv : ∀ b, Used after r b → v.testBit b = v'.testBit b) :
    AgreeOn after (Function.update regs r v) (Function.update regs' r v') := by
  intro r' b hb
  by_cases hr : r' = r
  · subst hr
    rw [Function.update_self, Function.update_self]
    exact hv b hb
  · rw [Function.update_of_ne hr, Function.update_of_ne hr]
    exact h r' b hb

theorem AgreeOn.writeAll (h : AgreeOn after regs regs') (writes : List (DestinationOperand × Nat)) :
    AgreeOn after (Lower.writeAll regs writes) (Lower.writeAll regs' writes) :=
  @writeAll_related (fun r v v' => ∀ b, Used after r b → v.testBit b = v'.testBit b)
    (fun _ _ _ _ => rfl) writes regs regs' h

/-- Flipping a bit that is not used keeps the agreement. -/
theorem AgreeOn.tamper (h : AgreeOn after regs regs') (hunused : ¬ Used after r b) (op : Operation) :
    AgreeOn after regs (tamper (some (r, b)) op regs') := by
  rw [UnusedBits.tamper]
  split
  · intro r' b' hb'
    by_cases hr : r' = r
    · subst hr
      have hne : b ≠ b' := fun heq => hunused (heq ▸ hb')
      rw [Function.update_self, Nat.testBit_xor, Nat.testBit_two_pow_of_ne hne, Bool.xor_false]
      exact h _ _ hb'
    · rw [Function.update_of_ne hr]
      exact h _ _ hb'
  · exact h

/-- Sources whose bits are all used have the same values. -/
theorem sourceValues_eq_of_all
    (h : AgreeOn (useAllSources table op.src after) regs regs') :
    d.sourceValues table env regs op = d.sourceValues table env regs' op := by
  refine List.map_congr_left fun srcOp hmem => ?_
  cases srcOp with
  | register r =>
      rw [Surroundings.sourceValue, Surroundings.sourceValue]
      split
      next hlocal =>
        congr 1
        refine Nat.eq_of_testBit_eq fun b => ?_
        rw [Nat.testBit_mod_two_pow, Nat.testBit_mod_two_pow]
        rcases Nat.lt_or_ge b (table.desc r).width with hb | hb
        · rw [h r b (used_useAllSources hmem hlocal hb)]
        · rw [decide_eq_false (by omega), Bool.false_and, Bool.false_and]
      next => rfl
  | _ => rfl

/-- A bit of a source whose use is recorded is the same. -/
theorem selectedBit_eq {s : Nat × Nat}
    (h : ∀ r, op.src[s.1]? = some (.register r) → (table.desc r).type.isLocal = true →
      (regs r).testBit s.2 = (regs' r).testBit s.2) :
    selectedBit (d.sourceValues table env regs op) s =
      selectedBit (d.sourceValues table env regs' op) s := by
  simp only [selectedBit, Surroundings.sourceValues, List.getD_eq_getElem?_getD, List.getElem?_map]
  cases hsrc : op.src[s.1]? with
  | none => rfl
  | some srcOp =>
      cases srcOp with
      | register r =>
          simp only [Option.map_some, Option.getD_some, Surroundings.sourceValue]
          split
          next hlocal =>
            rw [Nat.testBit_mod_two_pow, Nat.testBit_mod_two_pow, h r hsrc hlocal]
          next => rfl
      | _ => rfl

theorem valuesOf_sourceValues {dst : DestinationOperand} (hshape : LoweringShape table op dst) :
    ValuesOf table op.src (d.sourceValues table env regs op) := by
  refine ⟨fun r => if (table.desc r).type.isLocal then regs r else d.readRegister env r, ?_⟩
  have hall : ∀ src : List SourceOperand, (∀ s ∈ src, SourceShape table s) →
      src.mapM (SourceOperand.literalIn table fun r =>
        if (table.desc r).type.isLocal then regs r else d.readRegister env r) =
      some (src.map (d.sourceValue table env regs)) := by
    intro src hsrc
    induction src with
    | nil => rfl
    | cons s src ih =>
        have hs := hsrc s List.mem_cons_self
        rw [List.mapM_cons, ih fun s hs => hsrc s (List.mem_cons_of_mem _ hs)]
        cases s with
        | literal l => rfl
        | register r => rfl
        | fifo f => exact hs.elim
        | stringLiteral _ => exact hs.elim
  exact hall op.src hshape.src_shape

/-- What the callback recorded for an operation. -/
theorem operationCb_cases (table : RegisterTable) (op : Operation) (after : RegisterMap BitSet) :
    operationCb table op after = useAllSources table op.src after ∨
      (isObserved table op = false ∧ ∃ entries r, lutForm table op = .ok (some entries) ∧
        Machine.computes? op = some r ∧
        operationCb table op after = useEntries table op.src r entries after) := by
  rw [operationCb, isObserved]
  split
  next => exact .inl rfl
  next hforce =>
    split
    next entries r hlut hdst =>
      refine .inr ⟨by simp [hforce, hlut], entries, r, hlut, ?_, rfl⟩
      have hlower : canOpcodeBeLoweredToLut op.opcode = true := by
        by_contra hnot
        rw [lutForm, if_neg hnot] at hlut
        cases Except.ok.inj hlut
      rw [Machine.computes?, hdst]
      exact if_pos hlower
    next => exact .inl rfl

theorem lutForm_eq {entries : List LutEntry} (h : lutForm table op = .ok (some entries))
    (hdst : op.dst = [.register r]) :
    convertToLut table op (table.desc r).width = .ok (some entries) := by
  rw [lutForm] at h
  split at h
  next =>
    simp only [bind_eq_ok_iff] at h
    obtain ⟨lowered, hlowered, h⟩ := h
    rw [lowerToLut, hdst] at hlowered
    simp only [bind_eq_ok_iff] at hlowered
    obtain ⟨converted, hconverted, hlowered⟩ := hlowered
    cases converted with
    | none =>
        obtain rfl := Except.ok.inj hlowered
        cases Except.ok.inj h
    | some entries' =>
        obtain rfl := Except.ok.inj hlowered
        obtain rfl := Option.some.inj (Except.ok.inj h)
        exact hconverted
  next => cases Except.ok.inj h

/-- A lookup table gives the used bits of its destination the same values. -/
theorem lutResult_agrees (hshape : (∃ f, op.opcode = .mov ∧ op.src = [.fifo f]) ∨
      (∃ entries, op.opcode = .lut entries) ∨ LoweringShape table op (.register r))
    {entries : List LutEntry} (hlut : lutForm table op = .ok (some entries))
    (hdst : op.dst = [.register r])
    (h : AgreeOn (useEntries table op.src r entries after) regs regs') (hb : Used after r b) :
    (lutResult d.undefinedResult op (table.desc r).width
        (d.sourceValues table env regs op)).testBit b =
      (lutResult d.undefinedResult op (table.desc r).width
        (d.sourceValues table env regs' op)).testBit b := by
  have hsame : ∀ entry, entries[b]? = some entry → SameBits entry
      (d.sourceValues table env regs op) (d.sourceValues table env regs' op) := by
    intro entry hentry s hs
    refine selectedBit_eq fun r' hsrc hlocal => ?_
    exact h r' s.2 (used_useEntries hb hentry hs hsrc hlocal)
  have hconvert := lutForm_eq hlut hdst
  rcases hshape with ⟨f, -, hsrc⟩ | ⟨entries', hopcode⟩ | hshape
  · -- The value comes from a FIFO
    rw [Surroundings.sourceValues, Surroundings.sourceValues, hsrc]
    rfl
  · rw [convertToLut, hopcode] at hconvert
    obtain rfl := Option.some.inj (Except.ok.inj hconvert)
    exact lutResult_testBit_congr_of_lut hopcode hsame
  · rcases Nat.lt_or_ge b (table.desc r).width with hwidth | hwidth
    · have hlen : entries.length = (table.desc r).width := by
        rcases convertToLut_cases hshape hconvert with ⟨hconverts, -⟩ | ⟨type, -, htable⟩
        · rw [← hconverts.length_eq, List.length_range]
        · rw [← (convertBinaryOpToLut_spec hshape.src_shape htable).2.length_eq, List.length_range]
      have hentry := List.getElem?_eq_getElem (hlen ▸ hwidth)
      exact lutResult_testBit_congr hshape hconvert hentry (valuesOf_sourceValues hshape)
        (valuesOf_sourceValues hshape) (hsame _ hentry)
    · have hpow := Nat.pow_le_pow_right (by decide : 0 < 2) hwidth
      rw [Nat.testBit_lt_two_pow ((lutResult_lt ..).trans_le hpow),
        Nat.testBit_lt_two_pow ((lutResult_lt ..).trans_le hpow)]

/-- An operation leaves the same environment, keeps the agreement, and has the same source
    values if they are observed. -/
theorem execute_agrees (hshape : ∀ r, Machine.computes? op = some r →
      (∃ f, op.opcode = .mov ∧ op.src = [.fifo f]) ∨ (∃ entries, op.opcode = .lut entries) ∨
        LoweringShape table op (.register r))
    (h : AgreeOn (operationCb table op after) regs regs') :
    (d.execute table env regs op).1 = (d.execute table env regs' op).1 ∧
      AgreeOn after (d.execute table env regs op).2 (d.execute table env regs' op).2 ∧
      (isObserved table op = true →
        d.sourceValues table env regs op = d.sourceValues table env regs' op) := by
  have hafter : AgreeOn after regs regs' := fun r b hb => h r b (operationCb_grows op hb)
  rcases operationCb_cases table op after with hall | ⟨hobserved, entries, r, hlut, hcomputes, hcb⟩
  · -- All sources are used, so both runs do the same
    rw [hall] at h
    have hvalues := @sourceValues_eq_of_all _ d _ env _ _ _ _ h
    refine ⟨?_, ?_, fun _ => hvalues⟩
    · rw [Machine.execute, Machine.execute, hvalues]
      split <;> rfl
    · rw [Machine.execute, Machine.execute, hvalues]
      split
      · exact hafter.update fun _ _ => rfl
      · exact hafter.writeAll _
  · rw [hcb] at h
    refine ⟨?_, ?_, fun hobs => absurd hobs (by rw [hobserved]; exact nofun)⟩
    · rw [Machine.execute, Machine.execute, hcomputes]
    · rw [Machine.execute, Machine.execute, hcomputes]
      refine hafter.update fun b hb => ?_
      exact lutResult_agrees (hshape r hcomputes) hlut (computes?_eq_some hcomputes).1 h hb

end Operations

/-! ## Two runs -/

section Runs

variable {E : Type} {d : Machine E} {table : RegisterTable} {cfg : PostPipelineGraph}
  {after : RegisterMap BitSet} {r b bb : Nat} {bits : BitSet} {s s' : RunState E}

/-- Passes through the block that writes the tampered register agree in the bits that are used
    by the operations still to come; all others are the same. -/
def PassAgrees (table : RegisterTable) (cfg : PostPipelineGraph) (bb : Nat)
    (after : RegisterMap BitSet) (p p' : Pass) : Prop :=
  p.block = p'.block ∧ p.position = p'.position ∧
    if p.block = bb then
      AgreeOn (usedFrom table ((dfa table cfg).operations bb) after p.position) p.regs p'.regs
    else p.regs = p'.regs

def RunAgrees (table : RegisterTable) (cfg : PostPipelineGraph) (bb : Nat)
    (after : RegisterMap BitSet) (s s' : RunState E) : Prop :=
  s.env = s'.env ∧ ∀ t, PassAgrees table cfg bb after (s.passes t) (s'.passes t)

theorem passAgrees_refl (p : Pass) : PassAgrees table cfg bb after p p := by
  refine ⟨rfl, rfl, ?_⟩
  split
  · exact fun _ _ _ => rfl
  · rfl

theorem PassAgrees.update {passes passes' : Nat → Pass} {t : Nat} {p p' : Pass}
    (h : ∀ t, PassAgrees table cfg bb after (passes t) (passes' t))
    (hp : PassAgrees table cfg bb after p p') (t' : Nat) :
    PassAgrees table cfg bb after (Function.update passes t p t')
      (Function.update passes' t p' t') := by
  by_cases ht : t' = t
  · subst ht
    rw [Function.update_self, Function.update_self]
    exact hp
  · rw [Function.update_of_ne ht, Function.update_of_ne ht]
    exact h t'

/-- The step of a pass through the block of the tampered register. -/
theorem step_agrees_inside (hpipelined : Pipelined table cfg)
    (hreport : ReportedBy table ((dfa table cfg).operations bb)
      (usedFrom table ((dfa table cfg).operations bb) after 0) r bits) (hb : b ∈ bits)
    {op : Operation} {i : Nat} (hop : ((dfa table cfg).operations bb)[i]? = some op) (env : E)
    {regs regs' : Nat → Nat} (flip : Bool)
    (h : AgreeOn (usedFrom table ((dfa table cfg).operations bb) after i) regs regs') :
    (d.execute table env regs op).1 = (d.execute table env regs' op).1 ∧
      AgreeOn (usedFrom table ((dfa table cfg).operations bb) after (i + 1))
        (d.execute table env regs op).2
        (if flip then tamper (some (r, b)) op (d.execute table env regs' op).2
          else (d.execute table env regs' op).2) ∧
      (isObserved table op = true →
        d.sourceValues table env regs op = d.sourceValues table env regs' op) := by
  rw [usedFrom_eq hop] at h
  obtain ⟨henv, hregs, hvalues⟩ := execute_agrees (d := d)
    (hpipelined.lowering_shape bb op (List.mem_of_getElem? hop)) h
  refine ⟨henv, ?_, hvalues⟩
  split
  · exact hregs.tamper (fun hused => hreport.unused b hb (used_zero_of_usedFrom hused)) op
  · exact hregs

/-- The tampered register is not written by the other blocks. -/
theorem tamper_outside (hpipelined : Pipelined table cfg)
    (hreport : ReportedBy table ((dfa table cfg).operations bb)
      (usedFrom table ((dfa table cfg).operations bb) after 0) r bits) {op : Operation}
    {bb' : Nat} (hop : op ∈ (dfa table cfg).operations bb') (hbb : bb' ≠ bb)
    (regs : Nat → Nat) : tamper (some (r, b)) op regs = regs := by
  obtain ⟨op₀, hop₀, hwrites₀⟩ := hreport.written
  refine if_neg fun hwrites => hbb ?_
  exact hpipelined.one_block bb' bb op hop op₀ hop₀ r hwrites hwrites₀ hreport.isLocal

/-- Every event gives the same observations and keeps the agreement. -/
theorem next_agrees (hpipelined : Pipelined table cfg)
    (hreport : ReportedBy table ((dfa table cfg).operations bb)
      (usedFrom table ((dfa table cfg).operations bb) after 0) r bits) (hb : b ∈ bits)
    (e : Event) (h : RunAgrees table cfg bb after s s') :
    (next d table cfg none s e).2 = (next d table cfg (some (r, b)) s' e).2 ∧
      RunAgrees table cfg bb after (next d table cfg none s e).1
        (next d table cfg (some (r, b)) s' e).1 := by
  obtain ⟨henv, hpasses⟩ := h
  cases e with
  | start t block regs => exact ⟨rfl, henv, PassAgrees.update hpasses (passAgrees_refl _)⟩
  | step t flip =>
      obtain ⟨hblock, hposition, hregs⟩ := hpasses t
      simp only [next, ← hblock, ← hposition, ← henv]
      cases hop : ((dfa table cfg).operations (s.passes t).block)[(s.passes t).position]? with
      | none => exact ⟨rfl, henv, hpasses⟩
      | some op =>
          have hnone : (if flip then tamper none op (d.execute table s.env (s.passes t).regs op).2
              else (d.execute table s.env (s.passes t).regs op).2) =
              (d.execute table s.env (s.passes t).regs op).2 := ite_self _
          simp only [hnone]
          by_cases hbb : (s.passes t).block = bb
          · rw [if_pos hbb] at hregs
            rw [hbb] at hop
            obtain ⟨henv', hregs', hvalues⟩ := step_agrees_inside (d := d) hpipelined hreport hb hop
              s.env flip hregs
            constructor
            · split
              next hobserved => rw [hvalues hobserved]
              next => rfl
            · refine ⟨henv', PassAgrees.update hpasses ⟨rfl, rfl, ?_⟩⟩
              rw [if_pos hbb]
              exact hregs'
          · rw [if_neg hbb] at hregs
            rw [hregs]
            refine ⟨rfl, rfl, PassAgrees.update hpasses ⟨rfl, rfl, ?_⟩⟩
            rw [if_neg hbb]
            split
            · exact (tamper_outside hpipelined hreport (List.mem_of_getElem? hop) hbb _).symm
            · rfl

/-- If a bit of a register is reported as unused, no run of the function changes when the value
    written to the bit does: all source values of live operations, of operations that write to
    FIFOs, and of operations that cannot be expressed as lookup tables are the same, and so is
    all that surrounds the function in the end. -/
theorem determineUnusedBits_noninterference (d : Machine E) (hpipelined : Pipelined table cfg)
    {fuel : Nat} {initial result : RegisterMap BitSet}
    (h : determineUnusedBitsForFunction table cfg fuel initial = some (.ok result))
    (hnew : initial[r]? = none) (hr : result[r]? = some bits) (hb : b ∈ bits) (s : RunState E)
    (events : List Event) :
    outputs (next d table cfg none) s events =
        outputs (next d table cfg (some (r, b))) s events ∧
      (finalState (next d table cfg none) s events).env =
        (finalState (next d table cfg (some (r, b))) s events).env := by
  obtain ⟨bb, after, hreport⟩ := determineUnusedBitsForFunction_reported h hnew hr
  have hstart : RunAgrees table cfg bb after s s := ⟨rfl, fun t => passAgrees_refl _⟩
  obtain ⟨houtputs, hfinal⟩ := outputs_eq
    (fun s s' e hs => next_agrees (d := d) hpipelined hreport hb e hs) hstart events
  exact ⟨houtputs, hfinal.1⟩

end Runs

/-! ## A narrowing move -/

/-- Two bits come from a FIFO, and one of them is printed. -/
def narrowedTable : RegisterTable :=
  [⟨2, .wire, false, false, none⟩, ⟨1, .wire, false, false, none⟩]

def narrowedBlock : List Operation :=
  [{ opcode := .mov, src := [.fifo ⟨2, 0, 2⟩], dst := [.register 0] },
    { opcode := .mov, src := [.register 0], dst := [.register 1] },
    { opcode := .print, src := [.register 1] }]

def narrowedGraph : PostPipelineGraph where
  function := ⟨0, [⟨[], [], [⟨0, narrowedBlock⟩]⟩]⟩
  front := 0
  back := 0
  translateRegisterIndex _ _ _ := none

theorem narrowedGraph_operations (bb : Nat) :
    (dfa narrowedTable narrowedGraph).operations bb = if bb = 0 then narrowedBlock else [] := by
  cases bb <;> rfl

theorem narrowedGraph_pipelined : Pipelined narrowedTable narrowedGraph where
  lowering_shape bb op hop r hr := by
    rw [narrowedGraph_operations] at hop
    split at hop
    · simp only [narrowedBlock, List.mem_cons, List.not_mem_nil, or_false] at hop
      rcases hop with rfl | rfl | rfl
      · exact .inl ⟨_, rfl, rfl⟩
      · obtain rfl := Option.some.inj hr
        refine .inr (.inr ⟨rfl, fun s hs => ?_, nofun, nofun⟩)
        rw [List.mem_singleton.mp hs]
        exact ⟨by decide, by decide⟩
      · exact nomatch hr
    · exact absurd hop List.not_mem_nil
  one_block bb bb' op hop op' hop' _ _ _ _ := by
    rw [narrowedGraph_operations] at hop hop'
    split at hop
    · split at hop'
      · omega
      · exact absurd hop' List.not_mem_nil
    · exact absurd hop List.not_mem_nil

theorem determineUnusedBits_narrowed :
    determineUnusedBitsForFunction narrowedTable narrowedGraph 1 ∅ =
      some (.ok (insertUsedBits ∅ 0 {1})) := by
  rfl

/-- The upper bit can be flipped whenever it is written. -/
theorem determineUnusedBits_noninterference_narrowed :
    ∃ d : Machine Nat, outputs (next d narrowedTable narrowedGraph none)
        ⟨0, fun _ => ⟨0, 0, fun _ => 0⟩⟩ [.step 0 true, .step 0 true, .step 0 true] =
      outputs (next d narrowedTable narrowedGraph (some (0, 1)))
        ⟨0, fun _ => ⟨0, 0, fun _ => 0⟩⟩ [.step 0 true, .step 0 true, .step 0 true] := by
  refine ⟨⟨⟨fun _ _ => 0, fun _ _ => 3, fun env _ _ => (env + 1, [])⟩, fun _ _ => 0⟩, ?_⟩
  exact (determineUnusedBits_noninterference _ narrowedGraph_pipelined
    determineUnusedBits_narrowed rfl rfl (by decide) _ _).1

end Kanagawa.Lower.UnusedBits
