/-
  Kanagawa.RiscV.Pipeline

  The pipeline of `processor/risc_v/internal/core.k` against executing one
  instruction at a time.

  `fetch` follows the predictions, so slots are fetched and executed before it
  is known whether their instruction is reached. A hart's `commit` says
  whether the slots that are executed count. A slot whose next address is not
  the predicted one, or that traps, clears it and leaves the address to go on
  from in `pipeline_flush_pc`; the slot that `fetch` starts there sets it
  again when it is executed. The steps are `fetch`, executing the oldest slot
  of a hart, and handling its trap, in any order that keeps the slots of a
  hart in order. What the branch target buffer holds is an argument of every
  fetch.

  The core is configured without micro-ops, external fetch and memory-mapped
  IO.
-/
import Kanagawa.RiscV.Core

namespace Kanagawa.RiscV

open Library Runs

variable {cfg : Config}

/-! ## Harts -/

/-- An entry of the branch target buffer. -/
structure Prediction (cfg : Config) where
  take : Bool
  tag : Nat
  targetPc : cfg.ImemAddr

/-- `predict`, for the entry that is read from the buffer -/
def predict (btbSize : Nat) (pc nextPc : cfg.ImemAddr) (prediction : Prediction cfg) :
    cfg.ImemAddr :=
  if cfg.harts ≤ 4 then
    if prediction.take = true ∧ pc.toNat >>> indexWidth btbSize = prediction.tag then
      prediction.targetPc
    else nextPc
  else nextPc

/-- The fields of `Hart` that such a core uses, the slots that are fetched and not yet executed,
the oldest first, and those whose trap is not yet handled. -/
structure Hart (cfg : Config) where
  pc : cfg.ImemAddr
  pipelineFlushPc : Option cfg.ImemAddr := none
  commit : Bool := true
  fetchEnable : Bool := true
  trap : Bool := false
  slots : List (Current cfg) := []
  trapping : List (Current cfg × Committed cfg) := []

namespace Hart

/-- `current.recovered_from_pipeline_flush` of the slot that is fetched next -/
def recovers (h : Hart cfg) : Bool := h.pipelineFlushPc.isSome && !h.trap

/-- `fetch`. An instruction that is not fetched is undefined. -/
def fetch (imem : cfg.ImemAddr → Instr) (btbSize : Nat) (hid : cfg.HartIndex)
    (prediction : Prediction cfg) (undefinedInstr : Instr) (h : Hart cfg) : Hart cfg :=
  let fetchPc := h.pipelineFlushPc.getD h.pc
  let nextPc := fetchPc + 1
  let predictedPc :=
    if h.pipelineFlushPc.isSome then nextPc else predict btbSize h.pc nextPc prediction
  let fetchEnable := h.fetchEnable || h.recovers
  let slot : Current cfg :=
    { hid, pc := fetchPc, nextPc, predictedPc
      instr := if fetchEnable then imem fetchPc else undefinedInstr
      recoveredFromPipelineFlush := h.recovers }
  { h with
    pc := predictedPc
    pipelineFlushPc := if h.recovers then none else h.pipelineFlushPc
    fetchEnable
    slots := h.slots ++ [slot] }

/-- The hart after `slot` is taken from its queue and before it commits. -/
def take (slot : Current cfg) (rest : List (Current cfg)) (h : Hart cfg) : Hart cfg :=
  { h with slots := rest, commit := h.commit || slot.recoveredFromPipelineFlush }

/-- The hart after a slot commits with `c`. -/
def commitWith (slot : Current cfg) (c : Committed cfg) (h : Hart cfg) : Hart cfg :=
  let commit := decide (c.results.nextPc = slot.predictedPc) && !c.trap
  { h with
    trap := c.trap
    commit
    pipelineFlushPc := if commit then none else some c.results.nextPc
    fetchEnable := commit
    trapping := if c.trap then h.trapping ++ [(slot, c)] else h.trapping }

/-- The hart after the system has handled a trap, with the address that it returned. -/
def handleTrap (rest : List (Current cfg × Committed cfg)) (returned : Option cfg.ImemAddr)
    (h : Hart cfg) : Hart cfg :=
  { h with
    pipelineFlushPc := h.pipelineFlushPc.map fun old => returned.getD old
    trap := false
    trapping := rest }

end Hart

/-! ## The pipeline -/

/-- What happens to the program: an instruction is executed, or the system handles its trap. -/
inductive Entry (cfg : Config) where
  | executed (hid : cfg.HartIndex) (pc : cfg.ImemAddr) (instr : Instr) (c : Committed cfg)
  | handled (hid : cfg.HartIndex) (pc : cfg.ImemAddr) (cause : Trap)
      (returned : Option cfg.ImemAddr)

/-- The core, with the log of the instructions that it has committed and of the traps. -/
structure Pipeline (cfg : Config) where
  arch : Architectural cfg
  hart : cfg.HartIndex → Hart cfg
  log : List (Entry cfg) := []

/-- The steps of the threads of the pipeline. -/
inductive PipelineEvent (cfg : Config) where
  | fetch (hid : cfg.HartIndex) (prediction : Prediction cfg) (undefinedInstr : Instr)
  | execute (hid : cfg.HartIndex) (env : Environment cfg) (undefined : Undefined)
  | handleTrap (hid : cfg.HartIndex) (returned : Option cfg.ImemAddr)

namespace Pipeline

variable (imem : cfg.ImemAddr → Instr) (btbSize : Nat)

/-- Executing the oldest slot of a hart. -/
def execute (p : Pipeline cfg) (hid : cfg.HartIndex) (env : Environment cfg)
    (undefined : Undefined) : Pipeline cfg :=
  match (p.hart hid).slots with
  | [] => p
  | slot :: rest =>
    let h := (p.hart hid).take slot rest
    if h.commit then
      let c := commitSlot env undefined p.arch slot
      { arch := c.state
        hart := Function.update p.hart hid (h.commitWith slot c)
        log := p.log ++ [.executed hid slot.pc slot.instr c] }
    else { p with hart := Function.update p.hart hid h }

/-- Handling the oldest trap of a hart. -/
def handleTrap (p : Pipeline cfg) (hid : cfg.HartIndex) (returned : Option cfg.ImemAddr) :
    Pipeline cfg :=
  match (p.hart hid).trapping with
  | [] => p
  | (slot, c) :: rest =>
    { p with
      hart := Function.update p.hart hid ((p.hart hid).handleTrap rest returned)
      log := p.log ++ [.handled hid slot.pc c.cause returned] }

/-- The core after a step. -/
def next (p : Pipeline cfg) : PipelineEvent cfg → Pipeline cfg
  | .fetch hid prediction undefinedInstr =>
    { p with
      hart := Function.update p.hart hid
        ((p.hart hid).fetch imem btbSize hid prediction undefinedInstr) }
  | .execute hid env undefined => p.execute hid env undefined
  | .handleTrap hid returned => p.handleTrap hid returned

/-- The assertions on `commit`, `trap` and `pipeline_flush_pc` that a step makes. -/
def Asserts (p : Pipeline cfg) : PipelineEvent cfg → Prop
  | .fetch hid _ _ =>
    ((p.hart hid).trap = false ∨ (p.hart hid).pipelineFlushPc.isSome = true) ∧
      ((p.hart hid).recovers = true → (p.hart hid).commit = false)
  | .execute hid _ _ =>
    ∀ slot ∈ (p.hart hid).slots.head?,
      (slot.recoveredFromPipelineFlush = true → (p.hart hid).commit = false) ∧
        ((p.hart hid).commit = true ∨ slot.recoveredFromPipelineFlush = true →
          (p.hart hid).trap = false ∧ (p.hart hid).pipelineFlushPc = none)
  | .handleTrap hid _ =>
    (p.hart hid).trap = true ∧ (p.hart hid).commit = false ∧
      (p.hart hid).pipelineFlushPc.isSome = true

/-- The core from `initialize` on. -/
def system (arch : Architectural cfg) (pc : cfg.HartIndex → cfg.ImemAddr) :
    System (Pipeline cfg) (PipelineEvent cfg) where
  start := { arch, hart := fun hid => { pc := pc hid } }
  Enabled p
    | .fetch _ _ _ => True
    | .execute hid _ _ => (p.hart hid).slots ≠ []
    | .handleTrap hid _ => (p.hart hid).trapping ≠ []
  next := next imem btbSize

end Pipeline

/-! ## One instruction at a time -/

/-- A machine that executes the instructions of a hart one after another. A hart whose
instruction has trapped goes on when the trap is handled. -/
structure Sequential (cfg : Config) where
  arch : Architectural cfg
  pc : cfg.HartIndex → cfg.ImemAddr
  trapped : cfg.HartIndex → Option (cfg.ImemAddr × Trap) := fun _ => none

namespace Sequential

/-- The slot of the instruction that a hart is at. -/
def slot (imem : cfg.ImemAddr → Instr) (hid : cfg.HartIndex) (pc : cfg.ImemAddr) : Current cfg where
  hid := hid
  pc := pc
  nextPc := pc + 1
  predictedPc := pc + 1
  instr := imem pc

/-- The runs of the machine, with their logs. -/
inductive Run (imem : cfg.ImemAddr → Instr) (start : Sequential cfg) :
    List (Entry cfg) → Sequential cfg → Prop where
  | start : Run imem start [] start
  | execute {log : List (Entry cfg)} {s : Sequential cfg} (hid : cfg.HartIndex)
      (env : Environment cfg) (undefined : Undefined) {c : Committed cfg} :
      Run imem start log s → s.trapped hid = none →
      c = commitSlot env undefined s.arch (slot imem hid (s.pc hid)) →
      Run imem start (log ++ [.executed hid (s.pc hid) (imem (s.pc hid)) c])
        { arch := c.state
          pc := Function.update s.pc hid c.results.nextPc
          trapped := Function.update s.trapped hid
            (if c.trap then some (s.pc hid, c.cause) else none) }
  | handle {log : List (Entry cfg)} {s : Sequential cfg} (hid : cfg.HartIndex)
      {pc : cfg.ImemAddr} {cause : Trap} (returned : Option cfg.ImemAddr) :
      Run imem start log s → s.trapped hid = some (pc, cause) →
      Run imem start (log ++ [.handled hid pc cause returned])
        { s with
          pc := Function.update s.pc hid (returned.getD (s.pc hid))
          trapped := Function.update s.trapped hid none }

end Sequential

/-! ## The slots in flight -/

section Slots

variable (imem : cfg.ImemAddr → Instr) (hid : cfg.HartIndex)

/-- A slot for the instruction at an address. -/
structure Fetched (slot : Current cfg) (pc : cfg.ImemAddr) : Prop where
  hid_eq : slot.hid = hid
  pc_eq : slot.pc = pc
  nextPc_eq : slot.nextPc = pc + 1
  instr_eq : slot.instr = imem pc

/-- Slots that follow their predictions from one address to another. -/
def Chain : cfg.ImemAddr → List (Current cfg) → cfg.ImemAddr → Prop
  | pc, [], last => pc = last
  | pc, slot :: rest, last =>
    slot.recoveredFromPipelineFlush = false ∧ Fetched imem hid slot pc ∧
      Chain slot.predictedPc rest last

variable {imem hid}

theorem Chain.append {slot : Current cfg} {last : cfg.ImemAddr}
    (hrec : slot.recoveredFromPipelineFlush = false) (hslot : Fetched imem hid slot last) :
    ∀ {pc : cfg.ImemAddr} {slots : List (Current cfg)}, Chain imem hid pc slots last →
      Chain imem hid pc (slots ++ [slot]) slot.predictedPc
  | _, [], h => by
    obtain rfl := h
    exact ⟨hrec, hslot, rfl⟩
  | _, _ :: _, h => ⟨h.1, h.2.1, Chain.append hrec hslot h.2.2⟩

theorem Chain.not_recovered {last : cfg.ImemAddr} :
    ∀ {pc : cfg.ImemAddr} {slots : List (Current cfg)}, Chain imem hid pc slots last →
      ∀ slot ∈ slots, slot.recoveredFromPipelineFlush = false
  | _, [], _, _, hmem => absurd hmem List.not_mem_nil
  | _, _ :: _, h, slot, hmem => by
    rcases List.mem_cons.mp hmem with rfl | hrest
    · exact h.1
    · exact h.2.2.not_recovered slot hrest

/-- A slot for an instruction commits what executing that instruction does. -/
theorem Fetched.commitSlot_eq {slot : Current cfg} {pc : cfg.ImemAddr}
    (h : Fetched imem hid slot pc) (env : Environment cfg) (undefined : Undefined)
    (arch : Architectural cfg) :
    commitSlot env undefined arch slot =
      commitSlot env undefined arch (Sequential.slot imem hid pc) := by
  obtain ⟨hid', pc', nextPc, predictedPc, instr, recovered⟩ := slot
  obtain ⟨h1, h2, h3, h4⟩ := h
  dsimp only at h1 h2 h3 h4
  subst h1 h2 h3 h4
  rfl

end Slots

/-! ## The invariant -/

/-- The states of a hart whose program is at `pc`, with a trap of it that is pending. Its slots
count from the first one on; or none of them counts and it is to go on from `pipeline_flush_pc`;
or they count from the one that was fetched there. -/
inductive HartInv (imem : cfg.ImemAddr → Instr) (hid : cfg.HartIndex) (h : Hart cfg)
    (pc : cfg.ImemAddr) (trapped : Option (cfg.ImemAddr × Trap)) : Prop where
  | committing (hcommit : h.commit = true) (hflush : h.pipelineFlushPc = none)
      (htrap : h.trap = false) (henable : h.fetchEnable = true) (hpending : h.trapping = [])
      (htrapped : trapped = none) (hchain : Chain imem hid pc h.slots h.pc)
  | flushing (hcommit : h.commit = false) (hflush : h.pipelineFlushPc = some pc)
      (htrap : h.trap = trapped.isSome)
      (hpending : h.trapping.map (fun t => (t.1.pc, t.2.cause)) = trapped.toList)
      (hjunk : ∀ slot ∈ h.slots, slot.recoveredFromPipelineFlush = false)
  | recovering {junk rest : List (Current cfg)} {slot : Current cfg} (hcommit : h.commit = false)
      (hflush : h.pipelineFlushPc = none) (htrap : h.trap = false)
      (henable : h.fetchEnable = true) (hpending : h.trapping = []) (htrapped : trapped = none)
      (hslots : h.slots = junk ++ slot :: rest)
      (hjunk : ∀ slot ∈ junk, slot.recoveredFromPipelineFlush = false)
      (hrec : slot.recoveredFromPipelineFlush = true) (hslot : Fetched imem hid slot pc)
      (hchain : Chain imem hid slot.predictedPc rest h.pc)

section Hart

variable {imem : cfg.ImemAddr → Instr} {hid : cfg.HartIndex} {h : Hart cfg} {pc : cfg.ImemAddr}
  {trapped : Option (cfg.ImemAddr × Trap)}

/-- Fetching keeps a hart where its program is. -/
theorem HartInv.fetch (hinv : HartInv imem hid h pc trapped) (btbSize : Nat)
    (prediction : Prediction cfg) (undefinedInstr : Instr) :
    HartInv imem hid (h.fetch imem btbSize hid prediction undefinedInstr) pc trapped := by
  cases hinv with
  | committing hcommit hflush htrap henable hpending htrapped hchain =>
    have hrec : h.recovers = false := by simp [Hart.recovers, hflush]
    refine .committing hcommit ?_ htrap ?_ hpending htrapped ?_
    · simp [Hart.fetch, hrec, hflush]
    · simp [Hart.fetch, henable]
    · refine Chain.append hrec ?_ hchain
      exact ⟨rfl, by simp [hflush], by simp [hflush], by simp [henable, hflush]⟩
  | flushing hcommit hflush htrap hpending hjunk =>
    cases hpend : trapped with
    | some t =>
      -- The address of a pending trap is fetched again and again.
      have hrec : h.recovers = false := by simp [Hart.recovers, htrap, hpend]
      refine .flushing hcommit ?_ ?_ ?_ ?_
      · simp [Hart.fetch, hrec, hflush]
      · rw [← hpend]
        exact htrap
      · rw [← hpend]
        exact hpending
      · intro slot hmem
        rcases List.mem_append.mp hmem with hold | hnew
        · exact hjunk slot hold
        · rw [List.mem_singleton.mp hnew]
          exact hrec
    | none =>
      have hrec : h.recovers = true := by simp [Hart.recovers, htrap, hpend, hflush]
      have hnone : h.trapping = [] := by
        rw [hpend] at hpending
        exact List.map_eq_nil_iff.mp hpending
      refine .recovering hcommit ?_ ?_ ?_ hnone rfl rfl hjunk hrec ?_ ?_
      · simp [Hart.fetch, hrec]
      · rw [← Option.isSome_none, ← hpend]
        exact htrap
      · simp [Hart.fetch, hrec]
      · exact ⟨rfl, by simp [hflush], by simp [hflush], by simp [hrec, hflush]⟩
      · exact rfl
  | @recovering junk rest slot hcommit hflush htrap henable hpending htrapped hslots hjunk hrec hslot
      hchain =>
    have hnot : h.recovers = false := by simp [Hart.recovers, hflush]
    refine .recovering hcommit ?_ htrap ?_ hpending htrapped
      ((congrArg (· ++ [_]) hslots).trans (List.append_assoc junk (slot :: rest) [_])) hjunk hrec
      hslot (Chain.append hnot ?_ hchain)
    · simp [Hart.fetch, hnot, hflush]
    · simp [Hart.fetch, henable]
    · exact ⟨rfl, by simp [hflush], by simp [hflush], by simp [henable, hflush]⟩

/-- A slot that commits brings the program to its next address. -/
theorem HartInv.commitWith {slot : Current cfg} {rest : List (Current cfg)} {c : Committed cfg}
    (hslots : h.slots = rest)
    (hpending : h.trapping = []) (hslot : slot.pc = pc)
    (hchain : Chain imem hid slot.predictedPc rest h.pc) :
    HartInv imem hid (h.commitWith slot c) c.results.nextPc
      (if c.trap then some (pc, c.cause) else none) := by
  subst hslots
  by_cases hgood : c.results.nextPc = slot.predictedPc ∧ c.trap = false
  · have hdecide : (decide (c.results.nextPc = slot.predictedPc) && !c.trap) = true := by
      simp [hgood.1, hgood.2]
    refine .committing ?_ ?_ ?_ ?_ ?_ ?_ ?_
    · exact hdecide
    · simp [Hart.commitWith, hdecide]
    · exact hgood.2
    · exact hdecide
    · simp [Hart.commitWith, hgood.2, hpending]
    · simp [hgood.2]
    · rw [hgood.1]
      exact hchain
  · have hdecide : (decide (c.results.nextPc = slot.predictedPc) && !c.trap) = false := by
      cases htrap : c.trap with
      | true => simp
      | false =>
        have hne : c.results.nextPc ≠ slot.predictedPc := fun heq => hgood ⟨heq, htrap⟩
        simp [hne]
    refine .flushing ?_ ?_ ?_ ?_ ?_
    · exact hdecide
    · simp [Hart.commitWith, hdecide]
    · cases htrap : c.trap <;> simp [Hart.commitWith, htrap]
    · cases htrap : c.trap <;> simp [Hart.commitWith, htrap, hpending, hslot]
    · exact hchain.not_recovered

/-- What executing the oldest slot of a hart does: a slot that does not commit is dropped, and
one that commits is for the instruction that the program is at. -/
theorem HartInv.take {slot : Current cfg} {rest : List (Current cfg)}
    (hinv : HartInv imem hid h pc trapped) (hslots : h.slots = slot :: rest) :
    (slot.recoveredFromPipelineFlush = true → h.commit = false) ∧
      (((h.take slot rest).commit = false ∧ HartInv imem hid (h.take slot rest) pc trapped) ∨
        ((h.take slot rest).commit = true ∧ h.trap = false ∧ h.pipelineFlushPc = none ∧
          h.trapping = [] ∧ trapped = none ∧ Fetched imem hid slot pc ∧
          Chain imem hid slot.predictedPc rest h.pc)) := by
  cases hinv with
  | committing hcommit hflush htrap henable hpending htrapped hchain =>
    rw [hslots] at hchain
    refine ⟨fun hrec => ?_, .inr ⟨?_, htrap, hflush, hpending, htrapped, hchain.2⟩⟩
    · rw [hchain.1] at hrec
      exact absurd hrec (by simp)
    · simp [Hart.take, hcommit]
  | flushing hcommit hflush htrap hpending hjunk =>
    have hslot : slot.recoveredFromPipelineFlush = false :=
      hjunk slot (by rw [hslots]; exact List.mem_cons_self)
    have hdrop : (h.take slot rest).commit = false := by simp [Hart.take, hcommit, hslot]
    refine ⟨fun _ => hcommit, .inl ⟨hdrop, .flushing hdrop hflush htrap hpending ?_⟩⟩
    intro s hs
    exact hjunk s (by rw [hslots]; exact List.mem_cons_of_mem _ hs)
  | @recovering junk tail recovered hcommit hflush htrap henable hpending htrapped hqueue hjunk hrec
      hslot hchain =>
    refine ⟨fun _ => hcommit, ?_⟩
    rw [hqueue] at hslots
    cases junk with
    | nil =>
      -- The slot that was fetched after the flush is the oldest one.
      obtain ⟨rfl, rfl⟩ := List.cons.inj hslots
      refine .inr ⟨?_, htrap, hflush, hpending, htrapped, hslot, hchain⟩
      simp [Hart.take, hrec]
    | cons first junk =>
      obtain ⟨rfl, rfl⟩ := List.cons.inj hslots
      have hfirst := hjunk first List.mem_cons_self
      have hdrop : (h.take first (junk ++ recovered :: tail)).commit = false := by
        simp [Hart.take, hcommit, hfirst]
      exact .inl ⟨hdrop, .recovering hdrop hflush htrap henable hpending htrapped rfl
        (fun s hs => hjunk s (List.mem_cons_of_mem _ hs)) hrec hslot hchain⟩

/-- Handling a trap moves the program to the address that was returned. -/
theorem HartInv.handleTrap {slot : Current cfg} {c : Committed cfg}
    {rest : List (Current cfg × Committed cfg)} (hinv : HartInv imem hid h pc trapped)
    (hpend : h.trapping = (slot, c) :: rest) (returned : Option cfg.ImemAddr) :
    (h.trap = true ∧ h.commit = false ∧ h.pipelineFlushPc.isSome = true) ∧
      trapped = some (slot.pc, c.cause) ∧
      HartInv imem hid (h.handleTrap rest returned) (returned.getD pc) none := by
  cases hinv with
  | committing _ _ _ _ hpending => exact absurd (hpend.symm.trans hpending) (by simp)
  | recovering _ _ _ _ hpending => exact absurd (hpend.symm.trans hpending) (by simp)
  | flushing hcommit hflush htrap hpending hjunk =>
    rw [hpend] at hpending
    cases trapped with
    | none => exact absurd hpending (by simp)
    | some t =>
      obtain ⟨rfl, hrest⟩ := List.cons.inj hpending
      refine ⟨⟨htrap, hcommit, by simp [hflush]⟩, rfl, .flushing hcommit ?_ rfl ?_ hjunk⟩
      · simp [Hart.handleTrap, hflush]
      · exact hrest

end Hart

/-! ## Runs -/

/-- A core and a machine that are at the same places. -/
structure Simulates (imem : cfg.ImemAddr → Instr) (start : Sequential cfg) (p : Pipeline cfg)
    (s : Sequential cfg) : Prop where
  run : Sequential.Run imem start p.log s
  arch : p.arch = s.arch
  hart : ∀ hid, HartInv imem hid (p.hart hid) (s.pc hid) (s.trapped hid)

section Runs

variable {imem : cfg.ImemAddr → Instr} {start : Sequential cfg} {p : Pipeline cfg}
  {s : Sequential cfg}

/-- Only the hart of a step changes. -/
theorem hartInv_update {hid : cfg.HartIndex} {h : Hart cfg} {pc : cfg.ImemAddr}
    {trapped : Option (cfg.ImemAddr × Trap)}
    (hall : ∀ hid, HartInv imem hid (p.hart hid) (s.pc hid) (s.trapped hid))
    (hnew : HartInv imem hid h pc trapped) (other : cfg.HartIndex) :
    HartInv imem other (Function.update p.hart hid h other)
      (Function.update s.pc hid pc other) (Function.update s.trapped hid trapped other) := by
  by_cases heq : other = hid
  · subst heq
    simp only [Function.update_self]
    exact hnew
  · simp only [Function.update_of_ne heq]
    exact hall other

theorem Simulates.fetch (h : Simulates imem start p s) (btbSize : Nat) (hid : cfg.HartIndex)
    (prediction : Prediction cfg) (undefinedInstr : Instr) :
    Simulates imem start (p.next imem btbSize (.fetch hid prediction undefinedInstr)) s := by
  refine ⟨h.run, h.arch, fun other => ?_⟩
  have hinv := hartInv_update h.hart ((h.hart hid).fetch btbSize prediction undefinedInstr) other
  simp only [Function.update_eq_self] at hinv
  exact hinv

theorem Simulates.execute (h : Simulates imem start p s) (hid : cfg.HartIndex)
    (env : Environment cfg) (undefined : Undefined) :
    ∃ s', Simulates imem start (p.execute hid env undefined) s' := by
  unfold Pipeline.execute
  split
  · exact ⟨s, h⟩
  · rename_i slot rest hslots
    obtain ⟨-, hdrop | hcommit⟩ := (h.hart hid).take hslots
    · refine ⟨s, ?_⟩
      simp only [hdrop.1, Bool.false_eq_true, if_false]
      refine ⟨h.run, h.arch, fun other => ?_⟩
      have hinv := hartInv_update h.hart hdrop.2 other
      simpa only [Function.update_eq_self] using hinv
    · obtain ⟨hcommit, htrap, hflush, hpending, htrapped, hslot, hchain⟩ := hcommit
      simp only [hcommit, if_true]
      have hc : commitSlot env undefined p.arch slot =
          commitSlot env undefined s.arch (Sequential.slot imem hid (s.pc hid)) := by
        rw [hslot.commitSlot_eq, h.arch]
      have hrun := h.run.execute hid env undefined htrapped hc
      rw [hslot.pc_eq, hslot.instr_eq]
      exact ⟨_, hrun, rfl, hartInv_update h.hart
        (HartInv.commitWith rfl hpending hslot.pc_eq hchain)⟩

theorem Simulates.handleTrap (h : Simulates imem start p s) (hid : cfg.HartIndex)
    (returned : Option cfg.ImemAddr) :
    ∃ s', Simulates imem start (p.handleTrap hid returned) s' := by
  unfold Pipeline.handleTrap
  split
  · exact ⟨s, h⟩
  · rename_i slot c rest hpend
    obtain ⟨-, htrapped, hinv⟩ := (h.hart hid).handleTrap hpend returned
    exact ⟨_, h.run.handle hid returned htrapped, h.arch, hartInv_update h.hart hinv⟩

/-- The assertions hold in every state that simulates the machine. -/
theorem Simulates.asserts (h : Simulates imem start p s) {arch : Architectural cfg}
    {pc : cfg.HartIndex → cfg.ImemAddr} {btbSize : Nat} {e : PipelineEvent cfg}
    (he : (Pipeline.system imem btbSize arch pc).Enabled p e) : p.Asserts e := by
  cases e with
  | fetch hid prediction undefinedInstr =>
    cases h.hart hid with
    | committing hcommit hflush htrap => exact ⟨.inl htrap, by simp [Hart.recovers, hflush]⟩
    | flushing hcommit hflush => exact ⟨.inr (by simp [hflush]), fun _ => hcommit⟩
    | recovering hcommit hflush htrap => exact ⟨.inl htrap, fun _ => hcommit⟩
  | execute hid env undefined =>
    intro slot hslot
    obtain ⟨rest, hslots⟩ := List.head?_eq_some_iff.mp hslot
    obtain ⟨hrec, hcases⟩ := (h.hart hid).take hslots
    refine ⟨hrec, fun hcommit => ?_⟩
    rcases hcases with ⟨hdrop, -⟩ | ⟨-, htrap, hflush, -⟩
    · rcases hcommit with hcommit | hcommit <;> simp [Hart.take, hcommit] at hdrop
    · exact ⟨htrap, hflush⟩
  | handleTrap hid returned =>
    obtain ⟨⟨slot, c⟩, rest, hpend⟩ := List.exists_cons_of_ne_nil he
    exact ((h.hart hid).handleTrap hpend returned).1

end Runs

section Refinement

variable (imem : cfg.ImemAddr → Instr) (btbSize : Nat) (arch : Architectural cfg)
  (pc : cfg.HartIndex → cfg.ImemAddr)

/-- The machine that starts where the core does. -/
def Sequential.initial : Sequential cfg := { arch, pc }

theorem pipeline_simulates {p : Pipeline cfg}
    (h : (Pipeline.system imem btbSize arch pc).Reachable p) :
    ∃ s, Simulates imem (Sequential.initial arch pc) p s := by
  induction h with
  | start =>
    refine ⟨Sequential.initial arch pc, .start, rfl, fun hid => ?_⟩
    exact .committing rfl rfl rfl rfl rfl rfl rfl
  | @step p e _ _ ih =>
    obtain ⟨s, hs⟩ := ih
    cases e with
    | fetch hid prediction undefinedInstr => exact ⟨s, hs.fetch btbSize hid prediction undefinedInstr⟩
    | execute hid env undefined => exact hs.execute hid env undefined
    | handleTrap hid returned => exact hs.handleTrap hid returned

end Refinement

/-- Two slots are fetched and the first one, `addi x1, x0, 5`, is executed. -/
def smallEvents : List (PipelineEvent smallConfig) :=
  [.fetch ⟨0, by decide⟩ ⟨false, 0, 0⟩ 0, .fetch ⟨0, by decide⟩ ⟨true, 0, 7⟩ 0,
    .execute ⟨0, by decide⟩ smallEnvironment ⟨0, fun _ => 0⟩]

/-- The core that executes them, with the same word at every address. -/
def smallCore : System (Pipeline smallConfig) (PipelineEvent smallConfig) :=
  Pipeline.system (fun _ => 0x00500093#32) 1024 smallState fun _ => 0

/-- A write to a register leaves the others, and those of the other harts. -/
theorem RegisterFile.get_apply {rf : RegisterFile} {hid other : Nat} {reg : Reg}
    {written : Option (Reg × Word)}
    (hne : hid ≠ other ∨ ∀ pair ∈ written, pair.1 ≠ reg) :
    (rf.apply hid written).get other reg = rf.get other reg := by
  cases written with
  | none => rfl
  | some pair =>
    refine Function.update_of_ne ?_ _ _
    intro heq
    have hreg := reg.isLt
    have hwritten := pair.1.isLt
    rcases hne with hhid | hpair
    · exact hhid (by omega)
    · exact hpair pair rfl (BitVec.eq_of_toNat_eq (by omega))

/-- An instruction that commits writes no register of another hart, and never register 0. -/
theorem commitSlot_get (env : Environment cfg) (undefined : Undefined) (state : Architectural cfg)
    (current : Current cfg) {other : Nat} {reg : Reg} (hne : current.hid ≠ other ∨ reg = 0) :
    (commitSlot env undefined state current).state.registerFile.get other reg =
      state.registerFile.get other reg := by
  simp only [commitSlot]
  split
  · rfl
  · refine RegisterFile.get_apply (hne.imp_right ?_)
    rintro rfl pair hpair hzero
    simp only [write, Option.mem_def, Option.map_eq_some_iff] at hpair
    obtain ⟨rd, hrd, rfl⟩ := hpair
    simp only [decode, decodeInstr, decodeFormat, makeOptional] at hrd
    split at hrd
    · rename_i hvalid
      obtain rfl := Option.some.inj hrd
      exact (of_decide_eq_true hvalid).2.2 hzero
    · cases hrd

section Registers

variable {imem : cfg.ImemAddr → Instr} {btbSize : Nat} {arch : Architectural cfg}
  {pc : cfg.HartIndex → cfg.ImemAddr} {p : Pipeline cfg}

/-- A step changes registers only by executing a slot of their hart. -/
theorem next_get (h : (Pipeline.system imem btbSize arch pc).Reachable p) (e : PipelineEvent cfg)
    {other : cfg.HartIndex} {reg : Reg}
    (hother : reg = 0 ∨ ∀ env undefined, e ≠ .execute other env undefined) :
    (p.next imem btbSize e).arch.registerFile.get other reg =
      p.arch.registerFile.get other reg := by
  obtain ⟨s, hs⟩ := pipeline_simulates imem btbSize arch pc h
  cases e with
  | fetch hid prediction undefinedInstr => rfl
  | handleTrap hid returned =>
    simp only [Pipeline.next, Pipeline.handleTrap]
    split <;> rfl
  | execute hid env undefined =>
    simp only [Pipeline.next, Pipeline.execute]
    split
    · rfl
    · rename_i slot rest hslots
      obtain ⟨-, hdrop | hcommit⟩ := (hs.hart hid).take hslots
      · rw [if_neg (by simp [hdrop.1])]
      · rw [if_pos hcommit.1]
        refine commitSlot_get env undefined p.arch slot ?_
        rw [hcommit.2.2.2.2.2.1.hid_eq]
        refine hother.symm.imp_left fun hall heq => ?_
        obtain rfl := Fin.ext heq
        exact hall env undefined rfl

end Registers

end Kanagawa.RiscV
