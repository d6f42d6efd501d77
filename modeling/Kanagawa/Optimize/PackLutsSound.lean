/-
  Kanagawa.Optimize.PackLutsSound

  When packing into lookup tables preserves the values of a block.

  The definitions that the tracker knows hold their results, since renaming keeps
  their sources from being overwritten; so an operation may look at the sources of
  a definition instead of its result.  What is folded into an operation, and what
  the tracker says of it, is a relation of its own (`Folds`), from which both the
  shape of the result and its value follow.
-/
import Kanagawa.Optimize.PackLuts
import Kanagawa.Optimize.CombineLutsSound
import Kanagawa.Lib.Related

namespace Kanagawa.Optimize

open IR Lib.Except Lib
open LocalDefUseTracker

/-! ## The shape of a merged operation -/

section

variable {table : RegisterTable} {op prevOp : Operation} {dst : DestinationOperand}

/-- The places of the new columns are registers that one of the two operations reads, and the
    columns are bits of these registers. -/
structure ColumnsFit (table : RegisterTable) (op prevOp : Operation) (registers : List Nat)
    (sources : List (Nat × Nat)) : Prop where
  reads : ∀ r ∈ registers, r ∈ op.reads ∨ r ∈ prevOp.reads
  bits : ∀ s ∈ sources, ∃ r, registers[s.1]? = some r ∧ s.2 < (table.desc r).width

theorem mem_reads_of_getElem? {i r : Nat} (h : op.src[i]? = some (.register r)) : r ∈ op.reads :=
  List.mem_filterMap.mpr ⟨.register r, List.mem_of_getElem? h, rfl⟩

theorem register_of_register? {s : SourceOperand} {r : Nat} (h : s.register? = some r) :
    s = .register r := by
  cases s with
  | register _ =>
      obtain rfl := Option.some.inj h
      rfl
  | literal _ => exact nomatch h
  | fifo _ => exact nomatch h
  | stringLiteral _ => exact nomatch h

theorem mem_addRegister {registers : List Nat} {srcReg r : Nat}
    (h : r ∈ addRegister registers srcReg) : r ∈ registers ∨ r = srcReg := by
  unfold addRegister at h
  split at h
  · exact .inl h
  · simpa using h

theorem self_mem_addRegister (registers : List Nat) (srcReg : Nat) :
    srcReg ∈ addRegister registers srcReg := by
  unfold addRegister
  split
  next h => exact h
  next => simp

theorem ColumnsFit.of_prefix {registers registers' : List Nat} {sources : List (Nat × Nat)}
    (h : ColumnsFit table op prevOp registers sources) (hpre : registers <+: registers')
    (hreads : ∀ r ∈ registers', r ∈ op.reads ∨ r ∈ prevOp.reads) :
    ColumnsFit table op prevOp registers' sources := by
  refine ⟨hreads, ?_⟩
  intro s hs
  obtain ⟨r, hr, hbit⟩ := h.bits s hs
  obtain ⟨hlt, -⟩ := List.getElem?_eq_some_iff.mp hr
  obtain ⟨rest, rfl⟩ := hpre
  refine ⟨r, ?_, hbit⟩
  rw [List.getElem?_append_left hlt]
  exact hr

/-- A bit of a register that has a place. -/
theorem ColumnsFit.addBit {acc : NewSources} {srcReg bit : Nat}
    (h : ColumnsFit table op prevOp acc.registers acc.newSources) (hmem : srcReg ∈ acc.registers)
    (hbit : bit < (table.desc srcReg).width) :
    ColumnsFit table op prevOp (acc.addBit srcReg bit).registers
      (acc.addBit srcReg bit).newSources := by
  refine ⟨h.reads, ?_⟩
  intro s hs
  simp only [NewSources.addBit, addSource] at hs
  split at hs
  · exact h.bits s hs
  · rcases List.mem_append.mp hs with hs | hs
    · exact h.bits s hs
    · obtain rfl := List.mem_singleton.mp hs
      exact ⟨srcReg, List.getElem?_idxOf hmem, hbit⟩

theorem visitPrevSource_fits {acc acc' : NewSources} {source : Nat × Nat}
    {prevEntry : LutEntry} (hfits : EntryFits table prevOp.src prevEntry)
    (hsource : source ∈ prevEntry.sources)
    (h : ColumnsFit table op prevOp acc.registers acc.newSources)
    (hok : visitPrevSource prevOp acc source = .ok acc') :
    ColumnsFit table op prevOp acc'.registers acc'.newSources := by
  obtain ⟨srcReg, hreg, hok⟩ := bind_eq_ok_iff.mp hok
  obtain rfl := Except.ok.inj hok
  obtain ⟨r, hr, hbit⟩ := hfits.registers source hsource
  obtain rfl : r = srcReg := by
    rw [registerAt, hr] at hreg
    exact Except.ok.inj hreg
  apply ColumnsFit.addBit _ (self_mem_addRegister _ _) hbit
  apply h.of_prefix (prefix_addRegister _ _)
  intro r' hr'
  rcases mem_addRegister hr' with hr' | rfl
  · exact h.reads r' hr'
  · exact .inr (mem_reads_of_getElem? hr)

theorem visitSource_fits {prevEntries : List LutEntry} {selectedSrcOpIdx : Nat}
    {acc acc' : NewSources} {source : Nat × Nat} {entry : LutEntry}
    (hfits : EntryFits table op.src entry)
    (hprev : ∀ prevEntry ∈ prevEntries, EntryFits table prevOp.src prevEntry)
    (hsource : source ∈ entry.sources)
    (h : ColumnsFit table op prevOp acc.registers acc.newSources)
    (hok : visitSource op prevOp prevEntries selectedSrcOpIdx acc source = .ok acc') :
    ColumnsFit table op prevOp acc'.registers acc'.newSources := by
  unfold visitSource at hok
  split at hok
  · obtain ⟨prevEntry, hprevEntry, hok⟩ := bind_eq_ok_iff.mp hok
    have hmem : prevEntry ∈ prevEntries := by
      unfold prevEntryAt at hprevEntry
      split at hprevEntry
      next hget => exact Except.ok.inj hprevEntry ▸ List.mem_of_getElem? hget
      next => exact nomatch hprevEntry
    exact foldlM_preserves
      (fun acc₁ : NewSources => ColumnsFit table op prevOp acc₁.registers acc₁.newSources)
      (fun s hs _ _ hacc hstep => visitPrevSource_fits (hprev prevEntry hmem) hs hacc hstep) h hok
  · obtain ⟨srcReg, hreg, hok⟩ := bind_eq_ok_iff.mp hok
    obtain ⟨_, hassert, hok⟩ := bind_eq_ok_iff.mp hok
    obtain rfl := Except.ok.inj hok
    obtain ⟨r, hr, hbit⟩ := hfits.registers source hsource
    obtain rfl : r = srcReg := by
      rw [registerAt, hr] at hreg
      exact Except.ok.inj hreg
    exact h.addBit (of_decide_eq_true (of_assert hassert)) hbit

theorem combineEntry_fits {prevEntries : List LutEntry} {selectedSrcOpIdx : Nat}
    {registers registers' : List Nat} {entry newEntry : LutEntry}
    (hfits : EntryFits table op.src entry)
    (hprev : ∀ prevEntry ∈ prevEntries, EntryFits table prevOp.src prevEntry)
    (hreads : ∀ r ∈ registers, r ∈ op.reads ∨ r ∈ prevOp.reads)
    (h : combineEntry op prevOp prevEntries selectedSrcOpIdx registers entry =
      .ok (some (registers', newEntry))) :
    ColumnsFit table op prevOp registers' newEntry.sources := by
  simp only [combineEntry, bind_eq_ok_iff] at h
  obtain ⟨acc, hacc, h⟩ := h
  split at h
  · cases h
  next =>
    simp only [bind_eq_ok_iff, pure_eq_ok, Except.ok.injEq, Option.some.injEq, Prod.mk.injEq] at h
    obtain ⟨_, -, _, -, rfl, rfl⟩ := h
    exact foldlM_preserves
      (fun acc₁ : NewSources => ColumnsFit table op prevOp acc₁.registers acc₁.newSources)
      (fun s hs _ _ hcolumns hstep => visitSource_fits hfits hprev hs hcolumns hstep)
      ⟨hreads, fun s hs => absurd hs List.not_mem_nil⟩ hacc

theorem combineEntries_fits {prevEntries : List LutEntry} {selectedSrcOpIdx : Nat}
    (hconstant : ∀ entry ∈ prevEntries, ConstantBit entry)
    (hprev : ∀ prevEntry ∈ prevEntries, EntryFits table prevOp.src prevEntry)
    {entries : List LutEntry} : ∀ {registers registers' : List Nat} {newEntries : List LutEntry},
      (∀ entry ∈ entries, EntryFits table op.src entry) →
      (∀ r ∈ registers, r ∈ op.reads ∨ r ∈ prevOp.reads) →
      combineEntries op prevOp prevEntries selectedSrcOpIdx registers entries =
        .ok (some (registers', newEntries)) →
      (∀ r ∈ registers', r ∈ op.reads ∨ r ∈ prevOp.reads) ∧
        ∀ newEntry ∈ newEntries, ColumnsFit table op prevOp registers' newEntry.sources := by
  induction entries with
  | nil =>
      intro registers registers' newEntries _ hreads h
      obtain ⟨rfl, rfl⟩ := Prod.mk.inj (Option.some.inj (Except.ok.inj h))
      exact ⟨hreads, fun e he => absurd he List.not_mem_nil⟩
  | cons entry entries ih =>
      intro registers registers' newEntries hfits hreads h
      simp only [combineEntries, bind_eq_ok_iff] at h
      obtain ⟨first, hfirst, h⟩ := h
      cases first with
      | none => cases h
      | some first =>
          obtain ⟨registers₁, newEntry⟩ := first
          simp only [bind_eq_ok_iff, pure_eq_ok, Except.ok.injEq] at h
          obtain ⟨rest, hrest, h⟩ := h
          obtain ⟨⟨registers₂, newEntries₂⟩, rfl, heq⟩ := Option.map_eq_some_iff.mp h
          obtain ⟨rfl, rfl⟩ := Prod.mk.inj heq
          have hhead := combineEntry_fits (hfits entry List.mem_cons_self) hprev hreads hfirst
          obtain ⟨hreads₂, hall⟩ := ih (fun e he => hfits e (List.mem_cons_of_mem _ he))
            hhead.reads hrest
          obtain ⟨hpre, -⟩ := combineEntries_spec hconstant hrest
          refine ⟨hreads₂, ?_⟩
          intro e he
          rcases List.mem_cons.mp he with rfl | he
          · exact hhead.of_prefix hpre hreads₂
          · exact hall e he

theorem initialRegisters_reads (op : Operation) (selectedSrcOpIdx : Nat) :
    ∀ r ∈ initialRegisters op selectedSrcOpIdx, r ∈ op.reads := by
  -- The step of the loop adds at most the register of the source
  obtain ⟨step, hfold, hstep⟩ : ∃ step : List Nat → SourceOperand × Nat → List Nat,
      initialRegisters op selectedSrcOpIdx = op.src.zipIdx.foldl step [] ∧
      ∀ registers p, ∀ r ∈ step registers p, r ∈ registers ∨ p.1.register? = some r := by
    refine ⟨_, rfl, fun registers p r hr => ?_⟩
    split at hr
    next srcReg hreg =>
      split at hr
      · exact .inl hr
      · rcases mem_addRegister hr with hr | rfl
        · exact .inl hr
        · exact .inr hreg
    next => exact .inl hr
  have hloop : ∀ (l : List (SourceOperand × Nat)) (registers : List Nat),
      (∀ p ∈ l, p.1 ∈ op.src) → (∀ r ∈ registers, r ∈ op.reads) →
      ∀ r ∈ l.foldl step registers, r ∈ op.reads := by
    intro l
    induction l with
    | nil => exact fun registers _ hregisters => hregisters
    | cons p l ih =>
        intro registers hl hregisters
        rw [List.foldl_cons]
        apply ih _ fun q hq => hl q (List.mem_cons_of_mem _ hq)
        intro r hr
        rcases hstep registers p r hr with hr | hreg
        · exact hregisters r hr
        · exact List.mem_filterMap.mpr ⟨p.1, hl p List.mem_cons_self, hreg⟩
  rw [hfold]
  apply hloop _ _ _ (fun r hr => absurd hr List.not_mem_nil)
  intro p hp
  exact List.fst_mem_of_mem_zipIdx hp

/-- The entries lose sources only, and the operands go all or none. -/
structure Narrows (op op' : Operation) (entries entries' : List LutEntry) : Prop where
  opcode : op'.opcode = .lut entries'
  sources : List.Forall₂ (fun entry entry' : LutEntry => entry'.sources ⊆ entry.sources)
    entries entries'
  operands : op'.src = op.src ∨ op'.src = [] ∧ ∀ entry ∈ entries', entry.sources = []

theorem subset_trans_forall₂ {entries entries₁ : List LutEntry}
    (h : List.Forall₂ (fun entry entry' : LutEntry => entry'.sources ⊆ entry.sources)
      entries entries₁) : ∀ {entries₂ : List LutEntry},
    List.Forall₂ (fun entry entry' : LutEntry => entry'.sources ⊆ entry.sources)
      entries₁ entries₂ →
    List.Forall₂ (fun entry entry' : LutEntry => entry'.sources ⊆ entry.sources)
      entries entries₂ := by
  induction h with
  | nil => exact fun h' => h'
  | cons hhead _ ih =>
      intro entries₂ h'
      cases h' with
      | cons hhead' hrest' => exact .cons (fun s hs => hhead (hhead' hs)) (ih hrest')

theorem removeAllUnusedSources_narrows (fuel : Nat) :
    ∀ {op op' : Operation} {entries : List LutEntry}, LutOperation op entries →
      removeAllUnusedSources fuel op = some (.ok op') →
      ∃ entries', op'.opcode = .lut entries' ∧ op'.src = op.src ∧
        List.Forall₂ (fun entry entry' : LutEntry => entry'.sources ⊆ entry.sources)
          entries entries' := by
  induction fuel with
  | zero =>
      intro op op' entries _ h
      cases h
  | succ fuel ih =>
      intro op op' entries hlut h
      obtain ⟨entries₁, hok, hrewrites, hall⟩ := forEachEntry_spec hlut fun entry _ =>
        removeCandidate_spec op.src entry fun c hc => List.mem_range.mp hc
      have hsubset := hall.imp fun _ _ hs => hs.sources
      rw [removeAllUnusedSources, removeUnusedLutSourceRegisters, hok] at h
      split at h
      · cases h
      next heq =>
        obtain ⟨rfl, -⟩ := Prod.mk.inj (Except.ok.inj heq)
        obtain ⟨entries', hopcode, hsrc, hrest⟩ := ih hrewrites.lut h
        exact ⟨entries', hopcode, hsrc, subset_trans_forall₂ hsubset hrest⟩
      next heq =>
        obtain ⟨rfl, -⟩ := Prod.mk.inj (Except.ok.inj heq)
        obtain rfl := Except.ok.inj (Option.some.inj h)
        exact ⟨entries₁, rfl, rfl, hsubset⟩

theorem optimizeLutOpt_narrows {fuel : Nat} {entries : List LutEntry} {op' : Operation}
    (hlut : LutOperation op entries) (h : optimizeLutOpt fuel op = some (.ok op')) :
    ∃ entries', Narrows op op' entries entries' := by
  obtain ⟨result, hresult, hmap⟩ := Option.map_eq_some_iff.mp h
  obtain ⟨op₁, hop₁, hok⟩ := bind_eq_ok_iff.mp hmap
  subst hop₁
  obtain ⟨op₁', entries₁', heq, hopt⟩ := removeAllUnusedSources_spec fuel hlut hresult
  obtain rfl := Except.ok.inj heq
  obtain ⟨entries₁, hopcode, hsrc, hsubset⟩ := removeAllUnusedSources_narrows fuel hlut hresult
  obtain rfl : entries₁' = entries₁ := by
    have := hopt.lut.opcode.symm.trans hopcode
    injection this
  obtain ⟨entries', hmapM, hall⟩ := mapM_succeeds (l := entries₁') fun entry hentry =>
    optimizeConstantEntry_spec op₁.src (hopt.lut.length_le entry hentry)
  rw [hopcode] at hok
  simp only [optimizeEntries, hmapM, ok_bind, pure_eq_ok] at hok
  obtain rfl := Except.ok.inj hok
  have hsubset' := subset_trans_forall₂ hsubset (hall.imp fun _ _ hs => hs.sources)
  refine ⟨entries', rfl, hsubset', ?_⟩
  dsimp only
  split
  · exact .inl hsrc
  next hneeds =>
    refine .inr ⟨rfl, ?_⟩
    intro entry hentry
    have hnone := List.any_eq_false.mp (Bool.eq_false_iff.mpr hneeds) entry hentry
    rw [decide_eq_true_eq, not_not] at hnone
    exact List.length_eq_zero_iff.mp hnone

/-- The merged operation can be merged again, and reads nothing new. -/
theorem combineLuts_convertible {fuel r selectedSrcOpIdx maxSources : Nat} {op' : Operation}
    (hop : LutConvertible table op dst) (hprev : LutConvertible table prevOp (.register r))
    (h : combineLuts fuel table op prevOp selectedSrcOpIdx maxSources =
      some (.ok (true, op'))) :
    (∃ entries, op'.opcode = .lut entries) ∧ LutConvertible table op' dst ∧
      ∀ s ∈ op'.reads, s ∈ op.reads ∨ s ∈ prevOp.reads := by
  unfold combineLuts at h
  split at h
  · cases h
  · cases h
  next newOp hmerge =>
    obtain ⟨entries, prevEntries, registers, newEntries, hlowered, hprevLowered, rfl, hcombine⟩ :=
      mergeLuts_cases hop hprev hmerge
    obtain ⟨-, hall⟩ := combineEntries_spec hprevLowered.constant hcombine
    have hlut := lutOperation_of_combines dst op.tag hall
    obtain ⟨hreads, hcolumns⟩ := @combineEntries_fits table
      { op with opcode := .lut entries, signExtendSourceMask := 0 }
      { prevOp with opcode := .lut prevEntries, signExtendSourceMask := 0 } _ _
      hprevLowered.constant hprevLowered.fits _ _ _ _ hlowered.fits
      (fun r hr => .inl (initialRegisters_reads op selectedSrcOpIdx r hr)) hcombine
    obtain ⟨result, hresult, h⟩ := Option.map_eq_some_iff.mp h
    obtain ⟨op₁, entries₁, rfl, hopt⟩ := optimizeLutOpt_spec hlut hresult
    obtain ⟨entries₁', hnarrows⟩ := optimizeLutOpt_narrows hlut hresult
    obtain rfl : entries₁ = entries₁' := by
      have hopcode := hopt.lut.opcode.symm.trans hnarrows.opcode
      injection hopcode
    have haccept : acceptLut maxSources op op₁ = (true, op') := Except.ok.inj h
    simp only [acceptLut, hopt.lut.opcode] at haccept
    split at haccept
    · cases haccept
    obtain ⟨-, rfl⟩ := Prod.mk.inj haccept
    have hregister : ∀ r ∈ registers, SourceShape table (.register r) := by
      intro r hr
      rcases hreads r hr with hr | hr
      · obtain ⟨s, hs, hreg⟩ := List.mem_filterMap.mp hr
        exact register_of_register? hreg ▸ hop.src_shape s hs
      · obtain ⟨s, hs, hreg⟩ := List.mem_filterMap.mp hr
        exact register_of_register? hreg ▸ hprev.src_shape s hs
    -- The operands that are left are registers of the merged operation
    have hsrc : ∀ s ∈ op₁.src, ∃ r ∈ registers, s = .register r := by
      intro s hs
      rcases hnarrows.operands with heq | ⟨heq, -⟩
      · rw [heq] at hs
        obtain ⟨r, hr, rfl⟩ := List.mem_map.mp hs
        exact ⟨r, hr, rfl⟩
      · rw [heq] at hs
        cases hs
    refine ⟨⟨entries₁, hnarrows.opcode⟩, ?_, ?_⟩
    · apply LutConvertible.lut entries₁ hnarrows.opcode hopt.dst
      · intro s hs
        obtain ⟨r, hr, rfl⟩ := hsrc s hs
        exact hregister r hr
      · rw [← hnarrows.sources.length_eq, ← hall.length_eq, hlowered.length_eq]
      · intro entry hentry
        refine ⟨hopt.lut.length_le entry hentry, ?_⟩
        intro source hsource
        obtain ⟨newEntry, hnew, hsub⟩ := Related.exists_left hnarrows.sources hentry
        obtain ⟨r, hr, hbit⟩ := (hcolumns newEntry hnew).bits source (hsub hsource)
        rcases hnarrows.operands with heq | ⟨-, hnone⟩
        · refine ⟨r, ?_, hbit⟩
          rw [heq, List.getElem?_map, hr]
          rfl
        · rw [hnone entry hentry] at hsource
          cases hsource
      · exact hopt.lut.constants
    · intro s hs
      obtain ⟨s', hs', hreg⟩ := List.mem_filterMap.mp hs
      obtain ⟨r, hr, rfl⟩ := hsrc s' hs'
      obtain rfl := Option.some.inj hreg
      exact hreads r hr

end

/-! ## Runs of a block -/

/-- The rest of the system: what the operations that are not lowered do, and what other
    threads do between two operations.  Local registers change by their own operations only. -/
structure Device (table : RegisterTable) (W : Type) where
  exec : Operation → (Nat → Nat) → W → (Nat → Nat) × W
  interfere : (Nat → Nat) → W → (Nat → Nat) × W
  exec_frame : ∀ op regs w r, table.isLocal r = true → r ∉ op.writes → (exec op regs w).1 r = regs r
  interfere_frame : ∀ regs w r, table.isLocal r = true → (interfere regs w).1 r = regs r

section

variable {table : RegisterTable} {W : Type} (d : Device table W)

/-- One operation; nothing where it has no meaning. -/
def Device.step (σ : (Nat → Nat) × W) (op : Operation) : Option ((Nat → Nat) × W) :=
  let σ' := d.interfere σ.1 σ.2
  if canOpcodeBeLoweredToLut op.opcode then
    match op.dst with
    | [.register r] =>
        (operationValue table σ'.1 (table.desc r).width op).map fun v =>
          (Function.update σ'.1 r v, σ'.2)
    | _ => none
  else some (d.exec op σ'.1 σ'.2)

/-- The states after each operation of a block. -/
def Device.states (σ : (Nat → Nat) × W) : List Operation → Option (List ((Nat → Nat) × W))
  | [] => some []
  | op :: ops => (d.step σ op).bind fun σ' => (Device.states σ' ops).map (σ' :: ·)

/-- No table that `LowerToLut` makes of an operation of the run is wrong about the values its
    sources have there. -/
def Device.NoneMisjudged (σ : (Nat → Nat) × W) : List Operation → Prop
  | [] => True
  | op :: ops =>
      (∀ r, canOpcodeBeLoweredToLut op.opcode = true → op.dst = [.register r] →
        ¬ MisjudgedAt table op (.register r)
          (op.src.map (operandLiteral table (d.interfere σ.1 σ.2).1))) ∧
      ∀ σ', d.step σ op = some σ' → Device.NoneMisjudged σ' ops

end

/-! ## What is folded -/

/-- An operation after some merges with operations that are allowed for a source register. -/
inductive Folds (fuel : Nat) (table : RegisterTable) (maxSources : Nat)
    (allowed : Operation → Nat → Prop) : Operation → Operation → Prop
  | refl (op : Operation) : Folds fuel table maxSources allowed op op
  | step {op op₁ op₂ prevOp : Operation} {srcOpIdx r : Nat}
      (hfolds : Folds fuel table maxSources allowed op op₁)
      (hsrc : op₁.src[srcOpIdx]? = some (.register r)) (hallowed : allowed prevOp r)
      (hmerge : combineLuts fuel table op₁ prevOp srcOpIdx maxSources = some (.ok (true, op₂))) :
      Folds fuel table maxSources allowed op op₂

section

variable {fuel : Nat} {table : RegisterTable} {maxSources : Nat}
  {allowed allowed' : Operation → Nat → Prop} {op op' : Operation} {dst : DestinationOperand}

theorem Folds.imp (h : Folds fuel table maxSources allowed op op')
    (himp : ∀ prevOp r, allowed prevOp r → allowed' prevOp r) :
    Folds fuel table maxSources allowed' op op' := by
  induction h with
  | refl => exact .refl op
  | step _ hsrc hallowed hmerge ih => exact .step ih hsrc (himp _ _ hallowed) hmerge

/-- What merges leave of the shape of an operation. -/
structure Merged (table : RegisterTable) (P : Nat → Prop) (op op' : Operation)
    (dst : DestinationOperand) : Prop where
  convertible : LutConvertible table op' dst
  opcode : op' = op ∨ ∃ entries, op'.opcode = .lut entries
  reads : ∀ s ∈ op'.reads, P s

/-- Merging with definitions that can be lowered keeps the shape, and reads only what the
    operation or a definition reads. -/
theorem Folds.merged {P : Nat → Prop} (h : Folds fuel table maxSources allowed op op')
    (hop : LutConvertible table op dst) (hreads : ∀ s ∈ op.reads, P s)
    (hallowed : ∀ prevOp r, allowed prevOp r →
      LutConvertible table prevOp (.register r) ∧ ∀ s ∈ prevOp.reads, P s) :
    Merged table P op op' dst := by
  induction h with
  | refl => exact ⟨hop, .inl rfl, hreads⟩
  | step _ hsrc hprev hmerge ih =>
      obtain ⟨hconvertible, hprevReads⟩ := hallowed _ _ hprev
      obtain ⟨hopcode, hconvertible', hreads'⟩ :=
        combineLuts_convertible ih.convertible hconvertible hmerge
      refine ⟨hconvertible', .inr hopcode, ?_⟩
      intro s hs
      rcases hreads' s hs with hs | hs
      · exact ih.reads s hs
      · exact hprevReads s hs

theorem not_misjudgedAt_lut {entries : List LutEntry} (h : op.opcode = .lut entries)
    (values : List Literal) : ¬ MisjudgedAt table op dst values := by
  rintro ⟨type, a, b, hop, -⟩
  rw [h] at hop
  exact nomatch hop

/-- Merging with definitions whose results the registers hold keeps the value. -/
theorem Folds.value {regs : Nat → Nat} (h : Folds fuel table maxSources allowed op op')
    (hop : LutConvertible table op dst)
    (hnot : ¬ MisjudgedAt table op dst (op.src.map (operandLiteral table regs)))
    (hallowed : ∀ prevOp r, allowed prevOp r → LutConvertible table prevOp (.register r) ∧
      Produces table regs prevOp r ∧
      ¬ MisjudgedAt table prevOp (.register r) (prevOp.src.map (operandLiteral table regs)))
    {v : Nat} (hv : operationValue table regs (dst.width table) op = some v) :
    operationValue table regs (dst.width table) op' = some v := by
  induction h with
  | refl => exact hv
  | @step op₁ _ _ _ _ hfolds hsrc hprev hmerge ih =>
      obtain ⟨hconvertible, hproduces, hprevNot⟩ := hallowed _ _ hprev
      have hmerged := hfolds.merged (P := fun _ => True) hop (fun _ _ => trivial)
        fun prevOp r hr => ⟨(hallowed prevOp r hr).1, fun _ _ => trivial⟩
      have hnot₁ : ¬ MisjudgedAt table op₁ dst (op₁.src.map (operandLiteral table regs)) := by
        rcases hmerged.opcode with heq | ⟨entries, hentries⟩
        · exact heq ▸ hnot
        · exact not_misjudgedAt_lut hentries _
      obtain ⟨-, -, -, -, hiff⟩ :=
        (combineLuts_preserves_iff hmerged.convertible hconvertible hsrc hmerge).2 rfl
      exact (hiff regs hproduces hprevNot).mpr hnot₁ v ih

end

/-! ## The tracker -/

/-- Some operation that can be lowered reads a register. -/
def ReadByLut (operations : List Operation) (r : Nat) : Prop :=
  ∃ op ∈ operations, canOpcodeBeLoweredToLut op.opcode = true ∧ r ∈ op.reads

/-- Some operation that can be lowered, on local registers only, writes a register. -/
def WrittenByLut (table : RegisterTable) (operations : List Operation) (r : Nat) : Prop :=
  ∃ op ∈ operations, canOpcodeBeLoweredToLut op.opcode = true ∧
    operationUsesOnlyLocalReg table op = true ∧ r ∈ op.writes

/-- Registers are written once, and before they are read. -/
structure Renamed (table : RegisterTable) (operations : List Operation) : Prop where
  pairwise : operations.Pairwise fun op later =>
    ∀ r ∈ later.writes, table.isLocal r = true → r ∉ op.reads ∧ r ∉ op.writes
  self : ∀ op ∈ operations, ∀ r ∈ op.writes, table.isLocal r = true → r ∉ op.reads

/-- What is known of the definition of a register. -/
structure Defined (table : RegisterTable) (operations earlier rest : List Operation)
    (r position : Nat) (prevOp : Operation) : Prop where
  get : earlier[position]? = some prevOp
  convertible : LutConvertible table prevOp (.register r)
  isLocal : table.isLocal r = true
  written : WrittenByLut table operations r
  kept : ∀ op ∈ rest, r ∉ op.writes
  readsLocal : ∀ s ∈ prevOp.reads, table.isLocal s = true
  readsLut : ∀ s ∈ prevOp.reads, ReadByLut operations s
  readsKept : ∀ s ∈ prevOp.reads, ∀ op ∈ rest, s ∉ op.writes
  noBarrier : ∀ k op, position < k → earlier[k]? = some op →
    doesOpcodeImplyOptimizationBarrier op.opcode = false

/-- The tracker is right about the operations so far. -/
def Tracked (table : RegisterTable) (operations : List Operation) (definitionMap : DefinitionMap)
    (earlier rest : List Operation) : Prop :=
  ∀ r position, definitionMap[r]? = some position →
    ∃ prevOp, Defined table operations earlier rest r position prevOp

/-- The registers hold the results of the definitions, about which no table is wrong. -/
def DefinitionsHold (table : RegisterTable) (definitionMap : DefinitionMap) (earlier : List Operation)
    (regs : Nat → Nat) : Prop :=
  ∀ r position prevOp, definitionMap[r]? = some position → earlier[position]? = some prevOp →
    Produces table regs prevOp r ∧
      ¬ MisjudgedAt table prevOp (.register r) (prevOp.src.map (operandLiteral table regs))

/-- What the tracker allows to merge with. -/
def TrackerAllows (operations : List Operation) (definitionMap : DefinitionMap)
    (earlier : List Operation) (prevOp : Operation) (r : Nat) : Prop :=
  registerReadCount operations r = 1 ∧ ReadByLut operations r ∧
    ∃ position, definitionMap[r]? = some position ∧ earlier[position]? = some prevOp

section

variable {fuel : Nat} {table : RegisterTable} {operations earlier rest : List Operation}
  {maxSources : Nat} {definitionMap : DefinitionMap} {op op' prevOp : Operation} {r : Nat}
  {regs regs' : Nat → Nat}

theorem operandLiteral_congr {s : SourceOperand} (h : ∀ r, s = .register r → regs' r = regs r) :
    operandLiteral table regs' s = operandLiteral table regs s := by
  cases s with
  | register r =>
      rw [operandLiteral, operandLiteral, SourceOperand.literalIn, SourceOperand.literalIn, h r rfl]
  | literal _ => rfl
  | fifo _ => rfl
  | stringLiteral _ => rfl

/-- The values of the sources are those of the registers that are read. -/
theorem sourceValues_congr (h : ∀ s ∈ op.reads, regs' s = regs s) :
    op.src.map (operandLiteral table regs') = op.src.map (operandLiteral table regs) := by
  apply List.map_congr_left
  intro s hs
  apply operandLiteral_congr
  rintro r rfl
  exact h r (List.mem_filterMap.mpr ⟨_, hs, rfl⟩)

theorem produces_congr (hconvertible : LutConvertible table prevOp (.register r))
    (hreads : ∀ s ∈ prevOp.reads, regs' s = regs s) (hr : regs' r = regs r)
    (h : Produces table regs prevOp r) : Produces table regs' prevOp r := by
  unfold Produces at h ⊢
  rw [hconvertible.operationValue_eq] at h ⊢
  rw [sourceValues_congr hreads, hr]
  exact h

/-- Operations that write no register of a definition keep what is known of it. -/
theorem DefinitionsHold.of_frame (hholds : DefinitionsHold table definitionMap earlier regs)
    (htracked : Tracked table operations definitionMap earlier (op :: rest))
    (hframe : ∀ s, table.isLocal s = true → s ∉ op.writes → regs' s = regs s) :
    DefinitionsHold table definitionMap earlier regs' := by
  intro r position prevOp hr hget
  obtain ⟨prevOp', hdef⟩ := htracked r position hr
  obtain rfl : prevOp = prevOp' := Option.some.inj (hget.symm.trans hdef.get)
  obtain ⟨hproduces, hnot⟩ := hholds r position prevOp hr hget
  have hreads : ∀ s ∈ prevOp.reads, regs' s = regs s := fun s hs =>
    hframe s (hdef.readsLocal s hs) (hdef.readsKept s hs op List.mem_cons_self)
  refine ⟨?_, ?_⟩
  · exact produces_congr hdef.convertible hreads
      (hframe r hdef.isLocal (hdef.kept op List.mem_cons_self)) hproduces
  · rw [sourceValues_congr hreads]
    exact hnot

/-- A definition stays one when the walk goes on. -/
theorem Defined.advance {position : Nat}
    (h : Defined table operations earlier (op :: rest) r position prevOp)
    (hbarrier : doesOpcodeImplyOptimizationBarrier op'.opcode = false) :
    Defined table operations (earlier ++ [op']) rest r position prevOp where
  get := by
    obtain ⟨hlt, -⟩ := List.getElem?_eq_some_iff.mp h.get
    rw [List.getElem?_append_left hlt]
    exact h.get
  convertible := h.convertible
  isLocal := h.isLocal
  written := h.written
  kept := fun o ho => h.kept o (List.mem_cons_of_mem _ ho)
  readsLocal := h.readsLocal
  readsLut := h.readsLut
  readsKept := fun s hs o ho => h.readsKept s hs o (List.mem_cons_of_mem _ ho)
  noBarrier := by
    intro k o hk hget
    rcases Nat.lt_or_ge k earlier.length with hlt | hge
    · rw [List.getElem?_append_left hlt] at hget
      exact h.noBarrier k o hk hget
    · rw [List.getElem?_append_right hge] at hget
      obtain rfl := List.mem_singleton.mp (List.mem_of_getElem? hget)
      exact hbarrier

/-! ### One operation -/

theorem mergeCandidate_spec {prevOperationSet : List Nat} {srcReg position : Nat}
    (h : mergeCandidate table operations earlier definitionMap op prevOperationSet srcReg =
      .ok (some (prevOp, position))) :
    registerReadCount operations srcReg = 1 ∧ definitionMap[srcReg]? = some position ∧
      (earlier ++ [op])[position]? = some prevOp := by
  simp only [mergeCandidate, bind_eq_ok_iff] at h
  obtain ⟨definition, hdef, numReads, hcount, h⟩ := h
  split at h
  next => exact nomatch h
  next position' =>
    split at h
    next hone =>
      split at h
      next => exact nomatch h
      next prevOp' hget =>
        simp only [bind_eq_ok_iff] at h
        obtain ⟨_, -, _, -, _, -, h⟩ := h
        have h' := Except.ok.inj h
        split at h'
        next => exact nomatch h'
        next =>
          obtain ⟨rfl, rfl⟩ := Prod.mk.inj (Option.some.inj h')
          refine ⟨?_, ?_, hget⟩
          · unfold getUseCount at hcount
            split at hcount
            next => exact nomatch hcount
            next => rw [Except.ok.inj hcount, hone]
          · unfold getDef at hdef
            split at hdef
            next => exact nomatch hdef
            next heq =>
              obtain ⟨_, -, hdef⟩ := bind_eq_ok_iff.mp hdef
              rw [heq, Except.ok.inj hdef]
    next => exact nomatch h

theorem lift_eq_ok {α : Type} {result : Except Failure α} {a : α}
    (h : Packing.lift result = .ok a) : result = .ok a := by
  cases result with
  | error e => exact nomatch h
  | ok b => exact congrArg _ (Except.ok.inj h)

theorem liftFuel_eq_ok {α : Type} {result : Option (Except Failure α)} {a : α}
    (h : Packing.liftFuel result = .ok a) : result = some (.ok a) := by
  cases result with
  | none => exact nomatch h
  | some result => rw [lift_eq_ok h]

/-- A merge that the loop over the sources finds. -/
theorem combineSource_spec {prevOperationSet : List Nat} {position : Nat} :
    ∀ {indices : List Nat},
      combineSource fuel table operations maxSources earlier definitionMap op prevOperationSet
        indices = .ok (some (op', position)) →
      ∃ srcOpIdx r prevOp, op.src[srcOpIdx]? = some (.register r) ∧
        registerReadCount operations r = 1 ∧ definitionMap[r]? = some position ∧
        (earlier ++ [op])[position]? = some prevOp ∧
        combineLuts fuel table op prevOp srcOpIdx maxSources = some (.ok (true, op')) := by
  intro indices
  induction indices with
  | nil => exact fun h => nomatch h
  | cons srcOpIdx indices ih =>
      intro h
      rw [combineSource] at h
      split at h
      next srcReg hsrc =>
        obtain ⟨candidate, hcandidate, h⟩ := bind_eq_ok_iff.mp h
        cases candidate with
        | none => exact ih h
        | some candidate =>
            obtain ⟨prevOp, position'⟩ := candidate
            obtain ⟨⟨combined, op₁⟩, hcombine, h⟩ := bind_eq_ok_iff.mp h
            cases combined with
            | false => exact ih h
            | true =>
                obtain ⟨rfl, rfl⟩ := Prod.mk.inj (Option.some.inj (Except.ok.inj h))
                obtain ⟨hcount, hdef, hget⟩ := mergeCandidate_spec (lift_eq_ok hcandidate)
                exact ⟨srcOpIdx, srcReg, prevOp, hsrc, hcount, hdef, hget,
                  liftFuel_eq_ok hcombine⟩
      next => exact ih h

/-- What the tracker allows has the shape it needs. -/
theorem TrackerAllows.defined (h : TrackerAllows operations definitionMap earlier prevOp r)
    (htracked : Tracked table operations definitionMap earlier rest) :
    ∃ position, Defined table operations earlier rest r position prevOp := by
  obtain ⟨-, -, position, hmap, hget⟩ := h
  obtain ⟨prevOp', hdef⟩ := htracked r position hmap
  obtain rfl : prevOp = prevOp' := Option.some.inj (hget.symm.trans hdef.get)
  exact ⟨position, hdef⟩

/-- An operation that is folded reads what operations that can be lowered read, and not the
    register that it writes. -/
theorem merged_of_folds {dstReg : Nat}
    (h : Folds fuel table maxSources (TrackerAllows operations definitionMap earlier) op op')
    (hmem : op ∈ operations) (hlut : canOpcodeBeLoweredToLut op.opcode = true)
    (hop : LutConvertible table op (.register dstReg))
    (hself : table.isLocal dstReg = true → dstReg ∉ op.reads)
    (htracked : Tracked table operations definitionMap earlier (op :: rest)) :
    Merged table (fun s => ReadByLut operations s ∧ (table.isLocal dstReg = true → s ≠ dstReg))
      op op' (.register dstReg) := by
  have hwrites : dstReg ∈ op.writes := by
    rw [Operation.writes, hop.dst_eq]
    exact List.mem_singleton_self _
  apply h.merged hop
  · intro s hs
    refine ⟨⟨op, hmem, hlut, hs⟩, ?_⟩
    rintro hlocal rfl
    exact hself hlocal hs
  · intro prevOp r hallowed
    obtain ⟨position, hdef⟩ := hallowed.defined htracked
    refine ⟨hdef.convertible, ?_⟩
    intro s hs
    refine ⟨hdef.readsLut s hs, ?_⟩
    rintro - rfl
    exact hdef.readsKept s hs op List.mem_cons_self hwrites

/-- The `do` loop only merges with definitions that the tracker had before the operation. -/
theorem packOperation_folds {dstReg : Nat} {definitionMap' : DefinitionMap}
    (hmem : op ∈ operations) (hlut : canOpcodeBeLoweredToLut op.opcode = true)
    (hop : LutConvertible table op (.register dstReg))
    (hself : table.isLocal dstReg = true → dstReg ∉ op.reads)
    (htracked : Tracked table operations definitionMap earlier (op :: rest))
    (hmap : ∀ s, s ≠ dstReg → definitionMap'[s]? = definitionMap[s]?)
    (hnew : ∀ position, definitionMap'[dstReg]? = some position → table.isLocal dstReg = true) :
    ∀ {rounds : Nat} {prevOperationSet : List Nat} {op₁ : Operation},
      Folds fuel table maxSources (TrackerAllows operations definitionMap earlier) op op₁ →
      packOperation fuel table operations maxSources earlier definitionMap' rounds
        prevOperationSet op₁ = .ok op' →
      Folds fuel table maxSources (TrackerAllows operations definitionMap earlier) op op' := by
  intro rounds
  induction rounds with
  | zero => exact fun _ h => nomatch h
  | succ rounds ih =>
      intro prevOperationSet op₁ hfolds h
      rw [packOperation, bind_eq_ok_iff] at h
      obtain ⟨found, hfound, h⟩ := h
      cases found with
      | none => exact Except.ok.inj h ▸ hfolds
      | some found =>
          obtain ⟨op₂, position⟩ := found
          obtain ⟨srcOpIdx, r, prevOp, hsrc, hcount, hr, hget, hmerge⟩ := combineSource_spec hfound
          have hmerged := merged_of_folds hfolds hmem hlut hop hself htracked
          obtain ⟨hread, hne⟩ := hmerged.reads r (mem_reads_of_getElem? hsrc)
          have hne' : r ≠ dstReg := by
            rintro rfl
            exact hne (hnew position hr) rfl
          rw [hmap r hne'] at hr
          obtain ⟨prevOp', hdef⟩ := htracked r position hr
          -- The definition is before the operation
          obtain ⟨hlt, -⟩ := List.getElem?_eq_some_iff.mp hdef.get
          rw [List.getElem?_append_left hlt] at hget
          exact ih (.step hfolds hsrc ⟨hcount, hread, position, hr, hget⟩ hmerge) h

/-! ### The walk -/

theorem handleOperation_other {position : Nat} {definitionMap' : DefinitionMap}
    (h : handleOperation table definitionMap op position false = .ok definitionMap') :
    definitionMap' =
      if doesOpcodeImplyOptimizationBarrier op.opcode then ∅ else definitionMap := by
  rw [handleOperation, Bool.false_and, if_neg Bool.false_ne_true] at h
  exact (Except.ok.inj h).symm

theorem not_barrier_of_lut {opcode : Opcode} (h : canOpcodeBeLoweredToLut opcode = true) :
    doesOpcodeImplyOptimizationBarrier opcode = false := by
  cases opcode <;> first | rfl | exact nomatch h

/-- An operation that can be lowered defines its destination, if it uses local registers
    only. -/
theorem handleOperation_lut {position dstReg : Nat} {definitionMap' : DefinitionMap}
    (hlut : canOpcodeBeLoweredToLut op.opcode = true) (hdst : op.dst = [.register dstReg])
    (h : handleOperation table definitionMap op position true = .ok definitionMap') :
    (∀ s, s ≠ dstReg → definitionMap'[s]? = definitionMap[s]?) ∧
      (definitionMap'[dstReg]? = definitionMap[dstReg]? ∨
        definitionMap'[dstReg]? = some position ∧ operationUsesOnlyLocalReg table op = true) := by
  rw [handleOperation, not_barrier_of_lut hlut, if_neg Bool.false_ne_true, Bool.true_and] at h
  split at h
  next hlocal =>
    rw [insertDefinitions, hdst, List.foldlM_cons, bind_eq_ok_iff] at h
    obtain ⟨map, hmap, h⟩ := h
    obtain rfl := Except.ok.inj h
    change safeInsert definitionMap dstReg position = .ok map at hmap
    unfold safeInsert at hmap
    split at hmap
    · exact nomatch hmap
    · obtain rfl := Except.ok.inj hmap
      refine ⟨?_, .inr ⟨Std.ExtTreeMap.getElem?_insert_self, hlocal⟩⟩
      intro s hs
      rw [Std.ExtTreeMap.getElem?_insert, if_neg]
      rw [Nat.compare_eq_eq]
      exact fun heq => hs heq.symm
  next =>
    obtain rfl := Except.ok.inj h
    exact ⟨fun _ _ => rfl, .inl rfl⟩

/-- What the walk may fold into the operation at a position of the block it makes: an operation
    before it, with no barrier in between, whose result is a source of an operation of the
    block once. -/
def FoldAllowed (table : RegisterTable) (operations after : List Operation) (n : Nat)
    (prevOp : Operation) (r : Nat) : Prop :=
  registerReadCount operations r = 1 ∧ ReadByLut operations r ∧ WrittenByLut table operations r ∧
    ∃ position, position < n ∧ after[position]? = some prevOp ∧ prevOp.dst = [.register r] ∧
      ∀ k op, position < k → k < n → after[k]? = some op →
        doesOpcodeImplyOptimizationBarrier op.opcode = false

theorem TrackerAllows.foldAllowed {after : List Operation}
    (h : TrackerAllows operations definitionMap earlier prevOp r)
    (htracked : Tracked table operations definitionMap earlier rest) :
    FoldAllowed table operations (earlier ++ after) earlier.length prevOp r := by
  obtain ⟨position, hdef⟩ := h.defined htracked
  obtain ⟨hcount, hread, -⟩ := h
  obtain ⟨hlt, -⟩ := List.getElem?_eq_some_iff.mp hdef.get
  refine ⟨hcount, hread, hdef.written, position, hlt, ?_, hdef.convertible.dst_eq, ?_⟩
  · rw [List.getElem?_append_left hlt]
    exact hdef.get
  · intro k op hk hkn hget
    rw [List.getElem?_append_left hkn] at hget
    exact hdef.noBarrier k op hk hget

/-- An operation that is defined anew. -/
theorem defined_self {dstReg : Nat}
    (hfolds : Folds fuel table maxSources (TrackerAllows operations definitionMap earlier) op op')
    (hmem : op ∈ operations) (hlut : canOpcodeBeLoweredToLut op.opcode = true)
    (hop : LutConvertible table op (.register dstReg))
    (hlocal : operationUsesOnlyLocalReg table op = true)
    (hrenamed : Renamed table (op :: rest))
    (htracked : Tracked table operations definitionMap earlier (op :: rest)) :
    Defined table operations (earlier ++ [op']) rest dstReg earlier.length op' := by
  have hwrites : dstReg ∈ op.writes := by
    rw [Operation.writes, hop.dst_eq]
    exact List.mem_singleton_self _
  rw [operationUsesOnlyLocalReg, Bool.and_eq_true, operationUsesOnlyLocalSrcReg,
    operationUsesOnlyLocalDstReg, List.all_eq_true, List.all_eq_true] at hlocal
  have hpairwise := List.pairwise_cons.mp hrenamed.pairwise
  have hmerged : Merged table (fun s => table.isLocal s = true ∧ ReadByLut operations s ∧
      ∀ o ∈ rest, s ∉ o.writes) op op' (.register dstReg) := by
    apply hfolds.merged hop
    · intro s hs
      refine ⟨hlocal.1 s hs, ⟨op, hmem, hlut, hs⟩, ?_⟩
      intro o ho hwrite
      exact (hpairwise.1 o ho s hwrite (hlocal.1 s hs)).1 hs
    · intro prevOp r hallowed
      obtain ⟨position, hdef⟩ := hallowed.defined htracked
      refine ⟨hdef.convertible, ?_⟩
      intro s hs
      exact ⟨hdef.readsLocal s hs, hdef.readsLut s hs,
        fun o ho => hdef.readsKept s hs o (List.mem_cons_of_mem _ ho)⟩
  exact {
    get := by rw [List.getElem?_append_right (Nat.le_refl _), Nat.sub_self]; rfl
    convertible := hmerged.convertible
    isLocal := hlocal.2 dstReg hwrites
    written := ⟨op, hmem, hlut, by
      rw [operationUsesOnlyLocalReg, Bool.and_eq_true, operationUsesOnlyLocalSrcReg,
        operationUsesOnlyLocalDstReg, List.all_eq_true, List.all_eq_true]
      exact hlocal, hwrites⟩
    kept := fun o ho hwrite => (hpairwise.1 o ho dstReg hwrite (hlocal.2 dstReg hwrites)).2 hwrites
    readsLocal := fun s hs => (hmerged.reads s hs).1
    readsLut := fun s hs => (hmerged.reads s hs).2.1
    readsKept := fun s hs => (hmerged.reads s hs).2.2
    noBarrier := by
      intro k o hk hget
      rw [List.getElem?_eq_none (by rw [List.length_append, List.length_singleton]; omega)] at hget
      cases hget }

theorem Renamed.tail (h : Renamed table (op :: rest)) : Renamed table rest :=
  ⟨(List.pairwise_cons.mp h.pairwise).2, fun o ho => h.self o (List.mem_cons_of_mem _ ho)⟩

/-- What the walk makes of the operations that are left, in every run. -/
structure PackedAs (fuel : Nat) (table : RegisterTable) (operations : List Operation)
    (maxSources : Nat) (definitionMap : DefinitionMap) (earlier rest rest' : List Operation) :
    Prop where
  folds : ∀ i op, rest[i]? = some op → ∃ op', rest'[i]? = some op' ∧
    Folds fuel table maxSources
      (FoldAllowed table operations (earlier ++ rest') (earlier.length + i)) op op'
  states : ∀ (W : Type) (d : Device table W) σ sts, DefinitionsHold table definitionMap earlier σ.1 →
    d.NoneMisjudged σ rest → d.states σ rest = some sts → d.states σ rest' = some sts

theorem PackedAs.cons {definitionMap' : DefinitionMap} {rest' : List Operation}
    (h : PackedAs fuel table operations maxSources definitionMap' (earlier ++ [op']) rest rest')
    (hfolds : Folds fuel table maxSources
      (FoldAllowed table operations (earlier ++ op' :: rest') earlier.length) op op')
    (hstep : ∀ (W : Type) (d : Device table W) σ σ', DefinitionsHold table definitionMap earlier σ.1 →
      (∀ r, canOpcodeBeLoweredToLut op.opcode = true → op.dst = [.register r] →
        ¬ MisjudgedAt table op (.register r)
          (op.src.map (operandLiteral table (d.interfere σ.1 σ.2).1))) →
      d.step σ op = some σ' →
        d.step σ op' = some σ' ∧ DefinitionsHold table definitionMap' (earlier ++ [op']) σ'.1) :
    PackedAs fuel table operations maxSources definitionMap earlier (op :: rest)
      (op' :: rest') := by
  refine ⟨?_, ?_⟩
  · intro i o hget
    cases i with
    | zero =>
        obtain rfl := Option.some.inj hget
        exact ⟨op', rfl, hfolds⟩
    | succ i =>
        obtain ⟨o', hget', hfolds'⟩ := h.folds i o hget
        refine ⟨o', hget', ?_⟩
        rw [List.append_assoc, List.length_append, List.length_singleton, Nat.add_assoc,
          Nat.add_comm 1 i] at hfolds'
        exact hfolds'
  · intro W d σ sts hholds hnone hstates
    obtain ⟨hjudged, hnone⟩ := hnone
    obtain ⟨σ', hσ', hstates⟩ := Option.bind_eq_some_iff.mp hstates
    obtain ⟨sts', hsts', rfl⟩ := Option.map_eq_some_iff.mp hstates
    obtain ⟨hstep', hholds'⟩ := hstep W d σ σ' hholds hjudged hσ'
    rw [Device.states, hstep', Option.bind_some, h.states W d σ' sts' hholds' (hnone σ' hσ') hsts']
    rfl

/-- An operation that is not lowered does what it did. -/
theorem step_other {W : Type} {d : Device table W} {σ σ' : (Nat → Nat) × W}
    {definitionMap' : DefinitionMap}
    (hlut : canOpcodeBeLoweredToLut op.opcode = false)
    (hmap : ∀ r position : Nat,
      definitionMap'[r]? = some position → definitionMap[r]? = some position)
    (htracked : Tracked table operations definitionMap earlier (op :: rest))
    (hholds : DefinitionsHold table definitionMap earlier σ.1) (h : d.step σ op = some σ') :
    DefinitionsHold table definitionMap' (earlier ++ [op]) σ'.1 := by
  rw [Device.step, hlut, if_neg Bool.false_ne_true] at h
  obtain rfl := Option.some.inj h
  have hholds' : DefinitionsHold table definitionMap earlier
      (d.exec op (d.interfere σ.1 σ.2).1 (d.interfere σ.1 σ.2).2).1 := by
    apply hholds.of_frame htracked
    intro s hlocal hwrites
    exact (d.exec_frame op _ _ s hlocal hwrites).trans (d.interfere_frame σ.1 σ.2 s hlocal)
  intro r position prevOp hr hget
  have hr' := hmap r position hr
  obtain ⟨prevOp', hdef⟩ := htracked r position hr'
  obtain ⟨hlt, -⟩ := List.getElem?_eq_some_iff.mp hdef.get
  rw [List.getElem?_append_left hlt] at hget
  exact hholds' r position prevOp hr' hget

/-- An operation that is folded gives its destination the same value. -/
theorem step_lut {W : Type} {d : Device table W} {σ σ' : (Nat → Nat) × W} {dstReg : Nat}
    {definitionMap' : DefinitionMap}
    (hfolds : Folds fuel table maxSources (TrackerAllows operations definitionMap earlier) op op')
    (hmem : op ∈ operations) (hlut : canOpcodeBeLoweredToLut op.opcode = true)
    (hop : LutConvertible table op (.register dstReg))
    (hrenamed : Renamed table (op :: rest))
    (htracked : Tracked table operations definitionMap earlier (op :: rest))
    (hmap : ∀ s, s ≠ dstReg → definitionMap'[s]? = definitionMap[s]?)
    (hnew : definitionMap'[dstReg]? = definitionMap[dstReg]? ∨
      definitionMap'[dstReg]? = some earlier.length ∧ operationUsesOnlyLocalReg table op = true)
    (hholds : DefinitionsHold table definitionMap earlier σ.1)
    (hnot : ¬ MisjudgedAt table op (.register dstReg)
      (op.src.map (operandLiteral table (d.interfere σ.1 σ.2).1)))
    (h : d.step σ op = some σ') :
    d.step σ op' = some σ' ∧ DefinitionsHold table definitionMap' (earlier ++ [op']) σ'.1 := by
  have hwrites : op.writes = [dstReg] := by rw [Operation.writes, hop.dst_eq]; rfl
  have hself : table.isLocal dstReg = true → dstReg ∉ op.reads := fun hlocal =>
    hrenamed.self op List.mem_cons_self dstReg (hwrites ▸ List.mem_singleton_self _) hlocal
  have hmerged := merged_of_folds hfolds hmem hlut hop hself htracked
  -- Before the operation the registers still hold the results
  have hbefore : DefinitionsHold table definitionMap earlier (d.interfere σ.1 σ.2).1 := by
    apply hholds.of_frame htracked
    intro s hlocal _
    exact d.interfere_frame σ.1 σ.2 s hlocal
  simp only [Device.step, hlut, if_true, hop.dst_eq] at h
  obtain ⟨v, hv, rfl⟩ := Option.map_eq_some_iff.mp h
  have hv' : operationValue table (d.interfere σ.1 σ.2).1 (table.desc dstReg).width op' = some v := by
    apply hfolds.value hop hnot _ hv
    intro prevOp r hallowed
    obtain ⟨position, hdef⟩ := hallowed.defined htracked
    obtain ⟨-, -, position', hr, hget⟩ := hallowed
    exact ⟨hdef.convertible, hbefore r position' prevOp hr hget⟩
  have hlut' : canOpcodeBeLoweredToLut op'.opcode = true := by
    rcases hmerged.opcode with rfl | ⟨entries, hentries⟩
    · exact hlut
    · rw [hentries]
      rfl
  refine ⟨?_, ?_⟩
  · simp only [Device.step, hlut', if_true, hmerged.convertible.dst_eq, hv', Option.map_some]
  intro r position prevOp hr hget
  have hafter : DefinitionsHold table definitionMap earlier
      (Function.update (d.interfere σ.1 σ.2).1 dstReg v) := by
    apply hbefore.of_frame htracked
    intro s _ hs
    apply Function.update_of_ne
    rintro rfl
    exact hs (hwrites ▸ List.mem_singleton_self _)
  by_cases hdst : r = dstReg
  · subst hdst
    rcases hnew with hold | ⟨hposition, hlocal⟩
    · -- A register that is defined already is not written again
      rw [hold] at hr
      obtain ⟨prevOp', hdef⟩ := htracked r position hr
      exact absurd (hwrites ▸ List.mem_singleton_self _) (hdef.kept op List.mem_cons_self)
    · obtain rfl : earlier.length = position := Option.some.inj (hposition.symm.trans hr)
      have hdef := defined_self hfolds hmem hlut hop hlocal hrenamed htracked
      obtain rfl : op' = prevOp := Option.some.inj (hdef.get.symm.trans hget)
      have hreads : ∀ s ∈ op'.reads,
          Function.update (d.interfere σ.1 σ.2).1 r v s = (d.interfere σ.1 σ.2).1 s := fun s hs =>
        Function.update_of_ne ((hmerged.reads s hs).2 hdef.isLocal) _ _
      refine ⟨?_, ?_⟩
      · rw [hmerged.convertible.operationValue_eq] at hv'
        show operationValue table (Function.update (d.interfere σ.1 σ.2).1 r v) _ _ =
          some (Function.update (d.interfere σ.1 σ.2).1 r v r % 2 ^ (table.desc r).width)
        rw [hmerged.convertible.operationValue_eq, sourceValues_congr hreads,
          Function.update_self, Nat.mod_eq_of_lt (combinationalResult_lt hv')]
        exact hv'
      · rw [sourceValues_congr hreads]
        rcases hmerged.opcode with heq | ⟨entries, hentries⟩
        · rw [heq]
          exact hnot
        · exact not_misjudgedAt_lut hentries _
  · rw [hmap r hdst] at hr
    obtain ⟨prevOp', hdef⟩ := htracked r position hr
    obtain ⟨hlt, -⟩ := List.getElem?_eq_some_iff.mp hdef.get
    rw [List.getElem?_append_left hlt] at hget
    exact hafter r position prevOp hr hget

/-- The operations of the block that can be lowered have the shape that `LowerToLut`
    expects. -/
def BlockShape (table : RegisterTable) (operations : List Operation) : Prop :=
  ∀ op ∈ operations, canOpcodeBeLoweredToLut op.opcode = true →
    ∃ dstReg, LutConvertible table op (.register dstReg)

/-- The walk from any point on. -/
theorem packOperations_spec (hshape : BlockShape table operations) :
    ∀ {rest earlier : List Operation} {definitionMap : DefinitionMap} {after : List Operation},
      packOperations fuel table operations maxSources definitionMap earlier rest = .ok after →
      (∀ op ∈ rest, op ∈ operations) → Renamed table rest →
      Tracked table operations definitionMap earlier rest →
      ∃ rest', after = earlier ++ rest' ∧
        PackedAs fuel table operations maxSources definitionMap earlier rest rest' := by
  intro rest
  induction rest with
  | nil =>
      intro earlier definitionMap after h _ _ _
      obtain rfl := Except.ok.inj h
      refine ⟨[], (List.append_nil _).symm, ⟨?_, fun W d σ sts _ _ h => h⟩⟩
      intro i op hget
      cases hget
  | cons op rest ih =>
      intro earlier definitionMap after h hmem hrenamed htracked
      rw [packOperations, bind_eq_ok_iff] at h
      obtain ⟨definitionMap', hhandle, h⟩ := h
      have hhandle := lift_eq_ok hhandle
      have hop := hmem op List.mem_cons_self
      have hmem' : ∀ o ∈ rest, o ∈ operations := fun o ho => hmem o (List.mem_cons_of_mem _ ho)
      cases hlut : canOpcodeBeLoweredToLut op.opcode with
      | true =>
          rw [hlut] at hhandle h
          rw [if_pos rfl, bind_eq_ok_iff] at h
          obtain ⟨op', hpack, h⟩ := h
          obtain ⟨dstReg, hconvertible⟩ := hshape op hop hlut
          obtain ⟨hmap, hnew⟩ := handleOperation_lut hlut hconvertible.dst_eq hhandle
          have hwrites : dstReg ∈ op.writes := by
            rw [Operation.writes, hconvertible.dst_eq]
            exact List.mem_singleton_self _
          have hlocal : ∀ position, definitionMap'[dstReg]? = some position →
              table.isLocal dstReg = true := by
            intro position hposition
            rcases hnew with hold | ⟨-, hlocal⟩
            · rw [hold] at hposition
              obtain ⟨_, hdef⟩ := htracked dstReg position hposition
              exact hdef.isLocal
            · rw [operationUsesOnlyLocalReg, Bool.and_eq_true, operationUsesOnlyLocalDstReg,
                List.all_eq_true] at hlocal
              exact hlocal.2 dstReg hwrites
          have hself : table.isLocal dstReg = true → dstReg ∉ op.reads :=
            hrenamed.self op List.mem_cons_self dstReg hwrites
          have hfolds := packOperation_folds hop hlut hconvertible hself htracked hmap hlocal
            (.refl op) hpack
          have hlut' : doesOpcodeImplyOptimizationBarrier op'.opcode = false := by
            rcases (merged_of_folds hfolds hop hlut hconvertible hself htracked).opcode with
              rfl | ⟨entries, hentries⟩
            · exact not_barrier_of_lut hlut
            · rw [hentries]
              rfl
          have htracked' : Tracked table operations definitionMap' (earlier ++ [op']) rest := by
            intro r position hr
            by_cases hdst : r = dstReg
            · subst hdst
              rcases hnew with hold | ⟨hposition, huses⟩
              · rw [hold] at hr
                obtain ⟨prevOp, hdef⟩ := htracked r position hr
                exact ⟨prevOp, hdef.advance hlut'⟩
              · obtain rfl : earlier.length = position := Option.some.inj (hposition.symm.trans hr)
                exact ⟨op', defined_self hfolds hop hlut hconvertible huses hrenamed htracked⟩
            · rw [hmap r hdst] at hr
              obtain ⟨prevOp, hdef⟩ := htracked r position hr
              exact ⟨prevOp, hdef.advance hlut'⟩
          obtain ⟨rest', rfl, hpacked⟩ := ih h hmem' hrenamed.tail htracked'
          refine ⟨op' :: rest', by rw [List.append_assoc]; rfl, hpacked.cons ?_ ?_⟩
          · exact hfolds.imp fun prevOp r hallowed => hallowed.foldAllowed htracked
          · intro W d σ σ' hholds hjudged hstep
            exact step_lut hfolds hop hlut hconvertible hrenamed htracked hmap hnew hholds
              (hjudged dstReg hlut hconvertible.dst_eq) hstep
      | false =>
          rw [hlut] at hhandle h
          rw [if_neg Bool.false_ne_true] at h
          have hmap := handleOperation_other hhandle
          have htracked' : Tracked table operations definitionMap' (earlier ++ [op]) rest ∧
              ∀ r position : Nat, definitionMap'[r]? = some position →
                definitionMap[r]? = some position := by
            cases hbarrier : doesOpcodeImplyOptimizationBarrier op.opcode with
            | true =>
                rw [hbarrier, if_pos rfl] at hmap
                subst hmap
                refine ⟨fun r position hr => ?_, fun r position hr => ?_⟩
                · rw [Std.ExtTreeMap.getElem?_empty] at hr
                  cases hr
                · rw [Std.ExtTreeMap.getElem?_empty] at hr
                  cases hr
            | false =>
                rw [hbarrier, if_neg Bool.false_ne_true] at hmap
                subst hmap
                refine ⟨fun r position hr => ?_, fun r position hr => hr⟩
                obtain ⟨prevOp, hdef⟩ := htracked r position hr
                exact ⟨prevOp, hdef.advance hbarrier⟩
          obtain ⟨rest', rfl, hpacked⟩ := ih h hmem' hrenamed.tail htracked'.1
          refine ⟨op :: rest', by rw [List.append_assoc]; rfl, hpacked.cons (.refl op) ?_⟩
          intro W d σ σ' hholds _ hstep
          exact ⟨hstep, step_other hlut htracked'.2 htracked hholds hstep⟩

end

/-! ## The pass -/

/-- A register that a later block reads holds a result that could be folded: one operation of the
    block reads it, once, and both that operation and the one that writes it can be lowered. -/
def LeavesFoldedResult (table : RegisterTable) (operations : List Operation)
    (laterReads : Nat → Prop) : Prop :=
  ∃ r, laterReads r ∧ registerReadCount operations r = 1 ∧ ReadByLut operations r ∧
    WrittenByLut table operations r

/-- What packing makes of a block. -/
structure Packs (fuel : Nat) (table : RegisterTable) (maxSources : Nat)
    (operations after : List Operation) : Prop where
  /-- Every run goes through the same states, if no table is wrong about its values. -/
  states : ∀ (W : Type) (d : Device table W) σ sts, d.NoneMisjudged σ operations →
    d.states σ operations = some sts → d.states σ after = some sts
  /-- Nothing is folded that another operation or a later block reads, or across a barrier. -/
  folds : ∀ laterReads : Nat → Prop, ¬ LeavesFoldedResult table operations laterReads →
    ∀ n op, operations[n]? = some op → ∃ op', after[n]? = some op' ∧
      Folds fuel table maxSources
        (fun prevOp r => FoldAllowed table operations after n prevOp r ∧ ¬ laterReads r) op op'

theorem packBlock_packs {fuel : Nat} {table : RegisterTable} {maxSources : Nat}
    {operations after : List Operation} (hshape : BlockShape table operations)
    (hrenamed : Renamed table operations)
    (hok : packBlock fuel table maxSources operations = .ok after) :
    Packs fuel table maxSources operations after := by
  have hempty : ∀ (r position : Nat), (∅ : DefinitionMap)[r]? = some position → False := by
    intro r position hr
    rw [Std.ExtTreeMap.getElem?_empty] at hr
    exact nomatch hr
  obtain ⟨rest', heq, hpacked⟩ := packOperations_spec hshape hok (fun _ hop => hop) hrenamed
    (fun r position hr => (hempty r position hr).elim)
  obtain rfl : after = rest' := heq
  refine ⟨?_, ?_⟩
  · intro W d σ sts hnone hstates
    exact hpacked.states W d σ sts (fun r position _ hr => (hempty r position hr).elim) hnone
      hstates
  · intro laterReads hleaves n op hget
    obtain ⟨op', hget', hfolds⟩ := hpacked.folds n op hget
    rw [List.nil_append, List.length_nil, Nat.zero_add] at hfolds
    refine ⟨op', hget', hfolds.imp fun prevOp r hallowed => ⟨hallowed, ?_⟩⟩
    intro hlater
    exact hleaves ⟨r, hlater, hallowed.1, hallowed.2.1, hallowed.2.2.1⟩

/-- A block that is left as it is. -/
theorem packs_refl (fuel : Nat) (table : RegisterTable) (maxSources : Nat)
    (operations : List Operation) : Packs fuel table maxSources operations operations :=
  ⟨fun _ _ _ _ _ h => h, fun _ _ _ op hget => ⟨op, hget, .refl op⟩⟩

/-- A system in which nothing else happens. -/
def quietDevice (table : RegisterTable) : Device table Unit where
  exec := fun _ regs w => (regs, w)
  interfere := fun regs w => (regs, w)
  exec_frame := fun _ _ _ _ _ _ => rfl
  interfere_frame := fun _ _ _ _ => rfl

/-- The inversion of register 3 and a comparison that reads it. -/
def invertThenCompare (signed : Bool) : List Operation := [invertBit, compareBits signed]

/-- What the comparison is packed into. -/
def packedCompare : Operation :=
  { opcode := .lut [⟨[(1, 0), (0, 0)], 6⟩], src := [.register 1, .register 3],
    dst := [.register 2] }

theorem eq_of_folds {fuel : Nat} {table : RegisterTable} {maxSources : Nat}
    {allowed : Operation → Nat → Prop} (hnone : ∀ prevOp r, ¬ allowed prevOp r)
    {op op' : Operation} (h : Folds fuel table maxSources allowed op op') : op' = op := by
  cases h with
  | refl => rfl
  | step _ _ hallowed _ => exact absurd hallowed (hnone _ _)

theorem invertThenCompare_shape :
    BlockShape bitTable (invertThenCompare false) ∧
      Renamed bitTable (invertThenCompare false) := by
  refine ⟨?_, ?_, ?_⟩
  · intro op hop _
    rcases List.mem_pair.mp hop with rfl | rfl
    · exact ⟨0, .lowered (bitTable_shape rfl (by simp [invertBit]) (by intro _ h; cases h)
        (by intro _ h; cases h))⟩
    · exact ⟨2, .lowered (bitTable_shape rfl (by simp [compareBits]) (by intro _ h; cases h)
        (by intro _ h; cases h))⟩
  · rw [invertThenCompare, List.pairwise_pair]
    intro r hr _
    obtain rfl : r = 2 := List.mem_singleton.mp hr
    decide
  · intro op hop r hr _
    rcases List.mem_pair.mp hop with rfl | rfl
    · obtain rfl : r = 0 := List.mem_singleton.mp hr
      decide
    · obtain rfl : r = 2 := List.mem_singleton.mp hr
      decide

end Kanagawa.Optimize
