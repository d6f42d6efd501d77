/-
  Kanagawa.Lower.GlobalViewsRun

  The run of the pass that inserts global views over a basic block.

  A register is recorded at the place of the operation that writes it, and only once all
  its sources are: places decrease along the recursion of `FlattenFunction`, which
  therefore ends.  Every operand that was replaced is served: by the function of its view,
  or by the function that the next `EndAtomic` will make.
-/
import Kanagawa.Lower.GlobalViewsSound

namespace Kanagawa.Lower.GlobalViews

open Kanagawa.IR
open Kanagawa.Lib
open Kanagawa.Lib.Except

variable {table : RegisterTable} {operations : List AtomicOperation}
  {helper helper' : InsertGlobalViewsHelper}

/-- What `_registerMap` says of a register. -/
structure Recorded (table : RegisterTable) (operations : List AtomicOperation)
    (registerMap : RegisterMap) (n r p : Nat) : Prop where
  lt : p < n
  begins : ∀ b, b < n → BeginsAt operations b → b < p
  isLocal : isLocalVariable table r = true
  operation : ∃ o, operations[p]? = some o ∧ r ∈ writesOf o ∧
    ∀ s ∈ readsOf o, isGlobalVariable table s = true ∨
      (isLocalVariable table s = true ∧ ∃ q, registerMap[s]? = some q ∧ q < p)

/-- The invariant of `_registerMap` after `n` operations. -/
def MapRecorded (table : RegisterTable) (operations : List AtomicOperation)
    (registerMap : RegisterMap) (n : Nat) : Prop :=
  ∀ r p, registerMap[r]? = some p → Recorded table operations registerMap n r p

/-- The operations visited are those of the block, with some sources replaced. -/
def Visited (table : RegisterTable) (operations visited : List AtomicOperation) : Prop :=
  visited.length ≤ operations.length ∧ ∀ (p : Nat) o', visited[p]? = some o' →
    ∃ o, operations[p]? = some o ∧ Rewritten table o o'

/-! ## `FlattenFunction` -/

theorem ordered_flatten {known : Nat → Prop} {lists : List (List AtomicOperation)}
    (h : ∀ l ∈ lists, StraightLine.Ordered readsOf writesOf known l) :
    StraightLine.Ordered readsOf writesOf known lists.flatten := by
  induction lists with
  | nil => exact trivial
  | cons l rest ih =>
      rw [List.flatten_cons]
      exact (h l List.mem_cons_self).append (ih fun l' hl' => h l' (List.mem_cons_of_mem _ hl'))

/-- **`FlattenFunction` ends**, and lists what a view needs: the depth of its recursion is
    bounded by the place of the operation that writes the register. -/
theorem flattenFunction_spec {registerMap : RegisterMap} {visited : List AtomicOperation} {n : Nat}
    (hmap : MapRecorded table operations registerMap n)
    (hkeys : ∀ r p, registerMap[r]? = some p → r < table.length)
    (hvisited : Visited table operations visited) (hn : n ≤ visited.length) :
    ∀ {depth r p i : Nat}, registerMap[r]? = some p → p < depth → p < i → i ≤ n →
      ∃ function, flattenFunction registerMap visited depth r = .ok function ∧
        Flattened table operations r i function := by
  intro depth
  induction depth with
  | zero => exact fun _ h => absurd h (Nat.not_lt_zero _)
  | succ depth ih =>
      intro r p i hr hdepth hpi hin
      obtain ⟨hpn, hbegins, hlocal, o, hget, hwrites, hreads⟩ := hmap r p hr
      obtain ⟨o', hget'⟩ : ∃ o', visited[p]? = some o' :=
        ⟨_, List.getElem?_eq_getElem (by omega)⟩
      obtain ⟨o₁, hget₁, hrewritten⟩ := hvisited.2 p o' hget'
      obtain rfl : o = o₁ := Option.some.inj (hget.symm.trans hget₁)
      -- A source in the map was read by the operation before it was changed
      have hsource : ∀ s ∈ o'.op.reads.filter registerMap.contains,
          ∃ q, registerMap[s]? = some q ∧ q < p ∧ s ∈ readsOf o ∧
            isLocalVariable table s = true := by
        intro s hs
        obtain ⟨hs, hmem⟩ := List.mem_filter.mp hs
        rw [NatMap.contains_eq, Option.isSome_iff_exists] at hmem
        obtain ⟨q, hq⟩ := hmem
        rcases hrewritten.reads s hs with hread | hnew
        · rcases hreads s hread with hglobal | ⟨hslocal, q', hq', hlt⟩
          · have hrec := (hmap s q hq).isLocal
            rw [not_global_of_local hrec] at hglobal
            exact absurd hglobal Bool.false_ne_true
          · obtain rfl : q = q' := Option.some.inj (hq.symm.trans hq')
            exact ⟨q, hq, hlt, hread, hslocal⟩
        · exact absurd (hkeys s q hq) (Nat.not_lt.mpr hnew)
      have hrec : ∀ s ∈ o'.op.reads.filter registerMap.contains,
          ∃ function, flattenFunction registerMap visited depth s = .ok function ∧
            Flattened table operations s p function := by
        intro s hs
        obtain ⟨q, hq, hlt, -, -⟩ := hsource s hs
        exact ih hq (by omega) hlt (by omega)
      obtain ⟨lists, hlists, -⟩ := mapM_succeeds hrec
      have hlist : ∀ l ∈ lists, ∃ s ∈ o'.op.reads.filter registerMap.contains,
          Flattened table operations s p l := by
        intro l hl
        obtain ⟨s, hs, hl⟩ := mem_of_mapM hlists hl
        obtain ⟨l', hl', hflattened⟩ := hrec s hs
        obtain rfl : l = l' := Except.ok.inj (hl.symm.trans hl')
        exact ⟨s, hs, hflattened⟩
      refine ⟨lists.flatten ++ [o'], ?_, ⟨?_, ?_, ?_⟩⟩
      · rw [flattenFunction, safeLookup_of_some hr, ok_bind, operationAt, hget']
        show ((o'.op.reads.filter registerMap.contains).mapM
          (flattenFunction registerMap visited depth) >>= _) = _
        rw [hlists]
        rfl
      · apply (ordered_flatten fun l hl => ?_).concat
        · intro s hs
          by_cases hmem : s ∈ o'.op.reads.filter registerMap.contains
          · right
            obtain ⟨l, hl, hok⟩ := exists_of_mapM hlists s hmem
            obtain ⟨l', hl', hflattened⟩ := hrec s hmem
            obtain rfl : l = l' := Except.ok.inj (hok.symm.trans hl')
            obtain ⟨x, hx, hwritten⟩ := hflattened.writes
            exact ⟨x, List.mem_flatten_of_mem hl hx, hwritten⟩
          · left
            rcases hrewritten.reads s hs with hread | hnew
            · rcases hreads s hread with hglobal | ⟨-, q, hq, -⟩
              · exact .inl hglobal
              · refine absurd (List.mem_filter.mpr ⟨hs, ?_⟩) hmem
                rw [NatMap.contains_eq, hq]
                rfl
            · exact .inr hnew
        · obtain ⟨s, -, hflattened⟩ := hlist l hl
          exact hflattened.ordered
      · intro x hx
        rcases List.mem_append.mp hx with hx | hx
        · obtain ⟨l, hl, hx⟩ := List.mem_flatten.mp hx
          obtain ⟨s, hs, hflattened⟩ := hlist l hl
          obtain ⟨-, -, -, hread, hslocal⟩ := hsource s hs
          obtain ⟨p', o₂, hlt, hget₂, hrewritten₂, hneeds, hsourced, hbegins₂⟩ :=
            hflattened.mem x hx
          exact ⟨p', o₂, by omega, hget₂, hrewritten₂,
            .source hget hwrites hread hslocal hlt hneeds, hsourced,
            fun b hb hbegin => hbegins₂ b (hbegins b (by omega) hbegin) hbegin⟩
        · rw [List.mem_singleton.mp hx]
          refine ⟨p, o, hpi, hget, hrewritten, .writer hget hwrites, fun s hs => ?_,
            fun b hb hbegin => hbegins b (by omega) hbegin⟩
          rcases hreads s hs with hglobal | ⟨hslocal, q, hq, hlt⟩
          · exact .inl hglobal
          · obtain ⟨o₂, hget₂, hwritten, -⟩ := (hmap s q hq).operation
            exact .inr ⟨hslocal, q, o₂, hlt, hget₂, hwritten⟩
      · exact ⟨o', by simp, hrewritten.writes_eq ▸ hwrites⟩

/-! ## The invariant of the pass -/

/-- An operand `r` at the place `i` that the view `v` replaced: the function of the view is
    known, or both registers are recorded until the end of the atomic block. -/
def Served (table : RegisterTable) (operations : List AtomicOperation)
    (helper : InsertGlobalViewsHelper) (i r v : Nat) : Prop :=
  (∃ function, (v, function) ∈ helper.globalViewFunctions ∧
      isLocalVariable table r = true ∧ Flattened table operations r i function) ∨
    (helper.precomputeMap[r]? = some v ∧ ∃ p, helper.registerMap[r]? = some p ∧ p < i)

/-- The registers in `_precomputeMap` are recorded, and their views are new registers. -/
def Viewed (table : RegisterTable) (helper : InsertGlobalViewsHelper) : Prop :=
  ∀ (r v : Nat), helper.precomputeMap[r]? = some v →
    (∃ p, helper.registerMap[r]? = some p) ∧ table.length ≤ v ∧
      v < helper.registerTable.length ∧ (helper.registerTable.desc v).type = .globalView

/-- The invariant of the pass. -/
structure Traced (table : RegisterTable) (operations : List AtomicOperation)
    (helper : InsertGlobalViewsHelper) : Prop where
  table_prefix : table <+: helper.registerTable
  visited : Visited table operations helper.operations
  recorded : MapRecorded table operations helper.registerMap helper.operations.length
  precomputed : Viewed table helper
  replaced : ∀ (i k : Nat) o o' r v, operations[i]? = some o → helper.operations[i]? = some o' →
    o.op.src[k]? = some (.register r) → o'.op.src[k]? = some (.register v) → v ≠ r →
    Served table operations helper i r v

theorem isLocalVariable_of_lt (h : table <+: helper.registerTable) {r : Nat}
    (hr : r < table.length) :
    isLocalVariable helper.registerTable r = isLocalVariable table r := by
  rw [isLocalVariable, isLocalVariable, desc_of_grow h hr]

theorem isGlobalVariable_of_lt (h : table <+: helper.registerTable) {r : Nat}
    (hr : r < table.length) :
    isGlobalVariable helper.registerTable r = isGlobalVariable table r := by
  rw [isGlobalVariable, isGlobalVariable, desc_of_grow h hr]

theorem keys_lt (hblock : BlockWellFormed table operations)
    (htraced : Traced table operations helper) (r p : Nat)
    (h : helper.registerMap[r]? = some p) : r < table.length := by
  obtain ⟨o, hget, hwrites, -⟩ := (htraced.recorded r p h).operation
  exact hblock.writes_lt o (List.mem_of_getElem? hget) r hwrites

/-- A recorded register stays recorded while more are. -/
theorem Recorded.mono {registerMap registerMap' : RegisterMap} {n n' r p : Nat}
    (h : Recorded table operations registerMap n r p)
    (hmap : ∀ (s q : Nat), registerMap[s]? = some q → registerMap'[s]? = some q) (hn : n ≤ n')
    (hbegins : ∀ b, n ≤ b → b < n' → ¬ BeginsAt operations b) :
    Recorded table operations registerMap' n' r p where
  lt := Nat.lt_of_lt_of_le h.lt hn
  begins b hb hbegin := by
    by_cases hlt : b < n
    · exact h.begins b hlt hbegin
    · exact absurd hbegin (hbegins b (Nat.not_lt.mp hlt) hb)
  isLocal := h.isLocal
  operation := by
    obtain ⟨o, hget, hwrites, hreads⟩ := h.operation
    refine ⟨o, hget, hwrites, fun s hs => (hreads s hs).imp id ?_⟩
    rintro ⟨hslocal, q, hq, hlt⟩
    exact ⟨hslocal, q, hmap s q hq, hlt⟩

/-- **Every function that an `EndAtomic` asks for is made.** -/
theorem flattenFunction_traced (hblock : BlockWellFormed table operations)
    (htraced : Traced table operations helper) {r p i : Nat}
    (hr : helper.registerMap[r]? = some p) (hpi : p < i) (hi : i ≤ helper.operations.length) :
    ∃ function, flattenFunction helper.registerMap helper.operations
        (helper.operations.length + 1) r = .ok function ∧
      Flattened table operations r i function :=
  flattenFunction_spec htraced.recorded (keys_lt hblock htraced) htraced.visited (Nat.le_refl _) hr
    (Nat.lt_succ_of_lt (htraced.recorded r p hr).lt) hpi hi

theorem emitOperations_spec (hblock : BlockWellFormed table operations)
    (htraced : Traced table operations helper) :
    ∃ emitted, helper.emitOperations = .ok emitted ∧
      ∀ (r v : Nat), helper.precomputeMap[r]? = some v → ∀ p i, helper.registerMap[r]? = some p →
        p < i → i ≤ helper.operations.length →
        ∃ function, (v, function) ∈ emitted ∧ Flattened table operations r i function := by
  have hall : ∀ q ∈ helper.precomputeMap.toList, ∃ e,
      (do
        assert ((helper.registerTable.desc q.2).type == .globalView)
        return (q.2, ← flattenFunction helper.registerMap helper.operations
          (helper.operations.length + 1) q.1) : Except Failure _) = .ok e ∧
      e.1 = q.2 ∧ ∀ (p i : Nat), helper.registerMap[q.1]? = some p → p < i →
        i ≤ helper.operations.length → Flattened table operations q.1 i e.2 := by
    rintro ⟨r, v⟩ hmem
    obtain ⟨⟨p, hp⟩, -, -, htype⟩ := htraced.precomputed r v (NatMap.mem_toList_iff.mp hmem)
    obtain ⟨function, hfunction, -⟩ := flattenFunction_traced hblock htraced hp
      (htraced.recorded r p hp).lt (Nat.le_refl _)
    refine ⟨(v, function), ?_, rfl, ?_⟩
    · rw [assert_of_true (beq_iff_eq.mpr htype), ok_bind, hfunction]
      rfl
    · intro p' i hp' hlt hi
      obtain ⟨function', hfunction', hflattened⟩ :=
        flattenFunction_traced hblock htraced hp' hlt hi
      rw [Except.ok.inj (hfunction.symm.trans hfunction')]
      exact hflattened
  obtain ⟨emitted, hemitted, -⟩ := mapM_succeeds hall
  refine ⟨emitted, hemitted, fun r v hv p i hp hlt hi => ?_⟩
  obtain ⟨e, he, hok⟩ := exists_of_mapM hemitted (r, v) (NatMap.mem_toList_iff.mpr hv)
  obtain ⟨e', hok', hview, hflattened⟩ := hall (r, v) (NatMap.mem_toList_iff.mpr hv)
  obtain rfl : e = e' := Except.ok.inj (hok.symm.trans hok')
  obtain ⟨view, function⟩ := e
  obtain rfl : view = v := hview
  exact ⟨function, he, hflattened p i hp hlt hi⟩

/-! ## Recording -/

theorem recordDestinations_spec {registerMap registerMap' : RegisterMap} {place : Nat}
    {dsts : List DestinationOperand}
    (h : recordDestinations table place registerMap dsts = .ok registerMap') :
    (∀ (r p : Nat), registerMap[r]? = some p → registerMap'[r]? = some p ∧
      r ∉ (dsts.filterMap DestinationOperand.register?).filter (isLocalVariable table)) ∧
    ∀ (r p : Nat), registerMap'[r]? = some p → registerMap[r]? = some p ∨
      (p = place ∧ isLocalVariable table r = true ∧
        r ∈ dsts.filterMap DestinationOperand.register?) := by
  induction dsts generalizing registerMap with
  | nil =>
      obtain rfl := Except.ok.inj h
      exact ⟨fun r p hr => ⟨hr, List.not_mem_nil⟩, fun r p hr => .inl hr⟩
  | cons dst rest ih =>
      cases dst with
      | fifo f => cases h
      | register w =>
          rw [recordDestinations, bind_eq_ok_iff] at h
          obtain ⟨middle, hmiddle, h⟩ := h
          rw [recordRegister] at hmiddle
          obtain ⟨hkeep, hnew⟩ := ih h
          have hcons : (DestinationOperand.register w :: rest).filterMap
              DestinationOperand.register? =
              w :: rest.filterMap DestinationOperand.register? := rfl
          rw [hcons]
          by_cases hlocal : isLocalVariable table w = true
          · rw [if_pos hlocal, safeInsert] at hmiddle
            split at hmiddle
            · cases hmiddle
            · next hcontains =>
                obtain rfl := Except.ok.inj hmiddle
                constructor
                · intro r p hr
                  have hne : w ≠ r := by
                    rintro rfl
                    rw [NatMap.contains_eq, hr] at hcontains
                    exact hcontains rfl
                  obtain ⟨hr', hnot⟩ := hkeep r p (by rw [NatMap.getElem?_insert, if_neg hne, hr])
                  refine ⟨hr', ?_⟩
                  rw [List.filter_cons_of_pos hlocal, List.mem_cons, not_or]
                  exact ⟨hne.symm, hnot⟩
                · intro r p hr
                  rcases hnew r p hr with hold | ⟨rfl, hrlocal, hmem⟩
                  · rw [NatMap.getElem?_insert] at hold
                    split at hold
                    · next heq =>
                        subst heq
                        exact .inr ⟨(Option.some.inj hold).symm, hlocal, List.mem_cons_self⟩
                    · exact .inl hold
                  · exact .inr ⟨rfl, hrlocal, List.mem_cons_of_mem _ hmem⟩
          · rw [if_neg hlocal] at hmiddle
            obtain rfl := Except.ok.inj hmiddle
            constructor
            · intro r p hr
              obtain ⟨hr', hnot⟩ := hkeep r p hr
              rw [List.filter_cons_of_neg (by simpa using hlocal)]
              exact ⟨hr', hnot⟩
            · intro r p hr
              rcases hnew r p hr with hold | ⟨hp, hrlocal, hmem⟩
              · exact .inl hold
              · exact .inr ⟨hp, hrlocal, List.mem_cons_of_mem _ hmem⟩

theorem registerMap_of_isFunction (hstart : table <+: helper.registerTable) {op : Operation}
    (hreads : ∀ s ∈ op.reads, s < table.length)
    (h : isFunctionOfOnlyGlobals helper.registerTable helper.registerMap op = true) :
    ∀ s ∈ op.reads, isGlobalVariable table s = true ∨
      (isLocalVariable table s = true ∧ ∃ q, helper.registerMap[s]? = some q) := by
  intro s hs
  rw [isFunctionOfOnlyGlobals, Bool.and_eq_true, List.all_eq_true] at h
  obtain ⟨srcOp, hsrc, hreg⟩ := List.mem_filterMap.mp hs
  cases srcOp with
  | register s' =>
      obtain rfl : s' = s := Option.some.inj hreg
      have hsource := h.2 _ hsrc
      rw [Bool.or_eq_true, Bool.and_eq_true, isGlobalVariable_of_lt hstart (hreads s' hs),
        isLocalVariable_of_lt hstart (hreads s' hs), NatMap.contains_eq,
        Option.isSome_iff_exists] at hsource
      exact hsource
  | literal l => exact nomatch hreg
  | fifo f => exact nomatch hreg
  | stringLiteral t => exact nomatch hreg

/-- The operation at the place that is visited next is recorded. -/
theorem recorded_spec (hblock : BlockWellFormed table operations)
    (htraced : Traced table operations helper) {operation : AtomicOperation}
    (hget : operations[helper.operations.length]? = some operation)
    (hbegin : ¬ BeginsAt operations helper.operations.length)
    (h : helper.recorded operation = .ok helper') :
    ∃ registerMap, helper' = { helper with registerMap := registerMap } ∧
      MapRecorded table operations registerMap (helper.operations.length + 1) ∧
      (∀ (r p : Nat), helper.registerMap[r]? = some p → registerMap[r]? = some p) ∧
      ∀ r ∈ readsOf operation, ∀ p, registerMap[r]? = some p → p < helper.operations.length := by
  have hlt : ∀ s ∈ readsOf operation, s < table.length :=
    hblock.reads_lt operation (List.mem_of_getElem? hget)
  have hno : ∀ b, helper.operations.length ≤ b → b < helper.operations.length + 1 →
      ¬ BeginsAt operations b := by
    intro b hle hlt
    rw [show b = helper.operations.length by omega]
    exact hbegin
  rw [InsertGlobalViewsHelper.recorded] at h
  split at h
  · next hfunction =>
      obtain ⟨registerMap, hmap, h⟩ := bind_eq_ok_iff.mp h
      obtain ⟨hkeep, hnew⟩ := recordDestinations_spec hmap
      have hsources := registerMap_of_isFunction htraced.table_prefix hlt hfunction
      have hmono : ∀ (r p : Nat), helper.registerMap[r]? = some p → registerMap[r]? = some p :=
        fun r p hr => (hkeep r p hr).1
      refine ⟨registerMap, (Except.ok.inj h).symm, fun r p hr => ?_, hmono, fun r hr p hp => ?_⟩
      · rcases hnew r p hr with hold | ⟨rfl, hlocal, hwrites⟩
        · exact (htraced.recorded r p hold).mono hmono (Nat.le_succ _) hno
        · have hrlt := hblock.writes_lt operation (List.mem_of_getElem? hget) r hwrites
          rw [isLocalVariable_of_lt htraced.table_prefix hrlt] at hlocal
          refine ⟨Nat.lt_succ_self _, fun b hb hbegins => ?_, hlocal, operation, hget, hwrites,
            fun s hs => (hsources s hs).imp id ?_⟩
          · by_contra hnot
            exact hno b (Nat.not_lt.mp hnot) hb hbegins
          · rintro ⟨hslocal, q, hq⟩
            exact ⟨hslocal, q, hmono s q hq, (htraced.recorded s q hq).lt⟩
      · rcases hnew r p hp with hold | ⟨-, hlocal, hwrites⟩
        · exact (htraced.recorded r p hold).lt
        · -- A source that is recorded is not a destination, or `SafeInsert` would have failed
          rw [isLocalVariable_of_lt htraced.table_prefix (hlt r hr)] at hlocal
          rcases hsources r hr with hglobal | ⟨-, q, hq⟩
          · rw [not_global_of_local hlocal] at hglobal
            exact absurd hglobal Bool.false_ne_true
          · refine absurd (List.mem_filter.mpr ⟨hwrites, ?_⟩) (hkeep r q hq).2
            rw [isLocalVariable_of_lt htraced.table_prefix (hlt r hr)]
            exact hlocal
  · obtain rfl := Except.ok.inj h
    refine ⟨helper.registerMap, rfl, fun r p hr => ?_, fun r p hr => hr,
      fun r _ p hp => (htraced.recorded r p hp).lt⟩
    exact (htraced.recorded r p hr).mono (fun s q hq => hq) (Nat.le_succ _) hno

/-! ## Replacing operands -/

/-- What replacing operands leaves as it is. -/
structure Grows (table : RegisterTable) (helper helper' : InsertGlobalViewsHelper) : Prop where
  map_eq : helper'.registerMap = helper.registerMap
  operations_eq : helper'.operations = helper.operations
  functions_eq : helper'.globalViewFunctions = helper.globalViewFunctions
  table_prefix : helper.registerTable <+: helper'.registerTable
  precompute : ∀ (r v : Nat), helper.precomputeMap[r]? = some v →
    helper'.precomputeMap[r]? = some v
  viewed : table <+: helper.registerTable → Viewed table helper → Viewed table helper'

theorem Grows.refl (table : RegisterTable) (helper : InsertGlobalViewsHelper) :
    Grows table helper helper :=
  ⟨rfl, rfl, rfl, List.prefix_refl _, fun _ _ h => h, fun _ h => h⟩

theorem Grows.trans {helper₁ helper₂ helper₃ : InsertGlobalViewsHelper}
    (h₁ : Grows table helper₁ helper₂) (h₂ : Grows table helper₂ helper₃) :
    Grows table helper₁ helper₃ where
  map_eq := h₂.map_eq.trans h₁.map_eq
  operations_eq := h₂.operations_eq.trans h₁.operations_eq
  functions_eq := h₂.functions_eq.trans h₁.functions_eq
  table_prefix := h₁.table_prefix.trans h₂.table_prefix
  precompute r v h := h₂.precompute r v (h₁.precompute r v h)
  viewed hstart h := h₂.viewed (hstart.trans h₁.table_prefix) (h₁.viewed hstart h)

theorem globalViewOf_spec {r : Nat} (hr : helper.registerMap.contains r = true) :
    Grows table helper (globalViewOf helper r).2 ∧
      (globalViewOf helper r).2.precomputeMap[r]? = some (globalViewOf helper r).1 := by
  rw [globalViewOf]
  cases hget : helper.precomputeMap[r]? with
  | some v => exact ⟨.refl table helper, hget⟩
  | none =>
      show Grows table helper { helper with
          registerTable := helper.registerTable ++ [_]
          precomputeMap := helper.precomputeMap.insert r helper.registerTable.length } ∧
        (helper.precomputeMap.insert r helper.registerTable.length)[r]? =
          some helper.registerTable.length
      refine ⟨⟨rfl, rfl, rfl, List.prefix_append _ _, fun s v hs => ?_, fun hstart hviewed => ?_⟩,
        ?_⟩
      · have hne : r ≠ s := by
          rintro rfl
          exact nomatch hget.symm.trans hs
        rw [NatMap.getElem?_insert, if_neg hne, hs]
      · intro s v hs
        rw [NatMap.getElem?_insert] at hs
        split at hs
        · next heq =>
            obtain rfl := Option.some.inj hs
            rw [NatMap.contains_eq, Option.isSome_iff_exists] at hr
            refine ⟨heq ▸ hr, hstart.length_le, by simp, ?_⟩
            rw [desc_append_self]
        · obtain ⟨hmap, hle, hlt, htype⟩ := hviewed s v hs
          refine ⟨hmap, hle, by rw [List.length_append]; omega, ?_⟩
          rw [desc_of_grow (List.prefix_append _ _) hlt]
          exact htype
      · rw [NatMap.getElem?_insert, if_pos rfl]

/-- A source after the loop: as it was, or the view of a recorded register. -/
def Operand (helper : InsertGlobalViewsHelper) (srcOp srcOp' : SourceOperand) : Prop :=
  srcOp' = srcOp ∨ ∃ r v, srcOp = .register r ∧ srcOp' = .register v ∧
    helper.precomputeMap[r]? = some v ∧ ∃ p, helper.registerMap[r]? = some p

theorem replaceOperands_spec {src : List SourceOperand} : ∀ {helper : InsertGlobalViewsHelper},
    Grows table helper (replaceOperands helper src).2 ∧
      List.Forall₂ (Operand (replaceOperands helper src).2) src (replaceOperands helper src).1 := by
  induction src with
  | nil => exact fun {helper} => ⟨.refl table helper, .nil⟩
  | cons srcOp rest ih =>
      intro helper
      have hother : Grows table helper (replaceOperands helper rest).2 ∧
          List.Forall₂ (Operand (replaceOperands helper rest).2) (srcOp :: rest)
            (srcOp :: (replaceOperands helper rest).1) := ⟨ih.1, .cons (.inl rfl) ih.2⟩
      cases srcOp with
      | register r =>
          rw [replaceOperands]
          split
          · next hcond =>
              rw [Bool.and_eq_true] at hcond
              obtain ⟨hgrows, hview⟩ := @globalViewOf_spec table helper r hcond.2
              obtain ⟨hgrows', hrest⟩ := @ih (globalViewOf helper r).2
              refine ⟨hgrows.trans hgrows', .cons (.inr ⟨r, (globalViewOf helper r).1, rfl, rfl,
                hgrows'.precompute r _ hview, ?_⟩) hrest⟩
              rw [hgrows'.map_eq, hgrows.map_eq]
              rw [NatMap.contains_eq, Option.isSome_iff_exists] at hcond
              exact hcond.2
          · exact hother
      | literal l => exact hother
      | fifo f => exact hother
      | stringLiteral t => exact hother

theorem operand_at {src src' : List SourceOperand} (h : List.Forall₂ (Operand helper) src src')
    {k r v : Nat} (hr : src[k]? = some (.register r)) (hv : src'[k]? = some (.register v))
    (hne : v ≠ r) :
    helper.precomputeMap[r]? = some v ∧ ∃ p, helper.registerMap[r]? = some p := by
  induction h generalizing k with
  | nil => exact nomatch hr
  | cons hhead _ ih =>
      cases k with
      | zero =>
          rw [List.getElem?_cons_zero] at hr hv
          obtain rfl := Option.some.inj hr
          obtain rfl := Option.some.inj hv
          rcases hhead with heq | ⟨r', v', hr', hv', hfacts⟩
          · exact absurd (SourceOperand.register.inj heq) hne
          · rw [SourceOperand.register.inj hr', SourceOperand.register.inj hv']
            exact hfacts
      | succ k => exact ih hr hv

theorem reads_of_operands {src src' : List SourceOperand}
    (h : List.Forall₂ (Operand helper) src src') {s : Nat}
    (hs : s ∈ src'.filterMap SourceOperand.register?) :
    s ∈ src.filterMap SourceOperand.register? ∨
      ∃ r : Nat, helper.precomputeMap[r]? = some s := by
  induction h with
  | nil => exact absurd hs List.not_mem_nil
  | @cons srcOp srcOp' rest rest' hhead _ ih =>
      rw [← List.singleton_append, List.filterMap_append, List.mem_append] at hs
      rw [← List.singleton_append (l := rest), List.filterMap_append, List.mem_append]
      rcases hs with hs | hs
      · rcases hhead with rfl | ⟨r, v, -, rfl, hv, -⟩
        · exact .inl (.inl hs)
        · obtain rfl : s = v := List.mem_singleton.mp hs
          exact .inr ⟨r, hv⟩
      · rcases ih hs with hs | hs
        · exact .inl (.inr hs)
        · exact .inr hs

/-! ## The steps of the pass -/

theorem getElem?_concat_cases {α : Type} {l : List α} {a b : α} {i : Nat}
    (h : (l ++ [a])[i]? = some b) : l[i]? = some b ∨ i = l.length ∧ b = a := by
  by_cases hi : i < l.length
  · rw [List.getElem?_append_left hi] at h
    exact .inl h
  · rw [List.getElem?_append_right (Nat.not_lt.mp hi)] at h
    obtain ⟨h0, h⟩ := List.getElem?_eq_some_iff.mp h
    rw [List.length_singleton] at h0
    refine .inr ⟨by omega, ?_⟩
    rw [← h, List.getElem_singleton]

/-- The list of visited operations grows by one. -/
theorem Visited.concat {visited : List AtomicOperation} {o o' : AtomicOperation}
    (h : Visited table operations visited) (hget : operations[visited.length]? = some o)
    (ho' : Rewritten table o o') : Visited table operations (visited ++ [o']) := by
  refine ⟨?_, fun p x hx => ?_⟩
  · have hlt := (List.getElem?_eq_some_iff.mp hget).1
    rw [List.length_append]
    exact hlt
  · rcases getElem?_concat_cases hx with hx | ⟨rfl, rfl⟩
    · exact h.2 p x hx
    · exact ⟨o, hget, ho'⟩

/-- An operation that is visited with other maps: the operands replaced before stay served. -/
theorem replaced_concat (htraced : Traced table operations helper) {operation : AtomicOperation}
    (hget : operations[helper.operations.length]? = some operation)
    {operation' : AtomicOperation} (hops : helper'.operations = helper.operations ++ [operation'])
    (hserved : ∀ {i r v}, i < helper.operations.length → Served table operations helper i r v →
      Served table operations helper' i r v)
    (hlast : ∀ (k r v : Nat), operation.op.src[k]? = some (.register r) →
      operation'.op.src[k]? = some (.register v) → v ≠ r →
      Served table operations helper' helper.operations.length r v) :
    ∀ (i k : Nat) o o' r v, operations[i]? = some o → helper'.operations[i]? = some o' →
      o.op.src[k]? = some (.register r) → o'.op.src[k]? = some (.register v) → v ≠ r →
      Served table operations helper' i r v := by
  intro i k o o' r v ho ho' hr hv hne
  rw [hops] at ho'
  rcases getElem?_concat_cases ho' with hold | ⟨rfl, rfl⟩
  · exact hserved (List.getElem?_eq_some_iff.mp hold).1
      (htraced.replaced i k o o' r v ho hold hr hv hne)
  · obtain rfl := Option.some.inj (hget.symm.trans ho)
    exact hlast k r v hr hv hne

theorem unchanged_last {operation : AtomicOperation} {P : Nat → Nat → Prop} (k r v : Nat)
    (hr : operation.op.src[k]? = some (.register r))
    (hv : operation.op.src[k]? = some (.register v)) (hne : v ≠ r) : P r v :=
  absurd (SourceOperand.register.inj (Option.some.inj (hv.symm.trans hr))) hne

/-- `UpdateState`. -/
theorem updateState_traced (hblock : BlockWellFormed table operations)
    (htraced : Traced table operations helper) {operation : AtomicOperation}
    (hget : operations[helper.operations.length]? = some operation)
    (hbegin : ¬ BeginsAt operations helper.operations.length)
    (h : helper.updateState operation = .ok helper') :
    Traced table operations helper' ∧
      helper'.operations.length = helper.operations.length + 1 := by
  rw [InsertGlobalViewsHelper.updateState, bind_eq_ok_iff] at h
  obtain ⟨helper₁, hrecorded, h⟩ := h
  obtain ⟨registerMap, rfl, hmap, hmono, hbefore⟩ :=
    recorded_spec hblock htraced hget hbegin hrecorded
  have hviewed : Viewed table { helper with registerMap := registerMap } := by
    intro r v hv
    obtain ⟨⟨p, hp⟩, hrest⟩ := htraced.precomputed r v hv
    exact ⟨⟨p, hmono r p hp⟩, hrest⟩
  split at h
  · next hinput =>
      have hspec := @replaceOperands_spec table operation.op.src
        { helper with registerMap := registerMap }
      generalize replaceOperands { helper with registerMap := registerMap } operation.op.src =
        replacedPair at h hspec
      obtain ⟨src, grown⟩ := replacedPair
      obtain rfl := Except.ok.inj h
      obtain ⟨hgrows, hoperands⟩ := hspec
      have hops : grown.operations = helper.operations := hgrows.operations_eq
      have hmapEq : grown.registerMap = registerMap := hgrows.map_eq
      have hviewed' := hgrows.viewed htraced.table_prefix hviewed
      have hrewritten : Rewritten table operation
          { operation with op := { operation.op with src := src } } := by
        refine ⟨fun h => absurd (hinput.symm.trans h) (by decide), rfl, fun s hs => ?_⟩
        exact (reads_of_operands hoperands hs).imp id fun ⟨r, hr⟩ => (hviewed' r s hr).2.1
      refine ⟨⟨htraced.table_prefix.trans hgrows.table_prefix, ?_, ?_, hviewed', ?_⟩, ?_⟩
      · show Visited table operations (grown.operations ++ [_])
        rw [hops]
        exact htraced.visited.concat hget hrewritten
      · show MapRecorded table operations grown.registerMap (grown.operations ++ [_]).length
        rw [hops, hmapEq, List.length_append]
        exact hmap
      · apply replaced_concat htraced hget (by rw [← hops]; rfl)
        · rintro i r v hi (⟨function, hmem, hfunction⟩ | ⟨hv, p, hp, hlt⟩)
          · refine .inl ⟨function, ?_, hfunction⟩
            show _ ∈ grown.globalViewFunctions
            rw [hgrows.functions_eq]
            exact hmem
          · refine .inr ⟨hgrows.precompute r v hv, p, ?_, hlt⟩
            show grown.registerMap[r]? = some p
            rw [hmapEq]
            exact hmono r p hp
        · intro k r v hr hv hne
          obtain ⟨hview, p, hp⟩ := operand_at hoperands hr hv hne
          refine .inr ⟨hview, p, hp, hbefore r ?_ p ?_⟩
          · exact List.mem_filterMap.mpr ⟨_, List.mem_of_getElem? hr, rfl⟩
          · rw [← hmapEq]
            exact hp
      · show (grown.operations ++ [_]).length = _
        rw [hops, List.length_append]
        rfl
  · obtain rfl := Except.ok.inj h
    refine ⟨⟨htraced.table_prefix, htraced.visited.concat hget (.refl table operation), ?_, hviewed,
      ?_⟩, List.length_append⟩
    · show MapRecorded table operations _ (_ ++ [_]).length
      rw [List.length_append]
      exact hmap
    · apply replaced_concat htraced hget rfl
      · rintro i r v hi (hfunction | ⟨hv, p, hp, hlt⟩)
        · exact .inl hfunction
        · exact .inr ⟨hv, p, hmono r p hp, hlt⟩
      · exact unchanged_last

/-- One operation of a block. -/
theorem step_traced (hblock : BlockWellFormed table operations)
    (htraced : Traced table operations helper) {operation : AtomicOperation}
    (hget : operations[helper.operations.length]? = some operation)
    (h : helper.step operation = .ok helper') :
    Traced table operations helper' ∧
      helper'.operations.length = helper.operations.length + 1 := by
  have hvisited := htraced.visited.concat hget (.refl table operation)
  unfold InsertGlobalViewsHelper.step at h
  split at h
  · -- What was recorded before is forgotten, and nothing waits for a view
    obtain ⟨_, hempty, h⟩ := bind_eq_ok_iff.mp h
    obtain rfl := Except.ok.inj h
    have hnone : ∀ r : Nat, helper.precomputeMap[r]? = none := by
      intro r
      have heq : helper.precomputeMap.isEmpty = true := by
        cases hcase : helper.precomputeMap.isEmpty with
        | true => rfl
        | false =>
            rw [hcase] at hempty
            exact nomatch hempty
      rw [Std.ExtTreeMap.isEmpty_iff.mp heq]
      exact Std.ExtTreeMap.getElem?_empty
    refine ⟨⟨htraced.table_prefix, hvisited, fun r p hr => ?_, fun r v hv => ?_, ?_⟩,
      List.length_append⟩
    · exact absurd hr (by simp)
    · exact nomatch (hnone r).symm.trans hv
    · apply replaced_concat htraced hget rfl
      · rintro i r v hi (hfunction | ⟨hv, -⟩)
        · exact .inl hfunction
        · exact nomatch (hnone r).symm.trans hv
      · exact unchanged_last
  · obtain ⟨_, _, h⟩ := bind_eq_ok_iff.mp h
    obtain ⟨emitted, hemitted, h⟩ := bind_eq_ok_iff.mp h
    obtain rfl := Except.ok.inj h
    obtain ⟨emitted', hemitted', hall⟩ := emitOperations_spec hblock htraced
    obtain rfl := Except.ok.inj (hemitted.symm.trans hemitted')
    refine ⟨⟨htraced.table_prefix, hvisited, fun r p hr => ?_, fun r v hv => ?_, ?_⟩,
      List.length_append⟩
    · exact absurd hr (by simp)
    · exact absurd hv (by simp)
    · apply replaced_concat htraced hget rfl
      · rintro i r v hi (⟨function, hmem, hfunction⟩ | ⟨hv, p, hp, hlt⟩)
        · exact .inl ⟨function, List.mem_append_left _ hmem, hfunction⟩
        · obtain ⟨function, hmem, hfunction⟩ := hall r v hv p i hp hlt (Nat.le_of_lt hi)
          exact .inl ⟨function, List.mem_append_right _ hmem, (htraced.recorded r p hp).isLocal,
            hfunction⟩
      · exact unchanged_last
  · next hbegin _ =>
      have hno : ¬ BeginsAt operations helper.operations.length := by
        rintro ⟨o, desc, ho, hopcode⟩
        obtain rfl := Option.some.inj (hget.symm.trans ho)
        exact hbegin desc hopcode
      split at h
      · exact updateState_traced hblock htraced hget hno h
      · obtain rfl := Except.ok.inj h
        refine ⟨⟨htraced.table_prefix, hvisited, fun r p hr => ?_, htraced.precomputed, ?_⟩,
          List.length_append⟩
        · show Recorded table operations _ (_ ++ [_]).length r p
          rw [List.length_append]
          refine (htraced.recorded r p hr).mono (fun s q hq => hq) (Nat.le_succ _) fun b hle hlt => ?_
          have hb : b < helper.operations.length + 1 := hlt
          rw [show b = helper.operations.length by omega]
          exact hno
        · apply replaced_concat htraced hget rfl
          · exact fun _ hserved => hserved
          · exact unchanged_last

theorem foldlM_traced (hblock : BlockWellFormed table operations) :
    ∀ {rest : List AtomicOperation} {helper : InsertGlobalViewsHelper},
      Traced table operations helper → rest <+: operations.drop helper.operations.length →
      rest.foldlM InsertGlobalViewsHelper.step helper = .ok helper' →
      Traced table operations helper' := by
  intro rest
  induction rest with
  | nil =>
      intro helper htraced _ h
      exact Except.ok.inj h ▸ htraced
  | cons operation rest ih =>
      intro helper htraced hrest h
      obtain ⟨later, hlater⟩ := hrest
      rw [List.foldlM_cons, bind_eq_ok_iff] at h
      obtain ⟨middle, hstep, h⟩ := h
      have hget : operations[helper.operations.length]? = some operation := by
        rw [← List.head?_drop, ← hlater]
        rfl
      obtain ⟨hmiddle, hlength⟩ := step_traced hblock htraced hget hstep
      refine ih hmiddle ⟨later, ?_⟩ h
      rw [hlength, ← List.tail_drop, ← hlater]
      rfl

/-- Visiting the first operations of a block keeps the invariant. -/
theorem visit_traced (hblock : BlockWellFormed table operations) {first : List AtomicOperation}
    (hfirst : first <+: operations) (h : visit table first = .ok helper) :
    Traced table operations helper := by
  refine foldlM_traced hblock ⟨List.prefix_refl _, ⟨Nat.zero_le _, ?_⟩, ?_, ?_, ?_⟩ hfirst h
  · exact fun p o' ho' => by simp at ho'
  · exact fun r p hr => absurd hr (by simp)
  · exact fun r v hv => absurd hv (by simp)
  · exact fun i k o o' r v _ ho' => by simp at ho'

/-! ## `InsertGlobalViews` -/

/-- The function of a view lists every operation after the ones that define its sources;
    the sources left are globals, or global views. -/
def DefinedBeforeUse (table : RegisterTable) (function : List AtomicOperation) : Prop :=
  ∀ before o after, function = before ++ o :: after → ∀ s ∈ readsOf o,
    isGlobalVariable table s = true ∨ table.length ≤ s ∨ ∃ x ∈ before, s ∈ writesOf x

theorem Flattened.definedBeforeUse {r i : Nat} {function : List AtomicOperation}
    (h : Flattened table operations r i function) : DefinedBeforeUse table function := by
  intro before o after heq s hs
  rcases h.ordered.before heq s hs with (hglobal | hnew) | hbefore
  · exact .inl hglobal
  · exact .inr (.inl hnew)
  · exact .inr (.inr hbefore)

/-- **Global views preserve operands.**  Wherever the pass stands in a block,
    `FlattenFunction` ends for every register it may be called for, and lists operations
    after the ones that define their sources.  An operand `r` that the view `v` replaced
    has the value of the view, which runs on the values that the globals have at a
    `BeginAtomic` before it, if the operations that compute `r` have no registered inputs
    and results that only depend on their operands, and read no global written since. -/
theorem insertGlobalViews_preserves {A : Type} (d : Device A)
    (hblock : BlockWellFormed table operations) :
    (∀ first helper, first <+: operations → visit table first = .ok helper →
      ∀ r, helper.registerMap.contains r = true →
        ∃ function, flattenFunction helper.registerMap helper.operations
            (helper.operations.length + 1) r = .ok function ∧
          DefinedBeforeUse table function) ∧
    ∀ helper, computeAddresses table operations = .ok helper →
      ∀ (i k : Nat) o o' r v, operations[i]? = some o → helper.operations[i]? = some o' →
        o.op.src[k]? = some (.register r) → o'.op.src[k]? = some (.register v) → v ≠ r →
        ∃ function, (v, function) ∈ helper.globalViewFunctions ∧
          DefinedBeforeUse table function ∧
          ∀ b, b < i → BeginsAt operations b → ComputedFromGlobals d table operations b r →
            ∀ ambients ambient regs env, (∀ g, isGlobalVariable table g = true → env g = regs g) →
              d.viewValue ambient function env r =
                d.stateAt ambients operations b regs (i - b) r := by
  constructor
  · intro first helper hfirst hvisit r hr
    have htraced := visit_traced hblock hfirst hvisit
    rw [NatMap.contains_eq, Option.isSome_iff_exists] at hr
    obtain ⟨p, hp⟩ := hr
    obtain ⟨function, hfunction, hflattened⟩ := flattenFunction_traced hblock htraced hp
      (htraced.recorded r p hp).lt (Nat.le_refl _)
    exact ⟨function, hfunction, hflattened.definedBeforeUse⟩
  · intro helper h i k o o' r v ho ho' hr hv hne
    rw [computeAddresses, bind_eq_ok_iff] at h
    obtain ⟨final, hvisit, h⟩ := h
    obtain ⟨_, _, h⟩ := bind_eq_ok_iff.mp h
    obtain ⟨_, _, h⟩ := bind_eq_ok_iff.mp h
    obtain ⟨_, hempty, h⟩ := bind_eq_ok_iff.mp h
    obtain rfl := Except.ok.inj h
    have htraced := visit_traced hblock (List.prefix_refl _) hvisit
    rcases htraced.replaced i k o o' r v ho ho' hr hv hne with
      ⟨function, hmem, hlocal, hfunction⟩ | ⟨hwaiting, -⟩
    · refine ⟨function, hmem, hfunction.definedBeforeUse, ?_⟩
      intro b hb hbegin hcomputed ambients ambient regs env henv
      exact viewValue_eq hblock hfunction hbegin hb hlocal hcomputed ambients ambient henv
    · -- At the end of a block no view is waiting for its function
      cases hcase : final.precomputeMap.isEmpty with
      | true =>
          rw [Std.ExtTreeMap.isEmpty_iff.mp hcase] at hwaiting
          exact absurd hwaiting (by simp)
      | false =>
          rw [hcase] at hempty
          exact nomatch hempty

/-! ## An address from a global, and one from the cycle counter -/

/-- A global, a local, a memory and another local. -/
def addressRegisters : RegisterTable :=
  [⟨8, .global, false, false, none⟩, ⟨8, .local, false, false, none⟩,
    ⟨8, .memory, false, false, none⟩, ⟨8, .local, false, false, none⟩]

def atomicBlock : AtomicBlockDesc := ⟨.memoryLoad, false, 0, 0⟩

/-- An atomic block that computes the local 1, and loads from the memory at that address. -/
def loadBlock (address : Operation) : List AtomicOperation :=
  [{ op := { opcode := .beginAtomic atomicBlock } }, { op := address },
    { op := { opcode := .loadMemory, src := [.register 2, .register 1], dst := [.register 3] }
      latency := 1 },
    { op := { opcode := .endAtomic atomicBlock } }]

/-- The address is a copy of the global. -/
def copyAddress : Operation := { opcode := .mov, src := [.register 0], dst := [.register 1] }

/-- The address is the cycle count. -/
def cycleAddress : Operation := { opcode := .cycleCounter, dst := [.register 1] }

/-- Moves copy, and the cycle counter gives the cycle. -/
def cycleDevice : Device Nat where
  compute operation ambient values :=
    match operation.op.opcode with
    | .cycleCounter => [ambient]
    | _ => values
  fifo _ _ := 0

theorem loadBlock_wellFormed {address : Operation} (hdst : address.writes = [1])
    (hreads : ∀ s ∈ address.reads, s < 4) :
    BlockWellFormed addressRegisters (loadBlock address) := by
  have hlength : addressRegisters.length = 4 := rfl
  refine ⟨fun o ho s hs => ?_, fun o ho s hs => ?_, ?_⟩
  · simp only [loadBlock, List.mem_cons, List.not_mem_nil, or_false] at ho
    rcases ho with rfl | rfl | rfl | rfl
    · exact absurd hs List.not_mem_nil
    · exact hreads s hs
    · rcases List.mem_cons.mp hs with rfl | hs
      · decide
      · rw [List.mem_singleton.mp hs]
        decide
    · exact absurd hs List.not_mem_nil
  · simp only [loadBlock, List.mem_cons, List.not_mem_nil, or_false] at ho
    rcases ho with rfl | rfl | rfl | rfl
    · exact absurd hs List.not_mem_nil
    · have hs' : s ∈ address.writes := hs
      rw [hdst] at hs'
      rw [List.mem_singleton.mp hs']
      decide
    · rw [List.mem_singleton.mp hs]
      decide
    · exact absurd hs List.not_mem_nil
  · intro p q o o' hpq ho ho' r _ hr hr'
    have hwrites : ∀ {p : Nat} {o}, (loadBlock address)[p]? = some o → r ∈ writesOf o →
        p = 1 ∧ r = 1 ∨ p = 2 ∧ r = 3 := by
      intro p o ho hr
      match p with
      | 0 =>
          obtain rfl := Option.some.inj ho
          exact absurd hr List.not_mem_nil
      | 1 =>
          obtain rfl := Option.some.inj ho
          have hr' : r ∈ address.writes := hr
          rw [hdst] at hr'
          exact .inl ⟨rfl, List.mem_singleton.mp hr'⟩
      | 2 =>
          obtain rfl := Option.some.inj ho
          exact .inr ⟨rfl, List.mem_singleton.mp hr⟩
      | 3 =>
          obtain rfl := Option.some.inj ho
          exact absurd hr List.not_mem_nil
      | p + 4 => exact nomatch ho
    rcases hwrites ho hr with ⟨rfl, rfl⟩ | ⟨rfl, rfl⟩ <;> rcases hwrites ho' hr' with h | h <;> omega

/-- What the pass makes of the block: the load reads the view 4. -/
def viewedBlock (address : Operation) : InsertGlobalViewsHelper where
  registerTable := addressRegisters ++ [⟨8, .globalView, false, false, none⟩]
  globalViewFunctions := [(4, [{ op := address }])]
  operations :=
    [{ op := { opcode := .beginAtomic atomicBlock } }, { op := address },
      { op := { opcode := .loadMemory, src := [.register 2, .register 4], dst := [.register 3] }
        latency := 1 },
      { op := { opcode := .endAtomic atomicBlock } }]

theorem computeAddresses_cycleAddress :
    computeAddresses addressRegisters (loadBlock cycleAddress) =
      .ok (viewedBlock cycleAddress) := by
  rfl

theorem computeAddresses_copyAddress :
    computeAddresses addressRegisters (loadBlock copyAddress) =
      .ok (viewedBlock copyAddress) := by
  rfl

/-- The cycle count has no register sources, so it is taken for a function of globals; the
    view that replaces the address has the count of another cycle. -/
theorem insertGlobalViews_misses_cycle :
    ¬ ∀ (d : Device Nat) (table : RegisterTable) (operations : List AtomicOperation),
      BlockWellFormed table operations →
      ∀ helper, computeAddresses table operations = .ok helper →
        ∀ (i k : Nat) o o' r v, operations[i]? = some o → helper.operations[i]? = some o' →
          o.op.src[k]? = some (.register r) → o'.op.src[k]? = some (.register v) → v ≠ r →
          ∃ function, (v, function) ∈ helper.globalViewFunctions ∧
            ∀ b, b < i → BeginsAt operations b →
              ∀ ambients ambient regs env,
                (∀ g, isGlobalVariable table g = true → env g = regs g) →
                d.viewValue ambient function env r =
                  d.stateAt ambients operations b regs (i - b) r := by
  intro h
  obtain ⟨function, hmem, hvalue⟩ := h cycleDevice addressRegisters (loadBlock cycleAddress)
    (loadBlock_wellFormed rfl nofun) _ computeAddresses_cycleAddress 2 1 _ _ 1 4 rfl rfl rfl rfl
    (by decide)
  obtain rfl : function = [{ op := cycleAddress }] := by
    obtain ⟨-, hfunction⟩ := Prod.mk.inj (List.mem_singleton.mp hmem)
    exact hfunction
  have hview := hvalue 0 (by decide) ⟨_, atomicBlock, rfl, rfl⟩ (fun _ => 0) 1 (fun _ => 0)
    (fun _ => 0) (fun _ _ => rfl)
  have hone : cycleDevice.viewValue 1 [{ op := cycleAddress }] (fun _ => 0) 1 = 1 := rfl
  have hzero : cycleDevice.stateAt (fun _ => 0) (loadBlock cycleAddress) 0 (fun _ => 0) (2 - 0) 1 =
      0 := rfl
  rw [hone, hzero] at hview
  exact absurd hview (by decide)

theorem copyAddress_computed :
    ComputedFromGlobals cycleDevice addressRegisters (loadBlock copyAddress) 0 1 := by
  intro p o hneeds ho
  have hplace : ∀ {p : Nat} {o}, (loadBlock copyAddress)[p]? = some o → 1 ∈ writesOf o →
      p = 1 ∧ o = { op := copyAddress } := by
    intro p o ho hr
    match p with
    | 0 =>
        obtain rfl := Option.some.inj ho
        exact absurd hr List.not_mem_nil
    | 1 => exact ⟨rfl, (Option.some.inj ho).symm⟩
    | 2 =>
        obtain rfl := Option.some.inj ho
        exact absurd hr (by decide)
    | 3 =>
        obtain rfl := Option.some.inj ho
        exact absurd hr List.not_mem_nil
    | p + 4 => exact nomatch ho
  have hp : p = 1 := by
    cases hneeds with
    | writer hget hwrites => exact (hplace hget hwrites).1
    | source hget hwrites hread hlocal hlt _ =>
        -- The only source is the global
        obtain ⟨rfl, rfl⟩ := hplace hget hwrites
        rw [List.mem_singleton.mp hread] at hlocal
        exact absurd hlocal (by decide)
  subst hp
  obtain rfl := Option.some.inj ho
  refine ⟨⟨fun _ _ _ => rfl, fun f hf => ?_⟩, rfl, fun w hw => ?_, fun g _ _ q o' _ hq hget => ?_⟩
  · exact nomatch List.mem_singleton.mp hf
  · rw [List.mem_singleton.mp hw]
    decide
  · obtain rfl : q = 0 := by omega
    obtain rfl := Option.some.inj hget
    exact List.not_mem_nil

theorem insertGlobalViews_preserves_copyAddress :
    ∃ function, (4, function) ∈ (viewedBlock copyAddress).globalViewFunctions ∧
      ∀ ambients ambient regs, cycleDevice.viewValue ambient function regs 1 =
        cycleDevice.stateAt ambients (loadBlock copyAddress) 0 regs 2 1 := by
  obtain ⟨-, hviews⟩ := insertGlobalViews_preserves cycleDevice
    (@loadBlock_wellFormed copyAddress rfl (by decide))
  obtain ⟨function, hmem, -, hvalue⟩ := hviews _ computeAddresses_copyAddress 2 1 _ _ 1 4 rfl rfl rfl
    rfl (by decide)
  refine ⟨function, hmem, fun ambients ambient regs => ?_⟩
  exact hvalue 0 (by decide) ⟨_, atomicBlock, rfl, rfl⟩ copyAddress_computed ambients ambient regs
    regs fun _ _ => rfl

end Kanagawa.Lower.GlobalViews
