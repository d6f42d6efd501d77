/-
  Kanagawa.Library.PartialSort

  The streaming partial sort (`data/array.k`).

  Each of the atomic stages keeps an element, and every call passes the stages in
  order.  A stage keeps the smaller one of its element and the one that comes to
  it, and passes the other one on, so that the elements kept are inserted into a
  sorted array without ever moving two of them at a time.

  An element that a smaller one has displaced goes on behind its equals: the order
  of equal elements is not that of the calls.
-/
import Kanagawa.Lib.StagePipeline
import Kanagawa.Library.BitonicSort

namespace Kanagawa.Library.PartialSort

open Lib.StagePipeline Runs

variable {α : Type}

/-! ## The stages -/

/-- A call on its way: the element it carries, `is_last`, and `snappedResult` so far.  The value of
    an optional that is not valid is never looked at. -/
structure Call (α : Type) where
  lhs : Option α
  isLast : Bool
  snappedResult : List (Option α)
  deriving DecidableEq

/-- The call of `partial_sort` with an element. -/
def Call.of (x : α) (isLast : Bool) : Call α := ⟨some x, isLast, []⟩

/-- The element that comes to a stage is kept there. -/
def swaps (cmp : α → α → Bool) (lhs rhs : Option α) : Bool :=
  match lhs, rhs with
  | some _, none => true
  | some value, some kept => cmp value kept
  | none, _ => false

/-- An atomic stage: its `result`, and a call. -/
def stage (cmp : α → α → Bool) (result : Option α) (call : Call α) : Option α × Call α :=
  let (result, lhs) := if swaps cmp call.lhs result then (call.lhs, result) else (result, call.lhs)
  let snappedResult := call.snappedResult ++ [result]
  (if call.isLast then none else result, ⟨lhs, call.isLast, snappedResult⟩)

/-- `partial_sort`. -/
def partialSort (cmp : α → α → Bool) (N : Nat) : Stages (Option α) (Call α) where
  count := N
  initial _ := none
  step _ := stage cmp

/-- The calls of a stream, as they come to the first stage. -/
def callsOf (calls : List (α × Bool)) : List (Call α) := calls.map fun c => Call.of c.1 c.2

/-- The elements of the current group after some calls. -/
def groupAfter (calls : List (α × Bool)) : List α :=
  calls.foldl (fun group c => if c.2 then [] else group ++ [c.1]) []

/-! ## Insertion -/

/-- An element inserted into the elements kept. -/
def push (cmp : α → α → Bool) : List α → α → List α
  | [], x => [x]
  | kept :: rest, x => if cmp x kept then x :: push cmp rest kept else kept :: push cmp rest x

/-- The elements of a group, inserted one after the other. -/
def pushAll (cmp : α → α → Bool) (group : List α) : List α := group.foldl (push cmp) []

variable {cmp : α → α → Bool}

theorem push_perm (kept : List α) (x : α) : (push cmp kept x).Perm (x :: kept) := by
  induction kept generalizing x with
  | nil => exact .refl _
  | cons r rest ih =>
      rw [push]
      split
      · exact (ih r).cons x
      · exact ((ih x).cons r).trans (.swap x r rest)

theorem pushAll_concat (group : List α) (x : α) :
    pushAll cmp (group ++ [x]) = push cmp (pushAll cmp group) x := by
  rw [pushAll, List.foldl_append]
  rfl

theorem pushAll_perm (group : List α) : (pushAll cmp group).Perm group := by
  induction group using List.reverseRecOn with
  | nil => exact .refl _
  | append_singleton group x ih =>
      rw [pushAll_concat]
      refine (push_perm _ x).trans ((ih.cons x).trans ?_)
      exact (List.perm_append_singleton x group).symm

/-- No later element is strictly before an earlier one. -/
def Sorted (cmp : α → α → Bool) (xs : List α) : Prop := xs.Pairwise fun a b => cmp b a = false

theorem push_sorted (hcmp : StrictWeak cmp) {kept : List α} (hkept : Sorted cmp kept) (x : α) :
    Sorted cmp (push cmp kept x) := by
  induction kept generalizing x with
  | nil => exact List.pairwise_singleton _ _
  | cons r rest ih =>
      obtain ⟨hr, hrest⟩ := List.pairwise_cons.mp hkept
      rw [push]
      split
      case isTrue hbefore =>
        refine List.pairwise_cons.mpr ⟨fun b hb => ?_, ih hrest r⟩
        have hxr := hcmp.compares.first x r hbefore
        rcases List.mem_cons.mp ((push_perm rest r).mem_iff.mp hb) with rfl | hmem
        · exact hxr
        · exact hcmp.not_trans hxr (hr b hmem)
      case isFalse hnot =>
        refine List.pairwise_cons.mpr ⟨fun b hb => ?_, ih hrest x⟩
        rcases List.mem_cons.mp ((push_perm rest x).mem_iff.mp hb) with rfl | hmem
        · simpa using hnot
        · exact hr b hmem

theorem pushAll_sorted (hcmp : StrictWeak cmp) (group : List α) :
    Sorted cmp (pushAll cmp group) := by
  induction group using List.reverseRecOn with
  | nil => exact List.Pairwise.nil
  | append_singleton group x ih =>
      rw [pushAll_concat]
      exact push_sorted hcmp ih x

/-! ## What a call leaves in the stages -/

/-- The stages keep the first elements of a list. -/
def Keeps (N : Nat) (held : Nat → Option α) (kept : List α) : Prop := ∀ i, i < N → held i = kept[i]?

/-- The element that comes to a stage, when one is inserted. -/
def carried (cmp : α → α → Bool) : List α → α → Nat → Option α
  | _, x, 0 => some x
  | [], _, _ + 1 => none
  | kept :: rest, x, i + 1 =>
      if cmp x kept then carried cmp rest kept i else carried cmp rest x i

/-- A stage keeps the element at its place in the list, and passes the other one on. -/
theorem stage_carried (kept : List α) (x : α) (i : Nat) :
    (if swaps cmp (carried cmp kept x i) kept[i]? then (carried cmp kept x i, kept[i]?)
      else (kept[i]?, carried cmp kept x i)) =
      ((push cmp kept x)[i]?, carried cmp kept x (i + 1)) := by
  induction kept generalizing x i with
  | nil =>
      cases i with
      | zero => rfl
      | succ i => rfl
  | cons r rest ih =>
      cases i with
      | zero =>
          cases hbefore : cmp x r <;> cases rest <;> simp [carried, push, swaps, hbefore]
      | succ i =>
          simp only [carried, push, List.getElem?_cons_succ]
          split
          · simpa using ih r i
          · simpa using ih x i

/-- A call before a stage: the element it carries, and the elements of the stages before. -/
theorem passed_eq (cmp : α → α → Bool) {N : Nat} {held : Nat → Option α} {kept : List α} (hheld : Keeps N held kept)
    (x : α) (isLast : Bool) (i : Nat) (hi : i ≤ N) :
    (partialSort cmp N).passed held (Call.of x isLast) i =
      ⟨carried cmp kept x i, isLast, (List.range i).map fun k => (push cmp kept x)[k]?⟩ := by
  induction i with
  | zero =>
      cases kept <;> rfl
  | succ i ih =>
      rw [Stages.passed, ih (by omega)]
      show (stage cmp (held i) _).2 = _
      rw [hheld i (by omega), stage, stage_carried, List.range_succ, List.map_append]
      rfl

theorem after_eq (cmp : α → α → Bool) {N : Nat} {held : Nat → Option α} {kept : List α} (hheld : Keeps N held kept)
    (x : α) (isLast : Bool) :
    Keeps N ((partialSort cmp N).after held (Call.of x isLast))
      (if isLast then [] else push cmp kept x) := by
  intro i hi
  rw [Stages.after, passed_eq cmp hheld x isLast i hi.le]
  show (stage cmp (held i) _).1 = _
  rw [hheld i hi, stage, stage_carried]
  cases isLast <;> rfl

/-- After some calls the stages keep the smallest elements of the current group. -/
theorem heldAfter_keeps (cmp : α → α → Bool) (N : Nat) (calls : List (α × Bool)) :
    Keeps N ((partialSort cmp N).heldAfter (callsOf calls)) (pushAll cmp (groupAfter calls)) := by
  induction calls using List.reverseRecOn with
  | nil => exact fun i _ => rfl
  | append_singleton calls c ih =>
      have hstep := after_eq cmp ih c.1 c.2
      have hgroup : pushAll cmp (groupAfter (calls ++ [c])) =
          if c.2 then [] else push cmp (pushAll cmp (groupAfter calls)) c.1 := by
        rw [groupAfter, List.foldl_append]
        cases hlast : c.2 with
        | true => simp [hlast, pushAll]
        | false => simp [hlast, pushAll, groupAfter, List.foldl_append]
      rw [hgroup, callsOf, List.map_append, Stages.heldAfter, List.foldl_append]
      exact hstep

/-! ## The results -/

/-- The result of a call: the first elements of the current group as the stages insert them. -/
theorem stream_result (N : Nat) (calls : List (α × Bool)) (t : Nat) :
    ((partialSort cmp N).stream (partialSort cmp N).initial (callsOf calls) N)[t]? =
      calls[t]?.map fun c =>
        ⟨carried cmp (pushAll cmp (groupAfter (calls.take t))) c.1 N, c.2,
          (List.range N).map fun k => (pushAll cmp (groupAfter (calls.take t) ++ [c.1]))[k]?⟩ := by
  rw [Stages.stream_getElem?, callsOf, List.getElem?_map]
  cases calls[t]? with
  | none => rfl
  | some c =>
      have hheld := heldAfter_keeps cmp N (calls.take t)
      rw [callsOf, List.map_take] at hheld
      have hpassed := passed_eq cmp hheld c.1 c.2 N le_rfl
      refine congrArg some (hpassed.trans ?_)
      simp only [pushAll_concat]

/-- In every run each call that has passed the stages returns the first elements of its group so
    far in sorted order, and not valid ones behind them; the calls leave in order, and until all
    have left some stage can take one. -/
theorem partial_sort_smallest (hcmp : StrictWeak cmp) {N : Nat} {calls : List (α × Bool)}
    {s : Flow (Option α) (Call α)}
    (hs : ((partialSort cmp N).system (callsOf calls)).Reachable s) :
    (∀ t call, (s.waiting N)[t]? = some call → ∃ x isLast sorted,
      calls[t]? = some (x, isLast) ∧
      sorted = pushAll cmp (groupAfter (calls.take t) ++ [x]) ∧
      sorted.Perm (groupAfter (calls.take t) ++ [x]) ∧
      sorted.Pairwise (fun a b => cmp b a = false) ∧
      call.snappedResult = (List.range N).map fun k => sorted[k]?) ∧
    ((s.waiting N).length = calls.length ∨
      ∃ i, ((partialSort cmp N).system (callsOf calls)).Enabled s i) := by
  constructor
  · intro t call hcall
    obtain ⟨n, -, hleft⟩ := Stages.left_eq_take hs
    have hcount : (partialSort cmp N).count = N := rfl
    rw [hcount] at hleft
    have hlt : t < n := by
      have hlength := (List.getElem?_eq_some_iff.mp hcall).1
      rw [hleft, List.length_take] at hlength
      omega
    rw [hleft, List.getElem?_take_of_lt hlt, stream_result] at hcall
    obtain ⟨⟨x, isLast⟩, hx, rfl⟩ := Option.map_eq_some_iff.mp hcall
    exact ⟨x, isLast, _, hx, rfl, pushAll_perm _, pushAll_sorted hcmp _, rfl⟩
  · refine (Stages.all_left_or_enabled hs).imp (fun hall => ?_) id
    have hnone : ∀ t : Nat, (s.waiting N)[t]? = none ↔ calls[t]? = none := by
      intro t
      have hcount : (partialSort cmp N).count = N := rfl
      rw [hcount] at hall
      rw [hall, stream_result, Option.map_eq_none_iff]
    simp only [List.getElem?_eq_none_iff] at hnone
    exact Nat.le_antisymm ((hnone _).mpr le_rfl) ((hnone _).mp le_rfl)

/-- Two stages and two groups of numbers. -/
theorem partial_sort_smallest_two_groups :
    ∃ (s : Flow (Option Nat) (Call Nat)) (call : Call Nat) (sorted : List Nat),
      (s.waiting 2)[2]? = some call ∧ sorted.Perm [4, 2] ∧
      call.snappedResult = (List.range 2).map fun k => sorted[k]? := by
  let row := (partialSort (fun a b : Nat => decide (a < b)) 2).system
    (callsOf [(5, true), (4, false), (2, false)])
  have hreach : row.Reachable (row.run row.start [0, 0, 1, 1, 0, 1]) :=
    System.Reachable.run .start
      ⟨⟨by decide, by decide⟩, ⟨by decide, by decide⟩, ⟨by decide, by decide⟩,
        ⟨by decide, by decide⟩, ⟨by decide, by decide⟩, ⟨by decide, by decide⟩, trivial⟩
  obtain ⟨x, isLast, sorted, hx, -, hperm, -, hresult⟩ :=
    (partial_sort_smallest lessThan_strictWeak hreach).1 2 _ rfl
  obtain ⟨rfl, rfl⟩ := Prod.mk.inj (Option.some.inj hx)
  exact ⟨row.run row.start [0, 0, 1, 1, 0, 1], _, sorted, rfl, hperm, hresult⟩

/-- Pairs are compared by their first component: the later one of two equal pairs comes first, once
    a smaller one has come. -/
theorem partial_sort_not_stable :
    StrictWeak (fun a b : Nat × Nat => decide (a.1 < b.1)) ∧
    ∃ s, ((partialSort (fun a b : Nat × Nat => decide (a.1 < b.1)) 3).system
        (callsOf [((2, 0), false), ((2, 1), false), ((1, 2), false)])).Reachable s ∧
      (s.waiting 3).map Call.snappedResult =
        [[some (2, 0), none, none], [some (2, 0), some (2, 1), none],
          [some (1, 2), some (2, 1), some (2, 0)]] := by
  refine ⟨⟨by simp, by simpa using fun a b c => Nat.lt_trans,
    fun a b c => by simpa using by omega⟩, ?_⟩
  -- The calls follow each other from stage to stage
  let row := (partialSort (fun a b : Nat × Nat => decide (a.1 < b.1)) 3).system
    (callsOf [((2, 0), false), ((2, 1), false), ((1, 2), false)])
  refine ⟨row.run row.start [0, 1, 0, 2, 1, 0, 2, 1, 2], System.Reachable.run .start ?_, by decide⟩
  refine ⟨?_, ?_, ?_, ?_, ?_, ?_, ?_, ?_, ?_, trivial⟩ <;> exact ⟨by decide, by decide⟩

end Kanagawa.Library.PartialSort
