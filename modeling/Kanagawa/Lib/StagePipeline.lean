/-
  Kanagawa.Lib.StagePipeline

  A row of stages, each with a state of its own, that items pass in order.

  Several items are on their way at a time, and any stage that an item waits for
  may take the next one.  Whatever the order of these steps is, the items that
  have left the row are those of passing the whole row one after the other.
-/
import Kanagawa.Lib.Runs

namespace Kanagawa.Lib.StagePipeline

open Runs

variable {σ α : Type*}

/-- So many stages: what each starts with, and what it does with an item. -/
structure Stages (σ α : Type*) where
  count : Nat
  initial : Nat → σ
  step : Nat → σ → α → σ × α

/-- What the stages hold, and the items waiting for each; those that have left wait behind the
    last one. -/
structure Flow (σ α : Type*) where
  held : Nat → σ
  waiting : Nat → List α

namespace Stages

variable (S : Stages σ α) (items : List α)

/-- A stage takes the item that waits for it. -/
def advance (s : Flow σ α) (i : Nat) : Flow σ α :=
  match s.waiting i with
  | [] => s
  | x :: rest =>
      ⟨fun k => if k = i then (S.step i (s.held i) x).1 else s.held k,
        fun k => if k = i then rest
          else if k = i + 1 then s.waiting k ++ [(S.step i (s.held i) x).2] else s.waiting k⟩

/-- The runs of a row of stages over a list of items. -/
def system : System (Flow σ α) Nat where
  start := ⟨S.initial, fun i => if i = 0 then items else []⟩
  Enabled s i := i < S.count ∧ s.waiting i ≠ []
  next := S.advance

/-! ## One item after the other -/

/-- An item before a stage, with what all stages hold. -/
def passed (held : Nat → σ) (x : α) : Nat → α
  | 0 => x
  | i + 1 => (S.step i (held i) (passed held x i)).2

/-- What the stages hold after an item. -/
def after (held : Nat → σ) (x : α) : Nat → σ :=
  fun i => (S.step i (held i) (S.passed held x i)).1

/-- What the stages hold after some items. -/
def heldAfter (items : List α) : Nat → σ := items.foldl S.after S.initial

/-- All items before a stage. -/
def stream (held : Nat → σ) : List α → Nat → List α
  | [], _ => []
  | x :: items, i => S.passed held x i :: stream (S.after held x) items i

theorem stream_getElem? (held : Nat → σ) (items : List α) (i t : Nat) :
    (S.stream held items i)[t]? =
      items[t]?.map fun x => S.passed ((items.take t).foldl S.after held) x i := by
  induction items generalizing held t with
  | nil => rfl
  | cons x items ih =>
      cases t with
      | zero => rfl
      | succ t => exact ih (S.after held x) t

theorem stream_zero (held : Nat → σ) (items : List α) : S.stream held items 0 = items := by
  apply List.ext_getElem?
  intro t
  rw [stream_getElem?]
  show items[t]?.map (fun x => x) = _
  rw [Option.map_id']

/-! ## Any order of steps -/

/-- So many items have come to each stage. -/
structure Progress (s : Flow σ α) (come : Nat → Nat) : Prop where
  all : come 0 = items.length
  le : ∀ i, come (i + 1) ≤ come i
  left : come (S.count + 1) = 0
  waiting : ∀ i, i ≤ S.count →
    s.waiting i = ((S.stream S.initial items i).take (come i)).drop (come (i + 1))
  held : ∀ i, i < S.count → s.held i = S.heldAfter (items.take (come (i + 1))) i

theorem progress_start :
    S.Progress items (S.system items).start fun i => if i = 0 then items.length else 0 := by
  refine ⟨rfl, fun i => ?_, rfl, fun i _ => ?_, fun i _ => ?_⟩
  · show (if i + 1 = 0 then items.length else 0) ≤ _
    rw [if_neg (Nat.succ_ne_zero i)]
    exact Nat.zero_le _
  · show (if i = 0 then items else []) = _
    by_cases hi : i = 0
    · subst hi
      simp [stream_zero]
    · simp [hi]
  · show S.initial i = S.heldAfter (items.take (if i + 1 = 0 then items.length else 0)) i
    rw [if_neg (Nat.succ_ne_zero i), List.take_zero]
    rfl

variable {items} {S} {s : Flow σ α} {come : Nat → Nat}

/-- A step lets one item come to the next stage. -/
theorem Progress.advance {i : Nat} (h : S.Progress items s come) (hi : i < S.count)
    (hwaiting : s.waiting i ≠ []) :
    S.Progress items (S.advance s i) fun k => if k = i + 1 then come k + 1 else come k := by
  obtain ⟨x, rest, hcons⟩ := List.exists_cons_of_ne_nil hwaiting
  have hqueue := h.waiting i (Nat.le_of_lt hi)
  rw [hcons] at hqueue
  -- The item is the next one of the stream
  have hx : ((S.stream S.initial items i).take (come i))[come (i + 1)]? = some x := by
    have hhead := congrArg List.head? hqueue
    rw [List.head?_drop] at hhead
    exact hhead.symm
  have hlt : come (i + 1) < come i := by
    have hlength := (List.getElem?_eq_some_iff.mp hx).1
    rw [List.length_take] at hlength
    omega
  rw [List.getElem?_take_of_lt hlt, stream_getElem?] at hx
  obtain ⟨y, hy, rfl⟩ := Option.map_eq_some_iff.mp hx
  have hheld := h.held i hi
  have hout : (S.stream S.initial items (i + 1))[come (i + 1)]?
      = some (S.step i (s.held i) (S.passed (S.heldAfter (items.take (come (i + 1)))) y i)).2 := by
    rw [stream_getElem?, hy, hheld]
    rfl
  refine ⟨?_, fun k => ?_, ?_, fun k hk => ?_, fun k hk => ?_⟩
  · rw [if_neg (by omega)]
    exact h.all
  · have hle := h.le k
    have hle' := h.le (i + 1)
    by_cases hk : k = i + 1
    · subst hk
      simp only [Nat.add_right_cancel_iff, if_true]
      rw [if_neg (by omega)]
      omega
    · by_cases hk' : k = i
      · subst hk'
        rw [if_pos rfl, if_neg (by omega)]
        omega
      · rw [if_neg (by omega), if_neg hk]
        exact hle
  · rw [if_neg (by omega)]
    exact h.left
  · have hnext : (S.advance s i).waiting k = if k = i then rest
        else if k = i + 1 then s.waiting k ++
          [(S.step i (s.held i) (S.passed (S.heldAfter (items.take (come (i + 1)))) y i)).2]
        else s.waiting k := by
      rw [Stages.advance, hcons]
      rfl
    rw [hnext]
    by_cases hki : k = i
    · subst hki
      simp only [if_true, show ¬k = k + 1 by omega, if_false]
      rw [← List.drop_drop, ← hqueue]
      rfl
    · rw [if_neg hki]
      by_cases hk' : k = i + 1
      · subst hk'
        have hle := h.le (i + 1)
        rw [if_pos rfl, if_pos rfl, if_neg (by omega), h.waiting (i + 1) hk, List.take_add_one,
          hout, List.drop_append_of_le_length]
        · rfl
        · have hlength := (List.getElem?_eq_some_iff.mp hout).1
          rw [List.length_take]
          omega
      · rw [if_neg hk', if_neg hk', if_neg (by omega)]
        exact h.waiting k hk
  · have hnext : (S.advance s i).held k = if k = i then
        (S.step i (s.held i) (S.passed (S.heldAfter (items.take (come (i + 1)))) y i)).1
        else s.held k := by
      rw [Stages.advance, hcons]
      rfl
    rw [hnext]
    by_cases hki : k = i
    · subst hki
      simp only [if_true]
      rw [List.take_add_one, hy, hheld]
      show _ = (List.foldl S.after S.initial (items.take (come (k + 1)) ++ [y])) k
      rw [List.foldl_append]
      rfl
    · rw [if_neg hki, if_neg (by omega)]
      exact h.held k hk

/-- In every run the stages have let some items come to each of them. -/
theorem progress_of_reachable (h : (S.system items).Reachable s) :
    ∃ come, S.Progress items s come :=
  System.Invariant.of_reachable (S := S.system items) (I := fun s => ∃ come, S.Progress items s come)
    ⟨⟨_, S.progress_start items⟩, fun _ _ ⟨_, hprogress⟩ henabled =>
      ⟨_, hprogress.advance henabled.1 henabled.2⟩⟩ h

/-- The items that have left passed the row one after the other. -/
theorem left_eq_take (h : (S.system items).Reachable s) :
    ∃ n, n ≤ items.length ∧ s.waiting S.count = (S.stream S.initial items S.count).take n := by
  obtain ⟨come, hprogress⟩ := progress_of_reachable h
  refine ⟨come S.count, ?_, ?_⟩
  · have hle : ∀ i, come i ≤ items.length := by
      intro i
      induction i with
      | zero => exact Nat.le_of_eq hprogress.all
      | succ i ih => exact Nat.le_trans (hprogress.le i) ih
    exact hle _
  · rw [hprogress.waiting S.count (Nat.le_refl _), hprogress.left, List.drop_zero]

/-- As long as not all items have left, some stage can take one. -/
theorem all_left_or_enabled (h : (S.system items).Reachable s) :
    s.waiting S.count = S.stream S.initial items S.count ∨
      ∃ i, (S.system items).Enabled s i := by
  obtain ⟨come, hprogress⟩ := progress_of_reachable h
  by_cases hex : ∃ i, i < S.count ∧ s.waiting i ≠ []
  · exact .inr hex
  · left
    have hlength : ∀ i, (S.stream S.initial items i).length = items.length := by
      intro i
      have hnone : ∀ t : Nat, (S.stream S.initial items i)[t]? = none ↔ items[t]? = none := by
        intro t
        rw [stream_getElem?, Option.map_eq_none_iff]
      simp only [List.getElem?_eq_none_iff] at hnone
      exact Nat.le_antisymm ((hnone _).mpr (Nat.le_refl _)) ((hnone _).mp (Nat.le_refl _))
    -- Without a waiting item every stage has seen all of them
    have hall : ∀ i, i ≤ S.count → come i = items.length := by
      intro i
      induction i with
      | zero => exact fun _ => hprogress.all
      | succ i ih =>
          intro hi
          have hempty : s.waiting i = [] := by
            by_contra hne
            exact hex ⟨i, hi, hne⟩
          rw [hprogress.waiting i (by omega), List.drop_eq_nil_iff, List.length_take, hlength,
            ih (by omega)] at hempty
          have hle := hprogress.le i
          rw [ih (by omega)] at hle
          omega
    rw [hprogress.waiting S.count (Nat.le_refl _), hprogress.left, List.drop_zero,
      hall S.count (Nat.le_refl _), ← hlength S.count, List.take_length]

end Stages

end Kanagawa.Lib.StagePipeline
