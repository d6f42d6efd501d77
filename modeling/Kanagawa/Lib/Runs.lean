/-
  Kanagawa.Lib.Runs

  Systems that take one event at a time: the events a state accepts, the
  state each of them leads to, the states that runs reach, and the rule that
  carries an invariant from one step to every run.
-/
import Mathlib

namespace Kanagawa.Runs

/-- A system over states `σ` and events `ε`. `Enabled` holds the promises that the environment
keeps when it makes an event happen; `next` is total, so it can be evaluated. -/
structure System (σ ε : Type*) where
  start : σ
  Enabled : σ → ε → Prop
  next : σ → ε → σ

namespace System

variable {σ ε : Type*} {S : System σ ε} {s : σ}

/-- The states of all runs from `start`. -/
inductive Reachable (S : System σ ε) : σ → Prop where
  | start : Reachable S S.start
  | step {s : σ} {e : ε} : Reachable S s → S.Enabled s e → Reachable S (S.next s e)

/-- An invariant holds at the start and every enabled event keeps it. -/
structure Invariant (S : System σ ε) (I : σ → Prop) : Prop where
  start : I S.start
  step : ∀ s e, I s → S.Enabled s e → I (S.next s e)

theorem Invariant.of_reachable {I : σ → Prop} (hI : S.Invariant I) (h : S.Reachable s) : I s := by
  induction h with
  | start => exact hI.start
  | step _ he ih => exact hI.step _ _ ih he

/-- The run of a list of events. -/
def run (S : System σ ε) (s : σ) (events : List ε) : σ := events.foldl S.next s

/-- Every event of the list is enabled where it happens. -/
def AllEnabled (S : System σ ε) : σ → List ε → Prop
  | _, [] => True
  | s, e :: events => S.Enabled s e ∧ S.AllEnabled (S.next s e) events

instance instDecidableAllEnabled [∀ s e, Decidable (S.Enabled s e)] :
    ∀ (s : σ) (events : List ε), Decidable (S.AllEnabled s events)
  | _, [] => isTrue trivial
  | s, e :: events =>
    have := instDecidableAllEnabled (S.next s e) events
    inferInstanceAs (Decidable (_ ∧ _))

theorem Reachable.run (h : S.Reachable s) {events : List ε} (he : S.AllEnabled s events) :
    S.Reachable (S.run s events) := by
  induction events generalizing s with
  | nil => exact h
  | cons e events ih => exact ih (h.step he.1) he.2

/-- The runs of a system whose events all meet a condition. -/
def restrict (S : System σ ε) (C : ε → Prop) : System σ ε :=
  { S with Enabled := fun s e => S.Enabled s e ∧ C e }

end System

/-! ## Machines with outputs -/

section Outputs

variable {σ σ' ε ο : Type*} {next : σ → ε → σ × List ο} {next' : σ' → ε → σ' × List ο}

/-- The outputs of a run, one event after the other. -/
def outputs (next : σ → ε → σ × List ο) : σ → List ε → List ο
  | _, [] => []
  | s, e :: events => (next s e).2 ++ outputs next (next s e).1 events

/-- The state a run ends in. -/
def finalState (next : σ → ε → σ × List ο) (s : σ) (events : List ε) : σ :=
  events.foldl (fun s e => (next s e).1) s

/-- A condition on every event of a run and the state it happens in. -/
def Along (next : σ → ε → σ × List ο) (C : σ → ε → Prop) : σ → List ε → Prop
  | _, [] => True
  | s, e :: events => C s e ∧ Along next C (next s e).1 events

theorem along_of_forall {C : σ → ε → Prop} (h : ∀ s e, C s e) (s : σ) (events : List ε) :
    Along next C s events := by
  induction events generalizing s with
  | nil => exact trivial
  | cons e events ih => exact ⟨h s e, ih _⟩

/-- Machines whose states stay related and that give the same output at every event that meets a
condition cannot be told apart by the outputs of a run whose events meet it. -/
theorem outputs_eq_along {R : σ → σ' → Prop} {C : σ → ε → Prop}
    (hstep : ∀ s s' e, C s e → R s s' →
      (next s e).2 = (next' s' e).2 ∧ R (next s e).1 (next' s' e).1)
    {s : σ} {s' : σ'} (h : R s s') (events : List ε) (hrun : Along next C s events) :
    outputs next s events = outputs next' s' events ∧
      R (finalState next s events) (finalState next' s' events) := by
  induction events generalizing s s' with
  | nil => exact ⟨rfl, h⟩
  | cons e events ih =>
    obtain ⟨hout, hnext⟩ := hstep s s' e hrun.1 h
    obtain ⟨hrest, hfinal⟩ := ih hnext hrun.2
    exact ⟨by rw [outputs, outputs, hout, hrest], hfinal⟩

/-- Machines whose states stay related and that give the same output at every event cannot be
told apart by the outputs of a run. -/
theorem outputs_eq {R : σ → σ' → Prop}
    (hstep : ∀ s s' e, R s s' → (next s e).2 = (next' s' e).2 ∧ R (next s e).1 (next' s' e).1)
    {s : σ} {s' : σ'} (h : R s s') (events : List ε) :
    outputs next s events = outputs next' s' events ∧
      R (finalState next s events) (finalState next' s' events) :=
  outputs_eq_along (fun s s' e _ => hstep s s' e) h events (along_of_forall (fun _ _ => trivial) s events)

end Outputs

/-! ## Loops over the entries of a state -/

/-- A loop over distinct entries of a state ends with what its body does to each of them. -/
theorem foldl_establishes {σ ι : Type*} {f : σ → ι → σ} {P : ι → σ → Prop}
    (hset : ∀ s i, P i (f s i)) (hkeep : ∀ s i j, i ≠ j → P i s → P i (f s j))
    {entries : List ι} {i : ι} (hi : i ∈ entries) (s : σ) : P i (entries.foldl f s) := by
  induction entries using List.reverseRecOn with
  | nil => exact absurd hi List.not_mem_nil
  | append_singleton entries j ih =>
    rw [List.foldl_append]
    by_cases hij : i = j
    · subst hij
      exact hset _ i
    · rw [List.mem_append, List.mem_singleton] at hi
      exact hkeep _ i j hij (ih (hi.resolve_right hij))

end Kanagawa.Runs
