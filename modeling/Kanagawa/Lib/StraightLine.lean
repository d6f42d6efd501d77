/-
  Kanagawa.Lib.StraightLine

  Straight-line code: instructions that read and write names.

  A list is ordered if each instruction only reads names that are known beforehand or
  were written earlier in the list.  Replaying an ordered list from another state gives
  every name it writes the value the name is meant to have, if every instruction does so
  once what it reads has the meant values.
-/
import Mathlib

namespace Kanagawa.Lib.StraightLine

variable {I R V : Type} (reads writes : I → List R)

/-- Each instruction reads names that are known, or written by an earlier one. -/
def Ordered (known : R → Prop) : List I → Prop
  | [] => True
  | i :: rest => (∀ r ∈ reads i, known r) ∧ Ordered (fun r => known r ∨ r ∈ writes i) rest

variable {reads writes}

theorem Ordered.mono {known known' : R → Prop} (hsub : ∀ r, known r → known' r) {l : List I}
    (h : Ordered reads writes known l) : Ordered reads writes known' l := by
  induction l generalizing known known' with
  | nil => exact trivial
  | cons i rest ih =>
      refine ⟨fun r hr => hsub r (h.1 r hr), ih (fun r hr => ?_) h.2⟩
      exact hr.imp (hsub r) id

theorem Ordered.append {known : R → Prop} {l₁ l₂ : List I} (h₁ : Ordered reads writes known l₁)
    (h₂ : Ordered reads writes known l₂) : Ordered reads writes known (l₁ ++ l₂) := by
  induction l₁ generalizing known with
  | nil => exact h₂
  | cons i rest ih => exact ⟨h₁.1, ih h₁.2 (h₂.mono fun r hr => .inl hr)⟩

/-- An instruction can follow a list that writes what it reads. -/
theorem Ordered.concat {known : R → Prop} {l : List I} {i : I} (h : Ordered reads writes known l)
    (hi : ∀ r ∈ reads i, known r ∨ ∃ j ∈ l, r ∈ writes j) :
    Ordered reads writes known (l ++ [i]) := by
  induction l generalizing known with
  | nil =>
      refine ⟨fun r hr => ?_, trivial⟩
      rcases hi r hr with hr | ⟨j, hj, -⟩
      · exact hr
      · exact absurd hj List.not_mem_nil
  | cons j rest ih =>
      refine ⟨h.1, ih h.2 fun r hr => ?_⟩
      rcases hi r hr with hr | ⟨j', hj', hr⟩
      · exact .inl (.inl hr)
      · rcases List.mem_cons.mp hj' with rfl | hj'
        · exact .inl (.inr hr)
        · exact .inr ⟨j', hj', hr⟩

/-- In an ordered list, what an instruction reads is known or written before it. -/
theorem Ordered.before {known : R → Prop} {l before after : List I} {i : I}
    (h : Ordered reads writes known l) (hl : l = before ++ i :: after) :
    ∀ r ∈ reads i, known r ∨ ∃ j ∈ before, r ∈ writes j := by
  induction before generalizing known l with
  | nil =>
      subst hl
      exact fun r hr => .inl (h.1 r hr)
  | cons j rest ih =>
      subst hl
      intro r hr
      rcases ih h.2 rfl r hr with (hknown | hwritten) | ⟨j', hj', hwritten⟩
      · exact .inl hknown
      · exact .inr ⟨j, List.mem_cons_self, hwritten⟩
      · exact .inr ⟨j', List.mem_cons_of_mem _ hj', hwritten⟩

/-! ## Replaying -/

variable (exec : I → (R → V) → R → V)

/-- The state after a list. -/
def replay (l : List I) (σ : R → V) : R → V := l.foldl (fun σ i => exec i σ) σ

variable {exec}

/-- Once what it reads has the meant values, so has what an instruction writes. -/
def Means (reads writes : I → List R) (exec : I → (R → V) → R → V) (val : R → V) (i : I) : Prop :=
  ∀ σ, (∀ r ∈ reads i, σ r = val r) → ∀ r ∈ writes i, exec i σ r = val r

/-- **Replaying an ordered list gives names their values.** -/
theorem replay_eq {val : R → V} {known : R → Prop} {l : List I}
    (hframe : ∀ i ∈ l, ∀ σ r, r ∉ writes i → exec i σ r = σ r)
    (hmeans : ∀ i ∈ l, Means reads writes exec val i)
    (hordered : Ordered reads writes known l) {σ : R → V}
    (hknown : ∀ i ∈ l, ∀ r ∈ reads i, known r → σ r = val r) {r : R} :
    (∃ i ∈ l, r ∈ writes i) ∨ σ r = val r → replay exec l σ r = val r := by
  induction l generalizing known σ with
  | nil =>
      rintro (⟨i, hi, -⟩ | hr)
      · exact absurd hi List.not_mem_nil
      · exact hr
  | cons i rest ih =>
      have hi : ∀ r ∈ writes i, exec i σ r = val r :=
        hmeans i List.mem_cons_self σ fun r hr => hknown i List.mem_cons_self r hr (hordered.1 r hr)
      have hkeep : ∀ r, σ r = val r → exec i σ r = val r := by
        intro r hr
        by_cases hmem : r ∈ writes i
        · exact hi r hmem
        · rw [hframe i List.mem_cons_self σ r hmem, hr]
      intro hr
      apply ih (fun j hj => hframe j (List.mem_cons_of_mem _ hj))
        (fun j hj => hmeans j (List.mem_cons_of_mem _ hj)) hordered.2
      · rintro j hj r hread (hr | hr)
        · exact hkeep r (hknown j (List.mem_cons_of_mem _ hj) r hread hr)
        · exact hi r hr
      · rcases hr with ⟨j, hj, hr⟩ | hr
        · rcases List.mem_cons.mp hj with rfl | hj
          · exact .inr (hi r hr)
          · exact .inl ⟨j, hj, hr⟩
        · exact .inr (hkeep r hr)

end Kanagawa.Lib.StraightLine
