/-
  Kanagawa.Lib.Inference

  Facts that follow by rules, found by going through the rules again and again.

  A rule has premises and a conclusion.  A pass applies the rules one after the
  other, each to what is known at its turn, and the passes end with one that finds
  nothing new.  What is known then is what can be derived, whatever the order.
-/
import Mathlib

namespace Kanagawa.Lib.Inference

structure Rule (α : Type) where
  premises : List α
  conclusion : α

variable {α : Type}

/-- What follows from the rules. -/
inductive Derivable (rules : List (Rule α)) : α → Prop
  | intro (r : Rule α) (hr : r ∈ rules) (hpremises : ∀ a ∈ r.premises, Derivable rules a) :
      Derivable rules r.conclusion

variable [DecidableEq α]

/-- Applies a rule, unless its conclusion is known: what is known, and whether it grew. -/
def applyRule (state : (α → Bool) × Bool) (r : Rule α) : (α → Bool) × Bool :=
  if r.premises.all state.1 && !state.1 r.conclusion then
    (Function.update state.1 r.conclusion true, true)
  else state

/-- Passes through the rules until one finds nothing, with a bound on their number. -/
def saturate (rules : List (Rule α)) : Nat → (α → Bool) → Option (α → Bool)
  | 0, _ => none
  | fuel + 1, known =>
      let result := rules.foldl applyRule (known, false)
      if result.2 then saturate rules fuel result.1 else some result.1

variable {rules : List (Rule α)} {known : α → Bool}

/-- What a step leaves known: what was, and what follows from it. -/
theorem applyRule_spec {r : Rule α} (hr : r ∈ rules) (hsound : ∀ a, known a = true → Derivable rules a)
    (grown : Bool) :
    (∀ a, (applyRule (known, grown) r).1 a = true → Derivable rules a) ∧
      (∀ a, known a = true → (applyRule (known, grown) r).1 a = true) := by
  rw [applyRule]
  split
  next hnew =>
    rw [Bool.and_eq_true, List.all_eq_true] at hnew
    constructor
    · intro a ha
      by_cases heq : a = r.conclusion
      · rw [heq]
        exact .intro r hr fun b hb => hsound b (hnew.1 b hb)
      · have hknown : Function.update known r.conclusion true a = true := ha
        rw [Function.update_of_ne heq] at hknown
        exact hsound a hknown
    · intro a ha
      by_cases heq : a = r.conclusion
      · rw [heq]
        exact Function.update_self _ _ _
      · show Function.update known r.conclusion true a = true
        rw [Function.update_of_ne heq]
        exact ha
  next => exact ⟨hsound, fun _ ha => ha⟩

/-- A pass over some of the rules.  When nothing is found, what is known did not change and no
    rule applies to it; else some conclusion is known that was not before. -/
theorem pass_spec (l : List (Rule α)) : ∀ {known : α → Bool} {grown : Bool},
    (∀ r ∈ l, r ∈ rules) → (∀ a, known a = true → Derivable rules a) →
      (∀ a, (l.foldl applyRule (known, grown)).1 a = true → Derivable rules a) ∧
      (∀ a, known a = true → (l.foldl applyRule (known, grown)).1 a = true) ∧
      ((l.foldl applyRule (known, grown)).2 = false →
        grown = false ∧ (l.foldl applyRule (known, grown)).1 = known ∧
          ∀ r ∈ l, (∀ a ∈ r.premises, known a = true) → known r.conclusion = true) ∧
      ((l.foldl applyRule (known, grown)).2 = true → grown = true ∨
        ∃ r ∈ l, known r.conclusion = false ∧
          (l.foldl applyRule (known, grown)).1 r.conclusion = true) := by
  induction l with
  | nil =>
      intro known grown _ hsound
      exact ⟨hsound, fun _ ha => ha, fun h => ⟨h, rfl, nofun⟩, fun h => .inl h⟩
  | cons r l ih =>
      intro known grown hmem hsound
      rw [List.foldl_cons]
      obtain ⟨hsound', hmono⟩ := applyRule_spec (hmem r List.mem_cons_self) hsound grown
      have hrest : ∀ r ∈ l, r ∈ rules := fun r hr => hmem r (List.mem_cons_of_mem _ hr)
      obtain ⟨hall, hgrow, hnone, hsome⟩ :=
        @ih (applyRule (known, grown) r).1 (applyRule (known, grown) r).2 hrest hsound'
      refine ⟨hall, fun a ha => hgrow a (hmono a ha), fun h => ?_, fun h => ?_⟩
      · obtain ⟨hstep, heq, hclosed⟩ := hnone h
        have hskip : ¬ (r.premises.all known && !known r.conclusion) = true := by
          intro hnew
          rw [applyRule, if_pos hnew] at hstep
          cases hstep
        have hsame : applyRule (known, grown) r = (known, grown) := if_neg hskip
        rw [hsame] at hstep heq hclosed ⊢
        refine ⟨hstep, heq, fun r' hr' hpremises => ?_⟩
        rcases List.mem_cons.mp hr' with rfl | hr'
        · by_contra hne
          apply hskip
          rw [Bool.and_eq_true, List.all_eq_true]
          exact ⟨hpremises, by rw [Bool.eq_false_iff.mpr hne]; rfl⟩
        · exact hclosed r' hr' hpremises
      · by_cases hnew : (r.premises.all known && !known r.conclusion) = true
        · have hstep : applyRule (known, grown) r
              = (Function.update known r.conclusion true, true) := if_pos hnew
          refine .inr ⟨r, List.mem_cons_self, ?_, hgrow _ ?_⟩
          · have hopen := (Bool.and_eq_true_iff.mp hnew).2
            rw [Bool.not_eq_true'] at hopen
            exact hopen
          · rw [hstep]
            exact Function.update_self _ _ _
        · have hsame : applyRule (known, grown) r = (known, grown) := if_neg hnew
          rw [hsame] at hsome h ⊢
          rcases hsome h with hgrown | ⟨r', hr', hunknown, hknown⟩
          · exact .inl hgrown
          · exact .inr ⟨r', List.mem_cons_of_mem _ hr', hunknown, hknown⟩

/-- The rules whose conclusion is not known yet. -/
def unsettled (rules : List (Rule α)) (known : α → Bool) : List (Rule α) :=
  rules.filter fun r => !known r.conclusion

/-- The passes end, and then what is known is what can be derived. -/
theorem saturate_spec (fuel : Nat) : ∀ known : α → Bool,
    (∀ a, known a = true → Derivable rules a) → (unsettled rules known).length < fuel →
      ∃ known', saturate rules fuel known = some known' ∧
        ∀ a, known' a = true ↔ Derivable rules a := by
  induction fuel with
  | zero => exact fun _ _ h => absurd h (Nat.not_lt_zero _)
  | succ fuel ih =>
      intro known hsound hfuel
      obtain ⟨hall, hgrow, hnone, hsome⟩ :=
        pass_spec rules (fun _ h => h) hsound
      rw [saturate]
      split
      next hgrown =>
        apply ih _ hall
        obtain ⟨r, hr, hunknown, hknown⟩ := (hsome hgrown).resolve_left Bool.false_ne_true
        -- The rules that stay open are open now, and one of those is not.
        have hsub : unsettled rules (rules.foldl applyRule (known, false)).1
            = (unsettled rules known).filter fun r =>
              !(rules.foldl applyRule (known, false)).1 r.conclusion := by
          rw [unsettled, unsettled, List.filter_filter]
          apply List.filter_congr
          intro r' _
          cases hk : known r'.conclusion with
          | false => simp
          | true => simp [hgrow _ hk]
        have hlt : (unsettled rules (rules.foldl applyRule (known, false)).1).length
            < (unsettled rules known).length := by
          rw [hsub, List.length_filter_lt_length_iff_exists]
          refine ⟨r, List.mem_filter.mpr ⟨hr, by rw [hunknown]; rfl⟩, ?_⟩
          rw [hknown]
          exact Bool.false_ne_true
        omega
      next hgrown =>
        obtain ⟨-, hsame, hclosed⟩ := hnone (Bool.eq_false_iff.mpr hgrown)
        refine ⟨_, rfl, fun a => ⟨hall a, fun hderivable => ?_⟩⟩
        rw [hsame]
        induction hderivable with
        | intro r hr _ hpremises => exact hclosed r hr hpremises

end Kanagawa.Lib.Inference
