/-
  Kanagawa.Frontend.DeductionOrder

  When template argument deduction does not depend on the order of the
  deductions.

  `reconcile` merges constraints in the sense of `Lib.Constraints`: a supertype
  deduced for a parameter is a lower bound of the argument and a subtype an
  upper bound.  Two integer or enum types are joined by `tSuper`, two other
  types only if one of them is a subtype of the other.
-/
import Kanagawa.Frontend.Deduction
import Kanagawa.Frontend.Supertype
import Kanagawa.Lib.Constraints

namespace Kanagawa.Frontend

open Lib.Constraints

/-! ## Types that are deduced -/

def plainHead : Ty → Bool
  | .const _ | .inst _ _ _ | .initializer _ | .dependent _ => false
  | _ => true

/-- `deduceType` takes off `const` and instances, `tSuper` may leave them around an
    integer type.  Initializers and dependent types are left out. -/
def isArgType (t : Ty) : Bool := tIsInt t || plainHead t

/-- A type that is deduced for a `typename` parameter. -/
structure ArgType extends ResolvedType where
  isArgType : isArgType ty = true

instance : Preorder ArgType := Preorder.lift ArgType.toResolvedType

theorem ArgType.le_def {s t : ArgType} : s ≤ t ↔ subtype s.ty t.ty = true := Iff.rfl

instance : DecidableLE ArgType := fun s t =>
  inferInstanceAs (Decidable (subtype s.ty t.ty = true))

theorem ArgType.ext_ty {s t : ArgType} (h : s.ty = t.ty) : s = t := by
  obtain ⟨⟨_, _, _⟩, _⟩ := s
  obtain ⟨⟨_, _, _⟩, _⟩ := t
  cases h
  rfl

def ArgType.Numeric (t : ArgType) : Prop := Frontend.Numeric t.ty

instance (t : ArgType) : Decidable t.Numeric :=
  inferInstanceAs (Decidable (tIsInt t.ty = true ∨ tIsEnum t.ty = true))

/-- A type that is not an integer type is bare. -/
structure PlainHead (t : Ty) : Prop where
  bare : Bare t
  not_initializer : ∀ ts, t ≠ .initializer ts
  not_dependent : ∀ s, t ≠ .dependent s

theorem ArgType.plainHead {t : ArgType} (h : tIsInt t.ty = false) : PlainHead t.ty := by
  have hplain := t.isArgType
  rw [Frontend.isArgType, h, Bool.false_or] at hplain
  generalize t.ty = u at hplain
  cases u with
  | const | inst | initializer | dependent => cases hplain
  | _ => exact ⟨⟨nofun, nofun⟩, nofun, nofun⟩

/-- Two spellings of an enum are one type here. -/
theorem ArgType.eq_of_sameEnum {x y : ArgType} (h : SameEnum x.ty y.ty) : x.ty = y.ty := by
  have hy : tIsEnum y.ty = true := by rw [← tIsEnum_strip, ← h.2, tIsEnum_strip, h.1]
  have hbare : ∀ {t : ArgType}, tIsEnum t.ty = true → strip t.ty = t.ty := by
    intro t ht
    have hint : tIsInt t.ty = false := by
      rw [Bool.eq_false_iff]
      intro hint
      rw [not_tIsEnum_of_int hint] at ht
      cases ht
    exact strip_of_bare (ArgType.plainHead hint).bare
  rw [← hbare h.1, ← hbare hy, h.2]

/-- A supertype of an integer type that is bare and not dependent is an integer type. -/
theorem isIntType_of_le {i u : Ty} (hi : IsIntType i) (hu : u.proper = true) (hplain : PlainHead u)
    (h : subtype i u = true) : IsIntType u := by
  by_cases heq : i = u
  · exact heq ▸ hi
  have hbi : Bare i := by cases hi <;> exact ⟨nofun, nofun⟩
  cases clause_of_subtype (proper_of_isIntType hi) hu hbi hplain.bare heq h with
  | unsigned _ => exact .unsigned _
  | mixed _ | signed _ => exact .signed _
  | dependent => exact absurd rfl (hplain.not_dependent _)
  | enum | function | empty | initializer | closure | array => cases hi

/-- Integer and enum types are not comparable with other types. -/
theorem ArgType.not_le {x y : ArgType} (hx : x.Numeric) (hy : ¬ y.Numeric) : ¬ x ≤ y := by
  intro h
  have hplain := ArgType.plainHead (Bool.eq_false_iff.mpr fun hint => hy (.inl hint))
  rcases (subtype_numeric_iff x.proper hx y.proper).mp h with heq | hcore
  · rw [strip_of_bare hplain.bare] at heq
    refine hy ?_
    rcases hx with hint | henum
    · exact .inl (heq ▸ (isIntType_strip hint).tIsInt)
    · right
      rw [← heq, tIsEnum_strip, henum]
  · exact hy (.inl (isIntType_of_le (isIntType_core x.proper hx) y.proper hplain hcore).tIsInt)

theorem ArgType.not_ge {x y : ArgType} (hx : x.Numeric) (hy : ¬ y.Numeric) : ¬ y ≤ x := by
  intro h
  have hplain := ArgType.plainHead (Bool.eq_false_iff.mpr fun hint => hy (.inl hint))
  rw [le_def, subtype_strip y.proper x.proper, strip_of_bare hplain.bare] at h
  have hnum : Frontend.Numeric (strip x.ty) := by
    unfold Frontend.Numeric
    rw [tIsInt_strip, tIsEnum_strip]
    exact hx
  by_cases heq : y.ty = strip x.ty
  · exact hy (show Frontend.Numeric y.ty from heq ▸ hnum)
  have hclause := clause_of_subtype y.proper (strip_proper x.proper) hplain.bare (bare_strip x.ty)
    heq h
  generalize strip x.ty = u at hclause hnum
  have hnot : ∀ {t : Ty}, y.ty = t → tIsInt t = false ∧ tIsEnum t = false := by
    rintro _ rfl
    exact ⟨Bool.eq_false_iff.mpr fun h => hy (.inl h), Bool.eq_false_iff.mpr fun h => hy (.inr h)⟩
  generalize y.ty = v at hclause hplain hnot
  cases hclause with
  | unsigned | mixed | signed => cases (hnot rfl).1
  | enum => cases (hnot rfl).2
  | dependent | function | closure | array => rcases hnum with hnum | hnum <;> cases hnum
  | empty | initializer => exact absurd rfl (hplain.not_initializer _)

/-! ## Joining supertypes -/

/-- The type as one that can be deduced, unless it is an error. -/
def toArgType (t : Ty) : Option ArgType :=
  if h : tResolved t = true ∧ t.proper = true ∧ isArgType t = true then
    some ⟨⟨t, h.1, h.2.1⟩, h.2.2⟩
  else none

theorem toArgType_ty (z : ArgType) : toArgType z.ty = some z := by
  rw [toArgType, dif_pos ⟨z.resolved, z.proper, z.isArgType⟩]

theorem toArgType_error {t : Ty} (h : isErrorType t = true) : toArgType t = none := by
  rw [toArgType, dif_neg]
  rintro ⟨-, hproper, -⟩
  rw [isErrorType_of_proper hproper] at h
  cases h

/-- What `reconcile` makes of two supertypes: `x` is the new one. -/
def joinArgs (x y : ArgType) : Option ArgType :=
  if x.Numeric ∧ y.Numeric then toArgType (tSuper x.ty y.ty)
  else if x ≤ y then some y
  else if y ≤ x then some x
  else none

/-- What `tSuper` gives on two integer or enum types. -/
theorem tSuper_args {x y : ArgType} (hx : x.Numeric) (hy : y.Numeric) :
    (∃ z : ArgType, z.ty = tSuper x.ty y.ty ∧ z.Numeric ∧ CoresMeet x.ty y.ty ∧ IsLUB {x, y} z) ∨
    (isErrorType (tSuper x.ty y.ty) = true ∧ ¬ CoresMeet x.ty y.ty) := by
  by_cases heq : x.ty = y.ty
  · refine .inl ⟨x, ?_, hx, .inl (by rw [heq]), ?_⟩
    · rw [← heq, tSuper_self x.resolved]
    · rw [← ArgType.ext_ty heq]
      simp
  have hspec := tSuper_spec x.proper y.proper hx hy
  have hsame : ¬ SameEnum x.ty y.ty := fun h => heq (ArgType.eq_of_sameEnum h)
  by_cases hcores : CoresMeet x.ty y.ty
  · obtain ⟨hproper, hint, hcore⟩ := hspec.super hsame hcores
    let z : ResolvedType := ⟨tSuper x.ty y.ty, tResolved_numeric hproper (.inl hint), hproper⟩
    refine .inl ⟨⟨z, ?_⟩, rfl, .inl hint, hcores, ?_⟩
    · show isArgType (tSuper x.ty y.ty) = true
      rw [isArgType, hint, Bool.true_or]
    · have hlub : IsLUB {x.toResolvedType, y.toResolvedType} z := isLUB_tSuper hx hy hsame hint hcore
      constructor
      · rintro t (rfl | rfl)
        · exact hlub.1 (.inl rfl)
        · exact hlub.1 (.inr rfl)
      · intro u hu
        refine hlub.2 ?_
        rintro t (rfl | rfl)
        · exact hu (.inl rfl)
        · exact hu (.inr rfl)
  · exact .inr ⟨hspec.error hsame hcores, hcores⟩

theorem isJoin_joinArgs : IsJoin joinArgs := by
  intro x y z h
  unfold joinArgs at h
  split at h
  · rename_i hnum
    rcases tSuper_args hnum.1 hnum.2 with ⟨w, hw, -, -, hlub⟩ | ⟨herror, -⟩
    · rw [← hw, toArgType_ty] at h
      cases h
      exact hlub
    · rw [toArgType_error herror] at h
      cases h
  have hpair : ∀ {s t : ArgType}, s ≤ t → IsLUB {s, t} t := by
    intro s t hst
    refine ⟨?_, fun u hu => hu (.inr rfl)⟩
    rintro u (rfl | rfl)
    · exact hst
    · exact le_rfl
  split at h
  · cases h
    exact hpair (by assumption)
  split at h
  · cases h
    rw [Set.pair_comm]
    exact hpair (by assumption)
  · cases h

/-! ## `reconcile` merges constraints -/

/-- The deduction a constraint stands for: a supertype constraint says that the argument
    is above the type. -/
def deduced : Constraint ArgType → Deduced
  | .above t => (.deduceSupertype, .typeArg t.ty)
  | .below t => (.deduceSubtype, .typeArg t.ty)

theorem ArgType.ne_initializer (t : ArgType) (ts : List Ty) : t.ty ≠ .initializer ts := by
  intro h
  have hint : tIsInt t.ty = false := by rw [h]; rfl
  exact (ArgType.plainHead hint).not_initializer ts h

/-- The clauses of `reconcile` for two types. -/
theorem reconcile_types (p : TypeParam) (how how' : DeduceType) {tx : Ty} (ty : Ty)
    (htx : ∀ ts, tx ≠ .initializer ts) :
    reconcile p (some (how, .typeArg tx)) (some (how', .typeArg ty)) =
      if (how = .deduceSupertype ∧ how' = .deduceSupertype) ∧ (tIsInt tx || tIsEnum tx) ∧
          (tIsInt ty || tIsEnum ty) then
        some (.deduceSupertype, .typeArg (tSuper tx ty))
      else if (how = .deduceSupertype ∧ how' = .deduceSupertype) ∧ subtype tx ty then
        some (how', .typeArg ty)
      else if (how = .deduceSupertype ∧ how' = .deduceSupertype) ∧ subtype ty tx then
        some (how, .typeArg tx)
      else if how = .deduceSubtype ∧ subtype ty tx then some (how', .typeArg ty)
      else if how' = .deduceSubtype ∧ subtype tx ty then some (how, .typeArg tx)
      else if !tResolved tx then some (how, .typeArg tx)
      else if !tResolved ty then some (how', .typeArg ty)
      else if isErrorType ty then some (how', .typeArg ty)
      else reconcileEqual p (some (how, .typeArg tx)) (some (how', .typeArg ty)) := by
  rw [reconcile]
  exact htx

/-- Two types that are not subtypes of each other conflict. -/
theorem reconcile_conflict (p : TypeParam) (c d : Constraint ArgType)
    (h : c.element ≠ d.element) :
    ∃ t, isErrorType t = true ∧
      reconcileEqual p (some (deduced c)) (some (deduced d)) = some (.deduceSupertype, .typeArg t) := by
  refine ⟨_, rfl, if_neg fun heq => h ?_⟩
  refine ArgType.ext_ty ?_
  cases c <;> cases d <;> simpa [deduced, Constraint.element] using heq

theorem numeric_iff (x y : ArgType) :
    ((tIsInt x.ty || tIsEnum x.ty) = true ∧ (tIsInt y.ty || tIsEnum y.ty) = true) ↔
      x.Numeric ∧ y.Numeric := by
  unfold ArgType.Numeric Numeric
  simp only [Bool.or_eq_true]

theorem ArgType.le_of_eq {x y : ArgType} (h : x = y) : subtype x.ty y.ty = true :=
  ArgType.le_def.mp h.le

/-- `reconcile` merges two constraints or gives an error. -/
theorem reconcile_merge (p : TypeParam) (c d : Constraint ArgType) :
    (∃ e, merge joinArgs c d = some e ∧
      reconcile p (some (deduced c)) (some (deduced d)) = some (deduced e)) ∨
    (merge joinArgs c d = none ∧ ∃ t, isErrorType t = true ∧
      reconcile p (some (deduced c)) (some (deduced d)) = some (.deduceSupertype, .typeArg t)) := by
  have hc : ∀ t : ArgType, (!tResolved t.ty) = false := fun t => by rw [t.resolved]; rfl
  have he : ∀ t : ArgType, isErrorType t.ty = false := fun t => isErrorType_of_proper t.proper
  cases c with
  | above x =>
      cases d with
      | above y =>
          rw [merge, joinArgs, deduced, deduced, reconcile_types p _ _ _ x.ne_initializer]
          simp only [numeric_iff, true_and, and_self, reduceCtorEq, false_and, if_false,
            hc, he, Bool.false_eq_true]
          by_cases hnum : x.Numeric ∧ y.Numeric
          · rw [if_pos hnum, if_pos hnum]
            rcases tSuper_args hnum.1 hnum.2 with ⟨z, hz, -⟩ | ⟨herror, -⟩
            · refine .inl ⟨.above z, ?_, ?_⟩
              · rw [← hz, toArgType_ty]
                rfl
              · rw [← hz]
                rfl
            · refine .inr ⟨?_, _, herror, rfl⟩
              rw [toArgType_error herror]
              rfl
          rw [if_neg hnum, if_neg hnum]
          by_cases hxy : subtype x.ty y.ty = true
          · rw [if_pos hxy, if_pos (ArgType.le_def.mpr hxy)]
            exact .inl ⟨_, rfl, rfl⟩
          rw [if_neg hxy, if_neg (mt ArgType.le_def.mp hxy)]
          by_cases hyx : subtype y.ty x.ty = true
          · rw [if_pos hyx, if_pos (ArgType.le_def.mpr hyx)]
            exact .inl ⟨_, rfl, rfl⟩
          rw [if_neg hyx, if_neg (mt ArgType.le_def.mp hyx)]
          exact .inr ⟨rfl, reconcile_conflict p (.above x) (.above y) (mt ArgType.le_of_eq hxy)⟩
      | below y =>
          rw [merge, deduced, deduced, reconcile_types p _ _ _ x.ne_initializer]
          simp only [true_and, reduceCtorEq, false_and, and_false, if_false, hc, he,
            Bool.false_eq_true]
          by_cases hxy : subtype x.ty y.ty = true
          · rw [if_pos hxy, if_pos (ArgType.le_def.mpr hxy)]
            exact .inl ⟨_, rfl, rfl⟩
          rw [if_neg hxy, if_neg (mt ArgType.le_def.mp hxy)]
          exact .inr ⟨rfl, reconcile_conflict p (.above x) (.below y) (mt ArgType.le_of_eq hxy)⟩
  | below x =>
      cases d with
      | above y =>
          rw [merge, deduced, deduced, reconcile_types p _ _ _ x.ne_initializer]
          simp only [true_and, reduceCtorEq, false_and, if_false, hc, he, Bool.false_eq_true]
          by_cases hyx : subtype y.ty x.ty = true
          · rw [if_pos hyx, if_pos (ArgType.le_def.mpr hyx)]
            exact .inl ⟨_, rfl, rfl⟩
          rw [if_neg hyx, if_neg (mt ArgType.le_def.mp hyx)]
          exact .inr ⟨rfl, reconcile_conflict p (.below x) (.above y)
            (mt (fun h => ArgType.le_of_eq h.symm) hyx)⟩
      | below y =>
          rw [merge, deduced, deduced, reconcile_types p _ _ _ x.ne_initializer]
          simp only [true_and, reduceCtorEq, false_and, if_false, hc, he, Bool.false_eq_true]
          by_cases hyx : subtype y.ty x.ty = true
          · rw [if_pos hyx, if_pos (ArgType.le_def.mpr hyx)]
            exact .inl ⟨_, rfl, rfl⟩
          rw [if_neg hyx, if_neg (mt ArgType.le_def.mp hyx)]
          by_cases hxy : subtype x.ty y.ty = true
          · rw [if_pos hxy, if_pos (ArgType.le_def.mpr hxy)]
            exact .inl ⟨_, rfl, rfl⟩
          rw [if_neg hxy, if_neg (mt ArgType.le_def.mp hxy)]
          exact .inr ⟨rfl, reconcile_conflict p (.below x) (.below y) (mt ArgType.le_of_eq hxy)⟩

/-- No type is a subtype of an error, and an error stays. -/
theorem reconcile_error (p : TypeParam) (c : Constraint ArgType) {t : Ty}
    (ht : isErrorType t = true) :
    reconcile p (some (deduced c)) (some (.deduceSupertype, .typeArg t)) =
      some (.deduceSupertype, .typeArg t) := by
  obtain ⟨e, rfl⟩ : ∃ e, t = .error e := by
    unfold isErrorType at ht
    split at ht
    · exact ⟨_, rfl⟩
    · cases ht
  have hleft : ∀ s : Ty, subtype (.error e) s = false :=
    fun s => Bool.eq_false_iff.mpr fun h => nomatch (not_error_of_subtype h).1
  have hright : ∀ s : Ty, subtype s (.error e) = false :=
    fun s => Bool.eq_false_iff.mpr fun h => nomatch (not_error_of_subtype h).2
  have hint : (tIsInt (.error e) || tIsEnum (.error e)) = false := rfl
  have hc : ∀ t : ArgType, (!tResolved t.ty) = false := fun t => by rw [t.resolved]; rfl
  cases c <;>
  · rename_i x
    rw [deduced, reconcile_types p _ _ _ x.ne_initializer]
    simp only [hleft, hright, hint, hc, Bool.false_eq_true, and_false, if_false]
    rfl

/-! ## Sequences of deductions -/

/-- The deduction a constraint stands for, before it is wrapped as an argument. -/
def deduction : Constraint ArgType → DeduceType × Ty
  | .above t => (.deduceSupertype, t.ty)
  | .below t => (.deduceSubtype, t.ty)

/-- The deduced argument is an error. -/
def Conflicts (r : Option Deduced) : Prop :=
  ∃ how t, r = some (how, .typeArg t) ∧ isErrorType t = true

theorem foldl_reconcile (p : TypeParam) (l : List (Constraint ArgType)) {t : Ty}
    (ht : isErrorType t = true) :
    (l.map deduction).foldl (fun d c => reconcile p (some (c.1, .typeArg c.2)) d)
      (some (.deduceSupertype, .typeArg t)) = some (.deduceSupertype, .typeArg t) := by
  induction l with
  | nil => rfl
  | cons c l ih =>
      have hc : ((deduction c).1, TArg.typeArg (deduction c).2) = deduced c := by cases c <;> rfl
      rw [List.map_cons, List.foldl_cons, hc, reconcile_error p c ht]
      exact ih

theorem foldl_reconcile_merge (p : TypeParam) (c : Constraint ArgType)
    (l : List (Constraint ArgType)) :
    (∃ e, collectFrom joinArgs c l = some e ∧
      (l.map deduction).foldl (fun d c => reconcile p (some (c.1, .typeArg c.2)) d)
        (some (deduced c)) = some (deduced e)) ∨
    (collectFrom joinArgs c l = none ∧
      Conflicts ((l.map deduction).foldl (fun d c => reconcile p (some (c.1, .typeArg c.2)) d)
        (some (deduced c)))) := by
  induction l generalizing c with
  | nil => exact .inl ⟨c, rfl, rfl⟩
  | cons d l ih =>
      rw [List.map_cons, List.foldl_cons, collectFrom_cons]
      have hd : ((deduction d).1, TArg.typeArg (deduction d).2) = deduced d := by cases d <;> rfl
      rw [hd]
      rcases reconcile_merge p d c with ⟨e, he, hrec⟩ | ⟨hnone, t, ht, hrec⟩
      · rw [he, hrec]
        exact ih e
      · rw [hnone, hrec, foldl_reconcile p l ht]
        exact .inr ⟨rfl, _, _, rfl, ht⟩

/-- A sequence of deductions merges its constraints. -/
theorem deduceAll_eq (p : TypeParam) {l : List (Constraint ArgType)} (hl : l ≠ []) :
    (∃ e, collect joinArgs l = some e ∧ deduceAll p (l.map deduction) = some (deduced e)) ∨
    (collect joinArgs l = none ∧ Conflicts (deduceAll p (l.map deduction))) := by
  cases l with
  | nil => exact absurd rfl hl
  | cons c l =>
      have hfirst : reconcile p (some ((deduction c).1, .typeArg (deduction c).2)) none =
          some (deduced c) := by
        cases c with
        | above t | below t =>
            rw [deduction, deduced, reconcile]
            intro _ ts h
            have harg := congrArg Prod.snd (Option.some.inj h)
            exact t.ne_initializer ts (TArg.typeArg.inj harg)
      have hall : deduceAll p ((c :: l).map deduction) =
          (l.map deduction).foldl (fun d c => reconcile p (some (c.1, .typeArg c.2)) d)
            (some (deduced c)) := by
        rw [deduceAll, List.map_cons, List.foldl_cons, hfirst]
      rw [hall]
      exact foldl_reconcile_merge p c l

/-! ## Merging supertypes in some and in every order -/

def AllNumeric (ts : List ArgType) : Prop := ∀ t ∈ ts, t.Numeric

def NoneNumeric (ts : List ArgType) : Prop := ∀ t ∈ ts, ¬ t.Numeric

/-- No two of the types differ in a `const` below enums and instances. -/
def CoresAgree (ts : List ArgType) : Prop := ∀ s ∈ ts, ∀ t ∈ ts, CoresMeet s.ty t.ty

/-- `tSuper` of the types, from the first on. -/
def tSuperAll : List ArgType → Ty
  | [] => .undefined
  | t :: ts => ts.foldl (fun z t => tSuper t.ty z) t.ty

def Highest (ts : List ArgType) (h : ArgType) : Prop := h ∈ ts ∧ ∀ t ∈ ts, t ≤ h

/-- Integer and enum types merge, and others of which one is a supertype of all. -/
def MergeInSomeOrder (ts : List ArgType) : Prop :=
  (AllNumeric ts ∧ CoresAgree ts) ∨ (NoneNumeric ts ∧ ∃ h, Highest ts h)

/-- `tSuper` gives one type in every order, and other types form a chain with one highest
    type. -/
def MergeInEveryOrder (ts : List ArgType) : Prop :=
  (AllNumeric ts ∧ CoresAgree ts ∧ ∀ ts', ts'.Perm ts → tSuperAll ts' = tSuperAll ts) ∨
  (NoneNumeric ts ∧ Comparable ts ∧ ∀ h h', Highest ts h → Highest ts h' → h = h')

theorem CoresMeet.symm {x y : Ty} (h : CoresMeet x y) : CoresMeet y x :=
  h.imp Eq.symm And.symm

theorem CoresMeet.trans {x y z : Ty} (h : CoresMeet x y) (h' : CoresMeet y z) : CoresMeet x z := by
  rcases h with h | ⟨hx, hy⟩
  · rcases h' with h' | ⟨hy, hz⟩
    · exact .inl (h.trans h')
    · exact .inr ⟨h ▸ hy, hz⟩
  · rcases h' with h' | ⟨-, hz⟩
    · exact .inr ⟨hx, h' ▸ hy⟩
    · exact .inr ⟨hx, hz⟩

/-- What two types have in common below enums and instances stays. -/
theorem peel_tSuper {x y : Ty} (hx : x.proper = true) (hy : y.proper = true) (hnx : Numeric x)
    (hny : Numeric y) (h : peel x = peel y) : peel (tSuper x y) = peel x := by
  induction hn : x.size + y.size using Nat.strongRecOn generalizing x y with
  | _ n ih =>
      have hrx := tResolved_numeric hx hnx
      have hry := tResolved_numeric hy hny
      by_cases heq : x = y
      · rw [← heq, tSuper_self hrx]
      by_cases hex : ∃ n s, x = .enum n s
      · obtain ⟨n, s, rfl⟩ := hex
        rw [Ty.proper, Bool.and_eq_true] at hx
        rw [tSuper_enum_left (s := s) hrx hry heq]
        exact ih _ (by simp only [Ty.size] at hn; omega) hx.2 hy (.inl hx.1) hny h rfl
      have hex : ∀ n s, x ≠ .enum n s := fun n s h => hex ⟨n, s, h⟩
      by_cases hey : ∃ n t, y = .enum n t
      · obtain ⟨n, t, rfl⟩ := hey
        rw [Ty.proper, Bool.and_eq_true] at hy
        rw [tSuper_enum_right (t := t) hrx hry heq hex]
        exact ih _ (by simp only [Ty.size] at hn; omega) hx hy.2 hnx (.inl hy.1) h rfl
      have hey : ∀ n t, y ≠ .enum n t := fun n t h => hey ⟨n, t, h⟩
      by_cases hix : ∃ s n args, x = .inst s n args
      · obtain ⟨s, n, args, rfl⟩ := hix
        rw [tSuper_inst_left (s := s) hrx hry heq hey]
        exact ih _ (by simp only [Ty.size] at hn; omega) (x := s) hx hy hnx hny h rfl
      have hix : ∀ s n args, x ≠ .inst s n args := fun s n args h => hix ⟨s, n, args, h⟩
      by_cases hiy : ∃ t n args, y = .inst t n args
      · obtain ⟨t, n, args, rfl⟩ := hiy
        rw [tSuper_inst_right (t := t) hrx hry hex hix]
        exact ih _ (by simp only [Ty.size] at hn; omega) (y := t) hx hy hnx hny h rfl
      have hiy : ∀ t n args, y ≠ .inst t n args := fun t n args h => hiy ⟨t, n, args, h⟩
      rw [peel_of_head hex hix, peel_of_head hey hiy] at h
      exact absurd h heq

theorem coresMeet_tSuper {x y : ArgType} (hx : x.Numeric) (hy : y.Numeric)
    (h : CoresMeet x.ty y.ty) : CoresMeet (tSuper x.ty y.ty) x.ty := by
  rcases h with h | ⟨hix, hiy⟩
  · exact .inl (peel_tSuper x.proper y.proper hx hy h)
  · exact .inr ⟨(tSuper_spec x.proper y.proper hx hy).peeled hix hiy, hix⟩

theorem joinFrom_numeric {x : ArgType} {ts : List ArgType} (hx : x.Numeric) (hts : AllNumeric ts)
    (hcores : ∀ t ∈ ts, CoresMeet t.ty x.ty) :
    ∃ z, joinFrom joinArgs x ts = some z ∧ z.ty = ts.foldl (fun z t => tSuper t.ty z) x.ty := by
  induction ts generalizing x with
  | nil => exact ⟨x, rfl, rfl⟩
  | cons t ts ih =>
      have ht := hts t List.mem_cons_self
      have hmeet := hcores t List.mem_cons_self
      rcases tSuper_args ht hx with ⟨w, hw, hnum, -⟩ | ⟨-, hnot⟩
      · have hjoin : joinArgs t x = some w := by
          rw [joinArgs, if_pos ⟨ht, hx⟩, ← hw, toArgType_ty]
        rw [joinFrom_cons, hjoin, List.foldl_cons, ← hw]
        refine ih hnum (fun u hu => hts u (List.mem_cons_of_mem _ hu)) fun u hu => ?_
        have hwt : CoresMeet w.ty t.ty := hw ▸ coresMeet_tSuper ht hx hmeet
        exact (hcores u (List.mem_cons_of_mem _ hu)).trans (hwt.trans hmeet).symm
      · exact absurd hmeet hnot

/-- A join keeps to integer and enum types or to others. -/
theorem of_joinFrom {x z : ArgType} {ts : List ArgType} (h : joinFrom joinArgs x ts = some z) :
    (x.Numeric → AllNumeric ts ∧ ∀ t ∈ ts, CoresMeet t.ty x.ty) ∧
    (¬ x.Numeric → NoneNumeric ts ∧ z ∈ x :: ts) := by
  induction ts generalizing x with
  | nil =>
      cases h
      exact ⟨fun _ => ⟨nofun, nofun⟩, fun _ => ⟨nofun, List.mem_cons_self⟩⟩
  | cons t ts ih =>
      rw [joinFrom_cons, Option.bind_eq_some_iff] at h
      obtain ⟨w, hw, hz⟩ := h
      rw [joinArgs] at hw
      refine ⟨fun hx => ?_, fun hx => ?_⟩
      · by_cases ht : t.Numeric
        · rw [if_pos ⟨ht, hx⟩] at hw
          rcases tSuper_args ht hx with ⟨w', hw', hnum, hmeet, -⟩ | ⟨herror, -⟩
          · rw [← hw', toArgType_ty] at hw
            cases hw
            obtain ⟨hall, hcores⟩ := (ih hz).1 hnum
            have hwt : CoresMeet w.ty t.ty := hw' ▸ coresMeet_tSuper ht hx hmeet
            refine ⟨fun u hu => ?_, fun u hu => ?_⟩
            · rcases List.mem_cons.mp hu with rfl | hu
              · exact ht
              · exact hall u hu
            · rcases List.mem_cons.mp hu with rfl | hu
              · exact hmeet
              · exact (hcores u hu).trans (hwt.trans hmeet)
          · rw [toArgType_error herror] at hw
            cases hw
        · rw [if_neg (fun h => ht h.1), if_neg (ArgType.not_ge hx ht),
            if_neg (ArgType.not_le hx ht)] at hw
          cases hw
      · rw [if_neg (fun h => hx h.2)] at hw
        have ht : ¬ t.Numeric := by
          intro ht
          rw [if_neg (ArgType.not_le ht hx), if_neg (ArgType.not_ge ht hx)] at hw
          cases hw
        have hmem : w = x ∨ w = t := by
          split at hw
          · exact .inl (Option.some.inj hw).symm
          split at hw
          · exact .inr (Option.some.inj hw).symm
          · cases hw
        have hwnum : ¬ w.Numeric := by
          rcases hmem with rfl | rfl
          · exact hx
          · exact ht
        obtain ⟨hnone, hzmem⟩ := (ih hz).2 hwnum
        refine ⟨fun u hu => ?_, ?_⟩
        · rcases List.mem_cons.mp hu with rfl | hu
          · exact ht
          · exact hnone u hu
        · rcases List.mem_cons.mp hzmem with rfl | hzmem
          · rcases hmem with rfl | rfl
            · exact List.mem_cons_self
            · exact List.mem_cons_of_mem _ List.mem_cons_self
          · exact List.mem_cons_of_mem _ (List.mem_cons_of_mem _ hzmem)

theorem joinFrom_highest {h : ArgType} {ts : List ArgType} (hh : ¬ h.Numeric)
    (hle : ∀ t ∈ ts, t ≤ h) : joinFrom joinArgs h ts = some h := by
  induction ts with
  | nil => rfl
  | cons t ts ih =>
      have hjoin : joinArgs t h = some h := by
        rw [joinArgs, if_neg (fun hnum => hh hnum.2), if_pos (hle t List.mem_cons_self)]
      rw [joinFrom_cons, hjoin]
      exact ih fun t ht => hle t (List.mem_cons_of_mem _ ht)

theorem exists_joinFrom_chain {x : ArgType} {ts : List ArgType} (hx : ¬ x.Numeric)
    (hcomp : Comparable (x :: ts)) (hts : NoneNumeric ts) : ∃ z, joinFrom joinArgs x ts = some z := by
  induction ts generalizing x with
  | nil => exact ⟨x, rfl⟩
  | cons t ts ih =>
      have hsub : ∀ w, w = x ∨ w = t → ∀ u ∈ w :: ts, u ∈ x :: t :: ts := by
        rintro w (rfl | rfl) u hu
        · rcases List.mem_cons.mp hu with rfl | hu
          · exact List.mem_cons_self
          · exact List.mem_cons_of_mem _ (List.mem_cons_of_mem _ hu)
        · exact List.mem_cons_of_mem _ hu
      have hnext : ∀ w, w = x ∨ w = t → ∃ z, joinFrom joinArgs w ts = some z := by
        intro w hw
        refine ih ?_ (fun s hs u hu => hcomp s (hsub w hw s hs) u (hsub w hw u hu))
          fun u hu => hts u (List.mem_cons_of_mem _ hu)
        rcases hw with rfl | rfl
        · exact hx
        · exact hts w List.mem_cons_self
      rw [joinFrom_cons, joinArgs, if_neg (fun hnum => hx hnum.2)]
      split
      · exact hnext x (.inl rfl)
      · rw [if_pos ((hcomp x List.mem_cons_self t
          (List.mem_cons_of_mem _ List.mem_cons_self)).resolve_right (by assumption))]
        exact hnext t (.inr rfl)

theorem CoresAgree.of_first {x : ArgType} {ts : List ArgType}
    (h : ∀ t ∈ ts, CoresMeet t.ty x.ty) : CoresAgree (x :: ts) := by
  have hall : ∀ t ∈ x :: ts, CoresMeet t.ty x.ty := by
    intro t ht
    rcases List.mem_cons.mp ht with rfl | ht
    · exact .inl rfl
    · exact h t ht
  exact fun s hs t ht => (hall s hs).trans (hall t ht).symm

/-- Integer and enum types that meet are joined in every order. -/
theorem joinAll_numeric {ts ts' : List ArgType} (hnum : AllNumeric ts) (hcores : CoresAgree ts)
    (hperm : ts'.Perm ts) (hne : ts ≠ []) :
    ∃ z, joinAll joinArgs ts' = some z ∧ z.ty = tSuperAll ts' := by
  cases ts' with
  | nil => exact absurd (List.Perm.nil_eq hperm).symm hne
  | cons x ts' =>
      have hmem : ∀ t ∈ x :: ts', t ∈ ts := fun t ht => hperm.mem_iff.mp ht
      have hx := hmem x List.mem_cons_self
      exact joinFrom_numeric (hnum x hx) (fun t ht => hnum t (hmem t (List.mem_cons_of_mem _ ht)))
        fun t ht => hcores t (hmem t (List.mem_cons_of_mem _ ht)) x hx

/-- What types that are joined in this order have in common. -/
theorem of_joinAll {ts : List ArgType} {z : ArgType} (h : joinAll joinArgs ts = some z) :
    (AllNumeric ts ∧ CoresAgree ts) ∨ (NoneNumeric ts ∧ Highest ts z) := by
  have hlub := isJoin_joinArgs.isLUB_joinAll h
  cases ts with
  | nil => cases h
  | cons x ts =>
      by_cases hx : x.Numeric
      · obtain ⟨hnum, hcores⟩ := (of_joinFrom h).1 hx
        refine .inl ⟨fun t ht => ?_, .of_first hcores⟩
        rcases List.mem_cons.mp ht with rfl | ht
        · exact hx
        · exact hnum t ht
      · obtain ⟨hnum, hz⟩ := (of_joinFrom h).2 hx
        refine .inr ⟨fun t ht => ?_, hz, fun t ht => hlub.1 ht⟩
        rcases List.mem_cons.mp ht with rfl | ht
        · exact hx
        · exact hnum t ht

/-- With any of the types first there is an order in which they are joined. -/
theorem exists_joinFrom {ts : List ArgType} (h : MergeInSomeOrder ts) {s : ArgType} (hs : s ∈ ts) :
    ∃ ts', (s :: ts').Perm ts ∧ ∃ z, joinFrom joinArgs s ts' = some z := by
  obtain ⟨rest, hperm⟩ := exists_perm_cons hs
  rcases h with ⟨hnum, hcores⟩ | ⟨hnone, h, hh⟩
  · obtain ⟨z, hz, -⟩ := joinAll_numeric hnum hcores hperm (List.ne_nil_of_mem hs)
    exact ⟨_, hperm, z, hz⟩
  · have hhnum := hnone h hh.1
    by_cases hhs : h ≤ s
    · exact ⟨_, hperm, s, joinFrom_highest (hnone s hs)
        fun t ht => (hh.2 t (hperm.mem_iff.mp (List.mem_cons_of_mem _ ht))).trans hhs⟩
    -- the highest type comes second
    have hne : s ≠ h := fun heq => hhs heq.ge
    obtain ⟨rest', hperm'⟩ := exists_perm_cons_cons hs hh.1 hne
    refine ⟨_, hperm', h, ?_⟩
    have hjoin : joinArgs h s = some h := by
      rw [joinArgs, if_neg (fun hnum => hhnum hnum.1), if_neg hhs, if_pos (hh.2 s hs)]
    rw [joinFrom_cons, hjoin]
    exact joinFrom_highest hhnum fun t ht => hh.2 t (hperm'.mem_iff.mp
      (List.mem_cons_of_mem _ (List.mem_cons_of_mem _ ht)))

theorem mergeInSomeOrder_of_perm {ts ts' : List ArgType} {z : ArgType} (hperm : ts'.Perm ts)
    (h : joinAll joinArgs ts' = some z) : MergeInSomeOrder ts := by
  have hmem : ∀ t, t ∈ ts → t ∈ ts' := fun t ht => hperm.mem_iff.mpr ht
  rcases of_joinAll h with ⟨hnum, hcores⟩ | ⟨hnone, hz⟩
  · exact .inl ⟨fun t ht => hnum t (hmem t ht),
      fun s hs t ht => hcores s (hmem s hs) t (hmem t ht)⟩
  · exact .inr ⟨fun t ht => hnone t (hmem t ht), z, hperm.mem_iff.mp hz.1,
      fun t ht => hz.2 t (hmem t ht)⟩

theorem joinsInSomeOrder_iff {ts : List ArgType} (hne : ts ≠ []) :
    JoinsInSomeOrder joinArgs ts ↔ MergeInSomeOrder ts := by
  constructor
  · rintro ⟨ts', hperm, z, hz⟩
    exact mergeInSomeOrder_of_perm hperm hz
  · intro h
    obtain ⟨s, hs⟩ := List.exists_mem_of_ne_nil ts hne
    obtain ⟨ts', hperm, z, hz⟩ := exists_joinFrom h hs
    exact ⟨_, hperm, z, hz⟩

theorem joinsInEveryOrder_iff {ts : List ArgType} (hne : ts ≠ []) :
    JoinsInEveryOrder joinArgs ts ↔ MergeInEveryOrder ts := by
  constructor
  · rintro ⟨z, hz⟩
    rcases of_joinAll (hz ts (.refl _)) with ⟨hnum, hcores⟩ | ⟨hnone, -⟩
    · refine .inl ⟨hnum, hcores, fun ts' hperm => ?_⟩
      obtain ⟨w, hw, hwty⟩ := joinAll_numeric hnum hcores hperm hne
      obtain ⟨w', hw', hwty'⟩ := joinAll_numeric hnum hcores (.refl _) hne
      rw [hz _ hperm] at hw
      rw [hz _ (.refl _), hw] at hw'
      cases hw'
      rw [← hwty, hwty']
    · refine .inr ⟨hnone, fun s hs t ht => ?_, fun h h' hh hh' => ?_⟩
      · by_cases heq : s = t
        · exact .inl heq.le
        -- two types that come first are compared
        obtain ⟨rest, hperm⟩ := exists_perm_cons_cons hs ht heq
        have hrun := hz _ hperm
        rw [joinAll, joinFrom_cons, Option.bind_eq_some_iff] at hrun
        obtain ⟨w, hw, -⟩ := hrun
        rw [joinArgs, if_neg (fun hnum => hnone s hs hnum.2)] at hw
        split at hw
        · exact .inr (by assumption)
        split at hw
        · exact .inl (by assumption)
        · cases hw
      · have hfirst : ∀ k, Highest ts k → z = k := by
          intro k hk
          obtain ⟨rest, hperm⟩ := exists_perm_cons hk.1
          have hrun := joinFrom_highest (hnone k hk.1)
            fun t ht => hk.2 t (hperm.mem_iff.mp (List.mem_cons_of_mem _ ht))
          have := hz _ hperm
          rw [joinAll, hrun] at this
          exact (Option.some.inj this).symm
        rw [← hfirst h hh, hfirst h' hh']
  · rintro (⟨hnum, hcores, hsame⟩ | ⟨hnone, hcomp, hunique⟩)
    · obtain ⟨z, -, hzty⟩ := joinAll_numeric hnum hcores (.refl _) hne
      refine ⟨z, fun ts' hperm => ?_⟩
      obtain ⟨w, hw, hwty⟩ := joinAll_numeric hnum hcores hperm hne
      rw [hw, ArgType.ext_ty (hwty.trans ((hsame _ hperm).trans hzty.symm))]
    · have hrun : ∀ ts', ts'.Perm ts → ∃ z, joinAll joinArgs ts' = some z ∧ Highest ts z := by
        intro ts' hperm
        have hmem : ∀ t, t ∈ ts' ↔ t ∈ ts := fun t => hperm.mem_iff
        obtain ⟨z, hz⟩ : ∃ z, joinAll joinArgs ts' = some z := by
          cases ts' with
          | nil => exact absurd (List.Perm.nil_eq hperm).symm hne
          | cons x ts' =>
              exact exists_joinFrom_chain (hnone x ((hmem x).mp List.mem_cons_self))
                (fun s hs t ht => hcomp s ((hmem s).mp hs) t ((hmem t).mp ht))
                fun t ht => hnone t ((hmem t).mp (List.mem_cons_of_mem _ ht))
        refine ⟨z, hz, ?_⟩
        rcases of_joinAll hz with ⟨hnum, -⟩ | ⟨-, hz'⟩
        · obtain ⟨s, hs⟩ := List.exists_mem_of_ne_nil ts hne
          exact absurd (hnum s ((hmem s).mpr hs)) (hnone s hs)
        · exact ⟨(hmem z).mp hz'.1, fun t ht => hz'.2 t ((hmem t).mpr ht)⟩
      obtain ⟨z, -, hz⟩ := hrun ts (.refl _)
      refine ⟨z, fun ts' hperm => ?_⟩
      obtain ⟨w, hw, hwh⟩ := hrun ts' hperm
      rw [hw, hunique z w hz hwh]

/-! ## Enums based on integer types -/

/-- An integer type, or an enum based on one without `const` or an instance. -/
def PlainBase (t : Ty) : Prop := IsIntType t ∨ ∃ n s, t = .enum n s ∧ IsIntType s

theorem PlainBase.numeric {t : Ty} (h : PlainBase t) : Numeric t := by
  rcases h with h | ⟨n, s, rfl, -⟩
  · exact .inl h.tIsInt
  · exact .inr rfl

theorem PlainBase.peel {t : Ty} (h : PlainBase t) : IsIntType (peel t) := by
  rcases h with h | ⟨n, s, rfl, h⟩
  · cases h
    · exact .unsigned _
    · exact .signed _
  · cases h
    · exact .unsigned _
    · exact .signed _

theorem IsIntType.tResolved {t : Ty} (h : IsIntType t) : tResolved t = true := by
  cases h <;> rfl

/-- Two different types merge to an integer type. -/
theorem PlainBase.tSuper {x y : Ty} (hx : PlainBase x) (hy : PlainBase y) (hne : x ≠ y) :
    IsIntType (tSuper x y) := by
  have hright : ∀ {s : Ty}, IsIntType s → IsIntType (Frontend.tSuper s y) := by
    intro s hs
    rcases hy with hy | ⟨n, t, rfl, ht⟩
    · exact isIntType_tSuper hs hy
    · rw [tSuper_enum_right hs.tResolved ht.tResolved (by cases hs <;> exact nofun)
        (by cases hs <;> exact nofun)]
      exact isIntType_tSuper hs ht
  rcases hx with hx | ⟨n, s, rfl, hs⟩
  · exact hright hx
  · have hry : Frontend.tResolved y = true := by
      rcases hy with hy | ⟨m, t, rfl, ht⟩
      · exact hy.tResolved
      · exact ht.tResolved
    rw [tSuper_enum_left hs.tResolved hry hne]
    exact hright hs

/-! ## Deduction in every order -/

/-- The type satisfies the constraint. -/
def Satisfies (t : Ty) : DeduceType × Ty → Prop
  | (.deduceSupertype, s) => subtype s t = true
  | (.deduceSubtype, s) => subtype t s = true

/-- The deductions conflict in every order, or in every order they give one argument,
    a type that satisfies all of them. -/
def OrderIndependent (p : TypeParam) (l : List (Constraint ArgType)) : Prop :=
  (∀ l' : List (Constraint ArgType), l'.Perm l → Conflicts (deduceAll p (l'.map deduction))) ∨
  ∃ arg, (∀ l' : List (Constraint ArgType), l'.Perm l → (deduceAll p (l'.map deduction)).map Prod.snd = arg) ∧
    ∀ a ∈ arg, ∃ t, a = .typeArg t ∧ isErrorType t = false ∧ ∀ c ∈ l, Satisfies t (deduction c)

/-- Every supertype constraint is below every subtype constraint, supertypes merge in
    every order and the subtypes form a chain, with one lowest type if there are no
    supertypes. -/
structure ConstraintsAgree (supers subs : List ArgType) : Prop where
  le : ∀ s ∈ supers, ∀ t ∈ subs, s ≤ t
  chain : Comparable subs
  merge : supers ≠ [] → MergeInEveryOrder supers
  lowest : supers = [] → ∀ m m', Lowest subs m → Lowest subs m' → m = m'

/-- The supertypes merge in no order or none is below all subtypes; without
    supertypes there is no lowest subtype. -/
structure ConstraintsClash (supers subs : List ArgType) : Prop where
  merge : MergeInSomeOrder supers → ¬ ∃ s ∈ supers, ∀ t ∈ subs, s ≤ t
  lowest : supers = [] → ¬ ∃ m, Lowest subs m

theorem agree_iff (l : List (Constraint ArgType)) :
    Agree joinArgs l ↔ ConstraintsAgree (lowers l) (uppers l) :=
  ⟨fun h => ⟨h.le, h.chain, fun hne => (joinsInEveryOrder_iff hne).mp (h.joins hne), h.lowest⟩,
    fun h => ⟨h.le, h.chain, fun hne => (joinsInEveryOrder_iff hne).mpr (h.merge hne), h.lowest⟩⟩

theorem clash_iff (l : List (Constraint ArgType)) :
    Clash joinArgs l ↔ ConstraintsClash (lowers l) (uppers l) := by
  constructor
  · refine fun h => ⟨fun hmerge => ?_, h.lowest⟩
    rintro ⟨s, hs, hle⟩
    exact h.joins ((joinsInSomeOrder_iff (List.ne_nil_of_mem hs)).mpr hmerge) ⟨s, hs, hle⟩
  · refine fun h => ⟨fun hjoins => ?_, h.lowest⟩
    exact h.merge ((joinsInSomeOrder_iff (hjoins.ne_nil _)).mp hjoins)

theorem satisfies_iff {l : List (Constraint ArgType)} {z : ArgType} :
    (∀ c ∈ l, Satisfies z.ty (deduction c)) ↔
      (∀ s ∈ lowers l, s ≤ z) ∧ ∀ t ∈ uppers l, z ≤ t := by
  constructor
  · exact fun h => ⟨fun s hs => h _ (mem_lowers.mp hs), fun t ht => h _ (mem_uppers.mp ht)⟩
  · rintro ⟨hs, ht⟩ c hc
    cases c with
    | above s => exact hs s (mem_lowers.mpr hc)
    | below t => exact ht t (mem_uppers.mpr hc)

/-- A constraint is read off from its argument and from whether supertypes are left. -/
theorem deduced_arg (e : Constraint ArgType) :
    (some (deduced e)).map Prod.snd = some (.typeArg e.element.ty) := by
  cases e <;> rfl

theorem orderIndependent_iff_same (p : TypeParam) {l : List (Constraint ArgType)} (hl : l ≠ []) :
    OrderIndependent p l ↔ SameInEveryOrder joinArgs l := by
  have hne : ∀ l', l'.Perm l → l' ≠ [] := fun l' hperm hnil =>
    hl (List.Perm.nil_eq (hnil ▸ hperm)).symm
  constructor
  · rintro (hall | ⟨arg, hall, harg⟩)
    · refine .inl fun l' hperm => ?_
      rcases deduceAll_eq p (hne l' hperm) with ⟨e, -, hrun⟩ | ⟨hnone, -⟩
      · obtain ⟨how, t, ht, herror⟩ := hall l' hperm
        rw [hrun] at ht
        have hty := deduced_arg e
        rw [ht] at hty
        cases hty
        rw [isErrorType_of_proper e.element.proper] at herror
        cases herror
      · exact hnone
    · have hrun : ∀ l', l'.Perm l → ∃ e, collect joinArgs l' = some e ∧
          arg = some (.typeArg e.element.ty) := by
        intro l' hperm
        rcases deduceAll_eq p (hne l' hperm) with ⟨e, he, hrun⟩ | ⟨-, how, t, ht, herror⟩
        · refine ⟨e, he, ?_⟩
          rw [← hall l' hperm, hrun, deduced_arg]
        · have := hall l' hperm
          rw [ht] at this
          obtain ⟨t', ht', hnot, -⟩ := harg (.typeArg t) this.symm
          cases ht'
          rw [herror] at hnot
          cases hnot
      obtain ⟨r, hr, hrarg⟩ := hrun l (.refl _)
      refine .inr ⟨r, fun l' hperm => ?_, ?_⟩
      · obtain ⟨e, he, hearg⟩ := hrun l' hperm
        rw [hrarg] at hearg
        have hty : r.element = e.element := ArgType.ext_ty (by simpa using hearg)
        rw [he]
        -- whether a supertype is kept depends on the constraints only
        have hkind := of_collect isJoin_joinArgs hr
        have hkind' := of_collect isJoin_joinArgs he
        have hnil : lowers l' = [] ↔ lowers l = [] := by
          have := (lowers_perm hperm).length_eq
          rw [← List.length_eq_zero_iff, ← List.length_eq_zero_iff, this]
        rcases hkind with ⟨h, k, -, rfl, -⟩ | ⟨⟨s, hs, -⟩, k, -, rfl⟩ <;>
          rcases hkind' with ⟨h', k', -, rfl, -⟩ | ⟨⟨s', hs', -⟩, k', -, rfl⟩
        · exact congrArg _ (congrArg _ hty.symm)
        · rw [hnil.mpr h] at hs'
          cases hs'
        · rw [hnil.mp h'] at hs
          cases hs
        · exact congrArg _ (congrArg _ hty.symm)
      · obtain ⟨t, ht, -, hsat⟩ := harg _ hrarg
        cases ht
        exact satisfies_iff.mp hsat
  · rintro (hnone | ⟨r, hr, hsat⟩)
    · refine .inl fun l' hperm => ?_
      rcases deduceAll_eq p (hne l' hperm) with ⟨e, he, -⟩ | ⟨-, hconf⟩
      · rw [hnone l' hperm] at he
        cases he
      · exact hconf
    · refine .inr ⟨some (.typeArg r.element.ty), fun l' hperm => ?_, fun a ha => ?_⟩
      · rcases deduceAll_eq p (hne l' hperm) with ⟨e, he, hrun⟩ | ⟨hnone, -⟩
        · rw [hr l' hperm] at he
          cases he
          rw [hrun, deduced_arg]
        · rw [hr l' hperm] at hnone
          cases hnone
      · cases ha
        exact ⟨_, rfl, isErrorType_of_proper r.element.proper, satisfies_iff.mpr hsat⟩

/-- `uint<w>`. -/
def uintArg (w : Int) : ArgType := ⟨⟨.unsigned w, rfl, rfl⟩, rfl⟩

/-- A template `T f<T>(T a, (T) -> void g, T b)` called with a `uint4`, a function of a `uint8`
    and a `uint16`. -/
def uintDeductions : List (Constraint ArgType) :=
  [.above (uintArg 4), .below (uintArg 8), .above (uintArg 16)]

end Kanagawa.Frontend
