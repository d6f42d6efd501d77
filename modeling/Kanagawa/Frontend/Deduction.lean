/-
  Kanagawa.Frontend.Deduction

  Template argument deduction for one `typename` parameter (`Type.hs`).

  Every type deduced for the parameter is reconciled with what has been deduced
  before.  Only one of the two is kept, as a supertype or a subtype constraint.
-/
import Kanagawa.Frontend.Subtype

namespace Kanagawa.Frontend

/-- `DeduceType`. -/
inductive DeduceType where
  | deduceSupertype
  | deduceSubtype
  deriving DecidableEq

/-- `TypeParam`: the scope of its template, its name and its index there.  A `typename`
    parameter; the other kinds of parameters take no types. -/
structure TypeParam where
  scope : QualifiedName
  name : Name
  index : Nat

/-- What has been deduced for a parameter. -/
abbrev Deduced := DeduceType × TArg

instance : DecidableEq TArg := fun a b =>
  decidable_of_iff (a.beq b = true) ⟨TArg.eq_of_beq, fun h => h ▸ a.beq_self⟩

/-- `showPretty` of an argument that may be missing. -/
def prettyDeduced : Option Deduced → String
  | none => ""
  | some (_, a) => a.pretty

/-- The error of the last clause of `reconcile`. -/
def conflictingArgs (p : TypeParam) (x y : Option Deduced) : Ty :=
  .error ("Conflicting template argument deduction results for parameter `" ++ p.name ++
    "`. Could be `" ++ prettyDeduced x ++ "` or `" ++ prettyDeduced y ++ "`.")

/-- The last clause of `reconcile`. -/
def reconcileEqual (p : TypeParam) (x y : Option Deduced) : Option Deduced :=
  if x.map Prod.snd = y.map Prod.snd then x
  else some (.deduceSupertype, .typeArg (conflictingArgs p x y))

/-- `reconcile`: `x` is the new deduction, `y` the one before. -/
def reconcile (p : TypeParam) (x y : Option Deduced) : Option Deduced :=
  match x, y with
  | some (_, .typeArg (.initializer _)), y => y
  | x, none => x
  | some (how, .typeArg tx), some (how', .typeArg ty) =>
      let bothSuper := how = .deduceSupertype ∧ how' = .deduceSupertype
      if bothSuper ∧ (tIsInt tx || tIsEnum tx) ∧ (tIsInt ty || tIsEnum ty) then
        some (.deduceSupertype, .typeArg (tSuper tx ty))
      else if bothSuper ∧ subtype tx ty then some (how', .typeArg ty)
      else if bothSuper ∧ subtype ty tx then some (how, .typeArg tx)
      else if how = .deduceSubtype ∧ subtype ty tx then some (how', .typeArg ty)
      else if how' = .deduceSubtype ∧ subtype tx ty then some (how, .typeArg tx)
      else if !tResolved tx then some (how, .typeArg tx)
      else if !tResolved ty then some (how', .typeArg ty)
      else if isErrorType ty then some (how', .typeArg ty)
      else reconcileEqual p (some (how, .typeArg tx)) (some (how', .typeArg ty))
  | x, y => reconcileEqual p x y

/-- The deductions made for a parameter one after the other. -/
def deduceAll (p : TypeParam) (l : List (DeduceType × Ty)) : Option Deduced :=
  l.foldl (fun deduced c => reconcile p (some (c.1, .typeArg c.2)) deduced) none

end Kanagawa.Frontend
