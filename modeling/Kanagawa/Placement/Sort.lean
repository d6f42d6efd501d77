/-
  Kanagawa.Placement.Sort

  Arranging items such that they are near each other (`Placement::Sort`).

  A 2-opt search for a short route.  Items with the same position take part as
  one: the first of them is the placeholder of all.  An index of an item is a
  `Fin` of their number, so that it is always within the vector.  Positions and
  distances may be of any type; the sum of a route is taken from left to right.
-/
import Kanagawa.Lib.LocalSearch

namespace Kanagawa.Placement

open Lib.LocalSearch

variable {T P D ι : Type}

/-! ## The search -/

/-- `GetTotalDistance`. -/
def getTotalDistance [Zero D] [Add D] (length : P → P → D) (list : List ι)
    (getPosition : ι → P) : D :=
  let step := fun (acc : Option P × D) (obj : ι) =>
    let pos := getPosition obj
    match acc.1 with
    | some previousPos => (some pos, acc.2 + length previousPos pos)
    | none => (some pos, acc.2)
  (list.foldl step (none, 0)).2

/-- The route with `[i, j - 1]` in reverse order. -/
def reverseBetween (route : List ι) (i j : Nat) : List ι :=
  route.take i ++ ((route.drop i).take (j - i)).reverse ++ route.drop j

/-- Generates a new route and keeps it if that improved things. -/
def tryRoute [LT D] [DecidableLT D] (distance : List ι → D) (i : Nat) (state : List ι × Bool)
    (j : Nat) : List ι × Bool :=
  let newRoute := reverseBetween state.1 i j
  if distance newRoute < distance state.1 then (newRoute, true) else state

/-- The body of the loop over `i`. -/
def tryRoutesFrom [LT D] [DecidableLT D] (distance : List ι → D) (routeSize : Nat)
    (state : List ι × Bool) (i : Nat) : List ι × Bool :=
  (List.range' (i + 1) (routeSize - (i + 1))).foldl (tryRoute distance i) state

/-- The body of the outer loop: whether there was progress. -/
def pass [LT D] [DecidableLT D] (distance : List ι → D) (routeSize : Nat) (route : List ι) :
    List ι × Bool :=
  (List.range routeSize).foldl (tryRoutesFrom distance routeSize) (route, false)

/-! ## Deduplication -/

structure ItemRecord (T P : Type) where
  item : T
  position : P
  name : String

/-- The placeholders of `n` items: `placeholderMap`, `placeholderLists` and the route. -/
structure Placeholders (P : Type) (n : Nat) where
  placeholderMap : List (P × Fin n)
  placeholderLists : Fin n → List (Fin n)
  currRoute : List (Fin n)

/-- An item joins the list of its placeholder, or becomes one. -/
def addItem [DecidableEq P] {n : Nat} (position : Fin n → P) (acc : Placeholders P n) (i : Fin n) :
    Placeholders P n :=
  match acc.placeholderMap.lookup (position i) with
  | none =>
      { placeholderMap := (position i, i) :: acc.placeholderMap
        currRoute := acc.currRoute ++ [i]
        placeholderLists := Function.update acc.placeholderLists i (acc.placeholderLists i ++ [i]) }
  | some placeholderIndex =>
      { acc with
        placeholderLists := Function.update acc.placeholderLists placeholderIndex
          (acc.placeholderLists placeholderIndex ++ [i]) }

/-- Deduplicates based on position. -/
def deduplicate [DecidableEq P] {n : Nat} (position : Fin n → P) : Placeholders P n :=
  (List.finRange n).foldl (addItem position) ⟨[], fun _ => [], []⟩

/-! ## `Sort` -/

structure SortRecord where
  title : String
  names : List String := []
  deriving Repr, DecidableEq

/-- `Placement::Sort`, with a bound on the number of passes: the list and the description of the
    results. -/
def sort [DecidableEq P] [Zero D] [Add D] [LT D] [DecidableLT D] (length : P → P → D)
    (routeInOut : List T) (getPositionCallback : T → P) (getNameCallback : T → String)
    (name : String) (runToConvergence : Bool) (fuel : Nat) : Option (List T × SortRecord) :=
  -- Also, skip lists of size = 1, for performance
  if routeInOut.length < 2 then some (routeInOut, { title := name })
  else do
    let itemVec := routeInOut.map fun item =>
      ItemRecord.mk item (getPositionCallback item) (getNameCallback item)
    let getPositionInternal := fun index => (itemVec.get index).position
    let placeholders := deduplicate getPositionInternal
    let distance := fun route => getTotalDistance length route getPositionInternal
    let body := fun route =>
      let result := pass distance placeholders.currRoute.length route
      (result.1, result.2 && runToConvergence)
    let currRoute ← doWhile body fuel placeholders.currRoute
    -- Write the result back, re-duplicating
    let result := currRoute.flatMap fun i =>
      (placeholders.placeholderLists i).map fun itemIndex => (itemVec.get itemIndex).item
    return (result, { title := name, names := result.map getNameCallback })

/-! ## The search keeps the items and shortens the route -/

theorem reverseBetween_perm (route : List ι) {i j : Nat} (hij : i ≤ j) :
    (reverseBetween route i j).Perm route := by
  have hmiddle : (route.drop i).take (j - i) ++ route.drop j = route.drop i := by
    have hdrop : route.drop j = (route.drop i).drop (j - i) := by
      rw [List.drop_drop, Nat.add_sub_cancel' hij]
    rw [hdrop, List.take_append_drop]
  have hparts : route.take i ++ ((route.drop i).take (j - i) ++ route.drop j) = route := by
    rw [hmiddle, List.take_append_drop]
  rw [reverseBetween, List.append_assoc]
  conv => rhs; rw [← hparts]
  apply List.Perm.append_left
  exact (List.reverse_perm _).append_right _

section Search

variable [Preorder D] [DecidableLT D] {distance : List ι → D}

/-- A route is a permutation of the one before, and progress shortens it. -/
structure Improves (distance : List ι → D) (route : List ι) (state : List ι × Bool) : Prop where
  perm : state.1.Perm route
  descends : Descends distance route state

theorem Improves.tryRoute {route : List ι} {state : List ι × Bool}
    (h : Improves distance route state) {i j : Nat} (hij : i ≤ j) :
    Improves distance route (tryRoute distance i state j) := by
  rw [Placement.tryRoute]
  split
  · next hlt =>
    exact ⟨(reverseBetween_perm state.1 hij).trans h.perm,
      h.descends.trans (.inr hlt) fun _ => .inr hlt⟩
  · exact h

theorem Improves.tryRoutesFrom {route : List ι} {state : List ι × Bool}
    (h : Improves distance route state) (routeSize i : Nat) :
    Improves distance route (tryRoutesFrom distance routeSize state i) := by
  have hloop : ∀ (js : List Nat), (∀ j ∈ js, i ≤ j) → ∀ state, Improves distance route state →
      Improves distance route (js.foldl (Placement.tryRoute distance i) state) := by
    intro js
    induction js with
    | nil => exact fun _ _ hstate => hstate
    | cons j js ih =>
        intro hjs state hstate
        rw [List.foldl_cons]
        apply ih (fun k hk => hjs k (List.mem_cons_of_mem _ hk))
        exact hstate.tryRoute (hjs j List.mem_cons_self)
  apply hloop _ _ state h
  intro j hj
  have := (List.mem_range'_1.mp hj).1
  omega

/-- One pass over all segments. -/
theorem pass_improves (distance : List ι → D) (routeSize : Nat) (route : List ι) :
    Improves distance route (pass distance routeSize route) := by
  rw [pass]
  apply List.foldlRecOn
  · exact ⟨.refl _, .refl _, nofun⟩
  · intro state hstate i _
    exact hstate.tryRoutesFrom routeSize i

end Search

end Kanagawa.Placement
