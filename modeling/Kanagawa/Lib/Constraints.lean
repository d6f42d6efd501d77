/-
  Kanagawa.Lib.Constraints

  Folding lower and upper bounds on an unknown element, keeping one bound at a
  time.  Two lower bounds are joined, of two upper bounds the lower is kept,
  and a lower bound replaces an upper bound above it.  What has been replaced
  is not looked at again, so the order of the bounds matters; the conditions
  under which it does not are on the bounds alone.
-/
import Mathlib

namespace Kanagawa.Lib.Constraints

/-- A bound on an unknown: the unknown is above or below the element. -/
inductive Constraint (α : Type) where
  | above (a : α)
  | below (a : α)

def Constraint.lower? {α : Type} : Constraint α → Option α
  | .above a => some a
  | .below _ => none

def Constraint.upper? {α : Type} : Constraint α → Option α
  | .above _ => none
  | .below a => some a

section Lists

variable {α : Type}

def lowers (l : List (Constraint α)) : List α := l.filterMap Constraint.lower?

def uppers (l : List (Constraint α)) : List α := l.filterMap Constraint.upper?

@[simp] theorem lowers_above (a : α) (l : List (Constraint α)) :
    lowers (.above a :: l) = a :: lowers l := rfl

@[simp] theorem lowers_below (a : α) (l : List (Constraint α)) :
    lowers (.below a :: l) = lowers l := rfl

@[simp] theorem uppers_above (a : α) (l : List (Constraint α)) :
    uppers (.above a :: l) = uppers l := rfl

@[simp] theorem uppers_below (a : α) (l : List (Constraint α)) :
    uppers (.below a :: l) = a :: uppers l := rfl

theorem mem_lowers {a : α} {l : List (Constraint α)} : a ∈ lowers l ↔ .above a ∈ l := by
  constructor
  · intro h
    obtain ⟨c, hc, hca⟩ := List.mem_filterMap.mp h
    cases c with
    | above b => cases hca; exact hc
    | below b => cases hca
  · exact fun h => List.mem_filterMap.mpr ⟨_, h, rfl⟩

theorem mem_uppers {a : α} {l : List (Constraint α)} : a ∈ uppers l ↔ .below a ∈ l := by
  constructor
  · intro h
    obtain ⟨c, hc, hca⟩ := List.mem_filterMap.mp h
    cases c with
    | above b => cases hca
    | below b => cases hca; exact hc
  · exact fun h => List.mem_filterMap.mpr ⟨_, h, rfl⟩

theorem lowers_perm {l l' : List (Constraint α)} (h : l.Perm l') : (lowers l).Perm (lowers l') :=
  h.filterMap _

theorem uppers_perm {l l' : List (Constraint α)} (h : l.Perm l') : (uppers l).Perm (uppers l') :=
  h.filterMap _

/-- The lower bounds can be listed first. -/
theorem perm_lowers_append_uppers (l : List (Constraint α)) :
    ((lowers l).map Constraint.above ++ (uppers l).map Constraint.below).Perm l := by
  induction l with
  | nil => exact .refl _
  | cons c l ih =>
      cases c with
      | above a => exact ih.cons _
      | below a => exact List.perm_middle.trans (ih.cons _)

@[simp] theorem lowers_map_append (as bs : List α) :
    lowers (as.map Constraint.above ++ bs.map Constraint.below) = as := by
  induction as with
  | nil =>
      induction bs with
      | nil => rfl
      | cons b bs ih => exact ih
  | cons a as ih => exact congrArg (a :: ·) ih

/-- Any element can be listed first. -/
theorem exists_perm_cons {a : α} {l : List α} (h : a ∈ l) : ∃ rest, (a :: rest).Perm l := by
  obtain ⟨l₁, l₂, rfl⟩ := List.append_of_mem h
  exact ⟨l₁ ++ l₂, List.perm_middle.symm⟩

/-- Two different elements can be listed first. -/
theorem exists_perm_cons_cons {a b : α} {l : List α} (ha : a ∈ l) (hb : b ∈ l) (hne : a ≠ b) :
    ∃ rest, (a :: b :: rest).Perm l := by
  obtain ⟨rest, hrest⟩ := exists_perm_cons ha
  have hb' : b ∈ rest :=
    (List.mem_cons.mp (hrest.mem_iff.mpr hb)).resolve_left (Ne.symm hne)
  obtain ⟨rest', hrest'⟩ := exists_perm_cons hb'
  exact ⟨rest', (hrest'.cons a).trans hrest⟩

end Lists

section Merge

variable {α : Type} [Preorder α] [DecidableLE α] (join : α → α → Option α)

/-- Merging a new bound with the one that has been kept. -/
def merge : Constraint α → Constraint α → Option (Constraint α)
  | .above x, .above y => (join x y).map .above
  | .below x, .above y => if y ≤ x then some (.above y) else none
  | .above x, .below y => if x ≤ y then some (.above x) else none
  | .below x, .below y =>
      if y ≤ x then some (.below y) else if x ≤ y then some (.below x) else none

/-- Merging the bounds of a list into the one that has been kept. -/
def collectFrom (c : Constraint α) (l : List (Constraint α)) : Option (Constraint α) :=
  l.foldlM (fun old new => merge join new old) c

def collect : List (Constraint α) → Option (Constraint α)
  | [] => none
  | c :: l => collectFrom join c l

def joinFrom (x : α) (l : List α) : Option α := l.foldlM (fun old new => join new old) x

def joinAll : List α → Option α
  | [] => none
  | x :: l => joinFrom join x l

@[simp] theorem collectFrom_nil (c : Constraint α) : collectFrom join c [] = some c := rfl

theorem collectFrom_cons (c d : Constraint α) (l : List (Constraint α)) :
    collectFrom join c (d :: l) = (merge join d c).bind (collectFrom join · l) := rfl

omit [Preorder α] [DecidableLE α] in
@[simp] theorem joinFrom_nil (x : α) : joinFrom join x [] = some x := rfl

omit [Preorder α] [DecidableLE α] in
theorem joinFrom_cons (x y : α) (l : List α) :
    joinFrom join x (y :: l) = (join y x).bind (joinFrom join · l) := rfl

variable {join}

/-- What two elements are joined to is their least upper bound. -/
def IsJoin {α : Type} [Preorder α] (join : α → α → Option α) : Prop :=
  ∀ x y z, join x y = some z → IsLUB {x, y} z

/-- Any two of the elements are comparable. -/
def Comparable {α : Type} [Preorder α] (l : List α) : Prop := ∀ s ∈ l, ∀ t ∈ l, s ≤ t ∨ t ≤ s

omit [DecidableLE α] in
theorem IsJoin.isLUB_joinFrom (hjoin : IsJoin join) {x z : α} {l : List α}
    (h : joinFrom join x l = some z) : IsLUB {a | a ∈ x :: l} z := by
  induction l generalizing x with
  | nil =>
      cases h
      simp
  | cons y l ih =>
      rw [joinFrom_cons, Option.bind_eq_some_iff] at h
      obtain ⟨w, hw, hz⟩ := h
      have hlub := ih hz
      have hyx := hjoin y x w hw
      have hwz : w ≤ z := hlub.1 List.mem_cons_self
      constructor
      · intro a ha
        rcases List.mem_cons.mp ha with rfl | ha
        · exact (hyx.1 (.inr rfl)).trans hwz
        rcases List.mem_cons.mp ha with rfl | ha
        · exact (hyx.1 (.inl rfl)).trans hwz
        · exact hlub.1 (List.mem_cons_of_mem _ ha)
      · intro u hu
        refine hlub.2 fun a ha => ?_
        rcases List.mem_cons.mp ha with rfl | ha
        · refine hyx.2 ?_
          rintro b (rfl | rfl)
          · exact hu (List.mem_cons_of_mem _ List.mem_cons_self)
          · exact hu List.mem_cons_self
        · exact hu (List.mem_cons_of_mem _ (List.mem_cons_of_mem _ ha))

omit [DecidableLE α] in
theorem IsJoin.isLUB_joinAll (hjoin : IsJoin join) {z : α} {l : List α}
    (h : joinAll join l = some z) : IsLUB {a | a ∈ l} z := by
  cases l with
  | nil => cases h
  | cons x l => exact hjoin.isLUB_joinFrom h

/-! ## Runs -/

/-- After a lower bound the other lower bounds are joined, if all are below the upper
    bounds. -/
theorem collectFrom_above (hjoin : IsJoin join) {x : α} {l : List (Constraint α)}
    (hx : ∀ t ∈ uppers l, x ≤ t) (hl : ∀ s ∈ lowers l, ∀ t ∈ uppers l, s ≤ t) :
    collectFrom join (.above x) l = (joinFrom join x (lowers l)).map .above := by
  induction l generalizing x with
  | nil => rfl
  | cons c l ih =>
      rw [collectFrom_cons]
      cases c with
      | above y =>
          rw [lowers_above, joinFrom_cons, merge]
          cases hw : join y x with
          | none => rfl
          | some w =>
              refine ih (fun t ht => ?_) fun s hs => hl s (List.mem_cons_of_mem _ hs)
              refine (hjoin y x w hw).2 ?_
              rintro b (rfl | rfl)
              · exact hl b List.mem_cons_self t ht
              · exact hx t ht
      | below t =>
          rw [merge, if_pos (hx t List.mem_cons_self)]
          exact ih (fun t ht => hx t (List.mem_cons_of_mem _ ht))
            fun s hs t ht => hl s hs t (List.mem_cons_of_mem _ ht)

/-- A run that does not fail after a lower bound has compared the bound with the upper
    bounds. -/
theorem of_collectFrom_above (hjoin : IsJoin join) {x : α} {l : List (Constraint α)}
    {r : Constraint α} (h : collectFrom join (.above x) l = some r) :
    (∃ z, joinFrom join x (lowers l) = some z ∧ r = .above z) ∧ ∀ t ∈ uppers l, x ≤ t := by
  induction l generalizing x with
  | nil =>
      cases h
      exact ⟨⟨x, rfl, rfl⟩, nofun⟩
  | cons c l ih =>
      rw [collectFrom_cons, Option.bind_eq_some_iff] at h
      obtain ⟨d, hd, hr⟩ := h
      cases c with
      | above y =>
          obtain ⟨w, hw, rfl⟩ := Option.map_eq_some_iff.mp hd
          obtain ⟨⟨z, hz, rfl⟩, hle⟩ := ih hr
          refine ⟨⟨z, ?_, rfl⟩, fun t ht => ?_⟩
          · rw [lowers_above, joinFrom_cons, hw]
            exact hz
          · exact ((hjoin y x w hw).1 (.inr rfl)).trans (hle t ht)
      | below t =>
          rw [merge] at hd
          split at hd
          · rename_i hxt
            cases hd
            obtain ⟨hz, hle⟩ := ih hr
            refine ⟨hz, fun u hu => ?_⟩
            rcases List.mem_cons.mp hu with rfl | hu
            · exact hxt
            · exact hle u hu
          · cases hd

/-- Of two upper bounds the lower is kept. -/
theorem merge_below {m t : α} {r : Constraint α} (h : merge join (.below t) (.below m) = some r) :
    ∃ m', r = .below m' ∧ (m' = m ∨ m' = t) ∧ m' ≤ m ∧ m' ≤ t := by
  rw [merge] at h
  split at h
  · cases h
    exact ⟨m, rfl, .inl rfl, le_rfl, by assumption⟩
  split at h
  · cases h
    exact ⟨t, rfl, .inr rfl, by assumption, le_rfl⟩
  · cases h

variable (join) in
theorem exists_merge_below {m t : α} (h : m ≤ t ∨ t ≤ m) :
    ∃ r, merge join (.below t) (.below m) = some r := by
  rw [merge]
  split
  · exact ⟨_, rfl⟩
  · rw [if_pos (h.resolve_left (by assumption))]
    exact ⟨_, rfl⟩

/-- From an upper bound on, comparable upper bounds leave the lowest, and the first
    lower bound replaces it. -/
theorem collectFrom_below (hjoin : IsJoin join) {m : α} {l : List (Constraint α)}
    (hcomp : Comparable (m :: uppers l)) (hl : ∀ s ∈ lowers l, ∀ t ∈ m :: uppers l, s ≤ t) :
    (lowers l = [] → ∃ r, collectFrom join (.below m) l = some r) ∧
    (lowers l ≠ [] → collectFrom join (.below m) l = (joinAll join (lowers l)).map .above) := by
  induction l generalizing m with
  | nil => exact ⟨fun _ => ⟨_, rfl⟩, fun h => absurd rfl h⟩
  | cons c l ih =>
      rw [collectFrom_cons]
      cases c with
      | above y =>
          refine ⟨nofun, fun _ => ?_⟩
          have hy := hl y List.mem_cons_self
          rw [merge, if_pos (hy m List.mem_cons_self)]
          exact collectFrom_above hjoin (fun t ht => hy t (List.mem_cons_of_mem _ ht))
            fun s hs t ht => hl s (List.mem_cons_of_mem _ hs) t (List.mem_cons_of_mem _ ht)
      | below t =>
          obtain ⟨r, hr⟩ := exists_merge_below join
            (hcomp m List.mem_cons_self t (List.mem_cons_of_mem _ List.mem_cons_self))
          obtain ⟨m', rfl, hm', -, -⟩ := merge_below hr
          have hsub : ∀ u ∈ m' :: uppers l, u ∈ m :: uppers (.below t :: l) := by
            intro u hu
            rw [uppers_below]
            rcases List.mem_cons.mp hu with rfl | hu
            · rcases hm' with rfl | rfl
              · exact List.mem_cons_self
              · exact List.mem_cons_of_mem _ List.mem_cons_self
            · exact List.mem_cons_of_mem _ (List.mem_cons_of_mem _ hu)
          rw [hr]
          exact ih (fun s hs u hu => hcomp s (hsub s hs) u (hsub u hu))
            fun s hs u hu => hl s hs u (hsub u hu)

/-- A run that does not fail after an upper bound has found the lowest upper bound, or
    a lower bound below all of them. -/
theorem of_collectFrom_below (hjoin : IsJoin join) {m : α} {l : List (Constraint α)}
    {r : Constraint α} (h : collectFrom join (.below m) l = some r) :
    (lowers l = [] ∧ ∃ k ∈ m :: uppers l, r = .below k ∧ ∀ t ∈ m :: uppers l, k ≤ t) ∨
    (∃ s ∈ lowers l, ∀ t ∈ m :: uppers l, s ≤ t) ∧
      ∃ z, joinAll join (lowers l) = some z ∧ r = .above z := by
  induction l generalizing m with
  | nil =>
      cases h
      refine .inl ⟨rfl, m, List.mem_cons_self, rfl, fun t ht => ?_⟩
      rw [List.mem_singleton.mp ht]
  | cons c l ih =>
      rw [collectFrom_cons, Option.bind_eq_some_iff] at h
      obtain ⟨d, hd, hr⟩ := h
      cases c with
      | above y =>
          rw [merge] at hd
          split at hd
          · rename_i hym
            cases hd
            obtain ⟨hz, hle⟩ := of_collectFrom_above hjoin hr
            refine .inr ⟨⟨y, List.mem_cons_self, fun t ht => ?_⟩, hz⟩
            rcases List.mem_cons.mp ht with rfl | ht
            · exact hym
            · exact hle t ht
          · cases hd
      | below t =>
          obtain ⟨m', rfl, hm', hmm, hmt⟩ := merge_below hd
          have hall : ∀ k, (∀ u ∈ m' :: uppers l, k ≤ u) →
              ∀ u ∈ m :: uppers (.below t :: l), k ≤ u := by
            intro k hk u hu
            have hkm := hk m' List.mem_cons_self
            rcases List.mem_cons.mp hu with rfl | hu
            · exact hkm.trans hmm
            rcases List.mem_cons.mp hu with rfl | hu
            · exact hkm.trans hmt
            · exact hk u (List.mem_cons_of_mem _ hu)
          rcases ih hr with ⟨hnil, k, hk, rfl, hmin⟩ | ⟨⟨s, hs, hmin⟩, hz⟩
          · refine .inl ⟨hnil, k, ?_, rfl, hall k hmin⟩
            rcases List.mem_cons.mp hk with rfl | hk
            · rcases hm' with rfl | rfl
              · exact List.mem_cons_self
              · exact List.mem_cons_of_mem _ List.mem_cons_self
            · exact List.mem_cons_of_mem _ (List.mem_cons_of_mem _ hk)
          · exact .inr ⟨⟨s, hs, hall s hmin⟩, hz⟩

/-- What a run that does not fail says of the bounds. -/
theorem of_collect (hjoin : IsJoin join) {l : List (Constraint α)} {r : Constraint α}
    (h : collect join l = some r) :
    (lowers l = [] ∧ ∃ k ∈ uppers l, r = .below k ∧ ∀ t ∈ uppers l, k ≤ t) ∨
    (∃ s ∈ lowers l, ∀ t ∈ uppers l, s ≤ t) ∧
      ∃ z, joinAll join (lowers l) = some z ∧ r = .above z := by
  cases l with
  | nil => cases h
  | cons c l =>
      cases c with
      | above x =>
          obtain ⟨hz, hle⟩ := of_collectFrom_above hjoin h
          exact .inr ⟨⟨x, List.mem_cons_self, hle⟩, hz⟩
      | below m => exact of_collectFrom_below hjoin h

/-- Bounds that agree give the join of the lower bounds in any order. -/
theorem collect_eq_joinAll (hjoin : IsJoin join) {l : List (Constraint α)}
    (hcomp : Comparable (uppers l)) (hle : ∀ s ∈ lowers l, ∀ t ∈ uppers l, s ≤ t)
    (hne : lowers l ≠ []) : collect join l = (joinAll join (lowers l)).map .above := by
  cases l with
  | nil => exact absurd rfl hne
  | cons c l =>
      cases c with
      | above x =>
          exact collectFrom_above hjoin (hle x List.mem_cons_self)
            fun s hs => hle s (List.mem_cons_of_mem _ hs)
      | below m => exact (collectFrom_below hjoin hcomp hle).2 hne

/-- Upper bounds that are above what is kept change nothing. -/
theorem collectFrom_uppers {c : Constraint α} {ts : List α} (l : List (Constraint α))
    (h : ∀ t ∈ ts, merge join (.below t) c = some c) :
    collectFrom join c (ts.map Constraint.below ++ l) = collectFrom join c l := by
  induction ts with
  | nil => rfl
  | cons t ts ih =>
      rw [List.map_cons, List.cons_append, collectFrom_cons, h t List.mem_cons_self]
      exact ih fun t ht => h t (List.mem_cons_of_mem _ ht)

/-! ## Orders -/

/-- The element a bound is about. -/
def Constraint.element : Constraint α → α
  | .above a | .below a => a

variable (join)

/-- In every order the bounds cannot be merged, or in every order they give one bound,
    whose element satisfies all of them. -/
def SameInEveryOrder (l : List (Constraint α)) : Prop :=
  (∀ l', l'.Perm l → collect join l' = none) ∨
  ∃ r, (∀ l', l'.Perm l → collect join l' = some r) ∧
    (∀ s ∈ lowers l, s ≤ r.element) ∧ ∀ t ∈ uppers l, r.element ≤ t

def JoinsInEveryOrder (l : List α) : Prop := ∃ z, ∀ l', l'.Perm l → joinAll join l' = some z

def JoinsInSomeOrder (l : List α) : Prop := ∃ l', l'.Perm l ∧ ∃ z, joinAll join l' = some z

omit [Preorder α] [DecidableLE α] in
theorem JoinsInSomeOrder.ne_nil {l : List α} (h : JoinsInSomeOrder join l) : l ≠ [] := by
  obtain ⟨l', hl', z, hz⟩ := h
  rintro rfl
  rw [List.Perm.eq_nil hl'] at hz
  cases hz

def Lowest {α : Type} [Preorder α] (l : List α) (m : α) : Prop := m ∈ l ∧ ∀ t ∈ l, m ≤ t

/-- The bounds agree: every lower bound is below every upper bound, the lower bounds
    have one join in every order, and the upper bounds form a chain, with one lowest
    element where that is what is kept. -/
structure Agree (l : List (Constraint α)) : Prop where
  le : ∀ s ∈ lowers l, ∀ t ∈ uppers l, s ≤ t
  chain : Comparable (uppers l)
  joins : lowers l ≠ [] → JoinsInEveryOrder join (lowers l)
  lowest : lowers l = [] → ∀ m m', Lowest (uppers l) m → Lowest (uppers l) m' → m = m'

/-- The bounds clash: no order of the lower bounds has a join, or no lower bound is
    below all upper bounds; and without lower bounds there is no lowest upper bound. -/
structure Clash (l : List (Constraint α)) : Prop where
  joins : JoinsInSomeOrder join (lowers l) → ¬ ∃ s ∈ lowers l, ∀ t ∈ uppers l, s ≤ t
  lowest : lowers l = [] → ¬ ∃ m, Lowest (uppers l) m

variable {join}

/-- The lowest upper bound, first in the list, is kept. -/
theorem exists_collect_below {l : List (Constraint α)} (hnil : lowers l = []) {m : α}
    (hm : Lowest (uppers l) m) : ∃ l', l'.Perm l ∧ collect join l' = some (.below m) := by
  obtain ⟨rest, hperm⟩ := exists_perm_cons hm.1
  have hall := perm_lowers_append_uppers l
  rw [hnil, List.map_nil, List.nil_append] at hall
  refine ⟨.below m :: rest.map Constraint.below, (hperm.map Constraint.below).trans hall, ?_⟩
  have hkeep : ∀ t ∈ rest, merge join (.below t) (.below m) = some (.below m) :=
    fun t ht => if_pos (hm.2 t (hperm.mem_iff.mp (List.mem_cons_of_mem _ ht)))
  have := collectFrom_uppers [] hkeep
  rwa [List.append_nil] at this

/-- A lower bound that is first, followed by the upper bounds it is below, is compared
    with nothing else. -/
theorem exists_collect_above (hjoin : IsJoin join) {l : List (Constraint α)} {s : α}
    {ss : List α} (hss : (s :: ss).Perm (lowers l)) (hle : ∀ t ∈ uppers l, s ≤ t) {z : α}
    (hz : joinFrom join s ss = some z) : ∃ l', l'.Perm l ∧ collect join l' = some (.above z) := by
  refine ⟨.above s :: ((uppers l).map Constraint.below ++ ss.map Constraint.above), ?_, ?_⟩
  · have hcomm : ((uppers l).map Constraint.below ++ ss.map Constraint.above).Perm
        (ss.map Constraint.above ++ (uppers l).map Constraint.below) := List.perm_append_comm
    exact ((hcomm.cons (.above s)).trans
      ((hss.map Constraint.above).append_right _)).trans (perm_lowers_append_uppers l)
  · have hlowers : lowers (ss.map Constraint.above) = ss := by
      have := lowers_map_append ss []
      rwa [List.map_nil, List.append_nil] at this
    have huppers : ∀ t, t ∉ uppers (ss.map Constraint.above) := by
      intro t ht
      obtain ⟨s, -, hs⟩ := List.mem_map.mp (mem_uppers.mp ht)
      cases hs
    have hkeep : ∀ t ∈ uppers l, merge join (.below t) (.above s) = some (.above s) :=
      fun t ht => if_pos (hle t ht)
    rw [collect, collectFrom_uppers _ hkeep, collectFrom_above hjoin
      (fun t ht => absurd ht (huppers t)) (fun s _ t ht => absurd ht (huppers t)), hlowers, hz]
    rfl

/-- Two bounds that come first are merged. -/
theorem merge_of_collect {c d : Constraint α} {rest : List (Constraint α)} {r : Constraint α}
    (h : collect join (c :: d :: rest) = some r) : ∃ e, merge join d c = some e := by
  rw [collect, collectFrom_cons, Option.bind_eq_some_iff] at h
  obtain ⟨e, he, -⟩ := h
  exact ⟨e, he⟩

theorem agree_of_collect (hjoin : IsJoin join) {l : List (Constraint α)} {r : Constraint α}
    (h : ∀ l', l'.Perm l → collect join l' = some r) : Agree join l where
  le s hs t ht := by
    obtain ⟨rest, hrest⟩ := exists_perm_cons_cons (mem_uppers.mp ht) (mem_lowers.mp hs) nofun
    obtain ⟨e, he⟩ := merge_of_collect (h _ hrest)
    rw [merge] at he
    split at he
    · assumption
    · cases he
  chain s hs t ht := by
    by_cases heq : s = t
    · exact .inl heq.le
    obtain ⟨rest, hrest⟩ := exists_perm_cons_cons (mem_uppers.mp hs) (mem_uppers.mp ht)
      (by rintro ⟨⟩; exact heq rfl)
    obtain ⟨e, he⟩ := merge_of_collect (h _ hrest)
    obtain ⟨k, -, rfl | rfl, hks, hkt⟩ := merge_below he
    · exact .inl hkt
    · exact .inr hks
  joins hne := by
    have hjoins : ∀ ss, ss.Perm (lowers l) → ∃ z, joinAll join ss = some z ∧ r = .above z := by
      intro ss hss
      have hrun := h _ (((hss.map Constraint.above).append_right _).trans
        (perm_lowers_append_uppers l))
      rcases of_collect hjoin hrun with ⟨hnil, -⟩ | ⟨-, hz⟩
      · rw [lowers_map_append] at hnil
        rw [hnil] at hss
        exact absurd (List.Perm.nil_eq hss).symm hne
      · rwa [lowers_map_append] at hz
    obtain ⟨z, -, hz⟩ := hjoins _ (.refl _)
    refine ⟨z, fun ss hss => ?_⟩
    obtain ⟨z', hz', heq⟩ := hjoins ss hss
    rw [hz] at heq
    cases heq
    exact hz'
  lowest hnil m m' hm hm' := by
    obtain ⟨l₁, hl₁, h₁⟩ := @exists_collect_below _ _ _ join _ hnil _ hm
    obtain ⟨l₂, hl₂, h₂⟩ := @exists_collect_below _ _ _ join _ hnil _ hm'
    rw [h l₁ hl₁] at h₁
    rw [h l₂ hl₂, h₁] at h₂
    cases h₂
    rfl

omit [DecidableLE α] in
theorem Agree.perm {l l' : List (Constraint α)} (h : Agree join l) (hl : l'.Perm l) :
    (∀ s ∈ lowers l', ∀ t ∈ uppers l', s ≤ t) ∧ Comparable (uppers l') := by
  have hs := fun s => (lowers_perm hl).mem_iff (a := s)
  have ht := fun t => (uppers_perm hl).mem_iff (a := t)
  exact ⟨fun s hs' t ht' => h.le s ((hs s).mp hs') t ((ht t).mp ht'),
    fun t ht' u hu => h.chain t ((ht t).mp ht') u ((ht u).mp hu)⟩

theorem Agree.sameInEveryOrder (hjoin : IsJoin join) {l : List (Constraint α)}
    (h : Agree join l) : SameInEveryOrder join l := by
  by_cases hne : lowers l = []
  · have hrun : ∀ l', l'.Perm l → l ≠ [] →
        ∃ k, collect join l' = some (.below k) ∧ Lowest (uppers l) k := by
      intro l' hl hl'
      have hnil : lowers l' = [] := List.Perm.eq_nil (hne ▸ lowers_perm hl)
      obtain ⟨r, hr⟩ : ∃ r, collect join l' = some r := by
        cases l' with
        | nil => exact absurd (List.Perm.nil_eq hl).symm hl'
        | cons c l' =>
            cases c with
            | above x => cases hnil
            | below m =>
                have hag := h.perm hl
                exact (collectFrom_below hjoin hag.2 hag.1).1 hnil
      rcases of_collect hjoin hr with ⟨-, k, hk, rfl, hmin⟩ | ⟨⟨s, hs, -⟩, -⟩
      · have ht := fun t => (uppers_perm hl).mem_iff (a := t)
        exact ⟨k, hr, (ht k).mp hk, fun t ht' => hmin t ((ht t).mpr ht')⟩
      · rw [hnil] at hs
        cases hs
    by_cases hl : l = []
    · subst hl
      refine .inl fun l' hl' => ?_
      rw [List.Perm.eq_nil hl']
      rfl
    obtain ⟨k, -, hk⟩ := hrun l (.refl _) hl
    refine .inr ⟨.below k, fun l' hl' => ?_, ?_, hk.2⟩
    · obtain ⟨k', hr, hk'⟩ := hrun l' hl' hl
      rw [hr, h.lowest hne k k' hk hk']
    · rw [hne]
      exact nofun
  · obtain ⟨z, hz⟩ := h.joins hne
    have hlub := hjoin.isLUB_joinAll (hz _ (.refl _))
    refine .inr ⟨.above z, fun l' hl' => ?_, fun s hs => hlub.1 hs,
      fun t ht => hlub.2 fun s hs => h.le s hs t ht⟩
    have hne' : lowers l' ≠ [] := fun hnil =>
      hne (List.Perm.nil_eq (hnil ▸ lowers_perm hl')).symm
    have hag := h.perm hl'
    rw [collect_eq_joinAll hjoin hag.2 hag.1 hne', hz _ (lowers_perm hl')]
    rfl

theorem Clash.collect_eq_none (hjoin : IsJoin join) {l l' : List (Constraint α)}
    (h : Clash join l) (hl : l'.Perm l) : collect join l' = none := by
  have hs := fun s => (lowers_perm hl).mem_iff (a := s)
  have ht := fun t => (uppers_perm hl).mem_iff (a := t)
  cases hr : collect join l' with
  | none => rfl
  | some r =>
      exfalso
      rcases of_collect hjoin hr with ⟨hnil, k, hk, -, hmin⟩ | ⟨⟨s, hs', hmin⟩, z, hz, -⟩
      · exact h.lowest (List.Perm.nil_eq (hnil ▸ lowers_perm hl)).symm
          ⟨k, (ht k).mp hk, fun t ht' => hmin t ((ht t).mpr ht')⟩
      · exact h.joins ⟨_, lowers_perm hl, z, hz⟩
          ⟨s, (hs s).mp hs', fun t ht' => hmin t ((ht t).mpr ht')⟩

/-- The order of the bounds makes no difference exactly if they agree or clash, where
    lower bounds that have a join in some order have one with any of them first. -/
theorem sameInEveryOrder_iff (hjoin : IsJoin join)
    (hfirst : ∀ l s, s ∈ l → JoinsInSomeOrder join l →
      ∃ l', (s :: l').Perm l ∧ ∃ z, joinFrom join s l' = some z)
    (l : List (Constraint α)) : SameInEveryOrder join l ↔ Agree join l ∨ Clash join l := by
  constructor
  · rintro (hnone | ⟨r, hr, -⟩)
    · refine .inr ⟨fun hsome => ?_, fun hnil => ?_⟩
      · rintro ⟨s, hs, hle⟩
        obtain ⟨ss, hss, z, hz⟩ := hfirst _ s hs hsome
        obtain ⟨l', hl', hrun⟩ := exists_collect_above hjoin hss hle hz
        rw [hnone l' hl'] at hrun
        cases hrun
      · rintro ⟨m, hm⟩
        obtain ⟨l', hl', hrun⟩ := @exists_collect_below _ _ _ join _ hnil _ hm
        rw [hnone l' hl'] at hrun
        cases hrun
    · exact .inl (agree_of_collect hjoin hr)
  · rintro (hag | hclash)
    · exact hag.sameInEveryOrder hjoin
    · exact .inl fun l' hl' => hclash.collect_eq_none hjoin hl'

end Merge

end Kanagawa.Lib.Constraints
