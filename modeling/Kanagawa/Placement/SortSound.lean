/-
  Kanagawa.Placement.SortSound

  Sorting by position keeps the items and never lengthens the route.

  `Dedups` says what the maps and the route hold for the items seen so far: the
  route has the positions in the order of their first occurrence, and the list of
  a placeholder has the items at its position in their order.  The search
  permutes the route, and replacing each placeholder by its list gives the items
  grouped by position.
-/
import Kanagawa.Placement.Sort

namespace Kanagawa.Placement

open Lib.LocalSearch

variable {T P D ι : Type}

/-! ## Groups -/

section Groups

variable [DecidableEq P]

theorem eraseDups_append_singleton (l : List P) (a : P) :
    (l ++ [a]).eraseDups = l.eraseDups ++ if a ∈ l then [] else [a] := by
  rw [List.eraseDups_append]
  congr 1
  by_cases ha : a ∈ l
  · simp [List.removeAll, ha]
  · simp [List.removeAll, ha, List.eraseDups_cons]

theorem nodup_eraseDups (l : List P) : l.eraseDups.Nodup := by
  induction l using List.reverseRecOn with
  | nil => exact List.nodup_nil
  | append_singleton l a ih =>
      rw [eraseDups_append_singleton]
      split
      · rwa [List.append_nil]
      · next ha =>
        rw [List.nodup_append_comm]
        exact List.nodup_cons.mpr ⟨fun h => ha (List.mem_eraseDups.mp h), ih⟩

/-- The items at each of the positions. -/
def groups (f : ι → P) (l : List ι) (ps : List P) : List ι :=
  ps.flatMap fun p => l.filter fun t => f t = p

theorem groups_perm (f : ι → P) (l : List ι) {ps : List P} (hps : ps.Nodup) :
    (groups f l ps).Perm (l.filter fun t => f t ∈ ps) := by
  induction ps with
  | nil => simp [groups]
  | cons p ps ih =>
      have hnodup := List.nodup_cons.mp hps
      have hsplit := List.filter_append_perm (fun t => f t = p) (l.filter fun t => f t ∈ p :: ps)
      rw [List.filter_filter, List.filter_filter] at hsplit
      have hhead : l.filter (fun t => decide (f t = p) && decide (f t ∈ p :: ps))
          = l.filter fun t => f t = p := by
        apply List.filter_congr
        intro t _
        by_cases ht : f t = p <;> simp [ht]
      have htail : l.filter (fun t => (!decide (f t = p)) && decide (f t ∈ p :: ps))
          = l.filter fun t => f t ∈ ps := by
        apply List.filter_congr
        intro t _
        by_cases ht : f t = p
        · simp [ht, hnodup.1]
        · simp [ht]
      rw [hhead, htail] at hsplit
      apply List.Perm.trans _ hsplit
      exact (ih hnodup.2).append_left _

/-- Each group is in one piece. -/
theorem groups_piece (f : ι → P) (l : List ι) {ps : List P} (hps : ps.Nodup) (p : P)
    (hcover : ∀ t ∈ l, f t ∈ ps) :
    ∃ before after, groups f l ps = before ++ l.filter (fun t => f t = p) ++ after ∧
      ∀ t ∈ before ++ after, f t ≠ p := by
  have hother : ∀ qs : List P, p ∉ qs → ∀ t ∈ groups f l qs, f t ≠ p := by
    intro qs hqs t ht heq
    obtain ⟨q, hq, hmem⟩ := List.mem_flatMap.mp ht
    have hfq := of_decide_eq_true (List.mem_filter.mp hmem).2
    rw [← hfq, heq] at hq
    exact hqs hq
  by_cases hp : p ∈ ps
  · obtain ⟨qs, rs, rfl⟩ := List.append_of_mem hp
    have hnodup := (List.nodup_middle.mp hps)
    have hnot := (List.nodup_cons.mp hnodup).1
    refine ⟨groups f l qs, groups f l rs, ?_, ?_⟩
    · simp only [groups, List.flatMap_append, List.flatMap_cons, List.append_assoc]
    · intro t ht
      rcases List.mem_append.mp ht with ht | ht
      · exact hother qs (fun h => hnot (List.mem_append_left _ h)) t ht
      · exact hother rs (fun h => hnot (List.mem_append_right _ h)) t ht
  · have hnone : l.filter (fun t => f t = p) = [] := by
      rw [List.filter_eq_nil_iff]
      intro t ht heq
      rw [decide_eq_true_iff] at heq
      exact hp (heq ▸ hcover t ht)
    refine ⟨groups f l ps, [], ?_, ?_⟩
    · rw [hnone, List.append_nil, List.append_nil]
    · rw [List.append_nil]
      exact hother ps hp

theorem eraseDups_replicate_append (p : P) {k : Nat} (hk : 0 < k) (l : List P) (hp : p ∉ l) :
    (List.replicate k p ++ l).eraseDups = p :: l.eraseDups := by
  obtain ⟨k, rfl⟩ : ∃ m, k = m + 1 := ⟨k - 1, by omega⟩
  rw [List.replicate_succ, List.cons_append, List.eraseDups_cons]
  congr 1
  have hfilter : (List.replicate k p ++ l).filter (fun b => !b == p) = l := by
    rw [List.filter_append]
    have hnone : (List.replicate k p).filter (fun b => !b == p) = [] := by
      rw [List.filter_eq_nil_iff]
      intro b hb
      simp [List.eq_of_mem_replicate hb]
    have hall : l.filter (fun b => !b == p) = l := by
      rw [List.filter_eq_self]
      intro b hb
      have hne : b ≠ p := fun h => hp (h ▸ hb)
      simp [hne]
    rw [hnone, hall, List.nil_append]
  rw [hfilter]

/-- The route over the distinct positions of the groups. -/
theorem groups_eraseDups (f : ι → P) (l : List ι) {ps : List P} (hps : ps.Nodup)
    (hsome : ∀ p ∈ ps, p ∈ l.map f) : ((groups f l ps).map f).eraseDups = ps := by
  induction ps with
  | nil => rfl
  | cons p ps ih =>
      have hnodup := List.nodup_cons.mp hps
      have hgroup : (l.filter fun t => f t = p).map f
          = List.replicate (l.filter fun t => f t = p).length p := by
        rw [List.eq_replicate_iff]
        refine ⟨List.length_map _, ?_⟩
        intro q hq
        obtain ⟨t, ht, rfl⟩ := List.mem_map.mp hq
        exact of_decide_eq_true (List.mem_filter.mp ht).2
      have hpos : 0 < (l.filter fun t => f t = p).length := by
        obtain ⟨t, ht, heq⟩ := List.mem_map.mp (hsome p List.mem_cons_self)
        exact List.length_pos_of_mem (List.mem_filter.mpr ⟨ht, decide_eq_true heq⟩)
      have hnot : p ∉ (groups f l ps).map f := by
        intro hp
        obtain ⟨t, ht, heq⟩ := List.mem_map.mp hp
        have hmem := (groups_perm f l hnodup.2).mem_iff.mp ht
        have hfp := of_decide_eq_true (List.mem_filter.mp hmem).2
        exact hnodup.1 (heq ▸ hfp)
      have hcons : (groups f l (p :: ps)).map f
          = List.replicate (l.filter fun t => f t = p).length p ++ (groups f l ps).map f := by
        rw [← hgroup, ← List.map_append]
        rfl
      rw [hcons, eraseDups_replicate_append p hpos _ hnot,
        ih hnodup.2 fun q hq => hsome q (List.mem_cons_of_mem _ hq)]

end Groups

/-! ## Deduplication -/

section Deduplicate

variable [DecidableEq P] {n : Nat} {position : Fin n → P}

/-- What the maps and the route hold once the items `seen` have been added. -/
structure Dedups (position : Fin n → P) (seen : List (Fin n)) (acc : Placeholders P n) : Prop where
  mem : ∀ i ∈ acc.currRoute, i ∈ seen
  route : acc.currRoute.map position = (seen.map position).eraseDups
  lookup : ∀ p, acc.placeholderMap.lookup p = acc.currRoute.find? fun i => position i = p
  lists : ∀ i ∈ acc.currRoute,
    acc.placeholderLists i = seen.filter fun k => position k = position i
  unused : ∀ i, i ∉ acc.currRoute → acc.placeholderLists i = []

theorem Dedups.addItem {seen : List (Fin n)} {acc : Placeholders P n}
    (h : Dedups position seen acc) {i : Fin n} (hi : i ∉ seen) :
    Dedups position (seen ++ [i]) (addItem position acc i) := by
  have hnew : i ∉ acc.currRoute := fun hmem => hi (h.mem i hmem)
  have hnodup : (acc.currRoute.map position).Nodup := by
    rw [h.route]
    exact nodup_eraseDups _
  have hroute : ∀ p, p ∈ acc.currRoute.map position ↔ p ∈ seen.map position := by
    intro p
    rw [h.route, List.mem_eraseDups]
  have hmap : (seen ++ [i]).map position = seen.map position ++ [position i] := by
    rw [List.map_append, List.map_singleton]
  rw [Placement.addItem]
  split
  · next hlookup =>
    -- The first item at its position
    rw [h.lookup, List.find?_eq_none] at hlookup
    have hfirst : position i ∉ acc.currRoute.map position := by
      intro hp
      obtain ⟨k, hk, heq⟩ := List.mem_map.mp hp
      exact hlookup k hk (decide_eq_true heq)
    have hfirst' : position i ∉ seen.map position := fun hp => hfirst ((hroute _).mpr hp)
    refine ⟨?_, ?_, ?_, ?_, ?_⟩
    · intro k hk
      rcases List.mem_append.mp hk with hk | hk
      · exact List.mem_append_left _ (h.mem k hk)
      · exact List.mem_append_right _ hk
    · rw [hmap, eraseDups_append_singleton, if_neg hfirst', ← h.route, List.map_append,
        List.map_singleton]
    · intro p
      rw [List.lookup_cons, List.find?_append, List.find?_singleton, ← h.lookup]
      by_cases hp : p = position i
      · have hnone : acc.placeholderMap.lookup (position i) = none := by
          rw [h.lookup, List.find?_eq_none]
          exact hlookup
        rw [hp, hnone]
        simp
      · have hne : position i ≠ p := fun heq => hp heq.symm
        have hbeq : (p == position i) = false := by simpa using hp
        rw [hbeq]
        simp [hne]
    · intro k hk
      show Function.update acc.placeholderLists i (acc.placeholderLists i ++ [i]) k = _
      rw [List.filter_append]
      rcases List.mem_append.mp hk with hk | hk
      · have hki : k ≠ i := fun heq => hnew (heq ▸ hk)
        have hne : position i ≠ position k := fun heq =>
          hfirst (heq ▸ List.mem_map_of_mem hk)
        rw [Function.update_of_ne hki, h.lists k hk]
        simp [hne]
      · rw [List.mem_singleton] at hk
        subst hk
        have hnone : seen.filter (fun j => position j = position k) = [] := by
          rw [List.filter_eq_nil_iff]
          intro j hj heq
          rw [decide_eq_true_iff] at heq
          exact hfirst' (heq ▸ List.mem_map_of_mem hj)
        rw [Function.update_self, h.unused k hnew, hnone]
        simp
    · intro k hk
      rw [List.mem_append, not_or, List.mem_singleton] at hk
      show Function.update acc.placeholderLists i (acc.placeholderLists i ++ [i]) k = _
      rw [Function.update_of_ne hk.2]
      exact h.unused k hk.1
  · next placeholderIndex hlookup =>
    -- There is a placeholder
    rw [h.lookup] at hlookup
    have hmem := List.mem_of_find?_eq_some hlookup
    have hpos : position placeholderIndex = position i := by
      have hfound := List.find?_some hlookup
      exact of_decide_eq_true hfound
    have hseen : position i ∈ seen.map position := by
      rw [← hroute, ← hpos]
      exact List.mem_map_of_mem hmem
    refine ⟨?_, ?_, h.lookup, ?_, ?_⟩
    · intro k hk
      exact List.mem_append_left _ (h.mem k hk)
    · rw [hmap, eraseDups_append_singleton, if_pos hseen, List.append_nil]
      exact h.route
    · intro k hk
      show Function.update acc.placeholderLists placeholderIndex _ k = _
      rw [List.filter_append]
      by_cases hk' : k = placeholderIndex
      · rw [hk', Function.update_self, h.lists _ hmem]
        simp [hpos]
      · have hne : position i ≠ position k := by
          intro heq
          exact hk' (List.inj_on_of_nodup_map hnodup hk hmem (heq.symm.trans hpos.symm))
        rw [Function.update_of_ne hk', h.lists k hk]
        simp [hne]
    · intro k hk
      have hne : k ≠ placeholderIndex := fun heq => hk (heq ▸ hmem)
      show Function.update acc.placeholderLists placeholderIndex _ k = _
      rw [Function.update_of_ne hne]
      exact h.unused k hk

/-- All items. -/
theorem deduplicate_dedups (position : Fin n → P) :
    Dedups position (List.finRange n) (deduplicate position) := by
  have hloop : ∀ (todo seen : List (Fin n)) (acc : Placeholders P n), (seen ++ todo).Nodup →
      Dedups position seen acc →
      Dedups position (seen ++ todo) (todo.foldl (addItem position) acc) := by
    intro todo
    induction todo with
    | nil =>
        intro seen acc _ h
        rwa [List.append_nil]
    | cons i todo ih =>
        intro seen acc hnodup h
        have hi : i ∉ seen := fun hmem =>
          (List.nodup_cons.mp (List.nodup_middle.mp hnodup)).1 (List.mem_append_left _ hmem)
        have happend : seen ++ i :: todo = (seen ++ [i]) ++ todo := by simp
        rw [happend] at hnodup ⊢
        exact ih (seen ++ [i]) _ hnodup (h.addItem hi)
  have hempty : Dedups position [] (⟨[], fun _ => [], []⟩ : Placeholders P n) :=
    ⟨nofun, rfl, fun _ => rfl, nofun, fun _ _ => rfl⟩
  exact hloop (List.finRange n) [] _ (List.nodup_finRange n) hempty

end Deduplicate

/-! ## The result -/

theorem getTotalDistance_map [Zero D] [Add D] (length : P → P → D) (route : List ι)
    (getPosition : ι → P) :
    getTotalDistance length route getPosition
      = getTotalDistance length (route.map getPosition) fun pos => pos := by
  rw [getTotalDistance, getTotalDistance, List.foldl_map]

/-- The route over the distinct positions of a list, in the order of their first occurrence. -/
def distinctDistance [DecidableEq P] [Zero D] [Add D] (length : P → P → D) (list : List T)
    (getPosition : T → P) : D :=
  getTotalDistance length (list.map getPosition).eraseDups fun pos => pos

/-- The list of items, with positions and names, gives the items back. -/
theorem groups_itemVec [DecidableEq P] (itemVec : List (ItemRecord T P)) (p : P) :
    ((List.finRange itemVec.length).filter fun k => (itemVec.get k).position = p).map
        (fun k => (itemVec.get k).item)
      = (itemVec.filter fun r => r.position = p).map fun r => r.item := by
  have hall : (List.finRange itemVec.length).map itemVec.get = itemVec :=
    List.map_get_finRange itemVec
  conv => rhs; rw [← hall]
  rw [List.filter_map, List.map_map]
  rfl

/-- The search ends with a permutation of the route that is not longer. -/
theorem search_ends [Preorder D] [DecidableLT D] (distance : List ι → D) [DecidableEq ι] (routeSize : Nat) (route : List ι)
    (runToConvergence : Bool) :
    ∃ bound, ∀ fuel, bound < fuel → ∃ currRoute,
      doWhile (fun route =>
          let result := pass distance routeSize route
          (result.1, result.2 && runToConvergence)) fuel route = some currRoute ∧
        currRoute.Perm route ∧ distance currRoute ≤ distance route := by
  refine ⟨route.permutations.toFinset.card, fun fuel hfuel => ?_⟩
  have hmem : ∀ l, l ∈ route.permutations.toFinset ↔ l.Perm route := fun l => by
    rw [List.mem_toFinset, List.mem_permutations]
  obtain ⟨currRoute, hloop, hperm, hcheaper⟩ := @doWhile_ends _ _ _ distance
    (fun route =>
      let result := pass distance routeSize route
      (result.1, result.2 && runToConvergence)) route.permutations.toFinset
    (fun l hl => by
      rw [hmem] at hl ⊢
      exact (pass_improves distance routeSize l).perm.trans hl)
    (fun l _ => by
      have hpass := (pass_improves distance routeSize l).descends
      refine ⟨hpass.cheaper, fun hflag => hpass.progress ?_⟩
      exact (Bool.and_eq_true_iff.mp hflag).1)
    route ((hmem route).mpr (List.Perm.refl _)) fuel hfuel
  exact ⟨currRoute, hloop, (hmem _).mp hperm, hcheaper.le⟩

section Result

variable [DecidableEq P]

/-- Replacing each placeholder by its list gives the items grouped by position. -/
theorem reduplicate_eq_groups (routeInOut : List T) (getPositionCallback : T → P)
    (getNameCallback : T → String) {itemVec : List (ItemRecord T P)}
    (hitems : itemVec = routeInOut.map fun item =>
      ItemRecord.mk item (getPositionCallback item) (getNameCallback item))
    {currRoute : List (Fin itemVec.length)}
    (hperm : currRoute.Perm (deduplicate fun i => (itemVec.get i).position).currRoute) :
    (currRoute.flatMap fun i =>
        ((deduplicate fun i => (itemVec.get i).position).placeholderLists i).map
          fun itemIndex => (itemVec.get itemIndex).item)
      = groups getPositionCallback routeInOut
          (currRoute.map fun i => (itemVec.get i).position) := by
  have hdedups := deduplicate_dedups fun i => (itemVec.get i).position
  rw [groups, List.flatMap_map]
  apply List.flatMap_congr
  intro i hi
  rw [hdedups.lists i (hperm.mem_iff.mp hi), groups_itemVec]
  generalize (itemVec.get i).position = p
  rw [hitems, List.filter_map, List.map_map]
  exact List.map_id _

/-- The positions of the route are those of the items. -/
theorem positions_perm (routeInOut : List T) (getPositionCallback : T → P)
    (getNameCallback : T → String) {itemVec : List (ItemRecord T P)}
    (hitems : itemVec = routeInOut.map fun item =>
      ItemRecord.mk item (getPositionCallback item) (getNameCallback item)) :
    (deduplicate fun i => (itemVec.get i).position).currRoute.map (fun i => (itemVec.get i).position)
      = (routeInOut.map getPositionCallback).eraseDups := by
  rw [(deduplicate_dedups fun i => (itemVec.get i).position).route]
  have hall : (List.finRange itemVec.length).map itemVec.get = itemVec :=
    List.map_get_finRange itemVec
  have hmap : (List.finRange itemVec.length).map (fun i => (itemVec.get i).position)
      = itemVec.map fun r => r.position := by
    conv => rhs; rw [← hall]
    rw [List.map_map]
    rfl
  rw [hmap, hitems, List.map_map]
  rfl

/-- `Sort` ends in both modes.  Its result is a permutation of the input in which the items at a
    position are in one piece and in their input order, and the route over the distinct positions
    is not longer than before. -/
theorem sort_keeps_items [Zero D] [Add D] [Preorder D] [DecidableLT D] (length : P → P → D) (routeInOut : List T) (getPositionCallback : T → P)
    (getNameCallback : T → String) (name : String) (runToConvergence : Bool) :
    ∃ bound, ∀ fuel, bound < fuel → ∃ result record,
      sort length routeInOut getPositionCallback getNameCallback name runToConvergence fuel
        = some (result, record) ∧
      result.Perm routeInOut ∧
      (∀ p, ∃ before after,
        result = before ++ routeInOut.filter (fun t => getPositionCallback t = p) ++ after ∧
          ∀ t ∈ before ++ after, getPositionCallback t ≠ p) ∧
      distinctDistance length result getPositionCallback
        ≤ distinctDistance length routeInOut getPositionCallback := by
  by_cases hshort : routeInOut.length < 2
  · -- A list of at most one item is left as it is
    refine ⟨0, fun fuel _ => ⟨routeInOut, { title := name }, ?_, List.Perm.refl _, ?_, le_refl _⟩⟩
    · rw [sort, if_pos hshort]
    · intro p
      match routeInOut, hshort with
      | [], _ => exact ⟨[], [], rfl, nofun⟩
      | [t], _ =>
          by_cases ht : getPositionCallback t = p
          · exact ⟨[], [], by simp [ht], nofun⟩
          · refine ⟨[t], [], by simp [ht], ?_⟩
            intro u hu
            rw [List.append_nil, List.mem_singleton] at hu
            rwa [hu]
  · let itemVec := routeInOut.map fun item =>
      ItemRecord.mk item (getPositionCallback item) (getNameCallback item)
    let position := fun i => (itemVec.get i).position
    obtain ⟨bound, hbound⟩ := search_ends
      (fun route => getTotalDistance length route position) (deduplicate position).currRoute.length
      (deduplicate position).currRoute runToConvergence
    refine ⟨bound, fun fuel hfuel => ?_⟩
    obtain ⟨currRoute, hloop, hperm, hle⟩ := hbound fuel hfuel
    have hresult := reduplicate_eq_groups routeInOut getPositionCallback getNameCallback
      rfl hperm
    have hpositions := positions_perm routeInOut getPositionCallback getNameCallback
      rfl
    -- The positions of the route are the distinct positions of the items
    have hps : (currRoute.map position).Perm (routeInOut.map getPositionCallback).eraseDups := by
      rw [← hpositions]
      exact hperm.map position
    have hnodup : (currRoute.map position).Nodup := hps.nodup_iff.mpr (nodup_eraseDups _)
    have hmem : ∀ p, p ∈ currRoute.map position ↔ p ∈ routeInOut.map getPositionCallback :=
      fun p => by rw [hps.mem_iff, List.mem_eraseDups]
    have hcover : ∀ t ∈ routeInOut, getPositionCallback t ∈ currRoute.map position :=
      fun t ht => (hmem _).mpr (List.mem_map_of_mem ht)
    let items := groups getPositionCallback routeInOut (currRoute.map position)
    refine ⟨items, { title := name, names := items.map getNameCallback }, ?_, ?_, ?_, ?_⟩
    · rw [sort, if_neg hshort]
      show (doWhile _ fuel _).bind _ = _
      rw [hloop]
      show some (_, _) = _
      rw [hresult]
    · have hall : routeInOut.filter (fun t => getPositionCallback t ∈ currRoute.map position)
          = routeInOut := by
        rw [List.filter_eq_self]
        exact fun t ht => decide_eq_true (hcover t ht)
      have hgroups := groups_perm getPositionCallback routeInOut hnodup
      rwa [hall] at hgroups
    · exact fun p => groups_piece getPositionCallback routeInOut hnodup p hcover
    · rw [distinctDistance, groups_eraseDups _ _ hnodup fun p hp => (hmem p).mp hp,
        distinctDistance, ← hpositions, ← getTotalDistance_map, ← getTotalDistance_map]
      exact hle

end Result

end Kanagawa.Placement
