/-
  Kanagawa.Lib.BranchAndBound

  Branch and bound over a tree of partial solutions.

  A node is a partial solution; refining it gives its children, and the leaves
  below it are its completions.  Every node has a lower bound on its completions
  and an upper bound on the best of them.  A search keeps a frontier of nodes and
  the best leaf seen so far.  The two rules here are all a search needs: a round
  that disposes of every frontier node in an allowed way keeps the frontier and
  the best leaf covering all completions, and a round that drops or refines at
  least one node lowers the weight of the frontier.
-/
import Mathlib

namespace Kanagawa.Lib.BranchAndBound

/-- A tree of partial solutions with bounds. -/
structure BranchTree (N : Type) where
  leaf : N → Prop
  children : N → List N
  lower : N → Nat
  upper : N → Nat

variable {N : Type} (T : BranchTree N)

/-- `c` is a leaf at or below `p`. -/
inductive Completion : N → N → Prop where
  | leaf {p : N} : T.leaf p → Completion p p
  | child {p q c : N} : ¬ T.leaf p → q ∈ T.children p → Completion q c → Completion p c

/-- The bounds are sound on a set of nodes that is closed under refinement: lower
    bounds only grow, and some completion does not exceed the upper bound. -/
structure Bounded (Valid : N → Prop) : Prop where
  child_valid : ∀ {p q}, Valid p → ¬ T.leaf p → q ∈ T.children p → Valid q
  lower_child : ∀ {p q}, Valid p → ¬ T.leaf p → q ∈ T.children p → T.lower p ≤ T.lower q
  upper_attained : ∀ {p}, Valid p → ∃ c, Completion T p c ∧ T.lower c ≤ T.upper p

/-- Every solution is no better than the best value recorded, or than some
    completion of a frontier node. -/
def Covers (frontier : List N) (best : Nat) (c : N) : Prop :=
  best ≤ T.lower c ∨ ∃ e ∈ frontier, ∃ c', Completion T e c' ∧ T.lower c' ≤ T.lower c

/-- A node that cannot improve on the best value recorded, or is beaten by the
    smallest upper bound of the frontier. -/
def Prunable (frontier : List N) (best : Nat) (e : N) : Prop :=
  best ≤ T.lower e ∨
    ∃ e' ∈ frontier, T.upper e' < T.lower e ∧ ∀ e'' ∈ frontier, T.upper e' ≤ T.upper e''

/-- One round of a search: every frontier node is pruned, recorded as a leaf, kept,
    or replaced by its children. -/
structure Round (frontier : List N) (best : Nat) (frontier' : List N) (best' : Nat) : Prop where
  best_le : best' ≤ best
  disposed : ∀ e ∈ frontier, Prunable T frontier best e ∨ (T.leaf e ∧ best' ≤ T.lower e) ∨
    e ∈ frontier' ∨ (¬ T.leaf e ∧ ∀ q ∈ T.children e, q ∈ frontier')

variable {T} {Valid : N → Prop}

theorem Completion.isLeaf {p c : N} (h : Completion T p c) : T.leaf c := by
  induction h with
  | leaf hp => exact hp
  | child _ _ _ ih => exact ih

/-- A lower bound is a lower bound on every completion. -/
theorem Bounded.lower_le (hB : Bounded T Valid) {p c : N} (hc : Completion T p c) :
    Valid p → T.lower p ≤ T.lower c := by
  induction hc with
  | leaf _ => intro _; exact Nat.le_refl _
  | child hn hq _ ih =>
      intro hp
      exact (hB.lower_child hp hn hq).trans (ih (hB.child_valid hp hn hq))

theorem Bounded.completion_valid (hB : Bounded T Valid) {p c : N} (hc : Completion T p c) :
    Valid p → Valid c := by
  induction hc with
  | leaf _ => exact id
  | child hn hq _ ih =>
      intro hp
      exact ih (hB.child_valid hp hn hq)

theorem Bounded.lower_le_upper (hB : Bounded T Valid) {p : N} (hp : Valid p) :
    T.lower p ≤ T.upper p := by
  obtain ⟨c, hc, hle⟩ := hB.upper_attained hp
  exact (hB.lower_le hc hp).trans hle

/-- A pair of a frontier node that is not pruned and a completion of it survives
    the round. -/
theorem Round.covers_of_not_prunable (hB : Bounded T Valid) {frontier frontier' : List N}
    {best best' : Nat} (hR : Round T frontier best frontier' best') {e c' c : N}
    (he : e ∈ frontier) (hv : Valid e) (hn : ¬ Prunable T frontier best e)
    (hc' : Completion T e c') (hle : T.lower c' ≤ T.lower c) : Covers T frontier' best' c := by
  rcases hR.disposed e he with h | ⟨-, h⟩ | h | ⟨hleaf, h⟩
  · exact absurd h hn
  · exact .inl ((h.trans (hB.lower_le hc' hv)).trans hle)
  · exact .inr ⟨e, h, c', hc', hle⟩
  · -- The completion lies below one of the children that replaced the node
    rcases hc' with hl | ⟨_, hq, hqc⟩
    · exact absurd hl hleaf
    · exact .inr ⟨_, h _ hq, c', hqc, hle⟩

/-- A round keeps every solution covered. -/
theorem Round.covers (hB : Bounded T Valid) {frontier frontier' : List N} {best best' : Nat}
    (hR : Round T frontier best frontier' best') (hvalid : ∀ e ∈ frontier, Valid e) {c : N}
    (hc : Covers T frontier best c) : Covers T frontier' best' c := by
  rcases hc with hbest | ⟨e, he, c', hc', hle⟩
  · exact .inl (hR.best_le.trans hbest)
  · by_cases hp : Prunable T frontier best e
    · rcases hp with hlow | ⟨e2, he2, hlt, hmin⟩
      · have hlower := hB.lower_le hc' (hvalid e he)
        exact .inl (hR.best_le.trans (hlow.trans (hlower.trans hle)))
      · -- The node with the smallest upper bound takes over: it is only pruned when
        -- the recorded value is at least as good
        obtain ⟨c2, hc2, hup⟩ := hB.upper_attained (hvalid e2 he2)
        have hlower := hB.lower_le hc' (hvalid e he)
        have hlower2 := hB.lower_le hc2 (hvalid e2 he2)
        have hle2 : T.lower c2 ≤ T.lower c := by omega
        by_cases hp2 : Prunable T frontier best e2
        · rcases hp2 with hlow2 | ⟨e3, he3, hlt3, -⟩
          · exact .inl (hR.best_le.trans (by omega))
          · have := hmin e3 he3
            omega
        · exact hR.covers_of_not_prunable hB he2 (hvalid e2 he2) hp2 hc2 hle2
    · exact hR.covers_of_not_prunable hB he (hvalid e he) hp hc' hle

/-- Once the frontier is empty the recorded value is a minimum. -/
theorem Covers.best_le {best : Nat} {c : N} (h : Covers T [] best c) : best ≤ T.lower c := by
  rcases h with h | ⟨e, he, -⟩
  · exact h
  · exact nomatch he

/-! ## Termination -/

/-- The weight of a node whose refinements have at most `width` children. -/
def weight (width : Nat) (rank : N → Nat) (p : N) : Nat := (width + 1) ^ rank p

theorem weight_pos (width : Nat) (rank : N → Nat) (p : N) : 0 < weight width rank p :=
  Nat.pow_pos (Nat.succ_pos width)

/-- Refining a node lowers its weight. -/
theorem sum_weight_children_lt {width : Nat} {rank : N → Nat} {p : N} {qs : List N}
    (hlen : qs.length ≤ width) (hrank : ∀ q ∈ qs, rank q < rank p) :
    (qs.map (weight width rank)).sum < weight width rank p := by
  rcases Nat.eq_zero_or_pos (rank p) with h0 | hpos
  · have hnil : qs = [] := by
      rw [List.eq_nil_iff_forall_not_mem]
      intro q hq
      have := hrank q hq
      omega
    subst hnil
    exact weight_pos width rank p
  · obtain ⟨k, hk⟩ := Nat.exists_eq_succ_of_ne_zero hpos.ne'
    have hle : ∀ x ∈ qs.map (weight width rank), x ≤ (width + 1) ^ k := by
      intro x hx
      obtain ⟨q, hq, rfl⟩ := List.mem_map.mp hx
      have := hrank q hq
      exact Nat.pow_le_pow_right (Nat.succ_pos width) (by omega)
    have hsum := List.sum_le_card_nsmul _ _ hle
    rw [List.length_map, smul_eq_mul] at hsum
    have hmul : qs.length * (width + 1) ^ k ≤ width * (width + 1) ^ k :=
      Nat.mul_le_mul_right _ hlen
    have hpow : weight width rank p = width * (width + 1) ^ k + (width + 1) ^ k := by
      rw [weight, hk, Nat.succ_eq_add_one, pow_succ]
      ring
    have hkpos : 0 < (width + 1) ^ k := Nat.pow_pos (Nat.succ_pos width)
    omega

/-- Keeping some nodes and refining others, with none both, lowers the weight of
    the frontier once some node is not kept. -/
theorem sum_weight_round_lt {w : N → Nat} {children : N → List N} (keep refine : N → Bool)
    {frontier : List N} (hdisj : ∀ e ∈ frontier, keep e = true → refine e = false)
    (hchild : ∀ e ∈ frontier, refine e = true → ((children e).map w).sum < w e)
    (hpos : ∀ e, 0 < w e) (hdrop : ∃ e ∈ frontier, keep e = false) :
    (((frontier.filter keep) ++ (frontier.filter refine).flatMap children).map w).sum
      < (frontier.map w).sum := by
  -- Without the dropped node the inequality still holds, but need not be strict
  have hle : ∀ l : List N, (∀ e ∈ l, e ∈ frontier) →
      (((l.filter keep) ++ (l.filter refine).flatMap children).map w).sum ≤ (l.map w).sum ∧
      ((∃ e ∈ l, keep e = false) →
        (((l.filter keep) ++ (l.filter refine).flatMap children).map w).sum < (l.map w).sum) := by
    intro l
    induction l with
    | nil => intro _; simp
    | cons e rest ih =>
        intro hmem
        obtain ⟨ihle, ihlt⟩ := ih fun x hx => hmem x (List.mem_cons_of_mem _ hx)
        have he := hmem e List.mem_cons_self
        have hpe := hpos e
        simp only [List.map_append, List.sum_append, List.map_cons, List.sum_cons] at ihle ihlt ⊢
        rcases hk : keep e with _ | _
        · rcases hr : refine e with _ | _
          · simp only [List.filter_cons, hk, hr, Bool.false_eq_true, if_false]
            exact ⟨by omega, fun _ => by omega⟩
          · have hce := hchild e he hr
            simp only [List.filter_cons, hk, hr, Bool.false_eq_true, if_false, if_true,
              List.flatMap_cons, List.map_append, List.sum_append]
            exact ⟨by omega, fun _ => by omega⟩
        · have hr := hdisj e he hk
          simp only [List.filter_cons, hk, hr, Bool.false_eq_true, if_false, if_true,
            List.map_cons, List.sum_cons]
          refine ⟨by omega, ?_⟩
          rintro ⟨x, hx, hxk⟩
          rcases List.mem_cons.mp hx with rfl | hx
          · rw [hk] at hxk
            exact nomatch hxk
          · have := ihlt ⟨x, hx, hxk⟩
            omega
  exact (hle frontier fun _ h => h).2 hdrop

end Kanagawa.Lib.BranchAndBound
