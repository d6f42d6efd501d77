/-
  Kanagawa.Lib.TruthTable

  Truth tables stored in a number: bit `r` of the table is the output in row `r`,
  and bit `c` of a row is the value of the variable in column `c`.

  The columns are a list over any type of variables, and a variable may stand in
  more than one of them.  A table is reduced when no variable does and every column
  matters.  Two reduced tables compute the same function only if they have the
  same variables.
-/
import Kanagawa.Lib.Bits

namespace Kanagawa.Lib.TruthTable

open Bits

variable {α : Type}

/-! ## Rows -/

/-- The row that the values of the variables select. -/
def row (bit : α → Bool) (columns : List α) : Nat :=
  columns.zipIdx.foldl (fun row p => if bit p.1 then row ||| 2 ^ p.2 else row) 0

/-- The output of a table. -/
def eval (bit : α → Bool) (columns : List α) (table : Nat) : Bool :=
  table.testBit (row bit columns)

theorem testBit_row (bit : α → Bool) (columns : List α) (c : Nat) :
    (row bit columns).testBit c = columns[c]?.any bit :=
  testBit_foldl_zipIdx columns bit c

theorem row_lt (bit : α → Bool) (columns : List α) : row bit columns < 2 ^ columns.length := by
  refine Nat.lt_pow_two_of_testBit _ fun c hc => ?_
  rw [testBit_row, List.getElem?_eq_none hc]
  rfl

theorem row_congr {bit bit' : α → Bool} {columns : List α} (h : ∀ x ∈ columns, bit x = bit' x) :
    row bit columns = row bit' columns := by
  refine Nat.eq_of_testBit_eq fun c => ?_
  rw [testBit_row, testBit_row]
  cases hc : columns[c]? with
  | none => rfl
  | some x => exact h x (List.mem_of_getElem? hc)

theorem row_map {β : Type} (bit : β → Bool) (f : α → β) (columns : List α) :
    row bit (columns.map f) = row (fun x => bit (f x)) columns := by
  refine Nat.eq_of_testBit_eq fun c => ?_
  rw [testBit_row, testBit_row, List.getElem?_map, Option.any_map]

theorem eval_congr {bit bit' : α → Bool} {columns : List α} {table : Nat}
    (h : ∀ x ∈ columns, bit x = bit' x) : eval bit columns table = eval bit' columns table := by
  rw [eval, eval, row_congr h]

/-- Different variables can select every row. -/
theorem exists_row [DecidableEq α] {columns : List α} (h : columns.Nodup) {r : Nat}
    (hr : r < 2 ^ columns.length) : row (fun x => r.testBit (columns.idxOf x)) columns = r := by
  refine Nat.eq_of_testBit_eq fun c => ?_
  rw [testBit_row]
  rcases Nat.lt_or_ge c columns.length with hc | hc
  · rw [List.getElem?_eq_getElem hc, Option.any_some, h.idxOf_getElem c hc]
  · rw [List.getElem?_eq_none hc, Nat.testBit_lt_two_pow
      (Nat.lt_of_lt_of_le hr (Nat.pow_le_pow_right (by decide) hc))]
    rfl

/-- A table that is filled row by row. -/
theorem testBit_foldl_range (n : Nat) (output : Nat → Bool) (r : Nat) :
    ((List.range (2 ^ n)).foldl
      (fun (table : Nat) (r : Nat) => if output r then table ||| 2 ^ r else table) 0).testBit r =
      (decide (r < 2 ^ n) && output r) := by
  rw [testBit_foldl_lor _ _ fun r => r, Nat.zero_testBit, Bool.false_or, Bool.eq_iff_iff,
    List.any_eq_true]
  simp only [List.mem_range, Bool.and_eq_true, beq_iff_eq, decide_eq_true_eq]
  constructor
  · rintro ⟨r', hlt, hout, rfl⟩
    exact ⟨hlt, hout⟩
  · exact fun h => ⟨r, h.1, h.2, rfl⟩

/-! ## One column -/

/-- A row with one more column, of a given value. -/
def insertBit (c : Nat) (v : Bool) (r : Nat) : Nat :=
  2 ^ c * (2 * (r / 2 ^ c) + v.toNat) + r % 2 ^ c

theorem testBit_insertBit (c : Nat) (v : Bool) (r j : Nat) :
    (insertBit c v r).testBit j =
      if j < c then r.testBit j else if j = c then v else r.testBit (j - 1) := by
  have hlt : r % 2 ^ c < 2 ^ c := Nat.mod_lt _ (Nat.two_pow_pos c)
  rw [insertBit, Nat.testBit_two_pow_mul_add _ hlt]
  split
  next hj => rw [Nat.testBit_mod_two_pow, decide_eq_true hj, Bool.true_and]
  next hj =>
    split
    next heq =>
      subst heq
      rw [Nat.sub_self, Nat.testBit_zero]
      cases v <;> simp
    next hne =>
      obtain ⟨d, rfl⟩ : ∃ d, j = c + (d + 1) := ⟨j - c - 1, by omega⟩
      have hhalf : (2 * (r / 2 ^ c) + v.toNat) / 2 = r / 2 ^ c := by
        cases v <;> simp only [Bool.toNat_false, Bool.toNat_true] <;> omega
      rw [Nat.add_sub_cancel_left, Nat.testBit_succ, hhalf, Nat.testBit_div_two_pow]
      congr 1
      omega

theorem insertBit_lt_insertBit (c : Nat) (v : Bool) {r r' : Nat} (h : r < r') :
    insertBit c v r < insertBit c v r' := by
  have hpos : 0 < 2 ^ c := Nat.two_pow_pos c
  have hr := Nat.div_add_mod r (2 ^ c)
  have hr' := Nat.div_add_mod r' (2 ^ c)
  have hlt := Nat.mod_lt r hpos
  rw [insertBit, insertBit]
  rcases Nat.lt_or_ge (r / 2 ^ c) (r' / 2 ^ c) with hdiv | hdiv
  · -- The high part grows by at least one, which is worth two blocks
    have hstep : 2 ^ c * (2 * (r / 2 ^ c) + v.toNat) + 2 ^ c
        ≤ 2 ^ c * (2 * (r' / 2 ^ c) + v.toNat) := by
      rw [← Nat.mul_succ]
      exact Nat.mul_le_mul_left _ (by omega)
    omega
  · have heq : r / 2 ^ c = r' / 2 ^ c :=
      Nat.le_antisymm (Nat.div_le_div_right (Nat.le_of_lt h)) hdiv
    rw [heq] at hr ⊢
    omega

/-- The rows in which a column has a given value, in order. -/
theorem filter_range_testBit {n c : Nat} (hc : c ≤ n) (v : Bool) :
    (List.range (2 ^ (n + 1))).filter (fun r => r.testBit c == v) =
      (List.range (2 ^ n)).map (insertBit c v) := by
  have hsorted : ((List.range (2 ^ n)).map (insertBit c v)).Pairwise (· < ·) :=
    List.pairwise_map.mpr (List.pairwise_lt_range.imp fun h => insertBit_lt_insertBit c v h)
  have hsorted' : ((List.range (2 ^ (n + 1))).filter fun r => r.testBit c == v).Pairwise (· < ·) :=
    List.pairwise_lt_range.filter _
  refine List.Perm.eq_of_pairwise (fun a b _ _ h h' => absurd h (Nat.lt_asymm h'))
    hsorted' hsorted ?_
  rw [List.perm_ext_iff_of_nodup (hsorted'.imp Nat.ne_of_lt) (hsorted.imp Nat.ne_of_lt)]
  intro r
  rw [List.mem_filter, List.mem_range, beq_iff_eq, List.mem_map]
  constructor
  · rintro ⟨hlt, hbit⟩
    -- Leave column `c` out
    refine ⟨2 ^ c * (r / 2 ^ (c + 1)) + r % 2 ^ c, ?_, ?_⟩
    · rw [List.mem_range]
      refine Nat.lt_pow_two_of_testBit _ fun j hj => ?_
      rw [Nat.testBit_two_pow_mul_add _ (Nat.mod_lt _ (Nat.two_pow_pos c)),
        if_neg (by omega), Nat.testBit_div_two_pow]
      exact Nat.testBit_lt_two_pow
        (Nat.lt_of_lt_of_le hlt (Nat.pow_le_pow_right (by decide) (by omega)))
    · refine Nat.eq_of_testBit_eq fun j => ?_
      rw [testBit_insertBit]
      simp only [Nat.testBit_two_pow_mul_add _ (Nat.mod_lt r (Nat.two_pow_pos c))]
      split
      next hj => rw [Nat.testBit_mod_two_pow, decide_eq_true hj, Bool.true_and]
      next hj =>
        split
        next heq => rw [heq, hbit]
        next hne =>
          rw [if_neg (by omega), Nat.testBit_div_two_pow]
          congr 1
          omega
  · rintro ⟨k, hk, rfl⟩
    rw [List.mem_range] at hk
    refine ⟨Nat.lt_pow_two_of_testBit _ fun j hj => ?_, ?_⟩
    · rw [testBit_insertBit, if_neg (by omega), if_neg (by omega)]
      exact Nat.testBit_lt_two_pow
        (Nat.lt_of_lt_of_le hk (Nat.pow_le_pow_right (by decide) (by omega)))
    · rw [testBit_insertBit, if_neg (Nat.lt_irrefl c), if_pos rfl]

/-- Selecting a row without a column whose variable is known. -/
theorem row_eraseIdx {bit : α → Bool} {columns : List α} {c : Nat} {x : α}
    (hx : columns[c]? = some x) :
    insertBit c (bit x) (row bit (columns.eraseIdx c)) = row bit columns := by
  refine Nat.eq_of_testBit_eq fun j => ?_
  rw [testBit_insertBit, testBit_row, testBit_row, testBit_row, List.getElem?_eraseIdx,
    List.getElem?_eraseIdx]
  split
  next hj => rfl
  next hj =>
    split
    next heq => rw [heq, hx, Option.any_some]
    next hne =>
      rw [if_neg (by omega)]
      congr 2
      omega

/-! ## Columns that matter -/

/-- Some output changes with the value in a column. -/
def DependsOn (table n c : Nat) : Prop :=
  ∃ r, r < 2 ^ n ∧ table.testBit r ≠ table.testBit (r ^^^ 2 ^ c)

instance (table n c : Nat) : Decidable (DependsOn table n c) :=
  inferInstanceAs (Decidable (∃ r, r < 2 ^ n ∧ table.testBit r ≠ table.testBit (r ^^^ 2 ^ c)))

theorem xor_insertBit (c : Nat) (v : Bool) (r : Nat) :
    insertBit c v r ^^^ 2 ^ c = insertBit c (!v) r := by
  refine Nat.eq_of_testBit_eq fun j => ?_
  rw [Nat.testBit_xor, testBit_insertBit, testBit_insertBit, Nat.testBit_two_pow]
  split
  next hj => rw [decide_eq_false (by omega), Bool.xor_false]
  next hj =>
    split
    next heq => rw [heq, decide_eq_true rfl, Bool.xor_true]
    next hne => rw [decide_eq_false (by omega), Bool.xor_false]

theorem insertBit_lt {n c : Nat} (hc : c ≤ n) (v : Bool) {r : Nat} (hr : r < 2 ^ n) :
    insertBit c v r < 2 ^ (n + 1) := by
  refine Nat.lt_pow_two_of_testBit _ fun j hj => ?_
  rw [testBit_insertBit, if_neg (by omega), if_neg (by omega)]
  exact Nat.testBit_lt_two_pow
    (Nat.lt_of_lt_of_le hr (Nat.pow_le_pow_right (by decide) (by omega)))

/-- Every row has its value in a column, and the rest. -/
theorem exists_insertBit {n c : Nat} (hc : c ≤ n) {r : Nat} (hr : r < 2 ^ (n + 1)) :
    ∃ k < 2 ^ n, insertBit c (r.testBit c) k = r := by
  have hmem : r ∈ (List.range (2 ^ n)).map (insertBit c (r.testBit c)) := by
    rw [← filter_range_testBit hc, List.mem_filter]
    exact ⟨List.mem_range.mpr hr, beq_self_eq_true _⟩
  obtain ⟨k, hk, heq⟩ := List.mem_map.mp hmem
  exact ⟨k, List.mem_range.mp hk, heq⟩

/-- A column matters exactly when the halves of the table are different. -/
theorem dependsOn_iff {table n c : Nat} (hc : c ≤ n) :
    DependsOn table (n + 1) c ↔
      ∃ k < 2 ^ n, table.testBit (insertBit c false k) ≠ table.testBit (insertBit c true k) := by
  constructor
  · rintro ⟨r, hr, hne⟩
    obtain ⟨k, hk, heq⟩ := exists_insertBit hc hr
    refine ⟨k, hk, ?_⟩
    rw [← heq, xor_insertBit] at hne
    cases hv : r.testBit c with
    | false => rwa [hv] at hne
    | true =>
        rw [hv] at hne
        exact hne.symm
  · rintro ⟨k, hk, hne⟩
    exact ⟨_, insertBit_lt hc false hk, by rwa [xor_insertBit]⟩

/-- Without a column that does not matter, the output is the same, from either half. -/
theorem testBit_insertBit_of_not_dependsOn {table n c : Nat} (hc : c ≤ n)
    (h : ¬ DependsOn table (n + 1) c) {k : Nat} (hk : k < 2 ^ n) (v v' : Bool) :
    table.testBit (insertBit c v k) = table.testBit (insertBit c v' k) := by
  have heq : table.testBit (insertBit c false k) = table.testBit (insertBit c true k) :=
    by_contra fun hne => h ((dependsOn_iff hc).mpr ⟨k, hk, hne⟩)
  cases v <;> cases v' <;> first | rfl | exact heq | exact heq.symm

/-! ## Reduced tables -/

/-- No variable has two columns, and every column matters. -/
structure Reduced (columns : List α) (table : Nat) : Prop where
  nodup : columns.Nodup
  dependsOn : ∀ c < columns.length, DependsOn table columns.length c

section Reduced

variable [DecidableEq α] {columns columns' : List α} {table table' : Nat}

/-- The output changes with every variable of a reduced table. -/
theorem Reduced.exists_update (h : Reduced columns table) {x : α} (hx : x ∈ columns) :
    ∃ (bit : α → Bool) (v : Bool),
      eval bit columns table ≠ eval (Function.update bit x v) columns table := by
  have hc := List.idxOf_lt_length_of_mem hx
  obtain ⟨r, hr, hne⟩ := h.dependsOn _ hc
  have hrow := exists_row h.nodup hr
  refine ⟨fun y => r.testBit (columns.idxOf y), !r.testBit (columns.idxOf x), ?_⟩
  have hrow' : row (Function.update (fun y => r.testBit (columns.idxOf y)) x
      (!r.testBit (columns.idxOf x))) columns = r ^^^ 2 ^ columns.idxOf x := by
    refine Nat.eq_of_testBit_eq fun c => ?_
    have hbit : r.testBit c = columns[c]?.any fun y => r.testBit (columns.idxOf y) := by
      rw [← testBit_row, hrow]
    rw [testBit_row, Nat.testBit_xor, Nat.testBit_two_pow, hbit]
    cases hat : columns[c]? with
    | none =>
        have hlen := List.getElem?_eq_none_iff.mp hat
        rw [decide_eq_false (by omega)]
        rfl
    | some y =>
        obtain ⟨hlt, rfl⟩ := List.getElem?_eq_some_iff.mp hat
        simp only [Option.any_some]
        by_cases heq : columns[c] = x
        · subst heq
          rw [Function.update_self, h.nodup.idxOf_getElem c hlt, decide_eq_true rfl, Bool.xor_true]
        · have hneq : columns.idxOf x ≠ c := fun hidx =>
            heq (by subst hidx; exact List.getElem_idxOf hc)
          rw [Function.update_of_ne heq, decide_eq_false hneq, Bool.xor_false]
  rw [eval, eval, hrow, hrow']
  exact hne

/-- The variables of a reduced table are among those of every table for the same function. -/
theorem Reduced.subset_of_eval_eq (h : Reduced columns table)
    (heval : ∀ bit, eval bit columns table = eval bit columns' table') : columns ⊆ columns' := by
  intro x hx
  obtain ⟨bit, v, hne⟩ := h.exists_update hx
  by_contra hmem
  refine hne ?_
  rw [heval, heval]
  refine eval_congr fun y hy => ?_
  have hne' : y ≠ x := fun heq => hmem (heq ▸ hy)
  rw [Function.update_of_ne hne']

/-- Reduced tables for the same function have the same variables. -/
theorem Reduced.perm_of_eval_eq (h : Reduced columns table) (h' : Reduced columns' table')
    (heval : ∀ bit, eval bit columns table = eval bit columns' table') :
    columns.Perm columns' :=
  (List.perm_ext_iff_of_nodup h.nodup h'.nodup).mpr fun _ =>
    ⟨fun hx => h.subset_of_eval_eq heval hx,
      fun hx => h'.subset_of_eval_eq (fun bit => (heval bit).symm) hx⟩

end Reduced

end Kanagawa.Lib.TruthTable
