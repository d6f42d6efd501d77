/-
  Kanagawa.Library.BankSchedule

  How the vector accesses of a banked memory are spread over iterations
  (`data/memory/bank/schedule.k`), with the scan, `gather` and `unique` that it
  is made of (`data/array.k`, `data/vector.k`).

  In iteration `i` a bank serves the request that is the `i`-th of its own
  ones. `requests_per_bank` counts the requests with a reducer tree, and the
  schedule numbers them with a prefix sum; over all iterations a bank serves
  exactly its requests, in the order of their indices.

  An array of `n` elements is a function of which the values below `n` count.
-/
import Kanagawa.Library.Arrays
import Kanagawa.Library.Basic

namespace Kanagawa.Library

variable {α : Type*}

/-! ## Scans -/

/-- A round of `inclusive_scan`. -/
def scanRound (f : α → α → α) (results : Nat → α) (j : Nat) : Nat → α :=
  fun i => if i < 2 ^ j then results i else f (results i) (results (i - 2 ^ j))

/-- `inclusive_scan` -/
def inclusiveScan (n : Nat) (f : α → α → α) (input : Nat → α) : Nat → α :=
  (List.range (Nat.clog 2 n)).foldl (scanRound f) input

/-- `add<count_t<N>, count_t<N>>` -/
def addCounts (n a b : Nat) : Nat := (a + b) % 2 ^ countWidth n

/-- `prefix_sum<count_t<N>>` of an array of bits. -/
def prefixSum (n : Nat) (bits : Nat → Bool) : Nat → Nat :=
  inclusiveScan n (addCounts n) fun i => (bits i).toNat

/-- The prefix sums count the bits that are set. -/
theorem prefixSum_eq_count {n i : Nat} (bits : Nat → Bool) (hi : i < n) :
    prefixSum n bits i = Nat.count (bits · = true) (i + 1) := by
  have hle : ∀ k, Nat.count (bits · = true) k ≤ k := fun k => Nat.count_le _
  have hmono : ∀ {k l}, k ≤ l → Nat.count (bits · = true) k ≤ Nat.count (bits · = true) l :=
    fun h => Nat.count_monotone _ h
  -- After some rounds every result is the count of so many bits up to its place.
  have hrounds : ∀ rounds k, k < n →
      (List.range rounds).foldl (scanRound (addCounts n)) (fun i => (bits i).toNat) k =
        Nat.count (bits · = true) (k + 1) - Nat.count (bits · = true) (k + 1 - 2 ^ rounds) := by
    intro rounds
    induction rounds with
    | zero =>
      intro k _
      rw [List.range_zero, List.foldl_nil, Nat.pow_zero, Nat.add_sub_cancel, Nat.count_succ]
      cases bits k <;> simp
    | succ rounds ih =>
      intro k hk
      rw [List.range_succ, List.foldl_append, List.foldl_cons, List.foldl_nil, scanRound,
        Nat.pow_succ]
      split
      · rw [ih k hk]
        congr 2
        omega
      · have hplace : k - 2 ^ rounds + 1 = k + 1 - 2 ^ rounds := by omega
        have hback : k + 1 - 2 ^ rounds - 2 ^ rounds = k + 1 - 2 ^ rounds * 2 := by omega
        rw [ih k hk, ih _ (by omega), hplace, hback, addCounts]
        have h1 := hmono (show k + 1 - 2 ^ rounds * 2 ≤ k + 1 - 2 ^ rounds by omega)
        have h2 := hmono (show k + 1 - 2 ^ rounds ≤ k + 1 by omega)
        have h3 := hle (k + 1)
        have h4 := lt_two_pow_countWidth n
        rw [Nat.mod_eq_of_lt (by omega)]
        omega
  have hall : n ≤ 2 ^ Nat.clog 2 n := Nat.le_pow_clog (by omega) n
  rw [prefixSum, inclusiveScan, hrounds _ i hi, Nat.sub_eq_zero_of_le (by omega : i + 1 ≤ _),
    Nat.count_zero, Nat.sub_zero]

/-! ## Gathering the valid elements -/

/-- The elements that `gather` considers for place `i` of its result. -/
def gatherFinds (n : Nat) (valids : Nat → Bool) (data : Nat → α) (i : Nat) : List (Option α) :=
  (List.range n).map fun j =>
    if i ≤ j then
      if j = 0 then if 0 = i then some (data j) else none
      else if prefixSum n valids (j - 1) = i then some (data j) else none
    else none

/-- `gather`: the valid elements and their number. -/
def gather [Inhabited α] (n : Nat) (valids : Nat → Bool) (data : Nat → α) : (Nat → α) × Nat :=
  (fun i => (lastValid (gatherFinds n valids data i)).getD default, prefixSum n valids (n - 1))

theorem lastValid_append_nones (xs ys : List (Option α)) (h : ∀ y ∈ ys, y = none) :
    lastValid (xs ++ ys) = lastValid xs := by
  induction ys using List.reverseRecOn with
  | nil => rw [List.append_nil]
  | append_singleton ys y ih =>
    rw [← List.append_assoc, h y (by simp), lastValid_append_none]
    exact ih fun y' hy' => h y' (by simp [hy'])

/-- The last valid element of an array. -/
theorem lastValid_map_range {n k : Nat} {f : Nat → Option α} {x : α} (hk : k < n)
    (hx : f k = some x) (hlast : ∀ j, k < j → j < n → f j = none) :
    lastValid ((List.range n).map f) = some x := by
  obtain ⟨l, rfl⟩ : ∃ l, n = (k + 1) + l := ⟨n - (k + 1), by omega⟩
  rw [List.range_add, List.map_append, lastValid_append_nones, List.range_succ, List.map_append,
    List.map_singleton, hx, lastValid_append_some]
  intro y hy
  simp only [List.map_map, List.mem_map, List.mem_range, Function.comp_apply] at hy
  obtain ⟨j, hj, rfl⟩ := hy
  exact hlast _ (by omega) (by omega)

section Gather

variable [Inhabited α] {n : Nat} (valids : Nat → Bool) (data : Nat → α)

theorem gather_size (hn : 0 < n) :
    (gather n valids data).2 = Nat.count (valids · = true) n := by
  rw [gather, prefixSum_eq_count _ (by omega), Nat.sub_add_cancel hn]

/-- A valid element is at the place that the number of valid elements before it gives. -/
theorem gather_data {k : Nat} (hk : k < n) (hvalid : valids k = true) :
    (gather n valids data).1 (Nat.count (valids · = true) k) = data k := by
  have hfind : lastValid (gatherFinds n valids data (Nat.count (valids · = true) k)) =
      some (data k) := by
    refine lastValid_map_range hk ?_ ?_
    · rw [if_pos (Nat.count_le _)]
      split
      · rename_i h0
        rw [h0, Nat.count_zero, if_pos rfl]
      · rw [prefixSum_eq_count _ (by omega), Nat.sub_add_cancel (by omega), if_pos rfl]
    · intro j hkj hj
      have hlt : Nat.count (valids · = true) k < Nat.count (valids · = true) j :=
        Nat.count_strict_mono hvalid hkj
      split
      · rw [if_neg (by omega), prefixSum_eq_count _ (by omega), Nat.sub_add_cancel (by omega),
          if_neg (by omega)]
      · rfl
  simp only [gather, hfind, Option.getD_some]

end Gather

/-! ## Requests and their schedule -/

/-- `unique`: an element is valid when no earlier one equals it. -/
def unique [DecidableEq α] (xs : Nat → α) : Nat → Option α :=
  fun i => if (List.range i).any fun j => xs j == xs i then none else some (xs i)

section Schedule

variable (n banks : Nat) (addressToBankIndex : α → Nat) (addresses : Nat → Option α)

/-- The table of `schedule_requests` and the counts of `requests_per_bank` consider this for a
bank. -/
def isRequestOf (b k : Nat) : Bool :=
  match addresses k with
  | some address => addressToBankIndex address == b
  | none => false

/-- `validate_bank_indices` -/
def validateBankIndices : Bool :=
  (List.range n).all fun k =>
    match addresses k with
    | some address => decide (addressToBankIndex address < banks)
    | none => true

/-- `reduce_counts` -/
def reduceCounts (a b : Nat → Nat) : Nat → Nat := fun bank => addCounts n (a bank) (b bank)

/-- `requests_per_bank` -/
def requestsPerBank : Nat → Nat :=
  let counts := (List.range n).map fun k b => (isRequestOf addressToBankIndex addresses b k).toNat
  (reduce (reduceCounts n) counts).getD fun _ => 0

/-- `maximum` of the counts of the banks. -/
def maximumOfBanks (counts : Nat → Nat) : Nat :=
  (reduce (fun a b => if a > b then a else b) ((List.range banks).map counts)).getD 0

/-- `schedule_requests`: the index of the request that a bank serves in an iteration. -/
def scheduleRequests (iteration b : Nat) : Option Nat :=
  let gathered := gather n (isRequestOf addressToBankIndex addresses b) id
  if iteration < gathered.2 then some (gathered.1 iteration) else none

/-- `schedule_read_requests`: the index of the address that each bank serves, and the bank that
serves each address. -/
def scheduleReadRequests [DecidableEq α] (reads : Nat → α) (iteration : Nat) :
    (Nat → Option Nat) × (Nat → Option Nat) :=
  let iterationAddressIndices := scheduleRequests n addressToBankIndex (unique reads) iteration
  let validAddress := fun k =>
    (List.range banks).any fun b =>
      match iterationAddressIndices b with
      | some j => reads j == reads k
      | none => false
  (iterationAddressIndices,
    fun k => if validAddress k then some (addressToBankIndex (reads k)) else none)

end Schedule

/-! ### What the schedule serves -/

theorem exists_of_lt_count {p : Nat → Prop} [DecidablePred p] {n i : Nat}
    (h : i < Nat.count p n) : ∃ k < n, p k ∧ Nat.count p k = i := by
  induction n with
  | zero => exact absurd h (by simp)
  | succ n ih =>
    rw [Nat.count_succ] at h
    by_cases hlt : i < Nat.count p n
    · obtain ⟨k, hk, hp⟩ := ih hlt
      exact ⟨k, by omega, hp⟩
    · split at h
      · rename_i hp
        exact ⟨n, by omega, hp, by omega⟩
      · omega

/-- The valid indices in their order. -/
theorem length_filter_range (p : Nat → Bool) (n : Nat) :
    ((List.range n).filter p).length = Nat.count (p · = true) n := by
  induction n with
  | zero => rfl
  | succ n ih =>
    rw [List.range_succ, List.filter_append, List.length_append, ih, Nat.count_succ]
    cases hp : p n <;> simp [hp]

theorem getElem?_filter_range {p : Nat → Bool} {n i k : Nat} :
    ((List.range n).filter p)[i]? = some k ↔
      k < n ∧ p k = true ∧ Nat.count (p · = true) k = i := by
  induction n with
  | zero => simp
  | succ n ih =>
    rw [List.range_succ, List.filter_append, List.getElem?_append, length_filter_range]
    split
    · rename_i hi
      rw [ih]
      constructor
      · rintro ⟨hk, hrest⟩
        exact ⟨by omega, hrest⟩
      · rintro ⟨hk, hp, rfl⟩
        refine ⟨?_, hp, rfl⟩
        rcases Nat.lt_succ_iff_lt_or_eq.mp hk with hlt | rfl
        · exact hlt
        · omega
    · rename_i hi
      have hlast : ∀ k, k < n → p k = true →
          Nat.count (p · = true) k < Nat.count (p · = true) n :=
        fun k hk hp => Nat.count_strict_mono hp hk
      constructor
      · intro h
        cases hp : p n with
        | false => simp [hp] at h
        | true =>
          simp only [List.filter_cons, hp, if_true, List.filter_nil,
            List.getElem?_singleton] at h
          split at h
          · simp only [Option.some.injEq] at h
            subst h
            exact ⟨by omega, hp, by omega⟩
          · exact absurd h (by simp)
      · rintro ⟨hk, hp, rfl⟩
        rcases Nat.lt_succ_iff_lt_or_eq.mp hk with hlt | rfl
        · exact absurd (hlast k hlt hp) hi
        · simp [hp]

theorem filterMap_getElem?_range (l : List α) {n : Nat} (h : l.length ≤ n) :
    (List.range n).filterMap (fun i => l[i]?) = l := by
  induction l generalizing n with
  | nil => simp
  | cons x l ih =>
    obtain ⟨n, rfl⟩ : ∃ m, n = m + 1 := ⟨n - 1, by simp at h; omega⟩
    rw [List.range_succ_eq_map, List.filterMap_cons, List.filterMap_map]
    simp only [List.getElem?_cons_zero, Function.comp_def, List.getElem?_cons_succ]
    rw [ih (by simpa using h)]

section Served

variable {n banks b k iteration : Nat} {addressToBankIndex : α → Nat}
  {addresses : Nat → Option α}

/-- A bank serves in an iteration the request with so many requests of the bank before it. -/
theorem scheduleRequests_eq_getElem? (hn : 0 < n) :
    scheduleRequests n addressToBankIndex addresses iteration b =
      ((List.range n).filter (isRequestOf addressToBankIndex addresses b))[iteration]? := by
  rw [scheduleRequests]
  simp only [gather_size _ _ hn]
  split
  · rename_i hlt
    obtain ⟨k, hk, hvalid, rfl⟩ := exists_of_lt_count hlt
    rw [gather_data _ _ hk hvalid]
    exact (getElem?_filter_range.mpr ⟨hk, hvalid, rfl⟩).symm
  · rename_i hge
    rw [List.getElem?_eq_none]
    rw [length_filter_range]
    omega

theorem scheduleRequests_eq_some (hn : 0 < n) :
    scheduleRequests n addressToBankIndex addresses iteration b = some k ↔
      k < n ∧ isRequestOf addressToBankIndex addresses b k = true ∧
        Nat.count (isRequestOf addressToBankIndex addresses b · = true) k = iteration := by
  rw [scheduleRequests_eq_getElem? hn, getElem?_filter_range]

theorem requestsPerBank_eq_count (hn : 0 < n) :
    requestsPerBank n addressToBankIndex addresses b =
      Nat.count (isRequestOf addressToBankIndex addresses b · = true) n := by
  have hassoc : ∀ x y z : Nat → Nat,
      reduceCounts n (reduceCounts n x y) z = reduceCounts n x (reduceCounts n y z) := by
    intro x y z
    funext bank
    simp only [reduceCounts, addCounts, Nat.mod_add_mod, Nat.add_mod_mod, Nat.add_assoc]
  -- The fold over the first addresses counts them.
  have hfold : ∀ m, m < n →
      ((List.range m).map fun k b =>
          (isRequestOf addressToBankIndex addresses b (k + 1)).toNat).foldl (reduceCounts n)
        (fun b => (isRequestOf addressToBankIndex addresses b 0).toNat) b =
      Nat.count (isRequestOf addressToBankIndex addresses b · = true) (m + 1) := by
    intro m
    induction m with
    | zero =>
      intro _
      rw [List.range_zero, List.map_nil, List.foldl_nil, Nat.count_succ, Nat.count_zero]
      cases isRequestOf addressToBankIndex addresses b 0 <;> simp
    | succ m ih =>
      intro hm
      rw [List.range_succ, List.map_append, List.foldl_append, List.map_singleton, List.foldl_cons,
        List.foldl_nil, Nat.count_succ, reduceCounts, ih (by omega), addCounts]
      have hle := Nat.count_le (isRequestOf addressToBankIndex addresses b · = true) (n := m + 1)
      have hlt := lt_two_pow_countWidth n
      rw [Nat.mod_eq_of_lt]
      · cases isRequestOf addressToBankIndex addresses b (m + 1) <;> simp
      · cases isRequestOf addressToBankIndex addresses b (m + 1) <;> simp <;> omega
  obtain ⟨m, rfl⟩ : ∃ m, n = m + 1 := ⟨n - 1, by omega⟩
  rw [requestsPerBank]
  simp only [List.range_succ_eq_map, List.map_cons, List.map_map]
  rw [reduce_eq_foldl hassoc, Option.getD_some]
  exact hfold m (by omega)

theorem maximumOfBanks_spec (counts : Nat → Nat) (hpos : 0 < banks) :
    (∀ b < banks, counts b ≤ maximumOfBanks banks counts) ∧
      ∃ b < banks, maximumOfBanks banks counts = counts b := by
  have hmax : (fun a b : Nat => if a > b then a else b) = max := by
    funext a b
    split <;> omega
  have hfold : ∀ (l : List Nat) (x : Nat), x ≤ l.foldl max x ∧ ∀ y ∈ l, y ≤ l.foldl max x := by
    intro l
    induction l with
    | nil => exact fun x => ⟨Nat.le_refl x, fun y hy => absurd hy List.not_mem_nil⟩
    | cons z l ih =>
      intro x
      obtain ⟨hx, hmem⟩ := ih (max x z)
      rw [List.foldl_cons]
      refine ⟨by omega, fun y hy => ?_⟩
      rcases List.mem_cons.mp hy with rfl | hy
      · omega
      · exact hmem y hy
  constructor
  · intro b hb
    obtain ⟨m, rfl⟩ : ∃ m, banks = m + 1 := ⟨banks - 1, by omega⟩
    rw [maximumOfBanks, hmax, List.range_succ_eq_map, List.map_cons,
      reduce_eq_foldl Nat.max_assoc, Option.getD_some]
    obtain ⟨hzero, hmem⟩ := hfold (List.map counts ((List.range m).map Nat.succ)) (counts 0)
    cases b with
    | zero => exact hzero
    | succ b => exact hmem _ (by simp; exact ⟨b, by omega, rfl⟩)
  · have hone : ∀ a b : Nat,
        (if a > b then a else b) = a ∨ (if a > b then a else b) = b := by
      intro a b
      split
      · exact .inl rfl
      · exact .inr rfl
    obtain ⟨z, hz, hreduce⟩ := exists_reduce hone
      (by simpa using hpos : 0 < ((List.range banks).map counts).length)
    obtain ⟨b, hb, rfl⟩ := List.mem_map.mp hz
    exact ⟨b, List.mem_range.mp hb, by rw [maximumOfBanks, hreduce, Option.getD_some]⟩

/-- Over enough iterations a bank serves its requests in the order of their indices. -/
theorem served_by_bank {count : Nat} (hn : 0 < n)
    (hcount : requestsPerBank n addressToBankIndex addresses b ≤ count) :
    (List.range count).filterMap
        (fun iteration => scheduleRequests n addressToBankIndex addresses iteration b) =
      (List.range n).filter (isRequestOf addressToBankIndex addresses b) := by
  rw [requestsPerBank_eq_count hn, ← length_filter_range] at hcount
  simp only [scheduleRequests_eq_getElem? hn]
  exact filterMap_getElem?_range _ hcount

/-- The indices of the requests in the order in which they are served, with the banks of an
iteration one after the other. -/
def accessOrder (banks count : Nat) (schedule : Nat → Nat → Option Nat) : List Nat :=
  (List.range count).flatMap fun iteration => (List.range banks).filterMap (schedule iteration)

theorem filterMap_range_single {β : Type*} {f : Nat → Option β} {m : Nat} (hb : b < m)
    (hf : ∀ j, j ≠ b → f j = none) : (List.range m).filterMap f = (f b).toList := by
  induction m with
  | zero => omega
  | succ m ih =>
    rw [List.range_succ, List.filterMap_append]
    rcases Nat.lt_succ_iff_lt_or_eq.mp hb with hlt | rfl
    · rw [ih hlt]
      simp [hf m (by omega)]
    · have hnil : (List.range b).filterMap f = [] := by
        rw [List.filterMap_eq_nil_iff]
        intro j hj
        exact hf j (by have := List.mem_range.mp hj; omega)
      rw [hnil]
      cases hfb : f b <;> simp [hfb]

/-- The requests with one address are served in the order of their indices. -/
theorem filter_accessOrder [DecidableEq α] {count : Nat} {address : α} (hn : 0 < n)
    (hbank : addressToBankIndex address < banks)
    (hcount : requestsPerBank n addressToBankIndex addresses (addressToBankIndex address) ≤ count) :
    (accessOrder banks count (scheduleRequests n addressToBankIndex addresses)).filter
        (fun k => decide (addresses k = some address)) =
      (List.range n).filter fun k => decide (addresses k = some address) := by
  -- Only the bank of the address serves requests with the address.
  have hiteration : ∀ iteration,
      ((List.range banks).filterMap
        (scheduleRequests n addressToBankIndex addresses iteration)).filter
          (fun k => decide (addresses k = some address)) =
        ((scheduleRequests n addressToBankIndex addresses iteration
          (addressToBankIndex address)).filter
            fun k => decide (addresses k = some address)).toList := by
    intro iteration
    rw [List.filter_filterMap]
    refine filterMap_range_single hbank ?_
    intro j hj
    cases hserved : scheduleRequests n addressToBankIndex addresses iteration j with
    | none => rfl
    | some k =>
      have hrequest := ((scheduleRequests_eq_some hn).mp hserved).2.1
      rw [Option.filter_some, if_neg]
      intro heq
      rw [isRequestOf, of_decide_eq_true heq] at hrequest
      exact hj (beq_iff_eq.mp hrequest).symm
  have hflat : ∀ (l : List Nat) (f : Nat → Option Nat),
      l.flatMap (fun i => (f i).toList) = l.filterMap f := by
    intro l f
    induction l with
    | nil => rfl
    | cons i l ih =>
      rw [List.flatMap_cons, List.filterMap_cons, ih]
      cases f i <;> rfl
  rw [accessOrder, List.filter_flatMap]
  simp only [hiteration]
  rw [hflat, ← List.filter_filterMap, served_by_bank hn hcount, List.filter_filter]
  refine List.filter_congr fun k _ => ?_
  rw [isRequestOf]
  by_cases heq : addresses k = some address
  · simp [heq]
  · simp [heq]

end Served

end Kanagawa.Library
