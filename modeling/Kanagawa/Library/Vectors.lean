/-
  Kanagawa.Library.Vectors

  Vectors of a bounded size (`data/vector.k`).

  A vector is an array and the number of its elements.  Positions are index types, which hold
  every index of the array, and counts are count types, which also hold its length; the length
  itself is an index too unless it is a power of two.  `insert` casts the position behind the new
  element without a check, since nothing is copied there when it wraps; `erase` and `append` check
  their casts, and fail for the last element of a full vector and behind a full vector.
-/
import Kanagawa.Library.BankSchedule
import Kanagawa.Library.BitonicSort

namespace Kanagawa.Library.Vectors

open Lib.Except

variable {α β : Type}

/-- `vector<T, N>`; of the array the elements below `N` count. -/
structure Vec (α : Type) where
  data : Nat → α
  size : Nat

/-- The first elements, as many as the size says. -/
def Vec.toList (v : Vec α) : List α := (List.range v.size).map v.data

/-! ## Casts and copies -/

/-- `static_cast` to an unsigned type. -/
def staticCast (width : Nat) (x : Int) : Nat := (x % 2 ^ width).toNat

/-- `checked_cast` to an unsigned type. -/
def checkedCast (width : Nat) (x : Int) : Except Failure Nat := do
  let y := staticCast width x
  assert (y = x)
  return y

/-- `copy_array`. -/
def copyArray (N M : Nat) (source : Nat → α) (sFirst : Nat) (destination : Nat → α)
    (dFirst elementsToCopy : Nat) : Except Failure (Nat → α) := do
  -- Array boundary checks
  assert (elementsToCopy + sFirst ≤ N)
  assert (elementsToCopy + dFirst ≤ M)
  let srcDestOffset : Int := sFirst - dFirst
  return fun i =>
    if i ≥ dFirst ∧ i < dFirst + elementsToCopy then source (i + srcDestOffset).toNat
    else destination i

/-- `make_vector`. -/
def makeVector (N : Nat) (a : Nat → α) (s : Nat) : Except Failure (Vec α) := do
  assert (s ≤ N)
  return ⟨a, s⟩

/-- `resize`. -/
def resize (N : Nat) (v : Vec α) (length : Nat) : Except Failure (Vec α) := do
  assert (length ≤ N)
  return { v with size := length }

/-! ## The operations -/

/-- `insert`. -/
def insert (N : Nat) (v : Vec α) (pos : Nat) (value : α) : Except Failure (Vec α) := do
  assert (pos ≤ v.size && v.size < N)
  let elementsToCopy ← checkedCast (countWidth N) ((v.size : Int) - pos)
  let data ← copyArray N N v.data pos v.data (staticCast (indexWidth N) (pos + 1)) elementsToCopy
  return ⟨fun i => if i = pos then value else data i, (v.size + 1) % 2 ^ countWidth N⟩

/-- `erase`. -/
def erase (N : Nat) (v : Vec α) (pos : Nat) : Except Failure (Vec α) := do
  assert (pos < v.size && v.size > 0)
  let sFirst ← checkedCast (indexWidth N) (pos + 1)
  let elementsToCopy ← checkedCast (countWidth N) ((v.size : Int) - pos - 1)
  let data ← copyArray N N v.data sFirst v.data pos elementsToCopy
  return ⟨data, v.size - 1⟩

/-- `push_back`. -/
def pushBack (N : Nat) (x : α) (v : Vec α) : Except Failure (Vec α) := do
  assert (v.size < N)
  return ⟨fun i => if i = v.size then x else v.data i, (v.size + 1) % 2 ^ countWidth N⟩

/-- `pop_back`. -/
def popBack (v : Vec α) : Except Failure (Vec α) := do
  assert (v.size > 0)
  return { v with size := v.size - 1 }

/-- `append`. -/
def append (N : Nat) (x y : Vec α) : Except Failure (Vec α) := do
  assert (x.size + y.size ≤ N)
  let dFirst ← checkedCast (indexWidth N) x.size
  let data ← copyArray N N y.data 0 x.data dFirst y.size
  let length ← checkedCast (countWidth N) (x.size + y.size)
  resize N ⟨data, x.size⟩ length

/-- `gather`. -/
def gatherVector [Inhabited α] (N : Nat) (valids : Nat → Bool) (data : Nat → α) :
    Except Failure (Vec α) :=
  let gathered := gather N valids data
  makeVector N gathered.1 gathered.2

/-- `scatter`; an entry that is not valid keeps whatever the array starts with. -/
def scatter (N : Nat) (valids : Nat → Bool) (data unset : Nat → α) : Except Failure (Vec α) :=
  let result := fun i =>
    if valids i then if i = 0 then data 0 else data (prefixSum N valids (i - 1)) else unset i
  makeVector N result (prefixSum N valids (N - 1))

/-- `map_optional`. -/
def mapOptional [Inhabited β] (N : Nat) (f : α → Option β) (v : Vec α) : Except Failure (Vec β) :=
  let opts := fun i => if i < v.size then f (v.data i) else none
  let elems := fun i => (opts i).getD default
  let valids := fun i => decide (i < v.size) && (opts i).isSome
  gatherVector N valids elems

/-- `unique_by` of an array: an element is valid when no earlier one equals it. -/
def uniqueByArray (equalityFn : α → α → Bool) (xs : Nat → α) : Nat → Option α :=
  fun i => if (List.range i).any fun j => equalityFn (xs j) (xs i) then none else some (xs i)

/-- `equal_by` of optionals. -/
def equalBy (equalityFn : α → α → Bool) : Option α → Option α → Bool
  | none, none => true
  | some x, some y => equalityFn x y
  | _, _ => false

/-- `unique_by`. -/
def uniqueBy (N : Nat) (equalityFn : α → α → Bool) (v : Vec α) : Except Failure (Vec (Option α)) :=
  let es := fun i => if i < v.size then some (v.data i) else none
  let xs := uniqueByArray (equalBy equalityFn) es
  makeVector N (fun i => (xs i).join) v.size

/-- A level of the reducer tree, with a function that may fail. -/
def reduceLevelM (f : α → α → Except Failure α) : List α → Except Failure (List α)
  | x :: y :: xs => do
      let z ← f x y
      let zs ← reduceLevelM f xs
      return z :: zs
  | xs => .ok xs

/-- The levels of the reducer tree. -/
def reduceLevelsM (f : α → α → Except Failure α) : Nat → List α → Except Failure (List α)
  | 0, xs => .ok xs
  | levels + 1, xs => do
      let xs ← reduceLevelM f xs
      reduceLevelsM f levels xs

/-- The reducer of optionals: a valid element behind one that is not valid is a failure. -/
def reduceValid (f : α → α → α) (l r : Option α) : Except Failure (Option α) := do
  assert (!r.isSome || l.isSome)
  match l, r with
  | some x, some y => return some (f x y)
  | _, _ => return l

/-- `reduce`; a vector without elements gives whatever `uninit` is. -/
def reduceVector (N : Nat) (f : α → α → α) (v : Vec α) (uninit : α) : Except Failure α := do
  let values := (List.range N).map fun i => if i < v.size then some (v.data i) else none
  let result ← reduceLevelsM (reduceValid f) N values
  return result.head?.join.getD uninit

/-! ## Elements -/

theorem getElem?_toList (v : Vec α) (i : Nat) :
    v.toList[i]? = if i < v.size then some (v.data i) else none := by
  rw [Vec.toList, List.getElem?_map]
  split
  case isTrue h => rw [List.getElem?_range h, Option.map_some]
  case isFalse h => rw [List.getElem?_eq_none (by simpa using h), Option.map_none]

@[simp] theorem length_toList (v : Vec α) : v.toList.length = v.size := by simp [Vec.toList]

/-- A vector without a failure, of the given elements. -/
def Yields (N : Nat) (result : Except Failure (Vec α)) (xs : List α) : Prop :=
  ∃ v, result = .ok v ∧ v.size ≤ N ∧ v.toList = xs

theorem staticCast_eq {width n : Nat} (h : n < 2 ^ width) : staticCast width n = n := by
  rw [staticCast, Int.emod_eq_of_lt (Int.natCast_nonneg n) (by exact_mod_cast h), Int.toNat_natCast]

theorem checkedCast_ok {width n : Nat} {x : Int} (hx : x = n) (h : n < 2 ^ width) :
    checkedCast width x = .ok n := by
  subst hx
  rw [checkedCast, staticCast_eq h, assert_of_true (by simp)]
  rfl

/-- A power of two is cast to zero. -/
theorem checkedCast_error {width n : Nat} {x : Int} (hx : x = n) (h : 2 ^ width = n) :
    checkedCast width x = .error .assertion := by
  have hpos := Nat.two_pow_pos width
  have hzero : staticCast width x = 0 := by
    rw [staticCast, hx, ← h]
    push_cast
    rw [Int.emod_self]
    rfl
  have hne : decide (((0 : Nat) : Int) = x) = false := by
    rw [decide_eq_false_iff_not, hx]
    omega
  rw [checkedCast, hzero]
  simp only [hne]
  rfl

theorem copyArray_ok (source destination : Nat → α) {N M sFirst dFirst n : Nat} (hs : n + sFirst ≤ N)
    (hd : n + dFirst ≤ M) :
    ∃ r, copyArray N M source sFirst destination dFirst n = .ok r ∧
      ∀ i, r i = if dFirst ≤ i ∧ i < dFirst + n then source (i - dFirst + sFirst)
        else destination i := by
  refine ⟨fun i => if dFirst ≤ i ∧ i < dFirst + n then source (i - dFirst + sFirst)
    else destination i, ?_, fun i => rfl⟩
  rw [copyArray, assert_of_true (by simpa using hs), assert_of_true (by simpa using hd)]
  refine congrArg Except.ok (funext fun i => ?_)
  by_cases h : dFirst ≤ i ∧ i < dFirst + n
  · rw [if_pos h, if_pos h]
    congr 1
    omega
  · rw [if_neg h, if_neg h]

/-- A vector whose elements are those of a list. -/
theorem yields_of {N : Nat} {v : Vec α} {xs : List α} (hsize : v.size ≤ N)
    (hxs : ∀ i, xs[i]? = if i < v.size then some (v.data i) else none) : Yields N (.ok v) xs := by
  refine ⟨v, rfl, hsize, List.ext_getElem? fun i => ?_⟩
  rw [getElem?_toList, hxs]

section Operations

variable {N : Nat} {v : Vec α}

theorem insert_yields {pos : Nat} (hpos : pos ≤ v.size) (hsize : v.size < N) (value : α) :
    Yields N (insert N v pos value) (v.toList.insertIdx pos value) := by
  have hcount := lt_two_pow_countWidth N
  have hindex := le_two_pow_indexWidth N
  have hcast := checkedCast_ok (show (v.size : Int) - pos = (v.size - pos : Nat) by omega)
    (show v.size - pos < 2 ^ countWidth N by omega)
  -- The position behind the new element wraps only where nothing is copied
  obtain ⟨data, hcopy, hdata⟩ : ∃ data,
      copyArray N N v.data pos v.data (staticCast (indexWidth N) (pos + 1)) (v.size - pos)
        = .ok data ∧
      ∀ i, i ≠ pos → i ≤ v.size → data i = if i < pos then v.data i else v.data (i - 1) := by
    by_cases hwrap : pos + 1 < 2 ^ indexWidth N
    · have hnext := staticCast_eq hwrap
      push_cast at hnext
      rw [hnext]
      obtain ⟨data, hcopy, hdata⟩ := copyArray_ok v.data v.data
        (show v.size - pos + pos ≤ N by omega) (show v.size - pos + (pos + 1) ≤ N by omega)
      refine ⟨data, hcopy, fun i hne hi => ?_⟩
      rw [hdata]
      by_cases hlt : i < pos
      · rw [if_neg (by omega), if_pos hlt]
      · rw [if_pos (by omega), if_neg hlt]
        congr 1
        omega
    · have hnone : v.size - pos = 0 := by omega
      have hcast0 : staticCast (indexWidth N) (pos + 1) ≤ N := by
        have heq : 2 ^ indexWidth N = pos + 1 := by omega
        have hzero : staticCast (indexWidth N) (pos + 1) = 0 := by
          rw [staticCast, show ((pos : Int) + 1) = ((2 ^ indexWidth N : Nat) : Int) by
            rw [heq]; push_cast; rfl]
          push_cast
          rw [Int.emod_self]
          rfl
        omega
      obtain ⟨data, hcopy, hdata⟩ := copyArray_ok v.data v.data
        (show v.size - pos + pos ≤ N by omega)
        (show v.size - pos + staticCast (indexWidth N) (pos + 1) ≤ N by omega)
      refine ⟨data, hcopy, fun i hne hi => ?_⟩
      rw [hdata, if_neg (by omega), if_pos (by omega)]
  have hnew : insert N v pos value = .ok ⟨fun i => if i = pos then value else data i, v.size + 1⟩ := by
    rw [insert, assert_of_true (by simp [hpos, hsize]), hcast]
    simp only [ok_bind, hcopy]
    rw [Nat.mod_eq_of_lt (by omega)]
    rfl
  rw [hnew]
  refine yields_of (show v.size + 1 ≤ N by omega) fun i => ?_
  rw [List.getElem?_insertIdx, getElem?_toList, getElem?_toList, length_toList]
  show _ = if i < v.size + 1 then some (if i = pos then value else data i) else none
  by_cases hi : i = pos
  · subst hi
    rw [if_neg (Nat.lt_irrefl i), if_pos rfl, if_pos hpos, if_pos (by omega), if_pos rfl]
  · by_cases hlt : i < pos
    · rw [if_pos hlt, if_pos (by omega), if_pos (by omega), if_neg hi, hdata i hi (by omega),
        if_pos hlt]
    · rw [if_neg hlt, if_neg hi]
      by_cases hin : i < v.size + 1
      · rw [if_pos (by omega), if_pos hin, if_neg hi, hdata i hi (by omega), if_neg hlt]
      · rw [if_neg (by omega), if_neg hin]

/-- The position behind the last element of a full vector is no index if its length is a power of
    two. -/
theorem erase_yields_iff {pos : Nat} (hpos : pos < v.size) (hsize : v.size ≤ N) :
    Yields N (erase N v pos) (v.toList.eraseIdx pos) ↔ ¬(2 ^ indexWidth N = N ∧ pos + 1 = N) := by
  have hcount := lt_two_pow_countWidth N
  have hindex := le_two_pow_indexWidth N
  have hassert : assert (decide (pos < v.size) && decide (v.size > 0)) = .ok () :=
    assert_of_true (by simp [hpos]; omega)
  constructor
  · rintro ⟨u, hu, -⟩ ⟨hpow, hlast⟩
    rw [erase, hassert, checkedCast_error (show ((pos : Int) + 1) = (N : Nat) by omega) hpow] at hu
    cases hu
  · intro hroom
    have hfirst := checkedCast_ok (show ((pos : Int) + 1) = (pos + 1 : Nat) by omega)
      (show pos + 1 < 2 ^ indexWidth N by omega)
    have hcast := checkedCast_ok (show (v.size : Int) - pos - 1 = (v.size - pos - 1 : Nat) by omega)
      (show v.size - pos - 1 < 2 ^ countWidth N by omega)
    obtain ⟨data, hcopy, hdata⟩ := copyArray_ok v.data v.data
      (show v.size - pos - 1 + (pos + 1) ≤ N by omega) (show v.size - pos - 1 + pos ≤ N by omega)
    have hnew : erase N v pos = .ok ⟨data, v.size - 1⟩ := by
      rw [erase, hassert, hfirst, hcast]
      simp only [ok_bind, hcopy]
      rfl
    rw [hnew]
    refine yields_of (show v.size - 1 ≤ N by omega) fun i => ?_
    rw [List.getElem?_eraseIdx, getElem?_toList, getElem?_toList]
    show _ = if i < v.size - 1 then some (data i) else none
    rw [hdata]
    by_cases hlt : i < pos
    · rw [if_pos hlt, if_pos (by omega), if_pos (by omega), if_neg (by omega)]
    · rw [if_neg hlt]
      by_cases hin : i < v.size - 1
      · rw [if_pos (by omega), if_pos hin, if_pos (by omega)]
        congr 2
        omega
      · rw [if_neg (by omega), if_neg hin]

theorem pushBack_yields (hsize : v.size < N) (x : α) :
    Yields N (pushBack N x v) (v.toList ++ [x]) := by
  have hcount := lt_two_pow_countWidth N
  have hnew : pushBack N x v
      = .ok ⟨fun i => if i = v.size then x else v.data i, v.size + 1⟩ := by
    rw [pushBack, assert_of_true (by simpa using hsize), Nat.mod_eq_of_lt (by omega)]
    rfl
  rw [hnew]
  refine yields_of hsize fun i => ?_
  rw [List.getElem?_append, length_toList, getElem?_toList]
  show _ = if i < v.size + 1 then some (if i = v.size then x else v.data i) else none
  by_cases hlt : i < v.size
  · rw [if_pos hlt, if_pos hlt, if_pos (by omega), if_neg (by omega)]
  · rw [if_neg hlt]
    by_cases heq : i = v.size
    · rw [if_pos (by omega), if_pos heq, heq, Nat.sub_self]
      rfl
    · rw [if_neg (by omega), List.getElem?_eq_none (by rw [List.length_singleton]; omega)]

theorem popBack_yields (hpos : 0 < v.size) (hsize : v.size ≤ N) :
    Yields N (popBack v) v.toList.dropLast := by
  have hnew : popBack v = .ok { v with size := v.size - 1 } := by
    rw [popBack, assert_of_true (by simpa using hpos)]
    rfl
  rw [hnew]
  refine yields_of (show v.size - 1 ≤ N by omega) fun i => ?_
  rw [List.getElem?_dropLast, length_toList, getElem?_toList]
  show _ = if i < v.size - 1 then some (v.data i) else none
  by_cases hlt : i < v.size - 1
  · rw [if_pos hlt, if_pos hlt, if_pos (by omega)]
  · rw [if_neg hlt, if_neg hlt]

/-- The length of a full vector is no index if it is a power of two. -/
theorem append_yields_iff {w : Vec α} (hsize : v.size + w.size ≤ N) :
    Yields N (append N v w) (v.toList ++ w.toList) ↔ ¬(2 ^ indexWidth N = N ∧ v.size = N) := by
  have hcount := lt_two_pow_countWidth N
  have hindex := le_two_pow_indexWidth N
  have hassert : assert (decide (v.size + w.size ≤ N)) = .ok () :=
    assert_of_true (by simpa using hsize)
  constructor
  · rintro ⟨u, hu, -⟩ ⟨hpow, hfull⟩
    rw [append, hassert, checkedCast_error (show (v.size : Int) = (N : Nat) by omega) hpow] at hu
    cases hu
  · intro hroom
    have hfirst := checkedCast_ok (show (v.size : Int) = (v.size : Nat) from rfl)
      (show v.size < 2 ^ indexWidth N by omega)
    have hcast := checkedCast_ok (show (v.size : Int) + w.size = (v.size + w.size : Nat) by omega)
      (show v.size + w.size < 2 ^ countWidth N by omega)
    obtain ⟨data, hcopy, hdata⟩ := copyArray_ok w.data v.data
      (show w.size + 0 ≤ N by omega) (show w.size + v.size ≤ N by omega)
    have hnew : append N v w = .ok ⟨data, v.size + w.size⟩ := by
      rw [append, hassert, hfirst]
      simp only [ok_bind, hcopy, hcast, resize, hassert]
      rfl
    rw [hnew]
    refine yields_of hsize fun i => ?_
    rw [List.getElem?_append, length_toList, getElem?_toList, getElem?_toList]
    show _ = if i < v.size + w.size then some (data i) else none
    rw [hdata]
    by_cases hlt : i < v.size
    · rw [if_pos hlt, if_pos hlt, if_pos (by omega), if_neg (by omega)]
    · rw [if_neg hlt]
      by_cases hin : i < v.size + w.size
      · rw [if_pos (by omega), if_pos hin, if_pos (by omega), Nat.add_zero]
      · rw [if_neg (by omega), if_neg hin]

end Operations

/-! ## Gathering and scattering -/

section Masks

variable {N : Nat} (valids : Nat → Bool) (data : Nat → α)

/-- Gathering filters the elements. -/
theorem gatherVector_yields [Inhabited α] (hN : 0 < N) :
    Yields N (gatherVector N valids data) (((List.range N).filter valids).map data) := by
  have hsize := gather_size valids data hN
  have hle : (gather N valids data).2 ≤ N := hsize ▸ Nat.count_le _
  rw [gatherVector, makeVector, assert_of_true (by simpa using hle)]
  refine yields_of hle fun i => ?_
  show _ = if i < (gather N valids data).2 then some ((gather N valids data).1 i) else none
  rw [List.getElem?_map, hsize]
  by_cases hi : i < Nat.count (valids · = true) N
  · obtain ⟨k, hk, hvalid, rfl⟩ := exists_of_lt_count hi
    rw [if_pos hi, getElem?_filter_range.mpr ⟨hk, hvalid, rfl⟩, gather_data valids data hk hvalid]
    rfl
  · rw [if_neg hi, List.getElem?_eq_none (by rw [length_filter_range]; omega)]
    rfl

/-- Scattering puts the elements in order where the mask is set. -/
theorem scatter_ok (hN : 0 < N) (unset : Nat → α) :
    ∃ r, scatter N valids data unset = .ok r ∧ r.size = Nat.count (valids · = true) N ∧
      r.size ≤ N ∧
      ∀ i, i < N → valids i = true → r.data i = data (Nat.count (valids · = true) i) := by
  have hsize : prefixSum N valids (N - 1) = Nat.count (valids · = true) N := by
    rw [prefixSum_eq_count valids (by omega), Nat.sub_add_cancel hN]
  have hle : prefixSum N valids (N - 1) ≤ N := hsize ▸ Nat.count_le _
  refine ⟨⟨fun i => if valids i then if i = 0 then data 0 else data (prefixSum N valids (i - 1))
    else unset i, prefixSum N valids (N - 1)⟩, ?_, hsize, hle, fun i hi hvalid => ?_⟩
  · rw [scatter, makeVector, assert_of_true (by simpa using hle)]
    rfl
  · simp only [hvalid, if_true]
    by_cases h0 : i = 0
    · rw [if_pos h0, h0, Nat.count_zero]
    · rw [if_neg h0, prefixSum_eq_count valids (by omega), Nat.sub_add_cancel (by omega)]

/-- Gathering what was scattered under the same mask gives the data back. -/
theorem gather_scatter [Inhabited α] (hN : 0 < N) (unset : Nat → α) :
    ∃ r, scatter N valids data unset = .ok r ∧
      Yields N (gatherVector N valids r.data) ((List.range r.size).map data) := by
  obtain ⟨r, hr, hsize, -, hdata⟩ := scatter_ok valids data hN unset
  refine ⟨r, hr, ?_⟩
  have hlist : ((List.range N).filter valids).map r.data = (List.range r.size).map data := by
    apply List.ext_getElem?
    intro i
    rw [List.getElem?_map, List.getElem?_map, hsize]
    by_cases hi : i < Nat.count (valids · = true) N
    · obtain ⟨k, hk, hvalid, rfl⟩ := exists_of_lt_count hi
      rw [getElem?_filter_range.mpr ⟨hk, hvalid, rfl⟩, List.getElem?_range hi, Option.map_some,
        Option.map_some, hdata k hk hvalid]
    · rw [List.getElem?_eq_none (by rw [length_filter_range]; omega),
        List.getElem?_eq_none (by rw [List.length_range]; omega)]
      rfl
  rw [← hlist]
  exact gatherVector_yields valids r.data hN

end Masks

/-- The present results of a function, filtered and taken out. -/
theorem filter_map_eq_filterMap [Inhabited β] (g : Nat → Option β) (ks : List Nat) :
    (ks.filter fun k => (g k).isSome).map (fun k => (g k).getD default) = ks.filterMap g := by
  induction ks with
  | nil => rfl
  | cons k ks ih =>
      cases hg : g k with
      | none => simp [hg, ih]
      | some y => simp [hg, ih]

theorem mapOptional_yields [Inhabited β] {N : Nat} {v : Vec α} (hN : 0 < N) (hsize : v.size ≤ N)
    (f : α → Option β) : Yields N (mapOptional N f v) (v.toList.filterMap f) := by
  have hlist := filter_map_eq_filterMap (fun i => if i < v.size then f (v.data i) else none)
    (List.range N)
  have hvalids : (fun i => decide (i < v.size) &&
      (if i < v.size then f (v.data i) else none).isSome)
      = fun i => (if i < v.size then f (v.data i) else none).isSome := by
    funext i
    by_cases hi : i < v.size <;> simp [hi]
  have hyields := gatherVector_yields (fun i => (if i < v.size then f (v.data i) else none).isSome)
    (fun i => (if i < v.size then f (v.data i) else none).getD default) hN
  -- Nothing comes from behind the last element
  obtain ⟨rest, rfl⟩ := Nat.exists_eq_add_of_le hsize
  have hfront : (List.range (v.size + rest)).filterMap
      (fun i => if i < v.size then f (v.data i) else none) = v.toList.filterMap f := by
    have hnone : ((List.range rest).map (v.size + ·)).filterMap
        (fun i => if i < v.size then f (v.data i) else none) = [] := by
      apply List.filterMap_eq_nil_iff.mpr
      intro i hi
      obtain ⟨j, -, rfl⟩ := List.mem_map.mp hi
      exact if_neg (by omega)
    rw [List.range_add, List.filterMap_append, hnone, List.append_nil, Vec.toList,
      List.filterMap_map]
    refine List.filterMap_congr fun i hi => ?_
    exact if_pos (List.mem_range.mp hi)
  rw [hlist, hfront] at hyields
  simp only [mapOptional, hvalids]
  exact hyields

/-- The elements of which no earlier one is equal. -/
def uniqueList (equalityFn : α → α → Bool) (xs : List α) : List (Option α) :=
  xs.mapIdx fun i x => if (xs.take i).any fun y => equalityFn y x then none else some x

theorem uniqueBy_yields {N : Nat} {v : Vec α} (hsize : v.size ≤ N) (equalityFn : α → α → Bool) :
    Yields N (uniqueBy N equalityFn v) (uniqueList equalityFn v.toList) := by
  rw [uniqueBy, makeVector, assert_of_true (by simpa using hsize)]
  refine yields_of hsize fun i => ?_
  rw [uniqueList, List.getElem?_mapIdx, getElem?_toList]
  by_cases hi : i < v.size
  · have htake : v.toList.take i = (List.range i).map v.data := by
      rw [Vec.toList, ← List.map_take, List.take_range, Nat.min_eq_left hi.le]
    have hany : (List.range i).any (fun j => equalBy equalityFn
        (if j < v.size then some (v.data j) else none)
        (if i < v.size then some (v.data i) else none))
        = (v.toList.take i).any fun y => equalityFn y (v.data i) := by
      rw [htake, List.any_map]
      rw [Bool.eq_iff_iff, List.any_eq_true, List.any_eq_true]
      refine exists_congr fun j => and_congr_right fun hj => ?_
      rw [if_pos (by have := List.mem_range.mp hj; omega), if_pos hi]
      rfl
    simp only [hi, if_true, Option.map_some, uniqueByArray] at hany ⊢
    rw [hany]
    split <;> rfl
  · rw [if_neg hi]
    exact (if_neg hi).symm

/-! ## Reduction -/

/-- A level of optionals of which none is valid. -/
theorem reduceLevelM_nones (f : α → α → α) (k : Nat) :
    ∃ k', reduceLevelM (reduceValid f) (List.replicate k none) = .ok (List.replicate k' none) := by
  induction k using Nat.strong_induction_on with
  | _ k ih =>
      match k with
      | 0 => exact ⟨0, rfl⟩
      | 1 => exact ⟨1, rfl⟩
      | k + 2 =>
          obtain ⟨k', hk'⟩ := ih k (by omega)
          refine ⟨k' + 1, ?_⟩
          rw [List.replicate_succ, List.replicate_succ, reduceLevelM]
          simp only [hk']
          rfl

/-- A level of valid elements in front of others is the level of the elements. -/
theorem reduceLevelM_eq (f : α → α → α) (xs : List α) (k : Nat) :
    ∃ k', reduceLevelM (reduceValid f) (xs.map some ++ List.replicate k none)
      = .ok ((reduceLevel f xs).map some ++ List.replicate k' none) := by
  induction xs using reduceLevel.induct with
  | case1 x y xs ih =>
      obtain ⟨k', hk'⟩ := ih
      refine ⟨k', ?_⟩
      simp only [List.map_cons, List.cons_append, reduceLevelM, reduceLevel, hk']
      rfl
  | case2 xs h =>
      rcases xs with _ | ⟨x, _ | ⟨y, xs⟩⟩
      · exact reduceLevelM_nones f k
      · cases k with
        | zero => exact ⟨0, rfl⟩
        | succ k =>
            obtain ⟨k', hk'⟩ := reduceLevelM_nones f k
            refine ⟨k', ?_⟩
            rw [List.replicate_succ, List.map_singleton, List.singleton_append, reduceLevelM]
            simp only [hk']
            rfl
      · exact absurd rfl (h x y xs)

theorem reduceLevelsM_eq (f : α → α → α) (levels : Nat) (xs : List α) (k : Nat) :
    ∃ k', reduceLevelsM (reduceValid f) levels (xs.map some ++ List.replicate k none)
      = .ok ((reduceLevels f levels xs).map some ++ List.replicate k' none) := by
  induction levels generalizing xs k with
  | zero => exact ⟨k, rfl⟩
  | succ levels ih =>
      obtain ⟨k₁, hlevel⟩ := reduceLevelM_eq f xs k
      obtain ⟨k', hlevels⟩ := ih (reduceLevel f xs) k₁
      refine ⟨k', ?_⟩
      rw [reduceLevelsM, hlevel]
      exact hlevels

/-- More levels than elements do not change the result. -/
theorem reduceLevels_add (f : α → α → α) (xs : List α) (more : Nat) :
    reduceLevels f (xs.length + more) xs = reduceLevels f xs.length xs := by
  have hadd : ∀ a b (ys : List α), reduceLevels f (a + b) ys
      = reduceLevels f b (reduceLevels f a ys) := by
    intro a b
    induction a with
    | zero => exact fun ys => by rw [Nat.zero_add]; rfl
    | succ a ih => exact fun ys => by rw [Nat.succ_add]; exact ih _
  have hstay : ∀ (b : Nat) (ys : List α), ys.length ≤ 1 → reduceLevels f b ys = ys := by
    intro b
    induction b with
    | zero => exact fun ys _ => rfl
    | succ b ih =>
        intro ys hys
        match ys, hys with
        | [], _ => exact ih [] (by simp)
        | [y], _ => exact ih [y] (by simp)
  rw [hadd]
  apply hstay
  by_cases hpos : 0 < xs.length
  · exact (length_reduceLevels f (Nat.le_refl _) hpos).le
  · obtain rfl := List.length_eq_zero_iff.mp (by omega : xs.length = 0)
    simp [reduceLevels]

/-- The valid elements come first, so that no reducer fails. -/
theorem reduceVector_eq {N : Nat} {v : Vec α} (hsize : v.size ≤ N) (f : α → α → α) (uninit : α) :
    reduceVector N f v uninit = .ok ((reduce f v.toList).getD uninit) := by
  obtain ⟨more, rfl⟩ := Nat.exists_eq_add_of_le hsize
  have hvalues : (List.range (v.size + more)).map
      (fun i => if i < v.size then some (v.data i) else none)
      = v.toList.map some ++ List.replicate more none := by
    rw [List.range_add, List.map_append, List.map_map, Vec.toList, List.map_map]
    congr 1
    · refine List.map_congr_left fun i hi => ?_
      exact if_pos (List.mem_range.mp hi)
    · apply List.eq_replicate_iff.mpr
      refine ⟨by simp, fun x hx => ?_⟩
      obtain ⟨i, -, rfl⟩ := List.mem_map.mp hx
      exact if_neg (by simp)
  obtain ⟨k, hlevels⟩ := reduceLevelsM_eq f (v.size + more) v.toList more
  have hsame := reduceLevels_add f v.toList more
  rw [length_toList] at hsame
  rw [reduceVector, hvalues, hlevels, hsame, reduce, length_toList]
  cases reduceLevels f v.size v.toList with
  | nil => cases k <;> rfl
  | cons z zs => rfl

/-! ## All operations -/

/-- The operations of vectors are those of lists, except that `erase` of the last element of a full
    vector and `append` to a full vector fail where the length is a power of two. -/
theorem vector_operations_iff [Inhabited α] {N : Nat} (hN : 0 < N) {v w : Vec α}
    (hv : v.size ≤ N) :
    (∀ pos value, pos ≤ v.size → v.size < N →
      Yields N (insert N v pos value) (v.toList.insertIdx pos value)) ∧
    (∀ pos, pos < v.size →
      (Yields N (erase N v pos) (v.toList.eraseIdx pos) ↔
        ¬(2 ^ indexWidth N = N ∧ pos + 1 = N))) ∧
    (∀ x, v.size < N → Yields N (pushBack N x v) (v.toList ++ [x])) ∧
    (0 < v.size → Yields N (popBack v) v.toList.dropLast) ∧
    (v.size + w.size ≤ N →
      (Yields N (append N v w) (v.toList ++ w.toList) ↔
        ¬(2 ^ indexWidth N = N ∧ v.size = N))) ∧
    (∀ (valids : Nat → Bool) (data unset : Nat → α),
      Yields N (gatherVector N valids data) (((List.range N).filter valids).map data) ∧
      ∃ r, scatter N valids data unset = .ok r ∧
        r.size = ((List.range N).filter valids).length ∧
        (∀ i, i < N → valids i = true → r.data i = data (Nat.count (valids · = true) i)) ∧
        Yields N (gatherVector N valids r.data) ((List.range r.size).map data)) ∧
    (∀ f : α → Option α, Yields N (mapOptional N f v) (v.toList.filterMap f)) ∧
    (∀ equalityFn, Yields N (uniqueBy N equalityFn v) (uniqueList equalityFn v.toList)) ∧
    ∀ (f : α → α → α) (uninit : α),
      reduceVector N f v uninit = .ok ((reduce f v.toList).getD uninit) ∧
      ((∀ a b c, f (f a b) c = f a (f b c)) → ∀ x xs, v.toList = x :: xs →
        reduceVector N f v uninit = .ok (xs.foldl f x)) := by
  refine ⟨fun pos value hpos hsize => insert_yields hpos hsize value,
    fun pos hpos => erase_yields_iff hpos hv, fun x hsize => pushBack_yields hsize x,
    fun hpos => popBack_yields hpos hv, append_yields_iff, fun valids data unset => ?_,
    mapOptional_yields hN hv, uniqueBy_yields hv, fun f uninit => ⟨reduceVector_eq hv f uninit, ?_⟩⟩
  · refine ⟨gatherVector_yields valids data hN, ?_⟩
    obtain ⟨r, hr, hsize, -, hdata⟩ := scatter_ok valids data hN unset
    obtain ⟨r', hr', hyields⟩ := gather_scatter valids data hN unset
    obtain rfl : r = r' := Except.ok.inj (hr.symm.trans hr')
    exact ⟨r, hr, by rw [hsize, length_filter_range], hdata, hyields⟩
  · intro hf x xs hlist
    rw [reduceVector_eq hv, hlist, reduce_eq_foldl hf]
    rfl

/-- A vector of three elements with room for five. -/
theorem vector_operations_iff_three :
    Yields 5 (insert 5 ⟨fun i => 10 * i, 3⟩ 1 7) [0, 7, 10, 20] ∧
      Yields 5 (erase 5 ⟨fun i => 10 * i, 3⟩ 2) [0, 10] := by
  have hv : (⟨fun i => 10 * i, 3⟩ : Vec Nat).size ≤ 5 := by decide
  have h := vector_operations_iff (show 0 < 5 by decide) hv (w := ⟨fun i => i, 0⟩)
  exact ⟨h.1 1 7 (by decide) (by decide), (h.2.1 2 (by decide)).mpr (by decide)⟩

/-- The last of four elements is not erased. -/
theorem erase_last_fails :
    erase 4 ⟨fun i => i, 4⟩ 3 = .error .assertion ∧
      append 4 ⟨fun i => i, 4⟩ ⟨fun i => i, 0⟩ = .error .assertion := by
  have hwidth : indexWidth 4 = 2 := by decide
  constructor
  · rw [erase, hwidth]
    rfl
  · rw [append, hwidth]
    rfl

/-! ## Sequences of operations -/

/-- The operations that change a vector. -/
inductive VectorOp (α : Type) where
  | insert (pos : Nat) (value : α) | erase (pos : Nat) | pushBack (x : α) | popBack

def VectorOp.run (N : Nat) (v : Vec α) : VectorOp α → Except Failure (Vec α)
  | insert pos value => Vectors.insert N v pos value
  | erase pos => Vectors.erase N v pos
  | pushBack x => Vectors.pushBack N x v
  | popBack => Vectors.popBack v

/-- The operations of a list with room for `N` elements. The last of `N` is not erased where `N`
    is no value of an index. -/
def VectorOp.apply (N : Nat) (xs : List α) : VectorOp α → Option (List α)
  | insert pos value =>
    if pos ≤ xs.length ∧ xs.length < N then some (xs.insertIdx pos value) else none
  | erase pos =>
    if pos < xs.length ∧ ¬(2 ^ indexWidth N = N ∧ pos + 1 = N) then some (xs.eraseIdx pos) else none
  | pushBack x => if xs.length < N then some (xs ++ [x]) else none
  | popBack => if 0 < xs.length then some xs.dropLast else none

section Sequences

variable {N : Nat} {v : Vec α}

/-- Both fail, or the vector has the elements of the list. -/
def Agrees (N : Nat) (result : Except Failure (Vec α)) : Option (List α) → Prop
  | some xs => Yields N result xs
  | none => result = .error .assertion

theorem agrees_ite {result : Except Failure (Vec α)} {C : Prop} [Decidable C] {xs : List α}
    (hok : C → Yields N result xs) (herror : ¬C → result = .error .assertion) :
    Agrees N result (if C then some xs else none) := by
  split
  · exact hok ‹C›
  · exact herror ‹¬C›

/-- An operation does to a vector what it does to the list of its elements. -/
theorem run_agrees (hv : v.size ≤ N) (op : VectorOp α) :
    Agrees N (op.run N v) (op.apply N v.toList) := by
  cases op with
  | insert pos value =>
      refine agrees_ite (fun h => ?_) fun h => ?_ <;> rw [length_toList] at h
      · exact insert_yields h.1 h.2 value
      · simp only [VectorOp.run, Vectors.insert, ← Bool.decide_and, assert, decide_eq_true_iff, h]
        rfl
  | erase pos =>
      refine agrees_ite (fun h => ?_) fun h => ?_ <;> rw [length_toList] at h
      · exact (erase_yields_iff h.1 hv).mpr h.2
      · simp only [VectorOp.run, Vectors.erase]
        by_cases hpos : pos < v.size
        · obtain ⟨hpow, hlast⟩ := not_not.mp fun hnot => h ⟨hpos, hnot⟩
          rw [assert_of_true (by simp [hpos]; omega),
            checkedCast_error (show ((pos : Int) + 1) = (N : Nat) by omega) hpow]
          rfl
        · simp [assert, hpos]
  | pushBack x =>
      refine agrees_ite (fun h => ?_) fun h => ?_ <;> rw [length_toList] at h
      · exact pushBack_yields h x
      · simp only [VectorOp.run, Vectors.pushBack, assert, decide_eq_true_iff, h]
        rfl
  | popBack =>
      refine agrees_ite (fun h => ?_) fun h => ?_ <;> rw [length_toList] at h
      · exact popBack_yields h hv
      · simp only [VectorOp.run, Vectors.popBack, assert, decide_eq_true_iff, gt_iff_lt, h]
        rfl

/-- Any sequence of operations on a vector fails if it does on the list of its elements, and gives
    the vector of the list that it gives there otherwise. -/
theorem run_refines_list (hv : v.size ≤ N) (ops : List (VectorOp α)) :
    Agrees N (ops.foldlM (VectorOp.run N) v) (ops.foldlM (VectorOp.apply N) v.toList) := by
  induction ops generalizing v with
  | nil => exact ⟨v, rfl, hv, rfl⟩
  | cons op ops ih =>
      have hstep := run_agrees hv op
      rw [List.foldlM_cons, List.foldlM_cons]
      cases happly : op.apply N v.toList with
      | none =>
          rw [happly] at hstep
          rw [show op.run N v = .error .assertion from hstep]
          exact rfl
      | some xs =>
          rw [happly] at hstep
          obtain ⟨w, hw, hsize, rfl⟩ := hstep
          rw [hw]
          exact ih hsize

end Sequences

/-- Of four elements the first one is erased, and then there is room for another one. -/
theorem run_refines_list_four :
    Yields 4 ([.erase 0, .pushBack 9].foldlM (VectorOp.run 4) ⟨fun i => i, 4⟩) [1, 2, 3, 9] := by
  have hrun := run_refines_list (v := ⟨fun i => i, 4⟩) (N := 4) (by decide) [.erase 0, .pushBack 9]
  rwa [show [VectorOp.erase 0, .pushBack 9].foldlM (VectorOp.apply 4)
    (Vec.toList ⟨fun i => i, 4⟩) = some [1, 2, 3, 9] by decide] at hrun

end Kanagawa.Library.Vectors
