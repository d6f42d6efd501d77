/-
  Kanagawa.Library.UnalignedMemory

  The memories of `data/memory/unaligned.k`, which spread their elements over
  banks so that a word can be read from any address, against one flat array.

  `unaligned_read_unaligned_write_memory` has a bank for each element of a
  word. `unaligned_read_aligned_write_memory` has vertical banks, which split
  a word, and horizontal banks, which hold one word each; how many depends on
  the ratio of the read word to the written one. Element `x` of the flat array
  is in the bank and at the row that its address gives, and a read finds the
  row of each bank by rounding its address up to the bank.
-/
import Kanagawa.Lib.Runs
import Kanagawa.Library.Arrays
import Kanagawa.Library.Ring

namespace Kanagawa.Library

open Runs

variable {α : Type*}

/-! ## Rows, words and the flat array -/

/-- Reading an entry of a memory: as many low bits of the address count as its index type has. -/
def Memory.readRow {depth : Nat} (m : Memory α depth) (row : Nat) (unknown : α) : α :=
  m.read (row % 2 ^ indexWidth depth) unknown

/-- Writing an entry of a memory. -/
def Memory.writeRow {depth : Nat} (m : Memory α depth) (row : Nat) (v : α) : Memory α depth :=
  m.write (row % 2 ^ indexWidth depth) v

section Rows

variable {depth row row' : Nat} (m : Memory α depth)

theorem mod_two_pow_indexWidth {n i : Nat} (h : i < n) : i % 2 ^ indexWidth n = i :=
  Nat.mod_eq_of_lt (Nat.lt_of_lt_of_le h (le_two_pow_indexWidth n))

theorem readRow_of_lt (h : row < depth) (u u' : α) : m.readRow row u = m.readRow row u' := by
  rw [Memory.readRow, Memory.readRow, mod_two_pow_indexWidth h]
  exact m.read_of_lt h u u'

theorem readRow_writeRow_self (h : row < depth) (v u : α) :
    (m.writeRow row v).readRow row u = v := by
  rw [Memory.readRow, Memory.writeRow, mod_two_pow_indexWidth h]
  exact m.read_write_self h v u

theorem readRow_writeRow_of_ne (h : row < depth) (h' : row' < depth) (hne : row ≠ row') (v u : α) :
    (m.writeRow row v).readRow row' u = m.readRow row' u := by
  rw [Memory.readRow, Memory.writeRow, Memory.readRow, mod_two_pow_indexWidth h,
    mod_two_pow_indexWidth h']
  exact m.read_write_of_ne hne v u

end Rows

variable [Inhabited α]

/-- An element of a word. The default stands for the value whose bits are all zero, which a
`reinterpret_cast` to a wider type adds behind the end. -/
def element {n : Nat} (word : Vector α n) (i : Nat) : α := word[i]?.getD default

theorem element_ofFn {n i : Nat} (f : Nat → α) (h : i < n) :
    element (Vector.ofFn fun k : Fin n => f k) i = f i := by
  simp [element, h]

/-- The word at an address of a flat array. -/
def flatRead (flat : Nat → α) (n addr : Nat) : Vector α n := Vector.ofFn fun k => flat (addr + k)

/-- Writing the first `size` elements of a word to a flat array. -/
def flatWrite {n : Nat} (flat : Nat → α) (addr : Nat) (value : Vector α n) (size : Nat) :
    Nat → α :=
  fun x => if addr ≤ x ∧ x < addr + size then element value (x - addr) else flat x

/-- A memory beside the flat array that the same calls are made on: every read leaves the word
that the memory returned and the one of the array. -/
structure Flattened (M α : Type*) (readSize : Nat) where
  memory : M
  flat : Nat → α
  reads : List (Vector α readSize × Vector α readSize) := []

/-- Every read has returned the elements of the flat array. -/
def Flattened.Matches {M : Type*} {readSize : Nat} (s : Flattened M α readSize) : Prop :=
  ∀ r ∈ s.reads, r.1 = r.2

omit [Inhabited α] in
theorem Flattened.Matches.append {M : Type*} {readSize : Nat} {s : Flattened M α readSize}
    (h : s.Matches) {returned expected : Vector α readSize} (heq : returned = expected) :
    ({ s with reads := s.reads ++ [(returned, expected)] } : Flattened M α readSize).Matches := by
  intro r hr
  rcases List.mem_append.mp hr with hold | hnew
  · exact h r hold
  · rw [List.mem_singleton.mp hnew]
    exact heq

/-- The row of the bank that holds an element of the word at `addr`: the address is rounded up to
the bank. -/
theorem bankRow_eq {w k : Nat} (addr : Nat) (hk : k < w) :
    (addr + (w - (addr + k) % w - 1)) / w = (addr + k) / w := by
  have hdiv := Nat.div_add_mod (addr + k) w
  have hmod := Nat.mod_lt (addr + k) (Nat.lt_of_le_of_lt (Nat.zero_le k) hk)
  have hsum : addr + (w - (addr + k) % w - 1) = w * ((addr + k) / w) + (w - 1 - k) := by omega
  rw [hsum, Nat.mul_add_div (by omega), Nat.div_eq_of_lt (by omega : w - 1 - k < w), Nat.add_zero]

/-- The elements of the word at an aligned address. -/
theorem aligned_word {w addr x : Nat} (hw : 0 < w) (haddr : addr % w = 0) :
    (addr ≤ x ∧ x < addr + w ↔ x / w = addr / w) ∧ (x / w = addr / w → x - addr = x % w) := by
  obtain ⟨q, rfl⟩ := Nat.dvd_of_mod_eq_zero haddr
  have hdiv := Nat.div_add_mod x w
  have hmod := Nat.mod_lt x hw
  rw [Nat.mul_div_cancel_left q hw]
  constructor
  · constructor
    · rintro ⟨hle, hlt⟩
      exact Nat.div_eq_of_lt_le (by rw [Nat.mul_comm]; exact hle)
        (by rw [Nat.mul_comm, Nat.mul_add, Nat.mul_one]; exact hlt)
    · rintro rfl
      omega
  · rintro rfl
    omega

/-! ## Unaligned reads and unaligned writes -/

/-- The banks of an `unaligned_read_unaligned_write_memory<T, WordSize, TotalSize>`. -/
structure UnalignedReadUnalignedWriteMemory (α : Type*) (wordSize totalSize : Nat) where
  mem : Nat → Memory α (totalSize / wordSize)

namespace UnalignedReadUnalignedWriteMemory

variable {wordSize totalSize : Nat} (m : UnalignedReadUnalignedWriteMemory α wordSize totalSize)

/-- `read_aligned` -/
def readAligned (addr : Nat) (unknown : Nat → α) : Vector α wordSize :=
  Vector.ofFn fun i => (m.mem i).readRow (addr / wordSize) (unknown i)

/-- `read<N>` -/
def read (n addr : Nat) (unknown : Nat → α) : Vector α wordSize :=
  let perBankValue : Nat → α := fun i =>
    let offset := wordSize - i - 1
    (m.mem i).readRow ((addr + offset) / wordSize) (unknown i)
  let rotateAmount := addr / n % 2 ^ indexWidth (wordSize / n)
  let rotated := rotateArrayRight (wordSize / n) (indexWidth (wordSize / n))
    (fun i j => perBankValue (i * n + j)) rotateAmount
  Vector.ofFn fun k => rotated (k / n) (k % n)

/-- `write_aligned` -/
def writeAligned (addr : Nat) (value : Vector α wordSize) :
    UnalignedReadUnalignedWriteMemory α wordSize totalSize where
  mem i := (m.mem i).writeRow (addr / wordSize) (element value i)

/-- `write<N>`. Bank `i * N + j` is written by round `j` of the inner loop in round `i` of the
outer one. -/
def write (n addr : Nat) (value : Vector α wordSize) (size : Nat) :
    UnalignedReadUnalignedWriteMemory α wordSize totalSize :=
  let mask := maskLessThan (wordSize / n) (size / n)
  let dataWithMask : Nat → Option (Nat → α) := fun i =>
    if mask i then some fun j => element value (i * n + j) else none
  let rotateAmount := addr / n % 2 ^ indexWidth (wordSize / n)
  let perBankDataWithMask :=
    rotateArrayLeft (wordSize / n) (indexWidth (wordSize / n)) dataWithMask rotateAmount
  { mem := fun bank =>
      match perBankDataWithMask (bank / n) with
      | some data =>
        let offset := wordSize - bank / n * n - 1
        (m.mem bank).writeRow ((addr + offset) / wordSize) (data (bank % n))
      | none => m.mem bank }

/-- The calls. A bank whose row is outside its memory gives an unknown value. -/
inductive Call (α : Type*) (wordSize : Nat) where
  | read (n addr : Nat) (unknown : Nat → α)
  | readAligned (addr : Nat) (unknown : Nat → α)
  | write (n addr : Nat) (value : Vector α wordSize) (size : Nat)
  | writeAligned (addr : Nat) (value : Vector α wordSize)

/-- The static assertions on the alignment. -/
def Alignment (wordSize n : Nat) : Prop := 0 < n ∧ n &&& (n - 1) = 0 ∧ wordSize / n * n = wordSize

instance (wordSize n : Nat) : Decidable (Alignment wordSize n) := inferInstanceAs (Decidable (_ ∧ _))

/-- The assertions hold and the accessed elements are inside the memory. -/
def Accepts (totalSize : Nat) : Call α wordSize → Prop
  | .read n addr _ =>
    Alignment wordSize n ∧ addr &&& (n - 1) = 0 ∧ addr + wordSize ≤ totalSize
  | .readAligned addr _ => addr &&& (wordSize - 1) = 0 ∧ addr + wordSize ≤ totalSize
  | .write n addr _ size =>
    Alignment wordSize n ∧ addr &&& (n - 1) = 0 ∧ size &&& (n - 1) = 0 ∧
      size / n ≤ wordSize / n ∧ addr + size ≤ totalSize
  | .writeAligned addr _ => addr &&& (wordSize - 1) = 0 ∧ addr + wordSize ≤ totalSize

/-- The memory and the flat array after a call. -/
def next (s : Flattened (UnalignedReadUnalignedWriteMemory α wordSize totalSize) α wordSize) :
    Call α wordSize →
      Flattened (UnalignedReadUnalignedWriteMemory α wordSize totalSize) α wordSize
  | .read n addr unknown =>
    { s with reads := s.reads ++
        [(s.memory.read n addr unknown, flatRead s.flat wordSize addr)] }
  | .readAligned addr unknown =>
    { s with reads := s.reads ++
        [(s.memory.readAligned addr unknown, flatRead s.flat wordSize addr)] }
  | .write n addr value size =>
    { s with
      memory := s.memory.write n addr value size
      flat := flatWrite s.flat addr value size }
  | .writeAligned addr value =>
    { s with
      memory := s.memory.writeAligned addr value
      flat := flatWrite s.flat addr value wordSize }

/-- An element of the memory. -/
def content (x : Nat) : α := (m.mem (x % wordSize)).readRow (x / wordSize) default

/-- All calls on a memory, from any content. -/
def system (m : UnalignedReadUnalignedWriteMemory α wordSize totalSize) :
    System (Flattened (UnalignedReadUnalignedWriteMemory α wordSize totalSize) α wordSize)
      (Call α wordSize) where
  start := { memory := m, flat := m.content }
  Enabled _ call := Accepts totalSize call
  next := next

/-- The banks hold the flat array. -/
def Holds (m : UnalignedReadUnalignedWriteMemory α wordSize totalSize) (flat : Nat → α) : Prop :=
  ∀ x < totalSize / wordSize * wordSize, ∀ unknown,
    (m.mem (x % wordSize)).readRow (x / wordSize) unknown = flat x

/-- What an alignment is for words of `2 ^ w` elements: a power of two that divides them. -/
theorem Alignment.exists_pow {w n : Nat} (h : Alignment (2 ^ w) n) :
    ∃ k ≤ w, n = 2 ^ k := by
  have hdvd : n ∣ 2 ^ w := ⟨2 ^ w / n, by rw [Nat.mul_comm]; exact h.2.2.symm⟩
  exact (Nat.dvd_prime_pow Nat.prime_two).mp hdvd

/-! ### Where the elements of a word are -/

section Word

variable {n g addr k : Nat}

/-- Group `k / n` of the word at an aligned address is in the group of banks that the rotation
gives, and its elements are in their own banks. -/
theorem rotated_bank (hn : 0 < n) (hg : g ∣ 2 ^ indexWidth g) (haddr : addr % n = 0) :
    (k / n + addr / n % 2 ^ indexWidth g) % g * n + k % n = (addr + k) % (n * g) := by
  have hlow : (addr + k) % n = k % n := by rw [Nat.add_mod, haddr, Nat.zero_add, Nat.mod_mod]
  have hhigh : (addr + k) / n = k / n + addr / n := by
    have haddr' := Nat.div_add_mod addr n
    rw [haddr, Nat.add_zero] at haddr'
    rw [← haddr', Nat.mul_add_div hn, Nat.mul_div_cancel_left _ hn, Nat.add_comm]
  rw [Nat.mod_mul, hlow, hhigh, Nat.add_mod, Nat.mod_mod_of_dvd _ hg, ← Nat.add_mod,
    Nat.add_comm, Nat.mul_comm]

/-- The row that a write computes for a whole group of banks. -/
theorem groupRow_eq {w : Nat} (hdvd : n ∣ w) (haddr : addr % n = 0) (hk : k < w) :
    (addr + (w - (addr + k) % w / n * n - 1)) / w = (addr + k) / w := by
  have hdiv := Nat.div_add_mod (addr + k) w
  have hlow : (addr + k) % w % n = k % n := by
    rw [Nat.mod_mod_of_dvd _ hdvd, Nat.add_mod, haddr, Nat.zero_add, Nat.mod_mod]
  have hbank := Nat.div_add_mod ((addr + k) % w) n
  have hoffset := Nat.div_add_mod k n
  rw [Nat.mul_comm] at hbank
  have hmod := Nat.mod_lt (addr + k) (Nat.lt_of_le_of_lt (Nat.zero_le k) hk)
  have hsum : addr + (w - (addr + k) % w / n * n - 1) =
      w * ((addr + k) / w) + (w - 1 - n * (k / n)) := by omega
  rw [hsum, Nat.mul_add_div (by omega), Nat.div_eq_of_lt (by omega : w - 1 - n * (k / n) < w),
    Nat.add_zero]

/-- The element of the word at `addr` that is in the same bank as `x`. -/
theorem exists_offset {w size : Nat} (addr x : Nat) (hw : 0 < w) (hsize : size ≤ w) :
    ∃ k < w, (addr + k) % w = x % w ∧
      (addr ≤ x ∧ x < addr + size → x = addr + k) := by
  refine ⟨(x + (w - addr % w)) % w, Nat.mod_lt _ hw, ?_, ?_⟩
  · have hlt := Nat.mod_lt addr hw
    have haddr := Nat.div_add_mod addr w
    rw [Nat.add_mod_mod]
    have hsum : addr + (x + (w - addr % w)) = x + w * (addr / w + 1) := by
      rw [Nat.mul_add, Nat.mul_one]
      omega
    rw [hsum, Nat.add_mul_mod_self_left]
  · rintro ⟨hle, hlt⟩
    have haddr := Nat.div_add_mod addr w
    have hmod := Nat.mod_lt addr hw
    have hsum : x + (w - addr % w) = (x - addr) + w * (addr / w + 1) := by
      rw [Nat.mul_add, Nat.mul_one]
      omega
    rw [hsum, Nat.add_mul_mod_self_left, Nat.mod_eq_of_lt (by omega)]
    omega

end Word

section Calls

variable {m} {w n addr size : Nat} {flat : Nat → α}

theorem two_pow_dvd_indexWidth (k : Nat) : 2 ^ k ∣ 2 ^ indexWidth (2 ^ k) :=
  pow_dvd_pow 2 ((Nat.pow_le_pow_iff_right (by omega)).mp (le_two_pow_indexWidth (2 ^ k)))

/-- The groups of an alignment. -/
theorem Alignment.groups (h : Alignment (2 ^ w) n) :
    n * (2 ^ w / n) = 2 ^ w ∧ n ∣ 2 ^ w ∧
      2 ^ w / n ∣ 2 ^ indexWidth (2 ^ w / n) ∧ ∀ x, x &&& (n - 1) = x % n := by
  obtain ⟨k, hk, rfl⟩ := h.exists_pow
  refine ⟨by rw [Nat.mul_comm]; exact h.2.2, pow_dvd_pow 2 hk, ?_, ?_⟩
  · rw [Nat.pow_div hk (by omega)]
    exact two_pow_dvd_indexWidth _
  · intro x
    exact Nat.and_two_pow_sub_one_eq_mod x k

omit [Inhabited α] in
/-- A read gives, for each element of the word, the row of its bank. -/
theorem read_eq (m : UnalignedReadUnalignedWriteMemory α (2 ^ w) totalSize)
    (hn : Alignment (2 ^ w) n) (haddr : addr &&& (n - 1) = 0) (unknown : Nat → α) :
    m.read n addr unknown = Vector.ofFn fun k : Fin (2 ^ w) =>
      (m.mem ((addr + k) % 2 ^ w)).readRow ((addr + k) / 2 ^ w) (unknown ((addr + k) % 2 ^ w)) := by
  obtain ⟨hmul, -, hgroups, hmask⟩ := hn.groups
  rw [hmask] at haddr
  simp only [UnalignedReadUnalignedWriteMemory.read]
  congr 1
  funext k
  have hgroup : (k : Nat) / n < 2 ^ w / n := by
    rw [Nat.div_lt_iff_lt_mul hn.1, Nat.mul_comm, hmul]
    exact k.isLt
  rw [rotateArrayRight_apply hgroup (Nat.mod_lt _ (Nat.two_pow_pos _)),
    rotated_bank hn.1 hgroups haddr, hmul, bankRow_eq addr k.isLt]

omit [Inhabited α] in
theorem Holds.read {m : UnalignedReadUnalignedWriteMemory α (2 ^ w) totalSize}
    (h : m.Holds flat) (hdvd : 2 ^ w ∣ totalSize) (hn : Alignment (2 ^ w) n)
    (haddr : addr &&& (n - 1) = 0) (hinside : addr + 2 ^ w ≤ totalSize) (unknown : Nat → α) :
    m.read n addr unknown = flatRead flat (2 ^ w) addr := by
  rw [m.read_eq hn haddr, flatRead]
  congr 1
  funext k
  apply h
  rw [Nat.div_mul_cancel hdvd]
  have := k.isLt
  omega

omit [Inhabited α] in
theorem Holds.readAligned {m : UnalignedReadUnalignedWriteMemory α (2 ^ w) totalSize}
    (h : m.Holds flat) (hdvd : 2 ^ w ∣ totalSize) (haddr : addr &&& (2 ^ w - 1) = 0)
    (hinside : addr + 2 ^ w ≤ totalSize) (unknown : Nat → α) :
    m.readAligned addr unknown = flatRead flat (2 ^ w) addr := by
  rw [Nat.and_two_pow_sub_one_eq_mod] at haddr
  unfold UnalignedReadUnalignedWriteMemory.readAligned flatRead
  congr 1
  funext k
  have hk := k.isLt
  have hbank : (addr + k) % 2 ^ w = k := by
    rw [Nat.add_mod, haddr, Nat.zero_add, Nat.mod_mod, Nat.mod_eq_of_lt hk]
  have hrow : (addr + k) / 2 ^ w = addr / 2 ^ w := by
    obtain ⟨q, rfl⟩ := Nat.dvd_of_mod_eq_zero haddr
    rw [Nat.mul_add_div (Nat.two_pow_pos w), Nat.div_eq_of_lt hk, Nat.add_zero,
      Nat.mul_div_cancel_left _ (Nat.two_pow_pos w)]
  have hx := h (addr + k) (by rw [Nat.div_mul_cancel hdvd]; omega) (unknown k)
  rw [hbank, hrow] at hx
  exact hx

theorem Holds.write {m : UnalignedReadUnalignedWriteMemory α (2 ^ w) totalSize}
    (h : m.Holds flat) (hdvd : 2 ^ w ∣ totalSize) (hn : Alignment (2 ^ w) n)
    (haddr : addr &&& (n - 1) = 0) (hsize : size &&& (n - 1) = 0)
    (hle : size / n ≤ 2 ^ w / n) (hinside : addr + size ≤ totalSize) (value : Vector α (2 ^ w)) :
    (m.write n addr value size).Holds (flatWrite flat addr value size) := by
  obtain ⟨hmul, hndvd, hgroups, hmask⟩ := hn.groups
  rw [hmask] at haddr hsize
  have hsizeMul : n * (size / n) = size := Nat.mul_div_cancel' (Nat.dvd_of_mod_eq_zero hsize)
  have hsizeLe : size ≤ 2 ^ w := by
    rw [← hsizeMul, ← hmul]
    exact Nat.mul_le_mul_left n hle
  intro x hx unknown
  rw [Nat.div_mul_cancel hdvd] at hx
  obtain ⟨k, hk, hbank, hwindow⟩ := exists_offset addr x (Nat.two_pow_pos w) hsizeLe
  have hgroup : k / n < 2 ^ w / n := by
    rw [Nat.div_lt_iff_lt_mul hn.1, Nat.mul_comm, hmul]
    exact hk
  -- The bank of `x` is bank `k % n` of the group that the rotation gives to group `k / n`.
  have hplace := rotated_bank (k := k) hn.1 hgroups haddr
  rw [hmul, hbank] at hplace
  have hdiv : x % 2 ^ w / n =
      (k / n + addr / n % 2 ^ indexWidth (2 ^ w / n)) % (2 ^ w / n) := by
    rw [← hplace, Nat.mul_comm, Nat.mul_add_div hn.1, Nat.div_eq_of_lt (Nat.mod_lt k hn.1),
      Nat.add_zero]
  have hmod : x % 2 ^ w % n = k % n := by
    rw [← hplace, Nat.mul_comm, Nat.mul_add_mod, Nat.mod_mod]
  have hvalid : k / n < size / n ↔ k < size := by
    rw [Nat.div_lt_iff_lt_mul hn.1, Nat.mul_comm, hsizeMul]
  have hrow := groupRow_eq hndvd haddr hk
  rw [hbank] at hrow
  simp only [UnalignedReadUnalignedWriteMemory.write]
  rw [hdiv, rotateArrayLeft_apply hgroup (Nat.mod_lt _ (Nat.two_pow_pos _)),
    maskLessThan_apply hgroup, hmod, ← hdiv]
  simp only [decide_eq_true_eq, hvalid]
  by_cases hsz : k < size
  · simp only [hsz, if_true, hrow, Nat.div_add_mod' k n]
    have hrowLt : (addr + k) / 2 ^ w < totalSize / 2 ^ w := by
      rw [Nat.div_lt_iff_lt_mul (Nat.two_pow_pos w), Nat.div_mul_cancel hdvd]
      omega
    have hxrow : x / 2 ^ w < totalSize / 2 ^ w := by
      rw [Nat.div_lt_iff_lt_mul (Nat.two_pow_pos w), Nat.div_mul_cancel hdvd]
      exact hx
    by_cases hsame : x / 2 ^ w = (addr + k) / 2 ^ w
    · have hxeq : x = addr + k := by
        rw [← Nat.div_add_mod x (2 ^ w), ← Nat.div_add_mod (addr + k) (2 ^ w), hsame, hbank]
      rw [hsame, readRow_writeRow_self _ hrowLt, flatWrite, if_pos (by omega)]
      congr 1
      omega
    · rw [readRow_writeRow_of_ne _ hrowLt hxrow (Ne.symm hsame), flatWrite, if_neg]
      · apply h
        rw [Nat.div_mul_cancel hdvd]
        exact hx
      · intro hin
        exact hsame (by rw [hwindow hin])
  · simp only [hsz, if_false]
    rw [flatWrite, if_neg]
    · apply h
      rw [Nat.div_mul_cancel hdvd]
      exact hx
    · intro hin
      have := hwindow hin
      omega

theorem Holds.writeAligned {m : UnalignedReadUnalignedWriteMemory α (2 ^ w) totalSize}
    (h : m.Holds flat) (hdvd : 2 ^ w ∣ totalSize) (haddr : addr &&& (2 ^ w - 1) = 0)
    (hinside : addr + 2 ^ w ≤ totalSize) (value : Vector α (2 ^ w)) :
    (m.writeAligned addr value).Holds (flatWrite flat addr value (2 ^ w)) := by
  rw [Nat.and_two_pow_sub_one_eq_mod] at haddr
  have hpos := Nat.two_pow_pos w
  have hrow : ∀ y < totalSize, y / 2 ^ w < totalSize / 2 ^ w := by
    intro y hy
    rw [Nat.div_lt_iff_lt_mul hpos, Nat.div_mul_cancel hdvd]
    exact hy
  intro x hx unknown
  have hx' := hx
  rw [Nat.div_mul_cancel hdvd] at hx'
  obtain ⟨hword, hoffset⟩ := aligned_word (x := x) hpos haddr
  rw [flatWrite]
  by_cases hsame : x / 2 ^ w = addr / 2 ^ w
  · rw [if_pos (hword.mpr hsame), hoffset hsame, UnalignedReadUnalignedWriteMemory.writeAligned,
      hsame]
    exact readRow_writeRow_self _ (hrow addr (by omega)) _ _
  · rw [if_neg fun hin => hsame (hword.mp hin), ← h x hx unknown]
    exact readRow_writeRow_of_ne _ (hrow addr (by omega)) (hrow x hx') (Ne.symm hsame) _ _

/-- What holds between the calls. -/
def Inv (s : Flattened (UnalignedReadUnalignedWriteMemory α wordSize totalSize) α wordSize) :
    Prop := s.memory.Holds s.flat ∧ s.Matches

theorem invariant (hdvd : 2 ^ w ∣ totalSize)
    (m : UnalignedReadUnalignedWriteMemory α (2 ^ w) totalSize) : (system m).Invariant Inv where
  start := by
    refine ⟨?_, fun p hp => absurd hp List.not_mem_nil⟩
    intro x hx unknown
    exact readRow_of_lt _ ((Nat.div_lt_iff_lt_mul (Nat.two_pow_pos w)).mpr hx) _ _
  step s call h he := by
    obtain ⟨hholds, hreads⟩ := h
    cases call with
    | read n addr unknown =>
      obtain ⟨hn, haddr, hinside⟩ := he
      exact ⟨hholds, hreads.append (hholds.read hdvd hn haddr hinside unknown)⟩
    | readAligned addr unknown =>
      exact ⟨hholds, hreads.append (hholds.readAligned hdvd he.1 he.2 unknown)⟩
    | write n addr value size =>
      obtain ⟨hn, haddr, hsize, hle, hinside⟩ := he
      exact ⟨hholds.write hdvd hn haddr hsize hle hinside value, hreads⟩
    | writeAligned addr value =>
      exact ⟨hholds.writeAligned hdvd he.1 he.2 value, hreads⟩

end Calls

end UnalignedReadUnalignedWriteMemory

/-! ## Unaligned reads and aligned writes -/

/-- `NumVerticalBanks` -/
def numVerticalBanks (wordSize readWordSize : Nat) : Nat :=
  if readWordSize ≤ wordSize / 2 then 2 else if readWordSize ≤ wordSize then wordSize else 1

/-- `NumHorizontalBanks` -/
def numHorizontalBanks (wordSize readWordSize : Nat) : Nat :=
  if readWordSize ≤ wordSize then 1 else 1 <<< Nat.clog 2 (1 + readWordSize / wordSize)

/-- `BankWordSize` -/
def bankWordSize (wordSize readWordSize : Nat) : Nat :=
  wordSize / numVerticalBanks wordSize readWordSize

/-- `BankDepth` -/
def bankDepth (wordSize readWordSize totalSize : Nat) : Nat :=
  totalSize / numHorizontalBanks wordSize readWordSize / wordSize

/-- The banks of an `unaligned_read_aligned_write_memory<T, WordSize, ReadWordSize, TotalSize>`. -/
structure UnalignedReadAlignedWriteMemory (α : Type*) (wordSize readWordSize totalSize : Nat) where
  mem : Nat → Nat →
    Memory (Vector α (bankWordSize wordSize readWordSize))
      (bankDepth wordSize readWordSize totalSize)

namespace UnalignedReadAlignedWriteMemory

variable {wordSize readWordSize totalSize : Nat}

/-- The values of the banks outside their memories. -/
abbrev Unknown (α : Type*) (wordSize readWordSize : Nat) :=
  Nat → Nat → Vector α (bankWordSize wordSize readWordSize)

section Operations

variable (m : UnalignedReadAlignedWriteMemory α wordSize readWordSize totalSize)

/-- `read_aligned` -/
def readAligned (addr : Nat) (unknown : Unknown α wordSize readWordSize) :
    Vector α readWordSize :=
  let value := fun h v =>
    (m.mem h v).readRow (addr / numVerticalBanks wordSize readWordSize) (unknown h v)
  -- Only the low bits of an array index count.
  let bank := addr / wordSize % 2 ^ Nat.clog 2 (numHorizontalBanks wordSize readWordSize)
  Vector.ofFn fun k =>
    if k < wordSize then
      element (value bank (k / bankWordSize wordSize readWordSize))
        (k % bankWordSize wordSize readWordSize)
    else default

/-- `read` -/
def read (addr : Nat) (unknown : Unknown α wordSize readWordSize) : Vector α readWordSize :=
  let vertical := numVerticalBanks wordSize readWordSize
  let horizontal := numHorizontalBanks wordSize readWordSize
  let bankSize := bankWordSize wordSize readWordSize
  let perBankValue := fun h v =>
    let hoffset := (horizontal - h - 1) * wordSize
    let bankAddr := (addr + hoffset) / (horizontal * bankSize)
    let voffset := vertical - v - 1
    (m.mem h v).readRow ((bankAddr + voffset) / vertical) (unknown h v)
  let allBanksWordSize := horizontal * wordSize
  let perBankValueFlattened := fun p =>
    element (perBankValue (p / wordSize) (p % wordSize / bankSize)) (p % bankSize)
  if 1 < allBanksWordSize then
    let rotateAmount := addr % 2 ^ indexWidth allBanksWordSize
    let rotated := rotateArrayRight allBanksWordSize (indexWidth allBanksWordSize)
      perBankValueFlattened rotateAmount
    Vector.ofFn fun k => rotated k
  else Vector.ofFn fun k => perBankValueFlattened k

/-- `write_aligned` -/
def writeAligned (addr : Nat) (value : Vector α wordSize) :
    UnalignedReadAlignedWriteMemory α wordSize readWordSize totalSize :=
  let horizontal := numHorizontalBanks wordSize readWordSize
  let bankSize := bankWordSize wordSize readWordSize
  let perBankValue : Nat → Vector α bankSize := fun v =>
    Vector.ofFn fun b => element value (v * bankSize + b)
  let wordAddr := addr / wordSize
  let mask := 1 <<< (wordAddr % 2 ^ indexWidth horizontal)
  { mem := fun h v =>
      if horizontal = 1 ∨ mask.testBit h = true then
        (m.mem h v).writeRow (wordAddr / horizontal) (perBankValue v)
      else m.mem h v }

/-- An element of the memory. -/
def content (x : Nat) : α :=
  let horizontal := numHorizontalBanks wordSize readWordSize
  let bankSize := bankWordSize wordSize readWordSize
  element ((m.mem (x / wordSize % horizontal) (x % wordSize / bankSize)).readRow
    (x / wordSize / horizontal) default) (x % bankSize)

end Operations

/-- The calls. -/
inductive Call (α : Type*) (wordSize readWordSize : Nat) where
  | read (addr : Nat) (unknown : Unknown α wordSize readWordSize)
  | readAligned (addr : Nat) (unknown : Unknown α wordSize readWordSize)
  | writeAligned (addr : Nat) (value : Vector α wordSize)

/-- The assertions hold and the accessed elements are inside the memory. -/
def Accepts (totalSize : Nat) : Call α wordSize readWordSize → Prop
  | .read addr _ => addr + readWordSize ≤ totalSize
  | .readAligned addr _ => addr &&& (wordSize - 1) = 0 ∧ addr + readWordSize ≤ totalSize
  | .writeAligned addr _ => addr &&& (wordSize - 1) = 0 ∧ addr + wordSize ≤ totalSize

/-- The memory and the flat array after a call. -/
def next
    (s : Flattened (UnalignedReadAlignedWriteMemory α wordSize readWordSize totalSize) α
      readWordSize) :
    Call α wordSize readWordSize →
      Flattened (UnalignedReadAlignedWriteMemory α wordSize readWordSize totalSize) α readWordSize
  | .read addr unknown =>
    { s with reads := s.reads ++
        [(s.memory.read addr unknown, flatRead s.flat readWordSize addr)] }
  | .readAligned addr unknown =>
    { s with reads := s.reads ++
        [(s.memory.readAligned addr unknown, flatRead s.flat readWordSize addr)] }
  | .writeAligned addr value =>
    { s with
      memory := s.memory.writeAligned addr value
      flat := flatWrite s.flat addr value wordSize }

/-- All calls on a memory, from any content. -/
def system (m : UnalignedReadAlignedWriteMemory α wordSize readWordSize totalSize) :
    System (Flattened (UnalignedReadAlignedWriteMemory α wordSize readWordSize totalSize) α
      readWordSize) (Call α wordSize readWordSize) where
  start := { memory := m, flat := m.content }
  Enabled _ call := Accepts totalSize call
  next := next

/-- The elements that the banks have room for: whole rows of all banks. -/
def capacity (wordSize readWordSize totalSize : Nat) : Nat :=
  bankDepth wordSize readWordSize totalSize *
    (numHorizontalBanks wordSize readWordSize * wordSize)

/-- The calls that the memory serves as a flat array would: `read_aligned` divides the address by
the number of vertical banks instead of the word size and returns one word, and the elements
behind the last whole row of all banks are in no bank. -/
def Served (totalSize : Nat) : Call α wordSize readWordSize → Prop
  | .read addr _ => addr + readWordSize ≤ capacity wordSize readWordSize totalSize
  | .readAligned addr _ =>
    readWordSize ≤ wordSize ∧ (numVerticalBanks wordSize readWordSize = wordSize ∨ addr = 0)
  | .writeAligned addr _ => addr + wordSize ≤ capacity wordSize readWordSize totalSize

instance (totalSize : Nat) :
    (call : Call α wordSize readWordSize) → Decidable (Served totalSize call)
  | .read _ _ => inferInstanceAs (Decidable (_ ≤ _))
  | .readAligned _ _ => inferInstanceAs (Decidable (_ ∧ _))
  | .writeAligned _ _ => inferInstanceAs (Decidable (_ ≤ _))

/-! ### The shape of the banks -/

/-- What the banks of words with `2 ^ w` elements are: the read word fits into all vertical banks
of a word but one element, or into all horizontal banks but one. -/
structure Shape (w readWordSize vertical horizontal bankSize : Nat) : Prop where
  split : bankSize * vertical = 2 ^ w
  pow : ∃ k, horizontal = 2 ^ k
  window : (horizontal = 1 ∧ readWordSize ≤ (vertical - 1) * bankSize + 1) ∨
    (vertical = 1 ∧ ∃ q < horizontal, readWordSize = 2 ^ w * q)

theorem shape {w readWordSize : Nat} (hpos : 0 < readWordSize)
    (hratio : readWordSize ≤ 2 ^ w ∨ 2 ^ w ∣ readWordSize) :
    Shape w readWordSize (numVerticalBanks (2 ^ w) readWordSize)
      (numHorizontalBanks (2 ^ w) readWordSize) (bankWordSize (2 ^ w) readWordSize) := by
  unfold bankWordSize numVerticalBanks numHorizontalBanks
  by_cases hhalf : readWordSize ≤ 2 ^ w / 2
  · have hle : readWordSize ≤ 2 ^ w := hhalf.trans (Nat.div_le_self _ _)
    have heven : 2 ∣ 2 ^ w := dvd_pow_self 2 (by rintro rfl; simp at hhalf; omega)
    simp only [if_pos hhalf, if_pos hle]
    exact ⟨Nat.div_mul_cancel heven, ⟨0, rfl⟩, .inl ⟨rfl, by omega⟩⟩
  · by_cases hle : readWordSize ≤ 2 ^ w
    · have hw := Nat.two_pow_pos w
      simp only [if_neg hhalf, if_pos hle]
      exact ⟨Nat.div_mul_cancel dvd_rfl, ⟨0, rfl⟩,
        .inl ⟨rfl, by rw [Nat.div_self hw]; omega⟩⟩
    · simp only [if_neg hhalf, if_neg hle]
      have hmul : 2 ^ w ∣ readWordSize := hratio.resolve_left hle
      refine ⟨by rw [Nat.div_one, Nat.mul_one], ⟨_, Nat.one_shiftLeft _⟩,
        .inr ⟨rfl, readWordSize / 2 ^ w, ?_, (Nat.mul_div_cancel' hmul).symm⟩⟩
      rw [Nat.one_shiftLeft]
      have := Nat.le_pow_clog (b := 2) (by omega) (1 + readWordSize / 2 ^ w)
      omega

namespace Shape

variable {w readWordSize vertical horizontal bankSize addr k : Nat}
  (h : Shape w readWordSize vertical horizontal bankSize)
include h

theorem pos : 0 < vertical ∧ 0 < horizontal ∧ 0 < bankSize := by
  have hsplit := h.split
  have hw := Nat.two_pow_pos w
  obtain ⟨n, hn⟩ := h.pow
  refine ⟨Nat.pos_of_ne_zero ?_, hn ▸ Nat.two_pow_pos n, Nat.pos_of_ne_zero ?_⟩
  · rintro rfl
    omega
  · rintro rfl
    omega

/-- The read word fits into all banks. -/
theorem readWordSize_le : readWordSize ≤ horizontal * 2 ^ w := by
  have hsplit := h.split
  obtain ⟨hv, hh, hb⟩ := h.pos
  rcases h.window with ⟨hone, hle⟩ | ⟨-, q, hq, hle⟩
  · rw [hone, Nat.one_mul]
    have hmul : (vertical - 1) * bankSize + bankSize = bankSize * vertical := by
      rw [← Nat.succ_mul, Nat.succ_eq_add_one, Nat.sub_add_cancel hv, Nat.mul_comm]
    omega
  · rw [hle, Nat.mul_comm]
    exact Nat.mul_le_mul_right _ hq.le

/-- `read` finds the row of every element of the word. -/
theorem row_eq (hk : k < readWordSize) :
    ((addr + (horizontal - (addr + k) / 2 ^ w % horizontal - 1) * 2 ^ w) /
        (horizontal * bankSize) + (vertical - (addr + k) % 2 ^ w / bankSize - 1)) / vertical =
      (addr + k) / 2 ^ w / horizontal := by
  have hsplit := h.split
  obtain ⟨hv, hh, hb⟩ := h.pos
  rcases h.window with ⟨hone, hle⟩ | ⟨hone, q, hq, hle⟩
  · -- One horizontal bank: the address is rounded up to the vertical bank.
    have hbank : (addr + k) % 2 ^ w / bankSize = (addr + k) / bankSize % vertical := by
      rw [← hsplit, Nat.mod_mul_right_div_self]
    have hbound : (addr + k) / bankSize ≤ addr / bankSize + (vertical - 1) := by
      rw [← Nat.add_mul_div_right _ _ hb]
      exact Nat.div_le_div_right (by omega)
    have hmono : addr / bankSize ≤ (addr + k) / bankSize := Nat.div_le_div_right (by omega)
    have hrow := bankRow_eq (addr / bankSize)
      (by omega : (addr + k) / bankSize - addr / bankSize < vertical)
    rw [Nat.add_sub_cancel' hmono] at hrow
    rw [hone, Nat.mod_one, Nat.sub_zero, Nat.sub_self, Nat.zero_mul, Nat.add_zero, Nat.one_mul,
      Nat.div_one, hbank, hrow, Nat.div_div_eq_div_mul, hsplit]
  · -- One vertical bank: the address is rounded up to the horizontal bank.
    have hbank : bankSize = 2 ^ w := by rw [← hsplit, hone, Nat.mul_one]
    have hw := Nat.two_pow_pos w
    have hbound : (addr + k) / 2 ^ w ≤ addr / 2 ^ w + q := by
      rw [← Nat.add_mul_div_left _ _ hw]
      exact Nat.div_le_div_right (by omega)
    have hmono : addr / 2 ^ w ≤ (addr + k) / 2 ^ w := Nat.div_le_div_right (by omega)
    have hrow := bankRow_eq (addr / 2 ^ w)
      (by omega : (addr + k) / 2 ^ w - addr / 2 ^ w < horizontal)
    rw [Nat.add_sub_cancel' hmono] at hrow
    rw [hone, hbank, Nat.div_one, Nat.div_eq_of_lt (Nat.mod_lt _ hw), Nat.sub_zero, Nat.sub_self,
      Nat.add_zero, Nat.mul_comm horizontal, ← Nat.div_div_eq_div_mul,
      Nat.add_mul_div_right _ _ hw, hrow]

end Shape

/-! ### The calls on a memory that holds a flat array -/

/-- The banks hold the flat array. -/
def Holds (m : UnalignedReadAlignedWriteMemory α wordSize readWordSize totalSize)
    (flat : Nat → α) : Prop :=
  ∀ x < capacity wordSize readWordSize totalSize, ∀ unknown,
    element ((m.mem (x / wordSize % numHorizontalBanks wordSize readWordSize)
        (x % wordSize / bankWordSize wordSize readWordSize)).readRow
      (x / wordSize / numHorizontalBanks wordSize readWordSize) unknown)
      (x % bankWordSize wordSize readWordSize) = flat x

theorem row_lt {x : Nat} (hw : 0 < wordSize) (hh : 0 < numHorizontalBanks wordSize readWordSize)
    (hx : x < capacity wordSize readWordSize totalSize) :
    x / wordSize / numHorizontalBanks wordSize readWordSize <
      bankDepth wordSize readWordSize totalSize := by
  rw [Nat.div_div_eq_div_mul, Nat.mul_comm wordSize, Nat.div_lt_iff_lt_mul (Nat.mul_pos hh hw)]
  exact hx

section Calls

variable {w addr : Nat} {flat : Nat → α}
  {m : UnalignedReadAlignedWriteMemory α (2 ^ w) readWordSize totalSize}

/-- The banks hold the elements that they have. -/
theorem holds_content (m : UnalignedReadAlignedWriteMemory α (2 ^ w) readWordSize totalSize)
    (hpos : 0 < readWordSize) (hratio : readWordSize ≤ 2 ^ w ∨ 2 ^ w ∣ readWordSize) :
    m.Holds m.content := by
  intro x hx unknown
  have hrow := row_lt (Nat.two_pow_pos w) (shape hpos hratio).pos.2.1 hx
  exact congrArg (element · _) (readRow_of_lt _ hrow _ _)

/-- A read gives, for each element of the word, the row of its bank. -/
theorem read_eq (m : UnalignedReadAlignedWriteMemory α (2 ^ w) readWordSize totalSize)
    (hpos : 0 < readWordSize) (hratio : readWordSize ≤ 2 ^ w ∨ 2 ^ w ∣ readWordSize)
    (unknown : Unknown α (2 ^ w) readWordSize) :
    m.read addr unknown = Vector.ofFn fun k : Fin readWordSize =>
      element ((m.mem ((addr + k) / 2 ^ w % numHorizontalBanks (2 ^ w) readWordSize)
          ((addr + k) % 2 ^ w / bankWordSize (2 ^ w) readWordSize)).readRow
        ((addr + k) / 2 ^ w / numHorizontalBanks (2 ^ w) readWordSize)
        (unknown ((addr + k) / 2 ^ w % numHorizontalBanks (2 ^ w) readWordSize)
          ((addr + k) % 2 ^ w / bankWordSize (2 ^ w) readWordSize)))
        ((addr + k) % bankWordSize (2 ^ w) readWordSize) := by
  have hshape := shape hpos hratio
  obtain ⟨n, hn⟩ := hshape.pow
  have hall : numHorizontalBanks (2 ^ w) readWordSize * 2 ^ w = 2 ^ (n + w) := by
    rw [hn, Nat.pow_add]
  -- Without a rotation there is one bank, and rotating it changes nothing.
  have hrotate : ∀ (size : Nat) (data : Nat → α) (amount : Nat),
      ¬ 1 < size → data = rotateArrayRight size (indexWidth size) data amount := by
    intro size data amount hsize
    rw [rotateArrayRight, if_neg hsize]
  have hread : m.read addr unknown = Vector.ofFn fun k : Fin readWordSize =>
      rotateArrayRight (2 ^ (n + w)) (indexWidth (2 ^ (n + w))) (fun p =>
        element ((m.mem (p / 2 ^ w) (p % 2 ^ w / bankWordSize (2 ^ w) readWordSize)).readRow
          (((addr + (numHorizontalBanks (2 ^ w) readWordSize - p / 2 ^ w - 1) * 2 ^ w) /
            (numHorizontalBanks (2 ^ w) readWordSize * bankWordSize (2 ^ w) readWordSize) +
            (numVerticalBanks (2 ^ w) readWordSize -
              p % 2 ^ w / bankWordSize (2 ^ w) readWordSize - 1)) /
            numVerticalBanks (2 ^ w) readWordSize)
          (unknown (p / 2 ^ w) (p % 2 ^ w / bankWordSize (2 ^ w) readWordSize)))
        (p % bankWordSize (2 ^ w) readWordSize))
        (addr % 2 ^ indexWidth (2 ^ (n + w))) k := by
    unfold UnalignedReadAlignedWriteMemory.read
    simp only [hall]
    split
    · rfl
    · rename_i hsize
      rw [← hrotate _ _ _ hsize]
  rw [hread]
  congr 1
  funext k
  have hk := k.isLt
  have hlt : (k : Nat) < 2 ^ (n + w) := by
    rw [← hall]
    exact Nat.lt_of_lt_of_le hk hshape.readWordSize_le
  rw [rotateArrayRight_apply hlt (Nat.mod_lt _ (Nat.two_pow_pos _)), Nat.add_mod,
    Nat.mod_mod_of_dvd _ (UnalignedReadUnalignedWriteMemory.two_pow_dvd_indexWidth _),
    ← Nat.add_mod, Nat.add_comm (k : Nat) addr]
  have hword : (addr + k) % 2 ^ (n + w) % 2 ^ w = (addr + k) % 2 ^ w :=
    Nat.mod_mod_of_dvd _ (pow_dvd_pow 2 (by omega))
  have hbank : (addr + k) % 2 ^ (n + w) % bankWordSize (2 ^ w) readWordSize =
      (addr + k) % bankWordSize (2 ^ w) readWordSize := by
    refine Nat.mod_mod_of_dvd _ (dvd_trans ?_ (pow_dvd_pow 2 (by omega : w ≤ n + w)))
    exact ⟨_, hshape.split.symm⟩
  have hhorizontal : (addr + k) % 2 ^ (n + w) / 2 ^ w =
      (addr + k) / 2 ^ w % numHorizontalBanks (2 ^ w) readWordSize := by
    rw [hn, Nat.add_comm n w, Nat.pow_add, Nat.mod_mul_right_div_self]
  rw [hword, hbank, hhorizontal, hshape.row_eq hk]

theorem Holds.read (h : m.Holds flat) (hpos : 0 < readWordSize)
    (hratio : readWordSize ≤ 2 ^ w ∨ 2 ^ w ∣ readWordSize)
    (hinside : addr + readWordSize ≤ capacity (2 ^ w) readWordSize totalSize)
    (unknown : Unknown α (2 ^ w) readWordSize) :
    m.read addr unknown = flatRead flat readWordSize addr := by
  rw [read_eq m hpos hratio unknown, flatRead]
  congr 1
  funext k
  have hk := k.isLt
  exact h (addr + k) (by omega) _

/-- A read across the end of a memory whose depth is a power of two goes on at its start. -/
theorem Holds.read_wraps {d : Nat} (h : m.Holds flat) (hpos : 0 < readWordSize)
    (hle : readWordSize ≤ 2 ^ w) (hd : 0 < d) (htotal : totalSize = 2 ^ d * 2 ^ w)
    (haddr : addr < totalSize) (unknown : Unknown α (2 ^ w) readWordSize) :
    m.read addr unknown = Vector.ofFn fun k : Fin readWordSize => flat ((addr + k) % totalSize) := by
  have hw := Nat.two_pow_pos w
  have hhorizontal : numHorizontalBanks (2 ^ w) readWordSize = 1 := if_pos hle
  have hdepth : bankDepth (2 ^ w) readWordSize totalSize = 2 ^ d := by
    rw [bankDepth, hhorizontal, Nat.div_one, htotal, Nat.mul_div_cancel _ hw]
  have hcapacity : capacity (2 ^ w) readWordSize totalSize = totalSize := by
    rw [capacity, hdepth, hhorizontal, Nat.one_mul, htotal]
  have hdvd : bankWordSize (2 ^ w) readWordSize ∣ 2 ^ w :=
    ⟨_, (shape hpos (.inl hle)).split.symm⟩
  rw [read_eq m hpos (.inl hle) unknown]
  congr 1
  funext k
  have hx := h ((addr + k) % totalSize) (by rw [hcapacity]; exact Nat.mod_lt _ (by omega))
    (unknown 0 ((addr + k) % 2 ^ w / bankWordSize (2 ^ w) readWordSize))
  have hword : (addr + k) % totalSize % 2 ^ w = (addr + k) % 2 ^ w :=
    Nat.mod_mod_of_dvd _ ⟨2 ^ d, by rw [htotal, Nat.mul_comm]⟩
  have hbank : (addr + k) % totalSize % bankWordSize (2 ^ w) readWordSize =
      (addr + k) % bankWordSize (2 ^ w) readWordSize :=
    Nat.mod_mod_of_dvd _ (hdvd.trans ⟨2 ^ d, by rw [htotal, Nat.mul_comm]⟩)
  have hrow : (addr + k) % totalSize / 2 ^ w = (addr + k) / 2 ^ w % 2 ^ d := by
    rw [htotal, Nat.mul_comm, Nat.mod_mul_right_div_self]
  have hindex : (addr + k) / 2 ^ w % 2 ^ d %
      2 ^ indexWidth (bankDepth (2 ^ w) readWordSize totalSize) =
        (addr + k) / 2 ^ w % 2 ^ indexWidth (bankDepth (2 ^ w) readWordSize totalSize) := by
    rw [hdepth, pointerWraps_two_pow hd, Nat.mod_mod]
  rw [hword, hbank, hrow, hhorizontal, Nat.mod_one, Nat.div_one, Memory.readRow, hindex] at hx
  rw [hhorizontal, Nat.mod_one, Nat.div_one, Memory.readRow]
  exact hx

theorem Holds.readAligned (h : m.Holds flat) (hpos : 0 < readWordSize)
    (hle : readWordSize ≤ 2 ^ w)
    (hserved : numVerticalBanks (2 ^ w) readWordSize = 2 ^ w ∨ addr = 0)
    (hratio : readWordSize ≤ 2 ^ w ∨ 2 ^ w ∣ readWordSize) (htotal : 2 ^ w ∣ totalSize)
    (haddr : addr &&& (2 ^ w - 1) = 0) (hinside : addr + readWordSize ≤ totalSize)
    (unknown : Unknown α (2 ^ w) readWordSize) :
    m.readAligned addr unknown = flatRead flat readWordSize addr := by
  rw [Nat.and_two_pow_sub_one_eq_mod] at haddr
  have hw := Nat.two_pow_pos w
  have hhorizontal : numHorizontalBanks (2 ^ w) readWordSize = 1 := if_pos hle
  have hrow : addr / numVerticalBanks (2 ^ w) readWordSize = addr / 2 ^ w := by
    rcases hserved with hvertical | rfl
    · rw [hvertical]
    · rw [Nat.zero_div, Nat.zero_div]
  have hcapacity : capacity (2 ^ w) readWordSize totalSize = totalSize := by
    rw [capacity, bankDepth, hhorizontal, Nat.div_one, Nat.one_mul, Nat.div_mul_cancel htotal]
  have hdvd : bankWordSize (2 ^ w) readWordSize ∣ 2 ^ w := ⟨_, (shape hpos hratio).split.symm⟩
  simp only [UnalignedReadAlignedWriteMemory.readAligned, flatRead]
  congr 1
  funext k
  have hk : (k : Nat) < 2 ^ w := Nat.lt_of_lt_of_le k.isLt hle
  have hx := h (addr + k) (by rw [hcapacity]; have := k.isLt; omega)
    (unknown 0 (k / bankWordSize (2 ^ w) readWordSize))
  have hword : (addr + k) % 2 ^ w = k := by
    rw [Nat.add_mod, haddr, Nat.zero_add, Nat.mod_mod, Nat.mod_eq_of_lt hk]
  have hbank : (addr + k) % bankWordSize (2 ^ w) readWordSize =
      k % bankWordSize (2 ^ w) readWordSize := by
    rw [← Nat.mod_mod_of_dvd _ hdvd, hword]
  have hquot : (addr + k) / 2 ^ w = addr / 2 ^ w := by
    obtain ⟨q, rfl⟩ := Nat.dvd_of_mod_eq_zero haddr
    rw [Nat.mul_add_div hw, Nat.div_eq_of_lt hk, Nat.add_zero, Nat.mul_div_cancel_left _ hw]
  rw [hword, hbank, hquot, hhorizontal, Nat.mod_one, Nat.div_one] at hx
  rw [if_pos hk, hhorizontal, Nat.clog_one_right, Nat.pow_zero, Nat.mod_one, hrow, hx]

theorem Holds.writeAligned (h : m.Holds flat) (hpos : 0 < readWordSize)
    (hratio : readWordSize ≤ 2 ^ w ∨ 2 ^ w ∣ readWordSize) (haddr : addr &&& (2 ^ w - 1) = 0)
    (hinside : addr + 2 ^ w ≤ capacity (2 ^ w) readWordSize totalSize)
    (value : Vector α (2 ^ w)) :
    (m.writeAligned addr value).Holds (flatWrite flat addr value (2 ^ w)) := by
  rw [Nat.and_two_pow_sub_one_eq_mod] at haddr
  have hshape := shape hpos hratio
  obtain ⟨-, hh, hb⟩ := hshape.pos
  have hw := Nat.two_pow_pos w
  intro x hx unknown
  obtain ⟨hword, hoffset⟩ := aligned_word (x := x) hw haddr
  -- The bank of the word at `addr` is the one that the mask selects.
  have hmask : (numHorizontalBanks (2 ^ w) readWordSize = 1 ∨
      (1 <<< (addr / 2 ^ w % 2 ^ indexWidth (numHorizontalBanks (2 ^ w) readWordSize))).testBit
        (x / 2 ^ w % numHorizontalBanks (2 ^ w) readWordSize) = true) ↔
      x / 2 ^ w % numHorizontalBanks (2 ^ w) readWordSize =
        addr / 2 ^ w % numHorizontalBanks (2 ^ w) readWordSize := by
    obtain ⟨n, hn⟩ := hshape.pow
    rw [hn, Nat.one_shiftLeft, Nat.testBit_two_pow, decide_eq_true_eq]
    rcases Nat.eq_zero_or_pos n with rfl | hnpos
    · simp [Nat.mod_one]
    · have hne : (2 : Nat) ^ n ≠ 1 := by
        have := Nat.one_lt_two_pow hnpos.ne'
        omega
      rw [pointerWraps_two_pow hnpos]
      simp only [hne, false_or]
      exact eq_comm
  have hdvd : bankWordSize (2 ^ w) readWordSize ∣ 2 ^ w := ⟨_, hshape.split.symm⟩
  simp only [UnalignedReadAlignedWriteMemory.writeAligned, hmask, flatWrite]
  have haddrRow := row_lt hw hh (by omega : addr < capacity (2 ^ w) readWordSize totalSize)
  have hxRow := row_lt hw hh hx
  by_cases hsame : x / 2 ^ w = addr / 2 ^ w
  · rw [if_pos (hword.mpr hsame), hoffset hsame, hsame, if_pos rfl,
      readRow_writeRow_self _ haddrRow, element_ofFn (fun b => element value
        (x % 2 ^ w / bankWordSize (2 ^ w) readWordSize * bankWordSize (2 ^ w) readWordSize + b))
        (Nat.mod_lt x hb)]
    rw [← Nat.mod_mod_of_dvd x hdvd, Nat.div_add_mod']
  · rw [if_neg fun hin => hsame (hword.mp hin), ← h x hx unknown]
    split
    · rename_i hbank
      rw [readRow_writeRow_of_ne _ haddrRow hxRow]
      intro hrow
      apply hsame
      rw [← Nat.div_add_mod (x / 2 ^ w) (numHorizontalBanks (2 ^ w) readWordSize),
        ← Nat.div_add_mod (addr / 2 ^ w) (numHorizontalBanks (2 ^ w) readWordSize), hbank, hrow]
    · rfl

/-- What holds between the calls. -/
def Inv
    (s : Flattened (UnalignedReadAlignedWriteMemory α wordSize readWordSize totalSize) α
      readWordSize) : Prop := s.memory.Holds s.flat ∧ s.Matches

theorem invariant (hpos : 0 < readWordSize)
    (hratio : readWordSize ≤ 2 ^ w ∨ 2 ^ w ∣ readWordSize) (htotal : 2 ^ w ∣ totalSize)
    (m : UnalignedReadAlignedWriteMemory α (2 ^ w) readWordSize totalSize) :
    ((system m).restrict (Served totalSize)).Invariant Inv where
  start := ⟨holds_content m hpos hratio, fun p hp => absurd hp List.not_mem_nil⟩
  step s call h he := by
    obtain ⟨hholds, hreads⟩ := h
    obtain ⟨haccepts, hserved⟩ := he
    cases call with
    | read addr unknown =>
      exact ⟨hholds, hreads.append (hholds.read hpos hratio hserved unknown)⟩
    | readAligned addr unknown =>
      exact ⟨hholds, hreads.append (hholds.readAligned hpos hserved.1 hserved.2 hratio htotal
        haccepts.1 haccepts.2 unknown)⟩
    | writeAligned addr value =>
      exact ⟨hholds.writeAligned hpos hratio haccepts.1 hserved value, hreads⟩

end Calls

end UnalignedReadAlignedWriteMemory

/-! ## Both memories -/

/-- The memories are flat arrays in every run of calls: always with unaligned writes, and with
aligned writes as long as every call is one that the memory serves. -/
theorem unalignedMemories_flat (α : Type) [Inhabited α] (w totalSize : Nat)
    (htotal : 2 ^ w ∣ totalSize) :
    (∀ (m : UnalignedReadUnalignedWriteMemory α (2 ^ w) totalSize)
        (s : Flattened (UnalignedReadUnalignedWriteMemory α (2 ^ w) totalSize) α (2 ^ w)),
      (UnalignedReadUnalignedWriteMemory.system m).Reachable s →
      s.memory.Holds s.flat ∧ s.Matches) ∧
    (∀ readWordSize, 0 < readWordSize → (readWordSize ∣ 2 ^ w ∨ 2 ^ w ∣ readWordSize) →
      ∀ (m : UnalignedReadAlignedWriteMemory α (2 ^ w) readWordSize totalSize)
        (s : Flattened (UnalignedReadAlignedWriteMemory α (2 ^ w) readWordSize totalSize) α
          readWordSize),
      ((UnalignedReadAlignedWriteMemory.system m).restrict
        (UnalignedReadAlignedWriteMemory.Served totalSize)).Reachable s →
      s.memory.Holds s.flat ∧ s.Matches) := by
  refine ⟨?_, ?_⟩
  · intro m s hs
    exact (UnalignedReadUnalignedWriteMemory.invariant htotal m).of_reachable hs
  · intro readWordSize hpos hratio m s hs
    have hsizes := hratio.imp_left (Nat.le_of_dvd (Nat.two_pow_pos w))
    exact (UnalignedReadAlignedWriteMemory.invariant hpos hsizes htotal m).of_reachable hs

/-- Writes across a word boundary and reads behind them. -/
theorem unalignedMemories_flat_two_words :
    (∃ s, (UnalignedReadUnalignedWriteMemory.system
        (⟨fun _ => #v[0, 0]⟩ : UnalignedReadUnalignedWriteMemory Nat (2 ^ 2) 8)).Reachable s ∧
      s.reads.map (·.1.toList) = [[0, 1, 2, 3], [5, 6, 7, 8]] ∧ s.Matches) ∧
    (∃ s, ((UnalignedReadAlignedWriteMemory.system
        (⟨fun _ _ => #v[#v[0], #v[0]]⟩ : UnalignedReadAlignedWriteMemory Nat (2 ^ 1) 2 4)).restrict
        (UnalignedReadAlignedWriteMemory.Served 4)).Reachable s ∧
      s.reads.map (·.1.toList) = [[0, 5], [5, 6]] ∧ s.Matches) := by
  obtain ⟨hunaligned, -⟩ := unalignedMemories_flat Nat 2 8 (by decide)
  obtain ⟨-, haligned⟩ := unalignedMemories_flat Nat 1 4 (by decide)
  let S := UnalignedReadUnalignedWriteMemory.system
    (⟨fun _ => #v[0, 0]⟩ : UnalignedReadUnalignedWriteMemory Nat (2 ^ 2) 8)
  let A := (UnalignedReadAlignedWriteMemory.system
    (⟨fun _ _ => #v[#v[0], #v[0]]⟩ : UnalignedReadAlignedWriteMemory Nat (2 ^ 1) 2 4)).restrict
      (UnalignedReadAlignedWriteMemory.Served 4)
  have hS : S.AllEnabled S.start [.write 2 2 #v[1, 2, 3, 4] 4, .read 1 1 fun _ => 9,
      .writeAligned 4 #v[5, 6, 7, 8], .readAligned 4 fun _ => 9] :=
    ⟨⟨by decide, rfl, rfl, by decide, by decide⟩, ⟨by decide, rfl, by decide⟩,
      ⟨rfl, by decide⟩, ⟨rfl, by decide⟩, trivial⟩
  have hA : A.AllEnabled A.start [.writeAligned 2 #v[5, 6], .read 1 fun _ _ => #v[9],
      .readAligned 2 fun _ _ => #v[9]] :=
    ⟨⟨⟨rfl, by decide⟩, by decide⟩, ⟨(by decide : 1 + 2 ≤ 4), by decide⟩,
      ⟨⟨rfl, by decide⟩, by decide⟩, trivial⟩
  refine ⟨⟨_, .run .start hS, ?_, (hunaligned _ _ (.run .start hS)).2⟩,
    ⟨_, .run .start hA, ?_, (haligned 2 (by decide) (.inl (by decide)) _ _ (.run .start hA)).2⟩⟩
  · decide +kernel
  · decide +kernel

/-- With two vertical banks `read_aligned` reads another row than `write_aligned` has written. With
four horizontal banks of one row the fifth element is in no bank. -/
theorem unalignedMemories_not_flat :
    (∃ s, (UnalignedReadAlignedWriteMemory.system
        (⟨fun _ _ => #v[#v[0, 0], #v[0, 0]]⟩ :
          UnalignedReadAlignedWriteMemory Nat (2 ^ 2) 2 8)).Reachable s ∧ ¬ s.Matches) ∧
    (∃ s, (UnalignedReadAlignedWriteMemory.system
        (⟨fun _ _ => #v[#v[0]]⟩ :
          UnalignedReadAlignedWriteMemory Nat (2 ^ 0) 3 5)).Reachable s ∧ ¬ s.Matches) := by
  constructor
  · let S := UnalignedReadAlignedWriteMemory.system
      (⟨fun _ _ => #v[#v[0, 0], #v[0, 0]]⟩ : UnalignedReadAlignedWriteMemory Nat (2 ^ 2) 2 8)
    have hS : S.AllEnabled S.start
        [.writeAligned 4 #v[1, 2, 3, 4], .readAligned 4 fun _ _ => #v[9, 9]] :=
      ⟨⟨rfl, by decide⟩, ⟨rfl, by decide⟩, trivial⟩
    refine ⟨_, .run .start hS, ?_⟩
    unfold Flattened.Matches
    decide +kernel
  · let S := UnalignedReadAlignedWriteMemory.system
      (⟨fun _ _ => #v[#v[0]]⟩ : UnalignedReadAlignedWriteMemory Nat (2 ^ 0) 3 5)
    have hS : S.AllEnabled S.start [.writeAligned 4 #v[7], .read 2 fun _ _ => #v[0]] :=
      ⟨⟨rfl, by decide⟩, (by decide : 2 + 3 ≤ 5), trivial⟩
    refine ⟨_, .run .start hS, ?_⟩
    unfold Flattened.Matches
    decide +kernel

end Kanagawa.Library
