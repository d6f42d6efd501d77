/-
  Kanagawa.Library.Basic

  What the library's classes are written over: the widths of `index_t` and
  `count_t` (`type/stdtype.k`) and the language's memories.
-/
import Mathlib

namespace Kanagawa.Library

/-! ## Widths -/

/-- The width of `index_t<N>`. -/
def indexWidth (n : Nat) : Nat := if 1 < n then Nat.clog 2 n else 1

/-- The width of `count_t<N>`. -/
def countWidth (n : Nat) : Nat := Nat.clog 2 (n + 1)

/-- A `count_t<N>` holds every count from 0 to N. -/
theorem lt_two_pow_countWidth (n : Nat) : n < 2 ^ countWidth n :=
  Nat.le_pow_clog (by omega) (n + 1)

/-- An `index_t<N>` holds every index below N. -/
theorem le_two_pow_indexWidth (n : Nat) : n ≤ 2 ^ indexWidth n := by
  unfold indexWidth
  split
  · exact Nat.le_pow_clog (by omega) n
  · omega

/-! ## Memories -/

/-- A `memory<T, N>`. -/
abbrev Memory (α : Type*) (depth : Nat) := Vector α depth

namespace Memory

variable {α : Type*} {depth : Nat} (m : Memory α depth)

/-- Reading outside the memory is undefined: the value is `unknown`, whatever that is. -/
def read (addr : Nat) (unknown : α) : α := m[addr]?.getD unknown

/-- Writing outside the memory has no effect. -/
def write (addr : Nat) (v : α) : Memory α depth := m.setIfInBounds addr v

theorem read_of_lt {addr : Nat} (h : addr < depth) (u u' : α) :
    m.read addr u = m.read addr u' := by
  simp [read, h]

theorem read_write_self {addr : Nat} (h : addr < depth) (v u : α) :
    (m.write addr v).read addr u = v := by
  simp [read, write, h]

theorem read_write_of_ne {addr addr' : Nat} (h : addr ≠ addr') (v u : α) :
    (m.write addr v).read addr' u = m.read addr' u := by
  simp [read, write, h]

end Memory

/-! ## Arrays -/

/-- Reading an array. The array is read as if its size was rounded up to a power of two, with
zeros behind its end, and only so many low bits of the index count. -/
def arrayRead {α : Type*} {n : Nat} (a : Vector α n) (zero : α) (index : Nat) : α :=
  a[index % 2 ^ Nat.clog 2 n]?.getD zero

theorem arrayRead_of_lt {α : Type*} {n : Nat} (a : Vector α n) (zero : α) {index : Nat}
    (h : index < n) : arrayRead a zero index = a[index] := by
  have hle : n ≤ 2 ^ Nat.clog 2 n := Nat.le_pow_clog (by omega) n
  simp only [arrayRead, Nat.mod_eq_of_lt (h.trans_le hle), h, getElem?_pos, Option.getD_some]

end Kanagawa.Library
