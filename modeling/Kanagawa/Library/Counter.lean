/-
  Kanagawa.Library.Counter

  The counter of `data/counter.k`.

  A count is the difference of two halves.  One of them only moves when the
  count goes up and the other one when it goes down, and both wrap.  Their
  difference is the count as long as that is at most the maximum.
-/
import Kanagawa.Library.Basic

namespace Kanagawa.Library

/-- `counter<Maximum>` -/
structure Counter (maximum : Nat) where
  /-- `_first` -/
  first : BitVec (countWidth maximum)
  /-- `_second` -/
  second : BitVec (countWidth maximum)
  deriving DecidableEq

namespace Counter

variable {maximum : Nat} (c : Counter maximum)

/-- The counter after `reset`, and at the start. -/
def reset (maximum initial : Nat) : Counter maximum := ⟨BitVec.ofNat _ initial, 0#_⟩

/-- `count`: the difference is cast to the counter's type. -/
def count : BitVec (countWidth maximum) := c.first - c.second

/-- `is_zero` -/
def isZero : Bool := c.first == c.second

/-- `add` -/
def add (amount : BitVec (countWidth maximum)) : Counter maximum :=
  { c with first := c.first + amount }

/-- `increment` -/
def increment : Counter maximum := c.add 1#_

/-- `subtract` -/
def subtract (amount : BitVec (countWidth maximum)) : Counter maximum :=
  { c with second := c.second + amount }

/-- `decrement` -/
def decrement : Counter maximum := c.subtract 1#_

/-! ## Counting -/

/-- The counter stands at `n`. -/
structure StandsAt (n : Nat) : Prop where
  le : n ≤ maximum
  toNat_count : c.count.toNat = n

variable {c} {n : Nat}

theorem standsAt_reset {initial : Nat} (h : initial ≤ maximum) :
    (reset maximum initial).StandsAt initial := by
  refine ⟨h, ?_⟩
  have hlt := lt_two_pow_countWidth maximum
  simp only [count, reset, BitVec.sub_zero, BitVec.toNat_ofNat]
  exact Nat.mod_eq_of_lt (by omega)

/-- A count goes up as far as the maximum. -/
theorem StandsAt.add (h : c.StandsAt n) {amount : BitVec (countWidth maximum)}
    (hle : n + amount.toNat ≤ maximum) : (c.add amount).StandsAt (n + amount.toNat) := by
  refine ⟨hle, ?_⟩
  have hlt := lt_two_pow_countWidth maximum
  have hcount : (c.add amount).count = c.count + amount := by
    simp only [count, Counter.add]
    rw [sub_add_eq_add_sub]
  rw [hcount, BitVec.toNat_add, h.toNat_count]
  exact Nat.mod_eq_of_lt (by omega)

/-- A count goes down as far as zero. -/
theorem StandsAt.subtract (h : c.StandsAt n) {amount : BitVec (countWidth maximum)}
    (hle : amount.toNat ≤ n) : (c.subtract amount).StandsAt (n - amount.toNat) := by
  refine ⟨(Nat.sub_le _ _).trans h.le, ?_⟩
  have hcount : (c.subtract amount).count = c.count - amount := by
    simp only [count, Counter.subtract]
    rw [sub_sub]
  have hamount : amount ≤ c.count := by
    rw [BitVec.le_def, h.toNat_count]
    exact hle
  rw [hcount, BitVec.toNat_sub_of_le hamount, h.toNat_count]

/-- A `ctr_t` holds the constant one as soon as the maximum is at least one. -/
theorem toNat_one (h : 0 < maximum) : (1#(countWidth maximum)).toNat = 1 := by
  have hlt := lt_two_pow_countWidth maximum
  rw [BitVec.toNat_ofNat, Nat.mod_eq_of_lt (by omega)]

theorem StandsAt.increment (h : c.StandsAt n) (hlt : n < maximum) :
    c.increment.StandsAt (n + 1) := by
  have hone := toNat_one (Nat.zero_lt_of_lt hlt)
  have hadd := h.add (show n + (1#(countWidth maximum)).toNat ≤ maximum by omega)
  rwa [hone] at hadd

theorem StandsAt.decrement (h : c.StandsAt n) (hpos : 0 < n) : c.decrement.StandsAt (n - 1) := by
  have hone := toNat_one (hpos.trans_le h.le)
  have hsub := h.subtract (show (1#(countWidth maximum)).toNat ≤ n by omega)
  rwa [hone] at hsub

end Counter

end Kanagawa.Library
