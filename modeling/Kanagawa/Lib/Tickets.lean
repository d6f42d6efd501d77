/-
  Kanagawa.Lib.Tickets

  Tickets numbered in order, modulo the size of a counter.

  A counter that wraps hands out the numbers of its tickets and another one
  follows the tickets that are given back, in the same order.  Those in between
  are told apart by their numbers, or by the low bits of them, as long as there
  are no more of them than such numbers.
-/
import Mathlib

namespace Kanagawa.Tickets

/-- The numbers of `count` tickets from the one handed out after `first` others. -/
def tickets (size first count : Nat) : List Nat := (List.range' first count).map (· % size)

variable {size first count : Nat}

@[simp] theorem length_tickets : (tickets size first count).length = count := by
  rw [tickets, List.length_map, List.length_range']

/-- One more ticket is handed out. -/
theorem tickets_append_one :
    tickets size first (count + 1) = tickets size first count ++ [(first + count) % size] := by
  rw [tickets, List.range'_concat, List.map_append, one_mul]
  rfl

/-- The oldest ticket comes first. -/
theorem tickets_cons :
    tickets size first (count + 1) = first % size :: tickets size (first + 1) count := rfl

theorem mem_tickets {x : Nat} :
    x ∈ tickets size first count ↔ ∃ i < count, (first + i) % size = x := by
  simp only [tickets, List.mem_map, List.mem_range'_1]
  constructor
  · rintro ⟨k, ⟨hle, hlt⟩, rfl⟩
    exact ⟨k - first, by omega, by rw [Nat.add_sub_cancel' hle]⟩
  · rintro ⟨i, hi, rfl⟩
    exact ⟨first + i, ⟨by omega, by omega⟩, rfl⟩

theorem getElem_tickets {i : Nat} (hi : i < (tickets size first count).length) :
    (tickets size first count)[i] = (first + i) % size := by
  simp only [tickets, List.getElem_map, List.getElem_range', one_mul]

/-- Numbers less than `low` apart differ modulo `low`. -/
theorem eq_of_mod_eq {low i j : Nat} (hi : i < low) (hj : j < low)
    (h : (first + i) % low = (first + j) % low) : i = j := by
  have hmod : i ≡ j [MOD low] := Nat.ModEq.add_left_cancel' first h
  rwa [Nat.ModEq, Nat.mod_eq_of_lt hi, Nat.mod_eq_of_lt hj] at hmod

/-- As many tickets as `low` numbers differ modulo `low`. -/
theorem pairwise_mod_ne {low : Nat} (hdvd : low ∣ size) (hcount : count ≤ low) :
    (tickets size first count).Pairwise (fun a b => a % low ≠ b % low) := by
  rw [List.pairwise_iff_getElem]
  intro i j hi hj hij heq
  rw [getElem_tickets, getElem_tickets, Nat.mod_mod_of_dvd _ hdvd, Nat.mod_mod_of_dvd _ hdvd] at heq
  rw [length_tickets] at hi hj
  exact absurd (eq_of_mod_eq (by omega) (by omega) heq) (Nat.ne_of_lt hij)

end Kanagawa.Tickets
