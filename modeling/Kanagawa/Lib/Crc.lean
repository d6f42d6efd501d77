/-
  Kanagawa.Lib.Crc

  Cyclic redundancy checks.

  The register of a check moves by one place for every bit of the message, and the polynomial is
  added when a one falls out.  The register is linear over the field of two elements, so a message
  and a register can be cut into digits whose shares are read from a table and added up.
-/
import Mathlib

namespace Kanagawa.Crc

variable {w v : Nat}

/-! ## Sums -/

/-- The sum of vectors over the field of two elements. -/
def xorAll (xs : List (BitVec w)) : BitVec w := xs.foldl (· ^^^ ·) 0#w

@[simp] theorem xorAll_nil : xorAll ([] : List (BitVec w)) = 0#w := rfl

theorem xorAll_append_one (xs : List (BitVec w)) (x : BitVec w) :
    xorAll (xs ++ [x]) = xorAll xs ^^^ x := by
  rw [xorAll, List.foldl_append]
  rfl

/-- Terms that are zero from some place on do not count. -/
theorem xorAll_range_of_zero {n m : Nat} {f : Nat → BitVec w} (hle : n ≤ m)
    (hzero : ∀ i, n ≤ i → f i = 0#w) :
    xorAll ((List.range m).map f) = xorAll ((List.range n).map f) := by
  induction m with
  | zero =>
    have hn : n = 0 := by omega
    rw [hn]
  | succ m ih =>
    rcases Nat.lt_or_eq_of_le hle with hlt | rfl
    · rw [List.range_succ, List.map_append, List.map_singleton, xorAll_append_one,
        hzero m (by omega), BitVec.xor_zero]
      exact ih (by omega)
    · rfl

/-! ## Registers -/

/-- A register moves to the right, and the polynomial is added when a one falls out. -/
def shift (poly r : BitVec w) : BitVec w := (r >>> 1) ^^^ if r.getLsbD 0 then poly else 0#w

/-- A bit as a vector. -/
def bit (b : Bool) : BitVec w := (BitVec.ofBool b).setWidth w

/-- The bits of a message, one after the other. -/
def feed (poly r : BitVec w) (bits : List Bool) : BitVec w :=
  bits.foldl (fun r b => shift poly (r ^^^ bit b)) r

theorem getLsbD_bit (b : Bool) (i : Nat) (hw : 0 < w) :
    (bit b : BitVec w).getLsbD i = (decide (i = 0) && b) := by
  rw [bit, BitVec.getLsbD_setWidth, BitVec.getLsbD_ofBool]
  by_cases hi : i = 0
  · simp [hi, hw]
  · simp [hi]

variable (poly : BitVec w)

/-- The register is linear. -/
theorem shift_xor (r r' : BitVec w) : shift poly (r ^^^ r') = shift poly r ^^^ shift poly r' := by
  apply BitVec.eq_of_getLsbD_eq
  intro i _
  simp only [shift, BitVec.getLsbD_xor, BitVec.getLsbD_ushiftRight]
  cases r.getLsbD 0 <;> cases r'.getLsbD 0 <;>
    cases r.getLsbD (1 + i) <;> cases r'.getLsbD (1 + i) <;> simp

theorem shift_zero : shift poly 0#w = 0#w := by
  simp [shift]

theorem shifts_xor (n : Nat) (r r' : BitVec w) :
    (shift poly)^[n] (r ^^^ r') = (shift poly)^[n] r ^^^ (shift poly)^[n] r' := by
  induction n with
  | zero => rfl
  | succ n ih => rw [Function.iterate_succ_apply', Function.iterate_succ_apply',
      Function.iterate_succ_apply', ih, shift_xor]

theorem shifts_zero (n : Nat) : (shift poly)^[n] 0#w = 0#w :=
  Function.iterate_fixed (shift_zero poly) n

theorem shifts_xorAll (n : Nat) (xs : List (BitVec w)) :
    (shift poly)^[n] (xorAll xs) = xorAll (xs.map (shift poly)^[n]) := by
  induction xs using List.reverseRecOn with
  | nil => exact shifts_zero poly n
  | append_singleton xs x ih =>
    rw [List.map_append, List.map_singleton, xorAll_append_one, xorAll_append_one, shifts_xor, ih]

theorem feed_append (r : BitVec w) (bits bits' : List Bool) :
    feed poly r (bits ++ bits') = feed poly (feed poly r bits) bits' :=
  List.foldl_append

/-- The share of the register and the share of the message. -/
theorem feed_eq (r : BitVec w) (bits : List Bool) :
    feed poly r bits = (shift poly)^[bits.length] r ^^^ feed poly 0#w bits := by
  induction bits using List.reverseRecOn with
  | nil => exact (BitVec.xor_zero).symm
  | append_singleton bits b ih =>
    rw [feed_append, feed_append, ih, List.length_append, List.length_singleton,
      Function.iterate_succ_apply']
    show shift poly (_ ^^^ _ ^^^ _) = shift poly _ ^^^ shift poly (_ ^^^ _)
    rw [BitVec.xor_assoc, shift_xor]

/-- Zeros do not change a register of zeros. -/
theorem feed_zeros (n : Nat) : feed poly 0#w (List.replicate n false) = 0#w := by
  induction n with
  | zero => rfl
  | succ n ih =>
    have hfirst : shift poly (0#w ^^^ bit false) = 0#w := by
      simp [bit, shift]
    rw [List.replicate_succ, feed, List.foldl_cons, hfirst]
    exact ih

/-! ## Digits -/

/-- The low bits of a vector, from the lowest. -/
def lowBits (x : BitVec v) (n : Nat) : List Bool := (List.range n).map x.getLsbD

/-- A register moves: what is left of it, and the share of what has fallen out. -/
theorem shifts_eq_feed (n : Nat) (r : BitVec w) :
    (shift poly)^[n] r = (r >>> n) ^^^ feed poly 0#w (lowBits r n) := by
  induction n with
  | zero => simp [lowBits, feed]
  | succ n ih =>
    have hbits : lowBits r (n + 1) = lowBits r n ++ [r.getLsbD n] := by
      rw [lowBits, List.range_succ, List.map_append]
      rfl
    rw [Function.iterate_succ_apply', ih, hbits, feed_append]
    show shift poly (_ ^^^ _) = _ ^^^ shift poly (_ ^^^ bit (r.getLsbD n))
    rw [shift_xor, shift_xor, BitVec.xor_comm (shift poly (feed _ _ _)), ← BitVec.xor_assoc]
    congr 1
    -- The bit that falls out next is the lowest of what is left.
    apply BitVec.eq_of_getLsbD_eq
    intro i hi
    have hw : 0 < w := by omega
    simp only [shift, BitVec.getLsbD_xor, BitVec.getLsbD_ushiftRight, getLsbD_bit _ _ hw,
      Nat.add_zero, decide_true, Bool.true_and]
    have hplace : n + (1 + i) = n + 1 + i := by omega
    rw [hplace]
    simp

/-- A digit of a vector, as a register. -/
def digit (w d : Nat) (x : BitVec v) (k : Nat) : BitVec w := (x.extractLsb' (d * k) d).setWidth w

theorem feed_digit {d : Nat} (hd : d ≤ w) (x : BitVec v) (k : Nat) :
    feed poly 0#w ((List.range d).map fun i => x.getLsbD (d * k + i)) =
      (shift poly)^[d] (digit w d x k) := by
  rw [shifts_eq_feed]
  have hnothing : digit w d x k >>> d = 0#w := by
    apply BitVec.eq_of_getLsbD_eq
    intro i _
    simp [digit]
  have hbits : lowBits (digit w d x k) d = (List.range d).map fun i => x.getLsbD (d * k + i) := by
    apply List.map_congr_left
    intro i hi
    have hi' := List.mem_range.mp hi
    have hw : i < w := by omega
    simp [digit, hi', hw]
  rw [hnothing, hbits, BitVec.zero_xor]

/-- The share of a message is the sum of the shares of its digits. -/
theorem feed_lowBits {d : Nat} (hd : d ≤ w) (x : BitVec v) (m : Nat) :
    feed poly 0#w (lowBits x (d * m)) =
      xorAll ((List.range m).map fun k => (shift poly)^[d * (m - k)] (digit w d x k)) := by
  induction m with
  | zero => rfl
  | succ m ih =>
    have hbits : lowBits x (d * (m + 1)) =
        lowBits x (d * m) ++ (List.range d).map fun i => x.getLsbD (d * m + i) := by
      rw [lowBits, Nat.mul_succ, List.range_add, List.map_append, List.map_map]
      rfl
    rw [hbits, feed_append, feed_eq, feed_digit poly hd, ih, List.length_map, List.length_range,
      List.range_succ, List.map_append, List.map_singleton, xorAll_append_one, shifts_xorAll,
      List.map_map, Nat.add_sub_cancel_left, Nat.mul_one]
    congr 2
    apply List.map_congr_left
    intro k hk
    have hlt := List.mem_range.mp hk
    show (shift poly)^[d] ((shift poly)^[d * (m - k)] _) = _
    rw [← Function.iterate_add_apply, Nat.succ_sub (by omega), Nat.mul_succ, Nat.add_comm]

/-! ## Checks -/

/-- The register of a check, which moves to the left. -/
def shiftLeft (poly r : BitVec w) (b : Bool) : BitVec w :=
  (r <<< 1) ^^^ if r.msb != b then poly else 0#w

/-- The bits of a byte, from the highest. -/
def highBits (byte : BitVec 8) : List Bool := (List.range 8).map byte.getMsbD

/-- The parameters of a check. -/
structure Parameters (w : Nat) where
  poly : BitVec w
  init : BitVec w
  reflectIn : Bool
  reflectOut : Bool
  xorOut : BitVec w

/-- The register behind the bytes of a message, one bit after the other. -/
def register (p : Parameters w) (bytes : List (BitVec 8)) : BitVec w :=
  bytes.foldl (fun r byte =>
    (highBits (if p.reflectIn then byte.reverse else byte)).foldl (shiftLeft p.poly) r) p.init

/-- The check of a message. -/
def check (p : Parameters w) (bytes : List (BitVec 8)) : BitVec w :=
  (if p.reflectOut then (register p bytes).reverse else register p bytes) ^^^ p.xorOut

/-- The digits from one to nine, with the parameters that Ethernet uses. -/
example : check ⟨0x04C11DB7#32, 0xFFFFFFFF#32, true, true, 0xFFFFFFFF#32⟩
    [0x31, 0x32, 0x33, 0x34, 0x35, 0x36, 0x37, 0x38, 0x39] = 0xCBF43926#32 := by
  decide +kernel

/-- The bits of the reversed byte, in the other order. -/
theorem highBits_eq (byte : BitVec 8) : highBits byte = lowBits byte.reverse 8 := by
  apply List.map_congr_left
  intro i _
  rw [BitVec.getLsbD_reverse]

/-- The register that moves to the left is the other one, reversed. -/
theorem reverse_shiftLeft (r : BitVec w) (b : Bool) :
    (shiftLeft poly r b).reverse = shift poly.reverse (r.reverse ^^^ bit b) := by
  apply BitVec.eq_of_getLsbD_eq
  intro i hi
  have hw : 0 < w := by omega
  have hmsb : r.msb = r.getMsbD 0 := rfl
  simp only [shift, shiftLeft, BitVec.getLsbD_reverse, BitVec.getMsbD_xor, BitVec.getLsbD_xor,
    BitVec.getLsbD_ushiftRight, getLsbD_bit _ _ hw, BitVec.getMsbD_shiftLeft, hmsb,
    decide_true, Bool.true_and]
  rw [Nat.add_comm i 1]
  cases r.getMsbD 0 <;> cases b <;> simp [BitVec.getLsbD_reverse]

theorem reverse_foldl_shiftLeft (r : BitVec w) (bits : List Bool) :
    (bits.foldl (shiftLeft poly) r).reverse = feed poly.reverse r.reverse bits := by
  induction bits generalizing r with
  | nil => rfl
  | cons b bits ih =>
    rw [List.foldl_cons, ih, reverse_shiftLeft]
    rfl

/-- The register behind some more bytes, reversed. -/
theorem reverse_register_append (p : Parameters w) (bytes more : List (BitVec 8)) :
    (register p (bytes ++ more)).reverse =
      feed p.poly.reverse (register p bytes).reverse
        (more.flatMap fun byte => lowBits (if p.reflectIn then byte else byte.reverse) 8) := by
  induction more using List.reverseRecOn with
  | nil => rw [List.append_nil]; rfl
  | append_singleton more byte ih =>
    rw [← List.append_assoc, register, List.foldl_append, ← register, List.flatMap_append,
      feed_append, ← ih]
    show ((highBits (if p.reflectIn then byte.reverse else byte)).foldl (shiftLeft p.poly)
      (register p (bytes ++ more))).reverse = _
    rw [reverse_foldl_shiftLeft, highBits_eq, List.flatMap_singleton]
    cases p.reflectIn with
    | false => rfl
    | true =>
      simp only [if_true, BitVec.reverse_reverse_eq]

end Kanagawa.Crc
