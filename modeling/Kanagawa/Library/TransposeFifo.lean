/-
  Kanagawa.Library.TransposeFifo

  The transposing FIFO (`data/fifo/transpose.k`).

  Element `c` of row `r` of a square goes to memory `c + r`, at the place `c` of the square, so that
  column `k` has its elements at place `k` of all memories, rotated by `k`.  Credits are taken for
  rows and columns, and posted for whole squares.  Calls of one method pass each step in call order,
  and otherwise the steps interleave in any way.
-/
import Kanagawa.Library.Arrays
import Kanagawa.Library.Lock
import Kanagawa.Library.Ring

namespace Kanagawa.Library

open Kanagawa.Runs

/-! ## The calls of a method -/

/-- The calls of one method that have passed the wait, in call order: the number of lines they
    discard and their other argument, the pointers of those that have one, and how many have
    accessed the memories and passed the post. -/
structure Calls (arraySize arrayDepth : Nat) (A : Type) where
  args : List (BitVec (indexWidth arraySize) × A) := []
  pointers : List (BitVec (indexWidth arrayDepth)) := []
  accessed : Nat := 0
  posted : Nat := 0

/-- `fifo<T, ArraySize, ArrayDepth>` with its calls; rows and columns are given by their elements. -/
structure TransposeFifo (T : Type) (arraySize arrayDepth : Nat) where
  /-- `_data_memories` -/
  dataMemories : Nat → Memory T arrayDepth
  /-- `_read_semaphore` -/
  readSemaphore : Semaphore arrayDepth := Semaphore.initial arrayDepth 0
  /-- `_write_semaphore` -/
  writeSemaphore : Semaphore arrayDepth := Semaphore.initial arrayDepth arrayDepth
  /-- The state of `atomically` in `enqueue_and_discard`. -/
  producer : BitVec (indexWidth arrayDepth) := 0#_
  /-- The state of `atomically` in `dequeue_and_discard`. -/
  consumer : BitVec (indexWidth arrayDepth) := 0#_
  enqueues : Calls arraySize arrayDepth (Nat → T) := {}
  dequeues : Calls arraySize arrayDepth Unit := {}
  /-- The results of the dequeue calls, in order. -/
  columns : List (Nat → T) := []

namespace TransposeFifo

inductive Event (T : Type) (arraySize : Nat) where
  | enqueueWait (values : Nat → T) (discardRowCount : BitVec (indexWidth arraySize))
  | enqueueClaim
  | enqueueStore
  | enqueuePost
  | dequeueWait (discardColumnCount : BitVec (indexWidth arraySize))
  | dequeueClaim
  | dequeueLoad (unknown : T)
  | dequeuePost

variable {T A : Type} {arraySize arrayDepth : Nat}

/-- `total_row_count`, and `total_column_count`. -/
def totalCount (discard : BitVec (indexWidth arraySize)) : BitVec (countWidth arraySize) :=
  BitVec.ofNat _ (1 + discard.toNat)

/-- The argument of `wait_multiple`. -/
def credits (discard : BitVec (indexWidth arraySize)) : BitVec (countWidth arrayDepth) :=
  BitVec.ofNat _ (totalCount discard).toNat

/-- `increment_address`, of `atomically`. -/
def incrementAddress (pointer : BitVec (indexWidth arrayDepth))
    (discard : BitVec (indexWidth arraySize)) : BitVec (indexWidth arrayDepth) :=
  pointer + BitVec.ofNat _ (totalCount discard).toNat

/-- `square_base` -/
def squareBase (arraySize : Nat) (index : BitVec (indexWidth arrayDepth)) :
    BitVec (indexWidth arrayDepth) :=
  BitVec.ofNat _ (index.toNat / arraySize * arraySize)

/-- `index_within_square` -/
def indexWithinSquare (arraySize : Nat) (index : BitVec (indexWidth arrayDepth)) :
    BitVec (indexWidth arraySize) :=
  BitVec.ofNat _ (index.toNat % arraySize)

/-- `select` -/
def select (i : Nat) (indexWithinSquare : BitVec (indexWidth arraySize)) :
    BitVec (indexWidth arraySize) :=
  BitVec.ofInt _ (i - indexWithinSquare.toNat)

/-- The stores of a row. -/
def storeRow (arraySize : Nat) (memories : Nat → Memory T arrayDepth)
    (index : BitVec (indexWidth arrayDepth)) (values : Nat → T) : Nat → Memory T arrayDepth :=
  fun i =>
    if i < arraySize then
      let select := select i (indexWithinSquare arraySize index)
      (memories i).write ((squareBase arraySize index).toNat + select.toNat) (values select.toNat)
    else memories i

/-- The loads of a column, and the rotation. -/
def loadColumn (arraySize : Nat) (memories : Nat → Memory T arrayDepth)
    (index : BitVec (indexWidth arrayDepth)) (unknown : T) : Nat → T :=
  rotateArrayRight arraySize (indexWidth arraySize) (fun i => (memories i).read index.toNat unknown)
    (indexWithinSquare arraySize index).toNat

/-- The line behind those of a call, in its square. -/
def lineEnd (index : BitVec (indexWidth arrayDepth)) (discard : BitVec (indexWidth arraySize)) : Nat :=
  (indexWithinSquare arraySize index).toNat + (totalCount discard).toNat

/-- The post at the end of a call. -/
def postSquare (semaphore : Semaphore arrayDepth) (index : BitVec (indexWidth arrayDepth))
    (discard : BitVec (indexWidth arraySize)) : Semaphore arrayDepth :=
  if lineEnd index discard = arraySize then semaphore.postMultiple (BitVec.ofNat _ arraySize)
  else semaphore

/-- Its assertions. -/
def postAsserts (semaphore : Semaphore arrayDepth) (index : BitVec (indexWidth arrayDepth))
    (discard : BitVec (indexWidth arraySize)) : Bool :=
  decide (lineEnd index discard ≤ arraySize) &&
    (!decide (lineEnd index discard = arraySize) ||
      semaphore.postMultipleAssert (BitVec.ofNat _ arraySize))

/-- The steps of the methods. -/
def next (enqueueBlocking dequeueBlocking : Bool) (s : TransposeFifo T arraySize arrayDepth) :
    Event T arraySize → TransposeFifo T arraySize arrayDepth
  | .enqueueWait values discard =>
    let turn := s.writeSemaphore.waitMultiple enqueueBlocking (credits discard)
    let s := { s with writeSemaphore := turn.state }
    if turn.returns then
      { s with enqueues := { s.enqueues with args := s.enqueues.args ++ [(discard, values)] } }
    else s
  | .enqueueClaim =>
    match s.enqueues.args[s.enqueues.pointers.length]? with
    | none => s
    | some (discard, _) => { s with
        producer := incrementAddress s.producer discard
        enqueues := { s.enqueues with pointers := s.enqueues.pointers ++ [s.producer] } }
  | .enqueueStore =>
    match s.enqueues.args[s.enqueues.accessed]?, s.enqueues.pointers[s.enqueues.accessed]? with
    | some (_, values), some index => { s with
        dataMemories := storeRow arraySize s.dataMemories index values
        enqueues := { s.enqueues with accessed := s.enqueues.accessed + 1 } }
    | _, _ => s
  | .enqueuePost =>
    match s.enqueues.args[s.enqueues.posted]?, s.enqueues.pointers[s.enqueues.posted]? with
    | some (discard, _), some index => { s with
        readSemaphore := postSquare s.readSemaphore index discard
        enqueues := { s.enqueues with posted := s.enqueues.posted + 1 } }
    | _, _ => s
  | .dequeueWait discard =>
    let turn := s.readSemaphore.waitMultiple dequeueBlocking (credits discard)
    let s := { s with readSemaphore := turn.state }
    if turn.returns then
      { s with dequeues := { s.dequeues with args := s.dequeues.args ++ [(discard, ())] } }
    else s
  | .dequeueClaim =>
    match s.dequeues.args[s.dequeues.pointers.length]? with
    | none => s
    | some (discard, _) => { s with
        consumer := incrementAddress s.consumer discard
        dequeues := { s.dequeues with pointers := s.dequeues.pointers ++ [s.consumer] } }
  | .dequeueLoad unknown =>
    match s.dequeues.pointers[s.dequeues.accessed]? with
    | none => s
    | some index => { s with
        columns := s.columns ++ [loadColumn arraySize s.dataMemories index unknown]
        dequeues := { s.dequeues with accessed := s.dequeues.accessed + 1 } }
  | .dequeuePost =>
    match s.dequeues.args[s.dequeues.posted]?, s.dequeues.pointers[s.dequeues.posted]? with
    | some (discard, _), some index => { s with
        writeSemaphore := postSquare s.writeSemaphore index discard
        dequeues := { s.dequeues with posted := s.dequeues.posted + 1 } }
    | _, _ => s

/-- The assertions of a step. -/
def asserts (enqueueBlocking dequeueBlocking : Bool) (s : TransposeFifo T arraySize arrayDepth) :
    Event T arraySize → Bool
  | .enqueueWait _ discard =>
    (s.writeSemaphore.waitMultiple enqueueBlocking (credits discard)).asserts
  | .enqueuePost =>
    match s.enqueues.args[s.enqueues.posted]?, s.enqueues.pointers[s.enqueues.posted]? with
    | some (discard, _), some index => postAsserts s.readSemaphore index discard
    | _, _ => true
  | .dequeueWait discard =>
    (s.readSemaphore.waitMultiple dequeueBlocking (credits discard)).asserts
  | .dequeuePost =>
    match s.dequeues.args[s.dequeues.posted]?, s.dequeues.pointers[s.dequeues.posted]? with
    | some (discard, _), some index => postAsserts s.writeSemaphore index discard
    | _, _ => true
  | _ => true

end TransposeFifo

/-! ## Lines -/

namespace Calls

variable {A : Type} {arraySize arrayDepth : Nat}

/-- The rows or columns of the first calls. -/
def lines (calls : Calls arraySize arrayDepth A) (m : Nat) : Nat :=
  ((calls.args.take m).map fun arg => 1 + arg.1.toNat).sum

/-- A next call keeps its discards inside one square. -/
def Fits (calls : Calls arraySize arrayDepth A) (discard : BitVec (indexWidth arraySize)) : Prop :=
  calls.lines calls.args.length % arraySize + (1 + discard.toNat) ≤ arraySize

end Calls

namespace TransposeFifo

variable {T : Type} {arraySize arrayDepth : Nat}

/-- A step has a call that takes it, callers keep their discards inside one square, and the callers
    of non-blocking methods keep their promise that there is room, or that there are columns. -/
def Enabled (enqueueBlocking dequeueBlocking : Bool) (s : TransposeFifo T arraySize arrayDepth) :
    Event T arraySize → Prop
  | .enqueueWait _ discard => s.enqueues.Fits discard ∧
      (enqueueBlocking = true ∨ 1 + discard.toNat ≤ s.writeSemaphore.count.toNat)
  | .enqueueClaim => s.enqueues.pointers.length < s.enqueues.args.length
  | .enqueueStore => s.enqueues.accessed < s.enqueues.pointers.length
  | .enqueuePost => s.enqueues.posted < s.enqueues.accessed
  | .dequeueWait discard => s.dequeues.Fits discard ∧
      (dequeueBlocking = true ∨ 1 + discard.toNat ≤ s.readSemaphore.count.toNat)
  | .dequeueClaim => s.dequeues.pointers.length < s.dequeues.args.length
  | .dequeueLoad _ => s.dequeues.accessed < s.dequeues.pointers.length
  | .dequeuePost => s.dequeues.posted < s.dequeues.accessed

instance (eb db : Bool) (s : TransposeFifo T arraySize arrayDepth) (e : Event T arraySize) :
    Decidable (Enabled eb db s e) :=
  match e with
  | .enqueueWait _ _ => inferInstanceAs (Decidable (_ ≤ arraySize ∧ (_ ∨ _)))
  | .enqueueClaim => inferInstanceAs (Decidable (s.enqueues.pointers.length < _))
  | .enqueueStore => inferInstanceAs (Decidable (s.enqueues.accessed < _))
  | .enqueuePost => inferInstanceAs (Decidable (s.enqueues.posted < _))
  | .dequeueWait _ => inferInstanceAs (Decidable (_ ≤ arraySize ∧ (_ ∨ _)))
  | .dequeueClaim => inferInstanceAs (Decidable (s.dequeues.pointers.length < _))
  | .dequeueLoad _ => inferInstanceAs (Decidable (s.dequeues.accessed < _))
  | .dequeuePost => inferInstanceAs (Decidable (s.dequeues.posted < _))

/-- Any number of calls, from memories with any content. -/
def system (enqueueBlocking dequeueBlocking : Bool) (arraySize : Nat)
    (dataMemories : Nat → Memory T arrayDepth) :
    System (TransposeFifo T arraySize arrayDepth) (Event T arraySize) where
  start := { dataMemories }
  Enabled := Enabled enqueueBlocking dequeueBlocking
  next := next enqueueBlocking dequeueBlocking

instance (eb db : Bool) (dataMemories : Nat → Memory T arrayDepth)
    (s : TransposeFifo T arraySize arrayDepth) (e : Event T arraySize) :
    Decidable ((system eb db arraySize dataMemories).Enabled s e) :=
  inferInstanceAs (Decidable (Enabled eb db s e))

/-- The FIFO transposes: a column has been dequeued from a square that is complete, and holds the
    elements of the rows of that square; a row is in the memories as long as its square has columns
    that were not read. -/
structure Transposes (s : TransposeFifo T arraySize arrayDepth) : Prop where
  complete : ∀ j < s.columns.length,
    (s.dequeues.lines j / arraySize + 1) * arraySize ≤ s.enqueues.lines s.enqueues.accessed
  transposed : ∀ (j m : Nat) column row, s.columns[j]? = some column →
    s.enqueues.args[m]? = some row →
    s.enqueues.lines m / arraySize = s.dequeues.lines j / arraySize →
    column (s.enqueues.lines m % arraySize) = row.2 (s.dequeues.lines j % arraySize)
  stored : ∀ (m c : Nat) row unknown, s.enqueues.args[m]? = some row → m < s.enqueues.accessed →
    c < arraySize →
    s.dequeues.lines s.dequeues.accessed < (s.enqueues.lines m / arraySize + 1) * arraySize →
    (s.dataMemories ((c + s.enqueues.lines m) % arraySize)).read
      ((s.enqueues.lines m / arraySize * arraySize + c) % arrayDepth) unknown = row.2 c

/-! ### Index arithmetic -/

end TransposeFifo

/-- What the static assertions give for memories of at least two entries. -/
structure SquareSizes (arraySize arrayDepth : Nat) : Prop where
  pos : 0 < arraySize
  dvd : arraySize ∣ arrayDepth
  wraps : PointerWraps arrayDepth
  /-- An array of one element has a select of one bit. -/
  select : arraySize = 1 ∨ PointerWraps arraySize

theorem squareSizes_two_pow {a b : Nat} (hle : a ≤ b) (hb : 0 < b) :
    SquareSizes (2 ^ a) (2 ^ b) where
  pos := Nat.two_pow_pos a
  dvd := Nat.pow_dvd_pow 2 hle
  wraps := pointerWraps_two_pow hb
  select := by
    rcases Nat.eq_zero_or_pos a with rfl | ha
    · exact .inl rfl
    · exact .inr (pointerWraps_two_pow ha)

theorem SquareSizes.le (h : SquareSizes arraySize arrayDepth) : arraySize ≤ arrayDepth :=
  Nat.le_of_dvd h.wraps.pos h.dvd

/-- A place in a square of the ring: the square, which wraps, and the place in it. -/
theorem SquareSizes.base_add_mod (h : SquareSizes arraySize arrayDepth) (line : Nat) {c : Nat}
    (hc : c < arraySize) :
    (line / arraySize * arraySize + c) % arrayDepth =
      line % arrayDepth / arraySize * arraySize + c := by
  obtain ⟨squares, rfl⟩ := h.dvd
  -- The ring is so many squares: the square wraps, the place in it does not.
  rw [Nat.mod_mul_right_div_self, Nat.mod_mul, Nat.mul_comm (line / arraySize), Nat.mul_add_mod,
    Nat.mul_add_div h.pos, Nat.mod_eq_of_lt hc, Nat.div_eq_of_lt hc, Nat.add_zero, Nat.add_comm,
    Nat.mul_comm arraySize]

namespace TransposeFifo

variable {T A : Type} {arraySize arrayDepth : Nat} {index : BitVec (indexWidth arrayDepth)}
  {discard : BitVec (indexWidth arraySize)} {line : Nat}

theorem toNat_totalCount (hfits : 1 + discard.toNat ≤ arraySize) :
    (totalCount discard).toNat = 1 + discard.toNat := by
  have hlt := lt_two_pow_countWidth arraySize
  rw [totalCount, BitVec.toNat_ofNat, Nat.mod_eq_of_lt (by omega)]

theorem toNat_credits (h : SquareSizes arraySize arrayDepth)
    (hfits : 1 + discard.toNat ≤ arraySize) :
    (credits discard : BitVec (countWidth arrayDepth)).toNat = 1 + discard.toNat := by
  have hlt := lt_two_pow_countWidth arrayDepth
  have hle := h.le
  rw [credits, BitVec.toNat_ofNat, toNat_totalCount hfits, Nat.mod_eq_of_lt (by omega)]

theorem toNat_incrementAddress (h : SquareSizes arraySize arrayDepth)
    (hfits : 1 + discard.toNat ≤ arraySize) (hindex : index.toNat = line % arrayDepth) :
    (incrementAddress index discard).toNat = (line + (1 + discard.toNat)) % arrayDepth := by
  rw [incrementAddress, h.wraps.toNat_add hindex, BitVec.toNat_ofNat, h.wraps,
    toNat_totalCount hfits, Nat.add_mod_mod]

theorem toNat_squareBase (h : SquareSizes arraySize arrayDepth)
    (hindex : index.toNat = line % arrayDepth) :
    (squareBase arraySize index).toNat = line % arrayDepth / arraySize * arraySize := by
  have hle := Nat.div_mul_le_self (line % arrayDepth) arraySize
  have hlt : line % arrayDepth < arrayDepth := Nat.mod_lt _ h.wraps.pos
  rw [squareBase, BitVec.toNat_ofNat, h.wraps, hindex, Nat.mod_eq_of_lt (by omega)]

theorem toNat_indexWithinSquare (h : SquareSizes arraySize arrayDepth)
    (hindex : index.toNat = line % arrayDepth) :
    (indexWithinSquare arraySize index).toNat = line % arraySize := by
  have hlt : line % arraySize < arraySize := Nat.mod_lt _ h.pos
  have hwidth := le_two_pow_indexWidth arraySize
  rw [indexWithinSquare, BitVec.toNat_ofNat, hindex, Nat.mod_mod_of_dvd _ h.dvd,
    Nat.mod_eq_of_lt (by omega)]

/-- The element that a memory takes from a row. -/
theorem toNat_select (h : SquareSizes arraySize arrayDepth)
    (hindex : index.toNat = line % arrayDepth) {i : Nat} (hi : i < arraySize) :
    (select i (indexWithinSquare arraySize index)).toNat < arraySize ∧
      ((select i (indexWithinSquare arraySize index)).toNat + line) % arraySize = i := by
  have hwithin := toNat_indexWithinSquare h hindex
  have hlt : line % arraySize < arraySize := Nat.mod_lt _ h.pos
  have hselect : (select i (indexWithinSquare arraySize index)).toNat =
      (i + (arraySize - line % arraySize)) % arraySize := by
    rw [select, BitVec.toNat_ofInt, hwithin]
    rcases h.select with hone | hwraps
    · have hzero : i = 0 ∧ line % arraySize = 0 := by omega
      rw [hzero.1, hzero.2, hone]
      rfl
    · rw [hwraps]
      have hcast : ((i : Int) - (line % arraySize : Nat)) % (arraySize : Nat) =
          ((i + (arraySize - line % arraySize) : Nat) : Int) % (arraySize : Nat) := by
        rw [Nat.cast_add, Nat.cast_sub hlt.le, ← add_sub_assoc, add_sub_right_comm,
          Int.add_emod_right]
      rw [hcast, ← Int.natCast_emod, Int.toNat_natCast]
  rw [hselect]
  refine ⟨Nat.mod_lt _ h.pos, ?_⟩
  -- The line is a number of whole squares and the part that the select takes away.
  rw [Nat.mod_add_mod, ← Nat.add_mod_mod, Nat.add_assoc, Nat.sub_add_cancel hlt.le,
    Nat.add_mod_right, Nat.mod_eq_of_lt hi]

/-! ### Memories -/

/-- The element `c` of the row of a line. -/
theorem read_storeRow_self (h : SquareSizes arraySize arrayDepth)
    (hindex : index.toNat = line % arrayDepth) (memories : Nat → Memory T arrayDepth)
    (values : Nat → T) {c : Nat} (hc : c < arraySize) (unknown : T) :
    (storeRow arraySize memories index values ((c + line) % arraySize)).read
      ((line / arraySize * arraySize + c) % arrayDepth) unknown = values c := by
  have hi : (c + line) % arraySize < arraySize := Nat.mod_lt _ h.pos
  obtain ⟨hlt, hselect⟩ := toNat_select h hindex hi
  -- Both are the one element that the diagonal puts into this memory.
  have heq := Nat.ModEq.add_right_cancel' line hselect
  have hc' : (select ((c + line) % arraySize) (indexWithinSquare arraySize index)).toNat = c := by
    rwa [Nat.ModEq, Nat.mod_eq_of_lt hlt, Nat.mod_eq_of_lt hc] at heq
  simp only [storeRow, hi, if_true, hc', toNat_squareBase h hindex]
  rw [← h.base_add_mod line hc]
  exact Memory.read_write_self _ (Nat.mod_lt _ h.wraps.pos) _ _

/-- The rows of other lines stay as they are. -/
theorem read_storeRow_of_ne (h : SquareSizes arraySize arrayDepth)
    (hindex : index.toNat = line % arrayDepth) (memories : Nat → Memory T arrayDepth)
    (values : Nat → T) {line' c : Nat} (hne : line' % arrayDepth ≠ line % arrayDepth)
    (hc : c < arraySize) (unknown : T) :
    (storeRow arraySize memories index values ((c + line') % arraySize)).read
        ((line' / arraySize * arraySize + c) % arrayDepth) unknown =
      (memories ((c + line') % arraySize)).read
        ((line' / arraySize * arraySize + c) % arrayDepth) unknown := by
  have hi : (c + line') % arraySize < arraySize := Nat.mod_lt _ h.pos
  obtain ⟨hlt, hselect⟩ := toNat_select h hindex hi
  simp only [storeRow, hi, if_true, toNat_squareBase h hindex]
  generalize hc' : (select ((c + line') % arraySize) (indexWithinSquare arraySize index)).toNat = c'
    at hlt hselect ⊢
  apply Memory.read_write_of_ne
  rw [h.base_add_mod line' hc]
  intro heq
  -- The same place of the same square, in the same memory: this is the same line.
  have hplace : c' = c := by
    have hmod := congrArg (· % arraySize) heq
    simpa only [Nat.mul_add_mod_of_lt, Nat.mul_add_mod_self_right, Nat.mod_eq_of_lt hlt,
      Nat.mod_eq_of_lt hc] using hmod
  subst hplace
  have hsquare : line % arrayDepth / arraySize = line' % arrayDepth / arraySize :=
    Nat.eq_of_mul_eq_mul_right h.pos (by omega)
  have hwithin : line % arraySize = line' % arraySize := Nat.ModEq.add_left_cancel' c' hselect
  apply hne
  rw [← Nat.div_add_mod (line' % arrayDepth) arraySize,
    ← Nat.div_add_mod (line % arrayDepth) arraySize, hsquare, Nat.mod_mod_of_dvd _ h.dvd,
    Nat.mod_mod_of_dvd _ h.dvd, hwithin]

/-- An element of a column comes from the memory that has it. -/
theorem loadColumn_apply (h : SquareSizes arraySize arrayDepth)
    (hindex : index.toNat = line % arrayDepth) (memories : Nat → Memory T arrayDepth)
    (unknown : T) {row : Nat} (hrow : row / arraySize = line / arraySize) :
    loadColumn arraySize memories index unknown (row % arraySize) =
      (memories ((line % arraySize + row) % arraySize)).read
        ((row / arraySize * arraySize + line % arraySize) % arrayDepth) unknown := by
  have hr : row % arraySize < arraySize := Nat.mod_lt _ h.pos
  have hamount := (indexWithinSquare arraySize index).isLt
  rw [loadColumn, rotateArrayRight_apply hr hamount, toNat_indexWithinSquare h hindex, hindex, hrow,
    Nat.mul_comm (line / arraySize), Nat.div_add_mod, Nat.mod_add_mod,
    Nat.add_comm (line % arraySize)]

/-! ### Posts -/

/-- The squares behind a call that ends in the square it starts in. -/
theorem mul_div_add (hpos : 0 < arraySize) {total : Nat}
    (hfits : line % arraySize + total ≤ arraySize) :
    arraySize * ((line + total) / arraySize) = arraySize * (line / arraySize) +
      if line % arraySize + total = arraySize then arraySize else 0 := by
  have hline := Nat.div_add_mod line arraySize
  have hsum : line + total = arraySize * (line / arraySize) + (line % arraySize + total) := by omega
  rw [hsum, Nat.mul_add_div hpos, Nat.mul_add]
  split
  · rename_i heq
    rw [heq, Nat.div_self hpos, Nat.mul_one]
  · have hlt : line % arraySize + total < arraySize := by omega
    rw [Nat.div_eq_of_lt hlt, Nat.mul_zero]

theorem lineEnd_eq (h : SquareSizes arraySize arrayDepth) (hindex : index.toNat = line % arrayDepth)
    (hfits : line % arraySize + (1 + discard.toNat) ≤ arraySize) :
    lineEnd index discard = line % arraySize + (1 + discard.toNat) := by
  rw [lineEnd, toNat_indexWithinSquare h hindex, toNat_totalCount (by omega)]

/-- A call that has room for its square in the semaphore posts it when it was the last of it. -/
theorem postSquare_spec (h : SquareSizes arraySize arrayDepth)
    (hindex : index.toNat = line % arrayDepth)
    (hfits : line % arraySize + (1 + discard.toNat) ≤ arraySize) {semaphore : Semaphore arrayDepth}
    (hroom : semaphore.count.toNat + arraySize * ((line + (1 + discard.toNat)) / arraySize) ≤
      arraySize * (line / arraySize) + arrayDepth) :
    postAsserts semaphore index discard = true ∧
      (postSquare semaphore index discard).count.toNat + arraySize * (line / arraySize) =
        semaphore.count.toNat + arraySize * ((line + (1 + discard.toNat)) / arraySize) := by
  have hend := lineEnd_eq h hindex hfits
  have hsquares := mul_div_add h.pos hfits
  rw [postAsserts, postSquare, hend]
  by_cases hlast : line % arraySize + (1 + discard.toNat) = arraySize
  · rw [if_pos hlast] at hsquares
    have hle := h.le
    have hamount : (BitVec.ofNat (countWidth arrayDepth) arraySize).toNat = arraySize := by
      have hwidth := lt_two_pow_countWidth arrayDepth
      rw [BitVec.toNat_ofNat, Nat.mod_eq_of_lt (by omega)]
    have hpost : semaphore.count.toNat + (BitVec.ofNat (countWidth arrayDepth) arraySize).toNat ≤
        arrayDepth := by omega
    constructor
    · simp [hlast, Semaphore.postMultipleAssert_of_le hpost]
    · rw [if_pos hlast, Semaphore.toNat_count_postMultiple hpost]
      omega
  · rw [if_neg hlast] at hsquares
    constructor
    · simp [hlast, hfits]
    · rw [if_neg hlast]
      omega

end TransposeFifo

/-! ### Calls in order -/

namespace Calls

variable {A : Type} {arraySize arrayDepth : Nat} {calls : Calls arraySize arrayDepth A}
  {pointer : BitVec (indexWidth arrayDepth)}

theorem lines_succ {m : Nat} {arg : BitVec (indexWidth arraySize) × A}
    (harg : calls.args[m]? = some arg) : calls.lines (m + 1) = calls.lines m + (1 + arg.1.toNat) := by
  simp only [lines, List.take_add_one, harg, Option.toList_some, List.map_append, List.map_cons,
    List.map_nil, List.sum_append, List.sum_singleton]

theorem lines_mono {m n : Nat} (hle : m ≤ n) : calls.lines m ≤ calls.lines n := by
  obtain ⟨k, rfl⟩ := Nat.exists_eq_add_of_le hle
  rw [lines, lines, List.take_add, List.map_append, List.sum_append]
  apply Nat.le_add_right

theorem lines_lt {m n : Nat} (hlt : m < n) (hn : n ≤ calls.args.length) :
    calls.lines m < calls.lines n := by
  have hm : m < calls.args.length := by omega
  have hsucc := lines_succ (List.getElem?_eq_getElem hm)
  have hmono : calls.lines (m + 1) ≤ calls.lines n := lines_mono hlt
  omega

/-- A next call comes behind the lines of the calls before it. -/
theorem lines_append (arg : BitVec (indexWidth arraySize) × A) {m : Nat}
    (hm : m ≤ calls.args.length) :
    { calls with args := calls.args ++ [arg] }.lines m = calls.lines m := by
  simp only [lines, List.take_append_of_le_length hm]

theorem lines_append_length (arg : BitVec (indexWidth arraySize) × A) :
    { calls with args := calls.args ++ [arg] }.lines (calls.args ++ [arg]).length =
      calls.lines calls.args.length + (1 + arg.1.toNat) := by
  have harg : (calls.args ++ [arg])[calls.args.length]? = some arg := by simp
  rw [List.length_append, List.length_singleton, ← lines_append arg le_rfl]
  exact lines_succ harg

/-- The calls of a method pass its steps in order, their discards stay in one square, and their
    pointers are their first lines. -/
structure Ordered (calls : Calls arraySize arrayDepth A) (pointer : BitVec (indexWidth arrayDepth)) :
    Prop where
  posted_le : calls.posted ≤ calls.accessed
  accessed_le : calls.accessed ≤ calls.pointers.length
  pointers_le : calls.pointers.length ≤ calls.args.length
  fits : ∀ (m : Nat) arg, calls.args[m]? = some arg →
    calls.lines m % arraySize + (1 + arg.1.toNat) ≤ arraySize
  pointers : ∀ (m : Nat) index, calls.pointers[m]? = some index →
    index.toNat = calls.lines m % arrayDepth
  pointer : pointer.toNat = calls.lines calls.pointers.length % arrayDepth

namespace Ordered

theorem wait (h : calls.Ordered pointer) (arg : BitVec (indexWidth arraySize) × A)
    (hfits : calls.Fits arg.1) : { calls with args := calls.args ++ [arg] }.Ordered pointer := by
  have hpointers := h.pointers_le
  refine ⟨h.posted_le, h.accessed_le, ?_, ?_, ?_, ?_⟩
  · show calls.pointers.length ≤ (calls.args ++ [arg]).length
    rw [List.length_append]
    omega
  · intro m arg' harg'
    have hm : m < calls.args.length + 1 := by
      simpa using (List.getElem?_eq_some_iff.mp harg').1
    rw [lines_append arg (by omega)]
    rcases Nat.lt_or_eq_of_le (Nat.le_of_lt_succ hm) with hlt | rfl
    · exact h.fits m arg' (by rwa [List.getElem?_append_left hlt] at harg')
    · have heq : arg = arg' := by simpa using harg'
      rw [← heq]
      exact hfits
  · intro m index hindex
    have hm : m < calls.pointers.length := (List.getElem?_eq_some_iff.mp hindex).1
    rw [lines_append arg (by omega)]
    exact h.pointers m index hindex
  · rw [lines_append arg hpointers]
    exact h.pointer

theorem claim (hsizes : SquareSizes arraySize arrayDepth) (h : calls.Ordered pointer)
    {arg : BitVec (indexWidth arraySize) × A}
    (harg : calls.args[calls.pointers.length]? = some arg) :
    { calls with pointers := calls.pointers ++ [pointer] }.Ordered
      (TransposeFifo.incrementAddress pointer arg.1) := by
  have hlt : calls.pointers.length < calls.args.length := (List.getElem?_eq_some_iff.mp harg).1
  have hfits := h.fits _ arg harg
  have haccessed := h.accessed_le
  refine ⟨h.posted_le, ?_, ?_, h.fits, ?_, ?_⟩
  · show calls.accessed ≤ (calls.pointers ++ [pointer]).length
    rw [List.length_append]
    omega
  · show (calls.pointers ++ [pointer]).length ≤ calls.args.length
    rw [List.length_append, List.length_singleton]
    omega
  · intro m index hindex
    show index.toNat = calls.lines m % arrayDepth
    have hm : m < calls.pointers.length + 1 := by
      simpa using (List.getElem?_eq_some_iff.mp hindex).1
    rcases Nat.lt_or_eq_of_le (Nat.le_of_lt_succ hm) with hlt | rfl
    · exact h.pointers m index (by rwa [List.getElem?_append_left hlt] at hindex)
    · have heq : pointer = index := by simpa using hindex
      rw [← heq]
      exact h.pointer
  · show _ = calls.lines (calls.pointers ++ [pointer]).length % arrayDepth
    rw [List.length_append, List.length_singleton, lines_succ harg]
    exact TransposeFifo.toNat_incrementAddress hsizes (by omega) h.pointer

theorem access (h : calls.Ordered pointer) (hlt : calls.accessed < calls.pointers.length) :
    { calls with accessed := calls.accessed + 1 }.Ordered pointer where
  posted_le := Nat.le_succ_of_le h.posted_le
  accessed_le := hlt
  pointers_le := h.pointers_le
  fits := h.fits
  pointers := h.pointers
  pointer := h.pointer

theorem post (h : calls.Ordered pointer) (hlt : calls.posted < calls.accessed) :
    { calls with posted := calls.posted + 1 }.Ordered pointer where
  posted_le := hlt
  accessed_le := h.accessed_le
  pointers_le := h.pointers_le
  fits := h.fits
  pointers := h.pointers
  pointer := h.pointer

/-- A call that takes a step has its arguments and its pointer. -/
theorem exists_call (h : calls.Ordered pointer) {m : Nat} (hm : m < calls.pointers.length) :
    ∃ arg index, calls.args[m]? = some arg ∧ calls.pointers[m]? = some index ∧
      index.toNat = calls.lines m % arrayDepth ∧
      calls.lines m % arraySize + (1 + arg.1.toNat) ≤ arraySize := by
  have hargs : m < calls.args.length := Nat.lt_of_lt_of_le hm h.pointers_le
  have harg := List.getElem?_eq_getElem hargs
  have hindex := List.getElem?_eq_getElem hm
  exact ⟨_, _, harg, hindex, h.pointers m _ hindex, h.fits m _ harg⟩

end Ordered

end Calls

/-! ### The invariant -/

namespace TransposeFifo

variable {T : Type} {arraySize arrayDepth : Nat}

structure Inv (s : TransposeFifo T arraySize arrayDepth) : Prop where
  enqueues : s.enqueues.Ordered s.producer
  dequeues : s.dequeues.Ordered s.consumer
  columns : s.columns.length = s.dequeues.accessed
  /-- Rows with a credit, and rows that can get one, are those of the squares that were read and
      one turn of the ring. -/
  write : s.writeSemaphore.count.toNat + s.enqueues.lines s.enqueues.args.length =
    arrayDepth + arraySize * (s.dequeues.lines s.dequeues.posted / arraySize)
  /-- Columns with a credit, and columns that can get one, are those of the squares that were
      written. -/
  read : s.readSemaphore.count.toNat + s.dequeues.lines s.dequeues.args.length =
    arraySize * (s.enqueues.lines s.enqueues.posted / arraySize)
  /-- A row that was written is in the memories until its square is posted as read. -/
  stored : ∀ (m c : Nat) row unknown, s.enqueues.args[m]? = some row → m < s.enqueues.accessed →
    c < arraySize →
    arraySize * (s.dequeues.lines s.dequeues.posted / arraySize) ≤ s.enqueues.lines m →
    (s.dataMemories ((c + s.enqueues.lines m) % arraySize)).read
      ((s.enqueues.lines m / arraySize * arraySize + c) % arrayDepth) unknown = row.2 c
  complete : ∀ j < s.columns.length,
    (s.dequeues.lines j / arraySize + 1) * arraySize ≤ s.enqueues.lines s.enqueues.accessed
  transposed : ∀ (j m : Nat) column row, s.columns[j]? = some column →
    s.enqueues.args[m]? = some row →
    s.enqueues.lines m / arraySize = s.dequeues.lines j / arraySize →
    column (s.enqueues.lines m % arraySize) = row.2 (s.dequeues.lines j % arraySize)

variable {eb db : Bool} {s : TransposeFifo T arraySize arrayDepth}

/-- The first column of a square that is not read comes before its rows. -/
theorem Inv.transposes (h : Inv s) : Transposes s where
  complete := h.complete
  transposed := h.transposed
  stored := by
    intro m c row unknown hrow hm hc hlast
    apply h.stored m c row unknown hrow hm hc
    have hposted : s.dequeues.lines s.dequeues.posted ≤ s.dequeues.lines s.dequeues.accessed :=
      Calls.lines_mono h.dequeues.posted_le
    have hpos : 0 < arraySize := by omega
    have hsquare : s.dequeues.lines s.dequeues.posted / arraySize <
        s.enqueues.lines m / arraySize + 1 := by
      rw [Nat.div_lt_iff_lt_mul hpos]
      omega
    calc arraySize * (s.dequeues.lines s.dequeues.posted / arraySize)
        ≤ arraySize * (s.enqueues.lines m / arraySize) :=
          Nat.mul_le_mul_left _ (Nat.le_of_lt_succ hsquare)
      _ ≤ s.enqueues.lines m := Nat.mul_div_le _ _

/-- The order of the lines: a column that has a credit was written, and a row that has one has a
    place in the ring. -/
theorem Inv.lines_le (h : Inv s) :
    s.dequeues.lines s.dequeues.args.length ≤ s.enqueues.lines s.enqueues.posted ∧
      s.enqueues.lines s.enqueues.args.length ≤
        arrayDepth + s.dequeues.lines s.dequeues.posted := by
  have hread := h.read
  have hwrite := h.write
  have hrows := Nat.mul_div_le (s.enqueues.lines s.enqueues.posted) arraySize
  have hcolumns := Nat.mul_div_le (s.dequeues.lines s.dequeues.posted) arraySize
  omega

/-- Lines that the calls of a method have posted come before those that it has a credit for. -/
theorem lines_posted_le {A : Type} {calls : Calls arraySize arrayDepth A}
    {pointer : BitVec (indexWidth arrayDepth)} (h : calls.Ordered pointer) :
    calls.lines calls.posted ≤ calls.lines calls.args.length :=
  Calls.lines_mono ((h.posted_le.trans h.accessed_le).trans h.pointers_le)

theorem Inv.count_le (h : Inv s) :
    s.writeSemaphore.count.toNat ≤ arrayDepth ∧ s.readSemaphore.count.toNat ≤ arrayDepth := by
  have hread := h.read
  have hwrite := h.write
  have hlines := h.lines_le
  have hrows := lines_posted_le h.enqueues
  have hcolumns := lines_posted_le h.dequeues
  have hrowsSquare := Nat.mul_div_le (s.enqueues.lines s.enqueues.posted) arraySize
  have hcolumnsSquare := Nat.mul_div_le (s.dequeues.lines s.dequeues.posted) arraySize
  omega

/-! ### Waits -/

theorem Inv.enqueueWait (hsizes : SquareSizes arraySize arrayDepth) (h : Inv s) (values : Nat → T)
    (discard : BitVec (indexWidth arraySize)) (he : Enabled eb db s (.enqueueWait values discard)) :
    asserts eb db s (.enqueueWait values discard) = true ∧
      Inv (next eb db s (.enqueueWait values discard)) := by
  obtain ⟨hfits, hpromise⟩ := he
  have hcredits : (credits discard : BitVec (countWidth arrayDepth)).toNat = 1 + discard.toNat := by
    rw [Calls.Fits] at hfits
    exact toNat_credits hsizes (by omega)
  rw [← hcredits] at hpromise
  obtain ⟨hassert, ⟨hreturns, hle, hstate⟩ | ⟨hreturns, hstate⟩⟩ :=
    Semaphore.waitMultiple_cases h.count_le.1 hpromise
  · refine ⟨hassert, ?_⟩
    simp only [next, hreturns, if_true]
    have hwrite := h.write
    have haccessed := h.enqueues.accessed_le.trans h.enqueues.pointers_le
    have hposted := h.enqueues.posted_le.trans haccessed
    have hlines : ∀ {m : Nat}, m ≤ s.enqueues.args.length →
        { s.enqueues with args := s.enqueues.args ++ [(discard, values)] }.lines m =
          s.enqueues.lines m := Calls.lines_append (discard, values)
    refine ⟨h.enqueues.wait (discard, values) hfits, h.dequeues, h.columns, ?_, ?_, ?_, ?_, ?_⟩
    · show _ + Calls.lines { s.enqueues with args := _ } (s.enqueues.args ++ [_]).length =
        arrayDepth + arraySize * (s.dequeues.lines s.dequeues.posted / arraySize)
      rw [Calls.lines_append_length, hstate, ← hcredits]
      omega
    · show _ = arraySize * (Calls.lines { s.enqueues with args := _ } s.enqueues.posted / arraySize)
      rw [hlines hposted]
      exact h.read
    · intro m c row unknown hrow hm hc hkept
      have hlt : m < s.enqueues.args.length := Nat.lt_of_lt_of_le hm haccessed
      rw [hlines hlt.le] at hkept ⊢
      rw [List.getElem?_append_left hlt] at hrow
      exact h.stored m c row unknown hrow hm hc hkept
    · intro j hj
      show _ ≤ Calls.lines { s.enqueues with args := _ } s.enqueues.accessed
      rw [hlines haccessed]
      exact h.complete j hj
    · intro j m column row hcolumn hrow hsquare
      have hm : m < s.enqueues.args.length + 1 := by
        simpa using (List.getElem?_eq_some_iff.mp hrow).1
      rw [hlines (by omega)] at hsquare ⊢
      change _ = s.dequeues.lines j / arraySize at hsquare
      rcases Nat.lt_or_eq_of_le (Nat.le_of_lt_succ hm) with hlt | rfl
      · rw [List.getElem?_append_left hlt] at hrow
        exact h.transposed j m column row hcolumn hrow hsquare
      · -- The rows of a square that was read were all there before.
        have hcomplete := h.complete j (List.getElem?_eq_some_iff.mp hcolumn).1
        have hmono : s.enqueues.lines s.enqueues.accessed ≤
            s.enqueues.lines s.enqueues.args.length := Calls.lines_mono haccessed
        have hlt := Nat.lt_div_mul_add (a := s.enqueues.lines s.enqueues.args.length) hsizes.pos
        rw [hsquare] at hlt
        rw [Nat.add_mul, Nat.one_mul] at hcomplete
        omega
  · refine ⟨hassert, ?_⟩
    simp only [next, hreturns, hstate, if_false, Bool.false_eq_true]
    exact h

theorem Inv.dequeueWait (hsizes : SquareSizes arraySize arrayDepth) (h : Inv s)
    (discard : BitVec (indexWidth arraySize)) (he : Enabled eb db s (.dequeueWait discard)) :
    asserts eb db s (.dequeueWait discard) = true ∧ Inv (next eb db s (.dequeueWait discard)) := by
  obtain ⟨hfits, hpromise⟩ := he
  have hcredits : (credits discard : BitVec (countWidth arrayDepth)).toNat = 1 + discard.toNat := by
    rw [Calls.Fits] at hfits
    exact toNat_credits hsizes (by omega)
  rw [← hcredits] at hpromise
  obtain ⟨hassert, ⟨hreturns, hle, hstate⟩ | ⟨hreturns, hstate⟩⟩ :=
    Semaphore.waitMultiple_cases h.count_le.2 hpromise
  · refine ⟨hassert, ?_⟩
    simp only [next, hreturns, if_true]
    have hread := h.read
    have haccessed := h.dequeues.accessed_le.trans h.dequeues.pointers_le
    have hposted := h.dequeues.posted_le.trans haccessed
    have hlines : ∀ {m : Nat}, m ≤ s.dequeues.args.length →
        { s.dequeues with args := s.dequeues.args ++ [(discard, ())] }.lines m =
          s.dequeues.lines m := Calls.lines_append (discard, ())
    have hcolumns : ∀ j < s.columns.length, j ≤ s.dequeues.args.length := by
      intro j hj
      have hlength := h.columns
      omega
    refine ⟨h.enqueues, h.dequeues.wait (discard, ()) hfits, h.columns, ?_, ?_, ?_, ?_, ?_⟩
    · show _ = arrayDepth +
        arraySize * (Calls.lines { s.dequeues with args := _ } s.dequeues.posted / arraySize)
      rw [hlines hposted]
      exact h.write
    · show _ + Calls.lines { s.dequeues with args := _ } (s.dequeues.args ++ [_]).length =
        arraySize * (s.enqueues.lines s.enqueues.posted / arraySize)
      rw [Calls.lines_append_length, hstate, ← hcredits]
      omega
    · intro m c row unknown hrow hm hc hkept
      apply h.stored m c row unknown hrow hm hc
      change arraySize * (Calls.lines { s.dequeues with args := _ } s.dequeues.posted / arraySize) ≤ _
        at hkept
      rwa [hlines hposted] at hkept
    · intro j hj
      rw [hlines (hcolumns j hj)]
      exact h.complete j hj
    · intro j m column row hcolumn hrow hsquare
      have hj := (List.getElem?_eq_some_iff.mp hcolumn).1
      rw [hlines (hcolumns j hj)] at hsquare ⊢
      exact h.transposed j m column row hcolumn hrow hsquare
  · refine ⟨hassert, ?_⟩
    simp only [next, hreturns, hstate, if_false, Bool.false_eq_true]
    exact h

/-! ### Accesses -/

/-- A call stores its row: the cells it overwrites are those of a square that was read. -/
theorem Inv.enqueueStore (hsizes : SquareSizes arraySize arrayDepth) (h : Inv s)
    (he : Enabled eb db s .enqueueStore) : Inv (next eb db s .enqueueStore) := by
  have haccessed : s.enqueues.accessed < s.enqueues.pointers.length := he
  obtain ⟨⟨discard, values⟩, index, harg, hpointer, hindex, hfits⟩ := h.enqueues.exists_call haccessed
  simp only [next, harg, hpointer]
  refine ⟨h.enqueues.access haccessed, h.dequeues, h.columns, h.write, h.read, ?_, ?_, h.transposed⟩
  · intro m c row unknown hrow hm hc hkept
    change m < s.enqueues.accessed + 1 at hm
    change s.enqueues.args[m]? = some row at hrow
    change arraySize * (s.dequeues.lines s.dequeues.posted / arraySize) ≤ s.enqueues.lines m at hkept
    show (storeRow arraySize s.dataMemories index values
      ((c + s.enqueues.lines m) % arraySize)).read
        ((s.enqueues.lines m / arraySize * arraySize + c) % arrayDepth) unknown = row.2 c
    rcases Nat.lt_or_eq_of_le (Nat.le_of_lt_succ hm) with hlt | rfl
    · -- Two rows that have a place in the ring are less than one turn apart.
      have hargs : s.enqueues.accessed < s.enqueues.args.length :=
        Nat.lt_of_lt_of_le haccessed h.enqueues.pointers_le
      have horder := Calls.lines_lt hlt hargs.le
      have hlast := Calls.lines_lt hargs le_rfl
      have hwrite := h.write
      have hne : s.enqueues.lines m % arrayDepth ≠
          s.enqueues.lines s.enqueues.accessed % arrayDepth := by
        intro heq
        have hdvd := (Nat.modEq_iff_dvd' horder.le).mp heq
        have hle := Nat.le_of_dvd (by omega) hdvd
        omega
      rw [read_storeRow_of_ne hsizes hindex s.dataMemories values hne hc]
      exact h.stored m c row unknown hrow hlt hc hkept
    · have hvalues : (discard, values) = row := Option.some.inj (harg.symm.trans hrow)
      rw [← hvalues]
      exact read_storeRow_self hsizes hindex s.dataMemories values hc unknown
  · intro j hj
    have hmono : s.enqueues.lines s.enqueues.accessed ≤
        s.enqueues.lines (s.enqueues.accessed + 1) := Calls.lines_mono (Nat.le_succ _)
    exact (h.complete j hj).trans hmono

/-- A call reads its column: the rows of its square were written, as their credits were posted, and
    they are in the memories, as the square has this column left. -/
theorem Inv.dequeueLoad (hsizes : SquareSizes arraySize arrayDepth) (h : Inv s) (unknown : T)
    (he : Enabled eb db s (.dequeueLoad unknown)) : Inv (next eb db s (.dequeueLoad unknown)) := by
  have haccessed : s.dequeues.accessed < s.dequeues.pointers.length := he
  obtain ⟨arg, index, harg, hpointer, hindex, hfits⟩ := h.dequeues.exists_call haccessed
  have hargs : s.dequeues.accessed < s.dequeues.args.length :=
    Nat.lt_of_lt_of_le haccessed h.dequeues.pointers_le
  have hread := h.read
  have hcolumn := Calls.lines_lt hargs le_rfl
  -- The square of the column was posted.
  have hsquare : (s.dequeues.lines s.dequeues.accessed / arraySize + 1) * arraySize ≤
      s.enqueues.lines s.enqueues.posted := by
    have hlt : s.dequeues.lines s.dequeues.accessed / arraySize <
        s.enqueues.lines s.enqueues.posted / arraySize := by
      rw [Nat.div_lt_iff_lt_mul hsizes.pos, Nat.mul_comm]
      omega
    calc (s.dequeues.lines s.dequeues.accessed / arraySize + 1) * arraySize
        ≤ s.enqueues.lines s.enqueues.posted / arraySize * arraySize := Nat.mul_le_mul_right _ hlt
      _ ≤ s.enqueues.lines s.enqueues.posted := Nat.div_mul_le_self _ _
  simp only [next, hpointer]
  refine ⟨h.enqueues, h.dequeues.access haccessed, ?_, h.write, h.read, h.stored, ?_, ?_⟩
  · show (s.columns ++ [_]).length = s.dequeues.accessed + 1
    rw [List.length_append, List.length_singleton, h.columns]
  · intro j hj
    show (s.dequeues.lines j / arraySize + 1) * arraySize ≤ _
    have hj' : j < s.columns.length + 1 := by simpa using hj
    rcases Nat.lt_or_eq_of_le (Nat.le_of_lt_succ hj') with hlt | rfl
    · exact h.complete j hlt
    · rw [h.columns]
      exact hsquare.trans (Calls.lines_mono h.enqueues.posted_le)
  · intro j m column row hresult hrow hsame
    change s.enqueues.lines m / arraySize = s.dequeues.lines j / arraySize at hsame
    show column (s.enqueues.lines m % arraySize) = row.2 (s.dequeues.lines j % arraySize)
    have hj : j < s.columns.length + 1 := by
      simpa using (List.getElem?_eq_some_iff.mp hresult).1
    rcases Nat.lt_or_eq_of_le (Nat.le_of_lt_succ hj) with hlt | rfl
    · exact h.transposed j m column row (by rwa [List.getElem?_append_left hlt] at hresult) hrow hsame
    · have heq : loadColumn arraySize s.dataMemories index unknown = column := by
        simpa using hresult
      rw [h.columns] at hsame ⊢
      -- The row is one of the square, so it was written.
      have hposted : m < s.enqueues.posted := by
        by_contra hge
        have hmono : s.enqueues.lines s.enqueues.posted ≤ s.enqueues.lines m :=
          Calls.lines_mono (Nat.le_of_not_lt hge)
        have hlt := Nat.lt_div_mul_add (a := s.enqueues.lines m) hsizes.pos
        rw [hsame] at hlt
        rw [Nat.add_mul, Nat.one_mul] at hsquare
        omega
      have hkept : arraySize * (s.dequeues.lines s.dequeues.posted / arraySize) ≤
          s.enqueues.lines m := by
        have hmono : s.dequeues.lines s.dequeues.posted ≤ s.dequeues.lines s.dequeues.accessed :=
          Calls.lines_mono h.dequeues.posted_le
        calc arraySize * (s.dequeues.lines s.dequeues.posted / arraySize)
            ≤ arraySize * (s.dequeues.lines s.dequeues.accessed / arraySize) :=
              Nat.mul_le_mul_left _ (Nat.div_le_div_right hmono)
          _ = arraySize * (s.enqueues.lines m / arraySize) := by rw [hsame]
          _ ≤ s.enqueues.lines m := Nat.mul_div_le _ _
      rw [← heq, loadColumn_apply hsizes hindex s.dataMemories unknown hsame]
      have hm : m < s.enqueues.accessed := Nat.lt_of_lt_of_le hposted h.enqueues.posted_le
      have hwithin : s.dequeues.lines s.dequeues.accessed % arraySize < arraySize :=
        Nat.mod_lt _ hsizes.pos
      exact h.stored m _ row unknown hrow hm hwithin hkept

/-! ### Posts of a step -/

theorem Inv.enqueuePost (hsizes : SquareSizes arraySize arrayDepth) (h : Inv s)
    (he : Enabled eb db s .enqueuePost) :
    asserts eb db s .enqueuePost = true ∧ Inv (next eb db s .enqueuePost) := by
  have hposted : s.enqueues.posted < s.enqueues.accessed := he
  have hpointers : s.enqueues.posted < s.enqueues.pointers.length :=
    Nat.lt_of_lt_of_le hposted h.enqueues.accessed_le
  obtain ⟨arg, index, harg, hpointer, hindex, hfits⟩ := h.enqueues.exists_call hpointers
  have hsucc := Calls.lines_succ harg
  have hread := h.read
  -- The rows of the square have places in the ring.
  have hroom : s.readSemaphore.count.toNat +
      arraySize * ((s.enqueues.lines s.enqueues.posted + (1 + arg.1.toNat)) / arraySize) ≤
        arraySize * (s.enqueues.lines s.enqueues.posted / arraySize) + arrayDepth := by
    have hlines := h.lines_le
    have hcolumns := lines_posted_le h.dequeues
    have hmono : s.enqueues.lines (s.enqueues.posted + 1) ≤
        s.enqueues.lines s.enqueues.args.length :=
      Calls.lines_mono (Nat.lt_of_lt_of_le hpointers h.enqueues.pointers_le)
    have hsquare := Nat.mul_div_le (s.enqueues.lines s.enqueues.posted + (1 + arg.1.toNat)) arraySize
    omega
  obtain ⟨hassert, hcount⟩ := postSquare_spec hsizes hindex hfits hroom
  constructor
  · simp only [asserts, harg, hpointer]
    exact hassert
  · simp only [next, harg, hpointer]
    refine ⟨h.enqueues.post hposted, h.dequeues, h.columns, h.write, ?_, h.stored, h.complete,
      h.transposed⟩
    show (postSquare s.readSemaphore index arg.1).count.toNat +
      s.dequeues.lines s.dequeues.args.length =
        arraySize * (s.enqueues.lines (s.enqueues.posted + 1) / arraySize)
    rw [hsucc]
    omega

theorem Inv.dequeuePost (hsizes : SquareSizes arraySize arrayDepth) (h : Inv s)
    (he : Enabled eb db s .dequeuePost) :
    asserts eb db s .dequeuePost = true ∧ Inv (next eb db s .dequeuePost) := by
  have hposted : s.dequeues.posted < s.dequeues.accessed := he
  have hpointers : s.dequeues.posted < s.dequeues.pointers.length :=
    Nat.lt_of_lt_of_le hposted h.dequeues.accessed_le
  obtain ⟨arg, index, harg, hpointer, hindex, hfits⟩ := h.dequeues.exists_call hpointers
  have hsucc := Calls.lines_succ harg
  have hwrite := h.write
  -- The columns of the square were written as rows.
  have hroom : s.writeSemaphore.count.toNat +
      arraySize * ((s.dequeues.lines s.dequeues.posted + (1 + arg.1.toNat)) / arraySize) ≤
        arraySize * (s.dequeues.lines s.dequeues.posted / arraySize) + arrayDepth := by
    have hlines := h.lines_le
    have hrows := lines_posted_le h.enqueues
    have hmono : s.dequeues.lines (s.dequeues.posted + 1) ≤
        s.dequeues.lines s.dequeues.args.length :=
      Calls.lines_mono (Nat.lt_of_lt_of_le hpointers h.dequeues.pointers_le)
    have hsquare := Nat.mul_div_le (s.dequeues.lines s.dequeues.posted + (1 + arg.1.toNat)) arraySize
    omega
  obtain ⟨hassert, hcount⟩ := postSquare_spec hsizes hindex hfits hroom
  constructor
  · simp only [asserts, harg, hpointer]
    exact hassert
  · simp only [next, harg, hpointer]
    refine ⟨h.enqueues, h.dequeues.post hposted, h.columns, ?_, h.read, ?_, h.complete,
      h.transposed⟩
    · show (postSquare s.writeSemaphore index arg.1).count.toNat +
        s.enqueues.lines s.enqueues.args.length =
          arrayDepth + arraySize * (s.dequeues.lines (s.dequeues.posted + 1) / arraySize)
      rw [hsucc]
      omega
    · intro m c row unknown hrow hm hc hkept
      have hmono : s.dequeues.lines s.dequeues.posted ≤ s.dequeues.lines (s.dequeues.posted + 1) :=
        Calls.lines_mono (Nat.le_succ _)
      have hsquares := Nat.mul_le_mul_left arraySize (Nat.div_le_div_right (c := arraySize) hmono)
      exact h.stored m c row unknown hrow hm hc (hsquares.trans hkept)

/-! ### Runs -/

theorem Inv.step (hsizes : SquareSizes arraySize arrayDepth) (h : Inv s) (e : Event T arraySize)
    (he : Enabled eb db s e) : asserts eb db s e = true ∧ Inv (next eb db s e) := by
  cases e with
  | enqueueWait values discard => exact h.enqueueWait hsizes values discard he
  | dequeueWait discard => exact h.dequeueWait hsizes discard he
  | enqueueStore => exact ⟨rfl, h.enqueueStore hsizes he⟩
  | dequeueLoad unknown => exact ⟨rfl, h.dequeueLoad hsizes unknown he⟩
  | enqueuePost => exact h.enqueuePost hsizes he
  | dequeuePost => exact h.dequeuePost hsizes he
  | enqueueClaim =>
    have harg := List.getElem?_eq_getElem (show s.enqueues.pointers.length < _ from he)
    refine ⟨rfl, ?_⟩
    simp only [next, harg]
    exact ⟨h.enqueues.claim hsizes harg, h.dequeues, h.columns, h.write, h.read, h.stored,
      h.complete, h.transposed⟩
  | dequeueClaim =>
    have harg := List.getElem?_eq_getElem (show s.dequeues.pointers.length < _ from he)
    refine ⟨rfl, ?_⟩
    simp only [next, harg]
    exact ⟨h.enqueues, h.dequeues.claim hsizes harg, h.columns, h.write, h.read, h.stored,
      h.complete, h.transposed⟩

/-- No calls, and a pointer to the first line. -/
theorem ordered_start {A : Type} (h : SquareSizes arraySize arrayDepth) :
    ({} : Calls arraySize arrayDepth A).Ordered 0#_ where
  posted_le := le_rfl
  accessed_le := le_rfl
  pointers_le := le_rfl
  fits := by simp
  pointers := by simp
  pointer := by simp [Calls.lines, Nat.mod_eq_of_lt h.wraps.pos]

theorem invariant (hsizes : SquareSizes arraySize arrayDepth)
    (dataMemories : Nat → Memory T arrayDepth) :
    (system eb db arraySize dataMemories).Invariant Inv where
  start := by
    refine ⟨ordered_start hsizes, ordered_start hsizes, rfl, ?_, ?_, ?_, ?_, ?_⟩
    · simp [system, Calls.lines, Semaphore.toNat_count_initial]
    · simp [system, Calls.lines, Semaphore.toNat_count_initial]
    · simp [system]
    · simp [system]
    · simp [system]
  step s e h he := (h.step hsizes e he).2

/-- The FIFO transposes its squares, for every order of the steps of its calls, when its memories
    have at least two entries. -/
theorem system_transposes (T : Type) (a b : Nat) (hle : a ≤ b) (hb : 0 < b) (eb db : Bool)
    (dataMemories : Nat → Memory T (2 ^ b)) (s : TransposeFifo T (2 ^ a) (2 ^ b))
    (hs : (system eb db (2 ^ a) dataMemories).Reachable s) :
    Transposes s ∧ ∀ e, Enabled eb db s e → asserts eb db s e = true := by
  have hsizes := squareSizes_two_pow hle hb
  have h := (invariant hsizes dataMemories).of_reachable hs
  exact ⟨h.transposes, fun e he => (h.step hsizes e he).1⟩

/-- A square of two rows, one of which is discarded. -/
theorem system_transposes_two_rows :
    Transposes ((system true true 2 fun _ => #v[9, 9, 9, 9]).run
      { dataMemories := fun _ => #v[9, 9, 9, 9] }
      [.enqueueWait (fun c => c + 5) 1#1, .enqueueClaim, .enqueueStore, .enqueuePost,
        .dequeueWait 0#1, .dequeueClaim, .dequeueLoad 0, .dequeuePost, .dequeueWait 0#1]) :=
  (system_transposes Nat 1 2 (by decide) (by decide) true true _ _
    (.run .start (by decide +kernel))).1

/-- Memories with one entry lose the second row, as the pointers have one bit. -/
theorem system_not_transposes :
    ∃ s, (system true true (2 ^ 0) (fun _ => (#v[9] : Memory Nat (2 ^ 0)))).Reachable s ∧
      ¬ Transposes s := by
  refine ⟨(system true true (2 ^ 0) fun _ => #v[9]).run { dataMemories := fun _ => #v[9] }
    [.enqueueWait (fun _ => 5) 0#1, .enqueueClaim, .enqueueStore, .enqueuePost,
      .dequeueWait 0#1, .dequeueClaim, .dequeueLoad 0, .dequeuePost,
      .enqueueWait (fun _ => 7) 0#1, .enqueueClaim, .enqueueStore, .enqueuePost,
      .dequeueWait 0#1, .dequeueClaim, .dequeueLoad 0], .run .start ?_, ?_⟩
  · decide +kernel
  · intro h
    have hcolumn := h.transposed 1 1 _ _ rfl rfl (by decide +kernel)
    exact absurd hcolumn (by decide +kernel)

end TransposeFifo

end Kanagawa.Library
