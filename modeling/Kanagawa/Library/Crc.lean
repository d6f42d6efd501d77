/-
  Kanagawa.Library.Crc

  The incremental CRC of `codec/crc.k`.

  A call reads the shares of its bytes and of the old remainder from one table, nibble by nibble.
  The bytes are moved to the end of the widest input, so a place of the table stands for the number
  of bits behind it; locals without an initializer are zero.
-/
import Kanagawa.Lib.Crc
import Kanagawa.Library.Arrays
import Kanagawa.Library.Basic

namespace Kanagawa.Library

open Kanagawa.Crc

/-! ## Casts -/

/-- A cast from an array of bits. -/
def castBits (w : Nat) (bits : Nat → Bool) : BitVec w :=
  (BitVec.ofBoolListLE ((List.range w).map bits)).setWidth w

theorem getLsbD_castBits {w i : Nat} {bits : Nat → Bool} (hi : i < w) :
    (castBits w bits).getLsbD i = bits i := by
  rw [castBits, BitVec.getLsbD_setWidth, BitVec.getLsbD_ofBoolListLE]
  simp [hi]

/-- `reverse`, of `data/bits.k`. -/
def reverse {w : Nat} (data : BitVec w) : BitVec w := castBits w fun i => data.getLsbD (w - i - 1)

theorem reverse_eq {w : Nat} (data : BitVec w) : reverse data = data.reverse := by
  apply BitVec.eq_of_getLsbD_eq
  intro i hi
  rw [reverse, getLsbD_castBits hi, BitVec.getLsbD_reverse, BitVec.getMsbD_eq_getLsbD]
  have hplace : w - i - 1 = w - 1 - i := by omega
  simp [hi, hplace]

/-- `cast<uint<max_bits>>(input)` -/
def castInput {maxBytes : Nat} (input : Vector (BitVec 8) maxBytes) : BitVec (8 * maxBytes) :=
  castBits _ fun b => (input[b / 8]?.getD 0#8).getLsbD (b % 8)

/-- An element of `cast<uint4[n]>(x)`. -/
def nibble {w : Nat} (x : BitVec w) (i : Nat) : BitVec 4 := x.extractLsb' (4 * i) 4

/-! ## The calculator -/

/-- The template parameters of `crc_calculator`, less its sizes. -/
structure CrcTemplate (w : Nat) where
  /-- `P` -/
  p : BitVec w
  init : BitVec w
  xorOut : BitVec w
  reflectInput : Bool
  reflectOutput : Bool

/-- The arguments of `compute`. -/
structure CrcCall (maxBytes threadCount : Nat) where
  identifier : BitVec (countWidth threadCount)
  input : Vector (BitVec 8) maxBytes
  inputBytes : BitVec (countWidth maxBytes)
  reset : Bool

namespace CrcCalculator

variable {w maxBytes threadCount : Nat}

/-- The remainders and the table of `generate`, behind some of its segments. -/
structure Generate (w : Nat) where
  remainder : Nat → BitVec w
  table : Nat → Nat → BitVec w

/-- The innermost loop of `generate`. -/
def generateBit (p r : BitVec w) : BitVec w :=
  let accumulated := r.getLsbD 0
  (r >>> 1) ^^^ if accumulated then p else 0#w

/-- The outermost loop of `generate`. -/
def generateSegment (p : BitVec w) (dataSegments : Nat) (s : Generate w) (j : Nat) : Generate w :=
  let remainder := fun i => (List.range 4).foldl (fun r _ => generateBit p r) (s.remainder i)
  { remainder, table := Function.update s.table ((dataSegments - 1) - j) remainder }

/-- `generate` -/
def generate (p : BitVec w) (dataSegments : Nat) : Nat → Nat → BitVec w :=
  ((List.range dataSegments).foldl (generateSegment p dataSegments)
    { remainder := fun i => BitVec.ofNat w i, table := fun _ _ => 0#w }).table

/-- `reduce(crc_reduce<Width>, tab)`, zero without any input. -/
def reduceCrc (tab : List (BitVec w)) : BitVec w := (reduce (· ^^^ ·) tab).getD 0#w

/-- `crc_lookup` -/
def crcLookup (table : Nat → Nat → BitVec w) (dataSegments : Nat) {maxBits : Nat}
    (input : BitVec maxBits) : BitVec w :=
  reduceCrc ((List.range dataSegments).map fun i => table i (nibble input i).toNat)

/-- `crc_map` -/
def crcMap (table : Nat → Nat → BitVec w) (dataSegments : Nat) (input : BitVec w)
    (tableOffset : BitVec (countWidth dataSegments)) : BitVec w :=
  reduceCrc ((List.range (w / 4)).map fun i =>
    if i + tableOffset.toNat < dataSegments then
      table (i + tableOffset.toNat) (nibble input i).toNat
    else 0#w)

/-- The new remainder of a call. -/
def crcLocal (p : BitVec w) {maxBytes : Nat} (input : Vector (BitVec 8) maxBytes) (inputBytes : Nat)
    (crcKeep : BitVec w) : BitVec w :=
  let dataSegments := 8 * maxBytes / 4
  let table := generate p dataSegments
  let inputBits := inputBytes * 8
  -- Callers pass at most `MaxBytes`, so this is not negative.
  let offBits := 8 * maxBytes - inputBits
  let offInput := castInput input <<< offBits
  let reducedCrc := crcLookup table dataSegments offInput
  let updatedCrc := crcMap table dataSegments crcKeep (BitVec.ofNat _ (offBits / 4))
  updatedCrc ^^^ reducedCrc ^^^ (crcKeep >>> inputBits)

/-- `compute`: the value returned, and `_crc_results`. -/
def compute (t : CrcTemplate w) (results : Vector (BitVec w) threadCount)
    (call : CrcCall maxBytes threadCount) : BitVec w × Vector (BitVec w) threadCount :=
  let input := if !t.reflectInput then call.input.map reverse else call.input
  let initial := reverse t.init
  let crcKeep := if call.reset then initial else arrayRead results 0#w call.identifier.toNat
  let crcLocal := crcLocal t.p input call.inputBytes.toNat crcKeep
  ((if t.reflectOutput then crcLocal else reverse crcLocal) ^^^ t.xorOut,
    results.setIfInBounds call.identifier.toNat crcLocal)

/-- Calls, one after the other: they update the results in an atomic block. -/
def run (t : CrcTemplate w) (results : Vector (BitVec w) threadCount)
    (calls : List (CrcCall maxBytes threadCount)) : Vector (BitVec w) threadCount :=
  calls.foldl (fun results call => (compute t results call).2) results

end CrcCalculator

/-! ## The check -/

/-- The parameters of the check that a calculator computes: its polynomial is given reversed. -/
def CrcTemplate.parameters {w : Nat} (t : CrcTemplate w) : Parameters w where
  poly := t.p.reverse
  init := t.init
  reflectIn := t.reflectInput
  reflectOut := t.reflectOutput
  xorOut := t.xorOut

namespace CrcCall

variable {maxBytes threadCount : Nat}

/-- What callers promise. -/
structure Valid (call : CrcCall maxBytes threadCount) : Prop where
  identifier : call.identifier.toNat < threadCount
  inputBytes : call.inputBytes.toNat ≤ maxBytes

/-- The valid bytes of a call. -/
def bytes (call : CrcCall maxBytes threadCount) : List (BitVec 8) :=
  call.input.toList.take call.inputBytes.toNat

/-- The bytes of an identifier after one more call. -/
def collect (identifier : Nat) (message : Option (List (BitVec 8)))
    (call : CrcCall maxBytes threadCount) : Option (List (BitVec 8)) :=
  if call.identifier.toNat = identifier then
    if call.reset then some call.bytes else message.map (· ++ call.bytes)
  else message

/-- The bytes of an identifier since its last reset, if there was one. -/
def sinceReset (identifier : Nat) (calls : List (CrcCall maxBytes threadCount)) :
    Option (List (BitVec 8)) :=
  calls.foldl (collect identifier) none

end CrcCall

namespace CrcCalculator

variable {w maxBytes threadCount : Nat}

/-! ### The table -/

theorem foldl_generateBit (p r : BitVec w) :
    (List.range 4).foldl (fun r _ => generateBit p r) r = (shift p)^[4] r := rfl

/-- A place of the table stands for the bits from it to the end of the input. -/
theorem generate_apply (p : BitVec w) {dataSegments k : Nat} (hk : k < dataSegments) (i : Nat) :
    generate p dataSegments k i = (shift p)^[4 * (dataSegments - k)] (BitVec.ofNat w i) := by
  -- Behind some segments, so many places from the end are set.
  have hloop : ∀ n ≤ dataSegments,
      let s := (List.range n).foldl (generateSegment p dataSegments)
        { remainder := fun i => BitVec.ofNat w i, table := fun _ _ => 0#w }
      (∀ i, s.remainder i = (shift p)^[4 * n] (BitVec.ofNat w i)) ∧
      ∀ k < dataSegments, dataSegments ≤ k + n → ∀ i,
        s.table k i = (shift p)^[4 * (dataSegments - k)] (BitVec.ofNat w i) := by
    intro n
    induction n with
    | zero =>
      intro _
      refine ⟨fun i => rfl, fun k hk hle => ?_⟩
      omega
    | succ n ih =>
      intro hn
      obtain ⟨hremainder, htable⟩ := ih (by omega)
      rw [List.range_succ, List.foldl_append, List.foldl_cons, List.foldl_nil]
      generalize (List.range n).foldl (generateSegment p dataSegments)
        { remainder := fun i => BitVec.ofNat w i, table := fun _ _ => 0#w } = s
        at hremainder htable
      have hnext : ∀ i, (generateSegment p dataSegments s n).remainder i =
          (shift p)^[4 * (n + 1)] (BitVec.ofNat w i) := by
        intro i
        show (List.range 4).foldl (fun r _ => generateBit p r) (s.remainder i) = _
        rw [foldl_generateBit, hremainder, ← Function.iterate_add_apply, Nat.mul_succ, Nat.add_comm]
      refine ⟨hnext, ?_⟩
      intro k hk hle i
      show Function.update s.table ((dataSegments - 1) - n)
        (generateSegment p dataSegments s n).remainder k i = _
      by_cases heq : k = dataSegments - 1 - n
      · have hcount : dataSegments - k = n + 1 := by omega
        rw [heq, Function.update_self, ← heq, hnext, hcount]
      · rw [Function.update_of_ne heq]
        exact htable k hk (by omega) i
  exact (hloop dataSegments le_rfl).2 k hk (by omega) i

theorem reduceCrc_eq (tab : List (BitVec w)) : reduceCrc tab = xorAll tab := by
  cases tab with
  | nil => rfl
  | cons x tab =>
    rw [reduceCrc, reduce_eq_foldl BitVec.xor_assoc, Option.getD_some, xorAll, List.foldl_cons,
      BitVec.zero_xor]

/-- An entry of the table is the share of a nibble. -/
theorem generate_nibble (p : BitVec w) {dataSegments k : Nat} (hk : k < dataSegments) {v : Nat}
    (x : BitVec v) (i : Nat) :
    generate p dataSegments k (nibble x i).toNat =
      (shift p)^[4 * (dataSegments - k)] (digit w 4 x i) := by
  rw [generate_apply p hk, BitVec.ofNat_toNat]
  rfl

theorem crcLookup_eq (hw : 4 ≤ w) (p : BitVec w) (dataSegments : Nat) {v : Nat} (input : BitVec v) :
    crcLookup (generate p dataSegments) dataSegments input =
      feed p 0#w (lowBits input (4 * dataSegments)) := by
  rw [crcLookup, reduceCrc_eq, feed_lowBits p hw]
  congr 1
  apply List.map_congr_left
  intro k hk
  exact generate_nibble p (List.mem_range.mp hk) input k

/-- The share of what falls out of the old remainder, which may be less than all of it. -/
theorem crcMap_eq (hw : 4 ≤ w) (hdvd : 4 ∣ w) (p : BitVec w) (dataSegments : Nat)
    (input : BitVec w) {m : Nat} (hm : m ≤ dataSegments) :
    crcMap (generate p dataSegments) dataSegments input (BitVec.ofNat _ (dataSegments - m)) =
      feed p 0#w (lowBits input (4 * m)) := by
  have hwidth := lt_two_pow_countWidth dataSegments
  rw [crcMap, reduceCrc_eq, feed_lowBits p hw, BitVec.toNat_ofNat, Nat.mod_eq_of_lt (by omega)]
  -- Both sums are over the nibbles that fall out and that the remainder has.
  let share : Nat → BitVec w := fun i =>
    if i < m then (shift p)^[4 * (m - i)] (digit w 4 input i) else 0#w
  have hmap : (List.range (w / 4)).map (fun i => if i + (dataSegments - m) < dataSegments then
      generate p dataSegments (i + (dataSegments - m)) (nibble input i).toNat else 0#w) =
      (List.range (w / 4)).map share := by
    apply List.map_congr_left
    intro i _
    by_cases hi : i < m
    · have hlt : i + (dataSegments - m) < dataSegments := by omega
      have hcount : dataSegments - (i + (dataSegments - m)) = m - i := by omega
      simp only [share, hi, hlt, if_true]
      rw [generate_nibble p hlt, hcount]
    · have hge : ¬i + (dataSegments - m) < dataSegments := by omega
      simp only [share, hi, hge, if_false]
  have hall : (List.range m).map (fun k => (shift p)^[4 * (m - k)] (digit w 4 input k)) =
      (List.range m).map share := by
    apply List.map_congr_left
    intro k hk
    simp only [share, List.mem_range.mp hk, if_true]
  rw [hmap, hall, ← xorAll_range_of_zero (Nat.le_add_right (w / 4) m),
    ← xorAll_range_of_zero (Nat.le_add_left m (w / 4))]
  · intro i hi
    simp only [share, Nat.not_lt.mpr hi, if_false]
  · intro i hi
    have hnibble : digit w 4 input i = 0#w := by
      apply BitVec.eq_of_getLsbD_eq
      intro b _
      have hoff : w ≤ 4 * i + b := by omega
      simp [digit, BitVec.getLsbD_of_ge input _ hoff]
    simp only [share, hnibble, shifts_zero, ite_self]

/-! ### The input -/

theorem lowBits_castInput (input : Vector (BitVec 8) maxBytes) {k : Nat} (hk : k ≤ maxBytes) :
    lowBits (castInput input) (8 * k) = (input.toList.take k).flatMap fun byte => lowBits byte 8 := by
  induction k with
  | zero => rfl
  | succ k ih =>
    have hlt : k < maxBytes := hk
    have hbits : lowBits (castInput input) (8 * (k + 1)) =
        lowBits (castInput input) (8 * k) ++
          (List.range 8).map fun i => (castInput input).getLsbD (8 * k + i) := by
      rw [lowBits, Nat.mul_succ, List.range_add, List.map_append, List.map_map]
      rfl
    have hbyte : input.toList[k]? = some input[k] := by
      simp [hlt]
    rw [hbits, ih (by omega), List.take_add_one, hbyte, Option.toList_some, List.flatMap_append,
      List.flatMap_singleton]
    congr 1
    apply List.map_congr_left
    intro i hi
    have hi' := List.mem_range.mp hi
    have hplace : 8 * k + i < 8 * maxBytes := by omega
    have hdiv : (8 * k + i) / 8 = k := by omega
    have hmod : (8 * k + i) % 8 = i := by omega
    rw [castInput, getLsbD_castBits hplace, hdiv, hmod]
    simp [hlt]

/-- Moved to the end, the input has zeros before its valid bytes, and nothing else. -/
theorem lowBits_offInput (input : Vector (BitVec 8) maxBytes) {k : Nat} (hk : k ≤ maxBytes) :
    lowBits (castInput input <<< (8 * maxBytes - k * 8)) (8 * maxBytes) =
      List.replicate (8 * maxBytes - k * 8) false ++ lowBits (castInput input) (8 * k) := by
  obtain ⟨off, hoff⟩ : ∃ off, 8 * maxBytes = off + 8 * k := ⟨8 * maxBytes - 8 * k, by omega⟩
  have hsub : 8 * maxBytes - k * 8 = off := by omega
  have hrange : List.range (8 * maxBytes) =
      List.range off ++ (List.range (8 * k)).map (off + ·) := by
    rw [hoff, List.range_add]
  have hzeros : List.replicate off false = (List.range off).map fun _ => false := by
    rw [List.map_const', List.length_range]
  rw [hsub, lowBits, hrange, List.map_append, List.map_map, hzeros]
  congr 1
  · apply List.map_congr_left
    intro i hi
    have hi' := List.mem_range.mp hi
    simp [hi']
  · apply List.map_congr_left
    intro i hi
    have hi' := List.mem_range.mp hi
    have hlt : off + i < 8 * maxBytes := by omega
    have hge : ¬off + i < off := by omega
    simp only [Function.comp, BitVec.getLsbD_shiftLeft, hlt, hge, decide_true, decide_false,
      Bool.not_false, Bool.true_and, Nat.add_sub_cancel_left]

/-- A call feeds its valid bytes to the old remainder. -/
theorem crcLocal_eq (hw : 4 ≤ w) (hdvd : 4 ∣ w) (p : BitVec w) (input : Vector (BitVec 8) maxBytes)
    {inputBytes : Nat} (hle : inputBytes ≤ maxBytes) (crcKeep : BitVec w) :
    crcLocal p input inputBytes crcKeep =
      feed p crcKeep ((input.toList.take inputBytes).flatMap fun byte => lowBits byte 8) := by
  have hsegments : 4 * (8 * maxBytes / 4) = 8 * maxBytes := by omega
  have hoffset : (8 * maxBytes - inputBytes * 8) / 4 = 8 * maxBytes / 4 - 2 * inputBytes := by omega
  have hbits : 4 * (2 * inputBytes) = 8 * inputBytes := by omega
  simp only [crcLocal]
  rw [crcLookup_eq hw, hsegments, lowBits_offInput input hle, feed_append, feed_zeros, hoffset,
    crcMap_eq hw hdvd p _ crcKeep (by omega), hbits, ← lowBits_castInput input hle,
    feed_eq p crcKeep]
  have hlength : (lowBits (castInput input) (8 * inputBytes)).length = 8 * inputBytes := by
    rw [lowBits, List.length_map, List.length_range]
  rw [hlength, shifts_eq_feed, Nat.mul_comm inputBytes, BitVec.xor_comm (crcKeep >>> _),
    BitVec.xor_assoc, BitVec.xor_assoc, BitVec.xor_comm (crcKeep >>> _)]

/-! ### Runs -/

variable (t : CrcTemplate w) {results : Vector (BitVec w) threadCount}
  {call : CrcCall maxBytes threadCount}

/-- A call moves the register, which is kept reversed, behind its valid bytes. -/
theorem crcLocal_register (hw : 4 ≤ w) (hdvd : 4 ∣ w) (hvalid : call.Valid)
    (message : List (BitVec 8)) :
    crcLocal t.p (if !t.reflectInput then call.input.map reverse else call.input)
        call.inputBytes.toNat (register t.parameters message).reverse =
      (register t.parameters (message ++ call.bytes)).reverse := by
  rw [crcLocal_eq hw hdvd t.p _ hvalid.inputBytes, reverse_register_append]
  have hpoly : t.parameters.poly.reverse = t.p := BitVec.reverse_reverse_eq
  rw [hpoly, CrcCall.bytes]
  congr 1
  show _ = (call.input.toList.take _).flatMap fun byte =>
    lowBits (if t.reflectInput then byte else byte.reverse) 8
  cases t.reflectInput with
  | true => rfl
  | false =>
    simp only [Bool.not_false, if_true, Bool.false_eq_true, if_false]
    rw [Vector.toList_map, ← List.map_take, List.flatMap_map]
    simp only [reverse_eq]

/-- The results of identifiers that were reset are the registers behind their bytes. -/
def HoldsResults (results : Vector (BitVec w) threadCount)
    (calls : List (CrcCall maxBytes threadCount)) : Prop :=
  ∀ identifier message, identifier < threadCount →
    CrcCall.sinceReset identifier calls = some message →
    arrayRead results 0#w identifier = (register t.parameters message).reverse

/-- The remainder that a call leaves for its identifier. -/
theorem crcLocal_of_holds (hw : 4 ≤ w) (hdvd : 4 ∣ w) (hvalid : call.Valid)
    {calls : List (CrcCall maxBytes threadCount)} (h : HoldsResults t results calls)
    {message : List (BitVec 8)}
    (hmessage : CrcCall.sinceReset call.identifier.toNat (calls ++ [call]) = some message) :
    crcLocal t.p (if !t.reflectInput then call.input.map reverse else call.input)
        call.inputBytes.toNat
        (if call.reset then reverse t.init
          else arrayRead results 0#w call.identifier.toNat) =
      (register t.parameters message).reverse := by
  rw [CrcCall.sinceReset, List.foldl_append, List.foldl_cons, List.foldl_nil,
    ← CrcCall.sinceReset, CrcCall.collect, if_pos rfl] at hmessage
  cases hreset : call.reset with
  | true =>
    rw [hreset, if_pos rfl] at hmessage
    rw [if_pos rfl, ← Option.some.inj hmessage, reverse_eq]
    exact crcLocal_register t hw hdvd hvalid []
  | false =>
    rw [hreset, if_neg Bool.false_ne_true, Option.map_eq_some_iff] at hmessage
    obtain ⟨before, hbefore, rfl⟩ := hmessage
    rw [if_neg Bool.false_ne_true, h _ before hvalid.identifier hbefore]
    exact crcLocal_register t hw hdvd hvalid before

/-- A call keeps the results of the other identifiers. -/
theorem HoldsResults.compute (hw : 4 ≤ w) (hdvd : 4 ∣ w) (hvalid : call.Valid)
    {calls : List (CrcCall maxBytes threadCount)} (h : HoldsResults t results calls) :
    HoldsResults t (compute t results call).2 (calls ++ [call]) := by
  intro identifier message hlt hmessage
  simp only [CrcCalculator.compute]
  rw [arrayRead_of_lt _ _ hlt]
  by_cases heq : call.identifier.toNat = identifier
  · subst heq
    rw [Vector.getElem_setIfInBounds_self]
    exact crcLocal_of_holds t hw hdvd hvalid h hmessage
  · rw [Vector.getElem_setIfInBounds_ne hlt heq, ← arrayRead_of_lt results 0#w hlt]
    apply h identifier message hlt
    rw [CrcCall.sinceReset, List.foldl_append, List.foldl_cons, List.foldl_nil, CrcCall.collect,
      if_neg heq] at hmessage
    exact hmessage

theorem holdsResults_run (hw : 4 ≤ w) (hdvd : 4 ∣ w) (results : Vector (BitVec w) threadCount)
    (calls : List (CrcCall maxBytes threadCount)) (hvalid : ∀ call ∈ calls, call.Valid) :
    HoldsResults t (run t results calls) calls := by
  induction calls using List.reverseRecOn with
  | nil =>
    intro identifier message _ hmessage
    exact absurd hmessage (Option.some_ne_none message).symm
  | append_singleton calls call ih =>
    rw [run, List.foldl_append, ← run]
    have hcalls : ∀ call ∈ calls, call.Valid := fun c hc => hvalid c (List.mem_append_left _ hc)
    exact (ih hcalls).compute t hw hdvd (hvalid call (by simp))

/-- The value that a call returns is the check of the valid bytes of its identifier since the last
    reset, its own included. -/
theorem compute_eq_check {w maxBytes threadCount : Nat} (hw : 4 ≤ w) (hdvd : 4 ∣ w)
    (t : CrcTemplate w) (results : Vector (BitVec w) threadCount)
    (calls : List (CrcCall maxBytes threadCount)) (call : CrcCall maxBytes threadCount)
    (hvalid : ∀ c ∈ calls ++ [call], c.Valid) (message : List (BitVec 8))
    (hmessage : CrcCall.sinceReset call.identifier.toNat (calls ++ [call]) = some message) :
    (compute t (run t results calls) call).1 = check t.parameters message := by
  have hcalls : ∀ c ∈ calls, c.Valid := fun c hc => hvalid c (List.mem_append_left _ hc)
  have hholds := holdsResults_run t hw hdvd results calls hcalls
  have hlocal := crcLocal_of_holds t hw hdvd (hvalid call (by simp)) hholds hmessage
  simp only [compute, hlocal, check]
  congr 1
  show _ = if t.reflectOutput then _ else _
  cases t.reflectOutput with
  | true => rfl
  | false =>
    simp only [Bool.false_eq_true, if_false]
    rw [reverse_eq, BitVec.reverse_reverse_eq]

/-- Two calls on the second identifier, of two bytes and of one byte. -/
theorem compute_eq_check_three_bytes :
    (compute ⟨0xE0#8, 0x12#8, 0x55#8, false, false⟩
      (run ⟨0xE0#8, 0x12#8, 0x55#8, false, false⟩ #v[0#8, 0#8]
        [⟨1#2, #v[0x31#8, 0x32#8], 2#2, true⟩])
      ⟨1#2, #v[0x33#8, 0x99#8], 1#2, false⟩).1 =
    check ⟨0x07#8, 0x12#8, false, false, 0x55#8⟩ [0x31#8, 0x32#8, 0x33#8] :=
  compute_eq_check (by decide) (by decide) ⟨0xE0#8, 0x12#8, 0x55#8, false, false⟩ #v[0#8, 0#8]
    [⟨1#2, #v[0x31#8, 0x32#8], 2#2, true⟩] ⟨1#2, #v[0x33#8, 0x99#8], 1#2, false⟩
    (by
      intro c hc
      rcases List.mem_cons.mp hc with rfl | hc
      · exact ⟨by decide, by decide⟩
      · rw [List.mem_singleton.mp hc]
        exact ⟨by decide, by decide⟩)
    [0x31#8, 0x32#8, 0x33#8] rfl

end CrcCalculator

end Kanagawa.Library
