/-
  Kanagawa.Library.Toeplitz

  The Toeplitz hash (`data/random/toeplitz.k`).

  The bits of the data select rotated keys, of which the leftmost bits are added.
  A thread of the pipelined function takes a chunk of the data, padded at the end,
  with the key rotated to the chunk's place; both the partial hashes of a chunk and
  those of all chunks are added in place, pair by pair, in arrays whose length is a
  power of two.  Whatever the number of threads is, the hash is the same sum.

  The language gives the results of its operators the types that hold them, so that
  the shift amounts are computed exactly.  What a local array is not given is zero.
-/
import Kanagawa.Lib.Crc

namespace Kanagawa.Library.Toeplitz

open Crc

/-! ## The key and the data -/

variable {K D H : Nat}

/-- `rotate_key_left`. -/
def rotateKeyLeft (key : BitVec K) : BitVec K :=
  let msb : BitVec 1 := (key >>> (K - 1)).setWidth 1
  let lsbs : BitVec (K - 1) := key.setWidth (K - 1)
  (lsbs ++ msb).setWidth K

/-- `hash_align_and_truncate_key`: the leftmost bits. -/
def hashAlignAndTruncateKey (H : Nat) (key : BitVec K) : BitVec H :=
  (key >>> (K - H)).setWidth H

/-- `DataChunkWidth`. -/
def dataChunkWidth (D cycles : Nat) : Nat := (D + cycles - 1) / cycles

/-- `extract_data_chunk`. -/
def extractDataChunk (cycles : Nat) (data : BitVec D) (tid : Nat) :
    BitVec (dataChunkWidth D cycles) :=
  let padBits := cycles * dataChunkWidth D cycles - D
  let rShiftBits := D + padBits - (tid + 1) * dataChunkWidth D cycles
  let paddedData : BitVec (D + padBits) := data.setWidth (D + padBits) <<< padBits
  (paddedData >>> rShiftBits).setWidth _

/-- `offset_key`: a shift of the doubled key. -/
def offsetKey (key : BitVec K) (chunkWidth tid : Nat) : BitVec K :=
  let doubledKey : BitVec (K + K) := key ++ key
  (doubledKey >>> ((2 * K - chunkWidth * tid % K) % K)).setWidth K

/-- `bit_at`. -/
def bitAt {w : Nat} (data : BitVec w) (pos : Nat) : Bool := (data >>> pos) &&& 1#w != 0#w

/-! ## The hash -/

/-- A round of the reduction, in place. -/
def reduceInPlace (half : Nat) (partialHashes : Nat → BitVec H) : Nat → BitVec H :=
  (List.range half).foldl
    (fun partialHashes j k =>
      if k = j then partialHashes (2 * j) ^^^ partialHashes (2 * j + 1) else partialHashes k)
    partialHashes

/-- The reduction of an array of so many elements, rounded up to a power of two. -/
def reducePartialHashes (n : Nat) (partialHashes : Nat → BitVec H) : BitVec H :=
  (List.range (Nat.clog 2 n)).foldl
    (fun partialHashes _ => reduceInPlace (2 ^ Nat.clog 2 n / 2) partialHashes) partialHashes 0

/-- `calc_hash_chunk`. -/
def calcHashChunk (H cycles : Nat) (key : BitVec K) (tid : Nat) (data : BitVec D) : BitVec H :=
  let width := dataChunkWidth D cycles
  let dataChunk := extractDataChunk cycles data tid
  let step := fun (acc : (Nat → BitVec H) × BitVec K) (i : Nat) =>
    -- A zero bit leaves the partial hash as it is
    (if bitAt dataChunk (width - i - 1) then
        fun k => if k = i then hashAlignAndTruncateKey H acc.2 else acc.1 k
      else acc.1,
      rotateKeyLeft acc.2)
  let result := (List.range width).foldl step (fun _ => 0#H, offsetKey key width tid)
  reducePartialHashes width result.1

/-- `calc_hash`: the pipelined function is called for all threads. -/
def calcHash (H cycles : Nat) (key : BitVec K) (data : BitVec D) : BitVec H :=
  let hashChunks := fun tid => calcHashChunk H cycles key tid data
  reducePartialHashes cycles fun i => if i < cycles then hashChunks i else 0#H

/-- The hash as it is defined: for every set bit of the data, counted from the most significant,
    the leftmost bits of the key rotated left by the position of the bit. -/
def toeplitzHash (H : Nat) (key : BitVec K) (data : BitVec D) : BitVec H :=
  xorAll ((List.range D).map fun p =>
    if data.getMsbD p then hashAlignAndTruncateKey H (key.rotateLeft p) else 0#H)

/-! ## Rotations -/

theorem rotateKeyLeft_eq (hK : 0 < K) (key : BitVec K) : rotateKeyLeft key = key.rotateLeft 1 := by
  apply BitVec.eq_of_getLsbD_eq
  intro i hi
  rw [rotateKeyLeft, BitVec.getLsbD_setWidth, BitVec.getLsbD_append, BitVec.getLsbD_rotateLeft]
  by_cases hK1 : K = 1
  · subst hK1
    obtain rfl : i = 0 := by omega
    simp
  · rw [Nat.mod_eq_of_lt (show 1 < K by omega)]
    by_cases hi0 : i = 0
    · subst hi0
      simp [hi]
    · simp [hi, show ¬i < 1 by omega, show i - 1 < K - 1 by omega]

theorem rotateLeft_add (key : BitVec K) (a b : Nat) :
    (key.rotateLeft a).rotateLeft b = key.rotateLeft (a + b) := by
  apply BitVec.eq_of_getMsbD_eq
  intro i hi
  have hpos : 0 < K := by omega
  simp only [BitVec.getMsbD_rotateLeft, hi, decide_true, Bool.true_and,
    decide_eq_true (Nat.mod_lt (b + i) hpos), Nat.add_mod_mod, Nat.add_assoc]

theorem offsetKey_eq (hK : 0 < K) (key : BitVec K) (chunkWidth tid : Nat) :
    offsetKey key chunkWidth tid = key.rotateLeft (tid * chunkWidth) := by
  apply BitVec.eq_of_getLsbD_eq
  intro i hi
  rw [offsetKey, BitVec.getLsbD_setWidth, BitVec.getLsbD_ushiftRight, BitVec.getLsbD_append,
    BitVec.getLsbD_rotateLeft, Nat.mul_comm tid, decide_eq_true hi, Bool.true_and, Bool.true_and]
  have hr := Nat.mod_lt (chunkWidth * tid) hK
  generalize chunkWidth * tid % K = r at hr
  by_cases hr0 : r = 0
  · subst hr0
    rw [Nat.sub_zero, Nat.mul_mod_left, Nat.zero_add, if_pos hi]
    simp
  · have hshift : (2 * K - r) % K = K - r := by
      rw [show 2 * K - r = K - r + K by omega, Nat.add_mod_right, Nat.mod_eq_of_lt (by omega)]
    rw [hshift]
    by_cases hir : i < r
    · rw [if_pos (by omega), decide_eq_true hir, cond_true]
    · rw [if_neg (by omega), decide_eq_false hir, cond_false]
      congr 1
      omega

/-! ## Chunks -/

theorem bitAt_eq {w : Nat} (data : BitVec w) {pos : Nat} (hpos : pos < w) :
    bitAt data pos = data.getLsbD pos := by
  have hone : ∀ i, ((data >>> pos) &&& 1#w).getLsbD i = (decide (i = 0) && data.getLsbD pos) := by
    intro i
    rw [BitVec.getLsbD_and, BitVec.getLsbD_ushiftRight, BitVec.getLsbD_one]
    by_cases hi : i = 0
    · subst hi
      simp [show 0 < w by omega]
    · simp [hi]
  rw [bitAt]
  cases hbit : data.getLsbD pos with
  | false =>
      have hzero : (data >>> pos) &&& 1#w = 0#w := by
        apply BitVec.eq_of_getLsbD_eq
        intro i _
        rw [hone, hbit, Bool.and_false, BitVec.getLsbD_zero]
      rw [hzero, bne_self_eq_false]
  | true =>
      have hne : (data >>> pos) &&& 1#w ≠ 0#w := by
        intro h
        have hbit0 := hone 0
        rw [h, hbit, BitVec.getLsbD_zero] at hbit0
        cases hbit0
      exact bne_iff_ne.mpr hne

theorem le_mul_dataChunkWidth {cycles : Nat} (hcycles : 0 < cycles) (D : Nat) :
    D ≤ cycles * dataChunkWidth D cycles := by
  have hdiv := Nat.div_add_mod (D + cycles - 1) cycles
  have hmod := Nat.mod_lt (D + cycles - 1) hcycles
  rw [dataChunkWidth]
  omega

/-- A chunk has the bits of the data at its place, and zeros behind them. -/
theorem bitAt_extractDataChunk {cycles tid i : Nat} (data : BitVec D) (htid : tid < cycles)
    (hi : i < dataChunkWidth D cycles) :
    bitAt (extractDataChunk cycles data tid) (dataChunkWidth D cycles - i - 1)
      = data.getMsbD (tid * dataChunkWidth D cycles + i) := by
  have hD := le_mul_dataChunkWidth (show 0 < cycles by omega) D
  have hchunk : (tid + 1) * dataChunkWidth D cycles ≤ cycles * dataChunkWidth D cycles :=
    Nat.mul_le_mul_right _ htid
  rw [Nat.succ_mul] at hchunk
  rw [bitAt_eq _ (by omega), extractDataChunk, BitVec.getLsbD_setWidth,
    BitVec.getLsbD_ushiftRight, BitVec.getLsbD_shiftLeft, BitVec.getLsbD_setWidth,
    BitVec.getMsbD_eq_getLsbD, Nat.succ_mul]
  generalize dataChunkWidth D cycles = w at *
  generalize cycles * w = n at *
  generalize tid * w = t at *
  by_cases hp : t + i < D
  · rw [show D + (n - D) - (t + w) + (w - i - 1) - (n - D) = D - 1 - (t + i) by omega]
    simp [hp, show w - i - 1 < w by omega,
      show D + (n - D) - (t + w) + (w - i - 1) < D + (n - D) by omega,
      show ¬D + (n - D) - (t + w) + (w - i - 1) < n - D by omega,
      show D - 1 - (t + i) < D + (n - D) by omega]
  · simp [hp, show D + (n - D) - (t + w) + (w - i - 1) < n - D by omega]

/-! ## Reductions in place -/

/-- An element of a round is read before it is written. -/
theorem reduceInPlace_apply (half : Nat) (p : Nat → BitVec H) (k : Nat) :
    reduceInPlace half p k = if k < half then p (2 * k) ^^^ p (2 * k + 1) else p k := by
  induction half generalizing k with
  | zero => rfl
  | succ half ih =>
      rw [reduceInPlace, List.range_succ, List.foldl_append, List.foldl_cons, List.foldl_nil]
      show (if k = half then reduceInPlace half p (2 * half) ^^^ reduceInPlace half p (2 * half + 1)
        else reduceInPlace half p k) = _
      by_cases hk : k = half
      · subst hk
        rw [if_pos rfl, if_pos (Nat.lt_succ_self k), ih, ih]
        by_cases hk0 : k = 0
        · subst hk0
          rfl
        · rw [if_neg (by omega), if_neg (by omega)]
      · rw [if_neg hk, ih]
        by_cases hlt : k < half
        · rw [if_pos hlt, if_pos (by omega)]
        · rw [if_neg hlt, if_neg (by omega)]

/-- The sum of the elements below a power of two from a multiple of it on. -/
def pairSum (p : Nat → BitVec H) : Nat → Nat → BitVec H
  | 0, k => p k
  | rounds + 1, k => pairSum p rounds (2 * k) ^^^ pairSum p rounds (2 * k + 1)

theorem xorAll_append (xs ys : List (BitVec H)) : xorAll (xs ++ ys) = xorAll xs ^^^ xorAll ys := by
  induction ys using List.reverseRecOn with
  | nil => rw [List.append_nil, xorAll_nil, BitVec.xor_zero]
  | append_singleton ys y ih =>
      rw [← List.append_assoc, xorAll_append_one, ih, xorAll_append_one, BitVec.xor_assoc]

theorem pairSum_eq (p : Nat → BitVec H) (rounds k : Nat) :
    pairSum p rounds k = xorAll ((List.range (2 ^ rounds)).map fun i => p (2 ^ rounds * k + i)) := by
  induction rounds generalizing k with
  | zero =>
      rw [Nat.pow_zero, List.range_one, List.map_singleton, Nat.one_mul, pairSum]
      exact (BitVec.zero_xor).symm
  | succ rounds ih =>
      rw [pairSum, ih, ih, Nat.pow_succ, Nat.mul_two, List.range_add, List.map_append,
        xorAll_append, List.map_map]
      congr 3
      · funext i
        congr 1
        ring
      · funext i
        simp only [Function.comp_apply]
        congr 1
        ring

/-- After some rounds the first elements are the sums of as many as a power of two. -/
theorem reduceRounds_apply (depth : Nat) (p : Nat → BitVec H) (rounds : Nat) :
    ∀ k, k < 2 ^ (depth - rounds) → rounds ≤ depth →
      (List.range rounds).foldl (fun p _ => reduceInPlace (2 ^ depth / 2) p) p k
        = pairSum p rounds k := by
  induction rounds with
  | zero => exact fun k _ _ => rfl
  | succ rounds ih =>
      intro k hk hle
      have hpow : 2 ^ (depth - rounds) = 2 * 2 ^ (depth - (rounds + 1)) := by
        rw [← Nat.pow_succ']
        congr 1
        omega
      have hhalf : 2 ^ (depth - (rounds + 1)) ≤ 2 ^ depth / 2 := by
        rw [Nat.le_div_iff_mul_le (by decide), Nat.mul_comm, ← hpow]
        exact Nat.pow_le_pow_right (by decide) (Nat.sub_le _ _)
      rw [List.range_succ, List.foldl_append, List.foldl_cons, List.foldl_nil, reduceInPlace_apply,
        if_pos (by omega), ih (2 * k) (by omega) (by omega), ih (2 * k + 1) (by omega) (by omega)]
      rfl

/-- The reduction adds all elements of an array that are not zero from its length on. -/
theorem reducePartialHashes_eq {n : Nat} {p : Nat → BitVec H} (hp : ∀ k, n ≤ k → p k = 0#H) :
    reducePartialHashes n p = xorAll ((List.range n).map p) := by
  have hle : n ≤ 2 ^ Nat.clog 2 n := Nat.le_pow_clog (by decide) n
  rw [reducePartialHashes, reduceRounds_apply _ p _ 0 (by simp) (Nat.le_refl _), pairSum_eq,
    ← xorAll_range_of_zero hle hp]
  simp only [Nat.mul_zero, Nat.zero_add]

/-! ## The hash of a chunk -/

/-- What a position of the data adds to the hash. -/
def term (H : Nat) (key : BitVec K) (data : BitVec D) (p : Nat) : BitVec H :=
  if data.getMsbD p then hashAlignAndTruncateKey H (key.rotateLeft p) else 0#H

/-- After some bits of a chunk the partial hashes are their terms, and the key is rotated to the
    next one. -/
theorem chunkSteps (hK : 0 < K) (key : BitVec K) (bits : Nat → Bool) (start n : Nat) :
    (List.range n).foldl
      (fun (acc : (Nat → BitVec H) × BitVec K) (i : Nat) =>
        (if bits i then fun k => if k = i then hashAlignAndTruncateKey H acc.2 else acc.1 k
          else acc.1,
          rotateKeyLeft acc.2)) (fun _ => 0#H, key.rotateLeft start)
      = (fun k => if k < n ∧ bits k then hashAlignAndTruncateKey H (key.rotateLeft (start + k))
          else 0#H,
        key.rotateLeft (start + n)) := by
  induction n with
  | zero => simp
  | succ n ih =>
      rw [List.range_succ, List.foldl_append, ih, List.foldl_cons, List.foldl_nil,
        rotateKeyLeft_eq hK, rotateLeft_add, Nat.add_assoc]
      refine Prod.ext (funext fun k => ?_) rfl
      by_cases hk : k = n
      · subst hk
        cases hbit : bits k <;> simp [hbit]
      · have hiff : k < n + 1 ↔ k < n := by omega
        cases hbit : bits n <;> simp [hk, hiff]

/-- The hash of a chunk is the sum of the terms at its place. -/
theorem calcHashChunk_eq (hK : 0 < K) {cycles tid : Nat} (htid : tid < cycles) (key : BitVec K)
    (data : BitVec D) :
    calcHashChunk H cycles key tid data
      = xorAll ((List.range (dataChunkWidth D cycles)).map fun i =>
          term H key data (tid * dataChunkWidth D cycles + i)) := by
  have hsteps := chunkSteps (H := H) hK key
    (fun i => bitAt (extractDataChunk cycles data tid) (dataChunkWidth D cycles - i - 1))
    (tid * dataChunkWidth D cycles) (dataChunkWidth D cycles)
  simp only [calcHashChunk, offsetKey_eq hK]
  rw [hsteps, reducePartialHashes_eq fun k hk => if_neg fun h => by omega]
  congr 1
  refine List.map_congr_left fun i hi => ?_
  have hlt := List.mem_range.mp hi
  simp only [hlt, true_and, bitAt_extractDataChunk data htid hlt, term]

/-- The sums of chunks of one width are the sum of all. -/
theorem xorAll_chunks (f : Nat → BitVec H) (n w : Nat) :
    xorAll ((List.range n).map fun t => xorAll ((List.range w).map fun i => f (t * w + i)))
      = xorAll ((List.range (n * w)).map f) := by
  induction n with
  | zero => simp
  | succ n ih =>
      rw [List.range_succ, List.map_append, List.map_singleton, xorAll_append_one, ih,
        Nat.succ_mul, List.range_add, List.map_append, xorAll_append, List.map_map]
      rfl

/-- The hash does not depend on the number of threads. -/
theorem calc_hash_eq (H : Nat) {K D cycles : Nat} (hK : 2 ≤ K) (hcycles : 1 ≤ cycles)
    (key : BitVec K) (data : BitVec D) :
    calcHash H cycles key data = toeplitzHash H key data := by
  rw [calcHash, reducePartialHashes_eq fun k hk => if_neg (by omega), toeplitzHash]
  have hchunks : (List.range cycles).map (fun i =>
      if i < cycles then calcHashChunk H cycles key i data else 0#H)
      = (List.range cycles).map fun t => xorAll ((List.range (dataChunkWidth D cycles)).map fun i =>
          term H key data (t * dataChunkWidth D cycles + i)) := by
    refine List.map_congr_left fun t ht => ?_
    have htid := List.mem_range.mp ht
    rw [if_pos htid, calcHashChunk_eq (by omega) htid]
  rw [hchunks, xorAll_chunks]
  refine xorAll_range_of_zero (le_mul_dataChunkWidth hcycles D) fun p hp => ?_
  -- There is no data behind the last bit
  rw [term, BitVec.getMsbD_of_ge _ _ hp]
  rfl

/-- Eleven bits of data in three chunks. -/
theorem calc_hash_eq_three_chunks :
    calcHash 4 3 (0b10110101#8) (0b11010010111#11)
      = toeplitzHash 4 (0b10110101#8) (0b11010010111#11) :=
  calc_hash_eq 4 (by decide) (by decide) _ _

end Kanagawa.Library.Toeplitz
