/-
  Kanagawa.Search.CompressedIntegerVector

  The storage behind the parameter vectors of the integer minimizer
  (`branch_and_bound.cpp`).

  A code book gives every index a field of a word that holds the values below its
  range; a range of one has no field.  A field that does not fit into the rest of
  a word starts the next one, so that the fields lie one behind the other and
  none crosses the end of a word.
-/
import Kanagawa.Generate.ReorderHelper
import Kanagawa.Lib.BitFields

namespace Kanagawa.Search

open Lib.BitFields Lib.Except

/-! ## The code book -/

/-- `word_t`. -/
abbrev Word := BitVec 64

/-- `CompressedIntegerVector::CodeBookEntry`. -/
structure CodeBookEntry where
  wordIndex : Nat
  shift : Nat
  mask : Word
  upperBound : Nat
  isConstantZero : Bool

/-- `CompressedIntegerVector::CodeBook`. -/
structure CodeBook where
  numWords : Nat
  entries : List CodeBookEntry

def bitsPerWord : Nat := 64

/-- `Log2RoundUp`; the most significant bit of zero is an exception. -/
def bitCountOf (range : Nat) : Except Failure Nat :=
  match Generate.log2RoundUp range with
  | some bitCount => .ok bitCount
  | none => .error (.runtimeError "No bits were set in the operand.")

/-- The loop of `CreateCodeBook`: the code book so far, and `bitsRemaining`. -/
def addRange (state : CodeBook × Nat) (range : Nat) : Except Failure (CodeBook × Nat) := do
  assert (0 < range)
  -- Determine the number of bits required to represent this value
  let bitCount ← bitCountOf range
  -- Check to see if there are enough bits remaining in the current word
  let (numWords, bitsRemaining) :=
    if state.2 < bitCount then (state.1.numWords + 1, bitsPerWord)
    else (state.1.numWords, state.2)
  assert (bitCount = 0 || 0 < numWords)
  let shift := bitsPerWord - bitsRemaining
  let cbe : CodeBookEntry :=
    if bitCount = 0 then ⟨0, 0, 0, range, true⟩
    else ⟨numWords - 1, shift, fieldMask 64 shift bitCount, range, false⟩
  assert (bitCount ≤ bitsRemaining)
  return (⟨numWords, state.1.entries ++ [cbe]⟩, bitsRemaining - bitCount)

/-- `CreateCodeBook`. -/
def createCodeBook (ranges : List Nat) : Except Failure CodeBook := do
  let (result, _) ← ranges.foldlM addRange (⟨0, []⟩, 0)
  return result

/-! ## The vector -/

/-- `CompressedIntegerVector(codeBook)`. -/
def initialWords (codeBook : CodeBook) : List Word := List.replicate codeBook.numWords 0

/-- `GetCodeBookEntry`. -/
def getCodeBookEntry (codeBook : CodeBook) (index : Nat) : Except Failure CodeBookEntry :=
  match codeBook.entries[index]? with
  | some cbe => .ok cbe
  | none => .error .assertion

/-- A word of the vector; there is none for an index out of range. -/
def wordAt (words : List Word) (wordIndex : Nat) : Except Failure Word :=
  match words[wordIndex]? with
  | some word => .ok word
  | none => .error (.runtimeError "vector subscript out of range")

/-- `Set`. -/
def set (codeBook : CodeBook) (words : List Word) (index value : Nat) :
    Except Failure (List Word) := do
  let cbe ← getCodeBookEntry codeBook index
  assert (value < cbe.upperBound)
  if !cbe.isConstantZero then
    let word ← wordAt words cbe.wordIndex
    -- clear old bits, write new bits
    return words.set cbe.wordIndex (setField cbe.mask cbe.shift word (BitVec.ofNat 64 value))
  else return words

/-- `Get`. -/
def get (codeBook : CodeBook) (words : List Word) (index : Nat) : Except Failure Nat := do
  let cbe ← getCodeBookEntry codeBook index
  if cbe.isConstantZero then return 0
  else
    let word ← wordAt words cbe.wordIndex
    return (getField cbe.mask cbe.shift word).toNat

/-! ## The layout -/

/-- An index without a field. -/
def CodeBookEntry.Constant (cbe : CodeBookEntry) (range : Nat) : Prop :=
  range = 1 ∧ cbe.isConstantZero = true ∧ cbe.upperBound = range ∧ cbe.mask = 0

/-- An index with a field of so many bits, inside of one word. -/
structure CodeBookEntry.Field (cbe : CodeBookEntry) (range bits : Nat) : Prop where
  one_lt : 1 < range
  upperBound : cbe.upperBound = range
  not_constant : cbe.isConstantZero = false
  bits_pos : 0 < bits
  range_le : range ≤ 2 ^ bits
  inWord : cbe.shift + bits ≤ 64
  bits_lt : bits < 64
  mask : cbe.mask = fieldMask 64 cbe.shift bits

/-- The place of a field, counted in bits from the first word. -/
def CodeBookEntry.start (cbe : CodeBookEntry) : Nat := bitsPerWord * cbe.wordIndex + cbe.shift

/-- The entries so far have their fields one behind the other, below a bit. -/
structure Layout (ranges : List Nat) (numWords limit : Nat) (entries : List CodeBookEntry) :
    Prop where
  length : entries.length = ranges.length
  entry : ∀ (i range : Nat) (cbe : CodeBookEntry), ranges[i]? = some range → entries[i]? = some cbe →
    cbe.Constant range ∨
      ∃ bits, cbe.Field range bits ∧ cbe.wordIndex < numWords ∧ cbe.start + bits ≤ limit ∧
        ∀ (j : Nat) (cbe' : CodeBookEntry), entries[j]? = some cbe' → i < j → cbe'.isConstantZero = false →
          cbe.start + bits ≤ cbe'.start

theorem getElem?_concat {α : Type} {l : List α} {a x : α} {i : Nat}
    (h : (l ++ [a])[i]? = some x) : l[i]? = some x ∨ i = l.length ∧ x = a := by
  rw [List.getElem?_append] at h
  split at h
  · exact .inl h
  case isFalse hge =>
    obtain ⟨hlt, hx⟩ := List.getElem?_eq_some_iff.mp h
    rw [List.length_singleton] at hlt
    refine .inr ⟨by omega, ?_⟩
    rw [← hx, List.getElem_singleton]

/-- An entry behind the limit extends a layout. -/
theorem Layout.concat {ranges : List Nat} {numWords numWords' limit limit' range : Nat}
    {entries : List CodeBookEntry} {cbe : CodeBookEntry}
    (h : Layout ranges numWords limit entries) (hwords : numWords ≤ numWords')
    (hlimit : limit ≤ limit')
    (hnew : cbe.Constant range ∨ ∃ bits, cbe.Field range bits ∧ cbe.wordIndex < numWords' ∧
      limit ≤ cbe.start ∧ cbe.start + bits ≤ limit') :
    Layout (ranges ++ [range]) numWords' limit' (entries ++ [cbe]) := by
  have hlength := h.length
  refine ⟨by simp [hlength], fun i range' cbe' hr he => ?_⟩
  rcases getElem?_concat hr with hr | ⟨rfl, rfl⟩
  · have hlt := (List.getElem?_eq_some_iff.mp hr).1
    rw [List.getElem?_append_left (by omega)] at he
    rcases h.entry i range' cbe' hr he with hconst | ⟨bits, hfield, hword, hend, hafter⟩
    · exact .inl hconst
    · refine .inr ⟨bits, hfield, by omega, by omega, fun j cbe'' hj hij hzero => ?_⟩
      rcases getElem?_concat hj with hj | ⟨-, rfl⟩
      · exact hafter j cbe'' hj hij hzero
      · rcases hnew with ⟨-, hconst, -, -⟩ | ⟨_, -, -, hstart, -⟩
        · rw [hzero] at hconst
          cases hconst
        · omega
  · obtain rfl : cbe = cbe' := by
      rw [← hlength, List.getElem?_concat_length] at he
      exact Option.some.inj he
    rcases hnew with hconst | ⟨bits, hfield, hword, -, hend⟩
    · exact .inl hconst
    · refine .inr ⟨bits, hfield, hword, hend, fun j cbe'' hj hij _ => ?_⟩
      have hlt := (List.getElem?_eq_some_iff.mp hj).1
      rw [List.length_append, List.length_singleton] at hlt
      omega

/-- Within the loop the fields end where the rest of the word begins. -/
structure LoopInvariant (ranges : List Nat) (state : CodeBook × Nat) : Prop where
  layout : Layout ranges state.1.numWords (bitsPerWord * state.1.numWords - state.2)
    state.1.entries
  rest_le : state.2 ≤ bitsPerWord
  rest_of_empty : state.1.numWords = 0 → state.2 = 0

theorem bitCountOf_eq {range : Nat} (hpos : 0 < range) (hle : range ≤ 2 ^ 63) :
    ∃ bitCount, bitCountOf range = .ok bitCount ∧ range ≤ 2 ^ bitCount ∧ bitCount < 64 ∧
      (bitCount = 0 ↔ range = 1) := by
  have hsome : ∃ bitCount, Generate.log2RoundUp range = some bitCount := by
    rw [Generate.log2RoundUp, if_neg (by omega)]
    split <;> exact ⟨_, rfl⟩
  obtain ⟨bitCount, h⟩ := hsome
  have hupper := Generate.log2RoundUp_le h hle
  have hfits := Generate.le_two_pow_log2RoundUp h
  refine ⟨bitCount, by rw [bitCountOf, h], hfits, by omega, ?_, ?_⟩
  · rintro rfl
    omega
  · rintro rfl
    have hzero := Generate.log2RoundUp_le (j := 0) h le_rfl
    omega

/-- One range keeps the invariant. -/
theorem addRange_spec {ranges : List Nat} {state : CodeBook × Nat} {range : Nat}
    (hinv : LoopInvariant ranges state) (hpos : 0 < range) (hle : range ≤ 2 ^ 63) :
    ∃ state', addRange state range = .ok state' ∧ LoopInvariant (ranges ++ [range]) state' := by
  obtain ⟨⟨numWords, entries⟩, rest⟩ := state
  obtain ⟨hlayout, hrest, hempty⟩ := hinv
  obtain ⟨bitCount, hcount, hfits, hlt, hzero⟩ := bitCountOf_eq hpos hle
  simp only at hlayout hrest hempty
  have hrange : assert (decide (0 < range)) = .ok () := assert_of_true (by simpa using hpos)
  have hword : bitsPerWord = 64 := rfl
  simp only [addRange, hrange, hcount, ok_bind]
  by_cases hfull : rest < bitCount
  · -- The field starts the next word
    have hne : bitCount ≠ 0 := by omega
    have hsucc : bitsPerWord * (numWords + 1) = bitsPerWord * numWords + bitsPerWord :=
      Nat.mul_succ _ _
    have hassert : assert (decide (bitCount ≤ bitsPerWord)) = .ok () :=
      assert_of_true (by simpa using by omega)
    simp only [hfull, if_true, hne, if_false, Nat.sub_self, decide_false, Bool.false_or,
      Nat.succ_pos, decide_true, hassert]
    refine ⟨_, rfl, ?_, by show bitsPerWord - bitCount ≤ _; omega, fun h => by cases h⟩
    show Layout _ (numWords + 1) (bitsPerWord * (numWords + 1) - (bitsPerWord - bitCount)) _
    refine hlayout.concat (by omega) (by omega) (.inr ⟨bitCount, ?_, ?_, ?_, ?_⟩)
    · exact ⟨by omega, rfl, rfl, by omega, hfits, by show 0 + bitCount ≤ _; omega, by omega, rfl⟩
    · show numWords + 1 - 1 < numWords + 1
      omega
    · show _ ≤ bitsPerWord * (numWords + 1 - 1) + 0
      rw [Nat.add_sub_cancel]
      omega
    · show bitsPerWord * (numWords + 1 - 1) + 0 + bitCount ≤ _
      rw [Nat.add_sub_cancel]
      omega
  · have hassert : assert (decide (bitCount ≤ rest)) = .ok () :=
      assert_of_true (by simpa using by omega)
    by_cases hne : bitCount = 0
    · have hnone : assert (decide (bitCount = 0) || decide (0 < numWords)) = .ok () :=
        assert_of_true (by simp [hne])
      simp only [hfull, if_false, hnone, ok_bind, hassert, pure_eq_ok]
      refine ⟨_, rfl, ?_, by show rest - bitCount ≤ _; omega,
        fun h => by show rest - bitCount = 0; have := hempty h; omega⟩
      show Layout _ numWords (bitsPerWord * numWords - (rest - bitCount)) _
      refine hlayout.concat le_rfl (by omega) (.inl ?_)
      rw [if_pos hne]
      exact ⟨hzero.mp hne, rfl, rfl, rfl⟩
    · have hwords : 0 < numWords := by
        by_contra h
        have := hempty (by omega)
        omega
      have hsome : assert (decide (bitCount = 0) || decide (0 < numWords)) = .ok () :=
        assert_of_true (by simp [hwords])
      simp only [hfull, if_false, hsome, ok_bind, hassert, pure_eq_ok]
      refine ⟨_, rfl, ?_, by show rest - bitCount ≤ _; omega,
        fun h => by show rest - bitCount = 0; have := hempty h; omega⟩
      show Layout _ numWords (bitsPerWord * numWords - (rest - bitCount)) _
      refine hlayout.concat le_rfl (by omega) (.inr ⟨bitCount, ?_⟩)
      rw [if_neg hne]
      have hsucc : bitsPerWord * (numWords - 1) + bitsPerWord = bitsPerWord * numWords := by
        rw [← Nat.mul_succ, Nat.succ_eq_add_one, Nat.sub_add_cancel hwords]
      have hstart : bitsPerWord * (numWords - 1) + (bitsPerWord - rest)
          = bitsPerWord * numWords - rest := by omega
      refine ⟨⟨?_, rfl, rfl, by omega, hfits, ?_, by omega, rfl⟩, ?_, ?_, ?_⟩
      · have hone := mt hzero.mpr hne
        omega
      · show bitsPerWord - rest + bitCount ≤ _
        omega
      · show numWords - 1 < numWords
        omega
      · exact hstart.ge
      · show bitsPerWord * (numWords - 1) + (bitsPerWord - rest) + bitCount ≤ _
        omega

theorem foldlM_addRange (ranges : List Nat) {done : List Nat} {state : CodeBook × Nat}
    (hinv : LoopInvariant done state) (hranges : ∀ range ∈ ranges, 0 < range ∧ range ≤ 2 ^ 63) :
    ∃ state', ranges.foldlM addRange state = .ok state' ∧
      LoopInvariant (done ++ ranges) state' := by
  induction ranges generalizing done state with
  | nil => exact ⟨state, rfl, by simpa using hinv⟩
  | cons range ranges ih =>
      obtain ⟨hpos, hle⟩ := hranges range (by simp)
      obtain ⟨state₁, hstep, hinv₁⟩ := addRange_spec hinv hpos hle
      obtain ⟨state', hfold, hinv'⟩ := ih hinv₁ fun r hr => hranges r (by simp [hr])
      refine ⟨state', ?_, by simpa using hinv'⟩
      rw [List.foldlM_cons, hstep]
      exact hfold

/-- The code book of positive ranges is laid out. -/
theorem createCodeBook_layout {ranges : List Nat}
    (hranges : ∀ range ∈ ranges, 0 < range ∧ range ≤ 2 ^ 63) :
    ∃ codeBook limit, createCodeBook ranges = .ok codeBook ∧
      Layout ranges codeBook.numWords limit codeBook.entries := by
  have hstart : LoopInvariant [] (⟨0, []⟩, 0) :=
    ⟨⟨rfl, fun i range cbe h => by cases h⟩, Nat.zero_le _, fun _ => rfl⟩
  obtain ⟨⟨codeBook, rest⟩, hfold, hinv⟩ := foldlM_addRange ranges hstart hranges
  refine ⟨codeBook, _, ?_, hinv.layout⟩
  rw [createCodeBook, hfold]
  rfl

/-- A range of one takes nothing of the words. -/
theorem addRange_one (state : CodeBook × Nat) :
    ∃ cbe : CodeBookEntry, cbe.Constant 1 ∧
      addRange state 1 = .ok (⟨state.1.numWords, state.1.entries ++ [cbe]⟩, state.2) := by
  have hcount : bitCountOf 1 = .ok 0 := rfl
  refine ⟨⟨0, 0, 0, 1, true⟩, ⟨rfl, rfl, rfl, rfl⟩, ?_⟩
  rw [addRange, hcount]
  rfl

/-! ## Writing and reading -/

theorem Layout.entry_of_range {ranges : List Nat} {numWords limit i range : Nat}
    {entries : List CodeBookEntry} (h : Layout ranges numWords limit entries)
    (hr : ranges[i]? = some range) : ∃ cbe, entries[i]? = some cbe := by
  have hlt := (List.getElem?_eq_some_iff.mp hr).1
  exact ⟨_, List.getElem?_eq_getElem (h.length ▸ hlt)⟩

theorem Layout.range_of_entry {ranges : List Nat} {numWords limit i : Nat}
    {entries : List CodeBookEntry} {cbe : CodeBookEntry} (h : Layout ranges numWords limit entries)
    (he : entries[i]? = some cbe) : ∃ range, ranges[i]? = some range := by
  have hlt := (List.getElem?_eq_some_iff.mp he).1
  exact ⟨_, List.getElem?_eq_getElem (h.length ▸ hlt)⟩

theorem getCodeBookEntry_eq {codeBook : CodeBook} {i : Nat} {cbe : CodeBookEntry}
    (h : codeBook.entries[i]? = some cbe) : getCodeBookEntry codeBook i = .ok cbe := by
  rw [getCodeBookEntry, h]

theorem wordAt_eq {words : List Word} {i : Nat} {word : Word} (h : words[i]? = some word) :
    wordAt words i = .ok word := by
  rw [wordAt, h]

/-- A value that is set is read at its index, and all other indices keep theirs. -/
theorem set_spec {ranges : List Nat} {limit i range value : Nat} {codeBook : CodeBook}
    {words : List Word} (h : Layout ranges codeBook.numWords limit codeBook.entries)
    (hwords : words.length = codeBook.numWords) (hr : ranges[i]? = some range)
    (hvalue : value < range) :
    ∃ words', set codeBook words i value = .ok words' ∧ words'.length = codeBook.numWords ∧
      get codeBook words' i = .ok value ∧
      ∀ j, j ≠ i → get codeBook words' j = get codeBook words j := by
  obtain ⟨cbe, he⟩ := h.entry_of_range hr
  have hentry := getCodeBookEntry_eq he
  rcases h.entry i range cbe hr he with
    ⟨rfl, hconst, hbound, -⟩ | ⟨bits, hfield, hword, -, hafter⟩
  · have hassert : assert (decide (value < cbe.upperBound)) = .ok () :=
      assert_of_true (by simpa [hbound] using hvalue)
    refine ⟨words, ?_, hwords, ?_, fun j _ => rfl⟩
    · simp only [set, hentry, ok_bind, hassert, hconst, Bool.not_true, Bool.false_eq_true, if_false]
      rfl
    · simp only [get, hentry, ok_bind, hconst, if_true, pure_eq_ok]
      rw [Nat.lt_one_iff.mp hvalue]
  · have hassert : assert (decide (value < cbe.upperBound)) = .ok () :=
      assert_of_true (by simpa [hfield.upperBound] using hvalue)
    have hlt : cbe.wordIndex < words.length := by omega
    obtain ⟨word, hword'⟩ : ∃ word, words[cbe.wordIndex]? = some word :=
      ⟨_, List.getElem?_eq_getElem hlt⟩
    have hpow : 2 ^ bits < 2 ^ 64 := Nat.pow_lt_pow_right (by decide) hfield.bits_lt
    have htoNat : (BitVec.ofNat 64 value).toNat = value := by
      rw [BitVec.toNat_ofNat, Nat.mod_eq_of_lt]
      have := hfield.range_le
      omega
    have hfits : (BitVec.ofNat 64 value).toNat < 2 ^ bits := by
      rw [htoNat]
      exact hvalue.trans_le hfield.range_le
    refine ⟨words.set cbe.wordIndex (setField cbe.mask cbe.shift word (BitVec.ofNat 64 value)),
      ?_, by rw [List.length_set, hwords], ?_, fun j hne => ?_⟩
    · simp only [set, hentry, ok_bind, hassert, hfield.not_constant, Bool.not_false, if_true,
        wordAt_eq hword']
      rfl
    · have hread := wordAt_eq (List.getElem?_set_self (a := setField cbe.mask cbe.shift word
        (BitVec.ofNat 64 value)) hlt)
      simp only [get, hentry, ok_bind, hfield.not_constant, Bool.false_eq_true, if_false, hread,
        pure_eq_ok]
      rw [hfield.mask, getField_setField_self hfield.bits_lt hfield.inWord hfits, htoNat]
    · cases he' : codeBook.entries[j]? with
      | none => simp only [get, getCodeBookEntry, he', error_bind]
      | some cbe' =>
          have hentry' := getCodeBookEntry_eq he'
          obtain ⟨range', hr'⟩ := h.range_of_entry he'
          rcases h.entry j range' cbe' hr' he' with
            ⟨-, hconst, -, -⟩ | ⟨bits', hfield', hword'', -, hafter'⟩
          · simp only [get, hentry', ok_bind, hconst, if_true]
          · simp only [get, hentry', ok_bind, hfield'.not_constant, Bool.false_eq_true, if_false]
            by_cases hsame : cbe.wordIndex = cbe'.wordIndex
            · -- The fields of one word lie one behind the other
              have hdisjoint : cbe.shift + bits ≤ cbe'.shift ∨ cbe'.shift + bits' ≤ cbe.shift := by
                rcases Nat.lt_or_gt_of_ne hne with hji | hij
                · have hstart := hafter' i cbe he hji hfield.not_constant
                  rw [CodeBookEntry.start, CodeBookEntry.start, hsame] at hstart
                  omega
                · have hstart := hafter j cbe' he' hij hfield'.not_constant
                  rw [CodeBookEntry.start, CodeBookEntry.start, hsame] at hstart
                  omega
              have hread := wordAt_eq (List.getElem?_set_self (a := setField cbe.mask cbe.shift
                word (BitVec.ofNat 64 value)) hlt)
              rw [← hsame, hread, wordAt_eq hword', ok_bind, ok_bind, hfield.mask, hfield'.mask,
                getField_setField_other hfield.bits_lt hfield'.bits_lt hfits hdisjoint]
            · rw [wordAt, wordAt, List.getElem?_set_ne hsame]

/-- The value that was set last, of an index. -/
def lastSet (sets : List (Nat × Nat)) (i : Nat) : Nat :=
  sets.foldl (fun value s => if s.1 = i then s.2 else value) 0

/-- The words stand for a value of each index. -/
structure Represents (ranges : List Nat) (codeBook : CodeBook) (words : List Word)
    (value : Nat → Nat) : Prop where
  length : words.length = codeBook.numWords
  get_eq : ∀ i, i < ranges.length → get codeBook words i = .ok (value i)

theorem represents_initial {ranges : List Nat} {limit : Nat} {codeBook : CodeBook}
    (h : Layout ranges codeBook.numWords limit codeBook.entries) :
    Represents ranges codeBook (initialWords codeBook) fun _ => 0 := by
  refine ⟨List.length_replicate, fun i hi => ?_⟩
  have hr : ranges[i]? = some ranges[i] := List.getElem?_eq_getElem hi
  obtain ⟨cbe, he⟩ := h.entry_of_range hr
  rcases h.entry i _ cbe hr he with ⟨-, hconst, -, -⟩ | ⟨bits, hfield, hword, -, -⟩
  · simp only [get, getCodeBookEntry_eq he, ok_bind, hconst, if_true, pure_eq_ok]
  · have hread : wordAt (initialWords codeBook) cbe.wordIndex = .ok 0 := by
      apply wordAt_eq
      rw [initialWords, List.getElem?_replicate, if_pos hword]
    simp only [get, getCodeBookEntry_eq he, ok_bind, hfield.not_constant, Bool.false_eq_true,
      if_false, hread, pure_eq_ok, getField]
    rw [show (0 : Word) &&& cbe.mask = 0 from BitVec.zero_and]
    exact congrArg (fun word : Word => Except.ok word.toNat) BitVec.zero_ushiftRight

/-- A run of writes leaves the value that was set last at every index. -/
theorem foldlM_set {ranges : List Nat} {limit : Nat} {codeBook : CodeBook}
    (h : Layout ranges codeBook.numWords limit codeBook.entries) (sets : List (Nat × Nat))
    (hsets : ∀ s ∈ sets, ∃ range, ranges[s.1]? = some range ∧ s.2 < range) {words : List Word}
    {value : Nat → Nat} (hrep : Represents ranges codeBook words value) :
    ∃ words', sets.foldlM (fun words s => set codeBook words s.1 s.2) words = .ok words' ∧
      Represents ranges codeBook words' fun i =>
        sets.foldl (fun value s => if s.1 = i then s.2 else value) (value i) := by
  induction sets generalizing words value with
  | nil => exact ⟨words, rfl, hrep⟩
  | cons s sets ih =>
      obtain ⟨range, hr, hvalue⟩ := hsets s (by simp)
      obtain ⟨words₁, hset, hlength, hself, hother⟩ := set_spec h hrep.length hr hvalue
      have hrep₁ : Represents ranges codeBook words₁ fun i => if s.1 = i then s.2 else value i := by
        refine ⟨hlength, fun i hi => ?_⟩
        by_cases heq : s.1 = i
        · rw [if_pos heq, ← heq]
          exact hself
        · rw [if_neg heq, hother i (Ne.symm heq)]
          exact hrep.get_eq i hi
      obtain ⟨words', hfold, hrep'⟩ := ih (fun t ht => hsets t (by simp [ht])) hrep₁
      refine ⟨words', ?_, hrep'⟩
      rw [List.foldlM_cons, hset]
      exact hfold

/-- The vector is an array of the values that were set last, in fields that do not cross the end
    of a word; a range of one takes no bits. -/
theorem compressed_integer_vector_faithful {ranges : List Nat}
    (hranges : ∀ range ∈ ranges, 0 < range ∧ range ≤ 2 ^ 63) :
    ∃ codeBook, createCodeBook ranges = .ok codeBook ∧
      (∀ sets : List (Nat × Nat),
        (∀ s ∈ sets, ∃ range, ranges[s.1]? = some range ∧ s.2 < range) →
        ∃ words, sets.foldlM (fun words s => set codeBook words s.1 s.2) (initialWords codeBook)
            = .ok words ∧
          (∀ i, i < ranges.length → get codeBook words i = .ok (lastSet sets i)) ∧
          ∀ i range value, ranges[i]? = some range → value < range →
            ∃ words', set codeBook words i value = .ok words' ∧
              get codeBook words' i = .ok value ∧
              ∀ j, j ≠ i → get codeBook words' j = get codeBook words j) ∧
      (∀ (i range : Nat), ranges[i]? = some range →
        ∃ cbe : CodeBookEntry, codeBook.entries[i]? = some cbe ∧
          (cbe.Constant range ∨
            ∃ bits, cbe.Field range bits ∧ cbe.wordIndex < codeBook.numWords)) ∧
      ∀ state, ∃ cbe : CodeBookEntry, cbe.Constant 1 ∧
        addRange state 1 = .ok (⟨state.1.numWords, state.1.entries ++ [cbe]⟩, state.2) := by
  obtain ⟨codeBook, limit, hcreate, hlayout⟩ := createCodeBook_layout hranges
  refine ⟨codeBook, hcreate, fun sets hsets => ?_, fun i range hr => ?_, addRange_one⟩
  · obtain ⟨words, hfold, hrep⟩ := foldlM_set hlayout sets hsets (represents_initial hlayout)
    refine ⟨words, hfold, hrep.get_eq, fun i range value hr hvalue => ?_⟩
    obtain ⟨words', hset, -, hself, hother⟩ := set_spec hlayout hrep.length hr hvalue
    exact ⟨words', hset, hself, hother⟩
  · obtain ⟨cbe, he⟩ := hlayout.entry_of_range hr
    refine ⟨cbe, he, ?_⟩
    rcases hlayout.entry i range cbe hr he with hconst | ⟨bits, hfield, hword, -, -⟩
    · exact .inl hconst
    · exact .inr ⟨bits, hfield, hword⟩

/-- Ranges of which the second fills a word with the first, and the last has a bit too many. -/
theorem compressed_integer_vector_faithful_full_word :
    ∃ codeBook, createCodeBook [2, 2 ^ 63, 1, 3] = .ok codeBook ∧
      ∃ words, [(1, 5), (0, 1), (3, 2), (1, 7)].foldlM
          (fun words s => set codeBook words s.1 s.2) (initialWords codeBook) = .ok words ∧
        get codeBook words 1 = .ok 7 := by
  have hranges : ∀ range ∈ [2, 2 ^ 63, 1, 3], 0 < range ∧ range ≤ 2 ^ 63 := by decide
  obtain ⟨codeBook, hcreate, hruns, -, -⟩ := compressed_integer_vector_faithful hranges
  obtain ⟨words, hfold, hget, -⟩ := hruns [(1, 5), (0, 1), (3, 2), (1, 7)] (by
    intro s hs
    simp only [List.mem_cons, List.not_mem_nil, or_false] at hs
    rcases hs with rfl | rfl | rfl | rfl <;> exact ⟨_, rfl, by decide⟩)
  exact ⟨codeBook, hcreate, words, hfold, hget 1 (by decide)⟩

end Kanagawa.Search
