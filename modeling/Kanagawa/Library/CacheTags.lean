/-
  Kanagawa.Library.CacheTags

  The tags of a cache, of `data/cache/internal.k`.

  A key is looked up in the set that its hash names.  It takes a way of that set
  when it is not there: one that is not valid, or the one that was used the
  longest time ago.
-/
import Kanagawa.Lib.Runs
import Kanagawa.Library.Arrays
import Kanagawa.Library.Basic

namespace Kanagawa.Library

open Kanagawa.Runs

/-- `cache_entry` -/
structure CacheEntry (Key LUtime : Type) where
  valid : Bool
  unwritten : Bool
  lastUsed : LUtime
  key : Key
  deriving Inhabited

/-- `cache_entry_with_index` -/
structure CacheEntryWithIndex (LUtime : Type) where
  valid : Bool
  unwritten : Bool
  lastUsed : LUtime
  index : Nat

/-- `ReduceEntryForInsertion` -/
def reduceEntryForInsertion {LUtime : Type} [LT LUtime] [DecidableLT LUtime]
    (x y : CacheEntryWithIndex LUtime) : CacheEntryWithIndex LUtime :=
  if !x.valid then x
  else if !y.valid then y
  else if x.lastUsed < y.lastUsed then x
  else y

/-- `cache_tags_get_result` -/
structure CacheTagsGetResult (Key : Type) where
  idx : Nat
  hit : Bool
  keyToWrite : Option Key

/-- `cache_tags<Key, LUtime, Associativity, Depth>`, where `Depth` is the number of sets times the
associativity. -/
structure CacheTags (Key LUtime : Type) (associativity setCount : Nat) where
  /-- `m_tags` -/
  tags : Memory (Vector (CacheEntry Key LUtime) associativity) setCount

namespace CacheTags

variable {Key LUtime : Type} [DecidableEq Key] [Inhabited Key] [LT LUtime] [DecidableLT LUtime]
  [Inhabited LUtime] {associativity setCount : Nat}

/-- `IsValidMatch` -/
def isValidMatch (entry : CacheEntry Key LUtime) (key : Key) : Bool :=
  entry.valid && entry.key == key

/-- `FindKey` -/
def findKey (tag : Vector (CacheEntry Key LUtime) associativity) (key : Key) : Option Nat :=
  highestOne (tag.toList.map (isValidMatch · key))

/-- `MapToEntryWithIndex` -/
def mapToEntryWithIndex (idx : Nat) (entry : CacheEntry Key LUtime) : CacheEntryWithIndex LUtime :=
  ⟨entry.valid, entry.unwritten, entry.lastUsed, idx⟩

/-- `GetIndexForNewEntry` -/
def getIndexForNewEntry (tag : Vector (CacheEntry Key LUtime) associativity) : Option Nat :=
  (reduce reduceEntryForInsertion (tag.toList.mapIdx mapToEntryWithIndex)).map (·.index)

/-- The tag that `InitializeCacheTag` writes; `zero` is the time 0. -/
def initializeTag (zero : LUtime) : Vector (CacheEntry Key LUtime) associativity :=
  Vector.replicate _ ⟨false, false, zero, default⟩

/-- `initialize` -/
def initialized (zero : LUtime) (t : CacheTags Key LUtime associativity setCount) :
    CacheTags Key LUtime associativity setCount :=
  (List.range setCount).foldl (fun t i => ⟨t.tags.write i (initializeTag zero)⟩) t

/-- The tag of a set. -/
def tag (t : CacheTags Key LUtime associativity setCount) (setIndex : Nat) :
    Vector (CacheEntry Key LUtime) associativity :=
  t.tags.read setIndex default

/-- An entry of a set. -/
def entry (t : CacheTags Key LUtime associativity setCount) (setIndex way : Nat) :
    CacheEntry Key LUtime :=
  arrayRead (t.tag setIndex) default way

/-- An entry of a set is written back. -/
def setEntry (t : CacheTags Key LUtime associativity setCount) (setIndex way : Nat)
    (entry : CacheEntry Key LUtime) : CacheTags Key LUtime associativity setCount :=
  ⟨t.tags.write setIndex ((t.tag setIndex).setIfInBounds way entry)⟩

/-- `get`, with the reading of the clock in an `LUtime`. -/
def get (t : CacheTags Key LUtime associativity setCount) (key : Key) (setIndex : Nat)
    (markAsUnwritten : Bool) (cycleCount : LUtime) :
    CacheTagsGetResult Key × CacheTags Key LUtime associativity setCount :=
  match findKey (t.tag setIndex) key with
  | some idx =>
    let entry := t.entry setIndex idx
    (⟨idx, true, none⟩, t.setEntry setIndex idx
      { entry with lastUsed := cycleCount, unwritten := markAsUnwritten })
  | none =>
    let idx := (getIndexForNewEntry (t.tag setIndex)).getD 0
    let evicted := t.entry setIndex idx
    (⟨idx, false, if evicted.unwritten then some evicted.key else none⟩, t.setEntry setIndex idx
      { valid := true, key, lastUsed := cycleCount, unwritten := markAsUnwritten })

/-- `get_and_clear_unwritten_key` -/
def getAndClearUnwrittenKey (t : CacheTags Key LUtime associativity setCount)
    (setIndex entryIndex : Nat) : Option Key × CacheTags Key LUtime associativity setCount :=
  let entry := t.entry setIndex entryIndex
  (if entry.unwritten then some entry.key else none,
    t.setEntry setIndex entryIndex { entry with unwritten := false })

/-! ## Entries -/

section Entries

variable (t : CacheTags Key LUtime associativity setCount) {setIndex way : Nat}

omit [DecidableEq Key] [LT LUtime] [DecidableLT LUtime] in
theorem entry_setEntry_self (hset : setIndex < setCount) (hway : way < associativity)
    (e : CacheEntry Key LUtime) : (t.setEntry setIndex way e).entry setIndex way = e := by
  simp only [entry, tag, setEntry, Memory.read_write_self _ hset, arrayRead_of_lt _ _ hway,
    Vector.getElem_setIfInBounds_self]

omit [DecidableEq Key] [LT LUtime] [DecidableLT LUtime] in
theorem entry_setEntry_of_ne {setIndex' way' : Nat} (hway' : way' < associativity)
    (hne : (setIndex, way) ≠ (setIndex', way')) (e : CacheEntry Key LUtime) :
    (t.setEntry setIndex way e).entry setIndex' way' = t.entry setIndex' way' := by
  by_cases hset : setIndex = setIndex'
  · subst hset
    have hne' : way ≠ way' := fun h => hne (by rw [h])
    by_cases hlt : setIndex < setCount
    · simp only [entry, tag, setEntry, Memory.read_write_self _ hlt, arrayRead_of_lt _ _ hway']
      exact Vector.getElem_setIfInBounds_ne _ hne'
    · simp only [entry, tag, setEntry, Memory.read, Memory.write,
        Vector.setIfInBounds_eq_of_size_le (Nat.le_of_not_lt hlt)]
  · simp only [entry, tag, setEntry, Memory.read_write_of_ne _ hset]

end Entries

section Lookup

variable (t : CacheTags Key LUtime associativity setCount) {setIndex : Nat} {key : Key}

omit [LT LUtime] [DecidableLT LUtime] in
/-- A way that is found has the key and is valid. -/
theorem entry_of_findKey {idx : Nat} (h : findKey (t.tag setIndex) key = some idx) :
    idx < associativity ∧ (t.entry setIndex idx).valid = true ∧
      (t.entry setIndex idx).key = key := by
  have hbit := getElem?_of_highestOne h
  obtain ⟨hlt, hmatch⟩ := List.getElem?_eq_some_iff.mp hbit
  rw [List.length_map, Vector.length_toList] at hlt
  rw [List.getElem_map, Vector.getElem_toList, isValidMatch, Bool.and_eq_true,
    beq_iff_eq] at hmatch
  rw [entry, arrayRead_of_lt _ _ hlt]
  exact ⟨hlt, hmatch⟩

omit [LT LUtime] [DecidableLT LUtime] in
/-- When no way is found, no valid entry of the set has the key. -/
theorem not_entry_of_findKey (h : findKey (t.tag setIndex) key = none) {way : Nat}
    (hway : way < associativity) (hvalid : (t.entry setIndex way).valid = true) :
    (t.entry setIndex way).key ≠ key := by
  rintro rfl
  rw [findKey, highestOne_eq_none_iff, List.mem_map] at h
  refine h ⟨(t.tag setIndex)[way], by simp, ?_⟩
  rw [entry, arrayRead_of_lt _ _ hway] at hvalid ⊢
  rw [isValidMatch, hvalid, beq_self_eq_true, Bool.and_self]

omit [DecidableEq Key] [Inhabited Key] [Inhabited LUtime] in
/-- There is a way for a new entry. -/
theorem exists_getIndexForNewEntry (hpos : 0 < associativity)
    (tag : Vector (CacheEntry Key LUtime) associativity) :
    ∃ idx < associativity, getIndexForNewEntry tag = some idx := by
  have hselects : ∀ x y : CacheEntryWithIndex LUtime,
      reduceEntryForInsertion x y = x ∨ reduceEntryForInsertion x y = y := by
    intro x y
    unfold reduceEntryForInsertion
    split_ifs <;> simp
  have hlength : (tag.toList.mapIdx mapToEntryWithIndex).length = associativity := by simp
  obtain ⟨z, hz, hreduce⟩ := exists_reduce hselects (hlength.symm ▸ hpos)
  obtain ⟨idx, hidx, rfl⟩ := List.mem_mapIdx.mp hz
  rw [Vector.length_toList] at hidx
  exact ⟨idx, hidx, by rw [getIndexForNewEntry, hreduce]; rfl⟩

/-- What `get` does: the way it returns holds the key, and no other entry changes. The key was
there, or no entry had it and the entry that was there is evicted. -/
theorem get_spec (key : Key) (hpos : 0 < associativity) (hset : setIndex < setCount) (mark : Bool)
    (cycleCount : LUtime) :
    let r := (t.get key setIndex mark cycleCount).1
    let t' := (t.get key setIndex mark cycleCount).2
    r.idx < associativity ∧
    t'.entry setIndex r.idx = ⟨true, mark, cycleCount, key⟩ ∧
    (∀ setIndex' way, way < associativity → (setIndex, r.idx) ≠ (setIndex', way) →
      t'.entry setIndex' way = t.entry setIndex' way) ∧
    ((r.hit = true ∧ (t.entry setIndex r.idx).valid = true ∧
        (t.entry setIndex r.idx).key = key ∧ r.keyToWrite = none) ∨
      (r.hit = false ∧
        (∀ way < associativity, (t.entry setIndex way).valid = true →
          (t.entry setIndex way).key ≠ key) ∧
        r.keyToWrite = if (t.entry setIndex r.idx).unwritten then
          some (t.entry setIndex r.idx).key else none)) := by
  cases hfind : findKey (t.tag setIndex) key with
  | some idx =>
    obtain ⟨hlt, hvalid, hkey⟩ := t.entry_of_findKey hfind
    simp only [get, hfind]
    refine ⟨hlt, ?_, ?_, .inl ⟨trivial, hvalid, hkey, trivial⟩⟩
    · rw [t.entry_setEntry_self hset hlt, hvalid, hkey]
    · intro setIndex' way hway hne
      exact t.entry_setEntry_of_ne hway hne _
  | none =>
    obtain ⟨idx, hlt, hidx⟩ := exists_getIndexForNewEntry hpos (t.tag setIndex)
    simp only [get, hfind, hidx, Option.getD_some]
    refine ⟨hlt, t.entry_setEntry_self hset hlt _, ?_, .inr ⟨trivial, ?_, trivial⟩⟩
    · intro setIndex' way hway hne
      exact t.entry_setEntry_of_ne hway hne _
    · intro way hway hvalid
      exact t.not_entry_of_findKey hfind hway hvalid

end Lookup

/-! ## The invariant -/

/-- Every valid entry is in the set of its key, no key is valid in two entries of a set, and an
entry that is unwritten is valid. -/
structure Inv (hash : Key → Nat) (t : CacheTags Key LUtime associativity setCount) : Prop where
  placed : ∀ setIndex < setCount, ∀ way < associativity,
    (t.entry setIndex way).valid = true → hash (t.entry setIndex way).key = setIndex
  unique : ∀ setIndex < setCount, ∀ way < associativity, ∀ way' < associativity,
    (t.entry setIndex way).valid = true → (t.entry setIndex way').valid = true →
    (t.entry setIndex way).key = (t.entry setIndex way').key → way = way'
  unwritten : ∀ setIndex < setCount, ∀ way < associativity,
    (t.entry setIndex way).unwritten = true → (t.entry setIndex way).valid = true

section Inv

variable {hash : Key → Nat} {t : CacheTags Key LUtime associativity setCount}

omit [DecidableEq Key] [LT LUtime] [DecidableLT LUtime] in
/-- `initialize` leaves no valid entry. -/
theorem entry_initialized (zero : LUtime) {setIndex way : Nat} (hset : setIndex < setCount)
    (hway : way < associativity) :
    (t.initialized zero).entry setIndex way = ⟨false, false, zero, default⟩ := by
  have htag : (t.initialized zero).tag setIndex = initializeTag zero := by
    refine foldl_establishes (P := fun i t => i < setCount → t.tag i = initializeTag zero) ?_ ?_
      (List.mem_range.mpr hset) t hset
    · intro t i hi
      exact Memory.read_write_self _ hi _ _
    · intro t i j hij ht hi
      exact (Memory.read_write_of_ne _ (Ne.symm hij) _ _).trans (ht hi)
  rw [entry, htag, arrayRead_of_lt _ _ hway, initializeTag, Vector.getElem_replicate]

omit [DecidableEq Key] [LT LUtime] [DecidableLT LUtime] in
theorem inv_initialized (zero : LUtime) : (t.initialized zero).Inv hash where
  placed setIndex hset way hway hvalid := by
    rw [entry_initialized zero hset hway] at hvalid
    exact absurd hvalid Bool.false_ne_true
  unique setIndex hset way hway way' _ hvalid := by
    rw [entry_initialized zero hset hway] at hvalid
    exact absurd hvalid Bool.false_ne_true
  unwritten setIndex hset way hway hunwritten := by
    rw [entry_initialized zero hset hway] at hunwritten
    exact absurd hunwritten Bool.false_ne_true

/-- A lookup keeps the invariant. -/
theorem Inv.get (h : t.Inv hash) (hpos : 0 < associativity) {key : Key}
    (hhash : hash key < setCount) (mark : Bool) (cycleCount : LUtime) :
    (t.get key (hash key) mark cycleCount).2.Inv hash := by
  obtain ⟨hidx, hself, hother, hcase⟩ := t.get_spec key hpos hhash mark cycleCount
  generalize hr : (t.get key (hash key) mark cycleCount).1 = r at hidx hself hother hcase
  generalize (t.get key (hash key) mark cycleCount).2 = t' at hself hother ⊢
  -- No entry but that of the result has the key.
  have hfresh : ∀ way < associativity, way ≠ r.idx → (t.entry (hash key) way).valid = true →
      (t.entry (hash key) way).key ≠ key := by
    intro way hway hne hvalid hkey
    rcases hcase with ⟨-, hvalid', hkey', -⟩ | ⟨-, hnone, -⟩
    · exact hne (h.unique _ hhash way hway r.idx hidx hvalid hvalid' (hkey.trans hkey'.symm))
    · exact hnone way hway hvalid hkey
  constructor
  · intro setIndex hset way hway hvalid
    by_cases heq : (hash key, r.idx) = (setIndex, way)
    · rw [Prod.mk.injEq] at heq
      rw [← heq.1, ← heq.2, hself]
    · rw [hother setIndex way hway heq] at hvalid ⊢
      exact h.placed setIndex hset way hway hvalid
  · intro setIndex hset way hway way' hway' hvalid hvalid' hkey
    by_cases heq : (hash key, r.idx) = (setIndex, way)
    · by_cases heq' : (hash key, r.idx) = (setIndex, way')
      · rw [Prod.mk.injEq] at heq heq'
        exact heq.2.symm.trans heq'.2
      · rw [Prod.mk.injEq] at heq
        obtain ⟨rfl, rfl⟩ := heq
        rw [hself, hother _ way' hway' heq'] at hkey
        rw [hother _ way' hway' heq'] at hvalid'
        exact absurd hkey.symm (hfresh way' hway' (fun h => heq' (by rw [h])) hvalid')
    · by_cases heq' : (hash key, r.idx) = (setIndex, way')
      · rw [Prod.mk.injEq] at heq'
        obtain ⟨rfl, rfl⟩ := heq'
        rw [hself, hother _ way hway heq] at hkey
        rw [hother _ way hway heq] at hvalid
        exact absurd hkey (hfresh way hway (fun h => heq (by rw [h])) hvalid)
      · rw [hother _ way hway heq] at hvalid hkey
        rw [hother _ way' hway' heq'] at hvalid' hkey
        exact h.unique setIndex hset way hway way' hway' hvalid hvalid' hkey
  · intro setIndex hset way hway hunwritten
    by_cases heq : (hash key, r.idx) = (setIndex, way)
    · rw [Prod.mk.injEq] at heq
      rw [← heq.1, ← heq.2, hself]
    · rw [hother setIndex way hway heq] at hunwritten ⊢
      exact h.unwritten setIndex hset way hway hunwritten

end Inv

end CacheTags

end Kanagawa.Library
