/-
  Kanagawa.Library.Cache

  The caches of `data/cache/read_only.k`, `data/cache/write_through.k` and
  `data/cache/write_only.k` are transparent.

  The callbacks of a cache read and write its backing store, which nothing else
  changes.  Calls are made one after another, each with some reading of the
  clock, after `initialize` of memories with any content.
-/
import Kanagawa.Library.CacheTags
import Kanagawa.Library.PipelinedMemory

namespace Kanagawa.Library

open Kanagawa.Runs

/-! ## Data of entries -/

/-- The index into the data memory: `set_index * Associativity + way_index`. -/
def dataIndex (associativity setIndex way : Nat) : Nat := setIndex * associativity + way

section Data

variable {associativity setCount setIndex way setIndex' way' : Nat}

theorem dataIndex_lt (hset : setIndex < setCount) (hway : way < associativity) :
    dataIndex associativity setIndex way < setCount * associativity := by
  have hle : (setIndex + 1) * associativity ≤ setCount * associativity :=
    Nat.mul_le_mul_right _ hset
  rw [Nat.add_mul, Nat.one_mul] at hle
  rw [dataIndex]
  omega

theorem dataIndex_inj (hway : way < associativity) (hway' : way' < associativity)
    (h : dataIndex associativity setIndex way = dataIndex associativity setIndex' way') :
    (setIndex, way) = (setIndex', way') := by
  have hpos : 0 < associativity := Nat.zero_lt_of_lt hway
  have hset : setIndex = setIndex' := by
    have hdiv := congrArg (· / associativity) h
    simpa [dataIndex, Nat.mul_comm _ associativity, Nat.mul_add_div hpos,
      Nat.div_eq_of_lt hway, Nat.div_eq_of_lt hway'] using hdiv
  subst hset
  rw [dataIndex, dataIndex, Nat.add_left_cancel_iff] at h
  rw [h]

/-- Below a power of two, bits that do not overlap are added. -/
theorem or_eq_dataIndex (setIndex : Nat) {a : Nat} (hpow : associativity = 2 ^ a) (hway : way < associativity) :
    setIndex * associativity ||| way = dataIndex associativity setIndex way := by
  subst hpow
  rw [dataIndex, Nat.mul_comm setIndex, Nat.two_pow_add_eq_or_of_lt hway]

end Data

namespace CacheTags

variable {Key LUtime V : Type} [DecidableEq Key] [Inhabited Key] [LT LUtime] [DecidableLT LUtime]
  [Inhabited LUtime] {associativity setCount : Nat}

/-- The data of every valid entry is as `P` says. -/
def HoldsData (P : CacheEntry Key LUtime → V → Prop)
    (t : CacheTags Key LUtime associativity setCount) (content : Nat → V) : Prop :=
  ∀ setIndex < setCount, ∀ way < associativity, (t.entry setIndex way).valid = true →
    P (t.entry setIndex way) (content (dataIndex associativity setIndex way))

/-- A lookup followed by an update of the data of its result. The other entries have other keys
than that of the lookup and that of the entry it evicts. -/
theorem HoldsData.get {P Q : CacheEntry Key LUtime → V → Prop}
    {t : CacheTags Key LUtime associativity setCount} {hash : Key → Nat} {content : Nat → V}
    (h : t.HoldsData P content) (hinv : t.Inv hash) (hpos : 0 < associativity) {key : Key}
    (hhash : hash key < setCount) (mark : Bool) (cycleCount : LUtime) {content' : Nat → V}
    (hself : Q ⟨true, mark, cycleCount, key⟩ (content' (dataIndex associativity (hash key)
      (t.get key (hash key) mark cycleCount).1.idx)))
    (hcontent : ∀ i, i ≠ dataIndex associativity (hash key)
      (t.get key (hash key) mark cycleCount).1.idx → content' i = content i)
    (hother : ∀ e v, e.valid = true → e.key ≠ key →
      ((t.entry (hash key) (t.get key (hash key) mark cycleCount).1.idx).valid = true →
        e.key ≠ (t.entry (hash key) (t.get key (hash key) mark cycleCount).1.idx).key) →
      P e v → Q e v) :
    (t.get key (hash key) mark cycleCount).2.HoldsData Q content' := by
  obtain ⟨hidx, hnew, hkeep, hcase⟩ := t.get_spec key hpos hhash mark cycleCount
  generalize (t.get key (hash key) mark cycleCount).1 = r at *
  generalize (t.get key (hash key) mark cycleCount).2 = t' at *
  intro setIndex hset way hway hvalid
  by_cases heq : (hash key, r.idx) = (setIndex, way)
  · rw [Prod.mk.injEq] at heq
    rw [← heq.1, ← heq.2, hnew]
    exact hself
  · have hne : dataIndex associativity setIndex way ≠ dataIndex associativity (hash key) r.idx :=
      fun hi => heq (dataIndex_inj hway hidx hi).symm
    rw [hkeep setIndex way hway heq] at hvalid ⊢
    rw [hcontent _ hne]
    -- Entries with one key are in one set, and there in one way.
    have hdistinct : ∀ way' < associativity, (hash key, way') ≠ (setIndex, way) →
        (t.entry (hash key) way').valid = true →
        (t.entry setIndex way).key ≠ (t.entry (hash key) way').key := by
      intro way' hway' hne' hvalid' hkey
      have hplaced := hinv.placed setIndex hset way hway hvalid
      have hplaced' := hinv.placed _ hhash way' hway' hvalid'
      rw [hkey, hplaced'] at hplaced
      subst hplaced
      exact hne' (by rw [hinv.unique _ hhash way hway way' hway' hvalid hvalid' hkey])
    refine hother _ _ hvalid ?_ (hdistinct r.idx hidx heq) (h setIndex hset way hway hvalid)
    intro hkey
    rcases hcase with ⟨-, hvalid', hkey', -⟩ | ⟨-, hnone, -⟩
    · exact hdistinct r.idx hidx heq hvalid' (hkey.trans hkey'.symm)
    · have hplaced := hinv.placed setIndex hset way hway hvalid
      rw [hkey] at hplaced
      subst hplaced
      exact hnone way hway hvalid hkey

end CacheTags

/-! ## Read-only -/

/-- `read_only::cache` -/
structure ReadOnlyCache (Key Value LUtime : Type)
    (associativity setCount banks elementsPerBank : Nat) where
  /-- `_tags` -/
  tags : CacheTags Key LUtime associativity setCount
  /-- `_data` -/
  data : PipelinedMemory Value banks elementsPerBank

namespace ReadOnlyCache

variable {Key Value LUtime : Type} [DecidableEq Key] [Inhabited Key] [Inhabited Value]
  [LT LUtime] [DecidableLT LUtime] [Inhabited LUtime]
  {associativity setCount banks elementsPerBank : Nat}

/-- `get` -/
def get (load : Key → Value)
    (c : ReadOnlyCache Key Value LUtime associativity setCount banks elementsPerBank)
    (key : Key) (setIndex : Nat) (cycleCount : LUtime) :
    Value × ReadOnlyCache Key Value LUtime associativity setCount banks elementsPerBank :=
  let (getResult, tags) := c.tags.get key setIndex false cycleCount
  let val := if !getResult.hit then load key else default
  let index := setIndex * associativity ||| getResult.idx
  let (result, data) := c.data.atomically index fun prev => if !getResult.hit then val else prev
  (result.2, { tags, data })

/-- A cache with the results of the calls made so far, and what they should be. -/
structure State (Key Value LUtime : Type)
    (associativity setCount banks elementsPerBank : Nat) where
  cache : ReadOnlyCache Key Value LUtime associativity setCount banks elementsPerBank
  results : List Value := []
  expected : List Value := []

/-- Calls of `get` with any keys and any readings of the clock. -/
def system (load : Key → Value) (hash : Key → Nat) (zero : LUtime)
    (content : ReadOnlyCache Key Value LUtime associativity setCount banks elementsPerBank) :
    System (State Key Value LUtime associativity setCount banks elementsPerBank)
      (Key × LUtime) where
  start := { cache := { content with tags := content.tags.initialized zero } }
  Enabled _ _ := True
  next s call :=
    let (value, cache) := s.cache.get load call.1 (hash call.1) call.2
    { cache, results := s.results ++ [value], expected := s.expected ++ [load call.1] }

structure Inv (load : Key → Value) (hash : Key → Nat)
    (s : State Key Value LUtime associativity setCount banks elementsPerBank) : Prop where
  tags : s.cache.tags.Inv hash
  data : s.cache.tags.HoldsData (fun e v => v = load e.key) s.cache.data.read
  results : s.results = s.expected

theorem invariant (load : Key → Value) {hash : Key → Nat} (hhash : ∀ key, hash key < setCount)
    {a : Nat} (hpow : associativity = 2 ^ a)
    (hdepth : banks * elementsPerBank = setCount * associativity) (zero : LUtime)
    (content : ReadOnlyCache Key Value LUtime associativity setCount banks elementsPerBank) :
    (system load hash zero content).Invariant (Inv load hash) where
  start := by
    refine ⟨CacheTags.inv_initialized zero, ?_, rfl⟩
    intro setIndex hset way hway hvalid
    simp only [system, CacheTags.entry_initialized zero hset hway, Bool.false_eq_true] at hvalid
  step s call h _ := by
    obtain ⟨key, cycleCount⟩ := call
    have hpos : 0 < associativity := hpow ▸ Nat.two_pow_pos a
    obtain ⟨hidx, -, -, hcase⟩ :=
      s.cache.tags.get_spec key hpos (hhash key) false cycleCount
    have hindex := or_eq_dataIndex (hash key) hpow hidx
    have hlt := hdepth ▸ dataIndex_lt (hhash key) hidx
    simp only [system, get, PipelinedMemory.atomically, hindex]
    -- The new value is what `load` returns: it was loaded, or the entry was there.
    have hvalue : (if !(s.cache.tags.get key (hash key) false cycleCount).1.hit then
          (if !(s.cache.tags.get key (hash key) false cycleCount).1.hit then load key
            else default)
        else s.cache.data.read (dataIndex associativity (hash key)
          (s.cache.tags.get key (hash key) false cycleCount).1.idx)) = load key := by
      rcases hcase with ⟨hhit, hvalid, hkey, -⟩ | ⟨hhit, -, -⟩
      · have hdata := h.data _ (hhash key) _ hidx hvalid
        simp only [hhit, Bool.not_true, if_false, Bool.false_eq_true]
        rw [hdata, hkey]
      · simp only [hhit, Bool.not_false, if_true]
    refine ⟨h.tags.get hpos (hhash key) false cycleCount, ?_, ?_⟩
    · refine h.data.get h.tags hpos (hhash key) false cycleCount ?_ ?_ ?_
      · exact (s.cache.data.read_write_self hlt _).trans hvalue
      · intro i hi
        exact s.cache.data.read_write_of_ne (Ne.symm hi) _
      · intro e v _ _ _ hv
        exact hv
    · rw [h.results, hvalue]

end ReadOnlyCache

/-! ## Write-through -/

/-- `write_through::cache` with its backing store. -/
structure WriteThroughCache (Key Value LUtime : Type) (associativity setCount : Nat) where
  /-- `_tags` -/
  tags : CacheTags Key LUtime associativity setCount
  /-- `m_data` -/
  data : Memory Value (setCount * associativity)
  /-- What `load` returns, and `store` changes. -/
  backing : Key → Value

namespace WriteThroughCache

variable {Key Value LUtime : Type} [DecidableEq Key] [Inhabited Key] [Inhabited Value]
  [LT LUtime] [DecidableLT LUtime] [Inhabited LUtime] {associativity setCount : Nat}

/-- `store_value_in_cache` -/
def storeValueInCache (data : Memory Value (setCount * associativity)) (setIndex entryIndex : Nat)
    (newValue : Value) (readFromCache : Bool) :
    Value × Memory Value (setCount * associativity) :=
  let index := dataIndex associativity setIndex entryIndex
  let dataInCache := data.read index default
  if readFromCache then (dataInCache, data.write index dataInCache)
  else (newValue, data.write index newValue)

/-- `get_or_put` -/
def getOrPut (c : WriteThroughCache Key Value LUtime associativity setCount) (isGet : Bool)
    (key : Key) (setIndex : Nat) (value : Value) (cycleCount : LUtime) :
    Value × WriteThroughCache Key Value LUtime associativity setCount :=
  let (getResult, tags) := c.tags.get key setIndex false cycleCount
  if isGet then
    let value := if !getResult.hit then c.backing key else value
    let (result, data) := storeValueInCache c.data setIndex getResult.idx value getResult.hit
    (result, { c with tags, data })
  else
    let backing := Function.update c.backing key value
    let (result, data) := storeValueInCache c.data setIndex getResult.idx value false
    (result, { tags, data, backing })

/-- `get` -/
def get (c : WriteThroughCache Key Value LUtime associativity setCount) (key : Key)
    (setIndex : Nat) (cycleCount : LUtime) :
    Value × WriteThroughCache Key Value LUtime associativity setCount :=
  c.getOrPut true key setIndex default cycleCount

/-- `put` -/
def put (c : WriteThroughCache Key Value LUtime associativity setCount) (key : Key)
    (setIndex : Nat) (value : Value) (cycleCount : LUtime) :
    WriteThroughCache Key Value LUtime associativity setCount :=
  (c.getOrPut false key setIndex value cycleCount).2

inductive Call (Key Value LUtime : Type) where
  | get (key : Key) (cycleCount : LUtime)
  | put (key : Key) (value : Value) (cycleCount : LUtime)

/-- A cache with the value last put for each key, the results of the calls of `get` made so far,
and what they should be. -/
structure State (Key Value LUtime : Type) (associativity setCount : Nat) where
  cache : WriteThroughCache Key Value LUtime associativity setCount
  lastPut : Key → Option Value := fun _ => none
  results : List Value := []
  expected : List Value := []

/-- Calls with any keys, values and readings of the clock. A `get` should return the value last
put for its key or, if there is none, what `load` returns. -/
def system (load : Key → Value) (hash : Key → Nat) (zero : LUtime)
    (tags : CacheTags Key LUtime associativity setCount)
    (data : Memory Value (setCount * associativity)) :
    System (State Key Value LUtime associativity setCount) (Call Key Value LUtime) where
  start := { cache := { tags := tags.initialized zero, data, backing := load } }
  Enabled _ _ := True
  next
    | s, .get key cycleCount =>
      let (value, cache) := s.cache.get key (hash key) cycleCount
      { s with cache, results := s.results ++ [value]
               expected := s.expected ++ [(s.lastPut key).getD (load key)] }
    | s, .put key value cycleCount =>
      { s with cache := s.cache.put key (hash key) value cycleCount
               lastPut := Function.update s.lastPut key (some value) }

structure Inv (load : Key → Value) (hash : Key → Nat)
    (s : State Key Value LUtime associativity setCount) : Prop where
  tags : s.cache.tags.Inv hash
  data : s.cache.tags.HoldsData (fun e v => v = s.cache.backing e.key)
    (s.cache.data.read · default)
  backing : ∀ key, s.cache.backing key = (s.lastPut key).getD (load key)
  results : s.results = s.expected

omit [DecidableEq Key] [LT LUtime] [DecidableLT LUtime] in
/-- What `store_value_in_cache` returns is what it leaves in the cache. -/
theorem read_storeValueInCache (data : Memory Value (setCount * associativity))
    {setIndex entryIndex : Nat} (hset : setIndex < setCount) (hway : entryIndex < associativity)
    (newValue : Value) (readFromCache : Bool) :
    let r := storeValueInCache data setIndex entryIndex newValue readFromCache
    r.1 = (if readFromCache then data.read (dataIndex associativity setIndex entryIndex) default
      else newValue) ∧
    r.2.read (dataIndex associativity setIndex entryIndex) default = r.1 ∧
    ∀ i, i ≠ dataIndex associativity setIndex entryIndex →
      r.2.read i default = data.read i default := by
  have hlt := dataIndex_lt hset hway
  cases readFromCache with
  | true =>
    refine ⟨rfl, Memory.read_write_self _ hlt _ _, fun i hi => ?_⟩
    exact Memory.read_write_of_ne _ (Ne.symm hi) _ _
  | false =>
    refine ⟨rfl, Memory.read_write_self _ hlt _ _, fun i hi => ?_⟩
    exact Memory.read_write_of_ne _ (Ne.symm hi) _ _

theorem Inv.get {load : Key → Value} {hash : Key → Nat}
    {s : State Key Value LUtime associativity setCount} (h : Inv load hash s)
    (hhash : ∀ key, hash key < setCount) (hpos : 0 < associativity) (zero : LUtime)
    (tags : CacheTags Key LUtime associativity setCount)
    (data : Memory Value (setCount * associativity)) (key : Key) (cycleCount : LUtime) :
    Inv load hash ((system load hash zero tags data).next s (.get key cycleCount)) := by
  obtain ⟨hidx, -, -, hcase⟩ :=
    s.cache.tags.get_spec key hpos (hhash key) false cycleCount
  simp only [system, WriteThroughCache.get, getOrPut, if_true]
  obtain ⟨hresult, hself, hother⟩ := read_storeValueInCache s.cache.data (hhash key) hidx
    (if !(s.cache.tags.get key (hash key) false cycleCount).1.hit then s.cache.backing key
      else default) (s.cache.tags.get key (hash key) false cycleCount).1.hit
  have hvalue : (storeValueInCache s.cache.data (hash key)
      (s.cache.tags.get key (hash key) false cycleCount).1.idx
      (if !(s.cache.tags.get key (hash key) false cycleCount).1.hit then s.cache.backing key
        else default) (s.cache.tags.get key (hash key) false cycleCount).1.hit).1 =
      s.cache.backing key := by
    rw [hresult]
    rcases hcase with ⟨hhit, hvalid, hkey, -⟩ | ⟨hhit, -, -⟩
    · have hdata := h.data _ (hhash key) _ hidx hvalid
      simp only [hhit, if_true]
      exact hdata.trans (congrArg _ hkey)
    · simp only [hhit, Bool.not_false, if_true, if_false, Bool.false_eq_true]
  refine ⟨h.tags.get hpos (hhash key) false cycleCount, ?_, h.backing, ?_⟩
  · refine h.data.get h.tags hpos (hhash key) false cycleCount ?_ hother ?_
    · exact hself.trans hvalue
    · intro e v _ _ _ hv
      exact hv
  · rw [h.results, hvalue, h.backing key]

theorem Inv.put {load : Key → Value} {hash : Key → Nat}
    {s : State Key Value LUtime associativity setCount} (h : Inv load hash s)
    (hhash : ∀ key, hash key < setCount) (hpos : 0 < associativity) (zero : LUtime)
    (tags : CacheTags Key LUtime associativity setCount)
    (data : Memory Value (setCount * associativity)) (key : Key) (value : Value)
    (cycleCount : LUtime) :
    Inv load hash ((system load hash zero tags data).next s (.put key value cycleCount)) := by
  obtain ⟨hidx, -, -, -⟩ := s.cache.tags.get_spec key hpos (hhash key) false cycleCount
  simp only [system, WriteThroughCache.put, getOrPut, if_false, Bool.false_eq_true]
  obtain ⟨hresult, hself, hother⟩ := read_storeValueInCache s.cache.data (hhash key) hidx
    value false
  refine ⟨h.tags.get hpos (hhash key) false cycleCount, ?_, ?_, h.results⟩
  · refine h.data.get h.tags hpos (hhash key) false cycleCount ?_ hother ?_
    · simp only [Function.update_self]
      exact hself.trans hresult
    · -- The other entries have other keys, for which nothing was put.
      intro e v _ hkey _ hv
      exact hv.trans (Function.update_of_ne hkey _ _).symm
  · intro key'
    by_cases hkey : key' = key
    · subst hkey
      simp only [Function.update_self, Option.getD_some]
    · simp only [Function.update_of_ne hkey]
      exact h.backing key'

theorem invariant (load : Key → Value) {hash : Key → Nat} (hhash : ∀ key, hash key < setCount)
    (hpos : 0 < associativity) (zero : LUtime) (tags : CacheTags Key LUtime associativity setCount)
    (data : Memory Value (setCount * associativity)) :
    (system load hash zero tags data).Invariant (Inv load hash) where
  start := by
    refine ⟨CacheTags.inv_initialized zero, ?_, fun _ => rfl, rfl⟩
    intro setIndex hset way hway hvalid
    simp only [system, CacheTags.entry_initialized zero hset hway, Bool.false_eq_true] at hvalid
  step s call h _ := by
    cases call with
    | get key cycleCount => exact h.get hhash hpos zero tags data key cycleCount
    | put key value cycleCount => exact h.put hhash hpos zero tags data key value cycleCount

end WriteThroughCache

/-! ## Write-only -/

/-- What words with their enables make of a line. -/
def applyWords {Word : Type} {n : Nat} (words : Fin n → Option Word) (line : Fin n → Word) :
    Fin n → Word :=
  fun i => (words i).getD (line i)

theorem applyWords_idem {Word : Type} {n : Nat} (words : Fin n → Option Word)
    (line : Fin n → Word) : applyWords words (applyWords words line) = applyWords words line := by
  funext i
  cases h : words i <;> simp [applyWords, h]

/-- `write_only::cache` -/
structure WriteOnlyCache (Key Word LUtime : Type) (wordCount : Nat)
    (associativity setCount banks elementsPerBank : Nat) where
  /-- `_tags` -/
  tags : CacheTags Key LUtime associativity setCount
  /-- `_data` -/
  data : PipelinedMemory (Fin wordCount → Option Word) banks elementsPerBank

namespace WriteOnlyCache

variable {Key Word LUtime : Type} [DecidableEq Key] [Inhabited Key]
  [LT LUtime] [DecidableLT LUtime] [Inhabited LUtime]
  {wordCount associativity setCount banks elementsPerBank : Nat}

/-- The words of a line after a write: those written, and on a hit those that were there. -/
def mergeWords (hit : Bool) (prev words : Fin wordCount → Option Word) :
    Fin wordCount → Option Word :=
  fun i => if (words i).isSome || (prev i).isSome && hit then
    (if (words i).isSome then words i else prev i) else none

/-- `write`: the call of `store` that it makes, if any, and the cache. -/
def write (c : WriteOnlyCache Key Word LUtime wordCount associativity setCount banks
    elementsPerBank) (key : Key) (setIndex : Nat) (words : Fin wordCount → Option Word)
    (cycleCount : LUtime) :
    Option (Key × (Fin wordCount → Option Word)) ×
      WriteOnlyCache Key Word LUtime wordCount associativity setCount banks elementsPerBank :=
  let (tagResult, tags) := c.tags.get key setIndex true cycleCount
  let index := dataIndex associativity setIndex tagResult.idx
  let (prev, data) := c.data.atomically index fun prev => mergeWords tagResult.hit prev words
  (tagResult.keyToWrite.map (·, prev.1), { tags, data })

/-- One thread of `flush`: the call of `store` that it makes, if any, and the cache. -/
def flushOne (c : WriteOnlyCache Key Word LUtime wordCount associativity setCount banks
    elementsPerBank) (tid : Nat) :
    Option (Key × (Fin wordCount → Option Word)) ×
      WriteOnlyCache Key Word LUtime wordCount associativity setCount banks elementsPerBank :=
  let setIndex := tid / associativity
  let entryIndex := tid % associativity
  let (key, tags) := c.tags.getAndClearUnwrittenKey setIndex entryIndex
  (key.map (·, c.data.read (dataIndex associativity setIndex entryIndex)), { c with tags })

/-- The backing store after a call of `store`, if there is one. -/
def applyStore (call : Option (Key × (Fin wordCount → Option Word)))
    (backing : Key → Fin wordCount → Word) : Key → Fin wordCount → Word :=
  match call with
  | none => backing
  | some (key, words) => Function.update backing key (applyWords words (backing key))

inductive Call (Key Word LUtime : Type) (wordCount : Nat) where
  | write (key : Key) (words : Fin wordCount → Option Word) (cycleCount : LUtime)
  | flush

/-- A cache with its backing store, and with what the backing store should be: the effect of all
writes. -/
structure State (Key Word LUtime : Type)
    (wordCount associativity setCount banks elementsPerBank : Nat) where
  cache : WriteOnlyCache Key Word LUtime wordCount associativity setCount banks elementsPerBank
  backing : Key → Fin wordCount → Word
  written : Key → Fin wordCount → Word

/-- One thread of `flush` with its call of `store`. -/
def State.flushOne (s : State Key Word LUtime wordCount associativity setCount banks
    elementsPerBank) (tid : Nat) :
    State Key Word LUtime wordCount associativity setCount banks elementsPerBank :=
  let (call, cache) := s.cache.flushOne tid
  { s with cache, backing := applyStore call s.backing }

/-- Calls with any keys, words and readings of the clock. -/
def system (hash : Key → Nat) (zero : LUtime)
    (content : WriteOnlyCache Key Word LUtime wordCount associativity setCount banks
      elementsPerBank)
    (backing : Key → Fin wordCount → Word) :
    System (State Key Word LUtime wordCount associativity setCount banks elementsPerBank)
      (Call Key Word LUtime wordCount) where
  start :=
    { cache := { content with tags := content.tags.initialized zero }, backing, written := backing }
  Enabled _ _ := True
  next
    | s, .write key words cycleCount =>
      let (call, cache) := s.cache.write key (hash key) words cycleCount
      { cache, backing := applyStore call s.backing
        written := Function.update s.written key (applyWords words (s.written key)) }
    | s, .flush => (List.range (setCount * associativity)).foldl State.flushOne s

/-- The backing store with the unwritten entries is the effect of all writes. -/
structure Transparent (hash : Key → Nat)
    (s : State Key Word LUtime wordCount associativity setCount banks elementsPerBank) :
    Prop where
  unwritten : ∀ setIndex < setCount, ∀ way < associativity,
    (s.cache.tags.entry setIndex way).unwritten = true →
    applyWords (s.cache.data.read (dataIndex associativity setIndex way))
      (s.backing (s.cache.tags.entry setIndex way).key) =
      s.written (s.cache.tags.entry setIndex way).key
  other : ∀ key, (∀ way < associativity, (s.cache.tags.entry (hash key) way).unwritten = true →
    (s.cache.tags.entry (hash key) way).key ≠ key) → s.backing key = s.written key

/-- The words of an entry are as all writes made them, on top of the backing store. When the entry
is not unwritten the backing store has them too. -/
def EntryData (backing written : Key → Fin wordCount → Word) (e : CacheEntry Key LUtime)
    (words : Fin wordCount → Option Word) : Prop :=
  applyWords words (backing e.key) = written e.key ∧
    (e.unwritten = false → backing e.key = written e.key)

structure Inv (hash : Key → Nat)
    (s : State Key Word LUtime wordCount associativity setCount banks elementsPerBank) :
    Prop where
  tags : s.cache.tags.Inv hash
  data : s.cache.tags.HoldsData (EntryData s.backing s.written) s.cache.data.read
  other : ∀ key, (∀ way < associativity, (s.cache.tags.entry (hash key) way).unwritten = true →
    (s.cache.tags.entry (hash key) way).key ≠ key) → s.backing key = s.written key

omit [DecidableEq Key] [LT LUtime] [DecidableLT LUtime] in
theorem Inv.transparent {hash : Key → Nat}
    {s : State Key Word LUtime wordCount associativity setCount banks elementsPerBank}
    (h : Inv hash s) : Transparent hash s where
  unwritten setIndex hset way hway hunwritten :=
    (h.data setIndex hset way hway (h.tags.unwritten setIndex hset way hway hunwritten)).1
  other := h.other

/-- On a hit the new words go on top of those that were there. -/
theorem applyWords_mergeWords_true (prev words : Fin wordCount → Option Word)
    (line : Fin wordCount → Word) :
    applyWords (mergeWords true prev words) line = applyWords words (applyWords prev line) := by
  funext i
  cases hw : words i <;> cases hp : prev i <;> simp [applyWords, mergeWords, hw, hp]

/-- On a miss nothing of the line that was there is left. -/
theorem mergeWords_false (prev words : Fin wordCount → Option Word) :
    mergeWords false prev words = words := by
  funext i
  cases hw : words i <;> simp [mergeWords, hw]

section Steps

variable {hash : Key → Nat}
  {s : State Key Word LUtime wordCount associativity setCount banks elementsPerBank}

theorem Inv.write (h : Inv hash s) (hhash : ∀ key, hash key < setCount) (hpos : 0 < associativity)
    (hdepth : banks * elementsPerBank = setCount * associativity) (key : Key)
    (words : Fin wordCount → Option Word) (cycleCount : LUtime) :
    Inv hash
      { cache := (s.cache.write key (hash key) words cycleCount).2
        backing := applyStore (s.cache.write key (hash key) words cycleCount).1 s.backing
        written := Function.update s.written key (applyWords words (s.written key)) } := by
  obtain ⟨hidx, hnew, hkeep, hcase⟩ :=
    s.cache.tags.get_spec key hpos (hhash key) true cycleCount
  have htags := h.tags.get hpos (hhash key) true cycleCount
  have hlt := hdepth ▸ dataIndex_lt (hhash key) hidx
  have hentry := h.data _ (hhash key) _ hidx
  have hunwritten := h.tags.unwritten _ (hhash key) _ hidx
  simp only [WriteOnlyCache.write, PipelinedMemory.atomically]
  set r := (s.cache.tags.get key (hash key) true cycleCount).1 with hr
  set evicted := s.cache.tags.entry (hash key) r.idx with hevicted
  set prev := s.cache.data.read (dataIndex associativity (hash key) r.idx) with hprev
  set backing := applyStore (r.keyToWrite.map (·, prev)) s.backing with hbacking
  -- The call of `store` changes the backing store at the evicted key only.
  have hbacking_of_ne : ∀ k, (evicted.valid = true → k ≠ evicted.key) → backing k = s.backing k := by
    intro k hk
    rw [hbacking]
    rcases hcase with ⟨-, -, -, hnone⟩ | ⟨-, -, hsome⟩
    · rw [hnone]
      rfl
    · rw [hsome]
      split
      · rename_i hu
        exact Function.update_of_ne (hk (hunwritten hu)) _ _
      · rfl
  -- There it has what all writes made of it.
  have hbacking_evicted : evicted.valid = true → evicted.key ≠ key →
      backing evicted.key = s.written evicted.key := by
    intro hvalid hne
    rw [hbacking]
    rcases hcase with ⟨-, -, hkey, -⟩ | ⟨-, -, hsome⟩
    · exact absurd hkey hne
    · rw [hsome]
      cases hu : evicted.unwritten with
      | true =>
        simp only [if_true, Option.map_some, applyStore, Function.update_self]
        exact (hentry hvalid).1
      | false => exact (hentry hvalid).2 hu
  refine ⟨htags, ?_, ?_⟩
  · refine h.data.get h.tags hpos (hhash key) true cycleCount ?_ ?_ ?_
    · refine ⟨?_, fun hu => absurd hu Bool.noConfusion⟩
      simp only [Function.update_self]
      rw [s.cache.data.read_write_self hlt]
      rcases hcase with ⟨hhit, hvalid, hkey, hnone⟩ | ⟨hhit, hnone, -⟩
      · have hsame : backing key = s.backing key := by
          rw [hbacking, hnone]
          rfl
        rw [hhit, applyWords_mergeWords_true, hsame]
        have hdata := (hentry hvalid).1
        rw [hkey] at hdata
        rw [hdata]
      · rw [hhit, mergeWords_false, hbacking_of_ne key fun hvalid => (hnone _ hidx hvalid).symm]
        rw [h.other key fun way hway hu =>
          hnone way hway (h.tags.unwritten _ (hhash key) way hway hu)]
    · intro i hi
      exact s.cache.data.read_write_of_ne (Ne.symm hi) _
    · intro e v _ hkey hne hv
      simp only [EntryData, Function.update_of_ne hkey, hbacking_of_ne e.key hne]
      exact hv
  · intro k hk
    have hne : k ≠ key := by
      rintro rfl
      exact hk r.idx hidx (by rw [hnew]) (by rw [hnew])
    simp only [Function.update_of_ne hne]
    by_cases hevict : evicted.valid = true ∧ evicted.key = k
    · rw [← hevict.2]
      exact hbacking_evicted hevict.1 (hevict.2 ▸ hne)
    · rw [hbacking_of_ne k fun hvalid hkey => hevict ⟨hvalid, hkey.symm⟩]
      refine h.other k fun way hway hu hkey => ?_
      by_cases heq : (hash key, r.idx) = (hash k, way)
      · rw [Prod.mk.injEq] at heq
        rw [← heq.1, ← heq.2] at hu hkey
        exact hevict ⟨hunwritten hu, hkey⟩
      · have hsame := hkeep (hash k) way hway heq
        exact hk way hway (by rw [hsame]; exact hu) (by rw [hsame]; exact hkey)

omit [LT LUtime] [DecidableLT LUtime] in
/-- A thread of `flush` writes one entry out. -/
theorem Inv.flushOne (h : Inv hash s) {tid : Nat} (htid : tid < setCount * associativity) :
    Inv hash (s.flushOne tid) := by
  have hpos : 0 < associativity := Nat.pos_of_ne_zero fun h0 => by simp [h0] at htid
  have hset : tid / associativity < setCount := (Nat.div_lt_iff_lt_mul hpos).mpr htid
  have hway : tid % associativity < associativity := Nat.mod_lt _ hpos
  simp only [State.flushOne, WriteOnlyCache.flushOne, CacheTags.getAndClearUnwrittenKey]
  set setIndex := tid / associativity
  set way := tid % associativity
  set e := s.cache.tags.entry setIndex way with he
  set tags := s.cache.tags.setEntry setIndex way { e with unwritten := false } with htags
  have hself : tags.entry setIndex way = { e with unwritten := false } :=
    s.cache.tags.entry_setEntry_self hset hway _
  have hkeep : ∀ setIndex' way', way' < associativity → (setIndex, way) ≠ (setIndex', way') →
      tags.entry setIndex' way' = s.cache.tags.entry setIndex' way' := fun setIndex' way' hway' hne =>
    s.cache.tags.entry_setEntry_of_ne hway' hne _
  -- An entry has the same key and is valid as it was.
  have hkey : ∀ setIndex' way', way' < associativity →
      (tags.entry setIndex' way').key = (s.cache.tags.entry setIndex' way').key ∧
      (tags.entry setIndex' way').valid = (s.cache.tags.entry setIndex' way').valid := by
    intro setIndex' way' hway'
    by_cases heq : (setIndex, way) = (setIndex', way')
    · rw [Prod.mk.injEq] at heq
      rw [← heq.1, ← heq.2, hself]
      exact ⟨rfl, rfl⟩
    · rw [hkeep setIndex' way' hway' heq]
      exact ⟨rfl, rfl⟩
  set words := s.cache.data.read (dataIndex associativity setIndex way) with hwords
  set call := (if e.unwritten = true then some e.key else none).map (·, words) with hcall
  have hbacking : ∀ k, k ≠ e.key → applyStore call s.backing k = s.backing k := by
    intro k hk
    rw [hcall]
    split
    · exact Function.update_of_ne hk _ _
    · rfl
  have hwritten : e.valid = true → applyStore call s.backing e.key = s.written e.key := by
    intro hvalid
    have hdata := h.data setIndex hset way hway hvalid
    rw [hcall]
    cases hu : e.unwritten with
    | true =>
      simp only [if_true, Option.map_some, applyStore, Function.update_self]
      exact hdata.1
    | false => exact hdata.2 hu
  refine ⟨?_, ?_, ?_⟩
  · constructor
    · intro setIndex' hset' way' hway' hvalid
      rw [(hkey setIndex' way' hway').2] at hvalid
      rw [(hkey setIndex' way' hway').1]
      exact h.tags.placed setIndex' hset' way' hway' hvalid
    · intro setIndex' hset' way₁ hway₁ way₂ hway₂ hvalid₁ hvalid₂ heq
      rw [(hkey setIndex' way₁ hway₁).2] at hvalid₁
      rw [(hkey setIndex' way₂ hway₂).2] at hvalid₂
      rw [(hkey setIndex' way₁ hway₁).1, (hkey setIndex' way₂ hway₂).1] at heq
      exact h.tags.unique setIndex' hset' way₁ hway₁ way₂ hway₂ hvalid₁ hvalid₂ heq
    · intro setIndex' hset' way' hway' hu
      rw [(hkey setIndex' way' hway').2]
      by_cases heq : (setIndex, way) = (setIndex', way')
      · rw [Prod.mk.injEq] at heq
        rw [← heq.1, ← heq.2, hself] at hu
        exact absurd hu Bool.false_ne_true
      · rw [hkeep setIndex' way' hway' heq] at hu
        exact h.tags.unwritten setIndex' hset' way' hway' hu
  · intro setIndex' hset' way' hway' hvalid
    rw [(hkey setIndex' way' hway').2] at hvalid
    by_cases heq : (setIndex, way) = (setIndex', way')
    · rw [Prod.mk.injEq] at heq
      rw [← heq.1, ← heq.2] at hvalid ⊢
      rw [hself]
      refine ⟨?_, fun _ => hwritten hvalid⟩
      -- The words that were stored do not change the line again.
      have hdata := (h.data setIndex hset way hway hvalid).1
      simp only [hwritten hvalid]
      rw [← hdata, applyWords_idem]
    · have hne : (s.cache.tags.entry setIndex' way').key ≠ e.key ∨ e.valid = false := by
        by_contra hcon
        rw [not_or, not_not, Bool.not_eq_false] at hcon
        have hplaced := h.tags.placed setIndex' hset' way' hway' hvalid
        have hplaced' := h.tags.placed setIndex hset way hway hcon.2
        have hindex : setIndex = setIndex' := by
          rw [← hplaced, ← hplaced', hcon.1]
        subst hindex
        exact heq (by rw [h.tags.unique _ hset way hway way' hway' hcon.2 hvalid hcon.1.symm])
      have hsame : applyStore call s.backing (s.cache.tags.entry setIndex' way').key =
          s.backing (s.cache.tags.entry setIndex' way').key := by
        rcases hne with hne | hinvalid
        · exact hbacking _ hne
        · have hu : e.unwritten = false := by
            cases hu : e.unwritten with
            | false => rfl
            | true => rw [h.tags.unwritten setIndex hset way hway hu] at hinvalid; exact hinvalid
          rw [hcall, hu]
          rfl
      rw [hkeep setIndex' way' hway' heq]
      simp only [EntryData, hsame]
      exact h.data setIndex' hset' way' hway' hvalid
  · intro k hk
    by_cases hstored : e.valid = true ∧ e.key = k
    · rw [← hstored.2]
      exact hwritten hstored.1
    · have hsame : applyStore call s.backing k = s.backing k := by
        cases hu : e.unwritten with
        | false => rw [hcall, hu]; rfl
        | true =>
          have hvalid := h.tags.unwritten setIndex hset way hway hu
          exact hbacking k fun hkey => hstored ⟨hvalid, hkey.symm⟩
      simp only [hsame]
      refine h.other k fun way' hway' hu hkey' => ?_
      by_cases heq : (setIndex, way) = (hash k, way')
      · rw [Prod.mk.injEq] at heq
        rw [← heq.1, ← heq.2] at hu hkey'
        exact hstored ⟨h.tags.unwritten setIndex hset way hway hu, hkey'⟩
      · have hsame' := hkeep (hash k) way' hway' heq
        exact hk way' hway' (by rw [hsame']; exact hu) (by rw [hsame']; exact hkey')

omit [LT LUtime] [DecidableLT LUtime] in
theorem Inv.flush (h : Inv hash s) {tids : List Nat}
    (htids : ∀ tid ∈ tids, tid < setCount * associativity) :
    Inv hash (tids.foldl State.flushOne s) := by
  induction tids generalizing s with
  | nil => exact h
  | cons tid tids ih =>
    rw [List.foldl_cons]
    exact ih (h.flushOne (htids tid List.mem_cons_self))
      fun tid' htid' => htids tid' (List.mem_cons_of_mem _ htid')

omit [LT LUtime] [DecidableLT LUtime] in
/-- After `flush` no entry is unwritten. -/
theorem unwritten_flush {setIndex way : Nat} (hset : setIndex < setCount)
    (hway : way < associativity) :
    (((List.range (setCount * associativity)).foldl State.flushOne s).cache.tags.entry setIndex
      way).unwritten = false := by
  have hpos : 0 < associativity := Nat.zero_lt_of_lt hway
  have hdiv : ∀ tid, tid < setCount * associativity → tid / associativity < setCount :=
    fun tid htid => (Nat.div_lt_iff_lt_mul hpos).mpr htid
  have hmem : dataIndex associativity setIndex way ∈ List.range (setCount * associativity) :=
    List.mem_range.mpr (dataIndex_lt hset hway)
  have hplace : dataIndex associativity setIndex way / associativity = setIndex ∧
      dataIndex associativity setIndex way % associativity = way := by
    rw [dataIndex, Nat.mul_comm setIndex, Nat.mul_add_div hpos, Nat.div_eq_of_lt hway,
      Nat.mul_add_mod, Nat.mod_eq_of_lt hway, Nat.add_zero]
    exact ⟨rfl, rfl⟩
  have hflushed := foldl_establishes (f := State.flushOne)
    (P := fun tid (s : State Key Word LUtime wordCount associativity setCount banks
        elementsPerBank) => tid < setCount * associativity →
      (s.cache.tags.entry (tid / associativity) (tid % associativity)).unwritten = false)
    ?_ ?_ hmem s (dataIndex_lt hset hway)
  · rw [hplace.1, hplace.2] at hflushed
    exact hflushed
  · intro s tid htid
    simp only [State.flushOne, WriteOnlyCache.flushOne, CacheTags.getAndClearUnwrittenKey]
    rw [CacheTags.entry_setEntry_self _ (hdiv tid htid) (Nat.mod_lt _ hpos)]
  · intro s tid tid' hne hs htid
    simp only [State.flushOne, WriteOnlyCache.flushOne, CacheTags.getAndClearUnwrittenKey]
    rw [CacheTags.entry_setEntry_of_ne _ (Nat.mod_lt _ hpos)]
    · exact hs htid
    · intro heq
      rw [Prod.mk.injEq] at heq
      refine hne ?_
      rw [← Nat.div_add_mod tid associativity, ← Nat.div_add_mod tid' associativity, heq.1, heq.2]

theorem invariant (hhash : ∀ key, hash key < setCount) (hpos : 0 < associativity)
    (hdepth : banks * elementsPerBank = setCount * associativity) (zero : LUtime)
    (content : WriteOnlyCache Key Word LUtime wordCount associativity setCount banks
      elementsPerBank)
    (backing : Key → Fin wordCount → Word) :
    (system hash zero content backing).Invariant (Inv hash) where
  start := by
    refine ⟨CacheTags.inv_initialized zero, ?_, fun _ _ => rfl⟩
    intro setIndex hset way hway hvalid
    simp only [system, CacheTags.entry_initialized zero hset hway, Bool.false_eq_true] at hvalid
  step s call h _ := by
    cases call with
    | write key words cycleCount => exact h.write hhash hpos hdepth key words cycleCount
    | flush => exact h.flush fun tid htid => List.mem_range.mp htid

omit [LT LUtime] [DecidableLT LUtime] in
/-- `flush` writes nothing into the cache. -/
theorem written_flush (tids : List Nat) : (tids.foldl State.flushOne s).written = s.written := by
  induction tids generalizing s with
  | nil => rfl
  | cons tid tids ih => exact ih

omit [LT LUtime] [DecidableLT LUtime] in
/-- After `flush` the backing store alone is the effect of all writes. -/
theorem Inv.backing_flush (h : Inv hash s) (hhash : ∀ key, hash key < setCount) :
    ((List.range (setCount * associativity)).foldl State.flushOne s).backing = s.written := by
  have hflush := h.flush fun tid htid => List.mem_range.mp htid
  funext key
  rw [hflush.other key fun way hway hu => ?_, written_flush]
  rw [unwritten_flush (hhash key) hway] at hu
  exact absurd hu Bool.false_ne_true

end Steps

end WriteOnlyCache

/-! ## All of the caches -/

/-- No key is valid in two entries of a set. -/
def CacheTags.KeysUnique {Key LUtime : Type} [Inhabited Key] [Inhabited LUtime]
    {associativity setCount : Nat} (t : CacheTags Key LUtime associativity setCount) : Prop :=
  ∀ setIndex < setCount, ∀ way < associativity, ∀ way' < associativity,
    (t.entry setIndex way).valid = true → (t.entry setIndex way').valid = true →
    (t.entry setIndex way).key = (t.entry setIndex way').key → way = way'

/-- The caches of the library are transparent, for every reading of the clock at each call. -/
theorem caches_transparent {Key LUtime : Type} [DecidableEq Key] [Inhabited Key] [LT LUtime]
    [DecidableLT LUtime] [Inhabited LUtime] {associativity setCount banks elementsPerBank : Nat}
    (hpos : 0 < associativity) (hdepth : banks * elementsPerBank = setCount * associativity)
    {hash : Key → Nat} (hhash : ∀ key, hash key < setCount) (zero : LUtime) :
    (∀ (Value : Type) [Inhabited Value] (load : Key → Value) (a : Nat), associativity = 2 ^ a →
      ∀ (content : ReadOnlyCache Key Value LUtime associativity setCount banks elementsPerBank) s,
      (ReadOnlyCache.system load hash zero content).Reachable s →
      s.cache.tags.KeysUnique ∧ s.results = s.expected) ∧
    (∀ (Value : Type) [Inhabited Value] (load : Key → Value)
        (tags : CacheTags Key LUtime associativity setCount)
        (data : Memory Value (setCount * associativity)) s,
      (WriteThroughCache.system load hash zero tags data).Reachable s →
      s.cache.tags.KeysUnique ∧ s.results = s.expected) ∧
    (∀ (Word : Type) (wordCount : Nat) (backing : Key → Fin wordCount → Word)
        (content : WriteOnlyCache Key Word LUtime wordCount associativity setCount banks
          elementsPerBank) s,
      (WriteOnlyCache.system hash zero content backing).Reachable s →
      s.cache.tags.KeysUnique ∧ WriteOnlyCache.Transparent hash s ∧
      ((WriteOnlyCache.system hash zero content backing).next s .flush).backing = s.written ∧
      ∀ setIndex < setCount, ∀ way < associativity,
        (((WriteOnlyCache.system hash zero content backing).next s .flush).cache.tags.entry
          setIndex way).unwritten = false) := by
  refine ⟨?_, ?_, ?_⟩
  · intro Value _ load a hpow content s hs
    have h := (ReadOnlyCache.invariant load hhash hpow hdepth zero content).of_reachable hs
    exact ⟨h.tags.unique, h.results⟩
  · intro Value _ load tags data s hs
    have h := (WriteThroughCache.invariant load hhash hpos zero tags data).of_reachable hs
    exact ⟨h.tags.unique, h.results⟩
  · intro Word wordCount backing content s hs
    have h := (WriteOnlyCache.invariant hhash hpos hdepth zero content backing).of_reachable hs
    exact ⟨h.tags.unique, h.transparent, h.backing_flush hhash,
      fun setIndex hset way hway => WriteOnlyCache.unwritten_flush hset hway⟩

/-- Caches with two sets of two ways, and three keys of which two have one hash. -/
theorem caches_transparent_two_sets :
    let readOnly := ReadOnlyCache.system (fun key : Fin 3 => key.val + 5) (fun key => key.val % 2)
      (0 : Nat) (⟨⟨Vector.replicate 2 default⟩, ⟨Vector.replicate 1 (Vector.replicate 4 0)⟩⟩ :
        ReadOnlyCache (Fin 3) Nat Nat 2 2 1 4)
    let writeThrough := WriteThroughCache.system (fun key : Fin 3 => key.val + 5)
      (fun key => key.val % 2) (0 : Nat) (⟨Vector.replicate 2 default⟩ : CacheTags (Fin 3) Nat 2 2)
      (Vector.replicate 4 0)
    let writeOnly := WriteOnlyCache.system (fun key : Fin 3 => key.val % 2) (0 : Nat)
      (⟨⟨Vector.replicate 2 default⟩, ⟨Vector.replicate 1 (Vector.replicate 4 default)⟩⟩ :
        WriteOnlyCache (Fin 3) Nat Nat 1 2 2 1 4) (fun _ _ => 5)
    (readOnly.run readOnly.start [(0, 7), (2, 8), (0, 9)]).results = [5, 7, 5] ∧
    (writeThrough.run writeThrough.start [.get 0 7, .put 0 3 8, .get 0 9]).results = [5, 3] ∧
    (writeOnly.next (writeOnly.run writeOnly.start [.write 0 (fun _ => some 3) 7]) .flush).backing =
      (writeOnly.run writeOnly.start [.write 0 (fun _ => some 3) 7]).written := by
  intro readOnly writeThrough writeOnly
  obtain ⟨hread, hthrough, honly⟩ :=
    @caches_transparent (Fin 3) Nat _ _ _ _ _ 2 2 1 4 (by decide) (by decide)
      (fun key => key.val % 2) (fun key => Nat.mod_lt _ (by decide)) 0
  have hreads : readOnly.AllEnabled readOnly.start [(0, 7), (2, 8), (0, 9)] :=
    ⟨trivial, trivial, trivial, trivial⟩
  have hputs : writeThrough.AllEnabled writeThrough.start [.get 0 7, .put 0 3 8, .get 0 9] :=
    ⟨trivial, trivial, trivial, trivial⟩
  have hwrites : writeOnly.AllEnabled writeOnly.start [.write 0 (fun _ => some 3) 7] :=
    ⟨trivial, trivial⟩
  exact ⟨(hread Nat _ 1 rfl _ _ (.run .start hreads)).2,
    (hthrough Nat _ _ _ _ (.run .start hputs)).2,
    (honly Nat 1 _ _ _ (.run .start hwrites)).2.2.1⟩

end Kanagawa.Library
