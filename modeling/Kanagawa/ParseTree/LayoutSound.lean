/-
  Kanagawa.ParseTree.LayoutSound

  The layouts of the front end and the middle end agree.

  The leaves of an initializer are placed at the offsets that the symbols give
  for the fields they initialize.  `GetFlatValue` sets the bits of the leaves
  and no others.
-/
import Kanagawa.Arith.Exact
import Kanagawa.Frontend.Subtype
import Kanagawa.ParseTree.Layout

namespace Kanagawa.ParseTree

open Frontend (Name QualifiedName Ty tWidth tSumWidths tMaxWidths tFieldWidth tConcrete)

/-! ## Widths -/

mutual

/-- No union in the type is empty, so that `maximum` has an element. -/
def hasWidth : Ty → Bool
  | .array _ t _ | .enum _ t | .inst t _ _ => hasWidth t
  | .struct _ fields => fieldsHaveWidth fields
  | .union _ fields => !fields.isEmpty && fieldsHaveWidth fields
  | _ => true
  termination_by structural t => t

def fieldHasWidth : Name × Ty → Bool
  | (_, t) => hasWidth t
  termination_by structural f => f

def fieldsHaveWidth : List (Name × Ty) → Bool
  | [] => true
  | f :: fields => fieldHasWidth f && fieldsHaveWidth fields
  termination_by structural fields => fields

end

theorem parseArrayType_width {baseType m : NodeType} {sizes : List Int}
    (h : parseArrayType baseType sizes = some m) :
    sizes ≠ [] ∧ (m.getBitWidth : Int) = sizes.prod * baseType.getBitWidth := by
  unfold parseArrayType at h
  split at h
  · rename_i hsizes
    cases h
    refine ⟨hsizes.1, ?_⟩
    have hpos := hsizes.2
    clear hsizes
    induction sizes with
    | nil => simp
    | cons n sizes ih =>
        have hn : ((n.toNat : Nat) : Int) = n :=
          Int.toNat_of_nonneg (hpos n List.mem_cons_self).le
        have ih := ih fun k hk => hpos k (List.mem_cons_of_mem _ hk)
        rw [List.foldr_cons, NodeType.getBitWidth, Nat.cast_mul, ih, hn, List.prod_cons]
        ring
  · cases h

theorem makeLeafType_width {baseType : BaseType} {w : Int} {m : NodeType}
    (h : makeLeafType baseType w = some m) :
    m = .leaf baseType w.toNat ∧ (m.getBitWidth : Int) = w := by
  unfold makeLeafType at h
  split at h
  · cases h
    exact ⟨rfl, Int.toNat_of_nonneg (by omega)⟩
  · cases h

mutual

/-- The width the front end computes is the width of the type that is built. -/
theorem tWidth_parseType : ∀ (t : Ty) {m : NodeType}, parseType t = some m → hasWidth t = true →
    tWidth t = some (m.getBitWidth : Int)
  | .boolean, _, h, _ => by cases h; rfl
  | .float, _, h, _ => by cases h; rfl
  | .signed w, _, h, _ => congrArg some (makeLeafType_width h).2.symm
  | .unsigned w, _, h, _ => congrArg some (makeLeafType_width h).2.symm
  | .enum x t, m, h, hw => by
      rw [parseType] at h
      split at h
      · rename_i ht
        cases h
        have hwidth := tWidth_parseType t ht hw
        exact hwidth
      · cases h
  | .array attrs t ns, m, h, hw => by
      rw [parseType, Option.bind_eq_some_iff] at h
      obtain ⟨e, he, hm⟩ := h
      obtain ⟨hne, hwidth⟩ := parseArrayType_width hm
      cases ns with
      | nil => exact absurd rfl hne
      | cons n ns =>
          rw [tWidth, tWidth_parseType t he hw, Option.map_some, hwidth]
          exact nofun
  | .struct x fields, m, h, hw => by
      rw [parseType, Option.map_eq_some_iff] at h
      obtain ⟨ms, hms, rfl⟩ := h
      exact (tSumWidths_parseMembers fields hms hw).1
  | .union x fields, m, h, hw => by
      rw [parseType, Option.map_eq_some_iff] at h
      obtain ⟨ms, hms, rfl⟩ := h
      rw [hasWidth, Bool.and_eq_true] at hw
      refine (tSumWidths_parseMembers fields hms hw.2).2 ?_
      rintro rfl
      cases hw.1
  | .inst t x args, _, h, hw => tWidth_parseType t h hw
  termination_by structural t => t

theorem tFieldWidth_parseMember : ∀ (f : Name × Ty) {m : Name × NodeType},
    parseMember f = some m → fieldHasWidth f = true →
    tFieldWidth f = some (memberWidth m : Int) ∧ m.1 = f.1
  | (x, t), m, h, hw => by
      rw [parseMember, Option.map_eq_some_iff] at h
      obtain ⟨u, hu, rfl⟩ := h
      exact ⟨tWidth_parseType t hu hw, rfl⟩
  termination_by structural f => f

theorem tSumWidths_parseMembers : ∀ (fields : List (Name × Ty)) {ms : List (Name × NodeType)},
    parseMembers fields = some ms → fieldsHaveWidth fields = true →
    tSumWidths fields = some (sumWidths ms : Int) ∧
      (fields ≠ [] → tMaxWidths fields = some (maxWidths ms : Int))
  | [], _, h, _ => by
      cases h
      exact ⟨rfl, fun h => absurd rfl h⟩
  | f :: fields, _, h, hw => by
      rw [parseMembers, Option.bind_eq_some_iff] at h
      obtain ⟨m, hm, h⟩ := h
      obtain ⟨ms, hms, rfl⟩ := Option.map_eq_some_iff.mp h
      rw [fieldsHaveWidth, Bool.and_eq_true] at hw
      obtain ⟨hwidth, -⟩ := tFieldWidth_parseMember f hm hw.1
      obtain ⟨hsum, hmax⟩ := tSumWidths_parseMembers fields hms hw.2
      refine ⟨?_, fun _ => ?_⟩
      · rw [tSumWidths, hwidth, hsum]
        simp [sumWidths]
      · rw [tMaxWidths, hwidth, maxWidths]
        cases fields with
        | nil =>
            cases hms
            simp [tMaxWidths, maxWidths]
        | cons g fields =>
            rw [hmax (List.cons_ne_nil _ _)]
            simp
  termination_by structural fields => fields

end

/-! ## Offsets -/

theorem parseType_tConcrete (t : Ty) : parseType (tConcrete t) = parseType t := by
  fun_induction tConcrete t with
  | case1 t x args ih => exact ih
  | case2 t => rfl

theorem hasWidth_tConcrete (t : Ty) : hasWidth (tConcrete t) = hasWidth t := by
  fun_induction tConcrete t with
  | case1 t x args ih => exact ih
  | case2 t => rfl

/-- The offset of a field is the sum of the widths in front of it, on both sides. -/
theorem offset_writeMembers (x : Name) {fields : List (Name × Ty)}
    {ms : List (Name × NodeType)} (h : parseMembers fields = some ms)
    (hw : fieldsHaveWidth fields = true) (k : Nat) :
    ((fields.findIdx? (·.1 == x)).bind fun n => (tSumWidths (fields.take n)).map ((k : Int) + ·)) =
      ((writeMembers .struct k ms).find? (·.name == x)).map fun s => (s.offset : Int) := by
  induction fields generalizing ms k with
  | nil =>
      cases h
      rfl
  | cons f fields ih =>
      rw [parseMembers, Option.bind_eq_some_iff] at h
      obtain ⟨m, hm, h⟩ := h
      obtain ⟨ms, hms, rfl⟩ := Option.map_eq_some_iff.mp h
      rw [fieldsHaveWidth, Bool.and_eq_true] at hw
      obtain ⟨hwidth, hname⟩ := tFieldWidth_parseMember f hm hw.1
      obtain ⟨y, type⟩ := m
      have ih := ih hms hw.2 (k + type.getBitWidth)
      rw [List.findIdx?_cons, writeMembers, List.find?_cons, if_pos rfl]
      change y = f.1 at hname
      subst hname
      cases hx : f.1 == x with
      | true => simp [tSumWidths]
      | false =>
          simp only [Bool.false_eq_true, if_false]
          rw [← ih]
          cases fields.findIdx? (·.1 == x) with
          | none => rfl
          | some n =>
              simp only [Option.map_some, Option.bind_some, List.take_succ_cons, tSumWidths, hwidth,
                memberWidth]
              cases tSumWidths (fields.take n) with
              | none => rfl
              | some w =>
                  simp only [Option.map_some, Nat.cast_add]
                  rw [Int.add_assoc]

theorem width_writeMembers (x : Name) (type : ContainerType) {fields : List (Name × Ty)}
    {ms : List (Name × NodeType)} (h : parseMembers fields = some ms)
    (hw : fieldsHaveWidth fields = true) (k : Nat) :
    (fields.lookup x).bind tWidth =
      ((writeMembers type k ms).find? (·.name == x)).map fun s => (s.width : Int) := by
  induction fields generalizing ms k with
  | nil =>
      cases h
      rfl
  | cons f fields ih =>
      rw [parseMembers, Option.bind_eq_some_iff] at h
      obtain ⟨m, hm, h⟩ := h
      obtain ⟨ms, hms, rfl⟩ := Option.map_eq_some_iff.mp h
      rw [fieldsHaveWidth, Bool.and_eq_true] at hw
      obtain ⟨hwidth, hname⟩ := tFieldWidth_parseMember f hm hw.1
      obtain ⟨y, mtype⟩ := m
      obtain ⟨z, t⟩ := f
      change y = z at hname
      subst hname
      rw [List.lookup_cons, writeMembers, List.find?_cons]
      by_cases hx : x = y
      · subst hx
        simp only [beq_self_eq_true]
        exact hwidth
      · have hxy : (x == y) = false := beq_eq_false_iff_ne.mpr hx
        have hyx : (y == x) = false := beq_eq_false_iff_ne.mpr (Ne.symm hx)
        simp only [hxy, hyx]
        exact ih hms hw.2 _

/-! ## Leaves -/

/-- A value in a range of bits. -/
structure Leaf where
  offset : Nat
  width : Nat
  value : Int

def Leaf.shift (offset : Nat) (l : Leaf) : Leaf := { l with offset := l.offset + offset }

/-- The value, truncated to the width. -/
def Leaf.bits (l : Leaf) : Nat := (l.value % 2 ^ l.width).toNat

def Leaf.testBit (l : Leaf) (b : Nat) : Bool :=
  decide (l.offset ≤ b) && l.bits.testBit (b - l.offset)

/-- The integer a known expression stands for. -/
def KnownNode.denote (node : KnownNode) : Int :=
  (Literal.mk node.value node.type.getBitWidth).denote (node.type.baseType? = some .int)

/-- The leaves of an expression that initializes a field. -/
def fieldLeaves (leaves : Initializer → List Leaf) (fieldType : NodeType) :
    Option Initializer → List Leaf
  | none => []
  | some (.known node) => [⟨0, fieldType.getBitWidth, node.denote⟩]
  | some .unknown => []
  | some child => leaves child

mutual

/-- The leaves of an initializer list for the type, at the offsets of the symbols. -/
def leavesOf : NodeType → Initializer → List Leaf
  | .array elementType arraySize, node =>
      (List.range arraySize).flatMap fun i =>
        (fieldLeaves (leavesOf elementType) elementType (node.tryGetField i "")).map
          (·.shift (i * elementType.getBitWidth))
  | .structUnion _ type members, node => membersLeaves members (writeMembers type 0 members) node 0
  | _, _ => []
  termination_by structural t => t

def memberLeaves : Name × NodeType → Initializer → Nat → List Leaf
  | (name, type), node, fieldIndex =>
      fieldLeaves (leavesOf type) type (node.tryGetField fieldIndex name)
  termination_by structural m => m

def membersLeaves : List (Name × NodeType) → List MemberSymbol → Initializer → Nat → List Leaf
  | m :: members, s :: symbols, node, fieldIndex =>
      (memberLeaves m node fieldIndex).map (·.shift s.offset) ++
        membersLeaves members symbols node (fieldIndex + 1)
  | _, _, _, _ => []
  termination_by structural members => members

end

/-- The bits of the leaves and no others are set. -/
def Represents (v : Nat) (ls : List Leaf) : Prop := ∀ b, v.testBit b = ls.any (·.testBit b)

theorem represents_zero : Represents 0 [] := fun b => Nat.zero_testBit b

theorem Leaf.testBit_shift (l : Leaf) (o b : Nat) :
    (l.shift o).testBit b = (decide (o ≤ b) && l.testBit (b - o)) := by
  unfold Leaf.testBit
  show (decide (l.offset + o ≤ b) && l.bits.testBit (b - (l.offset + o))) = _
  by_cases h : o ≤ b
  · rw [decide_eq_true h, Bool.true_and, Nat.add_comm, Nat.sub_add_eq]
    congr 1
    exact decide_eq_decide.mpr (by omega)
  · rw [decide_eq_false h, decide_eq_false (by omega), Bool.false_and, Bool.false_and]

theorem any_shift (ls : List Leaf) (o b : Nat) :
    (ls.map (·.shift o)).any (·.testBit b) = (decide (o ≤ b) && ls.any (·.testBit (b - o))) := by
  rw [List.any_map]
  have hshift : ((·.testBit b) ∘ fun l : Leaf => l.shift o) =
      fun l => decide (o ≤ b) && l.testBit (b - o) :=
    funext fun l => l.testBit_shift o b
  rw [hshift]
  cases decide (o ≤ b) with
  | true => simp only [Bool.true_and]
  | false => simp

theorem Represents.or {v w : Nat} {ls ls' : List Leaf} (h : Represents v ls)
    (h' : Represents w ls') (o : Nat) :
    Represents (v ||| w <<< o) (ls ++ ls'.map (·.shift o)) := by
  intro b
  rw [Nat.testBit_or, Nat.testBit_shiftLeft, h b, h' (b - o), List.any_append, any_shift]

/-! ## Values -/

theorem bits_eq {x : Nat} {v : Int} {w : Nat} (hx : x < 2 ^ w) (h : (x : Int) ≡ v [ZMOD 2 ^ w]) :
    x = (v % 2 ^ w).toNat := by
  have hmod : (x : Int) % 2 ^ w = x := Int.emod_eq_of_lt (by omega) (by exact_mod_cast hx)
  rw [← h, hmod, Int.toNat_natCast]

theorem denote_modEq (l : Literal) (s : Bool) : (l.value : Int) ≡ l.denote s [ZMOD 2 ^ l.width] := by
  cases h : l.negative s with
  | true =>
      rw [Literal.denote_of_negative h]
      exact Int.modEq_iff_dvd.mpr ⟨-1, by ring⟩
  | false => rw [Literal.denote_of_not_negative h]

theorem widened_lt {l : Literal} (hl : l.WellFormed) {s : Bool} {d : Nat} (hd : l.width ≤ d) :
    l.widened s d < 2 ^ d := by
  have hle : 2 ^ l.width ≤ 2 ^ d := Nat.pow_le_pow_right (by decide) hd
  have hfits := hl.fits
  unfold Literal.widened
  rw [Nat.max_eq_right hd]
  split <;> omega

/-- `TypeConvert` keeps what the expression stands for, up to the width of the field. -/
theorem typeConvert_known {node : KnownNode} {t : NodeType} {v : Nat}
    (h : typeConvert node.value node.type t = .ok v) :
    v = (node.denote % 2 ^ t.getBitWidth).toNat := by
  have hl := node.wellFormed
  have hdenote := denote_modEq (.mk node.value node.type.getBitWidth)
    (decide (node.type.baseType? = some .int))
  unfold typeConvert at h
  split at h
  · rename_i hlt
    cases hbase : node.type.baseType? with
    | some baseType =>
        rw [hbase] at h
        by_cases hw : (Literal.mk node.value node.type.getBitWidth).Widenable
            (decide (baseType = .int)) t.getBitWidth
        · simp only [widen_eq hl hw] at h
          cases h
          refine bits_eq (widened_lt hl hlt.le) ?_
          have := Literal.widened_modEq (.mk node.value node.type.getBitWidth)
            (decide (baseType = .int)) t.getBitWidth
          rwa [KnownNode.denote, hbase, show decide (some baseType = some BaseType.int) =
            decide (baseType = .int) by simp]
        · simp only [widen_error hl hw] at h
          cases h
    | none =>
        rw [hbase] at h
        cases h
        refine bits_eq (lt_of_lt_of_le hl.fits (Nat.pow_le_pow_right (by decide) hlt.le)) ?_
        rw [KnownNode.denote, hbase]
        exact Int.ModEq.refl _
  split at h
  · rename_i hgt
    cases h
    rw [truncate_eq]
    have hdvd : (2 : Int) ^ t.getBitWidth ∣ 2 ^ node.type.getBitWidth := pow_dvd_pow 2 hgt.le
    exact congrArg Int.toNat (hdenote.of_dvd hdvd)
  · rename_i hlt hgt
    cases h
    have heq : t.getBitWidth = node.type.getBitWidth := by omega
    rw [heq]
    exact bits_eq hl.fits hdenote

theorem typeConvert_self (v : Nat) (t : NodeType) : typeConvert v t t = .ok v := by
  rw [typeConvert, if_neg (lt_irrefl _), if_neg (lt_irrefl _)]

theorem represents_known {node : KnownNode} {t : NodeType} {v : Nat}
    (h : typeConvert node.value node.type t = .ok v) :
    Represents v [⟨0, t.getBitWidth, node.denote⟩] := by
  intro b
  rw [typeConvert_known h]
  simp [Leaf.testBit, Leaf.bits]

/-! ## The loop -/

section Loop

variable {flat : Initializer → Except Failure Flat} {leaves : Initializer → List Leaf}
variable {fieldType : NodeType} {advance : Bool}

/-- One field adds its leaves, at the offset that has been reached. -/
theorem flatField_spec (hflat : ∀ c f, flat c = .ok f → Represents f.result (leaves c))
    {child : Option Initializer} {s s' : Flat} {ls : List Leaf}
    (h : flatField flat fieldType advance child s = .ok s') (hs : Represents s.result ls) :
    Represents s'.result (ls ++ (fieldLeaves leaves fieldType child).map (·.shift s.offset)) ∧
      s'.offset = if advance then s.offset + fieldType.getBitWidth else s.offset := by
  -- the offset is advanced last
  have hadvance : ∀ u : Flat,
      (.ok (if advance then { u with offset := u.offset + fieldType.getBitWidth } else u) :
        Except Failure Flat) = .ok s' →
      s'.result = u.result ∧
        s'.offset = if advance then u.offset + fieldType.getBitWidth else u.offset := by
    intro u hu
    cases hu
    cases advance <;> exact ⟨rfl, rfl⟩
  have hlist : ∀ c, (do
        let f ← flat c
        let childFlatValue ← typeConvert f.result fieldType fieldType
        let s : Flat := { s with
          result := s.result ||| childFlatValue <<< s.offset
          compileError := s.compileError || f.compileError }
        pure (if advance then { s with offset := s.offset + fieldType.getBitWidth } else s)) =
        (.ok s' : Except Failure Flat) →
      Represents s'.result (ls ++ (leaves c).map (·.shift s.offset)) ∧
        s'.offset = if advance then s.offset + fieldType.getBitWidth else s.offset := by
    intro c hc
    cases hf : flat c with
    | error e =>
        rw [hf] at hc
        cases hc
    | ok f =>
        simp only [hf, typeConvert_self, bind, Except.bind] at hc
        obtain ⟨hresult, hoffset⟩ := hadvance _ hc
        rw [hresult]
        exact ⟨hs.or (hflat c f hf) s.offset, hoffset⟩
  cases child with
  | none =>
      obtain ⟨hresult, hoffset⟩ := hadvance s h
      rw [hresult, fieldLeaves, List.map_nil, List.append_nil]
      exact ⟨hs, hoffset⟩
  | some child =>
      cases child with
      | known node =>
          unfold flatField at h
          cases hv : typeConvert node.value node.type fieldType with
          | error e =>
              simp only [hv, bind, Except.bind] at h
              cases h
          | ok v =>
              simp only [hv, bind, Except.bind, pure, Except.pure] at h
              obtain ⟨hresult, hoffset⟩ := hadvance _ h
              rw [hresult]
              exact ⟨hs.or (represents_known hv) s.offset, hoffset⟩
      | unknown =>
          obtain ⟨hresult, hoffset⟩ := hadvance { s with compileError := true } h
          rw [hresult, fieldLeaves, List.map_nil, List.append_nil]
          exact ⟨hs, hoffset⟩
      | list children => exact hlist _ h
      | designated children => exact hlist _ h

/-- The elements of an array. -/
theorem foldlM_flatField (hflat : ∀ c f, flat c = .ok f → Represents f.result (leaves c))
    {child : Nat → Option Initializer} (n : Nat) : ∀ {k : Nat} {s s' : Flat} {ls : List Leaf},
    (List.range' k n).foldlM (fun s i => flatField flat fieldType true (child i) s) s = .ok s' →
    Represents s.result ls → s.offset = k * fieldType.getBitWidth →
    Represents s'.result (ls ++ (List.range' k n).flatMap fun i =>
      (fieldLeaves leaves fieldType (child i)).map (·.shift (i * fieldType.getBitWidth))) := by
  induction n with
  | zero =>
      intro k s s' ls h hs _
      cases h
      rwa [List.range'_zero, List.flatMap_nil, List.append_nil]
  | succ n ih =>
      intro k s s' ls h hs hoffset
      rw [List.range'_succ, List.foldlM_cons] at h
      cases hu : flatField flat fieldType true (child k) s with
      | error e =>
          rw [hu] at h
          cases h
      | ok u =>
          rw [hu] at h
          obtain ⟨hresult, hnext⟩ := flatField_spec hflat hu hs
          rw [hoffset] at hresult
          have := ih h hresult (by rw [hnext, hoffset, if_pos rfl]; ring)
          rw [List.range'_succ, List.flatMap_cons, ← List.append_assoc]
          exact this

end Loop

mutual

/-- The flat value has the bits of the leaves. -/
theorem getFlatValue_represents : ∀ (t : NodeType) (node : Initializer) (f : Flat),
    getFlatValue t node = .ok f → Represents f.result (leavesOf t node)
  | .array elementType arraySize, node, f, h => by
      rw [getFlatValue, List.range_eq_range'] at h
      have := foldlM_flatField (getFlatValue_represents elementType) arraySize h represents_zero
        (Nat.zero_mul _).symm
      rwa [List.nil_append, ← List.range_eq_range'] at this
  | .structUnion _ type members, node, f, h => by
      rw [getFlatValue] at h
      have := (flatMembers_represents type members node 0 ⟨0, 0, false⟩ f h) [] represents_zero
      rwa [List.nil_append] at this
  | .bool, _, _, h => by cases h; exact represents_zero
  | .leaf _ _, _, _, h => by cases h; exact represents_zero
  | .enum _ _ _, _, _, h => by cases h; exact represents_zero
  | .float _, _, _, h => by cases h; exact represents_zero
  termination_by structural t => t

theorem flatMember_represents (type : ContainerType) : ∀ (m : Name × NodeType)
    (node : Initializer) (i : Nat) (s s' : Flat), flatMember type m node i s = .ok s' →
    ∀ ls : List Leaf, Represents s.result ls →
      Represents s'.result (ls ++ (memberLeaves m node i).map (·.shift s.offset)) ∧
        s'.offset = if type = .struct then s.offset + memberWidth m else s.offset
  | (name, memberType), node, i, s, s', h => by
      intro ls hs
      have := flatField_spec (getFlatValue_represents memberType) h hs
      simp only [decide_eq_true_eq] at this
      exact this
  termination_by structural m => m

theorem flatMembers_represents (type : ContainerType) : ∀ (members : List (Name × NodeType))
    (node : Initializer) (i : Nat) (s s' : Flat), flatMembers type members node i s = .ok s' →
    ∀ ls : List Leaf, Represents s.result ls →
      Represents s'.result (ls ++ membersLeaves members (writeMembers type s.offset members) node i)
  | [], _, _, _, _, h => by
      intro ls hs
      cases h
      rw [show membersLeaves [] _ _ _ = [] from rfl, List.append_nil]
      exact hs
  | m :: members, node, i, s, s', h => by
      intro ls hs
      rw [flatMembers] at h
      cases hu : flatMember type m node i s with
      | error e =>
          rw [hu] at h
          cases h
      | ok u =>
          rw [hu] at h
          obtain ⟨hresult, hoffset⟩ := flatMember_represents type m node i s u hu ls hs
          have := flatMembers_represents type members node (i + 1) u s' h _ hresult
          obtain ⟨name, memberType⟩ := m
          rw [hoffset, List.append_assoc] at this
          exact this
  termination_by structural members => members

end

/-! ## Initializers that are accepted -/

def fieldAccepted (accepted : Initializer → Prop) : Option Initializer → Prop
  | none => True
  | some (.known _) => True
  | some .unknown => False
  | some child => accepted child

/-- The members that are initialized, from an index on. -/
def initializedCount : List (Name × NodeType) → Initializer → Nat → Nat
  | [], _, _ => 0
  | m :: members, node, fieldIndex =>
      (if (node.tryGetField fieldIndex m.1).isSome then 1 else 0) +
        initializedCount members node (fieldIndex + 1)

mutual

/-- The values are known, and of a union one member is initialized at most: both type
    checkers reject a list with more elements for a union. -/
def Accepted : NodeType → Initializer → Prop
  | .array elementType arraySize, node =>
      ∀ i < arraySize, fieldAccepted (Accepted elementType) (node.tryGetField i "")
  | .structUnion _ type members, node =>
      (type = .union → initializedCount members node 0 ≤ 1) ∧ MembersAccepted members node 0
  | _, _ => True
  termination_by structural t => t

def MemberAccepted : Name × NodeType → Initializer → Nat → Prop
  | (name, type), node, fieldIndex =>
      fieldAccepted (Accepted type) (node.tryGetField fieldIndex name)
  termination_by structural m => m

def MembersAccepted : List (Name × NodeType) → Initializer → Nat → Prop
  | [], _, _ => True
  | m :: members, node, fieldIndex =>
      MemberAccepted m node fieldIndex ∧ MembersAccepted members node (fieldIndex + 1)
  termination_by structural members => members

end

/-- Each leaf ends before the next one starts, and all end before `stop`. -/
structure Ordered (start stop : Nat) (ls : List Leaf) : Prop where
  pairwise : ls.Pairwise fun l l' => l.offset + l.width ≤ l'.offset
  start_le : ∀ l ∈ ls, start ≤ l.offset
  le_stop : ∀ l ∈ ls, l.offset + l.width ≤ stop

theorem Ordered.nil (start stop : Nat) : Ordered start stop [] := ⟨.nil, nofun, nofun⟩

theorem Ordered.mono {start start' stop stop' : Nat} {ls : List Leaf} (h : Ordered start stop ls)
    (hstart : start' ≤ start) (hstop : stop ≤ stop') : Ordered start' stop' ls :=
  ⟨h.pairwise, fun l hl => hstart.trans (h.start_le l hl),
    fun l hl => (h.le_stop l hl).trans hstop⟩

theorem Ordered.shift {stop : Nat} {ls : List Leaf} (h : Ordered 0 stop ls) (o : Nat) :
    Ordered o (o + stop) (ls.map (·.shift o)) := by
  refine ⟨?_, ?_, ?_⟩
  · refine List.pairwise_map.mpr (h.pairwise.imp fun {l l'} hle => ?_)
    show l.offset + o + l.width ≤ l'.offset + o
    omega
  · intro l hl
    obtain ⟨l, -, rfl⟩ := List.mem_map.mp hl
    exact Nat.le_add_left _ _
  · intro l hl
    obtain ⟨l, hmem, rfl⟩ := List.mem_map.mp hl
    have := h.le_stop l hmem
    show l.offset + o + l.width ≤ o + stop
    omega

theorem Ordered.append {start mid stop : Nat} {ls ls' : List Leaf} (h : Ordered start mid ls)
    (h' : Ordered mid stop ls') (hstart : start ≤ mid) (hstop : mid ≤ stop) :
    Ordered start stop (ls ++ ls') := by
  refine ⟨List.pairwise_append.mpr ⟨h.pairwise, h'.pairwise, fun l hl l' hl' =>
    (h.le_stop l hl).trans (h'.start_le l' hl')⟩, fun l hl => ?_, fun l hl => ?_⟩
  · rcases List.mem_append.mp hl with hl | hl
    · exact h.start_le l hl
    · exact hstart.trans (h'.start_le l hl)
  · rcases List.mem_append.mp hl with hl | hl
    · exact (h.le_stop l hl).trans hstop
    · exact h'.le_stop l hl

theorem ordered_fieldLeaves {leaves : Initializer → List Leaf} {accepted : Initializer → Prop}
    {fieldType : NodeType}
    (h : ∀ c, accepted c → Ordered 0 fieldType.getBitWidth (leaves c))
    {child : Option Initializer} (hacc : fieldAccepted accepted child) :
    Ordered 0 fieldType.getBitWidth (fieldLeaves leaves fieldType child) := by
  cases child with
  | none => exact .nil _ _
  | some child =>
      cases child with
      | known node =>
          refine ⟨List.pairwise_singleton _ _, fun l _ => Nat.zero_le _, fun l hl => ?_⟩
          rw [fieldLeaves] at hl
          rw [List.mem_singleton.mp hl, Nat.zero_add]
      | unknown => exact .nil _ _
      | list children => exact h _ hacc
      | designated children => exact h _ hacc

theorem ordered_elements {leaves : Nat → List Leaf} {w : Nat} (n : Nat) : ∀ {k : Nat},
    (∀ i, k ≤ i → i < k + n → Ordered 0 w (leaves i)) →
    Ordered (k * w) ((k + n) * w) ((List.range' k n).flatMap fun i =>
      (leaves i).map (·.shift (i * w))) := by
  induction n with
  | zero =>
      intro k _
      rw [List.range'_zero, List.flatMap_nil]
      exact .nil _ _
  | succ n ih =>
      intro k h
      rw [List.range'_succ, List.flatMap_cons]
      have hfirst := (h k le_rfl (by omega)).shift (k * w)
      have hrest := ih (k := k + 1) fun i hki hi => h i (by omega) (by omega)
      have hmid : k * w + w = (k + 1) * w := by ring
      have hend : (k + 1 + n) * w = (k + (n + 1)) * w := by ring
      rw [hmid] at hfirst
      rw [hend] at hrest
      exact hfirst.append hrest (Nat.mul_le_mul_right w (by omega)) (Nat.mul_le_mul_right w (by omega))

/-- A list that initializes no member of a union from an index on has no leaves there. -/
theorem membersLeaves_of_none (type : ContainerType) (members : List (Name × NodeType))
    (node : Initializer) (i o : Nat) (h : initializedCount members node i = 0) :
    membersLeaves members (writeMembers type o members) node i = [] := by
  induction members generalizing i o with
  | nil => rfl
  | cons m members ih =>
      obtain ⟨name, t⟩ := m
      rw [initializedCount] at h
      rw [writeMembers, membersLeaves]
      have hnone : node.tryGetField i name = none := by
        cases hf : node.tryGetField i name with
        | none => rfl
        | some c => simp [hf] at h
      rw [ih (i + 1) _ (by omega), memberLeaves, hnone]
      rfl

mutual

/-- The leaves of an accepted list lie one after the other, inside the type. -/
theorem ordered_leavesOf : ∀ (t : NodeType) (node : Initializer), Accepted t node →
    Ordered 0 t.getBitWidth (leavesOf t node)
  | .array elementType arraySize, node, h => by
      have := @ordered_elements
        (fun i => fieldLeaves (leavesOf elementType) elementType (node.tryGetField i ""))
        elementType.getBitWidth arraySize 0
        fun i _ hi => ordered_fieldLeaves (ordered_leavesOf elementType) (h i (by omega))
      rw [Nat.zero_mul, Nat.zero_add, Nat.mul_comm, ← List.range_eq_range'] at this
      exact this
  | .structUnion _ .struct members, node, h => by
      have := ordered_structLeaves members node 0 0 h.2
      rw [Nat.zero_add] at this
      exact this
  | .structUnion _ .union members, node, h => ordered_unionLeaves members node 0 (h.1 rfl) h.2
  | .bool, _, _ => .nil _ _
  | .leaf _ _, _, _ => .nil _ _
  | .enum _ _ _, _, _ => .nil _ _
  | .float _, _, _ => .nil _ _
  termination_by structural t => t

theorem ordered_memberLeaves : ∀ (m : Name × NodeType) (node : Initializer) (i : Nat),
    MemberAccepted m node i → Ordered 0 (memberWidth m) (memberLeaves m node i)
  | (_, type), _, _, h => ordered_fieldLeaves (ordered_leavesOf type) h
  termination_by structural m => m

theorem ordered_structLeaves : ∀ (members : List (Name × NodeType)) (node : Initializer)
    (i o : Nat), MembersAccepted members node i →
    Ordered o (o + sumWidths members)
      (membersLeaves members (writeMembers .struct o members) node i)
  | [], _, _, _, _ => .nil _ _
  | m :: members, node, i, o, h => by
      have hfirst := (ordered_memberLeaves m node i h.1).shift o
      have hrest := ordered_structLeaves members node (i + 1) (o + memberWidth m) h.2
      rw [Nat.add_assoc] at hrest
      obtain ⟨name, t⟩ := m
      exact hfirst.append hrest (Nat.le_add_right _ _) (by rw [sumWidths]; omega)
  termination_by structural members => members

theorem ordered_unionLeaves : ∀ (members : List (Name × NodeType)) (node : Initializer) (i : Nat),
    initializedCount members node i ≤ 1 → MembersAccepted members node i →
    Ordered 0 (maxWidths members)
      (membersLeaves members (writeMembers .union 0 members) node i)
  | [], _, _, _, _ => .nil _ _
  | m :: members, node, i, hcount, h => by
      have hfirst := (ordered_memberLeaves m node i h.1).shift 0
      have hrest := fun hc => ordered_unionLeaves members node (i + 1) hc h.2
      obtain ⟨name, t⟩ := m
      have hle : memberWidth (name, t) ≤ maxWidths ((name, t) :: members) := Nat.le_max_left _ _
      have hle' : maxWidths members ≤ maxWidths ((name, t) :: members) := Nat.le_max_right _ _
      rw [initializedCount] at hcount
      cases hf : node.tryGetField i name with
      | none =>
          have hnil : (memberLeaves (name, t) node i).map (·.shift 0) = [] := by
            rw [memberLeaves, hf]
            rfl
          rw [hf] at hcount
          have := (hrest (by simpa using hcount)).mono le_rfl hle'
          rw [← List.nil_append (membersLeaves members _ node (i + 1)), ← hnil] at this
          exact this
      | some c =>
          -- this is the only member that is initialized
          rw [hf] at hcount
          have hzero := membersLeaves_of_none .union members node (i + 1) 0
            (by simp at hcount; exact hcount)
          have := hfirst.mono le_rfl ((Nat.zero_add _).le.trans hle)
          rw [← List.append_nil (List.map _ _), ← hzero] at this
          exact this
  termination_by structural members => members

end

/-- A leaf that no other leaf overlaps can be read back. -/
theorem Represents.read {v start stop : Nat} {ls : List Leaf} (h : Represents v ls)
    (hls : Ordered start stop ls) {l : Leaf} (hl : l ∈ ls) :
    (v >>> l.offset) % 2 ^ l.width = l.bits := by
  have hbits : ∀ l : Leaf, l.bits < 2 ^ l.width := by
    intro l
    have hpos : (0 : Int) < 2 ^ l.width := by positivity
    have := Int.emod_lt_of_pos l.value hpos
    have := Int.emod_nonneg l.value hpos.ne'
    unfold Leaf.bits
    zify
    omega
  have hin : ∀ (k : Leaf) (b : Nat), k.testBit b = true →
      k.offset ≤ b ∧ b < k.offset + k.width := by
    intro k b hb
    rw [Leaf.testBit, Bool.and_eq_true, decide_eq_true_eq] at hb
    refine ⟨hb.1, ?_⟩
    by_contra hge
    rw [Nat.testBit_lt_two_pow ((hbits k).trans_le (Nat.pow_le_pow_right (by decide)
      (show k.width ≤ b - k.offset by omega)))] at hb
    cases hb.2
  refine Nat.eq_of_testBit_eq fun j => ?_
  rw [Nat.testBit_mod_two_pow, Nat.testBit_shiftRight, h]
  by_cases hj : j < l.width
  · rw [decide_eq_true hj, Bool.true_and]
    have hown : l.testBit (l.offset + j) = l.bits.testBit j := by
      rw [Leaf.testBit, decide_eq_true (Nat.le_add_right _ _), Bool.true_and, Nat.add_sub_cancel_left]
    rw [← hown]
    cases hb : l.testBit (l.offset + j) with
    | true => exact List.any_eq_true.mpr ⟨l, hl, hb⟩
    | false =>
        rw [List.any_eq_false]
        intro k hk hkb
        obtain ⟨hstart, hstop⟩ := hin k _ hkb
        -- the leaves in front end before the bit, those behind start after it
        obtain ⟨l₁, l₂, rfl⟩ := List.append_of_mem hl
        obtain ⟨-, hafter, hbefore⟩ := List.pairwise_append.mp hls.pairwise
        rcases List.mem_append.mp hk with hk | hk
        · have := hbefore k hk l List.mem_cons_self
          omega
        rcases List.mem_cons.mp hk with rfl | hk
        · rw [hb] at hkb
          cases hkb
        · have := (List.pairwise_cons.mp hafter).1 k hk
          omega
  · rw [decide_eq_false hj, Bool.false_and]
    exact (Nat.testBit_lt_two_pow ((hbits l).trans_le
      (Nat.pow_le_pow_right (by decide) (Nat.le_of_not_lt hj)))).symm

/-! ## The list is flattened -/

theorem typeConvert_ok (node : KnownNode) {t : NodeType} (ht : t.getBitWidth ≤ 2 ^ 32) :
    ∃ v, typeConvert node.value node.type t = .ok v := by
  unfold typeConvert
  split
  · rename_i hlt
    cases node.type.baseType? with
    | some baseType =>
        have hw : (Literal.mk node.value node.type.getBitWidth).Widenable
            (decide (baseType = .int)) t.getBitWidth :=
          ⟨fun _ => (hlt.le.trans ht : node.type.getBitWidth ≤ 2 ^ 32), fun _ => ht⟩
        exact ⟨_, widen_eq node.wellFormed hw⟩
    | none => exact ⟨_, rfl⟩
  split
  · exact ⟨_, rfl⟩
  · exact ⟨_, rfl⟩

theorem flatField_ok {flat : Initializer → Except Failure Flat} {accepted : Initializer → Prop}
    {fieldType : NodeType} (advance : Bool) (ht : fieldType.getBitWidth ≤ 2 ^ 32)
    (hflat : ∀ c, accepted c → ∃ f, flat c = .ok f ∧ f.compileError = false)
    {child : Option Initializer} (hacc : fieldAccepted accepted child) {s : Flat}
    (hs : s.compileError = false) :
    ∃ s', flatField flat fieldType advance child s = .ok s' ∧ s'.compileError = false := by
  have hlist : ∀ c, accepted c → ∃ s', (do
        let f ← flat c
        let childFlatValue ← typeConvert f.result fieldType fieldType
        let s : Flat := { s with
          result := s.result ||| childFlatValue <<< s.offset
          compileError := s.compileError || f.compileError }
        pure (if advance then { s with offset := s.offset + fieldType.getBitWidth } else s)) =
        (.ok s' : Except Failure Flat) ∧ s'.compileError = false := by
    intro c hc
    obtain ⟨f, hf, herror⟩ := hflat c hc
    refine ⟨_, by simp only [hf, typeConvert_self, bind, Except.bind]; rfl, ?_⟩
    cases advance <;> simp [hs, herror]
  cases child with
  | none =>
      refine ⟨_, rfl, ?_⟩
      cases advance <;> exact hs
  | some child =>
      cases child with
      | known node =>
          obtain ⟨v, hv⟩ := typeConvert_ok node ht
          refine ⟨_, by simp only [flatField, hv, bind, Except.bind, pure, Except.pure]; rfl, ?_⟩
          cases advance <;> exact hs
      | unknown => exact absurd hacc id
      | list children => exact hlist _ hacc
      | designated children => exact hlist _ hacc

theorem foldlM_flatField_ok {flat : Initializer → Except Failure Flat}
    {accepted : Initializer → Prop} {fieldType : NodeType} (ht : fieldType.getBitWidth ≤ 2 ^ 32)
    (hflat : ∀ c, accepted c → ∃ f, flat c = .ok f ∧ f.compileError = false)
    {child : Nat → Option Initializer} (is : List Nat)
    (hacc : ∀ i ∈ is, fieldAccepted accepted (child i)) {s : Flat} (hs : s.compileError = false) :
    ∃ s', is.foldlM (fun s i => flatField flat fieldType true (child i) s) s = .ok s' ∧
      s'.compileError = false := by
  induction is generalizing s with
  | nil => exact ⟨s, rfl, hs⟩
  | cons i is ih =>
      obtain ⟨u, hu, herror⟩ := flatField_ok true ht hflat (hacc i List.mem_cons_self) hs
      rw [List.foldlM_cons, hu]
      exact ih (fun j hj => hacc j (List.mem_cons_of_mem _ hj)) herror

theorem memberWidth_le_sumWidths {m : Name × NodeType} {members : List (Name × NodeType)}
    (h : m ∈ members) : memberWidth m ≤ sumWidths members := by
  induction members with
  | nil => cases h
  | cons n members ih =>
      rw [sumWidths]
      rcases List.mem_cons.mp h with rfl | h
      · exact Nat.le_add_right _ _
      · exact (ih h).trans (Nat.le_add_left _ _)

theorem memberWidth_le_maxWidths {m : Name × NodeType} {members : List (Name × NodeType)}
    (h : m ∈ members) : memberWidth m ≤ maxWidths members := by
  induction members with
  | nil => cases h
  | cons n members ih =>
      rw [maxWidths]
      rcases List.mem_cons.mp h with rfl | h
      · exact Nat.le_max_left _ _
      · exact (ih h).trans (Nat.le_max_right _ _)

mutual

/-- An accepted list for a type that is not too wide is flattened without an error. -/
theorem getFlatValue_ok : ∀ (t : NodeType) (node : Initializer), t.getBitWidth ≤ 2 ^ 32 →
    Accepted t node → ∃ f, getFlatValue t node = .ok f ∧ f.compileError = false
  | .array elementType arraySize, node, ht, h => by
      rw [getFlatValue]
      cases arraySize with
      | zero => exact ⟨_, rfl, rfl⟩
      | succ n =>
          have helement : elementType.getBitWidth ≤ 2 ^ 32 :=
            (Nat.le_mul_of_pos_right _ (Nat.succ_pos n)).trans ht
          exact foldlM_flatField_ok helement
            (fun c hc => getFlatValue_ok elementType c helement hc) _
            (fun i hi => h i (List.mem_range.mp hi)) rfl
  | .structUnion _ .struct members, node, ht, h => by
      rw [getFlatValue]
      exact flatMembers_ok .struct members node 0 _
        (fun m hm => (memberWidth_le_sumWidths hm).trans ht) h.2 rfl
  | .structUnion _ .union members, node, ht, h => by
      rw [getFlatValue]
      exact flatMembers_ok .union members node 0 _
        (fun m hm => (memberWidth_le_maxWidths hm).trans ht) h.2 rfl
  | .bool, _, _, _ => ⟨_, rfl, rfl⟩
  | .leaf _ _, _, _, _ => ⟨_, rfl, rfl⟩
  | .enum _ _ _, _, _, _ => ⟨_, rfl, rfl⟩
  | .float _, _, _, _ => ⟨_, rfl, rfl⟩
  termination_by structural t => t

theorem flatMember_ok (type : ContainerType) : ∀ (m : Name × NodeType) (node : Initializer)
    (i : Nat) (s : Flat), memberWidth m ≤ 2 ^ 32 → MemberAccepted m node i →
    s.compileError = false → ∃ s', flatMember type m node i s = .ok s' ∧ s'.compileError = false
  | (_, memberType), _, _, _, ht, h, hs =>
      flatField_ok _ ht (fun c hc => getFlatValue_ok memberType c ht hc) h hs
  termination_by structural m => m

theorem flatMembers_ok (type : ContainerType) : ∀ (members : List (Name × NodeType))
    (node : Initializer) (i : Nat) (s : Flat), (∀ m ∈ members, memberWidth m ≤ 2 ^ 32) →
    MembersAccepted members node i → s.compileError = false →
    ∃ s', flatMembers type members node i s = .ok s' ∧ s'.compileError = false
  | [], _, _, s, _, _, hs => ⟨s, rfl, hs⟩
  | m :: members, node, i, s, ht, h, hs => by
      obtain ⟨u, hu, herror⟩ := flatMember_ok type m node i s (ht m List.mem_cons_self) h.1 hs
      rw [flatMembers, hu]
      exact flatMembers_ok type members node (i + 1) u
        (fun m hm => ht m (List.mem_cons_of_mem _ hm)) h.2 herror
  termination_by structural members => members

end

/-! ## The layouts agree -/

/-- The widths and offsets of the front end are those of the parse tree.  The flat value
    of an initializer list has the bits of its leaves, each truncated to the width of its
    field, and no others; the leaves of an accepted list do not overlap, so that
    each can be read back at its offset. -/
theorem layout_agrees :
    (∀ (t : Ty) (m : NodeType), parseType t = some m → hasWidth t = true →
      tWidth t = some (m.getBitWidth : Int)) ∧
    (∀ (t : Ty) (m : NodeType) (y : QualifiedName) (fields : List (Name × Ty)),
      parseType t = some m → hasWidth t = true → tConcrete t = .struct y fields → ∀ x : Name,
      tOffsetOf x t = (m.writeSymbols.find? (·.name == x)).map (fun s => (s.offset : Int)) ∧
      (fields.lookup x).bind tWidth =
        (m.writeSymbols.find? (·.name == x)).map fun s => (s.width : Int)) ∧
    (∀ (t : NodeType) (node : Initializer) (f : Flat), getFlatValue t node = .ok f →
      (∀ b, f.result.testBit b = (leavesOf t node).any (·.testBit b)) ∧
      (Accepted t node → Ordered 0 t.getBitWidth (leavesOf t node) ∧
        ∀ l ∈ leavesOf t node,
          (f.result >>> l.offset) % 2 ^ l.width = (l.value % 2 ^ l.width).toNat)) ∧
    (∀ (t : NodeType) (node : Initializer), Accepted t node → t.getBitWidth ≤ 2 ^ 32 →
      ∃ f, getFlatValue t node = .ok f ∧ f.compileError = false) := by
  refine ⟨fun t m => tWidth_parseType t, ?_, ?_, fun t node h ht => getFlatValue_ok t node ht h⟩
  · intro t m y fields hm hw hstruct x
    rw [← parseType_tConcrete, hstruct, parseType, Option.map_eq_some_iff] at hm
    obtain ⟨ms, hms, rfl⟩ := hm
    rw [← hasWidth_tConcrete, hstruct] at hw
    refine ⟨?_, width_writeMembers x .struct hms hw 0⟩
    have hoffset := offset_writeMembers x hms hw 0
    rw [tOffsetOf, hstruct, NodeType.writeSymbols, ← hoffset]
    simp
  · intro t node f hf
    have hrep := getFlatValue_represents t node f hf
    refine ⟨hrep, fun hacc => ?_⟩
    have hordered := ordered_leavesOf t node hacc
    exact ⟨hordered, fun l hl => hrep.read hordered hl⟩

/-- `struct S { uint4 a; int8[2] b; }`. -/
def pairType : Ty :=
  .struct ["S"] [("a", .unsigned 4), ("b", .array [] (.signed 8) [2])]

def pairNodeType : NodeType :=
  .structUnion ["S"] .struct [("a", .leaf .uint 4), ("b", .array (.leaf .int 8) 2)]

/-- `{ 3, { -1, 5 } }`, where `-1` has the type `int2`. -/
def pairList : Initializer :=
  .list [.known ⟨.leaf .uint 4, 3, by decide, by decide, by decide⟩,
    .list [.known ⟨.leaf .int 2, 3, by decide, by decide, by decide⟩,
      .known ⟨.leaf .int 8, 5, by decide, by decide, by decide⟩]]

/-- The second field starts at bit 4 on both sides, and `-1` is found there with the width
    of the field. -/
theorem layout_agrees_pair :
    tWidth pairType = some 20 ∧ tOffsetOf "b" pairType = some 4 ∧
    ∃ f, getFlatValue pairNodeType pairList = .ok f ∧ (f.result >>> (4 : Nat)) % 2 ^ 8 = 255 := by
  obtain ⟨hwidth, hoffset, hflat, hok⟩ := layout_agrees
  have haccepted : Accepted pairNodeType pairList := by
    refine ⟨nofun, trivial, fun i hi => ?_, trivial⟩
    match i, hi with
    | 0, _ => exact trivial
    | 1, _ => exact trivial
  obtain ⟨f, hf, -⟩ := hok pairNodeType pairList haccepted (by decide)
  refine ⟨hwidth pairType pairNodeType rfl rfl, ?_, f, hf, ?_⟩
  · rw [(hoffset pairType pairNodeType _ _ rfl rfl rfl "b").1]
    rfl
  · exact ((hflat _ _ f hf).2 haccepted).2 ⟨4, 8, -1⟩ (List.mem_cons_of_mem _ List.mem_cons_self)

end Kanagawa.ParseTree
