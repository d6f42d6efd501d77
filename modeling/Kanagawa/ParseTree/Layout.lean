/-
  Kanagawa.ParseTree.Layout

  The layout of values in the parse tree of the middle end (`parse_tree.cpp`,
  `ir.cpp`): widths, the offsets written to the symbols, and the flat value of
  an initializer list.
-/
import Kanagawa.Arith.Literal
import Kanagawa.Frontend.Type

namespace Kanagawa.ParseTree

open Frontend (Name QualifiedName Ty)

/-! ## Types -/

/-- `BaseType`. -/
inductive BaseType where
  | int
  | uint
  deriving DecidableEq

/-- `ContainerType`. -/
inductive ContainerType where
  | struct
  | union
  deriving DecidableEq

/-- `Type`: the subclasses whose values are bits.  An `EnumType` is a `LeafType`. -/
inductive NodeType where
  | bool
  | leaf (baseType : BaseType) (width : Nat)
  | enum (name : QualifiedName) (baseType : BaseType) (width : Nat)
  | float (bitWidth : Nat)
  | array (elementType : NodeType) (arraySize : Nat)
  | structUnion (name : QualifiedName) (type : ContainerType) (members : List (Name × NodeType))

mutual

/-- `GetBitWidth`. -/
def NodeType.getBitWidth : NodeType → Nat
  | .bool => 1
  | .leaf _ width | .enum _ _ width => width
  | .float bitWidth => bitWidth
  | .array elementType arraySize => elementType.getBitWidth * arraySize
  | .structUnion _ .struct members => sumWidths members
  | .structUnion _ .union members => maxWidths members
  termination_by structural t => t

def memberWidth : Name × NodeType → Nat
  | (_, type) => type.getBitWidth
  termination_by structural m => m

def sumWidths : List (Name × NodeType) → Nat
  | [] => 0
  | m :: members => memberWidth m + sumWidths members
  termination_by structural members => members

def maxWidths : List (Name × NodeType) → Nat
  | [] => 0
  | m :: members => max (memberWidth m) (maxWidths members)
  termination_by structural members => members

end

/-- What `WriteSymbols` writes about a member. -/
structure MemberSymbol where
  name : Name
  offset : Nat
  width : Nat
  deriving DecidableEq

/-- The loop of `StructUnionType::WriteSymbols`. -/
def writeMembers (type : ContainerType) : Nat → List (Name × NodeType) → List MemberSymbol
  | _, [] => []
  | offset, (name, memberType) :: members =>
      { name := name, offset := offset, width := memberType.getBitWidth } ::
        writeMembers type
          (if type = .struct then offset + memberType.getBitWidth else offset) members

/-- `WriteSymbols`, for structs and unions. -/
def NodeType.writeSymbols : NodeType → List MemberSymbol
  | .structUnion _ type members => writeMembers type 0 members
  | _ => []

/-! ## The type built for a type of the front end -/

/-- `LeafType::LeafType`: the width must be positive. -/
def makeLeafType (baseType : BaseType) (width : Int) : Option NodeType :=
  if 0 < width then some (.leaf baseType width.toNat) else none

/-- `ParseArrayType`: arrays of more than one dimension are nested, the last dimension
    innermost.  The front end checks that dimensions are positive. -/
def parseArrayType (baseType : NodeType) (sizes : List Int) : Option NodeType :=
  if sizes ≠ [] ∧ ∀ n ∈ sizes, 0 < n then
    some (sizes.foldr (fun n type => .array type n.toNat) baseType)
  else none

mutual

/-- The type of the parse tree built for a type of the front end: what `ParseTree.hs`
    calls for each of its clauses.  A template instance is parsed as the type it is an
    instance of. -/
def parseType : Ty → Option NodeType
  | .boolean => some .bool
  | .float => some (.float 32)
  | .signed w => makeLeafType .int w
  | .unsigned w => makeLeafType .uint w
  | .enum x t =>
      match parseType t with
      | some (.leaf baseType width) => some (.enum x baseType width)
      | _ => none
  | .array _ t ns => (parseType t).bind (parseArrayType · ns)
  | .struct x fields => (parseMembers fields).map (.structUnion x .struct ·)
  | .union x fields => (parseMembers fields).map (.structUnion x .union ·)
  | .inst t _ _ => parseType t
  | _ => none
  termination_by structural t => t

def parseMember : Name × Ty → Option (Name × NodeType)
  | (x, t) => (parseType t).map (x, ·)
  termination_by structural f => f

def parseMembers : List (Name × Ty) → Option (List (Name × NodeType))
  | [] => some []
  | f :: fields => (parseMember f).bind fun m => (parseMembers fields).map (m :: ·)
  termination_by structural fields => fields

end

/-- `tOffsetOf` (`Type.hs`): the widths of the fields in front. -/
def tOffsetOf (field : Name) (t : Ty) : Option Int :=
  match Frontend.tConcrete t with
  | .struct _ fields =>
      (fields.findIdx? (·.1 == field)).bind fun n => Frontend.tSumWidths (fields.take n)
  | _ => none

/-! ## Initializer lists -/

/-- `_baseType` of a `LeafType`. -/
def NodeType.baseType? : NodeType → Option BaseType
  | .leaf baseType _ | .enum _ baseType _ => some baseType
  | _ => none

/-- `TypeConvert`. -/
def typeConvert (srcIn : Nat) (srcType dstType : NodeType) : Except Failure Nat :=
  if srcType.getBitWidth < dstType.getBitWidth then
    match srcType.baseType? with
    | some baseType => widen ⟨srcIn, srcType.getBitWidth⟩ (baseType = .int) dstType.getBitWidth
    | none => .ok srcIn
  else if srcType.getBitWidth > dstType.getBitWidth then
    .ok (truncate srcIn dstType.getBitWidth)
  else .ok srcIn

/-- An expression for which `TryGetKnownValueImpl` finds an integer, of the width of
    the type of the expression. -/
structure KnownNode where
  type : NodeType
  value : Nat
  wellFormed : (Literal.mk value type.getBitWidth).WellFormed

/-- The expressions in an initializer list: a value known at compile time or not, or
    another list.  Elements of a `DesignatedInitializerListNode` have names. -/
inductive Initializer where
  | known (node : KnownNode)
  | unknown
  | list (children : List Initializer)
  | designated (children : List (Name × Initializer))

/-- `TryGetField`.  The constructor of `DesignatedInitializerListNode` keeps the last
    element of a name. -/
def Initializer.tryGetField (index : Nat) (name : Name) : Initializer → Option Initializer
  | .list children => children[index]?
  | .designated children => children.reverse.lookup name
  | _ => none

/-- The variables of the loop of `GetFlatValue`; an element that is not known is reported
    and leaves no value. -/
structure Flat where
  result : Nat
  offset : Nat
  compileError : Bool

/-- The body of the loop of `GetFlatValue`.  `flat` is `GetFlatValue` for lists of the
    type of the field. -/
def flatField (flat : Initializer → Except Failure Flat) (fieldType : NodeType) (advance : Bool)
    (fieldNode : Option Initializer) (s : Flat) : Except Failure Flat := do
  let s ← match fieldNode with
    | none => pure s
    | some (.known node) => do
        let childFlatValue ← typeConvert node.value node.type fieldType
        pure { s with result := s.result ||| childFlatValue <<< s.offset }
    | some .unknown => pure { s with compileError := true }
    | some child => do
        -- `TypeCheck` gives a list the type of its field
        let f ← flat child
        let childFlatValue ← typeConvert f.result fieldType fieldType
        pure { s with
          result := s.result ||| childFlatValue <<< s.offset
          compileError := s.compileError || f.compileError }
  -- all members of a union start at offset zero
  pure (if advance then { s with offset := s.offset + fieldType.getBitWidth } else s)

mutual

/-- `BaseInitializerListNode::GetFlatValue`, for a list of the given type. -/
def getFlatValue : NodeType → Initializer → Except Failure Flat
  | .array elementType arraySize, node =>
      (List.range arraySize).foldlM
        (fun s i => flatField (getFlatValue elementType) elementType true (node.tryGetField i "") s)
        ⟨0, 0, false⟩
  | .structUnion _ type members, node => flatMembers type members node 0 ⟨0, 0, false⟩
  | _, _ => .ok ⟨0, 0, false⟩
  termination_by structural t => t

def flatMember (type : ContainerType) :
    Name × NodeType → Initializer → Nat → Flat → Except Failure Flat
  | (name, memberType), node, fieldIndex, s =>
      flatField (getFlatValue memberType) memberType (type = .struct)
        (node.tryGetField fieldIndex name) s
  termination_by structural m => m

def flatMembers (type : ContainerType) :
    List (Name × NodeType) → Initializer → Nat → Flat → Except Failure Flat
  | [], _, _, s => .ok s
  | m :: members, node, fieldIndex, s => do
      let s ← flatMember type m node fieldIndex s
      flatMembers type members node (fieldIndex + 1) s
  termination_by structural members => members

end

end Kanagawa.ParseTree
