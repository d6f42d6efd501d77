/-
  Kanagawa.Frontend.Mangle

  Names of template instances (`Mangle.hs`, `Template.hs`).

  The name of an instance is the template's name with the text of its arguments
  behind it.  The text of an argument is a marked word for each keyword, name and
  literal, one after the other, with nothing to show where a list ends.
-/
import Kanagawa.Lib.MarkedWords
import Kanagawa.Frontend.Infer

namespace Kanagawa.Frontend

open Lib

/-! ## Template arguments -/

/-- The characters that start a word of a mangled name. -/
def isMarker (c : Char) : Bool := c == '$' || c == '@'

/-- A `Float`, by the text that `show` gives for it. -/
def ShownFloat := { text : String // ∀ c ∈ text.toList, isMarker c = false }

/-- The expressions that `mangle` is defined on. -/
inductive ArgExp where
  | auto
  | array (attrs t dims : ArgExp)
  | attr (a : Attribute) (x : ArgExp)
  | boolLiteral (x : Bool)
  | const (t : ArgExp)
  | designator (x y : ArgExp)
  | enumValue (x y : ArgExp)
  | flagAttr (f : Flag)
  | floatLiteral (x : ShownFloat)
  | functionType (attrs params t : ArgExp)
  | functionTypeParam (attrs t : ArgExp) (name : Option ArgExp)
  | identifier (x : Name)
  | initializerList (xs : ArgExp)
  | intAttr (a : Attribute) (n : ArgExp)
  | integer (w : Int)
  | intLiteral (t : Option LiteralType) (x : Int)
  | positional (i : Int) (x : ArgExp)
  | qualifiedIdentifier (x : ArgExp)
  | reference (t : ArgExp)
  | scopedName (scope : QualifiedName) (qualifier : Option ArgExp) (x : ArgExp)
  | seq (xs : List ArgExp)
  | stringLiteral (x : String)
  | typeIdentifier (scope : QualifiedName) (x : ArgExp)
  | unsigned (w : Int)
  | boolean
  | float
  | string
  | void

/-! ## Mangling -/

/-- `show` of a `Bool`. -/
def showBool : Bool → String
  | true => "True"
  | false => "False"

mutual

/-- `mangle`.  In the arguments of the closure template function types are left
    out. -/
def mangle (isClosure : Bool) : ArgExp → String
  | .auto => "$auto"
  | .array x y z => "$array" ++ mangle isClosure x ++ mangle isClosure y ++ mangle isClosure z
  | .attr x y => "@" ++ x.show ++ mangle isClosure y
  | .boolLiteral x => "@" ++ showBool x
  | .const x => "$const" ++ mangle isClosure x
  | .designator x y => "@" ++ mangle isClosure x ++ mangle isClosure y
  | .enumValue x _ => mangle isClosure x
  | .flagAttr x => "$" ++ x.show
  | .floatLiteral x => "@" ++ x.1
  | .functionType x y z =>
      if isClosure then ""
      else "$fun" ++ mangle isClosure x ++ mangle isClosure y ++ mangle isClosure z
  | .functionTypeParam x y _ => mangle isClosure x ++ mangle isClosure y
  | .identifier x => "@" ++ x
  | .initializerList x => "@" ++ mangle isClosure x
  | .intAttr x y => "@" ++ x.show ++ mangle isClosure y
  | .integer x => "$int@" ++ toString x
  | .intLiteral _ x => "@" ++ toString x
  | .positional _ x => mangle isClosure x
  | .qualifiedIdentifier x => mangle isClosure x
  | .reference x => "$ref" ++ mangle isClosure x
  | .scopedName _ (some x) y => mangle isClosure x ++ mangle isClosure y
  | .scopedName _ none x => mangle isClosure x
  | .seq e => mangleAll isClosure e
  | .stringLiteral x => "$stringliteral" ++ x
  | .typeIdentifier _ x => mangle isClosure x
  | .unsigned x => "$uint@" ++ toString x
  | .boolean => "$bool"
  | .float => "$float"
  | .string => "$string"
  | .void => "$void"
  termination_by structural x => x

/-- `concat` of the mangled elements. -/
def mangleAll (isClosure : Bool) : List ArgExp → String
  | [] => ""
  | x :: xs => mangle isClosure x ++ mangleAll isClosure xs
  termination_by structural xs => xs

end

/-- The kinds of declarations that `deduplicateInstances` tells apart. -/
inductive DeclKind where
  | cls | struct | union | alias | template | function | other
  deriving Repr, DecidableEq

/-- A template, or a declaration: what the passes over instances read of it. -/
structure Declaration where
  kind : DeclKind
  declScopeName : QualifiedName
  declName : Name
  deriving Repr, DecidableEq

/-- `getQualifiedName` of a declaration. -/
def Declaration.getQualifiedName (d : Declaration) : QualifiedName :=
  d.declScopeName ++ [d.declName]

/-- `data'closure'core'Closure`. -/
def dataClosureCoreClosure : QualifiedName := ["@data@closure@core", "Closure"]

/-- `isClosure`. -/
def isClosure (template : Declaration) : Bool :=
  template.getQualifiedName == dataClosureCoreClosure

/-- `mangleTemplateIdentifier`. -/
def mangleTemplateIdentifier (template : Declaration) (args : List ArgExp) (x : Name) : Name :=
  x ++ ("<|" ++ mangle (isClosure template) (.seq args) ++ "|>")

/-! ## Instances -/

/-- `makeInstance`: the declaration of an instance. -/
def makeInstance (template : Declaration) (args : List ArgExp) : Declaration :=
  { template with declName := mangleTemplateIdentifier template args template.declName }

/-- `userDefinedTypes`. -/
def userDefinedTypes : DeclKind → DeclKind → Bool
  | .cls, .cls => true
  | .struct, .struct => true
  | .union, .union => true
  | .alias, .alias => true
  | .template, .template => true
  | .function, .function => true
  | _, _ => false

/-- `dup`. -/
def dup (t1 t2 : Declaration) : Bool :=
  userDefinedTypes t1.kind t2.kind && t1.getQualifiedName == t2.getQualifiedName

/-- `nubBy`, with the elements kept so far. -/
def nubBy {α : Type} (eq : α → α → Bool) (seen : List α) : List α → List α
  | [] => []
  | y :: ys => if seen.any (fun x => eq x y) then nubBy eq seen ys else y :: nubBy eq (y :: seen) ys

/-- `deduplicateInstances`. -/
def deduplicateInstances (a : List Declaration) : List Declaration := nubBy dup [] a

/-- `resolve`: the qualified name that stands for an instance of the template. -/
def resolve (template : Declaration) (args : List ArgExp) : QualifiedName :=
  template.declScopeName ++ [mangleTemplateIdentifier template args template.declName]

end Kanagawa.Frontend
