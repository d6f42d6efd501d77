/-
  Kanagawa.Frontend.Type

  The types of the front end (`Type.hs`).

  A type is a tree over some twenty constructors, with attributes on arrays,
  functions and parameters and with template arguments on instances.  A
  `Set TAttr` is the list of its elements in ascending order.  The name of a
  function parameter takes no part in equality, subtyping or printing and is
  left out, so that `==` is equality of trees.  `Int` and `Integer` are both
  unbounded here.
-/
import Mathlib

namespace Kanagawa.Frontend

/-! ## Syntax that types refer to -/

/-- `Name`: the hash that the source keeps beside the text is left out. -/
abbrev Name := String

abbrev QualifiedName := List Name

/-- `Attribute`. -/
inductive Attribute where
  | callRate | ecc | fifoDepth | latency | maxThreads | rename | schedule | threadRate
  | transactionSize
  deriving Repr, DecidableEq

/-- `show` of an attribute. -/
def Attribute.show : Attribute → String
  | .callRate => "call_rate"
  | .ecc => "ecc"
  | .fifoDepth => "fifo_depth"
  | .latency => "latency"
  | .maxThreads => "max_threads"
  | .rename => "name"
  | .schedule => "schedule"
  | .threadRate => "thread_rate"
  | .transactionSize => "transaction_size"

/-- `Flag`. -/
inductive Flag where
  | async | atomic | endTransaction | init | memory | noBackPressure | pure
  | nonReplicated | pipelined | quadPort | reorderByLooping | reset | unordered
  deriving Repr, DecidableEq

/-- `show` of a flag. -/
def Flag.show : Flag → String
  | .async => "async"
  | .atomic => "atomic"
  | .endTransaction => "last"
  | .memory => "memory"
  | .init => "initialize"
  | .noBackPressure => "no_backpressure"
  | .pure => "pure"
  | .nonReplicated => "non_replicated"
  | .pipelined => "pipelined"
  | .quadPort => "quad_port"
  | .reorderByLooping => "reorder_by_looping"
  | .reset => "reset"
  | .unordered => "unordered"

/-- `FunctionKind`. -/
inductive FunctionKind where
  | freeFunction | memberFunction | lambdaFunction
  deriving Repr, DecidableEq

/-! ## Types -/

mutual

/-- `Type`. -/
inductive Ty where
  | auto
  | template
  | type (t : Ty)
  | undefined
  | untyped
  | unresolved
  | initializer (ts : List Ty)
  | designator (x : Name) (t : Ty)
  | positional (i : Int) (t : Ty)
  | void
  | boolean
  | float
  | string
  | signed (w : Int)
  | unsigned (w : Int)
  | dependent (t : Ty)
  | const (t : Ty)
  | reference (x : QualifiedName)
  | array (attrs : List TAttr) (t : Ty) (ns : List Int)
  | function (kind : FunctionKind) (attrs : List TAttr) (t : Ty) (params : List TFuncParam)
  | closure (x : QualifiedName) (f c : Ty) (y : QualifiedName)
  | enum (x : QualifiedName) (t : Ty)
  | struct (x : QualifiedName) (fields : List (Name × Ty))
  | union (x : QualifiedName) (fields : List (Name × Ty))
  | cls (x : QualifiedName) (fields : List (Name × Ty))
  | inst (t : Ty) (x : QualifiedName) (args : List (Name × TArg))
  | error (e : String)

/-- `TAttr`. -/
inductive TAttr where
  | flagAttr (f : Flag)
  | intAttr (a : Attribute) (n : Int)
  | attr (a : Attribute) (x : QualifiedName) (t : Ty)

/-- `TFuncParam`, without the parameter's name. -/
inductive TFuncParam where
  | mk (attrOfParam : List TAttr) (typeOfParam : Ty)

/-- `TArg`. -/
inductive TArg where
  | arg (s : String)
  | strArg (s : String)
  | typeArg (t : Ty)
  | intArg (n : Int)
  | nameArg (t : Ty) (x : QualifiedName)

end

def TFuncParam.attrOfParam : TFuncParam → List TAttr
  | .mk attrs _ => attrs

def TFuncParam.typeOfParam : TFuncParam → Ty
  | .mk _ t => t

/-! ## Equality -/

mutual

/-- The derived `==` of types. -/
def Ty.beq : Ty → Ty → Bool
  | .auto, .auto => true
  | .template, .template => true
  | .type s, .type t => s.beq t
  | .undefined, .undefined => true
  | .untyped, .untyped => true
  | .unresolved, .unresolved => true
  | .initializer ss, .initializer ts => beqTypes ss ts
  | .designator x s, .designator y t => x == y && s.beq t
  | .positional i s, .positional j t => i == j && s.beq t
  | .void, .void => true
  | .boolean, .boolean => true
  | .float, .float => true
  | .string, .string => true
  | .signed v, .signed w => v == w
  | .unsigned v, .unsigned w => v == w
  | .dependent s, .dependent t => s.beq t
  | .const s, .const t => s.beq t
  | .reference x, .reference y => x == y
  | .array as s ms, .array bs t ns => beqAttrs as bs && s.beq t && ms == ns
  | .function k as s ps, .function l bs t qs =>
      k == l && beqAttrs as bs && s.beq t && beqParams ps qs
  | .closure x f c y, .closure x' f' c' y' => x == x' && f.beq f' && c.beq c' && y == y'
  | .enum x s, .enum y t => x == y && s.beq t
  | .struct x fs, .struct y gs => x == y && beqFields fs gs
  | .union x fs, .union y gs => x == y && beqFields fs gs
  | .cls x fs, .cls y gs => x == y && beqFields fs gs
  | .inst s x as, .inst t y bs => s.beq t && x == y && beqArgs as bs
  | .error e, .error e' => e == e'
  | _, _ => false
  termination_by structural a => a

def TAttr.beq : TAttr → TAttr → Bool
  | .flagAttr f, .flagAttr g => f == g
  | .intAttr a m, .intAttr b n => a == b && m == n
  | .attr a x s, .attr b y t => a == b && x == y && s.beq t
  | _, _ => false
  termination_by structural a => a

def TFuncParam.beq : TFuncParam → TFuncParam → Bool
  | .mk as s, .mk bs t => beqAttrs as bs && s.beq t
  termination_by structural a => a

def TArg.beq : TArg → TArg → Bool
  | .arg s, .arg t => s == t
  | .strArg s, .strArg t => s == t
  | .typeArg s, .typeArg t => s.beq t
  | .intArg m, .intArg n => m == n
  | .nameArg s x, .nameArg t y => s.beq t && x == y
  | _, _ => false
  termination_by structural a => a

def beqTypes : List Ty → List Ty → Bool
  | [], [] => true
  | s :: ss, t :: ts => s.beq t && beqTypes ss ts
  | _, _ => false
  termination_by structural a => a

def beqAttrs : List TAttr → List TAttr → Bool
  | [], [] => true
  | a :: as, b :: bs => a.beq b && beqAttrs as bs
  | _, _ => false
  termination_by structural a => a

def beqParams : List TFuncParam → List TFuncParam → Bool
  | [], [] => true
  | p :: ps, q :: qs => p.beq q && beqParams ps qs
  | _, _ => false
  termination_by structural a => a

def beqField : Name × Ty → Name × Ty → Bool
  | (x, s), (y, t) => x == y && s.beq t
  termination_by structural a => a

def beqFields : List (Name × Ty) → List (Name × Ty) → Bool
  | [], [] => true
  | f :: fs, g :: gs => beqField f g && beqFields fs gs
  | _, _ => false
  termination_by structural a => a

def beqArg : Name × TArg → Name × TArg → Bool
  | (x, a), (y, b) => x == y && a.beq b
  termination_by structural a => a

def beqArgs : List (Name × TArg) → List (Name × TArg) → Bool
  | [], [] => true
  | a :: as, b :: bs => beqArg a b && beqArgs as bs
  | _, _ => false
  termination_by structural a => a

end

-- `split` leaves the pairs of equal constructors and the last clause.
mutual

theorem Ty.eq_of_beq {s t : Ty} (h : s.beq t = true) : s = t := by
  unfold Ty.beq at h
  split at h
  case h_3 | h_16 | h_17 => rw [Ty.eq_of_beq h]
  case h_7 => rw [eq_of_beqTypes h]
  case h_14 | h_15 | h_18 | h_27 => rw [LawfulBEq.eq_of_beq h]
  case h_8 | h_9 | h_22 =>
    rw [Bool.and_eq_true] at h
    rw [LawfulBEq.eq_of_beq h.1, Ty.eq_of_beq h.2]
  case h_19 =>
    simp only [Bool.and_eq_true] at h
    rw [eq_of_beqAttrs h.1.1, Ty.eq_of_beq h.1.2, LawfulBEq.eq_of_beq h.2]
  case h_20 =>
    simp only [Bool.and_eq_true] at h
    rw [LawfulBEq.eq_of_beq h.1.1.1, eq_of_beqAttrs h.1.1.2, Ty.eq_of_beq h.1.2,
      eq_of_beqParams h.2]
  case h_21 =>
    simp only [Bool.and_eq_true] at h
    rw [LawfulBEq.eq_of_beq h.1.1.1, Ty.eq_of_beq h.1.1.2, Ty.eq_of_beq h.1.2,
      LawfulBEq.eq_of_beq h.2]
  case h_23 | h_24 | h_25 =>
    rw [Bool.and_eq_true] at h
    rw [LawfulBEq.eq_of_beq h.1, eq_of_beqFields h.2]
  case h_26 =>
    simp only [Bool.and_eq_true] at h
    rw [Ty.eq_of_beq h.1.1, LawfulBEq.eq_of_beq h.1.2, eq_of_beqArgs h.2]
  case h_28 => cases h
  all_goals rfl
decreasing_by
  all_goals subst_vars
  all_goals simp +arith

theorem TAttr.eq_of_beq {a b : TAttr} (h : a.beq b = true) : a = b := by
  unfold TAttr.beq at h
  split at h
  case h_1 => rw [LawfulBEq.eq_of_beq h]
  case h_2 =>
    rw [Bool.and_eq_true] at h
    rw [LawfulBEq.eq_of_beq h.1, LawfulBEq.eq_of_beq h.2]
  case h_3 =>
    simp only [Bool.and_eq_true] at h
    rw [LawfulBEq.eq_of_beq h.1.1, LawfulBEq.eq_of_beq h.1.2, Ty.eq_of_beq h.2]
  case h_4 => cases h
decreasing_by
  all_goals subst_vars
  all_goals simp +arith

theorem TFuncParam.eq_of_beq {p q : TFuncParam} (h : p.beq q = true) : p = q := by
  unfold TFuncParam.beq at h
  split at h
  rw [Bool.and_eq_true] at h
  rw [eq_of_beqAttrs h.1, Ty.eq_of_beq h.2]
decreasing_by
  all_goals subst_vars
  all_goals simp +arith

theorem TArg.eq_of_beq {a b : TArg} (h : a.beq b = true) : a = b := by
  unfold TArg.beq at h
  split at h
  case h_1 | h_2 | h_4 => rw [LawfulBEq.eq_of_beq h]
  case h_3 => rw [Ty.eq_of_beq h]
  case h_5 =>
    rw [Bool.and_eq_true] at h
    rw [Ty.eq_of_beq h.1, LawfulBEq.eq_of_beq h.2]
  case h_6 => cases h
decreasing_by
  all_goals subst_vars
  all_goals simp +arith

theorem eq_of_beqTypes {ss ts : List Ty} (h : beqTypes ss ts = true) : ss = ts := by
  unfold beqTypes at h
  split at h
  case h_1 => rfl
  case h_2 =>
    rw [Bool.and_eq_true] at h
    rw [Ty.eq_of_beq h.1, eq_of_beqTypes h.2]
  case h_3 => cases h
decreasing_by
  all_goals subst_vars
  all_goals simp +arith

theorem eq_of_beqAttrs {as bs : List TAttr} (h : beqAttrs as bs = true) : as = bs := by
  unfold beqAttrs at h
  split at h
  case h_1 => rfl
  case h_2 =>
    rw [Bool.and_eq_true] at h
    rw [TAttr.eq_of_beq h.1, eq_of_beqAttrs h.2]
  case h_3 => cases h
decreasing_by
  all_goals subst_vars
  all_goals simp +arith

theorem eq_of_beqParams {ps qs : List TFuncParam} (h : beqParams ps qs = true) : ps = qs := by
  unfold beqParams at h
  split at h
  case h_1 => rfl
  case h_2 =>
    rw [Bool.and_eq_true] at h
    rw [TFuncParam.eq_of_beq h.1, eq_of_beqParams h.2]
  case h_3 => cases h
decreasing_by
  all_goals subst_vars
  all_goals simp +arith

theorem eq_of_beqField : ∀ {f g : Name × Ty}, beqField f g = true → f = g
  | (x, s), (y, t), h => by
      rw [beqField, Bool.and_eq_true] at h
      rw [LawfulBEq.eq_of_beq h.1, Ty.eq_of_beq h.2]
decreasing_by
  simp +arith

theorem eq_of_beqFields {fs gs : List (Name × Ty)} (h : beqFields fs gs = true) : fs = gs := by
  unfold beqFields at h
  split at h
  case h_1 => rfl
  case h_2 =>
    rw [Bool.and_eq_true] at h
    rw [eq_of_beqField h.1, eq_of_beqFields h.2]
  case h_3 => cases h
decreasing_by
  all_goals subst_vars
  all_goals simp +arith

theorem eq_of_beqArg : ∀ {a b : Name × TArg}, beqArg a b = true → a = b
  | (x, a), (y, b), h => by
      rw [beqArg, Bool.and_eq_true] at h
      rw [LawfulBEq.eq_of_beq h.1, TArg.eq_of_beq h.2]
decreasing_by
  simp +arith

theorem eq_of_beqArgs {as bs : List (Name × TArg)} (h : beqArgs as bs = true) : as = bs := by
  unfold beqArgs at h
  split at h
  case h_1 => rfl
  case h_2 =>
    rw [Bool.and_eq_true] at h
    rw [eq_of_beqArg h.1, eq_of_beqArgs h.2]
  case h_3 => cases h
decreasing_by
  all_goals subst_vars
  all_goals simp +arith

end

mutual

theorem Ty.beq_self (t : Ty) : t.beq t = true := by
  cases t with
  | type t | dependent t | const t => exact t.beq_self
  | initializer ts => exact beqTypes_self ts
  | designator x t | positional x t | enum x t =>
      simp only [Ty.beq, beq_self_eq_true, t.beq_self, Bool.and_self]
  | signed w | unsigned w => exact beq_self_eq_true w
  | reference x => exact beq_self_eq_true x
  | error e => exact beq_self_eq_true e
  | array as t ns =>
      simp only [Ty.beq, beqAttrs_self as, t.beq_self, beq_self_eq_true, Bool.and_self]
  | function k as t ps =>
      simp only [Ty.beq, beq_self_eq_true, beqAttrs_self as, t.beq_self, beqParams_self ps,
        Bool.and_self]
  | closure x f c y => simp only [Ty.beq, beq_self_eq_true, f.beq_self, c.beq_self, Bool.and_self]
  | struct x fs | union x fs | cls x fs =>
      simp only [Ty.beq, beq_self_eq_true, beqFields_self fs, Bool.and_self]
  | inst t x as => simp only [Ty.beq, t.beq_self, beq_self_eq_true, beqArgs_self as, Bool.and_self]
  | _ => rfl

theorem TAttr.beq_self (a : TAttr) : a.beq a = true := by
  cases a with
  | flagAttr f => exact beq_self_eq_true f
  | intAttr a n => simp only [TAttr.beq, beq_self_eq_true, Bool.and_self]
  | attr a x t => simp only [TAttr.beq, beq_self_eq_true, t.beq_self, Bool.and_self]

theorem TFuncParam.beq_self (p : TFuncParam) : p.beq p = true := by
  cases p with
  | mk as t => simp only [TFuncParam.beq, beqAttrs_self as, t.beq_self, Bool.and_self]

theorem TArg.beq_self (a : TArg) : a.beq a = true := by
  cases a with
  | arg s | strArg s => exact beq_self_eq_true s
  | typeArg t => exact t.beq_self
  | intArg n => exact beq_self_eq_true n
  | nameArg t x => simp only [TArg.beq, t.beq_self, beq_self_eq_true, Bool.and_self]

theorem beqTypes_self (ts : List Ty) : beqTypes ts ts = true := by
  cases ts with
  | nil => rfl
  | cons t ts => simp only [beqTypes, t.beq_self, beqTypes_self ts, Bool.and_self]

theorem beqAttrs_self (as : List TAttr) : beqAttrs as as = true := by
  cases as with
  | nil => rfl
  | cons a as => simp only [beqAttrs, a.beq_self, beqAttrs_self as, Bool.and_self]

theorem beqParams_self (ps : List TFuncParam) : beqParams ps ps = true := by
  cases ps with
  | nil => rfl
  | cons p ps => simp only [beqParams, p.beq_self, beqParams_self ps, Bool.and_self]

theorem beqField_self (f : Name × Ty) : beqField f f = true := by
  obtain ⟨x, t⟩ := f
  simp only [beqField, beq_self_eq_true, t.beq_self, Bool.and_self]

theorem beqFields_self (fs : List (Name × Ty)) : beqFields fs fs = true := by
  cases fs with
  | nil => rfl
  | cons f fs => simp only [beqFields, beqField_self f, beqFields_self fs, Bool.and_self]

theorem beqArg_self (a : Name × TArg) : beqArg a a = true := by
  obtain ⟨x, a⟩ := a
  simp only [beqArg, beq_self_eq_true, a.beq_self, Bool.and_self]

theorem beqArgs_self (as : List (Name × TArg)) : beqArgs as as = true := by
  cases as with
  | nil => rfl
  | cons a as => simp only [beqArgs, beqArg_self a, beqArgs_self as, Bool.and_self]

end

instance : DecidableEq Ty := fun s t =>
  decidable_of_iff (s.beq t = true) ⟨Ty.eq_of_beq, fun h => h ▸ s.beq_self⟩

instance : DecidableEq TAttr := fun a b =>
  decidable_of_iff (a.beq b = true) ⟨TAttr.eq_of_beq, fun h => h ▸ a.beq_self⟩

/-! ## Questions about the head of a type -/

/-- `maybeInner`: a question that looks through `const` and instances. -/
def tIs (head : Ty → Bool) : Ty → Bool
  | .const t => head (.const t) || tIs head t
  | .inst t x as => head (.inst t x as) || tIs head t
  | t => head t

def tIsError : Ty → Bool := tIs fun | .error _ => true | _ => false

def tIsFloat : Ty → Bool := tIs fun | .float => true | _ => false

def tIsStruct : Ty → Bool := tIs fun | .struct _ _ => true | _ => false

def tIsUnion : Ty → Bool := tIs fun | .union _ _ => true | _ => false

def tIsClass : Ty → Bool := tIs fun | .cls _ _ => true | _ => false

def tIsBool : Ty → Bool := tIs fun | .boolean => true | _ => false

def tIsEnum : Ty → Bool := tIs fun | .enum _ _ => true | _ => false

def tIsSigned : Ty → Bool := tIs fun | .signed _ => true | _ => false

def tIsUnsigned : Ty → Bool := tIs fun | .unsigned _ => true | _ => false

def tIsFunction : Ty → Bool := tIs fun | .function _ _ _ _ => true | _ => false

def tIsType : Ty → Bool := tIs fun | .type _ => true | _ => false

/-- `tIsArray`, that is `tIsArrayOf (const True)`. -/
def tIsArray : Ty → Bool := tIs fun | .array _ _ _ => true | _ => false

def tIsInt (t : Ty) : Bool := tIsUnsigned t || tIsSigned t

/-! ## Resolved types -/

mutual

/-- `tResolved`. -/
def tResolved : Ty → Bool
  | .auto | .untyped | .void | .boolean | .float | .string | .signed _ | .unsigned _
  | .error _ | .reference _ => true
  | .template | .undefined | .unresolved => false
  | .initializer ts => allResolved ts
  | .designator _ t | .positional _ t | .type t | .dependent t | .const t | .enum _ t
  | .inst t _ _ => tResolved t
  | .array attrs t ns => tResolved t && !ns.isEmpty && attrsResolved attrs
  | .function _ _ t params => tResolved t && paramsResolved params
  | .closure _ f c _ => tResolved f && tResolved c
  | .struct _ fields | .union _ fields | .cls _ fields => fieldsResolved fields
  termination_by structural t => t

def allResolved : List Ty → Bool
  | [] => true
  | t :: ts => tResolved t && allResolved ts
  termination_by structural ts => ts

/-- `attrResolved`. -/
def attrResolved : TAttr → Bool
  | .attr _ _ t => tResolved t
  | _ => true
  termination_by structural a => a

def attrsResolved : List TAttr → Bool
  | [] => true
  | a :: attrs => attrResolved a && attrsResolved attrs
  termination_by structural attrs => attrs

def paramResolved : TFuncParam → Bool
  | .mk _ t => tResolved t
  termination_by structural p => p

def paramsResolved : List TFuncParam → Bool
  | [] => true
  | p :: params => paramResolved p && paramsResolved params
  termination_by structural params => params

def fieldResolved : Name × Ty → Bool
  | (_, t) => tResolved t
  termination_by structural f => f

def fieldsResolved : List (Name × Ty) → Bool
  | [] => true
  | f :: fields => fieldResolved f && fieldsResolved fields
  termination_by structural fields => fields

end

/-! ## Printing -/

/-- `unmangleModuleNamespace`. -/
def unmangleModuleNamespace (x : Name) : Name :=
  match x.toList with
  | '@' :: xs => String.ofList (xs.map fun c => if c = '@' then '.' else c)
  | _ => x

/-- `prettyQualifiedName`. -/
def prettyQualifiedName : QualifiedName → String
  | [] => ""
  | x :: xs => "::".intercalate (unmangleModuleNamespace x :: xs)

/-- `prettyDimensions`. -/
def prettyDimensions : List Int → String
  | [] => "[]"
  | ns => String.join (ns.map fun n => "[" ++ toString n ++ "]")

/-- `pretty` of an attribute. -/
def TAttr.pretty : TAttr → String
  | .flagAttr f => f.show
  | .intAttr a n => a.show ++ "(" ++ toString n ++ ")"
  | .attr a x _ => a.show ++ "(" ++ "::".intercalate x ++ ")"

/-- `prettyAttr`. -/
def prettyAttr (attrs : List TAttr) : String :=
  if attrs.isEmpty then "" else "[[" ++ ",".intercalate (attrs.map TAttr.pretty) ++ "]] "

/-- The last two equations of `formatArray`: an element type printed as `t`
    under attributes and dimensions. -/
def formatElement (attrs : List TAttr) (ns : List Int) (t : String) : String :=
  if attrs.isEmpty then t ++ prettyDimensions ns
  else if ns.dropLast.isEmpty then prettyAttr attrs ++ t ++ prettyDimensions ns
  else "(" ++ prettyAttr attrs ++ t ++ prettyDimensions ns.getLast?.toList ++ ")" ++
    prettyDimensions ns.dropLast

/-- The attributes and dimensions of an array around the type being printed. -/
abbrev Around := Option (List TAttr × List Int)

def Around.format (around : Around) (t : String) : String :=
  match around with
  | none => t
  | some (attrs, ns) => formatElement attrs ns t

mutual

/-- `pretty` of a type, and `formatArray` when it is the element of an array:
    an array without attributes lends its dimensions to the array inside. -/
def Ty.prettyIn (around : Around) : Ty → String
  | .array attrs t ns =>
      match around with
      | none => t.prettyIn (some (attrs, ns))
      | some (outer, ms) =>
          if outer.isEmpty then t.prettyIn (some (attrs, ms ++ ns))
          else formatElement outer ms ("(" ++ t.prettyIn (some (attrs, ns)) ++ ")")
  | .auto => around.format "auto"
  | .type t => around.format ("type " ++ t.prettyIn none)
  | .template => around.format "template"
  | .untyped => around.format ""
  | .undefined => around.format "undefined"
  | .unresolved => around.format "unresolved"
  | .initializer ts => around.format ("\x7b" ++ ", ".intercalate (prettyTypes ts) ++ "\x7d")
  | .void => around.format "void"
  | .boolean => around.format "bool"
  | .designator x t => around.format ("." ++ x ++ " = " ++ t.prettyIn none)
  | .positional _ t => around.format (t.prettyIn none)
  | .float => around.format "float"
  | .string => around.format "string"
  | .signed w => around.format ("int" ++ toString w)
  | .unsigned w => around.format ("uint" ++ toString w)
  | .dependent t => around.format (t.prettyIn none)
  | .const t => around.format ("const " ++ t.prettyIn none)
  | .reference x => around.format (prettyQualifiedName x ++ "&")
  | .function _ attrs t params => around.format (prettyAttr attrs ++ "(" ++
      ", ".intercalate (prettyParams params) ++ ") -> " ++ t.prettyIn none)
  | .closure x _ c _ => around.format ("[" ++ c.prettyIn none ++ "] " ++ prettyQualifiedName x)
  | .enum x _ | .struct x _ | .union x _ | .cls x _ => around.format (prettyQualifiedName x)
  | .inst t x args =>
      if tIsFunction t || tIsError t || !tResolved t then around.format (t.prettyIn none)
      else around.format (prettyQualifiedName x ++ "<" ++ ", ".intercalate (prettyArgs args) ++ ">")
  | .error e => around.format e
  termination_by structural t => t

def prettyTypes : List Ty → List String
  | [] => []
  | t :: ts => t.prettyIn none :: prettyTypes ts
  termination_by structural ts => ts

def TFuncParam.pretty : TFuncParam → String
  | .mk attrs t => prettyAttr attrs ++ t.prettyIn none
  termination_by structural p => p

def prettyParams : List TFuncParam → List String
  | [] => []
  | p :: params => p.pretty :: prettyParams params
  termination_by structural params => params

def TArg.pretty : TArg → String
  | .arg s => s
  | .strArg s => s
  | .typeArg t => t.prettyIn none
  | .intArg n => toString n
  | .nameArg _ x => "::".intercalate x
  termination_by structural a => a

def prettyNamedArg : Name × TArg → String
  | (_, a) => a.pretty
  termination_by structural a => a

def prettyArgs : List (Name × TArg) → List String
  | [] => []
  | a :: args => prettyNamedArg a :: prettyArgs args
  termination_by structural args => args

end

/-- `showPretty`. -/
def showPretty (t : Ty) : String := t.prettyIn none

/-! ## Parts of a type -/

/-- `tConcrete`. -/
def tConcrete : Ty → Ty
  | .inst t _ _ => tConcrete t
  | t => t

/-- `tEnumBase`. -/
def tEnumBase : Ty → Ty
  | .enum _ t => t
  | .const t => tEnumBase t
  | .inst t _ _ => tEnumBase t
  | _ => .error "Expected an enum"

mutual

/-- `tWidth`; `maximum` of an empty union, which throws, is `none` here. -/
def tWidth : Ty → Option Int
  | .auto | .template | .initializer _ | .void | .dependent _ | .function _ _ _ _ | .cls _ _
  | .error _ | .undefined | .unresolved | .untyped => none
  | .type t | .designator _ t | .positional _ t | .const t | .closure _ _ t _ | .enum _ t
  | .inst t _ _ => tWidth t
  | .boolean | .reference _ => some 1
  | .float => some 32
  | .string => some 0
  | .signed w | .unsigned w => some w
  | .array _ _ [] => none
  | .array _ t ns => (tWidth t).map (ns.prod * ·)
  | .struct _ fields => tSumWidths fields
  | .union _ fields => tMaxWidths fields
  termination_by structural t => t

/-- The width of a field. -/
def tFieldWidth : Name × Ty → Option Int
  | (_, t) => tWidth t
  termination_by structural f => f

/-- `tSumWidths`. -/
def tSumWidths : List (Name × Ty) → Option Int
  | [] => some 0
  | f :: fields => (tFieldWidth f).bind fun w => (tSumWidths fields).map (w + ·)
  termination_by structural fields => fields

/-- `maximum` over `Maybe Int`, where `Nothing` is least. -/
def tMaxWidths : List (Name × Ty) → Option Int
  | [] => none
  | f :: fields =>
      match tFieldWidth f, tMaxWidths fields with
      | none, w => w
      | w, none => w
      | some v, some w => some (max v w)
  termination_by structural fields => fields

end

end Kanagawa.Frontend
