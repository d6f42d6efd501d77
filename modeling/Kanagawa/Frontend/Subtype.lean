/-
  Kanagawa.Frontend.Subtype

  Subtyping, conversion and common supertypes (`Type.hs`).

  The relations are functions on pairs of types that follow the source clause
  by clause.  They recurse into the parts of a type, and for arrays and
  initializers into types looked up in a part, so that they terminate by the
  size of the two types together.  An initializer is a list of positional and
  designated elements; where the source is `undefined` on any other list, the
  element has no type here.
-/
import Kanagawa.Frontend.Type

namespace Kanagawa.Frontend

/-! ## Size -/

mutual

/-- The number of constructors and dimensions of a type, attributes included
    and texts not counted. -/
def Ty.size : Ty → Nat
  | .initializer ts => 1 + sizeTypes ts
  | .designator _ t | .positional _ t | .type t | .dependent t | .const t | .enum _ t
  | .inst t _ _ => 1 + t.size
  | .array attrs t ns => 1 + sizeAttrs attrs + t.size + ns.length
  | .function _ _ t params => 1 + t.size + sizeParams params
  | .closure _ f c _ => 1 + f.size + c.size
  | .struct _ fields | .union _ fields | .cls _ fields => 1 + sizeFields fields
  | _ => 1
  termination_by structural t => t

def sizeTypes : List Ty → Nat
  | [] => 0
  | t :: ts => t.size + sizeTypes ts
  termination_by structural ts => ts

def TAttr.size : TAttr → Nat
  | .attr _ _ t => t.size
  | _ => 0
  termination_by structural a => a

def sizeAttrs : List TAttr → Nat
  | [] => 0
  | a :: attrs => a.size + sizeAttrs attrs
  termination_by structural attrs => attrs

def TFuncParam.size : TFuncParam → Nat
  | .mk _ t => t.size
  termination_by structural p => p

def sizeParams : List TFuncParam → Nat
  | [] => 0
  | p :: params => p.size + sizeParams params
  termination_by structural params => params

def sizeField : Name × Ty → Nat
  | (_, t) => t.size
  termination_by structural f => f

def sizeFields : List (Name × Ty) → Nat
  | [] => 0
  | f :: fields => sizeField f + sizeFields fields
  termination_by structural fields => fields

end

theorem Ty.size_pos (t : Ty) : 0 < t.size := by
  cases t <;> simp only [Ty.size] <;> omega

theorem size_le_sizeTypes {t : Ty} {ts : List Ty} (h : t ∈ ts) : t.size ≤ sizeTypes ts := by
  induction ts with
  | nil => cases h
  | cons u ts ih =>
      rcases List.mem_cons.mp h with rfl | h
      · exact Nat.le_add_right _ _
      · exact Nat.le_trans (ih h) (Nat.le_add_left _ _)

theorem size_le_sizeParams {p : TFuncParam} {params : List TFuncParam} (h : p ∈ params) :
    p.typeOfParam.size ≤ sizeParams params := by
  induction params with
  | nil => cases h
  | cons q params ih =>
      rcases List.mem_cons.mp h with rfl | h
      · cases p
        exact Nat.le_add_right _ _
      · exact Nat.le_trans (ih h) (Nat.le_add_left _ _)

theorem size_le_sizeFields {f : Name × Ty} {fields : List (Name × Ty)} (h : f ∈ fields) :
    f.2.size ≤ sizeFields fields := by
  induction fields with
  | nil => cases h
  | cons g fields ih =>
      rcases List.mem_cons.mp h with rfl | h
      · cases f
        exact Nat.le_add_right _ _
      · exact Nat.le_trans (ih h) (Nat.le_add_left _ _)

theorem size_le_sizeAttrs {a : Attribute} {x : QualifiedName} {t : Ty} {attrs : List TAttr}
    (h : TAttr.attr a x t ∈ attrs) : t.size ≤ sizeAttrs attrs := by
  induction attrs with
  | nil => cases h
  | cons b attrs ih =>
      rcases List.mem_cons.mp h with rfl | h
      · exact Nat.le_add_right _ _
      · exact Nat.le_trans (ih h) (Nat.le_add_left _ _)

theorem tConcrete_size (t : Ty) : (tConcrete t).size ≤ t.size := by
  fun_induction tConcrete t with
  | case1 t x args ih => exact Nat.le_trans ih (Nat.le_add_left _ _)
  | case2 t => exact Nat.le_refl _

/-! ## Elements and fields -/

/-- `tReturn`. -/
def tReturn : Ty → Ty
  | .function _ _ t _ => if t = .auto then .unresolved else t
  | .closure _ f _ _ => tReturn f
  | .inst t _ _ => tReturn t
  | .const t => tReturn t
  | t => if !tResolved t then .unresolved
      else match t with
        | .error e => .error e
        | _ => .error "Undefined function"

/-- The `ecc` attribute of an array. -/
def eccType (attrs : List TAttr) : Option Ty :=
  attrs.findSome? fun
    | .attr .ecc _ t => some t
    | _ => none

/-- `tElement`. -/
def tElement : Ty → Ty
  | .array _ t [] => t
  | .array attrs t [_] => ((eccType attrs).map tReturn).getD t
  | .array attrs t (_ :: ns) => .array attrs t ns
  | .const t => .const (tElement t)
  | .inst t _ _ => tElement t
  | .type _ => .error "Invalid element access; did you forget `typename`"
  | t => if !tResolved t then .unresolved
      else if !tIsArray t then
        .error ("Invalid element access on non-array type `" ++ showPretty t ++ "`")
      else .error "Invalid element access"

/-- `tLookupField`.  Fields of a reference are `undefined` in the source; the
    callers ask for fields of structs, unions and classes only. -/
def tLookupField (find : List (Name × Ty) → Option Ty) : Ty → Option Ty
  | .struct _ fields | .union _ fields | .cls _ fields => find fields
  | .const t => (tLookupField find t).map .const
  | .reference _ => none
  | .inst t _ _ => tLookupField find t
  | t => if !tResolved t then some .unresolved
      else some (.error ("Invalid member access on type `" ++ showPretty t ++ "`"))

/-- `maybeAt`, on the types of the fields. -/
def fieldAt (i : Int) (fields : List (Name × Ty)) : Option Ty :=
  if 0 ≤ i then fields[i.toNat]?.map Prod.snd else none

/-- `tFieldAt`. -/
def tFieldAt (t : Ty) (i : Int) : Ty :=
  (tLookupField (fieldAt i) t).getD
    (.error ("Excess element in initializer of type " ++ showPretty t))

/-- `tField`. -/
def tField (t : Ty) (x : Name) : Ty :=
  (tLookupField (·.lookup x) t).getD .undefined

/-- `tDimension`. -/
def tDimension : Ty → Option Int
  | .inst t _ _ => tDimension t
  | .const t => tDimension t
  | .array _ _ (d :: _) => some d
  | _ => none

/-- `tInitializerType`. -/
def tInitializerType : Ty → Option Ty
  | .designator _ t => some t
  | .positional _ t => some t
  | _ => none

/-- `tInitializedType`: what the element `e` of an initializer initializes in
    `t`. -/
def tInitializedType : Ty → Ty → Option Ty
  | .const t, e => tInitializedType t e
  | t, .positional i _ => some <|
      if tIsArray t && tDimension t == some i then .error "Excess elements in array initializer"
      else if tIsUnion t && i != 0 then .error "Excess elements in union initializer"
      else if tIsArray t then tElement t
      else if tIsUnion t || tIsStruct t || tIsClass t then tFieldAt t i
      else .error ("Non-empty initializer list cannot initialize type " ++ showPretty t)
  | t, .designator x _ => some <|
      if tIsUnion t || tIsStruct t || tIsClass t then tField t x
      else .error ("Member designator cannot initialize type " ++ showPretty t)
  | _, _ => none

theorem tReturn_size (t : Ty) : (tReturn t).size ≤ t.size := by
  fun_induction tReturn t with
  | case1 => exact Ty.size_pos _
  | case2 => simp only [Ty.size]; omega
  | case3 _ f c _ ih => simp only [Ty.size]; omega
  | case4 t _ _ ih => simp only [Ty.size]; omega
  | case5 t ih => simp only [Ty.size]; omega
  | case6 t => exact t.size_pos
  | case7 => exact Nat.le_refl _
  | case8 t => exact t.size_pos

theorem eccType_size {attrs : List TAttr} {t : Ty} (h : eccType attrs = some t) :
    t.size ≤ sizeAttrs attrs := by
  obtain ⟨a, ha, hat⟩ := List.exists_of_findSome?_eq_some h
  split at hat
  · cases hat
    exact size_le_sizeAttrs ha
  · cases hat

/-- The element of an array is smaller than the array. -/
theorem tElement_array_size (attrs : List TAttr) (t : Ty) (ns : List Int) :
    (tElement (.array attrs t ns)).size < (Ty.array attrs t ns).size := by
  match ns with
  | [] => simp only [tElement, Ty.size, List.length_nil]; omega
  | [_] =>
      simp only [tElement, Ty.size, List.length_singleton]
      cases hecc : eccType attrs with
      | none => simp only [Option.map_none, Option.getD_none]; omega
      | some u =>
          have hret := tReturn_size u
          have hattr := eccType_size hecc
          simp only [Option.map_some, Option.getD_some]
          omega
  | _ :: n :: ns => simp only [tElement, Ty.size, List.length_cons]; omega

theorem tElement_size (t : Ty) : (tElement t).size ≤ t.size := by
  induction t using tElement.induct with
  | case1 | case2 | case3 => exact Nat.le_of_lt (tElement_array_size _ _ _)
  | case4 t ih | case5 t _ _ ih => simp only [tElement, Ty.size]; omega
  | case6 t => exact Nat.le_add_right 1 _
  | case7 t | case8 t | case9 t => simp_all only [tElement]; exact t.size_pos

theorem tLookupField_size {find : List (Name × Ty) → Option Ty}
    (hfind : ∀ {fields t}, find fields = some t → t.size ≤ sizeFields fields) {t u : Ty}
    (h : tLookupField find t = some u) : u.size ≤ t.size := by
  fun_induction tLookupField find t generalizing u with
  | case1 _ fields | case2 _ fields | case3 _ fields =>
      exact Nat.le_trans (hfind h) (Nat.le_add_left _ _)
  | case4 t ih =>
      obtain ⟨v, hv, rfl⟩ := Option.map_eq_some_iff.mp h
      have := ih hv
      simp only [Ty.size]
      omega
  | case5 => cases h
  | case6 t _ _ ih => exact Nat.le_trans (ih h) (Nat.le_add_left _ _)
  | case7 t | case8 t =>
      cases h
      exact t.size_pos

theorem fieldAt_size {i : Int} {fields : List (Name × Ty)} {t : Ty}
    (h : fieldAt i fields = some t) : t.size ≤ sizeFields fields := by
  unfold fieldAt at h
  split at h
  · obtain ⟨f, hf, rfl⟩ := Option.map_eq_some_iff.mp h
    exact size_le_sizeFields (List.mem_of_getElem? hf)
  · cases h

theorem lookup_size {x : Name} {fields : List (Name × Ty)} {t : Ty}
    (h : fields.lookup x = some t) : t.size ≤ sizeFields fields := by
  obtain ⟨l₁, l₂, rfl, -⟩ := List.lookup_eq_some_iff.mp h
  exact size_le_sizeFields (f := (x, t)) (by simp)

theorem tInitializedType_size {t e u : Ty} (h : tInitializedType t e = some u) :
    u.size ≤ t.size := by
  fun_induction tInitializedType t e with
  | case1 t e ih => exact Nat.le_trans (ih h) (Nat.le_add_left _ _)
  | case2 t i =>
      cases h
      split
      · exact t.size_pos
      split
      · exact t.size_pos
      split
      · exact tElement_size t
      split
      · unfold tFieldAt
        cases hf : tLookupField (fieldAt i) t with
        | none => exact t.size_pos
        | some u => exact tLookupField_size fieldAt_size hf
      · exact t.size_pos
  | case3 t x =>
      cases h
      split
      · unfold tField
        cases hf : tLookupField (·.lookup x) t with
        | none => exact t.size_pos
        | some u => exact tLookupField_size lookup_size hf
      · exact t.size_pos
  | case4 => cases h

theorem tInitializerType_size {e s : Ty} (h : tInitializerType e = some s) :
    s.size < e.size := by
  unfold tInitializerType at h
  split at h
  · cases h
    simp only [Ty.size]
    omega
  · cases h
    simp only [Ty.size]
    omega
  · cases h

/-- The types an initializer list can initialize: the guards of
    `tAggregateInitializer`. -/
def tIsAggregate (ts : List Ty) (t : Ty) : Bool :=
  !(tIsUnion t && 1 < ts.length) && (tIsUnion t || tIsStruct t || tIsClass t || tIsArray t)

/-! ## Subtyping -/

/-- Is the type an error at its head?  The first two clauses of `(<:)`. -/
def isErrorType : Ty → Bool
  | .error _ => true
  | _ => false

/-- `(<:)`: is `s` a subtype of `t`? -/
def subtype (s t : Ty) : Bool :=
  if isErrorType s || isErrorType t then false
  else if s = t then true
  else match s, t with
    | .unsigned x, .unsigned y => x < y
    | .unsigned x, .signed y => x < y
    | .signed x, .signed y => x < y
    | .const s, t => subtype s t
    | s, .const t => subtype s t
    | .inst s _ _, t => subtype (tConcrete s) t
    | s, .inst t _ _ => subtype s (tConcrete t)
    | .enum _ s, t => subtype s t
    | s, .dependent t => subtype s t
    | .function _ a1 r1 p1, .function _ a2 r2 p2 =>
        (r2 = .auto || subtype r1 r2) &&
          (p2.length == p1.length && (p2.attach.zip p1.attach).all fun q =>
            subtype q.1.1.typeOfParam q.2.1.typeOfParam) &&
          (p2.length == p1.length && (p2.zip p1).all fun q =>
            q.1.attrOfParam.all (· ∈ q.2.attrOfParam)) &&
          a2.all (· ∈ a1)
    | .initializer [], .boolean => true
    | .initializer [], .float => true
    | .initializer ts, t =>
        if ts.isEmpty && (tIsInt t || tIsEnum t) then true
        else tIsAggregate ts t && ts.attach.all fun e =>
          match _h : tInitializerType e.1, _h' : tInitializedType t e.1 with
          | some s, some u => subtype s u
          | _, _ => false
    | .closure n1 f1 s _, .closure n2 f2 t _ => n1 == n2 && subtype f1 f2 && subtype s t
    | .array a1 s ds, .array a2 t (d2 :: ds2) =>
        a1 = a2 && (ds.isEmpty || ds.head? == some d2) &&
          subtype (tElement (.array a1 s ds)) (tElement (.array a2 t (d2 :: ds2))) &&
          subtype (tElement (.array a2 t (d2 :: ds2))) (tElement (.array a1 s ds))
    | .auto, _ => true
    | _, _ => false
  termination_by s.size + t.size
  decreasing_by
    · simp only [Ty.size]; omega
    · simp only [Ty.size]; omega
    · have := tConcrete_size s
      simp only [Ty.size]; omega
    · have := tConcrete_size t
      simp only [Ty.size]; omega
    · simp only [Ty.size]; omega
    · simp only [Ty.size]; omega
    · simp only [Ty.size]; omega
    · have := size_le_sizeParams q.1.2
      have := size_le_sizeParams q.2.2
      simp only [Ty.size]; omega
    · have := size_le_sizeTypes e.2
      have := tInitializerType_size _h
      have := tInitializedType_size _h'
      simp only [Ty.size]; omega
    · simp only [Ty.size]; omega
    · simp only [Ty.size]; omega
    · have := tElement_array_size a1 s ds
      have := tElement_array_size a2 t (d2 :: ds2)
      omega
    · have := tElement_array_size a1 s ds
      have := tElement_array_size a2 t (d2 :: ds2)
      omega

/-- `tIsConvertibleTo`. -/
def tIsConvertibleTo (s t : Ty) : Bool :=
  if subtype s t then true
  else match s, t with
    | .const s, t => tIsConvertibleTo s t
    | s, .const t => tIsConvertibleTo s t
    | .inst s _ _, t => tIsConvertibleTo (tConcrete s) t
    | s, .inst t _ _ => tIsConvertibleTo s (tConcrete t)
    | .initializer ts, t =>
        tIsAggregate ts t && ts.attach.all fun e =>
          match _h : tInitializerType e.1, _h' : tInitializedType t e.1 with
          | some s, some u => tIsConvertibleTo s u
          | _, _ => false
    | .enum _ s, t => tIsConvertibleTo s t
    | s, .dependent t => tIsConvertibleTo s t
    | s, t => tIsInt s && tIsInt t
  termination_by s.size + t.size
  decreasing_by
    · simp only [Ty.size]; omega
    · simp only [Ty.size]; omega
    · have := tConcrete_size s
      simp only [Ty.size]; omega
    · have := tConcrete_size t
      simp only [Ty.size]; omega
    · have := size_le_sizeTypes e.2
      have := tInitializerType_size _h
      have := tInitializedType_size _h'
      simp only [Ty.size]; omega
    · simp only [Ty.size]; omega
    · simp only [Ty.size]; omega

/-! ## Common supertypes -/

/-- The last clause of `tSuper`. -/
def tNoCommonSupertype (x y : Ty) : Ty :=
  .error ("Types `" ++ showPretty x ++ "` and `" ++ showPretty y ++ "` have no common supertype")

/-- `tSuper`.  The clauses for a mix of signs call `tSigned` on the unsigned
    type; the sum is written out here. -/
def tSuper (x y : Ty) : Ty :=
  if !tResolved x then .unresolved
  else if !tResolved y then .unresolved
  else if x = y then x
  else match x, y with
    | .unsigned x, .unsigned y => .unsigned (max x y)
    | .signed x, .signed y => .signed (max x y)
    | .signed x, .unsigned y => .signed (max x (y + 1))
    | .unsigned x, .signed y => .signed (max (x + 1) y)
    | .enum _ x, y => tSuper x y
    | x, .enum _ y => tSuper x y
    | .inst x _ _, y => tSuper x y
    | x, .inst y _ _ => tSuper x y
    | .positional l x, .positional r y =>
        if l = r then .positional l (tSuper x y)
        else tNoCommonSupertype (.positional l x) (.positional r y)
    | .designator l x, .designator r y =>
        if l = r then .designator l (tSuper x y)
        else tNoCommonSupertype (.designator l x) (.designator r y)
    | .initializer xs, .initializer ys =>
        if tIsConvertibleTo (.initializer xs) (.initializer ys) then .initializer ys
        else if tIsConvertibleTo (.initializer ys) (.initializer xs) then .initializer xs
        else .initializer ((xs.attach.zip ys.attach).map (fun q => tSuper q.1.1 q.2.1) ++
          if ys.length ≤ xs.length then xs.drop ys.length else ys.drop xs.length)
    | .initializer xs, y =>
        if tIsConvertibleTo (.initializer xs) y then y else tNoCommonSupertype (.initializer xs) y
    | x, .initializer ys =>
        if tIsConvertibleTo (.initializer ys) x then x else tNoCommonSupertype x (.initializer ys)
    | x, y => tNoCommonSupertype x y
  termination_by x.size + y.size
  decreasing_by
    · simp only [Ty.size]; omega
    · simp only [Ty.size]; omega
    · simp only [Ty.size]; omega
    · simp only [Ty.size]; omega
    · simp only [Ty.size]; omega
    · simp only [Ty.size]; omega
    · have := size_le_sizeTypes q.1.2
      have := size_le_sizeTypes q.2.2
      simp only [Ty.size]; omega

/-- `tMux`, on a non-empty list of choices. -/
def tMux (choices : List Ty) (h : choices ≠ []) : Ty :=
  choices.dropLast.foldr tSuper (choices.getLast h)

end Kanagawa.Frontend
