/-
  Kanagawa.Frontend.MangleUnique

  Which template arguments get the same name.

  A mangled name is the tree of its arguments written from left to right as
  marked words.  Two argument lists get the same name exactly if these words are
  the same, whatever the nesting; lists that are nested alike are told apart.
-/
import Kanagawa.Frontend.Mangle

namespace Kanagawa.Frontend

open Lib

/-! ## The words of an argument -/

/-- The tree of marked words that `mangle` writes.  Names and string literals are
    cut at the markers they contain. -/
abbrev NameTree := WordTree (Word Char)

def splitText (m : Char) (text : List Char) : List (Word Char) := Word.split isMarker m text

mutual

def nameTree (isClosure : Bool) : ArgExp → NameTree
  | .auto => .node [('$', "auto".toList)] []
  | .array x y z => .node [('$', "array".toList)]
      [nameTree isClosure x, nameTree isClosure y, nameTree isClosure z]
  | .attr x y | .intAttr x y => .node [('@', x.show.toList)] [nameTree isClosure y]
  | .boolLiteral x => .node [('@', (showBool x).toList)] []
  | .const x => .node [('$', "const".toList)] [nameTree isClosure x]
  | .designator x y => .node [('@', [])] [nameTree isClosure x, nameTree isClosure y]
  | .flagAttr x => .node [('$', x.show.toList)] []
  | .floatLiteral x => .node [('@', x.1.toList)] []
  | .functionType x y z =>
      if isClosure then .node [] []
      else .node [('$', "fun".toList)]
        [nameTree isClosure x, nameTree isClosure y, nameTree isClosure z]
  | .functionTypeParam x y _ => .node [] [nameTree isClosure x, nameTree isClosure y]
  | .identifier x => .node (splitText '@' x.toList) []
  | .initializerList x => .node [('@', [])] [nameTree isClosure x]
  | .integer x => .node [('$', "int".toList), ('@', (toString x).toList)] []
  | .intLiteral _ x => .node [('@', (toString x).toList)] []
  | .enumValue x _ | .positional _ x | .qualifiedIdentifier x | .typeIdentifier _ x
  | .scopedName _ none x => .node [] [nameTree isClosure x]
  | .reference x => .node [('$', "ref".toList)] [nameTree isClosure x]
  | .scopedName _ (some x) y => .node [] [nameTree isClosure x, nameTree isClosure y]
  | .seq e => .node [] (nameTrees isClosure e)
  | .stringLiteral x => .node (splitText '$' ("stringliteral".toList ++ x.toList)) []
  | .unsigned x => .node [('$', "uint".toList), ('@', (toString x).toList)] []
  | .boolean => .node [('$', "bool".toList)] []
  | .float => .node [('$', "float".toList)] []
  | .string => .node [('$', "string".toList)] []
  | .void => .node [('$', "void".toList)] []
  termination_by structural x => x

def nameTrees (isClosure : Bool) : List ArgExp → List NameTree
  | [] => []
  | x :: xs => nameTree isClosure x :: nameTrees isClosure xs
  termination_by structural xs => xs

end

/-- The words of an argument list, its nesting left out. -/
def nameWords (template : Declaration) (args : List ArgExp) : List (Word Char) :=
  (nameTree (isClosure template) (.seq args)).flatten

/-! ## Mangling writes the words -/

section

open WordTree

mutual

theorem mangle_eq_spellAll (isClosure : Bool) (x : ArgExp) :
    (mangle isClosure x).toList = Word.spellAll (nameTree isClosure x).flatten := by
  cases x with
  | auto | boolean | float | string | void | boolLiteral | flagAttr | floatLiteral | integer
  | intLiteral | unsigned =>
      simp [mangle, nameTree, flatten, flattenAll]
  | identifier | stringLiteral => simp [mangle, nameTree, flatten, flattenAll, splitText]
  | array x y z =>
      simp [mangle, nameTree, flatten, flattenAll, mangle_eq_spellAll isClosure x,
        mangle_eq_spellAll isClosure y, mangle_eq_spellAll isClosure z]
  | functionType x y z =>
      cases isClosure with
      | false =>
        simp [mangle, nameTree, flatten, flattenAll, mangle_eq_spellAll false x,
          mangle_eq_spellAll false y, mangle_eq_spellAll false z]
      | true => simp [mangle, nameTree, flatten, flattenAll]
  | designator x y =>
      simp [mangle, nameTree, flatten, flattenAll, mangle_eq_spellAll isClosure x,
        mangle_eq_spellAll isClosure y]
  | functionTypeParam x y name =>
      simp [mangle, nameTree, flatten, flattenAll, mangle_eq_spellAll isClosure x,
        mangle_eq_spellAll isClosure y]
  | const x | reference x | initializerList x | qualifiedIdentifier x =>
      simp [mangle, nameTree, flatten, flattenAll, mangle_eq_spellAll isClosure x]
  | attr a x | intAttr a x | positional a x | typeIdentifier a x =>
      simp [mangle, nameTree, flatten, flattenAll, mangle_eq_spellAll isClosure x]
  | enumValue x y => simp [mangle, nameTree, flatten, flattenAll, mangle_eq_spellAll isClosure x]
  | scopedName scope q x =>
      cases q with
      | none => simp [mangle, nameTree, flatten, flattenAll, mangle_eq_spellAll isClosure x]
      | some q =>
          simp [mangle, nameTree, flatten, flattenAll, mangle_eq_spellAll isClosure q,
            mangle_eq_spellAll isClosure x]
  | seq xs => simp [mangle, nameTree, flatten, mangleAll_eq_spellAll isClosure xs]

theorem mangleAll_eq_spellAll (isClosure : Bool) (xs : List ArgExp) :
    (mangleAll isClosure xs).toList =
      Word.spellAll (WordTree.flattenAll (nameTrees isClosure xs)) := by
  cases xs with
  | nil => rfl
  | cons x xs =>
      rw [mangleAll, nameTrees, WordTree.flattenAll, Word.spellAll_append, String.toList_append,
        mangle_eq_spellAll isClosure x, mangleAll_eq_spellAll isClosure xs]

end

end

/-! ## The words are marked -/

theorem isMarker_of_isDigit {c : Char} (h : c.isDigit = true) : isMarker c = false := by
  rw [Bool.eq_false_iff]
  intro hmark
  simp only [isMarker, Bool.or_eq_true, beq_iff_eq] at hmark
  rcases hmark with rfl | rfl
  · exact absurd h (by decide)
  · exact absurd h (by decide)

/-- The text has no markers. -/
def Unmarked (text : List Char) : Prop := ∀ c ∈ text, isMarker c = false

instance (text : List Char) : Decidable (Unmarked text) :=
  List.decidableBAll (fun c => isMarker c = false) text

theorem unmarked_toString (n : Int) : Unmarked (toString n).toList := by
  have hnat : ∀ m : Nat, Unmarked m.repr.toList := by
    intro m c hc
    rw [Nat.toList_repr] at hc
    exact isMarker_of_isDigit (Nat.isDigit_of_mem_toDigits (by decide) (by decide) hc)
  rw [Int.toString_eq_repr, Int.repr_eq_if]
  split
  · exact hnat _
  · intro c hc
    rw [String.toList_append] at hc
    rcases List.mem_append.mp hc with hc | hc
    · rw [show "-".toList = ['-'] from rfl, List.mem_singleton] at hc
      subst hc
      rfl
    · exact hnat _ c hc

theorem unmarked_attribute (a : Attribute) : Unmarked a.show.toList := by
  cases a <;> decide

theorem unmarked_flag (f : Flag) : Unmarked f.show.toList := by
  cases f <;> decide

theorem unmarked_bool (b : Bool) : Unmarked (showBool b).toList := by
  cases b <;> decide

def AllMarked (ws : List (Word Char)) : Prop := ∀ w ∈ ws, w.Marked isMarker

theorem allMarked_nil : AllMarked [] := nofun

theorem AllMarked.append {ws ws' : List (Word Char)} (h : AllMarked ws) (h' : AllMarked ws') :
    AllMarked (ws ++ ws') := by
  intro w hw
  rcases List.mem_append.mp hw with hw | hw
  · exact h w hw
  · exact h' w hw

theorem AllMarked.cons {m : Char} {text : List Char} {ws : List (Word Char)} (h : AllMarked ws)
    (hm : isMarker m = true) (htext : Unmarked text) : AllMarked ((m, text) :: ws) := by
  intro w hw
  rcases List.mem_cons.mp hw with rfl | hw
  · exact ⟨hm, htext⟩
  · exact h w hw

section

open WordTree

mutual

theorem allMarked_nameTree (isClosure : Bool) (x : ArgExp) :
    AllMarked (nameTree isClosure x).flatten := by
  have leaf : ∀ {label : List (Word Char)}, AllMarked label →
      AllMarked (WordTree.node label []).flatten := fun h => h.append allMarked_nil
  have one : ∀ {label : List (Word Char)} (x : NameTree), AllMarked label → AllMarked x.flatten →
      AllMarked (WordTree.node label [x]).flatten :=
    fun _ h hx => h.append (hx.append allMarked_nil)
  have two : ∀ {label : List (Word Char)} (x y : NameTree), AllMarked label →
      AllMarked x.flatten → AllMarked y.flatten → AllMarked (WordTree.node label [x, y]).flatten :=
    fun _ _ h hx hy => h.append (hx.append (hy.append allMarked_nil))
  have three : ∀ {label : List (Word Char)} (x y z : NameTree), AllMarked label →
      AllMarked x.flatten → AllMarked y.flatten → AllMarked z.flatten →
      AllMarked (WordTree.node label [x, y, z]).flatten :=
    fun _ _ _ h hx hy hz => h.append (hx.append (hy.append (hz.append allMarked_nil)))
  cases x with
  | auto | boolean | float | string | void =>
      exact leaf (allMarked_nil.cons rfl (by decide))
  | boolLiteral x => exact leaf (allMarked_nil.cons rfl (unmarked_bool x))
  | flagAttr x => exact leaf (allMarked_nil.cons rfl (unmarked_flag x))
  | floatLiteral x => exact leaf (allMarked_nil.cons rfl x.2)
  | intLiteral t x => exact leaf (allMarked_nil.cons rfl (unmarked_toString x))
  | integer x | unsigned x =>
      exact leaf ((allMarked_nil.cons rfl (unmarked_toString x)).cons rfl (by decide))
  | identifier x => exact leaf (Word.marked_split rfl _)
  | stringLiteral x => exact leaf (Word.marked_split rfl _)
  | array x y z =>
      exact three _ _ _ (allMarked_nil.cons rfl (by decide)) (allMarked_nameTree isClosure x)
        (allMarked_nameTree isClosure y) (allMarked_nameTree isClosure z)
  | functionType x y z =>
      cases isClosure with
      | false =>
          exact three _ _ _ (allMarked_nil.cons rfl (by decide)) (allMarked_nameTree false x)
            (allMarked_nameTree false y) (allMarked_nameTree false z)
      | true => exact leaf allMarked_nil
  | designator x y =>
      exact two _ _ (allMarked_nil.cons rfl (by decide)) (allMarked_nameTree isClosure x)
        (allMarked_nameTree isClosure y)
  | functionTypeParam x y name =>
      exact two _ _ allMarked_nil (allMarked_nameTree isClosure x) (allMarked_nameTree isClosure y)
  | attr a x | intAttr a x =>
      exact one _ (allMarked_nil.cons rfl (unmarked_attribute a)) (allMarked_nameTree isClosure x)
  | const x | reference x | initializerList x =>
      exact one _ (allMarked_nil.cons rfl (by decide)) (allMarked_nameTree isClosure x)
  | enumValue x y => exact one _ allMarked_nil (allMarked_nameTree isClosure x)
  | qualifiedIdentifier x => exact one _ allMarked_nil (allMarked_nameTree isClosure x)
  | positional a x | typeIdentifier a x => exact one _ allMarked_nil (allMarked_nameTree isClosure x)
  | scopedName scope q x =>
      cases q with
      | none => exact one _ allMarked_nil (allMarked_nameTree isClosure x)
      | some q =>
          exact two _ _ allMarked_nil (allMarked_nameTree isClosure q)
            (allMarked_nameTree isClosure x)
  | seq xs => exact allMarked_nil.append (allMarked_nameTrees isClosure xs)

theorem allMarked_nameTrees (isClosure : Bool) (xs : List ArgExp) :
    AllMarked (flattenAll (nameTrees isClosure xs)) := by
  cases xs with
  | nil => exact allMarked_nil
  | cons x xs =>
      rw [nameTrees, flattenAll]
      exact (allMarked_nameTree isClosure x).append (allMarked_nameTrees isClosure xs)

end

end

/-! ## Which arguments share a name -/

/-- Two argument lists get the same name exactly if they have the same words. -/
theorem mangleTemplateIdentifier_eq_iff (template : Declaration) (a b : List ArgExp) (x : Name) :
    mangleTemplateIdentifier template a x = mangleTemplateIdentifier template b x ↔
      nameWords template a = nameWords template b := by
  unfold mangleTemplateIdentifier nameWords
  generalize isClosure template = c
  constructor
  · intro h
    have htext : (mangle c (.seq a)).toList = (mangle c (.seq b)).toList := by
      have h := congrArg String.toList h
      simp only [String.toList_append] at h
      exact List.append_cancel_left (List.append_cancel_right (List.append_cancel_left h))
    rw [mangle_eq_spellAll, mangle_eq_spellAll] at htext
    exact Word.spellAll_injective (allMarked_nameTree c _) (allMarked_nameTree c _) htext
  · intro h
    have htext : mangle c (.seq a) = mangle c (.seq b) := by
      rw [← String.toList_inj, mangle_eq_spellAll, mangle_eq_spellAll, h]
    rw [htext]

/-- Argument lists that are nested alike are told apart by what is in them. -/
theorem nameTree_eq_of_sameShape {template : Declaration} {a b : List ArgExp}
    (hshape : (nameTree (isClosure template) (.seq a)).SameShape
      (nameTree (isClosure template) (.seq b)))
    (h : nameWords template a = nameWords template b) :
    nameTree (isClosure template) (.seq a) = nameTree (isClosure template) (.seq b) :=
  hshape.eq h

/-! ## Instances -/

theorem dup_makeInstance (template : Declaration) (a b : List ArgExp) :
    dup (makeInstance template a) (makeInstance template b) = true ↔
      userDefinedTypes template.kind template.kind = true ∧
        nameWords template a = nameWords template b := by
  rw [← mangleTemplateIdentifier_eq_iff template a b template.declName]
  simp [dup, makeInstance, Declaration.getQualifiedName]

theorem resolve_eq_iff (template : Declaration) (a b : List ArgExp) :
    resolve template a = resolve template b ↔ nameWords template a = nameWords template b := by
  rw [← mangleTemplateIdentifier_eq_iff template a b template.declName]
  simp [resolve]

theorem length_nubBy_le {α : Type} (eq : α → α → Bool) (seen l : List α) :
    (nubBy eq seen l).length ≤ l.length := by
  induction l generalizing seen with
  | nil => exact Nat.le_refl _
  | cons y ys ih =>
      rw [nubBy]
      split
      · exact Nat.le_succ_of_le (ih seen)
      · exact Nat.succ_le_succ (ih (y :: seen))

/-- `nubBy` keeps a list of different elements and drops something of any other. -/
theorem nubBy_eq_self_iff {α : Type} (eq : α → α → Bool) (seen l : List α) :
    nubBy eq seen l = l ↔
      (∀ x ∈ seen, ∀ y ∈ l, eq x y = false) ∧ l.Pairwise fun x y => eq x y = false := by
  induction l generalizing seen with
  | nil => simp [nubBy]
  | cons y ys ih =>
      rw [nubBy]
      split
      case isTrue hseen =>
        obtain ⟨x, hx, hxy⟩ := List.any_eq_true.mp hseen
        constructor
        · intro h
          have hlen := length_nubBy_le eq seen ys
          rw [h, List.length_cons] at hlen
          omega
        · rintro ⟨h, -⟩
          rw [h x hx y List.mem_cons_self] at hxy
          cases hxy
      case isFalse hseen =>
        have hseen : ∀ x ∈ seen, eq x y = false := by
          simpa using hseen
        rw [List.cons.injEq, ih (y :: seen), List.pairwise_cons]
        constructor
        · rintro ⟨-, h, hpair⟩
          refine ⟨fun x hx z hz => ?_, fun z hz => h y List.mem_cons_self z hz, hpair⟩
          rcases List.mem_cons.mp hz with rfl | hz
          · exact hseen x hx
          · exact h x (List.mem_cons_of_mem _ hx) z hz
        · rintro ⟨h, hy, hpair⟩
          refine ⟨rfl, fun x hx z hz => ?_, hpair⟩
          rcases List.mem_cons.mp hx with rfl | hx
          · exact hy z hz
          · exact h x hx z (List.mem_cons_of_mem _ hz)

/-- Instances of one template are all kept exactly if their arguments have different
    words. -/
theorem deduplicateInstances_eq_iff (template : Declaration) (args : List (List ArgExp))
    (hkind : userDefinedTypes template.kind template.kind = true) :
    deduplicateInstances (args.map (makeInstance template)) = args.map (makeInstance template) ↔
      args.Pairwise fun a b => nameWords template a ≠ nameWords template b := by
  unfold deduplicateInstances
  rw [nubBy_eq_self_iff, List.pairwise_map]
  have hdup : ∀ a b, dup (makeInstance template a) (makeInstance template b) = false ↔
      nameWords template a ≠ nameWords template b := by
    intro a b
    rw [Bool.eq_false_iff, Ne, dup_makeInstance]
    simp [hkind]
  simp only [hdup, List.not_mem_nil, false_imp_iff, implies_true, true_and]

/-- Two argument lists of a template get different names, in the declarations of the
    instances and in the references to them, exactly if their words differ.  They do
    if the lists are nested alike and differ in a word.  Deduplication keeps all
    instances exactly if no two of them have the same words. -/
theorem mangle_tells_apart_iff (template : Declaration) :
    (∀ (a b : List ArgExp) (x : Name),
      (a ≠ b → mangleTemplateIdentifier template a x ≠ mangleTemplateIdentifier template b x) ↔
        a = b ∨ nameWords template a ≠ nameWords template b) ∧
    (∀ a b : List ArgExp, (a ≠ b → resolve template a ≠ resolve template b) ↔
      a = b ∨ nameWords template a ≠ nameWords template b) ∧
    (∀ a b : List ArgExp,
      (nameTree (isClosure template) (.seq a)).SameShape
        (nameTree (isClosure template) (.seq b)) →
      nameTree (isClosure template) (.seq a) ≠ nameTree (isClosure template) (.seq b) →
      nameWords template a ≠ nameWords template b) ∧
    (userDefinedTypes template.kind template.kind = true → ∀ args : List (List ArgExp),
      deduplicateInstances (args.map (makeInstance template)) = args.map (makeInstance template) ↔
        args.Pairwise fun a b => nameWords template a ≠ nameWords template b) := by
  refine ⟨fun a b x => ?_, fun a b => ?_, fun a b hshape hne h => hne ?_, fun hkind args => ?_⟩
  · rw [Ne, Ne, mangleTemplateIdentifier_eq_iff]
    exact ⟨fun h => or_iff_not_imp_left.mpr h, fun h => or_iff_not_imp_left.mp h⟩
  · rw [Ne, Ne, resolve_eq_iff]
    exact ⟨fun h => or_iff_not_imp_left.mpr h, fun h => or_iff_not_imp_left.mp h⟩
  · exact nameTree_eq_of_sameShape hshape h
  · exact deduplicateInstances_eq_iff template args hkind

/-! ## Arguments that share a name -/

/-- A struct template of the program. -/
def boxTemplate : Declaration := ⟨.struct, [], "box"⟩

/-- The instances for `uint8` and `uint16` are nested alike and kept apart. -/
theorem mangle_tells_apart_widths :
    mangleTemplateIdentifier boxTemplate [.unsigned 8] "box" ≠
      mangleTemplateIdentifier boxTemplate [.unsigned 16] "box" ∧
    deduplicateInstances ([[.unsigned 8], [.unsigned 16]].map (makeInstance boxTemplate)) =
      [[.unsigned 8], [.unsigned 16]].map (makeInstance boxTemplate) := by
  obtain ⟨hname, -, hshape, hdedup⟩ := mangle_tells_apart_iff boxTemplate
  have hwords : nameWords boxTemplate [.unsigned 8] ≠ nameWords boxTemplate [.unsigned 16] := by
    apply hshape
    · simp [nameTree, nameTrees, WordTree.SameShape, WordTree.SameShapes]
    · simp only [nameTree, nameTrees, ne_eq, WordTree.node.injEq, List.cons.injEq, Prod.mk.injEq,
        true_and, and_true]
      decide
  refine ⟨(hname _ _ _).mpr (.inr hwords) (by simp), (hdedup rfl _).mpr ?_⟩
  simpa using hwords

/-- A function type without attributes, from its parameters and its result. -/
def plainFunction (params : List ArgExp) (t : ArgExp) : ArgExp :=
  .functionType (.seq []) (.seq (params.map fun p => .functionTypeParam (.seq []) p none)) t

/-- `((uint8) -> uint8) -> uint8`. -/
def takesFunction : ArgExp := plainFunction [plainFunction [.unsigned 8] (.unsigned 8)] (.unsigned 8)

/-- `(() -> uint8, uint8) -> uint8`. -/
def takesThunk : ArgExp := plainFunction [plainFunction [] (.unsigned 8), .unsigned 8] (.unsigned 8)

/-- A function that takes a function and one that takes two arguments get one name, and
    only one of the two instances is kept. -/
theorem mangle_function_parameters :
    [takesFunction] ≠ [takesThunk] ∧
    mangleTemplateIdentifier boxTemplate [takesFunction] "box" =
      mangleTemplateIdentifier boxTemplate [takesThunk] "box" ∧
    deduplicateInstances [makeInstance boxTemplate [takesFunction],
      makeInstance boxTemplate [takesThunk]] = [makeInstance boxTemplate [takesFunction]] := by
  have hname : mangleTemplateIdentifier boxTemplate [takesFunction] "box" =
      mangleTemplateIdentifier boxTemplate [takesThunk] "box" := by
    decide +kernel
  refine ⟨?_, hname, ?_⟩
  · simp [takesFunction, takesThunk, plainFunction]
  · have hinst : makeInstance boxTemplate [takesThunk] = makeInstance boxTemplate [takesFunction] :=
      congrArg (fun x => { boxTemplate with declName := x }) hname.symm
    rw [hinst]
    simp [deduplicateInstances, nubBy, dup, userDefinedTypes, makeInstance, boxTemplate]

end Kanagawa.Frontend
