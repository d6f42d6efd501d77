/-
  Kanagawa.Frontend.SubtypeOrder

  Subtyping is a preorder, and when a common supertype is least.

  The clauses of `(<:)` overlap and their order matters, so the proofs first
  take `const` and instances off both sides and then say, for types without
  them, what a clause needs and gives.  Transitivity is by induction on the
  size of the three types together.
-/
import Kanagawa.Frontend.Subtype

namespace Kanagawa.Frontend

/-! ## Proper types -/

mutual

/-- No part of the type is `auto` or an error, arrays have dimensions as in every
    resolved type, and enums are based on integer types: the type checker
    rejects other bases. -/
def Ty.proper : Ty → Bool
  | .auto | .error _ => false
  | .initializer ts => properTypes ts
  | .designator _ t | .positional _ t | .type t | .dependent t | .const t | .inst t _ _ => t.proper
  | .array attrs t ns => properAttrs attrs && t.proper && !ns.isEmpty
  | .function _ _ t params => t.proper && properParams params
  | .closure _ f c _ => f.proper && c.proper
  | .enum _ t => tIsInt t && t.proper
  | .struct _ fields | .union _ fields | .cls _ fields => properFields fields
  | .template | .undefined | .untyped | .unresolved | .void | .boolean | .float | .string
  | .signed _ | .unsigned _ | .reference _ => true
  termination_by structural t => t

def properTypes : List Ty → Bool
  | [] => true
  | t :: ts => t.proper && properTypes ts
  termination_by structural ts => ts

def TAttr.proper : TAttr → Bool
  | .attr _ _ t => t.proper
  | _ => true
  termination_by structural a => a

def properAttrs : List TAttr → Bool
  | [] => true
  | a :: attrs => a.proper && properAttrs attrs
  termination_by structural attrs => attrs

def TFuncParam.proper : TFuncParam → Bool
  | .mk _ t => t.proper
  termination_by structural p => p

def properParams : List TFuncParam → Bool
  | [] => true
  | p :: params => p.proper && properParams params
  termination_by structural params => params

def properField : Name × Ty → Bool
  | (_, t) => t.proper
  termination_by structural f => f

def properFields : List (Name × Ty) → Bool
  | [] => true
  | f :: fields => properField f && properFields fields
  termination_by structural fields => fields

end

theorem isErrorType_of_proper {t : Ty} (h : t.proper = true) : isErrorType t = false := by
  cases t with
  | error e => cases h
  | _ => rfl

theorem proper_of_mem_types {t : Ty} {ts : List Ty} (h : properTypes ts = true) (ht : t ∈ ts) :
    t.proper = true := by
  induction ts with
  | nil => cases ht
  | cons u ts ih =>
      rw [properTypes, Bool.and_eq_true] at h
      rcases List.mem_cons.mp ht with rfl | ht
      · exact h.1
      · exact ih h.2 ht

theorem proper_of_mem_params {p : TFuncParam} {params : List TFuncParam}
    (h : properParams params = true) (hp : p ∈ params) : p.typeOfParam.proper = true := by
  induction params with
  | nil => cases hp
  | cons q params ih =>
      rw [properParams, Bool.and_eq_true] at h
      rcases List.mem_cons.mp hp with rfl | hp
      · cases p
        exact h.1
      · exact ih h.2 hp

theorem proper_of_mem_attrs {a : Attribute} {x : QualifiedName} {t : Ty} {attrs : List TAttr}
    (h : properAttrs attrs = true) (ha : TAttr.attr a x t ∈ attrs) : t.proper = true := by
  induction attrs with
  | nil => cases ha
  | cons b attrs ih =>
      rw [properAttrs, Bool.and_eq_true] at h
      rcases List.mem_cons.mp ha with rfl | ha
      · exact h.1
      · exact ih h.2 ha

theorem tConcrete_proper {t : Ty} (h : t.proper = true) : (tConcrete t).proper = true := by
  fun_induction tConcrete t with
  | case1 t x args ih => exact ih h
  | case2 t => exact h

/-- What `tElement`, `tReturn` and the field lookups give is proper or an error. -/
def ProperOrError (t : Ty) : Prop := t.proper = true ∨ isErrorType t = true

theorem tReturn_proper {t : Ty} (h : t.proper = true) : ProperOrError (tReturn t) := by
  fun_induction tReturn t with
  | case1 => exact .inl rfl
  | case2 k attrs t params hauto =>
      rw [Ty.proper, Bool.and_eq_true] at h
      exact .inl h.1
  | case3 x f c y ih =>
      rw [Ty.proper, Bool.and_eq_true] at h
      exact ih h.1
  | case4 t x args ih | case5 t ih => exact ih h
  | case6 t => exact .inl rfl
  | case7 | case8 => exact .inr rfl

theorem tElement_array_proper {attrs : List TAttr} {t : Ty} {ns : List Int}
    (h : (Ty.array attrs t ns).proper = true) : ProperOrError (tElement (.array attrs t ns)) := by
  simp only [Ty.proper, Bool.and_eq_true] at h
  match ns with
  | [] => cases h.2
  | [_] =>
      rw [tElement]
      cases hecc : eccType attrs with
      | none => exact .inl h.1.2
      | some u =>
          obtain ⟨a, ha, hat⟩ := List.exists_of_findSome?_eq_some hecc
          split at hat
          · cases hat
            exact tReturn_proper (proper_of_mem_attrs h.1.1 ha)
          · cases hat
  | _ :: n :: ns =>
      refine .inl ?_
      rw [tElement, Ty.proper, h.1.1, h.1.2]
      · rfl
      · intro h
        cases h

/-! ## Taking off `const` and instances -/

/-- A type without the `const` and the instances around it. -/
def strip : Ty → Ty
  | .const t => strip t
  | .inst t _ _ => strip t
  | t => t

/-- A type that is not `const` and not an instance. -/
def Bare (t : Ty) : Prop := (∀ s, t ≠ .const s) ∧ ∀ s x args, t ≠ .inst s x args

theorem bare_strip (t : Ty) : Bare (strip t) := by
  fun_induction strip t with
  | case1 t ih | case2 t x args ih => exact ih
  | case3 t hconst hinst => exact ⟨hconst, hinst⟩

theorem strip_of_bare {t : Ty} (h : Bare t) : strip t = t := by
  cases t with
  | const t => exact absurd rfl (h.1 t)
  | inst t x args => exact absurd rfl (h.2 t x args)
  | _ => rfl

theorem strip_proper {t : Ty} (h : t.proper = true) : (strip t).proper = true := by
  fun_induction strip t with
  | case1 t ih | case2 t x args ih => exact ih h
  | case3 t => exact h

theorem strip_size (t : Ty) : (strip t).size ≤ t.size := by
  fun_induction strip t with
  | case1 t ih | case2 t x args ih => simp only [Ty.size]; omega
  | case3 t => exact Nat.le_refl _

theorem tIs_strip {head : Ty → Bool} (hconst : ∀ t, head (.const t) = false)
    (hinst : ∀ t x args, head (.inst t x args) = false) (t : Ty) : tIs head (strip t) = tIs head t := by
  fun_induction strip t with
  | case1 t ih => rw [ih, tIs, hconst, Bool.false_or]
  | case2 t x args ih => rw [ih, tIs, hinst, Bool.false_or]
  | case3 t => rfl

theorem tIsInt_strip (t : Ty) : tIsInt (strip t) = tIsInt t := by
  unfold tIsInt tIsUnsigned tIsSigned
  rw [tIs_strip (fun _ => rfl) fun _ _ _ => rfl, tIs_strip (fun _ => rfl) fun _ _ _ => rfl]

theorem strip_tConcrete (t : Ty) : strip (tConcrete t) = strip t := by
  fun_induction tConcrete t with
  | case1 t x args ih => exact ih
  | case2 t => rfl

section Unfold

variable {s t : Ty}

theorem not_error (hs : isErrorType s = false) (ht : isErrorType t = false) :
    ¬ (isErrorType s || isErrorType t) = true := by
  rw [hs, ht]
  decide

theorem subtype_refl (h : t.proper = true) : subtype t t = true := by
  have herr := isErrorType_of_proper h
  unfold subtype
  rw [if_neg (not_error herr herr), if_pos rfl]

theorem subtype_const_left (ht : t.proper = true) (hne : Ty.const s ≠ t) :
    subtype (.const s) t = subtype s t := by
  rw [subtype, if_neg (not_error rfl (isErrorType_of_proper ht)), if_neg hne]

theorem subtype_const_right (hs : s.proper = true) (hc : ∀ s', s ≠ .const s') :
    subtype s (.const t) = subtype s t := by
  conv_lhs => unfold subtype
  rw [if_neg (not_error (isErrorType_of_proper hs) rfl), if_neg (hc t)]
  cases s with
  | const s' => exact absurd rfl (hc s')
  | _ => rfl

theorem subtype_inst_left (ht : t.proper = true) {x : QualifiedName} {args : List (Name × TArg)}
    (hne : Ty.inst s x args ≠ t) (hc : ∀ t', t ≠ .const t') :
    subtype (.inst s x args) t = subtype (tConcrete s) t := by
  conv_lhs => unfold subtype
  rw [if_neg (not_error rfl (isErrorType_of_proper ht)), if_neg hne]
  cases t with
  | const t' => exact absurd rfl (hc t')
  | _ => rfl

theorem subtype_inst_right (hs : s.proper = true) (hb : Bare s) {x : QualifiedName}
    {args : List (Name × TArg)} :
    subtype s (.inst t x args) = subtype s (tConcrete t) := by
  conv_lhs => unfold subtype
  rw [if_neg (not_error (isErrorType_of_proper hs) rfl), if_neg (hb.2 t x args)]
  cases s with
  | const s' => exact absurd rfl (hb.1 s')
  | inst s' x' args' => exact absurd rfl (hb.2 s' x' args')
  | _ => rfl

end Unfold

/-- `const` and instances on either side do not matter. -/
theorem subtype_strip {s t : Ty} (hs : s.proper = true) (ht : t.proper = true) :
    subtype s t = subtype (strip s) (strip t) := by
  induction hn : s.size + t.size using Nat.strongRecOn generalizing s t with
  | _ n ih =>
      by_cases heq : s = t
      · subst heq
        rw [subtype_refl hs, subtype_refl (strip_proper hs)]
      by_cases hsc : ∃ s', s = .const s'
      · obtain ⟨s', rfl⟩ := hsc
        rw [subtype_const_left ht heq]
        exact ih _ (by simp only [Ty.size] at hn; omega) hs ht rfl
      have hsc : ∀ s', s ≠ .const s' := fun s' h => hsc ⟨s', h⟩
      by_cases htc : ∃ t', t = .const t'
      · obtain ⟨t', rfl⟩ := htc
        rw [subtype_const_right hs hsc]
        exact ih _ (by simp only [Ty.size] at hn; omega) hs ht rfl
      have htc : ∀ t', t ≠ .const t' := fun t' h => htc ⟨t', h⟩
      by_cases hsi : ∃ s' x args, s = .inst s' x args
      · obtain ⟨s', x, args, rfl⟩ := hsi
        have hsize := tConcrete_size s'
        rw [subtype_inst_left ht heq htc,
          ih _ (by simp only [Ty.size] at hn; omega) (tConcrete_proper (t := s') hs) ht
            rfl, strip_tConcrete]
        rfl
      have hbare : Bare s := ⟨hsc, fun s' x args h => hsi ⟨s', x, args, h⟩⟩
      by_cases hti : ∃ t' x args, t = .inst t' x args
      · obtain ⟨t', x, args, rfl⟩ := hti
        have hsize := tConcrete_size t'
        rw [subtype_inst_right hs hbare,
          ih _ (by simp only [Ty.size] at hn; omega) hs (tConcrete_proper (t := t') ht)
            rfl, strip_tConcrete]
        rfl
      have hbare' : Bare t := ⟨htc, fun t' x args h => hti ⟨t', x, args, h⟩⟩
      rw [strip_of_bare hbare, strip_of_bare hbare']

/-! ## The clauses -/

/-- The element `e` of an initializer fits the type `t`. -/
def ElementFits (t e : Ty) : Prop :=
  ∃ s u, tInitializerType e = some s ∧ tInitializedType t e = some u ∧ subtype s u = true

/-- The clauses of `(<:)` after the first three, for types that are neither
    `const` nor instances. -/
inductive Clause : Ty → Ty → Prop where
  | unsigned {x y : Int} : x < y → Clause (.unsigned x) (.unsigned y)
  | mixed {x y : Int} : x < y → Clause (.unsigned x) (.signed y)
  | signed {x y : Int} : x < y → Clause (.signed x) (.signed y)
  | enum {x : QualifiedName} {s t : Ty} : subtype s t = true → Clause (.enum x s) t
  | dependent {s t : Ty} : (∀ x s', s ≠ .enum x s') → subtype s t = true →
      Clause s (.dependent t)
  | function {k1 k2 : FunctionKind} {a1 a2 : List TAttr} {r1 r2 : Ty}
      {p1 p2 : List TFuncParam} : subtype r1 r2 = true → p2.length = p1.length →
      (∀ q ∈ p2.zip p1, subtype q.1.typeOfParam q.2.typeOfParam = true ∧
        q.1.attrOfParam ⊆ q.2.attrOfParam) → a2 ⊆ a1 →
      Clause (.function k1 a1 r1 p1) (.function k2 a2 r2 p2)
  | empty {t : Ty} : t = .boolean ∨ t = .float ∨ tIsInt t = true ∨ tIsEnum t = true →
      Clause (.initializer []) t
  | initializer {ts : List Ty} {t : Ty} : tIsAggregate ts t = true →
      (∀ e ∈ ts, ElementFits t e) → Clause (.initializer ts) t
  | closure {n : QualifiedName} {f1 f2 s t : Ty} {y1 y2 : QualifiedName} :
      subtype f1 f2 = true → subtype s t = true → Clause (.closure n f1 s y1) (.closure n f2 t y2)
  | array {attrs : List TAttr} {s t : Ty} {d : Int} {ds1 ds2 : List Int} :
      subtype (tElement (.array attrs s (d :: ds1))) (tElement (.array attrs t (d :: ds2))) = true →
      subtype (tElement (.array attrs t (d :: ds2))) (tElement (.array attrs s (d :: ds1))) = true →
      Clause (.array attrs s (d :: ds1)) (.array attrs t (d :: ds2))

theorem all_zip_attach {α β : Type} (l : List α) (m : List β) (p : α → β → Bool) :
    ((l.attach.zip m.attach).all fun q => p q.1.1 q.2.1) = (l.zip m).all fun q => p q.1 q.2 := by
  conv_rhs => rw [← l.attach_map_subtype_val, ← m.attach_map_subtype_val, List.zip_map,
    List.all_map]
  rfl

theorem elementFits_iff (t e : Ty) :
    (match _h : tInitializerType e, _h' : tInitializedType t e with
      | some s, some u => subtype s u
      | _, _ => false) = true ↔ ElementFits t e := by
  constructor
  · intro h
    split at h
    · exact ⟨_, _, by assumption, by assumption, h⟩
    · cases h
  · rintro ⟨s, u, hs, hu, hsub⟩
    split
    · simp_all
    · simp_all

/-- A subtype is equal or comes from a clause. -/
theorem clause_of_subtype {s t : Ty} (hs : s.proper = true) (ht : t.proper = true) (hbs : Bare s)
    (hbt : Bare t) (hne : s ≠ t) (h : subtype s t = true) : Clause s t := by
  unfold subtype at h
  rw [if_neg (not_error (isErrorType_of_proper hs) (isErrorType_of_proper ht)), if_neg hne] at h
  split at h
  case h_1 => exact .unsigned (of_decide_eq_true h)
  case h_2 => exact .mixed (of_decide_eq_true h)
  case h_3 => exact .signed (of_decide_eq_true h)
  case h_4 => exact absurd rfl (hbs.1 _)
  case h_5 => exact absurd rfl (hbt.1 _)
  case h_6 => exact absurd rfl (hbs.2 _ _ _)
  case h_7 => exact absurd rfl (hbt.2 _ _ _)
  case h_8 => exact .enum h
  case h_9 hs' => exact .dependent hs' h
  case h_10 k1 a1 r1 p1 k2 a2 r2 p2 =>
    simp only [Bool.and_eq_true, Bool.or_eq_true, decide_eq_true_eq, beq_iff_eq] at h
    obtain ⟨⟨⟨hret, hlen, hparams⟩, -, hattrs⟩, hfun⟩ := h
    rw [Ty.proper, Bool.and_eq_true] at ht
    have hret : subtype r1 r2 = true := by
      rcases hret with rfl | hret
      · cases ht.1
      · exact hret
    rw [all_zip_attach p2 p1 fun q q' => subtype q.typeOfParam q'.typeOfParam] at hparams
    rw [List.all_eq_true] at hparams hattrs hfun
    refine .function hret hlen (fun q hq => ⟨hparams q hq, fun a ha => ?_⟩)
      fun a ha => of_decide_eq_true (hfun a ha)
    exact of_decide_eq_true (List.all_eq_true.mp (hattrs q hq) a ha)
  case h_11 => exact .empty (.inl rfl)
  case h_12 => exact .empty (.inr (.inl rfl))
  case h_13 =>
    split at h
    case isTrue hempty =>
      simp only [Bool.and_eq_true, Bool.or_eq_true, List.isEmpty_iff] at hempty
      rw [hempty.1]
      exact .empty (.inr (.inr hempty.2))
    case isFalse =>
      rw [Bool.and_eq_true, List.all_eq_true] at h
      exact .initializer h.1 fun e he => (elementFits_iff _ e).mp (h.2 ⟨e, he⟩ (List.mem_attach _ _))
  case h_14 =>
    simp only [Bool.and_eq_true, beq_iff_eq] at h
    obtain ⟨⟨rfl, hf⟩, hc⟩ := h
    exact .closure hf hc
  case h_15 a1 s ds a2 t d2 ds2 =>
    simp only [Bool.and_eq_true, decide_eq_true_eq, Bool.or_eq_true, beq_iff_eq] at h
    obtain ⟨⟨⟨rfl, hdim⟩, hst⟩, hts⟩ := h
    cases ds with
    | nil => simp [Ty.proper] at hs
    | cons d ds =>
        rcases hdim with hdim | hdim
        · cases hdim
        · cases hdim
          exact .array hst hts
  case h_16 => cases hs
  case h_17 => cases h

theorem subtype_enum_left {x : QualifiedName} {s t : Ty} (ht : t.proper = true) (hbt : Bare t)
    (hne : Ty.enum x s ≠ t) : subtype (.enum x s) t = subtype s t := by
  conv_lhs => unfold subtype
  rw [if_neg (not_error rfl (isErrorType_of_proper ht)), if_neg hne]
  cases t with
  | const t => exact absurd rfl (hbt.1 t)
  | inst t x args => exact absurd rfl (hbt.2 t x args)
  | _ => rfl

theorem subtype_dependent_right {s t : Ty} (hs : s.proper = true) (hbs : Bare s)
    (henum : ∀ x s', s ≠ .enum x s') (hne : s ≠ .dependent t) :
    subtype s (.dependent t) = subtype s t := by
  conv_lhs => unfold subtype
  rw [if_neg (not_error (isErrorType_of_proper hs) rfl), if_neg hne]
  cases s with
  | const s => exact absurd rfl (hbs.1 s)
  | inst s x args => exact absurd rfl (hbs.2 s x args)
  | enum x s => exact absurd rfl (henum x s)
  | _ => rfl

theorem subtype_initializer {ts : List Ty} {t : Ty} (ht : t.proper = true) (hbt : Bare t)
    (hdep : ∀ t', t ≠ .dependent t') (hne : Ty.initializer ts ≠ t)
    (h : ts = [] ∧ (t = .boolean ∨ t = .float ∨ tIsInt t = true ∨ tIsEnum t = true) ∨
      tIsAggregate ts t = true ∧ ∀ e ∈ ts, ElementFits t e) :
    subtype (.initializer ts) t = true := by
  unfold subtype
  rw [if_neg (not_error rfl (isErrorType_of_proper ht)), if_neg hne]
  split
  case h_5 => exact absurd rfl (hbt.1 _)
  case h_7 => exact absurd rfl (hbt.2 _ _ _)
  case h_9 => exact absurd rfl (hdep _)
  case h_11 | h_12 => rfl
  case h_13 hts _ _ _ hbool hfloat =>
    cases hts
    split
    · rfl
    · rename_i hempty
      rcases h with ⟨hnil, hkind⟩ | ⟨hagg, hfits⟩
      · rcases hkind with hkind | hkind | hkind
        · exact absurd hnil (hbool hkind)
        · exact absurd hnil (hfloat hkind)
        · simp [hnil, hkind] at hempty
      · rw [hagg, Bool.true_and, List.all_eq_true]
        exact fun e _ => (elementFits_iff _ e.1).mpr (hfits e.1 e.2)
  case h_17 hinit _ _ _ _ _ _ _ _ _ => exact absurd rfl (hinit ts)
  all_goals contradiction

/-- What a clause says of two types is enough for them to be subtypes. -/
theorem subtype_of_clause {s t : Ty} (hs : s.proper = true) (ht : t.proper = true) (hbs : Bare s)
    (hbt : Bare t) (h : Clause s t) : subtype s t = true := by
  by_cases hne : s = t
  · rw [hne]
    exact subtype_refl ht
  have herr := not_error (isErrorType_of_proper hs) (isErrorType_of_proper ht)
  cases h with
  | unsigned hlt | mixed hlt | signed hlt =>
      rw [subtype, if_neg herr, if_neg hne]
      exact decide_eq_true hlt
  | enum h => rw [subtype_enum_left ht hbt hne, h]
  | dependent henum h => rw [subtype_dependent_right hs hbs henum hne, h]
  | function hret hlen hparams hfun =>
      rw [subtype, if_neg herr, if_neg hne]
      rw [all_zip_attach _ _ fun q q' : TFuncParam => subtype q.typeOfParam q'.typeOfParam]
      simp only [Bool.and_eq_true, Bool.or_eq_true, beq_iff_eq, List.all_eq_true,
        decide_eq_true_eq]
      exact ⟨⟨⟨.inr hret, hlen, fun q hq => (hparams q hq).1⟩, hlen,
        fun q hq a ha => (hparams q hq).2 ha⟩, fun a ha => hfun ha⟩
  | empty h =>
      have hdep : ∀ t', t ≠ .dependent t' := by
        rintro t' rfl
        simp [tIsInt, tIsUnsigned, tIsSigned, tIsEnum, tIs] at h
      exact subtype_initializer ht hbt hdep hne (.inl ⟨rfl, h⟩)
  | initializer hagg hfits =>
      have hdep : ∀ t', t ≠ .dependent t' := by
        rintro t' rfl
        simp [tIsAggregate, tIsUnion, tIsStruct, tIsClass, tIsArray, tIs] at hagg
      exact subtype_initializer ht hbt hdep hne (.inr ⟨hagg, hfits⟩)
  | closure hf hc =>
      rw [subtype, if_neg herr, if_neg hne]
      simp only [beq_self_eq_true, hf, hc, Bool.and_self]
  | array hst hts =>
      rw [subtype, if_neg herr, if_neg hne]
      simp only [decide_true, List.head?_cons, beq_self_eq_true, Bool.or_true, hst, hts,
        Bool.and_self]

/-! ## Transitivity -/

/-- Subtyping is transitive on types of less than the given size together. -/
def TransBelow (n : Nat) : Prop :=
  ∀ s t u : Ty, s.size + t.size + u.size < n → s.proper = true → t.proper = true →
    u.proper = true → subtype s t = true → subtype t u = true → subtype s u = true

theorem not_error_of_subtype {s t : Ty} (h : subtype s t = true) :
    isErrorType s = false ∧ isErrorType t = false := by
  unfold subtype at h
  split at h
  · cases h
  · rename_i herr
    simpa using herr

theorem TransBelow.properOrError {n : Nat} (ih : TransBelow n) {s t u : Ty}
    (hn : s.size + t.size + u.size < n) (hs : ProperOrError s) (ht : ProperOrError t)
    (hu : ProperOrError u) (hst : subtype s t = true) (htu : subtype t u = true) :
    subtype s u = true := by
  have hproper : ∀ {t : Ty}, ProperOrError t → isErrorType t = false → t.proper = true := by
    rintro t (h | h) h'
    · exact h
    · rw [h] at h'
      cases h'
  exact ih s t u hn (hproper hs (not_error_of_subtype hst).1)
    (hproper ht (not_error_of_subtype hst).2) (hproper hu (not_error_of_subtype htu).2) hst htu

/-- A type that is not `const` and not an instance, and can be initialized with a list. -/
theorem isAggregate_bare {ts : List Ty} {t : Ty} (hb : Bare t) (h : tIsAggregate ts t = true) :
    match t with
    | .struct _ _ | .union _ _ | .cls _ _ | .array _ _ _ => True
    | _ => False := by
  cases t with
  | struct | union | cls | array => trivial
  | const t => exact absurd rfl (hb.1 t)
  | inst t x args => exact absurd rfl (hb.2 t x args)
  | _ => simp [tIsAggregate, tIsUnion, tIsStruct, tIsClass, tIsArray, tIs] at h

theorem subtype_empty {t : Ty} (ht : t.proper = true) (h : tIsInt t = true) :
    subtype (.initializer []) t = true := by
  have hstrip : tIsInt (strip t) = true := by rwa [tIsInt_strip]
  rw [subtype_strip rfl ht]
  exact subtype_of_clause rfl (strip_proper ht) (bare_strip (.initializer [])) (bare_strip t)
    (.empty (.inr (.inr (.inl hstrip))))

section Step

variable {s t u : Ty}

/-- A list of elements that fits one array fits every array with equivalent elements. -/
theorem elementFits_array {n : Nat} (ih : TransBelow n) {attrs : List TAttr} {t u : Ty} {d : Int}
    {ds1 ds2 : List Int} (ht : (Ty.array attrs t (d :: ds1)).proper = true)
    (hu : (Ty.array attrs u (d :: ds2)).proper = true) {e : Ty} (he : e.proper = true)
    (hn : e.size + (Ty.array attrs t (d :: ds1)).size + (Ty.array attrs u (d :: ds2)).size ≤ n)
    (htu : subtype (tElement (.array attrs t (d :: ds1))) (tElement (.array attrs u (d :: ds2))) =
      true) (h : ElementFits (.array attrs t (d :: ds1)) e) :
    ElementFits (.array attrs u (d :: ds2)) e := by
  obtain ⟨s, v, hs, hv, hsub⟩ := h
  cases e with
  | positional i s =>
      cases hs
      by_cases hi : d = i
      · have hv : v = .error "Excess elements in array initializer" := by
          subst hi
          simpa [tInitializedType, tIsArray, tIs, tDimension] using hv.symm
        rw [hv] at hsub
        cases (not_error_of_subtype hsub).2
      · have hv : v = tElement (.array attrs t (d :: ds1)) := by
          simpa [tInitializedType, tIsArray, tIsUnion, tIs, tDimension, hi] using hv.symm
        subst hv
        have hu' : tInitializedType (.array attrs u (d :: ds2)) (.positional i s) =
            some (tElement (.array attrs u (d :: ds2))) := by
          simp [tInitializedType, tIsArray, tIsUnion, tIs, tDimension, hi]
        have hsize1 := tElement_array_size attrs t (d :: ds1)
        have hsize2 := tElement_array_size attrs u (d :: ds2)
        refine ⟨s, _, rfl, hu', ih.properOrError ?_ (.inl he) (tElement_array_proper ht)
          (tElement_array_proper hu) hsub htu⟩
        rw [Ty.size] at hn
        omega
  | designator x s =>
      cases hv
      simp only [tIsUnion, tIsStruct, tIsClass, tIs, Bool.or_self, Bool.false_eq_true, if_false]
        at hsub
      cases (not_error_of_subtype hsub).2
  | _ => cases hs

theorem trans_enum_left {x : QualifiedName} {s' : Ty}
    (ih : TransBelow ((Ty.enum x s').size + t.size + u.size)) (hs : (Ty.enum x s').proper = true)
    (ht : t.proper = true) (hu : u.proper = true) (hbu : Bare u) (hst : subtype s' t = true)
    (htu : subtype t u = true) : subtype (.enum x s') u = true := by
  by_cases hne : Ty.enum x s' = u
  · rw [hne]
    exact subtype_refl hu
  rw [subtype_enum_left hu hbu hne]
  rw [Ty.proper, Bool.and_eq_true] at hs
  exact ih s' t u (by simp only [Ty.size]; omega) hs.2 ht hu hst htu

theorem exists_mem_zip_zip {α β γ : Type} {l : List α} {m : List β} {n : List γ}
    (h : l.length = m.length) {q : α × γ} (hq : q ∈ l.zip n) :
    ∃ b, (q.1, b) ∈ l.zip m ∧ (b, q.2) ∈ m.zip n := by
  obtain ⟨i, hi, rfl⟩ := List.getElem_of_mem hq
  rw [List.length_zip, Nat.lt_min] at hi
  rw [List.getElem_zip]
  refine ⟨m[i], List.mem_iff_getElem.mpr ⟨i, ?_, List.getElem_zip⟩,
    List.mem_iff_getElem.mpr ⟨i, ?_, List.getElem_zip⟩⟩
  · rw [List.length_zip, Nat.lt_min]
    omega
  · rw [List.length_zip, Nat.lt_min]
    omega

/-- One step of transitivity: the clauses on the two sides meet in `t`. -/
theorem trans_clause (ih : TransBelow (s.size + t.size + u.size)) (hs : s.proper = true)
    (ht : t.proper = true) (hu : u.proper = true) (hbs : Bare s) (hbt : Bare t) (hbu : Bare u)
    (henum : ∀ x s', s ≠ .enum x s') (hst : subtype s t = true) (htu : subtype t u = true)
    (h : Clause s t) (h' : Clause t u) : subtype s u = true := by
  have conclude : Clause s u → subtype s u = true := subtype_of_clause hs hu hbs hbu
  cases h' with
  | unsigned hlt =>
      cases h with
      | unsigned hlt' => exact conclude (.unsigned (by omega))
      | enum h => exact absurd rfl (henum _ _)
      | empty h => exact conclude (.empty (.inr (.inr (.inl rfl))))
      | initializer hagg _ => exact (isAggregate_bare hbt hagg).elim
  | mixed hlt =>
      cases h with
      | unsigned hlt' => exact conclude (.mixed (by omega))
      | enum h => exact absurd rfl (henum _ _)
      | empty h => exact conclude (.empty (.inr (.inr (.inl rfl))))
      | initializer hagg _ => exact (isAggregate_bare hbt hagg).elim
  | signed hlt =>
      cases h with
      | mixed hlt' => exact conclude (.mixed (by omega))
      | signed hlt' => exact conclude (.signed (by omega))
      | enum h => exact absurd rfl (henum _ _)
      | empty h => exact conclude (.empty (.inr (.inr (.inl rfl))))
      | initializer hagg _ => exact (isAggregate_bare hbt hagg).elim
  | @enum x t' _ hbase =>
      -- only the empty initializer is a subtype of an enum
      cases h with
      | enum h => exact absurd rfl (henum _ _)
      | empty h =>
          rw [Ty.proper, Bool.and_eq_true] at ht
          exact ih (.initializer []) t' u (by simp only [Ty.size]; omega) hs ht.2 hu
            (subtype_empty ht.2 ht.1) hbase
      | initializer hagg _ => exact (isAggregate_bare hbt hagg).elim
  | @dependent _ u' htenum htu' =>
      by_cases hne : s = .dependent u'
      · rw [hne]
        exact subtype_refl hu
      · rw [subtype_dependent_right hs hbs henum hne]
        exact ih s t u' (by simp only [Ty.size]; omega) hs ht hu hst htu'
  | @function k2 k3 a2 a3 r2 r3 p2 p3 hret hlen hparams hfun =>
      cases h with
      | @function k1 _ a1 _ r1 _ p1 _ hret' hlen' hparams' hfun' =>
          rw [Ty.proper, Bool.and_eq_true] at hs ht hu
          refine conclude (.function ?_ (hlen.trans hlen') (fun q hq => ?_) (List.Subset.trans hfun hfun'))
          · exact ih r1 r2 r3 (by simp only [Ty.size]; omega) hs.1 ht.1 hu.1 hret' hret
          · obtain ⟨q2, hq2, hq2'⟩ := exists_mem_zip_zip hlen hq
            have hmem := List.of_mem_zip hq2
            have hmem' := List.of_mem_zip hq2'
            have hsize := size_le_sizeParams hmem.1
            have hsize2 := size_le_sizeParams hmem.2
            have hsize1 := size_le_sizeParams hmem'.2
            -- parameters are contravariant: the third function's come first
            refine ⟨ih q.1.typeOfParam q2.typeOfParam q.2.typeOfParam ?_
              (proper_of_mem_params hu.2 hmem.1) (proper_of_mem_params ht.2 hmem.2)
              (proper_of_mem_params hs.2 hmem'.2) (hparams _ hq2).1 (hparams' _ hq2').1,
              List.Subset.trans (hparams _ hq2).2 (hparams' _ hq2').2⟩
            simp only [Ty.size]
            omega
      | enum h => exact absurd rfl (henum _ _)
      | empty h => simp [tIsInt, tIsUnsigned, tIsSigned, tIsEnum, tIs] at h
      | initializer hagg _ => exact (isAggregate_bare hbt hagg).elim
  | empty h' =>
      cases h with
      | enum h => exact absurd rfl (henum _ _)
      | empty h => simp [tIsInt, tIsUnsigned, tIsSigned, tIsEnum, tIs] at h
      | initializer hagg _ => exact (isAggregate_bare hbt hagg).elim
  | initializer hagg' _ =>
      cases h with
      | enum h => exact absurd rfl (henum _ _)
      | empty h => simp [tIsInt, tIsUnsigned, tIsSigned, tIsEnum, tIs] at h
      | initializer hagg _ => exact (isAggregate_bare hbt hagg).elim
  | @closure n f2 f3 c2 c3 y2 y3 hf hc =>
      cases h with
      | @closure _ f1 _ c1 _ y1 _ hf' hc' =>
          simp only [Ty.proper, Bool.and_eq_true] at hs ht hu
          refine conclude (.closure (ih f1 f2 f3 ?_ hs.1 ht.1 hu.1 hf' hf)
            (ih c1 c2 c3 ?_ hs.2 ht.2 hu.2 hc' hc))
          · simp only [Ty.size]
            omega
          · simp only [Ty.size]
            omega
      | enum h => exact absurd rfl (henum _ _)
      | empty h => simp [tIsInt, tIsUnsigned, tIsSigned, tIsEnum, tIs] at h
      | initializer hagg _ => exact (isAggregate_bare hbt hagg).elim
  | @array attrs t2 t3 d ds2 ds3 h23 h32 =>
      cases h with
      | @array _ t1 _ _ ds1 _ h12 h21 =>
          have hsize1 := tElement_array_size attrs t1 (d :: ds1)
          have hsize2 := tElement_array_size attrs t2 (d :: ds2)
          have hsize3 := tElement_array_size attrs t3 (d :: ds3)
          have hp1 := tElement_array_proper hs
          have hp2 := tElement_array_proper ht
          have hp3 := tElement_array_proper hu
          exact conclude (.array (ih.properOrError (by omega) hp1 hp2 hp3 h12 h23)
            (ih.properOrError (by omega) hp3 hp2 hp1 h32 h21))
      | enum h => exact absurd rfl (henum _ _)
      | empty h => simp [tIsInt, tIsUnsigned, tIsSigned, tIsEnum, tIs] at h
      | initializer hagg hfits =>
          refine conclude (.initializer ?_ fun e he => ?_)
          · simp [tIsAggregate, tIsUnion, tIsArray, tIs]
          · rw [Ty.proper] at hs
            have hsize := size_le_sizeTypes he
            refine elementFits_array ih ht hu (proper_of_mem_types hs he) ?_ h23 (hfits e he)
            simp only [Ty.size]
            omega

end Step

/-- Subtyping is transitive. -/
theorem subtype_trans {s t u : Ty} (hs : s.proper = true) (ht : t.proper = true)
    (hu : u.proper = true) (hst : subtype s t = true) (htu : subtype t u = true) :
    subtype s u = true := by
  suffices h : ∀ n, TransBelow n from h _ s t u (Nat.lt_succ_self _) hs ht hu hst htu
  intro n
  induction n using Nat.strongRecOn with
  | _ n ih =>
      intro s t u hn hs ht hu hst htu
      have hsize := strip_size s
      have hsize' := strip_size t
      have hsize'' := strip_size u
      have ih := ih ((strip s).size + (strip t).size + (strip u).size) (by omega)
      rw [subtype_strip hs ht] at hst
      rw [subtype_strip ht hu] at htu
      rw [subtype_strip hs hu]
      have hs := strip_proper hs
      have ht := strip_proper ht
      have hu := strip_proper hu
      have hbs := bare_strip s
      have hbt := bare_strip t
      have hbu := bare_strip u
      revert hst htu ih hs ht hu hbs hbt hbu
      generalize strip s = s, strip t = t, strip u = u
      intro hst htu ih hs ht hu hbs hbt hbu
      by_cases hne : s = t
      · rwa [hne]
      by_cases hne' : t = u
      · rwa [← hne']
      have h := clause_of_subtype hs ht hbs hbt hne hst
      by_cases henum : ∃ x s', s = .enum x s'
      · obtain ⟨x, s', rfl⟩ := henum
        rw [subtype_enum_left ht hbt hne] at hst
        exact trans_enum_left ih hs ht hu hbu hst htu
      · exact trans_clause ih hs ht hu hbs hbt hbu (fun x s' h => henum ⟨x, s', h⟩) hst htu h
          (clause_of_subtype ht hu hbt hbu hne' htu)

end Kanagawa.Frontend
