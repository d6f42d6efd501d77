/-
  Kanagawa.Frontend.Supertype

  When a common supertype is least.

  On the resolved types subtyping is a preorder.  `tSuper` looks below enums and
  instances for two integer types, and it finds the least upper bound unless it
  meets a `const` there, for which it has no clause, or takes the enum off one
  of two spellings of the same enum before it has compared them.
-/
import Kanagawa.Frontend.Constexpr
import Kanagawa.Frontend.InferSound
import Kanagawa.Frontend.SubtypeOrder

namespace Kanagawa.Frontend

/-! ## The preorder of resolved types -/

/-- A resolved type without `auto` and without error parts. -/
structure ResolvedType where
  ty : Ty
  resolved : tResolved ty = true
  proper : ty.proper = true

instance : Preorder ResolvedType where
  le s t := subtype s.ty t.ty = true
  le_refl t := subtype_refl t.proper
  le_trans s t u := subtype_trans s.proper t.proper u.proper

theorem ResolvedType.le_def {s t : ResolvedType} : s ≤ t ↔ subtype s.ty t.ty = true := Iff.rfl

/-- The type is, up to mutual subtyping, the least upper bound. -/
def IsLeastSupertype (ts : Set ResolvedType) (t : Ty) : Prop :=
  ∃ z : ResolvedType, z.ty = t ∧ IsLUB ts z

/-! ## Integer and enum types -/

/-- An integer type or an enum, perhaps `const` or an instance. -/
def Numeric (t : Ty) : Prop := tIsInt t = true ∨ tIsEnum t = true

theorem isIntType_strip {t : Ty} (h : tIsInt t = true) : IsIntType (strip t) := by
  have hbare := bare_strip t
  rw [← tIsInt_strip] at h
  generalize strip t = t at h hbare
  cases t with
  | unsigned w => exact .unsigned w
  | signed w => exact .signed w
  | const t => exact absurd rfl (hbare.1 t)
  | inst t x args => exact absurd rfl (hbare.2 t x args)
  | _ => cases h

theorem tIsEnum_strip (t : Ty) : tIsEnum (strip t) = tIsEnum t :=
  tIs_strip (fun _ => rfl) (fun _ _ _ => rfl) t

theorem exists_enum_strip {t : Ty} (h : tIsEnum t = true) : ∃ x s, strip t = .enum x s := by
  have hbare := bare_strip t
  rw [← tIsEnum_strip] at h
  generalize strip t = t at h hbare ⊢
  cases t with
  | enum x s => exact ⟨x, s, rfl⟩
  | const t => exact absurd rfl (hbare.1 t)
  | inst t x args => exact absurd rfl (hbare.2 t x args)
  | _ => cases h

theorem IsIntType.not_tIsEnum {t : Ty} (h : IsIntType t) : tIsEnum t = false := by
  cases h <;> rfl

theorem not_tIsEnum_of_int {t : Ty} (h : tIsInt t = true) : tIsEnum t = false := by
  rw [← tIsEnum_strip]
  exact (isIntType_strip h).not_tIsEnum

/-- The integer type below `const`, instances and enums. -/
abbrev core : Ty → Ty := typeOfOperand.go

theorem core_strip (t : Ty) : core (strip t) = core t := by
  fun_induction strip t with
  | case1 t ih | case2 t x args ih => exact ih
  | case3 t => rfl

theorem core_of_isIntType {t : Ty} (h : IsIntType t) : core t = t := by
  cases h <;> rfl

theorem core_of_int {t : Ty} (h : tIsInt t = true) : core t = strip t := by
  rw [← core_strip]
  exact core_of_isIntType (isIntType_strip h)

theorem strip_of_isIntType {t : Ty} (h : IsIntType t) : strip t = t := by
  cases h <;> rfl

theorem proper_of_isIntType {t : Ty} (h : IsIntType t) : t.proper = true := by
  cases h <;> rfl

/-- An enum is based on the type below it. -/
theorem core_of_enum {t : Ty} (hp : t.proper = true) (h : tIsEnum t = true) :
    ∃ x s, strip t = .enum x s ∧ tIsInt s = true ∧ s.proper = true ∧ core t = strip s := by
  obtain ⟨x, s, hs⟩ := exists_enum_strip h
  have hp := strip_proper hp
  rw [hs, Ty.proper, Bool.and_eq_true] at hp
  refine ⟨x, s, hs, hp.1, hp.2, ?_⟩
  rw [← core_strip, hs]
  exact core_of_int hp.1

theorem isIntType_core {t : Ty} (hp : t.proper = true) (h : Numeric t) : IsIntType (core t) := by
  rcases h with h | h
  · rw [core_of_int h]
    exact isIntType_strip h
  · obtain ⟨x, s, -, hs, -, hcore⟩ := core_of_enum hp h
    rw [hcore]
    exact isIntType_strip hs

/-! ## Subtypes of integer types -/

theorem subtype_unsigned (x y : Int) : subtype (.unsigned x) (.unsigned y) = true ↔ x ≤ y := by
  rw [subtype]
  by_cases h : x = y
  · simp [isErrorType, h]
  · simp only [isErrorType, Bool.or_self, Bool.false_eq_true, if_false, Ty.unsigned.injEq, h,
      decide_eq_true_eq]
    omega

theorem subtype_signed (x y : Int) : subtype (.signed x) (.signed y) = true ↔ x ≤ y := by
  rw [subtype]
  by_cases h : x = y
  · simp [isErrorType, h]
  · simp only [isErrorType, Bool.or_self, Bool.false_eq_true, if_false, Ty.signed.injEq, h,
      decide_eq_true_eq]
    omega

theorem subtype_unsigned_signed (x y : Int) : subtype (.unsigned x) (.signed y) = true ↔ x < y := by
  rw [subtype]
  simp [isErrorType]

theorem subtype_signed_unsigned (x y : Int) : subtype (.signed x) (.unsigned y) = false := by
  unfold subtype
  simp [isErrorType]

/-- A supertype of an integer type stands for an integer type: the one below
    `const`, instances and dependent types. -/
theorem exists_int_of_subtype {s u : Ty} (hs : IsIntType s) (hu : u.proper = true)
    (h : subtype s u = true) :
    ∃ i, IsIntType i ∧ ∀ j, IsIntType j → subtype j u = subtype j i := by
  induction hn : u.size using Nat.strongRecOn generalizing u with
  | _ n ih =>
      have hsize := strip_size u
      have hbare := bare_strip u
      have hproper := strip_proper hu
      have hstrip : ∀ j, IsIntType j → subtype j u = subtype j (strip u) := by
        intro j hj
        rw [subtype_strip (proper_of_isIntType hj) hu]
        cases hj <;> rfl
      rw [hstrip s hs] at h
      generalize strip u = v at hsize hbare hproper hstrip h
      by_cases heq : s = v
      · exact ⟨v, heq ▸ hs, hstrip⟩
      have hbs : Bare s := by cases hs <;> constructor <;> intros <;> rintro ⟨⟩
      cases clause_of_subtype (proper_of_isIntType hs) hproper hbs hbare heq h with
      | unsigned _ => exact ⟨_, .unsigned _, hstrip⟩
      | mixed _ | signed _ => exact ⟨_, .signed _, hstrip⟩
      | @dependent _ v' _ h' =>
          -- the type a dependent type stands for is smaller
          obtain ⟨i, hi, hsub⟩ := ih v'.size (by simp only [Ty.size] at hsize; omega)
            (u := v') hproper h' rfl
          refine ⟨i, hi, fun j hj => ?_⟩
          rw [hstrip j hj, ← hsub j hj]
          have hbj : Bare j := by cases hj <;> constructor <;> intros <;> rintro ⟨⟩
          refine subtype_dependent_right (by cases hj <;> rfl) hbj ?_ ?_
          · cases hj <;> intros <;> rintro ⟨⟩
          · cases hj <;> rintro ⟨⟩
      | enum | function | empty | initializer | closure | array => cases hs

/-- On integer types `tSuper` is least among the upper bounds. -/
theorem tSuper_le {s t u : Ty} (hs : IsIntType s) (ht : IsIntType t) (hu : u.proper = true)
    (hsu : subtype s u = true) (htu : subtype t u = true) : subtype (tSuper s t) u = true := by
  obtain ⟨i, hi, hsub⟩ := exists_int_of_subtype hs hu hsu
  rw [hsub s hs] at hsu
  rw [hsub t ht] at htu
  cases hs <;> cases ht <;> cases hi <;>
    simp only [tSuper_unsigned, tSuper_signed, tSuper_signed_unsigned, tSuper_unsigned_signed,
      subtype_unsigned, subtype_signed, subtype_unsigned_signed, subtype_signed_unsigned,
      hsub _ (.unsigned _), hsub _ (.signed _), Bool.false_eq_true] at hsu htu ⊢ <;> omega

theorem le_tSuper_left {s t : Ty} (hs : IsIntType s) (ht : IsIntType t) :
    subtype s (tSuper s t) = true := by
  cases hs <;> cases ht <;>
    simp only [tSuper_unsigned, tSuper_signed, tSuper_signed_unsigned, tSuper_unsigned_signed,
      subtype_unsigned, subtype_signed, subtype_unsigned_signed] <;> omega

theorem le_tSuper_right {s t : Ty} (hs : IsIntType s) (ht : IsIntType t) :
    subtype t (tSuper s t) = true := by
  rw [tSuper_comm hs ht]
  exact le_tSuper_left ht hs

/-! ## Subtypes of enums -/

theorem subtype_core {s u : Ty} (hs : s.proper = true) (hint : tIsInt s = true)
    (hu : u.proper = true) : subtype (core s) u = subtype s u := by
  rw [core_of_int hint, subtype_strip hs hu, subtype_strip (strip_proper hs) hu,
    strip_of_bare (bare_strip s)]

/-- An integer or enum type is a subtype of its own spellings and of the supertypes of
    the integer type below it. -/
theorem subtype_numeric_iff {s u : Ty} (hs : s.proper = true) (hnum : Numeric s)
    (hu : u.proper = true) :
    subtype s u = true ↔ strip s = strip u ∨ subtype (core s) u = true := by
  rcases hnum with hint | henum
  · rw [subtype_core hs hint hu]
    constructor
    · exact .inr
    · rintro (h | h)
      · rw [subtype_strip hs hu, h]
        exact subtype_refl (strip_proper hu)
      · exact h
  · obtain ⟨x, t, hstrip, hint, ht, hcore⟩ := core_of_enum hs henum
    rw [subtype_strip hs hu, hstrip, hcore, ← core_of_int hint, subtype_core ht hint hu]
    by_cases heq : Ty.enum x t = strip u
    · rw [← heq]
      exact iff_of_true (subtype_refl (hstrip ▸ strip_proper hs)) (.inl rfl)
    · rw [subtype_enum_left (strip_proper hu) (bare_strip u) heq, subtype_strip ht (strip_proper hu),
        strip_of_bare (bare_strip u), ← subtype_strip ht hu]
      simp only [heq, false_or]

/-- No integer type is a subtype of an enum. -/
theorem not_subtype_enum {s u : Ty} (hs : IsIntType s) (hu : u.proper = true)
    (henum : tIsEnum u = true) : subtype s u = false := by
  obtain ⟨x, t, hstrip⟩ := exists_enum_strip henum
  have hproper := strip_proper hu
  rw [hstrip] at hproper
  have hbs : Bare s := by cases hs <;> exact ⟨nofun, nofun⟩
  rw [subtype_strip (proper_of_isIntType hs) hu, strip_of_bare hbs, hstrip, Bool.eq_false_iff]
  intro h
  have hne : s ≠ .enum x t := by cases hs <;> exact nofun
  cases clause_of_subtype (proper_of_isIntType hs) hproper hbs ⟨nofun, nofun⟩ hne h <;> cases hs

/-! ## Values -/

/-- The values of an integer or enum type. -/
def HasValue (t : Ty) (v : Int) : Prop := InRange (core t) v

theorem inRange_of_subtype {s t : Ty} (hs : IsIntType s) (ht : IsIntType t)
    (h : subtype s t = true) {v : Int} (hv : InRange s v) : InRange t v := by
  cases hs with
  | unsigned x =>
      have hx := hv.1
      cases ht with
      | unsigned y =>
          rw [subtype_unsigned] at h
          exact inRange_unsigned (by omega) hv.2.1 hv.within_unsigned (by omega)
      | signed y =>
          rw [subtype_unsigned_signed] at h
          exact inRange_signed hv.within_unsigned (by omega)
  | signed x =>
      have hx := hv.1
      cases ht with
      | unsigned y =>
          rw [subtype_signed_unsigned] at h
          cases h
      | signed y =>
          rw [subtype_signed] at h
          exact inRange_signed hv.within_signed (by omega)

/-- A subtype has no values of its own. -/
theorem hasValue_of_subtype {s t : Ty} (hs : s.proper = true) (ht : t.proper = true)
    (hnum : Numeric s) (hnum' : Numeric t) (h : subtype s t = true) {v : Int}
    (hv : HasValue s v) : HasValue t v := by
  unfold HasValue at hv ⊢
  rcases (subtype_numeric_iff hs hnum ht).mp h with heq | hcore
  · rwa [← core_strip, ← heq, core_strip]
  have hi := isIntType_core hs hnum
  rcases hnum' with hint | henum
  · rw [subtype_strip (proper_of_isIntType hi) ht, ← core_of_int hint] at hcore
    refine inRange_of_subtype hi (isIntType_core ht (.inl hint)) ?_ hv
    rwa [strip_of_isIntType hi] at hcore
  · rw [not_subtype_enum hi ht henum] at hcore
    cases hcore

/-! ## The clauses of `tSuper` on integer and enum types -/

theorem tResolved_strip (t : Ty) : tResolved (strip t) = tResolved t := by
  fun_induction strip t with
  | case1 t ih | case2 t x args ih => exact ih
  | case3 t => rfl

theorem tResolved_numeric {t : Ty} (hp : t.proper = true) (hnum : Numeric t) :
    tResolved t = true := by
  have hint : ∀ {s : Ty}, tIsInt s = true → tResolved s = true := by
    intro s hs
    rw [← tResolved_strip]
    have := isIntType_strip hs
    generalize strip s = i at this
    cases this <;> rfl
  rcases hnum with h | h
  · exact hint h
  · obtain ⟨x, s, hstrip, hs, -, -⟩ := core_of_enum hp h
    rw [← tResolved_strip, hstrip, tResolved]
    exact hint hs

section Unfold

variable {x y : Ty}

theorem tSuper_self (hx : tResolved x = true) : tSuper x x = x := by
  unfold tSuper
  rw [hx]
  simp

theorem tSuper_enum_left {n : QualifiedName} {s : Ty} (hs : tResolved s = true)
    (hy : tResolved y = true) (hne : Ty.enum n s ≠ y) : tSuper (.enum n s) y = tSuper s y := by
  have hx : tResolved (.enum n s) = true := hs
  conv_lhs => unfold tSuper
  rw [hx, hy, if_neg (by decide), if_neg (by decide), if_neg hne]

theorem tSuper_enum_right {n : QualifiedName} {t : Ty} (hx : tResolved x = true)
    (ht : tResolved t = true) (hne : x ≠ .enum n t) (henum : ∀ m s, x ≠ .enum m s) :
    tSuper x (.enum n t) = tSuper x t := by
  have hy : tResolved (.enum n t) = true := ht
  conv_lhs => unfold tSuper
  rw [hx, hy, if_neg (by decide), if_neg (by decide), if_neg hne]
  cases x with
  | enum m s => exact absurd rfl (henum m s)
  | _ => rfl

theorem tSuper_inst_left {n : QualifiedName} {args : List (Name × TArg)} {s : Ty}
    (hs : tResolved s = true) (hy : tResolved y = true) (hne : Ty.inst s n args ≠ y)
    (henum : ∀ m t, y ≠ .enum m t) : tSuper (.inst s n args) y = tSuper s y := by
  have hx : tResolved (.inst s n args) = true := hs
  conv_lhs => unfold tSuper
  rw [hx, hy, if_neg (by decide), if_neg (by decide), if_neg hne]
  cases y with
  | enum m t => exact absurd rfl (henum m t)
  | _ => rfl

theorem tSuper_inst_right {n : QualifiedName} {args : List (Name × TArg)} {t : Ty}
    (hx : tResolved x = true) (ht : tResolved t = true) (henum : ∀ m s, x ≠ .enum m s)
    (hinst : ∀ s m args, x ≠ .inst s m args) : tSuper x (.inst t n args) = tSuper x t := by
  have hy : tResolved (.inst t n args) = true := ht
  conv_lhs => unfold tSuper
  rw [hx, hy, if_neg (by decide), if_neg (by decide), if_neg (hinst t n args)]
  cases x with
  | enum m s => exact absurd rfl (henum m s)
  | inst s m args => exact absurd rfl (hinst s m args)
  | _ => rfl

/-- There is no clause for `const`. -/
theorem tSuper_const {s : Ty} (hs : tResolved s = true) (hy : tResolved y = true)
    (hne : Ty.const s ≠ y) (hhead : IsIntType y ∨ ∃ t, y = .const t) :
    isErrorType (tSuper (.const s) y) = true ∧ isErrorType (tSuper y (.const s)) = true := by
  have hx : tResolved (.const s) = true := hs
  constructor
  · unfold tSuper
    rw [hx, hy, if_neg (by decide), if_neg (by decide), if_neg hne]
    rcases hhead with (_ | _) | ⟨t, rfl⟩ <;> rfl
  · unfold tSuper
    rw [hx, hy, if_neg (by decide), if_neg (by decide), if_neg hne.symm]
    rcases hhead with (_ | _) | ⟨t, rfl⟩ <;> rfl

end Unfold

/-! ## When `tSuper` is least -/

/-- The type below enums and instances. -/
def peel : Ty → Ty
  | .enum _ t => peel t
  | .inst t _ _ => peel t
  | t => t

/-- Taking instances off a type gives another. -/
inductive UnwrapsTo : Ty → Ty → Prop where
  | refl (t : Ty) : UnwrapsTo t t
  | inst {s t : Ty} (x : QualifiedName) (args : List (Name × TArg)) :
      UnwrapsTo s t → UnwrapsTo (.inst s x args) t

/-- Two spellings of the same enum. -/
def SameEnum (x y : Ty) : Prop := tIsEnum x = true ∧ strip x = strip y

/-- `tSuper` compares two spellings of an enum before it takes the enum off: they
    are equal, the second is an instance inside the first, or both are instances of
    the same `const` type. -/
def SpellingsMeet (x y : Ty) : Prop :=
  x = y ∨ (UnwrapsTo x y ∧ ∀ n t, y ≠ .enum n t) ∨
    (tConcrete x = tConcrete y ∧ ∃ t, tConcrete x = .const t)

/-- Below enums and instances the types are equal or none of them is `const`. -/
def CoresMeet (x y : Ty) : Prop :=
  peel x = peel y ∨ (IsIntType (peel x) ∧ IsIntType (peel y))

/-- When `tSuper` finds the least upper bound of two integer or enum types. -/
def HasSuper (x y : Ty) : Prop :=
  (SameEnum x y → SpellingsMeet x y) ∧ (¬ SameEnum x y → CoresMeet x y)

/-- What `tSuper` gives on two integer or enum types. -/
structure SuperSpec (x y z : Ty) : Prop where
  meet : SameEnum x y → SpellingsMeet x y → z.proper = true ∧ strip z = strip x
  miss : SameEnum x y → ¬ SpellingsMeet x y →
    isErrorType z = true ∨ (z.proper = true ∧ tIsInt z = true)
  super : ¬ SameEnum x y → CoresMeet x y →
    z.proper = true ∧ tIsInt z = true ∧ core z = tSuper (core x) (core y)
  error : ¬ SameEnum x y → ¬ CoresMeet x y → isErrorType z = true
  peeled : IsIntType (peel x) → IsIntType (peel y) → IsIntType (peel z)

section Spec

variable {x y x' y' z : Ty}

/-- Taking an enum off that the other type does not share, or shares under another
    spelling. -/
theorem SuperSpec.of_enum (h : SuperSpec x' y' z) (hsame : ¬ SameEnum x' y')
    (hmiss : SameEnum x y → ¬ SpellingsMeet x y) (hpx : peel x = peel x') (hpy : peel y = peel y')
    (hcx : core x = core x') (hcy : core y = core y') : SuperSpec x y z where
  meet hs hm := absurd hm (hmiss hs)
  miss _ _ := by
    by_cases hc : CoresMeet x' y'
    · obtain ⟨hp, hint, -⟩ := h.super hsame hc
      exact .inr ⟨hp, hint⟩
    · exact .inl (h.error hsame hc)
  super _ hc := by
    unfold CoresMeet at hc
    rw [hpx, hpy] at hc
    rw [hcx, hcy]
    exact h.super hsame hc
  error _ hc := by
    unfold CoresMeet at hc
    rw [hpx, hpy] at hc
    exact h.error hsame hc
  peeled hx hy := h.peeled (hpx ▸ hx) (hpy ▸ hy)

/-- Taking an instance off. -/
theorem SuperSpec.of_inst (h : SuperSpec x' y' z) (hsame : SameEnum x y ↔ SameEnum x' y')
    (hmeet : SameEnum x y → (SpellingsMeet x y ↔ SpellingsMeet x' y')) (hstrip : strip x = strip x')
    (hpx : peel x = peel x') (hpy : peel y = peel y') (hcx : core x = core x')
    (hcy : core y = core y') : SuperSpec x y z where
  meet hs hm := hstrip ▸ h.meet (hsame.mp hs) ((hmeet hs).mp hm)
  miss hs hm := h.miss (hsame.mp hs) ((hmeet hs).not.mp hm)
  super hs hc := by
    unfold CoresMeet at hc
    rw [hpx, hpy] at hc
    rw [hcx, hcy]
    exact h.super (hsame.not.mp hs) hc
  error hs hc := by
    unfold CoresMeet at hc
    rw [hpx, hpy] at hc
    exact h.error (hsame.not.mp hs) hc
  peeled hx hy := h.peeled (hpx ▸ hx) (hpy ▸ hy)

end Spec

theorem UnwrapsTo.eq {x y : Ty} (h : UnwrapsTo x y) (hinst : ∀ s n args, x ≠ .inst s n args) :
    x = y := by
  cases h with
  | refl => rfl
  | inst n args h => exact absurd rfl (hinst _ n args)

theorem tConcrete_of_not_inst {t : Ty} (h : ∀ s n args, t ≠ .inst s n args) : tConcrete t = t := by
  cases t with
  | inst s n args => exact absurd rfl (h s n args)
  | _ => rfl

theorem peel_of_head {t : Ty} (henum : ∀ n s, t ≠ .enum n s) (hinst : ∀ s n args, t ≠ .inst s n args) :
    peel t = t := by
  cases t with
  | enum n s => exact absurd rfl (henum n s)
  | inst s n args => exact absurd rfl (hinst s n args)
  | _ => rfl

theorem superSpec_self {x : Ty} (hx : x.proper = true) (hnx : Numeric x) : SuperSpec x x x where
  meet _ _ := ⟨hx, rfl⟩
  miss _ hm := absurd (.inl rfl) hm
  super hs _ := by
    have hcore := isIntType_core hx hnx
    refine ⟨hx, hnx.resolve_right fun h => hs ⟨h, rfl⟩, ?_⟩
    rw [tSuper_self (tResolved_numeric (proper_of_isIntType hcore) (.inl hcore.tIsInt))]
  error _ hc := absurd (.inl rfl) hc
  peeled h _ := h

theorem SuperSpec.enum_left {n : QualifiedName} {s y z : Ty} (h : SuperSpec s y z)
    (hs : tIsInt s = true) (hne : Ty.enum n s ≠ y) : SuperSpec (.enum n s) y z := by
  refine h.of_enum (fun hsame => ?_) (fun _ hmeet => ?_) rfl rfl rfl rfl
  · rw [SameEnum, not_tIsEnum_of_int hs] at hsame
    exact absurd hsame.1 (by decide)
  · rcases hmeet with heq | ⟨hunwrap, -⟩ | ⟨-, t, ht⟩
    · exact hne heq
    · exact hne (hunwrap.eq nofun)
    · cases ht

theorem SuperSpec.enum_right {n : QualifiedName} {x t z : Ty} (h : SuperSpec x t z)
    (ht : tIsInt t = true) (hne : x ≠ .enum n t) : SuperSpec x (.enum n t) z := by
  refine h.of_enum (fun hsame => ?_) (fun _ hmeet => ?_) rfl rfl rfl rfl
  · rw [SameEnum, ← tIsEnum_strip, hsame.2, tIsEnum_strip, not_tIsEnum_of_int ht] at hsame
    exact absurd hsame.1 (by decide)
  · rcases hmeet with heq | ⟨-, henum⟩ | ⟨hconcrete, t', ht'⟩
    · exact hne heq
    · exact henum n t rfl
    · rw [ht'] at hconcrete
      cases hconcrete

theorem SuperSpec.inst_left {n : QualifiedName} {args : List (Name × TArg)} {s y z : Ty}
    (h : SuperSpec s y z) (hne : Ty.inst s n args ≠ y) (henum : ∀ m t, y ≠ .enum m t) :
    SuperSpec (.inst s n args) y z := by
  refine h.of_inst Iff.rfl (fun _ => ⟨fun hmeet => ?_, fun hmeet => ?_⟩) rfl rfl rfl rfl rfl
  · rcases hmeet with heq | ⟨hunwrap, -⟩ | hconcrete
    · exact absurd heq hne
    · cases hunwrap with
      | refl => exact absurd rfl hne
      | inst _ _ hunwrap => exact .inr (.inl ⟨hunwrap, henum⟩)
    · exact .inr (.inr hconcrete)
  · rcases hmeet with heq | ⟨hunwrap, -⟩ | hconcrete
    · exact .inr (.inl ⟨.inst n args (heq ▸ .refl s), henum⟩)
    · exact .inr (.inl ⟨.inst n args hunwrap, henum⟩)
    · exact .inr (.inr hconcrete)

theorem SuperSpec.inst_right {n : QualifiedName} {args : List (Name × TArg)} {x t z : Ty}
    (h : SuperSpec x t z) (hhead : IsIntType x ∨ ∃ s, x = .const s) :
    SuperSpec x (.inst t n args) z := by
  have hinst : ∀ s n args, x ≠ .inst s n args := by
    rcases hhead with (_ | _) | ⟨s, rfl⟩ <;> exact nofun
  refine h.of_inst Iff.rfl (fun hsame => ?_) rfl rfl rfl rfl rfl
  -- only a `const` can be a spelling of an enum here
  obtain ⟨s, rfl⟩ := hhead.resolve_left fun hint => by
    rw [SameEnum, hint.not_tIsEnum] at hsame
    exact absurd hsame.1 (by decide)
  constructor
  · rintro (heq | ⟨hunwrap, -⟩ | hconcrete)
    · cases heq
    · cases hunwrap.eq hinst
    · exact .inr (.inr hconcrete)
  · have heq : Ty.const s = t → SpellingsMeet (.const s) (.inst t n args) := by
      rintro rfl
      exact .inr (.inr ⟨rfl, s, rfl⟩)
    rintro (h | ⟨hunwrap, -⟩ | hconcrete)
    · exact heq h
    · exact heq (hunwrap.eq hinst)
    · exact .inr (.inr hconcrete)

/-- Without enums and instances around it the type is an integer type or `const`. -/
theorem head_cases {t : Ty} (h : Numeric t) (henum : ∀ n s, t ≠ .enum n s)
    (hinst : ∀ s n args, t ≠ .inst s n args) : IsIntType t ∨ ∃ s, t = .const s := by
  cases t with
  | unsigned w => exact .inl (.unsigned w)
  | signed w => exact .inl (.signed w)
  | const s => exact .inr ⟨s, rfl⟩
  | enum n s => exact absurd rfl (henum n s)
  | inst s n args => exact absurd rfl (hinst s n args)
  | _ => rcases h with h | h <;> cases h

theorem superSpec_int {x y : Ty} (hx : IsIntType x) (hy : IsIntType y) :
    SuperSpec x y (tSuper x y) := by
  have hz := isIntType_tSuper hx hy
  have hpeel : ∀ {t : Ty}, IsIntType t → peel t = t := by
    rintro t (_ | _) <;> rfl
  have hsame : ¬ SameEnum x y := by
    rw [SameEnum, hx.not_tIsEnum]
    exact fun h => absurd h.1 (by decide)
  have hcores : CoresMeet x y := .inr ⟨(hpeel hx).symm ▸ hx, (hpeel hy).symm ▸ hy⟩
  exact {
    meet := fun h _ => absurd h hsame
    miss := fun h _ => absurd h hsame
    super := fun _ _ => by
      rw [core_of_isIntType hx, core_of_isIntType hy, core_of_isIntType hz]
      exact ⟨proper_of_isIntType hz, hz.tIsInt, rfl⟩
    error := fun _ h => absurd hcores h
    peeled := fun _ _ => (hpeel hz).symm ▸ hz }

/-- By induction on the two types together, along the clauses of `tSuper`. -/
theorem tSuper_spec {x y : Ty} (hx : x.proper = true) (hy : y.proper = true) (hnx : Numeric x)
    (hny : Numeric y) : SuperSpec x y (tSuper x y) := by
  induction hn : x.size + y.size using Nat.strongRecOn generalizing x y with
  | _ n ih =>
      have hrx := tResolved_numeric hx hnx
      have hry := tResolved_numeric hy hny
      by_cases heq : x = y
      · subst heq
        rw [tSuper_self hrx]
        exact superSpec_self hx hnx
      by_cases hex : ∃ n s, x = .enum n s
      · obtain ⟨n, s, rfl⟩ := hex
        rw [Ty.proper, Bool.and_eq_true] at hx
        rw [tSuper_enum_left (s := s) hrx hry heq]
        exact (ih _ (by simp only [Ty.size] at hn; omega) hx.2 hy (.inl hx.1) hny rfl).enum_left hx.1
          heq
      have hex : ∀ n s, x ≠ .enum n s := fun n s h => hex ⟨n, s, h⟩
      by_cases hey : ∃ n t, y = .enum n t
      · obtain ⟨n, t, rfl⟩ := hey
        rw [Ty.proper, Bool.and_eq_true] at hy
        rw [tSuper_enum_right (t := t) hrx hry heq hex]
        exact (ih _ (by simp only [Ty.size] at hn; omega) hx hy.2 hnx (.inl hy.1) rfl).enum_right
          hy.1 heq
      have hey : ∀ n t, y ≠ .enum n t := fun n t h => hey ⟨n, t, h⟩
      by_cases hix : ∃ s n args, x = .inst s n args
      · obtain ⟨s, n, args, rfl⟩ := hix
        rw [tSuper_inst_left (s := s) hrx hry heq hey]
        exact (ih _ (by simp only [Ty.size] at hn; omega) (x := s) hx hy hnx hny rfl).inst_left
          heq hey
      have hix : ∀ s n args, x ≠ .inst s n args := fun s n args h => hix ⟨s, n, args, h⟩
      have hhx := head_cases hnx hex hix
      by_cases hiy : ∃ t n args, y = .inst t n args
      · obtain ⟨t, n, args, rfl⟩ := hiy
        rw [tSuper_inst_right (t := t) hrx hry hex hix]
        exact (ih _ (by simp only [Ty.size] at hn; omega) (y := t) hx hy hnx hny rfl).inst_right hhx
      have hiy : ∀ t n args, y ≠ .inst t n args := fun t n args h => hiy ⟨t, n, args, h⟩
      have hhy := head_cases hny hey hiy
      by_cases hints : IsIntType x ∧ IsIntType y
      · exact superSpec_int hints.1 hints.2
      -- one of them is `const`
      have herror : isErrorType (tSuper x y) = true := by
        rcases hhx with hintx | ⟨s, rfl⟩
        · obtain ⟨t, rfl⟩ := hhy.resolve_left fun hinty => hints ⟨hintx, hinty⟩
          exact (tSuper_const (s := t) hry hrx (Ne.symm heq) (.inl hintx)).2
        · exact (tSuper_const (s := s) hrx hry heq hhy).1
      have hpx := peel_of_head hex hix
      have hpy := peel_of_head hey hiy
      have hmiss : ¬ SpellingsMeet x y := by
        rintro (h | ⟨hunwrap, -⟩ | ⟨hconcrete, -⟩)
        · exact heq h
        · exact heq (hunwrap.eq hix)
        · rw [tConcrete_of_not_inst hix, tConcrete_of_not_inst hiy] at hconcrete
          exact heq hconcrete
      have hcores : ¬ CoresMeet x y := by
        unfold CoresMeet
        rw [hpx, hpy]
        rintro (h | h)
        · exact heq h
        · exact hints h
      exact {
        meet := fun _ hm => absurd hm hmiss
        miss := fun _ _ => .inl herror
        super := fun _ hc => absurd hc hcores
        error := fun _ _ => herror
        peeled := fun hix hiy => absurd (.inr ⟨hix, hiy⟩) hcores }

/-- The common supertype of two integer or enum types, when there is one. -/
theorem isLUB_tSuper {x y z : ResolvedType} (hnx : Numeric x.ty) (hny : Numeric y.ty)
    (hsame : ¬ SameEnum x.ty y.ty) (hint : tIsInt z.ty = true)
    (hcore : core z.ty = tSuper (core x.ty) (core y.ty)) : IsLUB {x, y} z := by
  have hix := isIntType_core x.proper hnx
  have hiy := isIntType_core y.proper hny
  have hz : ∀ {s : Ty}, IsIntType s → subtype s (core z.ty) = true → subtype s z.ty = true := by
    intro s hs h
    rwa [subtype_strip (proper_of_isIntType hs) z.proper, strip_of_isIntType hs, ← core_of_int hint]
  constructor
  · have hx : x ≤ z := (subtype_numeric_iff x.proper hnx z.proper).mpr
      (.inr (hz hix (hcore ▸ le_tSuper_left hix hiy)))
    have hy : y ≤ z := (subtype_numeric_iff y.proper hny z.proper).mpr
      (.inr (hz hiy (hcore ▸ le_tSuper_right hix hiy)))
    rintro t (rfl | rfl)
    · exact hx
    · exact hy
  · intro u hu
    have hxu : x ≤ u := hu (.inl rfl)
    have hyu : y ≤ u := hu (.inr rfl)
    rw [ResolvedType.le_def, ← subtype_core z.proper hint u.proper, hcore]
    -- an upper bound that is one of the two enums would be an enum above the other
    have hcases : ∀ {s t : ResolvedType}, Numeric s.ty → Numeric t.ty → s ≤ u → t ≤ u →
        (tIsEnum s.ty = true → strip s.ty ≠ strip t.ty) → subtype (core s.ty) u.ty = true := by
      intro s t hns hnt hsu htu hne
      rcases (subtype_numeric_iff s.proper hns u.proper).mp hsu with heq | h
      · rcases hns with hint | henum
        · rw [subtype_core s.proper hint u.proper]
          exact hsu
        · have huenum : tIsEnum u.ty = true := by rw [← tIsEnum_strip, ← heq, tIsEnum_strip, henum]
          rcases (subtype_numeric_iff t.proper hnt u.proper).mp htu with heq' | h
          · exact absurd (heq.trans heq'.symm) (hne henum)
          · rw [not_subtype_enum (isIntType_core t.proper hnt) u.proper huenum] at h
            cases h
      · exact h
    refine tSuper_le hix hiy u.proper (hcases hnx hny hxu hyu fun henum heq => hsame ⟨henum, heq⟩)
      (hcases hny hnx hyu hxu fun henum heq => hsame ⟨?_, heq.symm⟩)
    rw [← tIsEnum_strip, ← heq, tIsEnum_strip, henum]

/-- `tSuper` is the least upper bound of two integer or enum types exactly when it
    compares two spellings of one enum as such, and meets no `const` below enums and
    instances. -/
theorem isLeastSupertype_iff {x y : ResolvedType} (hnx : Numeric x.ty) (hny : Numeric y.ty) :
    IsLeastSupertype {x, y} (tSuper x.ty y.ty) ↔ HasSuper x.ty y.ty := by
  have hspec := tSuper_spec x.proper y.proper hnx hny
  have hnoterror : IsLeastSupertype {x, y} (tSuper x.ty y.ty) →
      isErrorType (tSuper x.ty y.ty) = false := by
    rintro ⟨z, hz, -⟩
    rw [← hz]
    exact isErrorType_of_proper z.proper
  constructor
  · intro h
    have herr := hnoterror h
    refine ⟨fun hsame => ?_, fun hsame => ?_⟩
    · by_contra hmiss
      rcases hspec.miss hsame hmiss with h' | ⟨hp, hint⟩
      · rw [herr] at h'
        cases h'
      · -- an integer type above both is not below the enum itself
        obtain ⟨z, hz, -, hleast⟩ := h
        have hyx : y ≤ x := (subtype_numeric_iff y.proper hny x.proper).mpr (.inl hsame.2.symm)
        have hzx : z ≤ x := hleast (by rintro t (rfl | rfl); exacts [le_refl _, hyx])
        rw [ResolvedType.le_def, hz, ← subtype_core hp hint x.proper,
          not_subtype_enum (isIntType_core hp (.inl hint)) x.proper hsame.1] at hzx
        cases hzx
    · by_contra hcores
      rw [hspec.error hsame hcores] at herr
      cases herr
  · rintro ⟨hmeet, hcores⟩
    by_cases hsame : SameEnum x.ty y.ty
    · obtain ⟨hp, hstrip⟩ := hspec.meet hsame (hmeet hsame)
      have henum : tIsEnum (tSuper x.ty y.ty) = true := by
        rw [← tIsEnum_strip, hstrip, tIsEnum_strip, hsame.1]
      let z : ResolvedType := ⟨_, tResolved_numeric hp (.inr henum), hp⟩
      have hnz : Numeric z.ty := .inr henum
      have hxz : x ≤ z := (subtype_numeric_iff x.proper hnx hp).mpr (.inl hstrip.symm)
      have hzx : z ≤ x := (subtype_numeric_iff hp hnz x.proper).mpr (.inl hstrip)
      have hyz : y ≤ z :=
        (subtype_numeric_iff y.proper hny hp).mpr (.inl (hsame.2.symm.trans hstrip.symm))
      refine ⟨z, rfl, ?_, fun u hu => hzx.trans (hu (.inl rfl))⟩
      rintro t (rfl | rfl)
      · exact hxz
      · exact hyz
    · obtain ⟨hp, hint, hcore⟩ := hspec.super hsame (hcores hsame)
      exact ⟨⟨_, tResolved_numeric hp (.inl hint), hp⟩, rfl, isLUB_tSuper hnx hny hsame hint hcore⟩

/-! ## Choices -/

/-- Integer and enum types such that none is `const` below enums and instances and no
    enum is written in two ways. -/
structure PlainChoices (ts : List ResolvedType) : Prop where
  numeric : ∀ t ∈ ts, Numeric t.ty
  peeled : ∀ t ∈ ts, IsIntType (peel t.ty)
  spelling : ∀ s ∈ ts, ∀ t ∈ ts, SameEnum s.ty t.ty → s = t

theorem PlainChoices.of_subset {ts ts' : List ResolvedType} (h : PlainChoices ts)
    (hsub : ts' ⊆ ts) : PlainChoices ts' where
  numeric t ht := h.numeric t (hsub ht)
  peeled t ht := h.peeled t (hsub ht)
  spelling s hs t ht := h.spelling s (hsub hs) t (hsub ht)

/-- What `tSuper` gives on plain choices is again plain: it is not an enum unless it is
    one of the choices. -/
structure IsSuper (ts : Set ResolvedType) (z : ResolvedType) : Prop where
  isLUB : IsLUB ts z
  numeric : Numeric z.ty
  peeled : IsIntType (peel z.ty)
  mem : tIsEnum z.ty = true → z ∈ ts

theorem isSuper_singleton {ts : List ResolvedType} (h : PlainChoices ts) {t : ResolvedType}
    (ht : t ∈ ts) : IsSuper {t} t where
  isLUB := isLUB_singleton
  numeric := h.numeric t ht
  peeled := h.peeled t ht
  mem _ := rfl

/-- The common supertype of what two groups of choices give. -/
theorem IsSuper.union {ts : List ResolvedType} (h : PlainChoices ts) {as bs : Set ResolvedType}
    {x y : ResolvedType} (hx : IsSuper as x) (hy : IsSuper bs y) (has : ∀ t ∈ as, t ∈ ts)
    (hbs : ∀ t ∈ bs, t ∈ ts) :
    ∃ z : ResolvedType, z.ty = tSuper x.ty y.ty ∧ IsSuper (as ∪ bs) z := by
  have hspelling : SameEnum x.ty y.ty → x = y := by
    intro hsame
    have hyenum : tIsEnum y.ty = true := by
      rw [← tIsEnum_strip, ← hsame.2, tIsEnum_strip]
      exact hsame.1
    exact h.spelling x (has x (hx.mem hsame.1)) y (hbs y (hy.mem hyenum)) hsame
  have hsuper : HasSuper x.ty y.ty :=
    ⟨fun hsame => .inl (congrArg _ (hspelling hsame)), fun _ => .inr ⟨hx.peeled, hy.peeled⟩⟩
  have hspec := tSuper_spec x.proper y.proper hx.numeric hy.numeric
  obtain ⟨z, hz, hlub⟩ := (isLeastSupertype_iff hx.numeric hy.numeric).mpr hsuper
  rw [← hz] at hspec
  refine ⟨z, hz, ⟨?_, fun u hu => ?_⟩, ?_, hspec.peeled hx.peeled hy.peeled, fun henum => ?_⟩
  · rintro t (ht | ht)
    · exact (hx.isLUB.1 ht).trans (hlub.1 (.inl rfl))
    · exact (hy.isLUB.1 ht).trans (hlub.1 (.inr rfl))
  · refine hlub.2 ?_
    rintro t (rfl | rfl)
    · exact hx.isLUB.2 fun t ht => hu (.inl ht)
    · exact hy.isLUB.2 fun t ht => hu (.inr ht)
  · by_cases hsame : SameEnum x.ty y.ty
    · refine .inr ?_
      rw [← tIsEnum_strip, (hspec.meet hsame (hsuper.1 hsame)).2, tIsEnum_strip]
      exact hsame.1
    · exact .inl (hspec.super hsame (hsuper.2 hsame)).2.1
  · by_cases hsame : SameEnum x.ty y.ty
    · have heq := hspelling hsame
      subst heq
      have hzx : z.ty = x.ty := hz.trans (tSuper_self x.resolved)
      have hzx : z = x := by
        cases z
        cases x
        cases hzx
        rfl
      exact .inl (hzx ▸ hx.mem hsame.1)
    · rw [not_tIsEnum_of_int (hspec.super hsame (hsuper.2 hsame)).2.1] at henum
      cases henum

theorem tMux_cons {t : Ty} {ts : List Ty} (hne : ts ≠ []) :
    tMux (t :: ts) (List.cons_ne_nil t ts) = tSuper t (tMux ts hne) := by
  cases ts with
  | nil => exact absurd rfl hne
  | cons u ts => rfl

/-- `tMux` gives the least upper bound of all choices. -/
theorem isSuper_tMux {ts : List ResolvedType} (h : PlainChoices ts)
    (hne : ts.map ResolvedType.ty ≠ []) :
    ∃ z : ResolvedType, z.ty = tMux (ts.map ResolvedType.ty) hne ∧ IsSuper {t | t ∈ ts} z := by
  induction ts with
  | nil => exact absurd rfl hne
  | cons t ts ih =>
      by_cases hnil : ts = []
      · subst hnil
        refine ⟨t, rfl, ?_⟩
        simpa using isSuper_singleton h (List.mem_singleton_self t)
      have hne' : ts.map ResolvedType.ty ≠ [] := by simpa using hnil
      obtain ⟨z, hz, hsuper⟩ := ih (h.of_subset (List.subset_cons_self t ts)) hne'
      obtain ⟨w, hw, hwsuper⟩ := (isSuper_singleton h List.mem_cons_self).union h hsuper
        (by rintro u rfl; exact List.mem_cons_self) fun u hu => List.mem_cons_of_mem t hu
      refine ⟨w, ?_, ?_⟩
      · rw [hw, hz]
        exact (tMux_cons hne').symm
      · have hset : {u | u ∈ t :: ts} = {t} ∪ {u | u ∈ ts} := by
          ext u
          simp
        rwa [hset]

/-- Two least upper bounds are convertible to each other. -/
theorem convertible_of_isLUB {ts : Set ResolvedType} {x y : ResolvedType} (hx : IsLUB ts x)
    (hy : IsLUB ts y) :
    tIsConvertibleTo x.ty y.ty = true ∧ tIsConvertibleTo y.ty x.ty = true := by
  have hxy : subtype x.ty y.ty = true := hx.2 hy.1
  have hyx : subtype y.ty x.ty = true := hy.2 hx.1
  constructor
  · unfold tIsConvertibleTo
    rw [if_pos hxy]
  · unfold tIsConvertibleTo
    rw [if_pos hyx]

/-! ## Comparisons of types -/

/-- What the six folded comparisons of two types say: exactly one of less, equal,
    greater and unordered, and the others in terms of these. -/
def ComparesConsistently (s t : Ty) : Prop :=
  ∃ less equal greater lessEqual greaterEqual notEqual : Bool,
    evalBinaryType s t .less = .boolLiteral less ∧
    evalBinaryType s t .equal = .boolLiteral equal ∧
    evalBinaryType s t .greater = .boolLiteral greater ∧
    evalBinaryType s t .lessEqual = .boolLiteral lessEqual ∧
    evalBinaryType s t .greaterEqual = .boolLiteral greaterEqual ∧
    evalBinaryType s t .notEqual = .boolLiteral notEqual ∧
    [less, equal, greater, !lessEqual && !greaterEqual].count true = 1 ∧
    lessEqual = (less || equal) ∧ greaterEqual = (greater || equal) ∧ notEqual = !equal

theorem comparesConsistently (s t : Ty) : ComparesConsistently s t := by
  refine ⟨_, _, _, _, _, _, rfl, rfl, rfl, rfl, rfl, rfl, ?_⟩
  cases subtype s t <;> cases subtype t s <;> decide

/-! ## The order of types -/

def uint4 : ResolvedType := ⟨.unsigned 4, rfl, rfl⟩

/-- `enum E : uint8`. -/
def byteEnum : ResolvedType := ⟨.enum ["E"] (.unsigned 8), rfl, rfl⟩

/-- `enum E : const uint8`, which passes `checkEnumBaseType`. -/
def constBasedEnum : ResolvedType := ⟨.enum ["E"] (.const (.unsigned 8)), rfl, rfl⟩

end Kanagawa.Frontend
