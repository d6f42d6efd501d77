/-
  Kanagawa.Lib.NumberedNames

  Making names unique by numbers.

  Names are visited in order; a name that was met `k` times before gets the number `k` after a
  separator, and the first one is kept as it is.  The names that come out are different from each
  other unless some name already was another one with one of its numbers.
-/
import Mathlib

namespace Kanagawa.Lib.NumberedNames

variable {sep a b : String} {names seen : List String} {k m n : Nat}

/-- A name with its number. -/
def numbered (sep name : String) (k : Nat) : String :=
  if k > 0 then name ++ sep ++ toString k else name

/-- The names with their numbers, after others were met. -/
def numberFrom (seen : List String) : List String → List (String × Nat)
  | [] => []
  | name :: names => (name, seen.count name) :: numberFrom (name :: seen) names

theorem numberFrom_append (names names' : List String) : ∀ seen,
    numberFrom seen (names ++ names') =
      numberFrom seen names ++ numberFrom (names.reverse ++ seen) names' := by
  induction names with
  | nil => exact fun seen => rfl
  | cons name names ih =>
      intro seen
      rw [List.cons_append, numberFrom, numberFrom, ih, List.cons_append, List.reverse_cons,
        List.append_assoc]
      rfl

theorem mem_numberFrom : ∀ {seen : List String},
    (a, k) ∈ numberFrom seen names ↔
      seen.count a ≤ k ∧ k < seen.count a + names.count a := by
  induction names with
  | nil =>
      intro seen
      rw [numberFrom, List.count_nil]
      constructor
      · exact nofun
      · omega
  | cons name names ih =>
      intro seen
      rw [numberFrom, List.mem_cons, Prod.mk.injEq, ih]
      by_cases h : name = a
      · subst h
        rw [List.count_cons_self, List.count_cons_self]
        constructor
        · rintro (⟨-, hk⟩ | hk) <;> omega
        · rintro ⟨hle, hlt⟩
          rcases Nat.eq_or_lt_of_le hle with heq | hlt'
          · exact .inl ⟨rfl, heq.symm⟩
          · exact .inr ⟨by omega, by omega⟩
      · rw [List.count_cons_of_ne h, List.count_cons_of_ne h, or_iff_right]
        exact fun hk => h hk.1.symm

/-- No name gets a number twice. -/
theorem nodup_numberFrom : ∀ {seen : List String}, (numberFrom seen names).Nodup := by
  induction names with
  | nil => exact List.nodup_nil
  | cons name names ih =>
      intro seen
      rw [numberFrom, List.nodup_cons]
      refine ⟨fun hmem => ?_, ih⟩
      have hle := (mem_numberFrom.mp hmem).1
      rw [List.count_cons_self] at hle
      omega

/-! ## Numbers at the end of names -/

theorem toDigits_injective (h : Nat.toDigits 10 m = Nat.toDigits 10 n) : m = n := by
  have hparsed := congrArg (fun ds => Nat.ofDigitChars 10 ds 0) h
  simpa only [Nat.ofDigitChars_ten_toDigits] using hparsed

/-- The first digits of a number are a number. -/
theorem exists_of_toDigits_append : ∀ {n : Nat} {ds es : List Char},
    Nat.toDigits 10 n = ds ++ es → ds ≠ [] → 0 < n →
      ∃ k, 0 < k ∧ k ≤ n ∧ ds = Nat.toDigits 10 k := by
  intro n
  induction n using Nat.strongRecOn with
  | ind n ih =>
      intro ds es h hds hn
      -- Without a last digit, the number itself; else the digits before it
      rcases List.eq_nil_or_concat es with rfl | ⟨es', e, rfl⟩
      · rw [List.append_nil] at h
        exact ⟨n, hn, Nat.le_refl n, h.symm⟩
      · rcases Nat.lt_or_ge n 10 with hlt | hge
        · rw [Nat.toDigits_of_lt_base hlt, List.concat_eq_append, ← List.append_assoc] at h
          have hlen := congrArg List.length h
          have hpos := List.length_pos_of_ne_nil hds
          rw [List.length_append, List.length_append, List.length_singleton,
            List.length_singleton] at hlen
          omega
        · rw [Nat.toDigits_of_base_le (by decide) hge, List.concat_eq_append,
            ← List.append_assoc] at h
          have hinit := (List.append_inj' h rfl).1
          have hdiv : 0 < n / 10 := Nat.div_pos hge (by decide)
          obtain ⟨k, hk, hle, hds'⟩ := ih (n / 10) (Nat.div_lt_self hn (by decide)) hinit hds hdiv
          exact ⟨k, hk, Nat.le_trans hle (Nat.div_le_self n 10), hds'⟩

/-- After this separator, two numbered names are the same only if one of the names is the other
    one with a smaller number. -/
def Separates (sep : String) : Prop :=
  ∀ {a b : String} {m n : Nat}, 0 < m → a ++ sep ++ toString m = b ++ sep ++ toString n →
    a.length ≤ b.length → a = b ∨ ∃ k, 0 < k ∧ k ≤ m ∧ b = a ++ sep ++ toString k

theorem toList_numbered (sep a : String) (k : Nat) :
    (a ++ sep ++ toString k).toList = a.toList ++ (sep.toList ++ Nat.toDigits 10 k) := by
  rw [String.toList_append, String.toList_append, Nat.toString_eq_repr, Nat.toList_repr,
    List.append_assoc]

/-- Where a name that is no longer than the other one ends. -/
theorem exists_append (h : a ++ sep ++ toString m = b ++ sep ++ toString n)
    (hle : a.length ≤ b.length) :
    ∃ cs, b.toList = a.toList ++ cs ∧
      sep.toList ++ Nat.toDigits 10 m = cs ++ (sep.toList ++ Nat.toDigits 10 n) := by
  have hchars := congrArg String.toList h
  rw [toList_numbered, toList_numbered] at hchars
  rcases List.append_eq_append_iff.mp hchars with ⟨cs, hb, hds⟩ | ⟨cs, ha, hds⟩
  · exact ⟨cs, hb, hds⟩
  · have hlen := congrArg List.length ha
    rw [List.length_append, String.length_toList, String.length_toList] at hlen
    obtain rfl := List.eq_nil_of_length_eq_zero (show cs.length = 0 by omega)
    rw [List.append_nil] at ha
    exact ⟨[], by rw [List.append_nil, ha], hds.symm⟩

/-- Without a separator, a number may go on with the digits of the other one. -/
theorem separates_empty : Separates "" := by
  intro a b m n hm h hle
  obtain ⟨cs, hb, hds⟩ := exists_append h hle
  by_cases hcs : cs = []
  · rw [hcs, List.append_nil] at hb
    exact .inl (String.toList_injective hb.symm)
  · obtain ⟨k, hk, hkm, hdigits⟩ := exists_of_toDigits_append hds hcs hm
    refine .inr ⟨k, hk, hkm, String.toList_injective ?_⟩
    rw [hb, toList_numbered, hdigits]
    rfl

/-- An underscore is in no number, so it ends the name. -/
theorem separates_underscore : Separates "_" := by
  intro a b m n _ h hle
  obtain ⟨cs, hb, hds⟩ := exists_append h hle
  cases cs with
  | nil =>
      rw [List.append_nil] at hb
      exact .inl (String.toList_injective hb.symm)
  | cons c cs =>
      have htail : Nat.toDigits 10 m = cs ++ '_' :: Nat.toDigits 10 n := (List.cons.inj hds).2
      have hmem : '_' ∈ Nat.toDigits 10 m := by
        rw [htail]
        exact List.mem_append_right _ List.mem_cons_self
      exact absurd hmem Nat.underscore_not_in_toDigits

/-! ## When the names are unique -/

theorem numbered_ne (sep a : String) (k : Nat) : a ++ sep ++ toString k ≠ a := by
  intro h
  have hlen := congrArg List.length (congrArg String.toList h)
  have hpos : 0 < (Nat.toDigits 10 k).length := Nat.length_toDigits_pos
  rw [toList_numbered, List.length_append, List.length_append] at hlen
  omega

/-- Two names with numbers that are the same. -/
theorem eq_of_numbered_eq (hsep : Separates sep)
    (hclash : ∀ a k, 0 < k → k < names.count a → a ++ sep ++ toString k ∉ names)
    (hm : m < names.count a) (hn : n < names.count b) (hle : a.length ≤ b.length)
    (h : numbered sep a m = numbered sep b n) : a = b := by
  have hmem : ∀ {c i}, i < names.count c → c ∈ names := fun hi =>
    List.count_pos_iff.mp (Nat.zero_lt_of_lt hi)
  rw [numbered, numbered] at h
  by_cases hm0 : m > 0
  · by_cases hn0 : n > 0
    · rw [if_pos hm0, if_pos hn0] at h
      rcases hsep hm0 h hle with heq | ⟨k, hk, hkm, hb⟩
      · exact heq
      · exact absurd (hb ▸ hmem hn) (hclash a k hk (Nat.lt_of_le_of_lt hkm hm))
    · rw [if_pos hm0, if_neg hn0] at h
      exact absurd (h ▸ hmem hn) (hclash a m hm0 hm)
  · by_cases hn0 : n > 0
    · rw [if_neg hm0, if_pos hn0] at h
      exact absurd (h ▸ hmem hm) (hclash b n hn0 hn)
    · rw [if_neg hm0, if_neg hn0] at h
      exact h

theorem numbered_injective (h : numbered sep a m = numbered sep a n) : m = n := by
  rw [numbered, numbered] at h
  by_cases hm : m > 0
  · by_cases hn : n > 0
    · rw [if_pos hm, if_pos hn] at h
      have hchars := congrArg String.toList h
      rw [toList_numbered, toList_numbered] at hchars
      exact toDigits_injective (List.append_cancel_left (List.append_cancel_left hchars))
    · rw [if_pos hm, if_neg hn] at h
      exact absurd h (numbered_ne sep a m)
  · by_cases hn : n > 0
    · rw [if_neg hm, if_pos hn] at h
      exact absurd h.symm (numbered_ne sep a n)
    · omega

/-- Numbered names are unique unless a name is another one with one of its numbers. -/
theorem nodup_numbered_iff (hsep : Separates sep) :
    ((numberFrom [] names).map fun p => numbered sep p.1 p.2).Nodup ↔
      ∀ a k, 0 < k → k < names.count a → a ++ sep ++ toString k ∉ names := by
  have hpairs : ∀ {a k}, (a, k) ∈ numberFrom [] names ↔ k < names.count a := by
    intro a k
    rw [mem_numberFrom, List.count_nil]
    omega
  rw [List.nodup_map_iff_inj_on nodup_numberFrom]
  constructor
  · intro hinj a k hk hlt hmem
    have heq := hinj (a, k) (hpairs.mpr hlt) (a ++ sep ++ toString k, 0)
      (hpairs.mpr (List.count_pos_iff.mpr hmem)) (by
        show numbered sep a k = numbered sep (a ++ sep ++ toString k) 0
        rw [numbered, if_pos hk]
        rfl)
    exact numbered_ne sep a k (Prod.mk.inj heq).1.symm
  · rintro hclash ⟨a, m⟩ hm ⟨b, n⟩ hn h
    have hm := hpairs.mp hm
    have hn := hpairs.mp hn
    have hab : a = b := by
      rcases Nat.le_total a.length b.length with hle | hle
      · exact eq_of_numbered_eq hsep hclash hm hn hle h
      · exact (eq_of_numbered_eq hsep hclash hn hm hle h.symm).symm
    subst hab
    exact Prod.ext rfl (numbered_injective h)

end Kanagawa.Lib.NumberedNames
