/-
  Kanagawa.Lib.Except

  Computations that can fail: inverting binds and folds.
-/
import Mathlib

namespace Kanagawa.Lib.Except

variable {ε α β : Type}

@[simp] theorem ok_bind (a : α) (f : α → Except ε β) : (Except.ok a >>= f) = f a := rfl

@[simp] theorem error_bind (e : ε) (f : α → Except ε β) :
    ((Except.error e : Except ε α) >>= f) = .error e := rfl

@[simp] theorem pure_eq_ok (a : α) : (pure a : Except ε α) = .ok a := rfl

theorem bind_eq_ok_iff {x : Except ε α} {f : α → Except ε β} {r : β} :
    (x >>= f) = .ok r ↔ ∃ a, x = .ok a ∧ f a = .ok r := by
  cases x with
  | error e => simp
  | ok a => simp

theorem map_eq_ok {x : Except ε α} {f : α → β} {r : β} (h : f <$> x = .ok r) :
    ∃ a, x = .ok a ∧ f a = r := by
  cases x with
  | error e => exact nomatch h
  | ok a => exact ⟨a, rfl, Except.ok.inj h⟩

theorem mapM_eq_ok {f : α → Except ε β} {g : α → β} {l : List α}
    (h : ∀ a ∈ l, f a = .ok (g a)) : l.mapM f = .ok (l.map g) := by
  induction l with
  | nil => rfl
  | cons a l ih =>
      rw [List.mapM_cons, h a List.mem_cons_self, ok_bind,
        ih fun a' ha' => h a' (List.mem_cons_of_mem _ ha')]
      rfl

/-- Mapping succeeds if it does on every element, and relates the elements one by one. -/
theorem mapM_succeeds {f : α → Except ε β} {R : α → β → Prop} {l : List α}
    (h : ∀ a ∈ l, ∃ b, f a = .ok b ∧ R a b) :
    ∃ l', l.mapM f = .ok l' ∧ List.Forall₂ R l l' := by
  induction l with
  | nil => exact ⟨[], rfl, .nil⟩
  | cons a l ih =>
      obtain ⟨b, hb, hR⟩ := h a List.mem_cons_self
      obtain ⟨l', hl', hall⟩ := ih fun a' ha' => h a' (List.mem_cons_of_mem _ ha')
      refine ⟨b :: l', ?_, .cons hR hall⟩
      rw [List.mapM_cons, hb, ok_bind, hl']
      rfl

/-- What a mapping that succeeds makes of the elements, one by one. -/
theorem mapM_related {f : α → Except ε β} {l : List α} : ∀ {l' : List β},
    l.mapM f = .ok l' → List.Forall₂ (fun a b => f a = .ok b) l l' := by
  induction l with
  | nil =>
      intro l' h
      rw [List.mapM_nil, pure_eq_ok] at h
      exact Except.ok.inj h ▸ .nil
  | cons a l ih =>
      intro l' h
      simp only [List.mapM_cons, bind_eq_ok_iff] at h
      obtain ⟨b, hb, rest, hrest, h⟩ := h
      exact Except.ok.inj h ▸ .cons hb (ih hrest)

/-- What a mapping that succeeds makes, it makes of some element. -/
theorem mem_of_mapM {f : α → Except ε β} {l : List α} {l' : List β} (h : l.mapM f = .ok l')
    {b : β} (hb : b ∈ l') : ∃ a ∈ l, f a = .ok b := by
  have hall := mapM_related h
  obtain ⟨i, hi, rfl⟩ := List.getElem_of_mem hb
  have hi' : i < l.length := hall.length_eq ▸ hi
  exact ⟨_, List.getElem_mem hi', hall.get hi' hi⟩

/-- A mapping that succeeds makes something of every element. -/
theorem exists_of_mapM {f : α → Except ε β} {l : List α} : ∀ {l' : List β},
    l.mapM f = .ok l' → ∀ a ∈ l, ∃ b ∈ l', f a = .ok b := by
  induction l with
  | nil => exact fun _ a ha => absurd ha List.not_mem_nil
  | cons a l ih =>
      intro l' h a' ha'
      simp only [List.mapM_cons, bind_eq_ok_iff] at h
      obtain ⟨b, hb, rest, hrest, h⟩ := h
      rw [← Except.ok.inj h]
      rcases List.mem_cons.mp ha' with rfl | ha'
      · exact ⟨b, List.mem_cons_self, hb⟩
      · obtain ⟨b', hb', hf⟩ := ih hrest a' ha'
        exact ⟨b', List.mem_cons_of_mem _ hb', hf⟩

/-- A loop that succeeds ends in a state with the invariant of its rounds. -/
theorem foldlM_preserves {f : β → α → Except ε β} (I : β → Prop) {l : List α}
    (hstep : ∀ a ∈ l, ∀ b b', I b → f b a = .ok b' → I b') {b b' : β} (hb : I b)
    (hok : l.foldlM f b = .ok b') : I b' := by
  induction l generalizing b with
  | nil =>
      rw [List.foldlM_nil, pure_eq_ok] at hok
      exact Except.ok.inj hok ▸ hb
  | cons a l ih =>
      rw [List.foldlM_cons, bind_eq_ok_iff] at hok
      obtain ⟨b₁, hok₁, hok⟩ := hok
      exact ih (fun a' ha' => hstep a' (List.mem_cons_of_mem _ ha'))
        (hstep a List.mem_cons_self b b₁ hb hok₁) hok

/-- A loop succeeds if its invariant makes every round succeed. -/
theorem foldlM_succeeds {f : β → α → Except ε β} (I : β → Prop) {l : List α}
    (hstep : ∀ a ∈ l, ∀ b, I b → ∃ b', f b a = .ok b' ∧ I b') {b : β} (hb : I b) :
    ∃ b', l.foldlM f b = .ok b' ∧ I b' := by
  induction l generalizing b with
  | nil => exact ⟨b, rfl, hb⟩
  | cons a l ih =>
      obtain ⟨b₁, hok₁, hb₁⟩ := hstep a List.mem_cons_self b hb
      obtain ⟨b₂, hok₂, hb₂⟩ := ih (fun a' ha' => hstep a' (List.mem_cons_of_mem _ ha')) hb₁
      exact ⟨b₂, by rw [List.foldlM_cons, hok₁, ok_bind, hok₂], hb₂⟩

/-- A loop without a result succeeds if it does at every element. -/
theorem forM_eq_ok {f : α → Except ε Unit} {l : List α} (h : ∀ a ∈ l, f a = .ok ()) :
    l.forM f = .ok () := by
  induction l with
  | nil => rfl
  | cons a rest ih =>
      show (f a >>= fun _ => rest.forM f) = .ok ()
      rw [h a List.mem_cons_self, ok_bind]
      exact ih fun b hb => h b (List.mem_cons_of_mem _ hb)

/-- Testing all elements in order comes out true only if every test does. -/
theorem allM_eq_true {p : α → Except ε Bool} {l : List α} (h : l.allM p = .ok true) :
    ∀ a ∈ l, p a = .ok true := by
  induction l with
  | nil => exact fun a ha => nomatch ha
  | cons a l ih =>
      rw [List.allM, bind_eq_ok_iff] at h
      obtain ⟨b, hb, hrest⟩ := h
      cases b with
      | false => exact nomatch hrest
      | true =>
          intro a' ha'
          rcases List.mem_cons.mp ha' with rfl | ha'
          · exact hb
          · exact ih hrest a' ha'

/-- The element that is found is one of the list, and its test comes out true. -/
theorem findM?_eq_some {p : α → Except ε Bool} {l : List α} {a : α}
    (h : l.findM? p = .ok (some a)) : a ∈ l ∧ p a = .ok true := by
  induction l with
  | nil => exact nomatch h
  | cons a' l ih =>
      rw [List.findM?, bind_eq_ok_iff] at h
      obtain ⟨b, hb, hrest⟩ := h
      cases b with
      | false =>
          obtain ⟨hmem, htrue⟩ := ih hrest
          exact ⟨List.mem_cons_of_mem _ hmem, htrue⟩
      | true =>
          obtain rfl := Option.some.inj (Except.ok.inj hrest)
          exact ⟨List.mem_cons_self, hb⟩

end Kanagawa.Lib.Except
