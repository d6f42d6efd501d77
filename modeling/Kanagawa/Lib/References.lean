/-
  Kanagawa.Lib.References

  Structures that hold references into a table, and passes that renumber them.

  Such a structure has a list of the references it holds and an update that puts
  another number in the place of each, which may fail.  `Renumbers` says that the
  two agree about the places, and is proved of a structure from its parts.
-/
import Kanagawa.Lib.Except

namespace Kanagawa.Lib.References

open Lib.Except

variable {ε α β γ : Type}

/-- The update writes all references, and only these: it changes nothing if they stay,
    a renumbering that keeps their order succeeds, and it is undone by the renumbering back. -/
structure Renumbers (refs : α → List Nat) (update : (Nat → Except ε Nat) → α → Except ε α) :
    Prop where
  fixed : ∀ {f : Nat → Except ε Nat} {x : α}, (∀ r ∈ refs x, f r = .ok r) → update f x = .ok x
  renumber : ∀ {g : Nat → Nat} {x : α}, StrictMonoOn g {r | r ∈ refs x} →
    ∃ y, refs y = (refs x).map g ∧
      (∀ f : Nat → Except ε Nat, (∀ r ∈ refs x, f r = .ok (g r)) → update f x = .ok y) ∧
      ∀ f : Nat → Except ε Nat, (∀ r ∈ refs x, f (g r) = .ok r) → update f y = .ok x

namespace Renumbers

variable {refs : α → List Nat} {update : (Nat → Except ε Nat) → α → Except ε α}
  {refs' : β → List Nat} {update' : (Nat → Except ε Nat) → β → Except ε β}

/-- A reference. -/
theorem register : Renumbers (fun r : Nat => [r]) (fun (f : Nat → Except ε Nat) r => f r) where
  fixed h := h _ List.mem_cons_self
  renumber {g x} _ := ⟨g x, rfl, fun _ h => h _ List.mem_cons_self, fun _ h => h _ List.mem_cons_self⟩

/-- Data without references. -/
theorem constant :
    Renumbers (fun _ : α => []) (fun (_ : Nat → Except ε Nat) (x : α) => Except.ok x) where
  fixed _ := rfl
  renumber {_ x} _ := ⟨x, rfl, fun _ _ => rfl, fun _ _ => rfl⟩

theorem pair (h : Renumbers refs update) (h' : Renumbers refs' update') :
    Renumbers (fun x : α × β => refs x.1 ++ refs' x.2)
      (fun f x => do
        let a ← update f x.1
        let b ← update' f x.2
        return (a, b)) where
  fixed {f x} hf := by
    rw [h.fixed fun r hr => hf r (List.mem_append_left _ hr), ok_bind,
      h'.fixed fun r hr => hf r (List.mem_append_right _ hr)]
    rfl
  renumber {g x} hg := by
    obtain ⟨a, ha, hto, hback⟩ := h.renumber (hg.mono fun r hr => List.mem_append_left _ hr)
    obtain ⟨b, hb, hto', hback'⟩ := h'.renumber (hg.mono fun r hr => List.mem_append_right _ hr)
    refine ⟨(a, b), by rw [List.map_append, ha, hb], fun f hf => ?_, fun f hf => ?_⟩
    · rw [hto f fun r hr => hf r (List.mem_append_left _ hr), ok_bind,
        hto' f fun r hr => hf r (List.mem_append_right _ hr)]
      rfl
    · rw [hback f fun r hr => hf r (List.mem_append_left _ hr), ok_bind,
        hback' f fun r hr => hf r (List.mem_append_right _ hr)]
      rfl

theorem list (h : Renumbers refs update) :
    Renumbers (fun xs : List α => xs.flatMap refs) (fun f xs => xs.mapM (update f)) where
  fixed {f xs} hf := by
    have hall : ∀ x ∈ xs, update f x = .ok (id x) := fun x hx =>
      h.fixed fun r hr => hf r (List.mem_flatMap.mpr ⟨x, hx, hr⟩)
    rw [mapM_eq_ok hall, List.map_id]
  renumber {g xs} hg := by
    induction xs with
    | nil => exact ⟨[], rfl, fun _ _ => rfl, fun _ _ => rfl⟩
    | cons x xs ih =>
        have hhead : ∀ r ∈ refs x, r ∈ (x :: xs).flatMap refs := fun r hr =>
          List.mem_flatMap.mpr ⟨x, List.mem_cons_self, hr⟩
        have htail : ∀ r ∈ xs.flatMap refs, r ∈ (x :: xs).flatMap refs := fun r hr => by
          rw [List.flatMap_cons]
          exact List.mem_append_right _ hr
        obtain ⟨y, hy, hto, hback⟩ := h.renumber (hg.mono hhead)
        obtain ⟨ys, hys, htos, hbacks⟩ := ih (hg.mono htail)
        refine ⟨y :: ys, ?_, fun f hf => ?_, fun f hf => ?_⟩
        · simp only [List.flatMap_cons, List.map_append, hy, hys]
        · rw [List.mapM_cons, hto f fun r hr => hf r (hhead r hr), ok_bind,
            htos f fun r hr => hf r (htail r hr)]
          rfl
        · rw [List.mapM_cons, hback f fun r hr => hf r (hhead r hr), ok_bind,
            hbacks f fun r hr => hf r (htail r hr)]
          rfl

/-- A part that is there for some values of a tag only, or is a reference for these only. -/
theorem conditional (c : γ → Bool) (h : Renumbers refs update) :
    Renumbers (fun x : γ × α => if c x.1 then refs x.2 else [])
      (fun f x => if c x.1 then (fun a => (x.1, a)) <$> update f x.2 else .ok x) where
  fixed {f x} hf := by
    cases hc : c x.1 with
    | false => rfl
    | true =>
        simp only [hc, if_true] at hf ⊢
        rw [h.fixed hf]
        rfl
  renumber {g x} hg := by
    cases hc : c x.1 with
    | false => exact ⟨x, by simp [hc], fun _ _ => by simp, fun _ _ => by simp [hc]⟩
    | true =>
        simp only [hc, if_true] at hg ⊢
        obtain ⟨y, hy, hto, hback⟩ := h.renumber hg
        refine ⟨(x.1, y), by simp [hc, hy], fun f hf => ?_, fun f hf => ?_⟩
        · rw [hto f hf]
          rfl
        · simp only [hc, if_true]
          rw [hback f hf]
          rfl

theorem sum (h : Renumbers refs update) (h' : Renumbers refs' update') :
    Renumbers (Sum.elim refs refs')
      (fun f x => x.elim (fun a => Sum.inl <$> update f a) (fun b => Sum.inr <$> update' f b)) where
  fixed {f x} hf := by
    cases x with
    | inl a => exact congrArg (Sum.inl <$> ·) (h.fixed hf)
    | inr b => exact congrArg (Sum.inr <$> ·) (h'.fixed hf)
  renumber {g x} hg := by
    cases x with
    | inl a =>
        obtain ⟨y, hy, hto, hback⟩ := h.renumber hg
        exact ⟨.inl y, hy, fun f hf => congrArg (Sum.inl <$> ·) (hto f hf),
          fun f hf => congrArg (Sum.inl <$> ·) (hback f hf)⟩
    | inr b =>
        obtain ⟨y, hy, hto, hback⟩ := h'.renumber hg
        exact ⟨.inr y, hy, fun f hf => congrArg (Sum.inr <$> ·) (hto f hf),
          fun f hf => congrArg (Sum.inr <$> ·) (hback f hf)⟩

/-- The same structure in another form. -/
theorem of_equiv (e : β ≃ α) (h : Renumbers refs update) (hrefs : ∀ x, refs' x = refs (e x))
    (hupdate : ∀ f x, update' f x = e.symm <$> update f (e x)) : Renumbers refs' update' where
  fixed {f x} hf := by
    rw [hupdate, h.fixed fun r hr => hf r (hrefs x ▸ hr)]
    exact congrArg Except.ok (e.symm_apply_apply x)
  renumber {g x} hg := by
    obtain ⟨y, hy, hto, hback⟩ := h.renumber (hrefs x ▸ hg)
    refine ⟨e.symm y, by rw [hrefs, hrefs, e.apply_symm_apply, hy], fun f hf => ?_, fun f hf => ?_⟩
    · rw [hupdate, hto f fun r hr => hf r (hrefs x ▸ hr)]
      rfl
    · rw [hupdate, e.apply_symm_apply, hback f fun r hr => hf r (hrefs x ▸ hr)]
      exact congrArg Except.ok (e.symm_apply_apply x)

end Renumbers

end Kanagawa.Lib.References
