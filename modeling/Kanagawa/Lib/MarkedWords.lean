/-
  Kanagawa.Lib.MarkedWords

  Texts made of words that start with a marker, and trees of words.

  A text is cut into words at its markers, so it determines its words.  A tree of
  words written from left to right does not determine where its parts end; among
  trees of one shape it does.
-/
import Mathlib

namespace Kanagawa.Lib

/-! ## Words -/

section Words

variable {α : Type} (marker : α → Bool)

/-- A marker and the text up to the next one. -/
abbrev Word (α : Type) := α × List α

/-- The word starts with a marker and has no other. -/
def Word.Marked (w : Word α) : Prop := marker w.1 = true ∧ ∀ c ∈ w.2, marker c = false

def Word.spellAll (ws : List (Word α)) : List α := ws.flatMap fun w => w.1 :: w.2

/-- The words of a text that starts with the marker `m`. -/
def Word.split (m : α) : List α → List (Word α)
  | [] => [(m, [])]
  | c :: text =>
      if marker c then (m, []) :: Word.split c text
      else match Word.split m text with
        | [] => []
        | w :: ws => (w.1, c :: w.2) :: ws

namespace Word

@[simp] theorem spellAll_nil : spellAll ([] : List (Word α)) = [] := rfl

@[simp] theorem spellAll_cons (w : Word α) (ws : List (Word α)) :
    spellAll (w :: ws) = w.1 :: (w.2 ++ spellAll ws) := rfl

@[simp] theorem spellAll_append (ws ws' : List (Word α)) :
    spellAll (ws ++ ws') = spellAll ws ++ spellAll ws' :=
  List.flatMap_append

variable {marker}

theorem exists_split_cons (m : α) (text : List α) :
    ∃ t ws, split marker m text = (m, t) :: ws := by
  induction text generalizing m with
  | nil => exact ⟨_, _, rfl⟩
  | cons c text ih =>
      rw [split]
      split
      · exact ⟨_, _, rfl⟩
      · obtain ⟨t, ws, h⟩ := ih m
        rw [h]
        exact ⟨_, _, rfl⟩

@[simp] theorem spellAll_split (m : α) (text : List α) :
    spellAll (split marker m text) = m :: text := by
  induction text generalizing m with
  | nil => rfl
  | cons c text ih =>
      rw [split]
      split
      · rw [spellAll_cons, ih]
        rfl
      · obtain ⟨t, ws, h⟩ : ∃ t ws, split marker m text = (m, t) :: ws := exists_split_cons m text
        have hspell := ih m
        rw [h, spellAll_cons] at hspell
        rw [h]
        simp only [spellAll_cons, List.cons_append]
        rw [(List.cons.inj hspell).2]

theorem marked_split {m : α} (hm : marker m = true) (text : List α) :
    ∀ w ∈ split marker m text, w.Marked marker := by
  induction text generalizing m with
  | nil =>
      intro w hw
      rw [split, List.mem_singleton] at hw
      subst hw
      exact ⟨hm, nofun⟩
  | cons c text ih =>
      intro w hw
      rw [split] at hw
      split at hw
      case isTrue hc =>
        rcases List.mem_cons.mp hw with rfl | hw
        · exact ⟨hm, nofun⟩
        · exact ih hc w hw
      case isFalse hc =>
        obtain ⟨t, ws, h⟩ : ∃ t ws, split marker m text = (m, t) :: ws := exists_split_cons m text
        have ih := ih hm
        rw [h] at hw ih
        rcases List.mem_cons.mp hw with rfl | hw
        · refine ⟨hm, fun d hd => ?_⟩
          rcases List.mem_cons.mp hd with rfl | hd
          · exact Bool.eq_false_iff.mpr hc
          · exact (ih _ List.mem_cons_self).2 d hd
        · exact ih w (List.mem_cons_of_mem _ hw)

/-- The text after the first word starts with a marker. -/
theorem takeWhile_spellAll {ws : List (Word α)} (h : ∀ w ∈ ws, w.Marked marker) {t : List α}
    (ht : ∀ c ∈ t, marker c = false) :
    (t ++ spellAll ws).takeWhile (fun c => !marker c) = t := by
  rw [List.takeWhile_append_of_pos fun c hc => by rw [ht c hc]; rfl]
  cases ws with
  | nil => simp
  | cons w ws => simp [(h w List.mem_cons_self).1]

/-- A text has one reading as marked words. -/
theorem spellAll_injective {ws ws' : List (Word α)} (h : ∀ w ∈ ws, w.Marked marker)
    (h' : ∀ w ∈ ws', w.Marked marker) (heq : spellAll ws = spellAll ws') : ws = ws' := by
  induction ws generalizing ws' with
  | nil =>
      cases ws' with
      | nil => rfl
      | cons w' ws' => cases heq
  | cons w ws ih =>
      cases ws' with
      | nil => cases heq
      | cons w' ws' =>
          rw [spellAll_cons, spellAll_cons] at heq
          obtain ⟨hmark, hrest⟩ := List.cons.inj heq
          have hws := fun v hv => h v (List.mem_cons_of_mem _ hv)
          have hws' := fun v hv => h' v (List.mem_cons_of_mem _ hv)
          have htext : w.2 = w'.2 := by
            have hcut := congrArg (List.takeWhile fun c => !marker c) hrest
            rwa [takeWhile_spellAll hws (h w List.mem_cons_self).2,
              takeWhile_spellAll hws' (h' w' List.mem_cons_self).2] at hcut
          rw [htext] at hrest
          rw [ih hws hws' (List.append_cancel_left hrest), Prod.ext hmark htext]

end Word

end Words

/-! ## Trees -/

/-- A tree with a list of words at each node. -/
inductive WordTree (β : Type) where
  | node (label : List β) (children : List (WordTree β))

namespace WordTree

variable {β : Type}

mutual

/-- The words of a tree from left to right. -/
def flatten : WordTree β → List β
  | .node label children => label ++ flattenAll children
  termination_by structural t => t

def flattenAll : List (WordTree β) → List β
  | [] => []
  | t :: ts => t.flatten ++ flattenAll ts
  termination_by structural ts => ts

end

mutual

/-- The trees have the same nodes, with equally many words at each. -/
def SameShape : WordTree β → WordTree β → Prop
  | .node label children, .node label' children' =>
      label.length = label'.length ∧ SameShapes children children'
  termination_by structural t => t

def SameShapes : List (WordTree β) → List (WordTree β) → Prop
  | [], [] => True
  | t :: ts, t' :: ts' => t.SameShape t' ∧ SameShapes ts ts'
  | _, _ => False
  termination_by structural ts => ts

end

mutual

theorem SameShape.length_eq {t t' : WordTree β} (h : t.SameShape t') :
    t.flatten.length = t'.flatten.length := by
  cases t with
  | node label children =>
    cases t' with
    | node label' children' =>
        rw [SameShape] at h
        rw [flatten, flatten, List.length_append, List.length_append, h.1, SameShapes.length_eq h.2]

theorem SameShapes.length_eq {ts ts' : List (WordTree β)} (h : SameShapes ts ts') :
    (flattenAll ts).length = (flattenAll ts').length := by
  match ts, ts' with
  | [], [] => rfl
  | [], _ :: _ => exact absurd h (by simp [SameShapes])
  | _ :: _, [] => exact absurd h (by simp [SameShapes])
  | t :: ts, t' :: ts' =>
      rw [SameShapes] at h
      rw [flattenAll, flattenAll, List.length_append, List.length_append, SameShape.length_eq h.1,
        SameShapes.length_eq h.2]

end

mutual

/-- A tree is determined by its shape and its words. -/
theorem SameShape.eq {t t' : WordTree β} (h : t.SameShape t') (heq : t.flatten = t'.flatten) :
    t = t' := by
  cases t with
  | node label children =>
    cases t' with
    | node label' children' =>
        rw [SameShape] at h
        rw [flatten, flatten] at heq
        obtain ⟨hlabel, hchildren⟩ := List.append_inj heq h.1
        rw [hlabel, SameShapes.eq h.2 hchildren]

theorem SameShapes.eq {ts ts' : List (WordTree β)} (h : SameShapes ts ts')
    (heq : flattenAll ts = flattenAll ts') : ts = ts' := by
  match ts, ts' with
  | [], [] => rfl
  | [], _ :: _ => exact absurd h (by simp [SameShapes])
  | _ :: _, [] => exact absurd h (by simp [SameShapes])
  | t :: ts, t' :: ts' =>
      rw [SameShapes] at h
      rw [flattenAll, flattenAll] at heq
      obtain ⟨hhead, htail⟩ := List.append_inj heq h.1.length_eq
      rw [SameShape.eq h.1 hhead, SameShapes.eq h.2 htail]

end

end WordTree

end Kanagawa.Lib
