import Mathlib.Data.List.Forall2

/-!
Lists of values that are cloned and changed one at a time. Two such lists stay related
item by item.
-/

namespace Clones

open List

variable {α β : Type*} {R : α → β → Prop} {left : List α} {right : List β}

theorem forall₂_getElem? (h : Forall₂ R left right) (position : ℕ) :
    Forall₂ R left[position]?.toList right[position]?.toList := by
  induction h generalizing position with
  | nil => exact .nil
  | cons hhead _ ih =>
    cases position with
    | zero => exact .cons hhead .nil
    | succ position => exact ih position

theorem forall₂_modify (h : Forall₂ R left right) {f : α → α} {g : β → β}
    (hstep : ∀ a b, R a b → R (f a) (g b)) (position : ℕ) :
    Forall₂ R (left.modify position f) (right.modify position g) := by
  induction h generalizing position with
  | nil =>
    rw [modify_nil, modify_nil]
    exact .nil
  | cons hhead htail ih =>
    cases position with
    | zero => exact .cons (hstep _ _ hhead) htail
    | succ position => exact .cons hhead (ih position)

end Clones
