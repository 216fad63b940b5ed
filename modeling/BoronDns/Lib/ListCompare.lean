import Mathlib.Data.List.Lex
import Mathlib.Order.Compare

/-!
Comparing lists element by element: the first elements that differ decide, and a list
that ends first is smaller. If the comparison of the elements goes by an order, that
of the lists goes by the lexicographic order.
-/

namespace ListCompare

open List

variable {α : Type*}

def compareLists (compare : α → α → Ordering) : List α → List α → Ordering
  | [], [] => .eq
  | [], _ :: _ => .lt
  | _ :: _, [] => .gt
  | a :: left, b :: right => (compare a b).then (compareLists compare left right)

/-- A comparison that goes by an order. -/
structure Lawful [LT α] (compare : α → α → Ordering) : Prop where
  lt_iff : ∀ a b, compare a b = .lt ↔ a < b
  gt_iff : ∀ a b, compare a b = .gt ↔ b < a
  eq_iff : ∀ a b, compare a b = .eq ↔ a = b

section Lawful

variable [LT α] {compare : α → α → Ordering}

theorem Lawful.lists (h : Lawful compare) : Lawful (compareLists compare) := by
  have hcases : ∀ left right : List α, (compareLists compare left right = .lt ↔ left < right) ∧
      (compareLists compare left right = .gt ↔ right < left) ∧
        (compareLists compare left right = .eq ↔ left = right) := by
    intro left
    induction left with
    | nil =>
      intro right
      cases right <;> simp [compareLists]
    | cons a left ih =>
      intro right
      cases right with
      | nil => simp [compareLists]
      | cons b right =>
        obtain ⟨hlt, hgt, heq⟩ := ih right
        rw [compareLists, cons_lt_cons_iff, cons_lt_cons_iff, List.cons.injEq, ← h.lt_iff a b,
          ← h.gt_iff a b, ← h.eq_iff a b, ← hlt, ← hgt, ← heq]
        have hsymm : b = a ↔ compare a b = .eq := by rw [eq_comm, h.eq_iff]
        rw [hsymm]
        cases compare a b <;> simp
  exact ⟨fun l r => (hcases l r).1, fun l r => (hcases l r).2.1, fun l r => (hcases l r).2.2⟩

end Lawful

variable (compare : α → α → Ordering)

section Lists

variable [LT α]

theorem lists_map_lt_iff {β : Type*} [LT β] {f : α → β} {left right : List α}
    (hlt : ∀ a ∈ left, ∀ b ∈ right, f a < f b ↔ a < b)
    (heq : ∀ a ∈ left, ∀ b ∈ right, f a = f b → a = b) :
    left.map f < right.map f ↔ left < right := by
  induction left generalizing right with
  | nil => cases right <;> simp
  | cons a left ih =>
    cases right with
    | nil => simp
    | cons b right =>
      have hrest : left.map f < right.map f ↔ left < right :=
        ih (fun x hx y hy => hlt x (mem_cons_of_mem _ hx) y (mem_cons_of_mem _ hy))
          (fun x hx y hy => heq x (mem_cons_of_mem _ hx) y (mem_cons_of_mem _ hy))
      have hhead : f a = f b ↔ a = b :=
        ⟨heq a (by simp) b (by simp), fun h => h ▸ rfl⟩
      rw [map_cons, map_cons, cons_lt_cons_iff, cons_lt_cons_iff, hlt a (by simp) b (by simp),
        hhead, hrest]

theorem append_lt_append_iff {front other : List α} (h : front.length = other.length)
    (left right : List α) :
    front ++ left < other ++ right ↔ front < other ∨ front = other ∧ left < right := by
  induction front generalizing other with
  | nil =>
    have hother : other = [] := length_eq_zero_iff.mp h.symm
    simp [hother, not_lt_nil]
  | cons a front ih =>
    cases other with
    | nil => simp at h
    | cons b other =>
      have hlen : front.length = other.length := by simpa using h
      simp only [cons_append, cons_lt_cons_iff, ih hlen, List.cons.injEq]
      tauto

end Lists

end ListCompare
