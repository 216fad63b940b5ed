import Mathlib.Data.List.Basic
import Mathlib.Data.List.Infix
import Mathlib.Tactic.Common

/-!
Self-delimiting codes. A code is self-delimiting on the values that satisfy
`valid` when a code word at the front of a text determines both its value and
the text behind it. Concatenating such code words is injective, and one
concatenation is a prefix of another exactly when the coded lists are.
-/

namespace PrefixCode

open List

variable {α β : Type*}

def SelfDelimiting (valid : α → Prop) (encode : α → List β) : Prop :=
  ∀ a b, valid a → valid b → ∀ x y, encode a ++ x = encode b ++ y → a = b ∧ x = y

variable {encode : α → List β} {valid : α → Prop}

variable (left : List α)

theorem SelfDelimiting.flatMap_prefix (h : SelfDelimiting valid encode)
    (hne : ∀ a, valid a → encode a ≠ []) (left right : List α) (hleft : ∀ a ∈ left, valid a)
    (hright : ∀ a ∈ right, valid a) :
    left.flatMap encode <+: right.flatMap encode ↔ left <+: right := by
  constructor
  · intro hpre
    induction left generalizing right with
    | nil => exact nil_prefix
    | cons a as ih =>
      obtain ⟨rest, hrest⟩ := hpre
      cases right with
      | nil =>
        simp only [flatMap_cons, flatMap_nil, append_eq_nil_iff] at hrest
        exact absurd hrest.1.1 (hne a (hleft a (mem_cons_self ..)))
      | cons b bs =>
        simp only [flatMap_cons, append_assoc] at hrest
        obtain ⟨rfl, htail⟩ := h a b (hleft a (mem_cons_self ..))
          (hright b (mem_cons_self ..)) _ _ hrest
        have hsub := ih bs (fun x hx => hleft x (mem_cons_of_mem _ hx))
          (fun x hx => hright x (mem_cons_of_mem _ hx)) ⟨rest, htail⟩
        exact cons_prefix_cons.mpr ⟨rfl, hsub⟩
  · rintro ⟨rest, rfl⟩
    exact ⟨rest.flatMap encode, by simp⟩

theorem SelfDelimiting.flatMap_inj (h : SelfDelimiting valid encode)
    (hne : ∀ a, valid a → encode a ≠ []) (left right : List α) (hleft : ∀ a ∈ left, valid a)
    (hright : ∀ a ∈ right, valid a) (heq : left.flatMap encode = right.flatMap encode) :
    left = right := by
  have h1 := (h.flatMap_prefix hne left right hleft hright).mp (heq ▸ prefix_refl _)
  have h2 := (h.flatMap_prefix hne right left hright hleft).mp (heq ▸ prefix_refl _)
  exact h1.eq_of_length_le h2.length_le

/-- Equally many code words in front of two equal texts are the same. -/
theorem SelfDelimiting.flatMap_append_inj (h : SelfDelimiting valid encode) {left right : List α}
    (hlen : left.length = right.length) (hleft : ∀ a ∈ left, valid a)
    (hright : ∀ a ∈ right, valid a) {x y : List β}
    (heq : left.flatMap encode ++ x = right.flatMap encode ++ y) : left = right ∧ x = y := by
  induction left generalizing right with
  | nil =>
    obtain rfl := length_eq_zero_iff.mp hlen.symm
    exact ⟨rfl, heq⟩
  | cons a as ih =>
    obtain ⟨b, bs, rfl⟩ := exists_cons_of_length_eq_add_one hlen.symm
    rw [forall_mem_cons] at hleft hright
    rw [flatMap_cons, flatMap_cons, append_assoc, append_assoc] at heq
    obtain ⟨rfl, htail⟩ := h a b hleft.1 hright.1 _ _ heq
    obtain ⟨rfl, hrest⟩ := ih (Nat.succ.inj hlen) hleft.2 hright.2 htail
    exact ⟨rfl, hrest⟩

/-- Ending a concatenation of code words by a mark that no code word starts
with makes it self-delimiting. -/
theorem SelfDelimiting.terminated (h : SelfDelimiting valid encode) (mark : β)
    (hmark : ∀ a, valid a → ∃ b rest, encode a = b :: rest ∧ b ≠ mark) :
    SelfDelimiting (fun l : List α => ∀ a ∈ l, valid a) (fun l => l.flatMap encode ++ [mark]) := by
  intro left
  induction left with
  | nil =>
    rintro (_ | ⟨b, bs⟩) _ hright x y heq
    · simpa using heq
    · obtain ⟨c, rest, hc, hcm⟩ := hmark b (hright b (mem_cons_self ..))
      simp only [flatMap_nil, flatMap_cons, hc, nil_append, cons_append, List.cons.injEq] at heq
      exact absurd heq.1.symm hcm
  | cons a as ih =>
    rintro (_ | ⟨b, bs⟩) hleft hright x y heq
    · obtain ⟨c, rest, hc, hcm⟩ := hmark a (hleft a (mem_cons_self ..))
      simp only [flatMap_nil, flatMap_cons, hc, nil_append, cons_append, List.cons.injEq] at heq
      exact absurd heq.1 hcm
    · simp only [flatMap_cons, append_assoc] at heq
      obtain ⟨rfl, htail⟩ := h a b (hleft a (mem_cons_self ..))
        (hright b (mem_cons_self ..)) _ _ heq
      obtain ⟨rfl, hxy⟩ := ih bs (fun z hz => hleft z (mem_cons_of_mem _ hz))
        (fun z hz => hright z (mem_cons_of_mem _ hz)) x y (by simpa using htail)
      exact ⟨rfl, hxy⟩

end PrefixCode
