import Mathlib.Data.List.Basic
import Mathlib.Data.List.TakeWhile
import Mathlib.Tactic.Common

/-!
Binary search in a slice. The loop halves the part in which the answer lies and does
not stop early at a match. On a list that the probe orders, a match is found if there
is one, and otherwise the place where it would be; the partition point of a predicate
is how many elements it holds of at the front.
-/

namespace BinarySearch

open List Option

variable {α : Type*} {probe : α → Ordering} {l : List α}

/-- The answer is among the `size` elements from `base` on. -/
def searchLoop (probe : α → Ordering) (l : List α) (base size : ℕ) : ℕ :=
  if size ≤ 1 then
    base
  else
    let mid := base + size / 2
    searchLoop probe l (if l[mid]?.map probe = some .gt then base else mid) (size - size / 2)
  termination_by size
  decreasing_by omega

/-- The index of a match, or as an error the index at which it can be inserted. -/
def binarySearchBy (probe : α → Ordering) (l : List α) : Except ℕ ℕ :=
  let base := searchLoop probe l 0 l.length
  match l[base]?.map probe with
  | none => .error 0
  | some .eq => .ok base
  | some .lt => .error (base + 1)
  | some .gt => .error base

def partitionPoint (p : α → Bool) (l : List α) : ℕ :=
  match binarySearchBy (fun a => if p a then .lt else .gt) l with
  | .ok index => index
  | .error index => index

/-- The probe goes from less over equal to greater. -/
def Ordered (probe : α → Ordering) (l : List α) : Prop :=
  l.Pairwise fun a b => (probe a = .gt → probe b = .gt) ∧ (probe b = .lt → probe a = .lt)

theorem Ordered.gt_of_le (h : Ordered probe l) {i j : ℕ} {a b : α} (hij : i ≤ j)
    (ha : l[i]? = some a) (hb : l[j]? = some b) (hgt : probe a = .gt) : probe b = .gt := by
  rcases Nat.eq_or_lt_of_le hij with rfl | hlt
  · rwa [← some.inj (ha.symm.trans hb)]
  · obtain ⟨hi, rfl⟩ := List.getElem?_eq_some_iff.mp ha
    obtain ⟨hj, rfl⟩ := List.getElem?_eq_some_iff.mp hb
    exact (pairwise_iff_getElem.mp h i j hi hj hlt).1 hgt

theorem Ordered.lt_of_le (h : Ordered probe l) {i j : ℕ} {a b : α} (hij : i ≤ j)
    (ha : l[i]? = some a) (hb : l[j]? = some b) (hlt : probe b = .lt) : probe a = .lt := by
  rcases Nat.eq_or_lt_of_le hij with rfl | hless
  · rwa [some.inj (ha.symm.trans hb)]
  · obtain ⟨hi, rfl⟩ := List.getElem?_eq_some_iff.mp ha
    obtain ⟨hj, rfl⟩ := List.getElem?_eq_some_iff.mp hb
    exact (pairwise_iff_getElem.mp h i j hi hj hless).2 hlt

/-- What is known of the part in which the answer lies: the element at its start is not
too great unless the part starts the list, and behind the part all elements are. -/
structure Window (probe : α → Ordering) (l : List α) (base size : ℕ) : Prop where
  positive : 0 < size
  within : base + size ≤ l.length
  low : base = 0 ∨ ∃ a, l[base]? = some a ∧ probe a ≠ .gt
  high : ∀ j a, base + size ≤ j → l[j]? = some a → probe a = .gt

theorem searchLoop_window (hordered : Ordered probe l) (base size : ℕ)
    (h : Window probe l base size) : Window probe l (searchLoop probe l base size) 1 := by
  induction size using Nat.strong_induction_on generalizing base with
  | _ size ih =>
    have hpositive := h.positive
    have hwithin := h.within
    rw [searchLoop]
    split
    · obtain rfl : size = 1 := by omega
      exact h
    · have hmid : base + size / 2 < l.length := by omega
      have hget : l[base + size / 2]? = some l[base + size / 2] := List.getElem?_eq_getElem hmid
      refine ih (size - size / 2) (by omega) _ ?_
      rw [hget, map_some]
      split
      next hgt =>
        refine ⟨by omega, by omega, h.low, fun j a hj ha => ?_⟩
        exact hordered.gt_of_le (by omega) hget ha (some.inj hgt)
      next hle =>
        refine ⟨by omega, by omega, .inr ⟨_, hget, fun hgt => hle (congrArg some hgt)⟩,
          fun j a hj ha => ?_⟩
        exact h.high j a (by omega) ha

variable {p : α → Bool}

theorem length_takeWhile_eq {count : ℕ} (hcount : count ≤ l.length)
    (hfront : ∀ i a, i < count → l[i]? = some a → p a = true)
    (hback : ∀ a, l[count]? = some a → p a = false) : (l.takeWhile p).length = count := by
  have hall : ∀ a ∈ l.take count, p a = true := by
    intro a ha
    obtain ⟨i, hi⟩ := mem_iff_getElem?.mp ha
    rw [List.getElem?_take] at hi
    split at hi
    next hlt => exact hfront i a hlt hi
    · cases hi
  have hrest : (l.drop count).takeWhile p = [] := by
    cases hdrop : l.drop count with
    | nil => rfl
    | cons a rest =>
      have hget : l[count]? = some a := by
        rw [← List.head?_drop, hdrop]
        rfl
      rw [takeWhile_cons_of_neg (by simp [hback a hget])]
  calc
    (l.takeWhile p).length = ((l.take count ++ l.drop count).takeWhile p).length := by
      rw [take_append_drop]
    _ = count := by
      rw [takeWhile_append_of_pos hall, hrest, append_nil, length_take, Nat.min_eq_left hcount]

theorem takeWhile_congr {q : α → Bool} (h : ∀ a ∈ l, p a = q a) :
    l.takeWhile p = l.takeWhile q := by
  induction l with
  | nil => rfl
  | cons a rest ih =>
    rw [takeWhile_cons, takeWhile_cons, h a (mem_cons_self ..),
      ih fun b hb => h b (mem_cons_of_mem _ hb)]

/-- A match is an element that the probe finds equal. -/
theorem eq_of_binarySearchBy_ok {index : ℕ} (h : binarySearchBy probe l = .ok index) :
    ∃ a, l[index]? = some a ∧ probe a = .eq := by
  rw [binarySearchBy] at h
  split at h
  · cases h
  next hprobe =>
    obtain rfl := Except.ok.inj h
    obtain ⟨a, ha, heq⟩ := map_eq_some_iff.mp hprobe
    exact ⟨a, ha, heq⟩
  · cases h
  · cases h

/-- Without a match, all elements before the index are less and no element is equal. -/
theorem of_binarySearchBy_error (hordered : Ordered probe l) {index : ℕ}
    (h : binarySearchBy probe l = .error index) :
    index = (l.takeWhile fun a => probe a == .lt).length ∧ ∀ a ∈ l, probe a ≠ .eq := by
  rcases Nat.eq_zero_or_pos l.length with hempty | hpositive
  · obtain rfl := length_eq_zero_iff.mp hempty
    obtain rfl : 0 = index := Except.error.inj h
    exact ⟨rfl, fun a ha => absurd ha not_mem_nil⟩
  have hwindow := searchLoop_window hordered 0 l.length
    ⟨hpositive, by omega, .inl rfl,
    fun j a hj ha => absurd ha (by simp [List.getElem?_eq_none (show l.length ≤ j by omega)])⟩
  have hwithin := hwindow.within
  rw [binarySearchBy] at h
  generalize searchLoop probe l 0 l.length = base at h hwindow hwithin
  have hget : l[base]? = some l[base] := List.getElem?_eq_getElem (by omega)
  rw [hget, map_some] at h
  cases hprobe : probe l[base] with
  | eq =>
    rw [hprobe] at h
    cases h
  | lt =>
    rw [hprobe] at h
    obtain rfl := Except.error.inj h
    have hbefore : ∀ i a, i < base + 1 → l[i]? = some a → probe a = .lt :=
      fun i a hi ha => hordered.lt_of_le (by omega) ha hget hprobe
    refine ⟨(length_takeWhile_eq hwithin (fun i a hi ha => by simp [hbefore i a hi ha])
      fun a ha => by simp [hwindow.high _ a (le_refl _) ha]).symm, fun a ha heq => ?_⟩
    obtain ⟨i, hi⟩ := mem_iff_getElem?.mp ha
    by_cases hlt : i < base + 1
    · exact absurd ((hbefore i a hlt hi).symm.trans heq) (by decide)
    · exact absurd ((hwindow.high i a (by omega) hi).symm.trans heq) (by decide)
  | gt =>
    rw [hprobe] at h
    obtain rfl := Except.error.inj h
    have hzero : base = 0 := by
      rcases hwindow.low with hzero | ⟨a, ha, hne⟩
      · exact hzero
      · exact absurd hprobe (by rw [some.inj (hget.symm.trans ha)]; exact hne)
    subst hzero
    have hall : ∀ i a, l[i]? = some a → probe a = .gt :=
      fun i a ha => hordered.gt_of_le (Nat.zero_le i) hget ha hprobe
    refine ⟨(length_takeWhile_eq (Nat.zero_le _) (fun i a hi _ => absurd hi (by omega))
      fun a ha => by simp [hall 0 a ha]).symm, fun a ha heq => ?_⟩
    obtain ⟨i, hi⟩ := mem_iff_getElem?.mp ha
    exact absurd ((hall i a hi).symm.trans heq) (by decide)

/-- The partition point of a predicate that holds of a front part only. -/
theorem partitionPoint_eq (h : l.Pairwise fun a b => p b = true → p a = true) :
    partitionPoint p l = (l.takeWhile p).length := by
  have hordered : Ordered (fun a => if p a then .lt else .gt) l := by
    refine h.imp fun {a b} hab => ⟨fun hgt => ?_, fun hlt => ?_⟩
    · cases hb : p b with
      | false => simp [hb]
      | true => exact absurd hgt (by simp [hab hb])
    · cases hb : p b with
      | false => exact absurd hlt (by simp [hb])
      | true => simp [hab hb]
  have hne : ∀ a, (if p a then Ordering.lt else .gt) ≠ .eq := by
    intro a
    cases p a <;> decide
  have htest : (fun a => (if p a then Ordering.lt else .gt) == .lt) = p := by
    funext a
    cases p a <;> rfl
  rw [partitionPoint]
  cases hsearch : binarySearchBy (fun a => if p a then Ordering.lt else .gt) l with
  | ok index =>
    obtain ⟨a, -, heq⟩ := eq_of_binarySearchBy_ok hsearch
    exact absurd heq (hne a)
  | error index =>
    have hindex := (of_binarySearchBy_error hordered hsearch).1
    rwa [htest] at hindex

end BinarySearch
