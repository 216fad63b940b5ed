import Mathlib.Data.List.Sort
import Mathlib.Order.Nat

/-!
Insertion sort by a key is stable: the elements of one key keep their order. Two
lists sorted by a key are equal when they have the same elements of each key in
the same order, so the result of the sort depends on nothing else.
-/

namespace StableSort

open List

variable {α K : Type*} [LinearOrder K] (key : α → K) (l : List α)

def sortByKey : List α :=
  l.insertionSort fun left right => key left ≤ key right

theorem sortByKey_perm : (sortByKey key l).Perm l :=
  perm_insertionSort _ l

theorem sortByKey_sorted : (sortByKey key l).Pairwise fun left right => key left ≤ key right := by
  have htotal : Std.Total fun left right : α => key left ≤ key right :=
    ⟨fun left right => le_total (key left) (key right)⟩
  have htrans : IsTrans α fun left right : α => key left ≤ key right :=
    ⟨fun _ _ _ => le_trans⟩
  exact pairwise_insertionSort _ l

theorem filter_sortByKey (k : K) :
    (sortByKey key l).filter (fun a => key a = k) = l.filter fun a => key a = k := by
  have hequal : (l.filter fun a => key a = k).Pairwise fun left right => key left ≤ key right := by
    refine pairwise_of_forall_mem_list fun left hleft right hright => ?_
    simp only [mem_filter, decide_eq_true_eq] at hleft hright
    rw [hleft.2, hright.2]
  have hsublist : (l.filter fun a => key a = k).Sublist (sortByKey key l) :=
    sublist_insertionSort hequal filter_sublist
  have hfiltered := hsublist.filter fun a => decide (key a = k)
  rw [filter_filter] at hfiltered
  simp only [Bool.and_self] at hfiltered
  exact (hfiltered.eq_of_length (((sortByKey_perm key l).filter _).length_eq).symm).symm

/-- A sorted list is known from its elements of each key. -/
theorem eq_of_filter_eq {left right : List α}
    (hleft : left.Pairwise fun a b => key a ≤ key b)
    (hright : right.Pairwise fun a b => key a ≤ key b)
    (h : ∀ k, (left.filter fun a => key a = k) = right.filter fun a => key a = k) :
    left = right := by
  have hmem : ∀ {l l' : List α},
      (∀ k, (l.filter fun a => key a = k) = l'.filter fun a => key a = k) → ∀ a ∈ l, a ∈ l' := by
    intro l l' heq a ha
    have : a ∈ l.filter fun b => key b = key a := by simp [ha]
    rw [heq] at this
    exact (mem_filter.mp this).1
  induction left generalizing right with
  | nil =>
    cases right with
    | nil => rfl
    | cons b rest => exact absurd (hmem (fun k => (h k).symm) b (mem_cons_self ..)) not_mem_nil
  | cons a rest ih =>
    cases right with
    | nil => exact absurd (hmem h a (mem_cons_self ..)) not_mem_nil
    | cons b others =>
      obtain ⟨hfirst, hrest⟩ := pairwise_cons.mp hleft
      obtain ⟨hsecond, hothers⟩ := pairwise_cons.mp hright
      have hkey : key a = key b := by
        refine le_antisymm ?_ ?_
        · rcases mem_cons.mp (hmem (fun k => (h k).symm) b (mem_cons_self ..)) with heq | hb
          · rw [heq]
          · exact hfirst b hb
        · rcases mem_cons.mp (hmem h a (mem_cons_self ..)) with heq | ha
          · rw [heq]
          · exact hsecond a ha
      have hhead := h (key b)
      rw [filter_cons_of_pos (by simpa using hkey), filter_cons_of_pos (by simp)] at hhead
      obtain ⟨hab, -⟩ := List.cons.inj hhead
      subst hab
      rw [ih hrest hothers]
      intro k
      have hk := h k
      by_cases hak : key a = k
      · rw [filter_cons_of_pos (by simpa using hak), filter_cons_of_pos (by simpa using hak)] at hk
        exact (List.cons.inj hk).2
      · rwa [filter_cons_of_neg (by simpa using hak), filter_cons_of_neg (by simpa using hak)] at hk

/-- The lists have the same elements of each key in the same order; `p` is any
test for the key. -/
def SameByKey (left right : List α) : Prop :=
  ∀ (k : K) (p : α → Bool), (∀ a, p a = true ↔ key a = k) → left.filter p = right.filter p

theorem sortByKey_congr {key : α → K} {left right : List α} (h : SameByKey key left right) :
    sortByKey key left = sortByKey key right := by
  refine eq_of_filter_eq key (sortByKey_sorted key left) (sortByKey_sorted key right) fun k => ?_
  rw [filter_sortByKey, filter_sortByKey, h k _ fun a => decide_eq_true_iff]

/-- Blocks in any order flatten to the same elements of each key, when every
block has elements of one key only and no two blocks share it. -/
theorem sameByKey_flatMap {β κ : Type*} {key : α → κ} {block : β → List α} (name : β → κ)
    {left right : List β} (hperm : left.Perm right)
    (hname : ∀ b ∈ left, ∀ a ∈ block b, key a = name b)
    (hdist : left.Pairwise fun b c => name b ≠ name c) :
    SameByKey key (left.flatMap block) (right.flatMap block) := by
  classical
  intro k p hp
  have hpick : ∀ {l : List β}, (∀ b ∈ l, ∀ a ∈ block b, key a = name b) →
      (l.flatMap block).filter p = (l.filter fun b => name b = k).flatMap block := by
    intro l hl
    induction l with
    | nil => rfl
    | cons b rest ih =>
      have hhead := hl b (mem_cons_self ..)
      rw [flatMap_cons, filter_append, ih fun c hc => hl c (mem_cons_of_mem _ hc)]
      by_cases hb : name b = k
      · rw [filter_cons_of_pos (by simpa using hb), flatMap_cons]
        congr 1
        rw [filter_eq_self]
        intro a ha
        rw [hp, hhead a ha, hb]
      · have hnone : (block b).filter p = [] := by
          rw [filter_eq_nil_iff]
          intro a ha
          rw [hp, hhead a ha]
          exact hb
        rw [filter_cons_of_neg (by simpa using hb), hnone, nil_append]
  rw [hpick hname, hpick fun b hb => hname b (hperm.mem_iff.mpr hb)]
  have hpairs := hdist.filter fun b => decide (name b = k)
  have hfiltered := hperm.filter fun b => decide (name b = k)
  have hnames : ∀ b ∈ left.filter (fun b => decide (name b = k)), name b = k :=
    fun b hb => by simpa using (mem_filter.mp hb).2
  congr 1
  generalize left.filter (fun b => decide (name b = k)) = chosen at hpairs hfiltered hnames
  -- at most one block has the key, so the chosen blocks are the same list
  match chosen with
  | [] => exact (nil_perm.mp hfiltered).symm
  | [b] => exact singleton_perm.mp hfiltered
  | b :: c :: rest =>
    have hne := (pairwise_cons.mp hpairs).1 c (mem_cons_self ..)
    exact absurd ((hnames b (by simp)).trans (hnames c (by simp)).symm) hne

end StableSort
