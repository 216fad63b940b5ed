import Mathlib.Data.List.Basic
import Mathlib.Data.List.TakeWhile
import Mathlib.GroupTheory.Perm.List
import Mathlib.Order.Lattice
import Mathlib.Tactic.Common

/-!
A closed chain of ranges over a linear order: the owners ascend, each range ends at the
owner of the one after it, and the last one ends at the first owner, so that it wraps
around. The owners are covered by no range, and every other key by exactly one: the last
range whose owner is below the key, or the last of all when there is none.
-/

namespace ClosedChain

open List

variable {α K : Type*} [LinearOrder K] {owner next : α → K} {chain : List α}

/-- A key is inside a range, which wraps around unless its owner comes before its end. -/
def Covers (owner next : α → K) (range : α) (key : K) : Prop :=
  if owner range < next range then
    owner range < key ∧ key < next range
  else
    owner range < key ∨ key < next range

structure Closed (owner next : α → K) (chain : List α) : Prop where
  nonempty : chain ≠ []
  ascending : chain.Pairwise fun left right => owner left < owner right
  links : ∀ i range after, chain[i]? = some range → chain[(i + 1) % chain.length]? = some after →
    next range = owner after

/-- The range to look at for a key. -/
def candidate (owner : α → K) (chain : List α) (key : K) : Option α :=
  let insertion := (chain.takeWhile fun range => owner range < key).length
  if insertion = 0 then chain.getLast? else chain[insertion - 1]?

/-- The candidate by any test for the owners below the key. -/
theorem candidate_of_test {key : K} {p : α → Bool}
    (hp : ∀ range, p range = true ↔ owner range < key) :
    (if (chain.takeWhile p).length =
      0 then chain.getLast? else chain[(chain.takeWhile p).length - 1]?) =
      candidate owner chain key := by
  have htest : p = fun range => decide (owner range < key) := by
    funext range
    rw [Bool.eq_iff_iff, hp, decide_eq_true_iff]
  rw [htest, candidate]

theorem mem_of_candidate {key : K} {range : α} (h : candidate owner chain key = some range) :
    range ∈ chain := by
  rw [candidate] at h
  split at h
  · exact mem_of_getLast? h
  · exact mem_of_getElem? h

section Closed

variable {i : ℕ} {right : α} {left : α} {j : ℕ}

theorem Closed.owner_lt (h : Closed owner next chain) (hij : i < j) (hleft : chain[i]? = some left)
    (hright : chain[j]? = some right) : owner left < owner right := by
  obtain ⟨hi, rfl⟩ := List.getElem?_eq_some_iff.mp hleft
  obtain ⟨hj, rfl⟩ := List.getElem?_eq_some_iff.mp hright
  exact pairwise_iff_getElem.mp h.ascending i j hi hj hij

theorem Closed.owner_le (h : Closed owner next chain) (hij : i ≤ j) (hleft : chain[i]? = some left)
    (hright : chain[j]? = some right) : owner left ≤ owner right := by
  rcases Nat.eq_or_lt_of_le hij with rfl | hlt
  · rw [Option.some.inj (hleft.symm.trans hright)]
  · exact le_of_lt (h.owner_lt hlt hleft hright)

/-- A range before the last one ends at the next owner. -/
theorem Closed.covers_inner (h : Closed owner next chain) {range after : α}
    (hrange : chain[i]? = some range) (hafter : chain[i + 1]? = some after)
    (key : K) : Covers owner next range key ↔ owner range < key ∧ key < owner after := by
  have hbound : i + 1 < chain.length := (List.getElem?_eq_some_iff.mp hafter).1
  have hnext : next range = owner after :=
    h.links i range after hrange (by rwa [Nat.mod_eq_of_lt hbound])
  rw [Covers, hnext, if_pos (h.owner_lt (Nat.lt_succ_self i) hrange hafter)]

/-- The last range wraps around to the first owner. -/
theorem Closed.covers_last (h : Closed owner next chain) {range first : α}
    (hlast : i + 1 = chain.length) (hrange : chain[i]? = some range)
    (hfirst : chain[0]? = some first) (key : K) :
    Covers owner next range key ↔ owner range < key ∨ key < owner first := by
  have hnext : next range = owner first :=
    h.links i range first hrange (by rwa [hlast, Nat.mod_self])
  rw [Covers, hnext, if_neg (not_lt.mpr (h.owner_le (Nat.zero_le i) hfirst hrange))]

variable {key : K}

/-- Whether a range before the last one or the last one: what it covers. -/
theorem Closed.cases_of_covers (h : Closed owner next chain) {range : α}
    (hrange : chain[i]? = some range) (hcovers : Covers owner next range key) :
    (∃ after, chain[i + 1]? = some after ∧ owner range < key ∧ key < owner after) ∨
      (i + 1 = chain.length ∧ (owner range < key ∨ ∃ first, chain[0]? = some first ∧
        key < owner first)) := by
  have hbound : i < chain.length := (List.getElem?_eq_some_iff.mp hrange).1
  by_cases hlast : i + 1 = chain.length
  · have hfirst : chain[0]? = some chain[0] := List.getElem?_eq_getElem (by omega)
    refine .inr ⟨hlast, ((h.covers_last hlast hrange hfirst key).mp hcovers).imp_right fun hkey =>
      ⟨_, hfirst, hkey⟩⟩
  · have hafter : chain[i + 1]? = some chain[i + 1] := List.getElem?_eq_getElem (by omega)
    exact .inl ⟨_, hafter, (h.covers_inner hrange hafter key).mp hcovers⟩

theorem Closed.not_covers_owner (h : Closed owner next chain) {range holder : α}
    (hrange : range ∈ chain) (hholder : holder ∈ chain) :
    ¬ Covers owner next range (owner holder) := by
  obtain ⟨i, hi⟩ := mem_iff_getElem?.mp hrange
  obtain ⟨k, hk⟩ := mem_iff_getElem?.mp hholder
  have hkbound : k < chain.length := (List.getElem?_eq_some_iff.mp hk).1
  intro hcovers
  rcases h.cases_of_covers hi hcovers with ⟨after, hafter, hbelow, habove⟩ | ⟨hlast,
    hbelow | ⟨first, hfirst, habove⟩⟩
  · have hik : i < k := by
      by_contra hle
      exact absurd hbelow (not_lt.mpr (h.owner_le (by omega) hk hi))
    exact absurd habove (not_lt.mpr (h.owner_le hik hafter hk))
  · exact absurd hbelow (not_lt.mpr (h.owner_le (by omega) hk hi))
  · exact absurd habove (not_lt.mpr (h.owner_le (Nat.zero_le k) hfirst hk))

theorem Closed.index_le_of_covers (h : Closed owner next chain) (hleft : chain[i]? = some left)
    (hright : chain[j]? = some right) (hcoversLeft : Covers owner next left key)
    (hcoversRight : Covers owner next right key) : j ≤ i := by
  have hjbound : j < chain.length := (List.getElem?_eq_some_iff.mp hright).1
  by_contra hlt
  rcases h.cases_of_covers hleft hcoversLeft with ⟨after, hafter, hbelow, habove⟩ | ⟨hlast, -⟩
  · have hright' := h.owner_le (show i + 1 ≤ j by omega) hafter hright
    rcases h.cases_of_covers hright hcoversRight with ⟨-, -, hless, -⟩ | ⟨-,
      hless | ⟨first, hfirst, hless⟩⟩
    · exact absurd (lt_trans hless habove) (not_lt.mpr hright')
    · exact absurd (lt_trans hless habove) (not_lt.mpr hright')
    · exact absurd (lt_trans hbelow hless) (not_lt.mpr (h.owner_le (Nat.zero_le i) hfirst hleft))
  · omega

/-- No two ranges cover one key. -/
theorem Closed.eq_of_covers (h : Closed owner next chain) (hleft : left ∈ chain)
    (hright : right ∈ chain) (hcoversLeft : Covers owner next left key)
    (hcoversRight : Covers owner next right key) : left = right := by
  obtain ⟨i, hi⟩ := mem_iff_getElem?.mp hleft
  obtain ⟨j, hj⟩ := mem_iff_getElem?.mp hright
  obtain rfl : i = j := le_antisymm (h.index_le_of_covers hj hi hcoversRight hcoversLeft)
    (h.index_le_of_covers hi hj hcoversLeft hcoversRight)
  exact Option.some.inj (hi.symm.trans hj)

theorem Closed.candidate_covers (h : Closed owner next chain)
    (hkey : ∀ range ∈ chain, owner range ≠ key) :
    ∃ range ∈ chain, candidate owner chain key = some range ∧ Covers owner next range key := by
  have hlen : 0 < chain.length := length_pos_iff.mpr h.nonempty
  have hfirst : chain[0]? = some chain[0] := List.getElem?_eq_getElem hlen
  have hlast : chain[chain.length - 1]? = some chain[chain.length - 1] :=
    List.getElem?_eq_getElem (by omega)
  rw [candidate]
  generalize hcount : (chain.takeWhile fun range => decide (owner range < key)).length = count
  have hsplit :=
    takeWhile_append_dropWhile (p := fun range => decide (owner range < key)) (l := chain)
  have hbefore : ∀ i range, i < count → chain[i]? = some range → owner range < key := by
    intro i range hi hrange
    rw [← hsplit, List.getElem?_append_left (by omega)] at hrange
    have hholds := mem_takeWhile_imp (mem_of_getElem? hrange)
    exact of_decide_eq_true hholds
  have hafter : ∀ range, chain[count]? = some range → key < owner range := by
    intro range hrange
    have hhead := hrange
    rw [← hsplit, List.getElem?_append_right (by omega), hcount, Nat.sub_self,
      ← List.head?_eq_getElem?] at hhead
    have hnot := List.head?_dropWhile_not (fun range => decide (owner range < key)) chain
    rw [hhead] at hnot
    exact lt_of_le_of_ne (not_lt.mp (by simpa using hnot))
      (hkey range (mem_of_getElem? hrange)).symm
  have hcountLe : count ≤ chain.length := hcount ▸ (takeWhile_sublist _).length_le
  by_cases hzero : count = 0
  · subst hzero
    refine ⟨chain[chain.length - 1], getElem_mem _, ?_, ?_⟩
    · rw [if_pos rfl, List.getLast?_eq_getElem?]
      exact hlast
    · exact (h.covers_last (by omega) hlast hfirst key).mpr (.inr (hafter _ hfirst))
  · have hget : chain[count - 1]? = some chain[count - 1] := List.getElem?_eq_getElem (by omega)
    have hbelow := hbefore (count - 1) _ (by omega) hget
    refine ⟨chain[count - 1], getElem_mem _, ?_, ?_⟩
    · rw [if_neg hzero]
      exact hget
    · by_cases hend : count = chain.length
      · exact (h.covers_last (by omega) hget hfirst key).mpr (.inl hbelow)
      · have hnext : chain[count - 1 + 1]? = some chain[count] := by
          rw [Nat.sub_add_cancel (by omega)]
          exact List.getElem?_eq_getElem (by omega)
        refine (h.covers_inner hget hnext key).mpr ⟨hbelow, hafter _ ?_⟩
        exact List.getElem?_eq_getElem (by omega)

end Closed

end ClosedChain
