import BoronDns.Lib.Clones
import BoronDns.Lib.Treap
import BoronDns.Records
import Mathlib.Data.Finset.Dedup

/-!
The order index of the denial chains over whole histories. Clones of an index share
their nodes, and an operation on one of them builds new nodes; each clone holds what
its own line of inserts and removes says, and nothing of what was done to the others.
-/

namespace BoronDns

open List

/-- An index from order keys to the RRsets they stand for. -/
abbrev PersistentOrderIndex (K : Type) [LinearOrder K] (priority : K → ℕ) :
    Type := OrderIndex K RrsetKey priority

namespace PersistentOrderIndex

variable {K : Type} [LinearOrder K] {priority : K → ℕ}

inductive Operation (K : Type)
  | insert (key : K) (value : RrsetKey)
  | remove (key : K)

def apply (index : PersistentOrderIndex K priority) : Operation K → PersistentOrderIndex K priority
  | .insert key value => index.insert key value
  | .remove key => index.remove key

/-- What is stored under a key after the operations. -/
def contents (history : List (Operation K)) (key : K) : Option RrsetKey :=
  history.foldl (fun found operation =>
    match operation with
    | .insert other value => if key = other then some value else found
    | .remove other => if key = other then none else found) none

section Describes

variable (index : PersistentOrderIndex K priority)

/-- The entry with the greatest key among those that `bound` admits. -/
def Greatest (stored : K → Option RrsetKey) (bound : K → Prop) : Option (K × RrsetKey) → Prop
  | none => ∀ key, bound key → stored key = none
  | some entry => bound entry.1 ∧ stored entry.1 = some entry.2 ∧
      ∀ key, bound key → (stored key).isSome → key ≤ entry.1

/-- The index is a search tree on keys and a heap on priorities, and holds what is stored. -/
structure Describes (index : PersistentOrderIndex K priority) (stored : K → Option RrsetKey) :
    Prop where
  ordered : index.root.Ordered
  heaped : index.root.Heaped priority
  get : ∀ key, index.get key = stored key
  len : ∃ keys : Finset K, (∀ key, key ∈ keys ↔ (stored key).isSome) ∧ index.len = keys.card
  predecessor : ∀ key, Greatest stored (· ≤ key) (index.predecessor key)
  lastBefore : ∀ key, Greatest stored (· < key) (index.lastBefore key)

variable {stored : K → Option RrsetKey}

theorem mem_toList_iff (hget : ∀ key, index.get key = stored key) (entry : K × RrsetKey) :
    entry ∈ index.toList ↔ stored entry.1 = some entry.2 := by
  rw [← hget, index.get_eq_some_iff]

/-- The last of the entries that are admitted has the greatest key. -/
theorem greatest_getLast (hget : ∀ key, index.get key = stored key) (bound : K → Prop)
    [DecidablePred bound] :
    Greatest stored bound (index.toList.filter fun entry => bound entry.1).getLast? := by
  cases hlast : (index.toList.filter fun entry => decide (bound entry.1)).getLast? with
  | none =>
    intro key hkey
    cases hvalue : stored key with
    | none => rfl
    | some value =>
      have hmem : (key, value) ∈ index.toList.filter fun entry => decide (bound entry.1) :=
        mem_filter.mpr ⟨(mem_toList_iff index hget (key, value)).mpr hvalue, decide_eq_true hkey⟩
      rw [List.getLast?_eq_none_iff.mp hlast] at hmem
      exact absurd hmem not_mem_nil
  | some entry =>
    obtain ⟨front, hfront⟩ := List.getLast?_eq_some_iff.mp hlast
    have hentry : entry ∈ index.toList.filter fun entry => decide (bound entry.1) := by
      rw [hfront]
      exact mem_append_right _ (mem_singleton_self _)
    obtain ⟨hmem, hbound⟩ := mem_filter.mp hentry
    refine ⟨of_decide_eq_true hbound, (mem_toList_iff index hget entry).mp hmem,
      fun key hkey hsome => ?_⟩
    obtain ⟨value, hvalue⟩ := Option.isSome_iff_exists.mp hsome
    have hother : (key, value) ∈ front ++ [entry] := by
      rw [← hfront]
      exact mem_filter.mpr ⟨(mem_toList_iff index hget (key, value)).mpr hvalue,
        decide_eq_true hkey⟩
    rcases mem_append.mp hother with hother | hother
    · have hordered : (front ++ [entry]).Pairwise fun left right => left.1 < right.1 := by
        rw [← hfront]
        exact index.ordered.filter _
      exact ((pairwise_append.mp hordered).2.2 _ hother _ (mem_singleton_self _)).le
    · exact (congrArg Prod.fst (mem_singleton.mp hother)).le

theorem describes_of_get (hget : ∀ key, index.get key = stored key) : Describes index stored := by
  refine ⟨index.ordered, index.heaped, hget, ⟨(index.toList.map Prod.fst).toFinset, fun key => ?_,
    ?_⟩, fun key => ?_, fun key => ?_⟩
  · rw [mem_toFinset, mem_map, Option.isSome_iff_exists]
    constructor
    · rintro ⟨entry, hentry, rfl⟩
      exact ⟨entry.2, (mem_toList_iff index hget entry).mp hentry⟩
    · rintro ⟨value, hvalue⟩
      exact ⟨(key, value), (mem_toList_iff index hget (key, value)).mpr hvalue, rfl⟩
  · have hnodup : (index.toList.map Prod.fst).Nodup :=
      List.Pairwise.map _ (fun _ _ hlt => hlt.ne) index.ordered
    rw [toFinset_card_of_nodup hnodup, length_map]
    exact index.len_eq
  · rw [index.predecessor_eq]
    exact greatest_getLast index hget (· ≤ key)
  · rw [index.lastBefore_eq]
    exact greatest_getLast index hget (· < key)

/-- One operation changes what is stored as its history says. -/
theorem get_apply {history : List (Operation K)} (h : ∀ key, index.get key = contents history key)
    (operation : Operation K) (key : K) :
    (apply index operation).get key = contents (history ++ [operation]) key := by
  rw [contents, foldl_append, foldl_cons, foldl_nil]
  cases operation with
  | insert other value =>
    show (index.insert other value).get key = if key = other then some value
    else contents history key
    rw [index.get_insert, h]
  | remove other =>
    show (index.remove other).get key = if key = other then none else contents history key
    rw [index.get_remove, h]

end Describes

/-- No two of the keys that are present have one priority. -/
def DistinctPriorities (index : PersistentOrderIndex K priority) : Prop :=
  ∀ first second, (index.get first).isSome → (index.get second).isSome →
    priority first = priority second → first = second

theorem keys_congr {left right : PersistentOrderIndex K priority}
    (h : ∀ key, (left.get key).isSome = (right.get key).isSome) :
    left.toList.map Prod.fst = right.toList.map Prod.fst := by
  have hkeys : ∀ index : PersistentOrderIndex K priority, ∀ key, key ∈ index.toList.map Prod.fst ↔
      (index.get key).isSome := by
    intro index key
    rw [mem_map, Option.isSome_iff_exists]
    constructor
    · rintro ⟨entry, hentry, rfl⟩
      exact ⟨entry.2, index.get_eq_some_iff.mpr hentry⟩
    · rintro ⟨value, hvalue⟩
      exact ⟨(key, value), index.get_eq_some_iff.mp hvalue, rfl⟩
  have hsorted : ∀ index : PersistentOrderIndex K priority,
      (index.toList.map Prod.fst).Pairwise (· < ·) :=
    fun index => List.Pairwise.map _ (fun _ _ hlt => hlt) index.ordered
  refine List.Perm.eq_of_pairwise (fun _ _ _ _ hlt hgt => absurd hgt hlt.not_gt) (hsorted left)
    (hsorted right) ?_
  refine (perm_ext_iff_of_nodup ((hsorted left).imp fun hlt => hlt.ne)
    ((hsorted right).imp fun hlt => hlt.ne)).mpr fun key => ?_
  rw [hkeys, hkeys, h]

/-- The keys alone give the shape of the tree. -/
theorem shape_eq {left right : PersistentOrderIndex K priority}
    (hdist : DistinctPriorities left)
    (h : ∀ key, (left.get key).isSome = (right.get key).isSome) :
    left.root.shape = right.root.shape := by
  have hlists : left.root.shape.toList = right.root.shape.toList := by
    rw [Treap.toList_shape, Treap.toList_shape]
    have hkeys := congrArg (List.map fun key => (key, ())) (keys_congr h)
    rwa [map_map, map_map] at hkeys
  have hpresent : ∀ entry ∈ left.root.shape.toList, (left.get entry.1).isSome := by
    intro entry hentry
    rw [Treap.toList_shape] at hentry
    obtain ⟨found, hfound, rfl⟩ := mem_map.mp hentry
    exact Option.isSome_iff_exists.mpr ⟨found.2, left.get_eq_some_iff.mpr hfound⟩
  refine Treap.eq_of_toList (Treap.ordered_shape left.ordered) (Treap.heaped_shape left.heaped)
    (Treap.heaped_shape right.heaped) (fun first hfirst second hsecond => ?_) hlists
  exact hdist _ _ (hpresent first hfirst) (hpresent second hsecond)

section Clones

/-- What is done to the clones of an index: one of them is cloned, or changed in place. -/
inductive CloneStep (K : Type)
  | clone (source : ℕ)
  | change (target : ℕ) (operation : Operation K)

def cloneStep (indexes : List (PersistentOrderIndex K priority)) :
    CloneStep K → List (PersistentOrderIndex K priority)
  | .clone source => indexes ++ indexes[source]?.toList
  | .change target operation => indexes.modify target fun index => apply index operation

/-- The operations that each clone has gone through, those before it was cloned included. -/
def historyStep (histories : List (List (Operation K))) : CloneStep K → List (List (Operation K))
  | .clone source => histories ++ histories[source]?.toList
  | .change target operation => histories.modify target fun history => history ++ [operation]

def clones (priority : K → ℕ) (steps : List (CloneStep K)) :
    List (PersistentOrderIndex K priority) :=
  steps.foldl cloneStep [OrderIndex.empty]

variable (steps : List (CloneStep K))

def histories : List (List (Operation K)) := steps.foldl historyStep [[]]

def HoldsHistory (index : PersistentOrderIndex K priority) (history : List (Operation K)) : Prop :=
  ∀ key, index.get key = contents history key

theorem clones_holdHistory :
    List.Forall₂ HoldsHistory (clones priority steps) (histories steps) := by
  induction steps using List.reverseRecOn with
  | nil => exact .cons (fun _ => rfl) .nil
  | append_singleton steps last ih =>
    rw [clones, histories, foldl_append, foldl_append]
    cases last with
    | clone source => exact rel_append ih (Clones.forall₂_getElem? ih source)
    | change target operation =>
      exact Clones.forall₂_modify ih (fun _ _ hholds => get_apply _ hholds operation) target

/-- Each clone is a search tree and a heap that holds what its own history stores, and clones with
the same keys, of distinct priorities, have the same shape. -/
theorem clones_describe_histories (priority : K → ℕ) (steps : List (CloneStep K)) :
    List.Forall₂ (fun index history => Describes index (contents history)) (clones priority steps)
      (histories steps) ∧
      ∀ others : List (CloneStep K), ∀ left ∈ clones priority steps,
        ∀ right ∈ clones priority others,
        DistinctPriorities left → (∀ key, (left.get key).isSome = (right.get key).isSome) →
          left.root.shape = right.root.shape := by
  refine ⟨(clones_holdHistory steps).imp fun index history hholds => describes_of_get index hholds,
    ?_⟩
  intro others left _ right _ hdistinct hkeys
  exact shape_eq hdistinct hkeys

def rootNsecKey : RrsetKey := ⟨[46], 47, 1⟩

/-- Two keys inserted in both orders. -/
theorem clones_describe_histories_sample :
    ((OrderIndex.empty.insert 1 rootNsecKey).insert 2 rootNsecKey : PersistentOrderIndex ℕ
      id).root.shape =
      ((OrderIndex.empty.insert 2 rootNsecKey).insert 1 rootNsecKey : PersistentOrderIndex ℕ
        id).root.shape := by
  have hkeys : ∀ key : ℕ,
      (((OrderIndex.empty.insert 1 rootNsecKey).insert 2 rootNsecKey : PersistentOrderIndex ℕ
      id).get key).isSome =
        (((OrderIndex.empty.insert 2 rootNsecKey).insert 1 rootNsecKey : PersistentOrderIndex ℕ
        id).get key).isSome := by
    intro key
    simp only [OrderIndex.get_insert, OrderIndex.get_empty]
    split_ifs <;> rfl
  exact (clones_describe_histories id [.change 0 (.insert 1 rootNsecKey),
    .change 0 (.insert 2 rootNsecKey)]).2
    [.change 0 (.insert 2 rootNsecKey), .change 0 (.insert 1 rootNsecKey)] _
    (mem_singleton_self _) _ (mem_singleton_self _) (fun _ _ _ _ heq => heq) hkeys

end Clones

end PersistentOrderIndex

end BoronDns
