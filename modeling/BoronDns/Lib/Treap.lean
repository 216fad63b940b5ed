import Mathlib.Data.Finset.Card
import Mathlib.Data.List.Pairwise
import Mathlib.Order.Lattice
import Mathlib.Order.Nat
import Mathlib.Tactic.Common

/-!
A search tree kept in shape by priorities. Every key has a fixed priority; a
node's key lies between those of its subtrees and its priority is the least of
its tree. Inserting splits the tree at the first node of larger priority, and
removing merges the two subtrees. Read from left to right the tree is an
ordered list without repeated keys, and the operations are the expected ones on
its entries, whatever the priorities are.
-/

inductive Treap (K V : Type*)
  | leaf
  | node (key : K) (value : V) (left right : Treap K V)

namespace Treap

open List

variable {K V : Type*} {tree left right : Treap K V} {key : K} {value : V} {entry : K × V}

def toList : Treap K V → List (K × V)
  | leaf => []
  | node key value left right => left.toList ++ (key, value) :: right.toList

theorem mem_node : entry ∈ (node key value left right).toList ↔
    entry ∈ left.toList ∨ entry = (key, value) ∨ entry ∈ right.toList := by
  simp [toList]

def size : Treap K V → ℕ
  | leaf => 0
  | node _ _ left right => left.size + right.size + 1

section Operations

variable [LinearOrder K] (priority : K → ℕ)

def get : Treap K V → K → Option V
  | leaf, _ => none
  | node key value left right, wanted =>
    if wanted < key then left.get wanted
    else if key < wanted then right.get wanted
    else some value

/-- The keys below `at` and the others. -/
def split : Treap K V → K → Treap K V × Treap K V
  | leaf, _ => (leaf, leaf)
  | node key value left right, bound =>
    if key < bound then
      let (middle, above) := right.split bound
      (node key value left middle, above)
    else
      let (below, middle) := left.split bound
      (below, node key value middle right)

def insert : Treap K V → K → V → Treap K V
  | leaf, key, value => node key value leaf leaf
  | node top topValue left right, key, value =>
    if key = top then
      node key value left right
    else if priority key < priority top then
      let (below, above) := (node top topValue left right).split key
      node key value below above
    else if key < top then
      node top topValue (left.insert key value) right
    else
      node top topValue left (right.insert key value)

def merge : Treap K V → Treap K V → Treap K V
  | leaf, right => right
  | left, leaf => left
  | node leftKey leftValue leftLeft leftRight, node rightKey rightValue rightLeft rightRight =>
    if priority leftKey < priority rightKey then
      node leftKey leftValue leftLeft
        (merge leftRight (node rightKey rightValue rightLeft rightRight))
    else
      node rightKey rightValue
        (merge (node leftKey leftValue leftLeft leftRight) rightLeft) rightRight
termination_by left right => left.size + right.size
decreasing_by all_goals simp only [size]; omega

def remove : Treap K V → K → Treap K V
  | leaf, _ => leaf
  | node top topValue left right, key =>
    if key < top then node top topValue (left.remove key) right
    else if top < key then node top topValue left (right.remove key)
    else merge priority left right

/-- The last entry whose key satisfies a condition that holds of all keys up to
some place, searched from the root with the best entry so far. -/
def lastSuch (holds : K → Bool) : Treap K V → Option (K × V) → Option (K × V)
  | leaf, found => found
  | node key value left right, found =>
    if holds key then right.lastSuch holds (some (key, value)) else left.lastSuch holds found

end Operations

section Order

variable [LinearOrder K]

/-- Keys grow from left to right. -/
def Ordered (tree : Treap K V) : Prop := tree.toList.Pairwise fun left right => left.1 < right.1

theorem ordered_node : (node key value left right).Ordered ↔ left.Ordered ∧ right.Ordered ∧
      (∀ entry ∈ left.toList, entry.1 < key) ∧ ∀ entry ∈ right.toList, key < entry.1 := by
  simp only [Ordered, toList, pairwise_append, pairwise_cons, mem_cons]
  constructor
  · rintro ⟨hleft, ⟨habove, hright⟩, hacross⟩
    exact ⟨hleft, hright, fun entry hentry => hacross entry hentry _ (Or.inl rfl), habove⟩
  · rintro ⟨hleft, hright, hbelow, habove⟩
    refine ⟨hleft, ⟨habove, hright⟩, ?_⟩
    rintro lower hlower upper (rfl | hupper)
    · exact hbelow lower hlower
    · exact (hbelow lower hlower).trans (habove upper hupper)

theorem get_eq_some_iff (h : tree.Ordered) :
    tree.get key = some value ↔ (key, value) ∈ tree.toList := by
  induction tree with
  | leaf => simp [get, toList]
  | node top topValue left right ihLeft ihRight =>
    obtain ⟨hleft, hright, hbelow, habove⟩ := ordered_node.mp h
    simp only [get, toList, mem_append, mem_cons, Prod.mk.injEq]
    rcases lt_trichotomy key top with hlt | heq | hgt
    · rw [if_pos hlt, ihLeft hleft]
      have hnot : (key, value) ∉ right.toList := fun hmem => (hlt.trans (habove _ hmem)).false
      simp [hlt.ne, hnot]
    · subst heq
      have hnotLeft : (key, value) ∉ left.toList := fun hmem => (hbelow _ hmem).false
      have hnotRight : (key, value) ∉ right.toList := fun hmem => (habove _ hmem).false
      simp [hnotLeft, hnotRight, eq_comm]
    · rw [if_neg hgt.not_gt, if_pos hgt, ihRight hright]
      have hnot : (key, value) ∉ left.toList := fun hmem => ((hbelow _ hmem).trans hgt).false
      simp [hgt.ne', hnot]

theorem mem_split (h : tree.Ordered) (bound : K) (entry : K × V) :
    (entry ∈ (tree.split bound).1.toList ↔ entry ∈ tree.toList ∧ entry.1 < bound) ∧
      (entry ∈ (tree.split bound).2.toList ↔ entry ∈ tree.toList ∧ bound ≤ entry.1) := by
  induction tree with
  | leaf => simp [split, toList]
  | node top topValue left right ihLeft ihRight =>
    obtain ⟨hleft, hright, hbelow, habove⟩ := ordered_node.mp h
    rw [split]
    split
    next htop =>
      have hless : entry ∈ left.toList → entry.1 < bound :=
        fun hentry => (hbelow entry hentry).trans htop
      simp only [mem_node, ihRight hright]
      grind
    next htop =>
      have hmore : entry ∈ right.toList → bound < entry.1 := fun hentry =>
        (not_lt.mp htop).trans_lt (habove entry hentry)
      simp only [mem_node, ihLeft hleft]
      grind

theorem toFinset_card (h : tree.Ordered) :
    (tree.toList.map Prod.fst).toFinset.card = tree.toList.length := by
  rw [toFinset_card_of_nodup, length_map]
  exact List.Pairwise.map _ (fun _ _ hlt => hlt.ne) h

theorem lastSuch_eq (h : tree.Ordered) {holds : K → Bool}
    (hclosed : ∀ lower upper, lower < upper → holds upper = true → holds lower = true)
    (found : Option (K × V)) :
    tree.lastSuch holds found =
      ((tree.toList.filter fun entry => holds entry.1).getLast?).or found := by
  induction tree generalizing found with
  | leaf => simp [lastSuch, toList]
  | node top topValue left right ihLeft ihRight =>
    obtain ⟨hleft, hright, hbelow, habove⟩ := ordered_node.mp h
    rw [lastSuch]
    split
    next htop =>
      rw [ihRight hright]
      simp only [toList, filter_append, filter_cons, htop, if_true, List.getLast?_append,
        List.getLast?_cons]
      cases (right.toList.filter fun entry => holds entry.1).getLast? <;> rfl
    next htop =>
      have hnone : right.toList.filter (fun entry => holds entry.1) = [] :=
        filter_eq_nil_iff.mpr fun entry hentry hholds =>
          htop (hclosed _ _ (habove entry hentry) hholds)
      rw [ihLeft hleft]
      simp [toList, hnone, htop]

end Order

section Heap

variable (priority : K → ℕ)

/-- No entry has a smaller priority than the root of its tree. -/
def Heaped : Treap K V → Prop
  | leaf => True
  | node key _ left right => (∀ entry ∈ left.toList, priority key ≤ priority entry.1) ∧
      (∀ entry ∈ right.toList, priority key ≤ priority entry.1) ∧ Heaped left ∧ Heaped right

variable {priority}

theorem priority_le_of_mem (h : (node key value left right).Heaped priority)
    (hentry : entry ∈ (node key value left right).toList) : priority key ≤ priority entry.1 := by
  obtain ⟨hleft, hright, -, -⟩ := h
  rcases mem_node.mp hentry with hentry | rfl | hentry
  · exact hleft entry hentry
  · exact le_rfl
  · exact hright entry hentry

theorem merge_toList (left right : Treap K V) :
    (merge priority left right).toList = left.toList ++ right.toList := by
  fun_induction merge priority left right with
  | case1 right => simp [toList]
  | case2 left _ => simp [toList]
  | case3 _ _ _ _ _ _ _ _ _ ih => simp [toList, ih]
  | case4 _ _ _ _ _ _ _ _ _ ih => simp [toList, ih]

theorem merge_heaped (hleft : left.Heaped priority)
    (hright : right.Heaped priority) : (merge priority left right).Heaped priority := by
  fun_induction merge priority left right with
  | case1 right => exact hright
  | case2 left _ => exact hleft
  | case3 leftKey leftValue leftLeft leftRight rightKey rightValue rightLeft rightRight hlt ih =>
    obtain ⟨hfirst, hsecond, hheapFirst, hheapSecond⟩ := hleft
    refine ⟨hfirst, fun entry hentry => ?_, hheapFirst, ih hheapSecond hright⟩
    rw [merge_toList, mem_append] at hentry
    rcases hentry with hentry | hentry
    · exact hsecond entry hentry
    · exact hlt.le.trans (priority_le_of_mem hright hentry)
  | case4 leftKey leftValue leftLeft leftRight rightKey rightValue rightLeft rightRight hnlt ih =>
    have hle := not_lt.mp hnlt
    have hwhole := hleft
    obtain ⟨hfirst, hsecond, hheapFirst, hheapSecond⟩ := hright
    refine ⟨fun entry hentry => ?_, hsecond, ih hleft hheapFirst, hheapSecond⟩
    rw [merge_toList, mem_append] at hentry
    rcases hentry with hentry | hentry
    · exact hle.trans (priority_le_of_mem hwhole hentry)
    · exact hfirst entry hentry

variable [LinearOrder K]

/-- Ordered by keys and heaped by priorities. -/
def Shaped (priority : K → ℕ) (tree : Treap K V) : Prop := tree.Ordered ∧ tree.Heaped priority

theorem shaped_node : (node key value left right).Shaped priority ↔ left.Shaped priority ∧
      right.Shaped priority ∧
      (∀ entry ∈ left.toList, entry.1 < key ∧ priority key ≤ priority entry.1) ∧
      ∀ entry ∈ right.toList, key < entry.1 ∧ priority key ≤ priority entry.1 := by
  simp only [Shaped, ordered_node, Heaped, forall_and]
  tauto

theorem split_shaped (h : tree.Shaped priority) (bound : K) :
    (tree.split bound).1.Shaped priority ∧ (tree.split bound).2.Shaped priority := by
  induction tree with
  | leaf => exact ⟨h, h⟩
  | node top topValue left right ihLeft ihRight =>
    obtain ⟨hleft, hright, hbelow, habove⟩ := shaped_node.mp h
    rw [split]
    split
    · obtain ⟨hmiddle, hupper⟩ := ihRight hright
      refine ⟨shaped_node.mpr ⟨hleft, hmiddle, hbelow, fun entry hentry => ?_⟩, hupper⟩
      exact habove entry ((mem_split hright.1 bound entry).1.mp hentry).1
    · obtain ⟨hlower, hmiddle⟩ := ihLeft hleft
      refine ⟨hlower, shaped_node.mpr ⟨hmiddle, hright, fun entry hentry => ?_, habove⟩⟩
      exact hbelow entry ((mem_split hleft.1 bound entry).2.mp hentry).1

/-- Inserting puts the entry in its place and drops an older one of its key. -/
theorem insert_spec (h : tree.Shaped priority) (key : K) (value : V) :
    (tree.insert priority key value).Shaped priority ∧ ∀ entry, entry ∈
      (tree.insert priority key value).toList ↔
        entry = (key, value) ∨ entry.1 ≠ key ∧ entry ∈ tree.toList := by
  induction tree with
  | leaf => simp [insert, Shaped, Ordered, Heaped, toList]
  | node top topValue left right ihLeft ihRight =>
    obtain ⟨hleft, hright, hbelow, habove⟩ := shaped_node.mp h
    rw [insert]
    split
    next heq =>
      subst heq
      refine ⟨shaped_node.mpr ⟨hleft, hright, hbelow, habove⟩, fun entry => ?_⟩
      have hlower : entry ∈ left.toList → entry.1 < key := fun hentry => (hbelow entry hentry).1
      have hupper : entry ∈ right.toList → key < entry.1 := fun hentry => (habove entry hentry).1
      simp only [mem_node]
      grind
    split
    · -- The key is nowhere in the tree: an entry of it would have its priority.
      rename_i hpriority
      have hfresh : ∀ entry ∈ (node top topValue left right).toList,
          entry.1 ≠ key ∧ priority key ≤ priority entry.1 := by
        intro entry hentry
        have hle := hpriority.trans_le (priority_le_of_mem h.2 hentry)
        exact ⟨fun heq => by simp [heq] at hle, hle.le⟩
      have hmem := mem_split h.1 key
      refine ⟨shaped_node.mpr ⟨(split_shaped h key).1, (split_shaped h key).2, ?_, ?_⟩, ?_⟩
      · intro entry hentry
        obtain ⟨hentry, hless⟩ := (hmem entry).1.mp hentry
        exact ⟨hless, (hfresh entry hentry).2⟩
      · intro entry hentry
        obtain ⟨hentry, hle⟩ := (hmem entry).2.mp hentry
        exact ⟨lt_of_le_of_ne hle (hfresh entry hentry).1.symm, (hfresh entry hentry).2⟩
      · intro entry
        have hkey := hfresh entry
        rw [mem_node, (hmem entry).1, (hmem entry).2]
        grind
    have hkey : priority top ≤ priority key := by omega
    split
    next hlt =>
      obtain ⟨hshaped, hmem⟩ := ihLeft hleft
      refine ⟨shaped_node.mpr ⟨hshaped, hright, fun entry hentry => ?_, habove⟩, fun entry => ?_⟩
      · rcases (hmem entry).mp hentry with rfl | ⟨-, hentry⟩
        · exact ⟨hlt, hkey⟩
        · exact hbelow entry hentry
      · have hupper : entry ∈ right.toList → top < entry.1 := fun hentry => (habove entry hentry).1
        simp only [mem_node, hmem]
        grind
    next hne _ hnlt =>
      have hgt : top < key := lt_of_le_of_ne (not_lt.mp hnlt) (Ne.symm hne)
      obtain ⟨hshaped, hmem⟩ := ihRight hright
      refine ⟨shaped_node.mpr ⟨hleft, hshaped, hbelow, fun entry hentry => ?_⟩, fun entry => ?_⟩
      · rcases (hmem entry).mp hentry with rfl | ⟨-, hentry⟩
        · exact ⟨hgt, hkey⟩
        · exact habove entry hentry
      · have hlower : entry ∈ left.toList → entry.1 < top := fun hentry => (hbelow entry hentry).1
        simp only [mem_node, hmem]
        grind

theorem remove_spec (h : tree.Shaped priority) (key : K) :
    (tree.remove priority key).Shaped priority ∧
      ∀ entry, entry ∈ (tree.remove priority key).toList ↔ entry.1 ≠ key ∧ entry ∈ tree.toList := by
  induction tree with
  | leaf => exact ⟨h, by simp [remove, toList]⟩
  | node top topValue left right ihLeft ihRight =>
    obtain ⟨hleft, hright, hbelow, habove⟩ := shaped_node.mp h
    rw [remove]
    split
    · obtain ⟨hshaped, hmem⟩ := ihLeft hleft
      refine ⟨shaped_node.mpr ⟨hshaped, hright, fun entry hentry => ?_, habove⟩, fun entry => ?_⟩
      · exact hbelow entry ((hmem entry).mp hentry).2
      · simp only [mem_node, hmem]
        grind
    split
    · obtain ⟨hshaped, hmem⟩ := ihRight hright
      refine ⟨shaped_node.mpr ⟨hleft, hshaped, hbelow, fun entry hentry => ?_⟩, fun entry => ?_⟩
      · exact habove entry ((hmem entry).mp hentry).2
      · simp only [mem_node, hmem]
        grind
    · refine ⟨⟨?_, merge_heaped hleft.2 hright.2⟩, fun entry => ?_⟩
      · rw [Ordered, merge_toList]
        exact h.1.sublist ((sublist_cons_self _ _).append_left _)
      · rw [merge_toList, mem_append, mem_node]
        grind

end Heap

section Shape

/-- The tree without its values. -/
def shape : Treap K V → Treap K Unit
  | leaf => leaf
  | node key _ left right => node key () left.shape right.shape

theorem toList_shape (tree : Treap K V) :
    tree.shape.toList = tree.toList.map fun entry => (entry.1, ()) := by
  induction tree with
  | leaf => rfl
  | node key value left right ihleft ihright => simp [shape, toList, ihleft, ihright]

variable {priority : K → ℕ}

theorem heaped_shape (h : tree.Heaped priority) : tree.shape.Heaped priority := by
  induction tree with
  | leaf => trivial
  | node key value left right ihleft ihright =>
    obtain ⟨hleft, hright, hheapedLeft, hheapedRight⟩ := h
    refine ⟨fun entry hentry => ?_, fun entry hentry => ?_, ihleft hheapedLeft,
      ihright hheapedRight⟩
    · rw [toList_shape] at hentry
      obtain ⟨found, hfound, rfl⟩ := mem_map.mp hentry
      exact hleft found hfound
    · rw [toList_shape] at hentry
      obtain ⟨found, hfound, rfl⟩ := mem_map.mp hentry
      exact hright found hfound

variable [LinearOrder K]

theorem ordered_shape (h : tree.Ordered) : tree.shape.Ordered := by
  unfold Ordered
  rw [toList_shape]
  exact List.Pairwise.map _ (fun _ _ hlt => hlt) h

/-- A list with an entry at its place is split there in one way when keys ascend. -/
theorem split_unique {front front' back back' : List (K × V)} {value' : V}
    (hordered : (front ++ (key, value) :: back).Pairwise fun left right => left.1 < right.1)
    (h : front ++ (key, value) :: back = front' ++ (key, value') :: back') :
    front = front' ∧ value = value' ∧ back = back' := by
  have hbelow : ∀ {front back value}, (front ++ (key, value) :: back).Pairwise
      (fun left right => left.1 < right.1) →
      (front ++ (key, value) :: back : List (K × V)).filter (·.1 < key) = front := by
    intro front back value hordered
    obtain ⟨-, hback, hfront⟩ := pairwise_append.mp hordered
    have hnone : back.filter (·.1 < key) = [] := filter_eq_nil_iff.mpr fun entry hentry => by
      simpa using ((pairwise_cons.mp hback).1 entry hentry).le
    have hall : front.filter (·.1 < key) = front := filter_eq_self.mpr fun entry hentry => by
      simpa using hfront entry hentry _ (mem_cons_self ..)
    rw [filter_append, filter_cons_of_neg (by simp), hnone, hall, append_nil]
  obtain rfl : front = front' :=
    (hbelow hordered).symm.trans ((congrArg _ h).trans (hbelow (h ▸ hordered)))
  simpa using append_cancel_left h

/-- Distinct priorities leave one tree for a list of entries: the root is the entry of least
priority, and the entries on its two sides are those of the subtrees. -/
theorem eq_of_toList (hleft : left.Ordered) (hheapedLeft : left.Heaped priority)
    (hheapedRight : right.Heaped priority)
    (hdist : ∀ first ∈ left.toList, ∀ second ∈ left.toList,
      priority first.1 = priority second.1 → first.1 = second.1)
    (h : left.toList = right.toList) : left = right := by
  induction left generalizing right with
  | leaf =>
    cases right with
    | leaf => rfl
    | node key value below above => exact absurd h (by simp [toList])
  | node key value below above ihbelow ihabove =>
    cases right with
    | leaf => exact absurd h (by simp [toList])
    | node key' value' below' above' =>
      have hmem : (key, value) ∈ (node key value below above).toList := by simp [toList]
      have hmem' : (key', value') ∈ (node key value below above).toList := by
        rw [h]
        simp [toList]
      have hle : priority key ≤ priority key' := priority_le_of_mem hheapedLeft hmem'
      have hle' : priority key' ≤ priority key := priority_le_of_mem hheapedRight (h ▸ hmem)
      obtain rfl : key = key' := hdist _ hmem _ hmem' (le_antisymm hle hle')
      obtain ⟨hbelow, rfl, habove⟩ := split_unique hleft h
      obtain ⟨-, -, hbelowHeaped, haboveHeaped⟩ := hheapedLeft
      obtain ⟨-, -, hbelowHeaped', haboveHeaped'⟩ := hheapedRight
      obtain ⟨hbelowOrdered, haboveOrdered, -⟩ := ordered_node.mp hleft
      rw [ihbelow hbelowOrdered hbelowHeaped hbelowHeaped' (fun first hfirst second hsecond =>
          hdist first (mem_append_left _ hfirst) second (mem_append_left _ hsecond)) hbelow,
        ihabove haboveOrdered haboveHeaped haboveHeaped' (fun first hfirst second hsecond =>
          hdist first (mem_append_right _ (mem_cons_of_mem _ hfirst)) second
            (mem_append_right _ (mem_cons_of_mem _ hsecond))) habove]

end Shape

end Treap

/-- A treap with its number of entries. -/
structure OrderIndex (K V : Type*) [LinearOrder K] (priority : K → ℕ) where
  root : Treap K V
  len : ℕ
  ordered : root.Ordered
  heaped : root.Heaped priority
  len_eq : len = root.toList.length

namespace OrderIndex

open List

variable {K V : Type*} [LinearOrder K] {priority : K → ℕ}

variable (index : OrderIndex K V priority)

def empty : OrderIndex K V priority :=
  ⟨.leaf, 0, List.Pairwise.nil, trivial, rfl⟩

def toList (index : OrderIndex K V priority) : List (K × V) := index.root.toList

def get (index : OrderIndex K V priority) (key : K) : Option V := index.root.get key

theorem get_eq_some_iff {key : K} {value : V} :
    index.get key = some value ↔ (key, value) ∈ index.toList :=
  Treap.get_eq_some_iff index.ordered

theorem keys_mem_iff (key : K) :
    key ∈ (index.toList.map Prod.fst).toFinset ↔ (index.get key).isSome := by
  simp [Option.isSome_iff_exists, get_eq_some_iff]

theorem shaped : index.root.Shaped priority :=
  ⟨index.ordered, index.heaped⟩

def insert (index : OrderIndex K V priority) (key : K) (value : V) : OrderIndex K V priority where
  root := index.root.insert priority key value
  len := if (index.get key).isSome then index.len else index.len + 1
  ordered := (Treap.insert_spec index.shaped key value).1.1
  heaped := (Treap.insert_spec index.shaped key value).1.2
  len_eq := by
    obtain ⟨hshaped, hmem⟩ := Treap.insert_spec index.shaped key value
    have hkeys : ((index.root.insert priority key value).toList.map Prod.fst).toFinset =
        Insert.insert key (index.toList.map Prod.fst).toFinset := by
      ext other
      simp only [mem_toFinset, mem_map, hmem, Finset.mem_insert]
      grind [toList]
    rw [← Treap.toFinset_card hshaped.1, hkeys, Finset.card_insert_eq_ite, index.len_eq,
      ← Treap.toFinset_card index.ordered]
    simp only [index.keys_mem_iff]
    rfl

def remove (index : OrderIndex K V priority) (key : K) : OrderIndex K V priority :=
  if h : (index.get key).isSome then
    { root := index.root.remove priority key
      len := index.len - 1
      ordered := (Treap.remove_spec index.shaped key).1.1
      heaped := (Treap.remove_spec index.shaped key).1.2
      len_eq := by
        obtain ⟨hshaped, hmem⟩ := Treap.remove_spec index.shaped key
        have hkeys : ((index.root.remove priority key).toList.map Prod.fst).toFinset =
            (index.toList.map Prod.fst).toFinset.erase key := by
          ext other
          simp only [mem_toFinset, mem_map, hmem, Finset.mem_erase]
          grind [toList]
        rw [← Treap.toFinset_card hshaped.1, hkeys,
          Finset.card_erase_of_mem ((index.keys_mem_iff key).mpr h),
          index.len_eq, ← Treap.toFinset_card index.ordered]
        rfl }
  else
    index

def predecessor (index : OrderIndex K V priority) (key : K) : Option (K × V) :=
  index.root.lastSuch (fun other => other ≤ key) none

def lastBefore (index : OrderIndex K V priority) (upper : K) : Option (K × V) :=
  index.root.lastSuch (fun other => other < upper) none

@[simp] theorem get_empty (key : K) : (empty : OrderIndex K V priority).get key = none := rfl

theorem get_insert (key : K) (value : V) (wanted : K) :
    (index.insert key value).get wanted = if wanted = key then some value
      else index.get wanted := by
  have hmem := (Treap.insert_spec index.shaped key value).2
  refine Option.ext fun other => ?_
  rw [get_eq_some_iff]
  refine (hmem (wanted, other)).trans ?_
  by_cases heq : wanted = key
  · simp [heq, eq_comm]
  · simp [heq, get_eq_some_iff, toList]

theorem get_remove (key wanted : K) :
    (index.remove key).get wanted = if wanted = key then none else index.get wanted := by
  unfold remove
  split
  · refine Option.ext fun other => ?_
    rw [get_eq_some_iff]
    refine ((Treap.remove_spec index.shaped key).2 (wanted, other)).trans ?_
    by_cases heq : wanted = key
    · simp [heq]
    · simp [heq, get_eq_some_iff, toList]
  next hnone =>
    by_cases heq : wanted = key
    · subst heq
      simpa using hnone
    · simp [heq]

/-- Indexes with the same entries list them alike. -/
theorem toList_congr {left right : OrderIndex K V priority}
    (h : ∀ key, left.get key = right.get key) : left.toList = right.toList := by
  refine List.Perm.eq_of_pairwise ?_ left.ordered right.ordered ?_
  · intro first second _ _ hlt hgt
    exact absurd hgt hlt.not_gt
  · refine (perm_ext_iff_of_nodup ?_ ?_).mpr fun entry => ?_
    · exact left.ordered.imp fun hlt heq => by simp [heq] at hlt
    · exact right.ordered.imp fun hlt heq => by simp [heq] at hlt
    · obtain ⟨key, value⟩ := entry
      rw [← left.get_eq_some_iff, h, right.get_eq_some_iff]

theorem len_congr {left right : OrderIndex K V priority} (h : ∀ key, left.get key = right.get key) :
    left.len = right.len := by
  rw [left.len_eq, right.len_eq]
  exact congrArg List.length (toList_congr h)

theorem predecessor_eq (key : K) :
    index.predecessor key = (index.toList.filter fun entry => entry.1 ≤ key).getLast? := by
  rw [predecessor, Treap.lastSuch_eq index.ordered]
  · simp [toList]
  · intro lower upper hlt hle
    simpa using hlt.le.trans (by simpa using hle)

theorem lastBefore_eq (upper : K) :
    index.lastBefore upper = (index.toList.filter fun entry => entry.1 < upper).getLast? := by
  rw [lastBefore, Treap.lastSuch_eq index.ordered]
  · simp [toList]
  · intro lower higher hlt hle
    simpa using hlt.trans (by simpa using hle)

end OrderIndex
