import Mathlib.Data.List.AList
import Mathlib.Data.List.Induction
import Mathlib.Data.List.Nodup
import Mathlib.Tactic.Common

/-!
A trie kept in an arena. Nodes are numbered in the order they are made, the
root is node zero, and a node knows its parent, its children by label and the
items attached to it. `Shape` names the path of every node; walking a path from
the root reaches exactly the node of that path, and attaching an item makes the
nodes of all prefixes of its path.
-/

namespace ArenaTrie

open List Option ArenaTrie

variable {i j : ℕ}

variable {L A : Type*} [DecidableEq L]

structure Node (L A : Type*) [DecidableEq L] where
  parent : ℕ
  depth : ℕ
  children : AList (fun _ : L => ℕ)
  items : List A

def start : List (Node L A) := [⟨0, 0, ∅, []⟩]

def child (nodes : List (Node L A)) (i : ℕ) (label : L) : Option ℕ :=
  nodes[i]?.bind fun node => node.children.lookup label

/-- The child under a label, made if there is none. -/
def enter (nodes : List (Node L A)) (i : ℕ) (label : L) : List (Node L A) × ℕ :=
  match child nodes i label with
  | some j => (nodes, j)
  | none =>
    (nodes.modify i
      (fun node => { node with children := node.children.insert label nodes.length }) ++
      [⟨i, (nodes[i]?.elim 0 Node.depth) + 1, ∅, []⟩], nodes.length)

def descend (nodes : List (Node L A)) (i : ℕ) (path : List L) : List (Node L A) × ℕ :=
  path.foldl (fun state label => enter state.1 state.2 label) (nodes, i)

def attach (nodes : List (Node L A)) (path : List L) (item : A) : List (Node L A) :=
  let (nodes, i) := descend nodes 0 path
  nodes.modify i fun node => { node with items := node.items ++ [item] }

def items (nodes : List (Node L A)) (i : ℕ) : List A := nodes[i]?.elim [] Node.items

/-- The node reached from node `i` along a path. -/
def walk (nodes : List (Node L A)) (i : ℕ) (path : List L) : Option ℕ :=
  path.foldlM (child nodes) i

/-- `paths` lists the path of every node. -/
structure Shape (nodes : List (Node L A)) (paths : List (List L)) : Prop where
  length_eq : paths.length = nodes.length
  root : paths[0]? = some []
  nodup : paths.Nodup
  child_iff : ∀ (i : ℕ) (p : List L) (label : L) (j : ℕ), paths[i]? = some p →
    (child nodes i label = some j ↔ paths[j]? = some (p ++ [label]))
  parent : ∀ (j : ℕ) (p : List L) (label : L), paths[j]? = some (p ++ [label]) →
    ∃ i, i < j ∧ paths[i]? = some p ∧ nodes[j]?.map Node.parent = some i
  root_parent : nodes[0]?.map Node.parent = some 0
  depth : ∀ (j : ℕ) (p : List L), paths[j]? = some p → nodes[j]?.map Node.depth = some p.length

private theorem getElem?_concat_eq_some {B : Type*} {list : List B} {a b : B} :
    (list ++ [a])[j]? = some b ↔ list[j]? = some b ∨ j = list.length ∧ b = a := by
  grind

private theorem getElem?_root {M : Type*} {p : List M} :
    [([] : List M)][j]? = some p ↔ j = 0 ∧ p = [] := by
  cases j <;> simp [eq_comm]

theorem shape_start : Shape (start : List (Node L A)) [[]] := by
  refine ⟨rfl, rfl, by simp, ?_, ?_, rfl, ?_⟩
  · intro i p label j h
    obtain ⟨rfl, rfl⟩ := getElem?_root.mp h
    simp [child, start, getElem?_root]
  · intro j p label h
    simp [getElem?_root] at h
  · intro j p h
    obtain ⟨rfl, rfl⟩ := getElem?_root.mp h
    rfl

namespace Shape

variable {nodes : List (Node L A)} {paths : List (List L)}

variable {p : List L}

theorem lt_length (h : Shape nodes paths) (hi : paths[i]? = some p) : i < nodes.length := by
  rw [← h.length_eq]
  exact (List.getElem?_eq_some_iff.mp hi).1

theorem index_unique (h : Shape nodes paths) (hi : paths[i]? = some p) (hj : paths[j]? = some p) :
    i = j := by
  obtain ⟨hi', rfl⟩ := List.getElem?_eq_some_iff.mp hi
  obtain ⟨hj', hp⟩ := List.getElem?_eq_some_iff.mp hj
  exact (h.nodup.getElem_inj_iff.mp hp).symm

/-- The prefixes of a path have nodes of their own, made no later. -/
theorem exists_of_append (h : Shape nodes paths) {rest : List L}
    (hj : paths[j]? = some (p ++ rest)) : ∃ i, i ≤ j ∧ paths[i]? = some p := by
  induction rest using List.reverseRecOn generalizing j with
  | nil => exact ⟨j, le_rfl, by simpa using hj⟩
  | append_singleton rest label ih =>
    rw [← append_assoc] at hj
    obtain ⟨k, hk, hpath, -⟩ := h.parent j _ label hj
    obtain ⟨i, hi, hp⟩ := ih hpath
    exact ⟨i, by omega, hp⟩

variable (path : List L)

/-- Walking a path reaches the node of that path. -/
theorem walk_iff (h : Shape nodes paths) (hi : paths[i]? = some p) (path : List L) (j : ℕ) :
    walk nodes i path = some j ↔ paths[j]? = some (p ++ path) := by
  induction path generalizing i p with
  | nil =>
    simp only [walk, foldlM_nil, append_nil]
    constructor
    · intro hw
      obtain rfl := some.inj hw
      exact hi
    · intro hj
      rw [h.index_unique hi hj]
      rfl
  | cons label rest ih =>
    have hstep : walk nodes i (label :: rest) =
        (child nodes i label).bind fun k => walk nodes k rest := rfl
    rw [hstep]
    cases hc : child nodes i label with
    | some k =>
      have hk := (h.child_iff i p label k hi).mp hc
      rw [bind_some, ih hk, append_assoc]
      rfl
    | none =>
      simp only [bind_none, reduceCtorEq, false_iff]
      intro hj
      -- a longer path passes through the child that is missing
      have hlong : paths[j]? = some ((p ++ [label]) ++ rest) := by simpa using hj
      obtain ⟨k, -, hk⟩ := h.exists_of_append hlong
      rw [(h.child_iff i p label k hi).mpr hk] at hc
      simp at hc

private theorem child_eq (nodes : List (Node L A)) (i : ℕ) (label : L) :
    child nodes i label = (nodes[i]?.map Node.children).bind fun children =>
      children.lookup label := by
  rw [bind_map]
  rfl

private theorem items_eq (nodes : List (Node L A)) (i : ℕ) :
    items nodes i = (nodes.map Node.items)[i]?.getD [] := by
  rw [List.getElem?_map, items]
  cases nodes[i]? <;> rfl

variable {B : Type*} (f : Node L A → B)

/-- An update of one node keeps every field it does not touch. -/
private theorem map_modify (i : ℕ) {update : Node L A → Node L A}
    (hf : ∀ node, f (update node) = f node) : (nodes.modify i update).map f = nodes.map f := by
  apply ext_getElem?
  intro j
  rw [List.getElem?_map, List.getElem?_map, List.getElem?_modify]
  cases nodes[j]? with
  | none => rfl
  | some node => by_cases hij : i = j <;> simp [hij, hf]

private theorem map_grow
    (hf : ∀ (node : Node L A) children, f { node with children } = f node) (i k : ℕ) (label : L)
    (fresh : Node L A) :
    (nodes.modify i (fun node => { node with children := node.children.insert label k }) ++
      [fresh]).map f = nodes.map f ++ [f fresh] := by
  rw [map_append, map_modify f i fun node => hf node _, map_singleton]

variable {label : L} {fresh : Node L A}

private theorem map_getElem?_grow
    (hf : ∀ (node : Node L A) children, f { node with children } = f node) {k : ℕ} {b : B} :
    (nodes.modify i (fun node => { node with children := node.children.insert label k }) ++
        [fresh])[j]?.map f = some b ↔
      nodes[j]?.map f = some b ∨ j = nodes.length ∧ b = f fresh := by
  rw [← List.getElem?_map, map_grow f hf, getElem?_concat_eq_some, List.getElem?_map, length_map]

private theorem map_modify_items
    (hf : ∀ (node : Node L A) items, f { node with items } = f node) (i j : ℕ)
    (update : List A → List A) :
    (nodes.modify i fun node => { node with items := update node.items })[j]?.map f =
      nodes[j]?.map f := by
  rw [← List.getElem?_map, map_modify f i fun node => hf node _, List.getElem?_map]

private theorem child_grow (hi : i < nodes.length) (hnone : child nodes i label = none)
    (hfresh : fresh.children = ∅) (k : ℕ) (l : L) (j : ℕ) : child (nodes.modify i
        (fun node => { node with children := node.children.insert label nodes.length }) ++
          [fresh]) k l = some j ↔
      child nodes k l = some j ∨ k = i ∧ l = label ∧ j = nodes.length := by
  unfold child at hnone ⊢
  rcases lt_trichotomy k nodes.length with hk | rfl | hk
  · rw [List.getElem?_append_left (by simpa using hk), List.getElem?_modify,
      List.getElem?_eq_getElem hk]
    by_cases hik : i = k
    · subst hik
      by_cases hl : l = label
      · subst hl
        simp only [List.getElem?_eq_getElem hk, bind_some] at hnone
        simp [hnone, eq_comm]
      · simp [hl, AList.lookup_insert_ne]
    · simp [hik, Ne.symm hik]
  · simp [hfresh]
    omega
  · rw [List.getElem?_eq_none (by simp; omega), List.getElem?_eq_none (Nat.le_of_lt hk)]
    simp
    omega

/-- Making a child adds exactly its path. -/
theorem grow (h : Shape nodes paths) (hi : paths[i]? = some p)
    (hnone : child nodes i label = none) : Shape (nodes.modify i
        (fun node => { node with children := node.children.insert label nodes.length }) ++
      [⟨i, (nodes[i]?.elim 0 Node.depth) + 1, ∅, []⟩]) (paths ++ [p ++ [label]]) := by
  have hilt := h.lt_length hi
  have hnew : p ++ [label] ∉ paths := by
    intro hmem
    obtain ⟨j, hj⟩ := mem_iff_getElem?.mp hmem
    rw [(h.child_iff i p label j hi).mpr hj] at hnone
    simp at hnone
  constructor
  case length_eq => simp [h.length_eq]
  case root => exact getElem?_concat_eq_some.mpr (.inl h.root)
  case nodup => exact nodup_append_comm.mp (h.nodup.cons hnew)
  case child_iff =>
    intro k q l j hk
    rw [child_grow hilt hnone rfl, getElem?_concat_eq_some, h.length_eq]
    rcases getElem?_concat_eq_some.mp hk with hat | ⟨rfl, rfl⟩
    · rw [h.child_iff k q l j hat]
      refine or_congr_right ⟨?_, ?_⟩
      · rintro ⟨rfl, rfl, rfl⟩
        rw [some.inj (hi.symm.trans hat)]
        exact ⟨rfl, rfl⟩
      · rintro ⟨rfl, heq⟩
        obtain ⟨rfl, hl⟩ := append_inj' heq rfl
        exact ⟨h.index_unique hat hi, singleton_inj.mp hl, rfl⟩
    · -- the new node has no child yet, and no path goes through it
      rw [h.length_eq, child, List.getElem?_eq_none le_rfl]
      constructor
      · rintro (hc | ⟨hk, -⟩)
        · simp at hc
        · omega
      · rintro (hj | ⟨-, heq⟩)
        · obtain ⟨k, -, hk⟩ := h.exists_of_append hj
          exact absurd (mem_of_getElem? hk) hnew
        · simp at heq
  case parent =>
    intro j q l hj
    simp only [map_getElem?_grow Node.parent fun _ _ => rfl, getElem?_concat_eq_some]
    rcases getElem?_concat_eq_some.mp hj with hj | ⟨rfl, heq⟩
    · obtain ⟨k, hk, hkpath, hkparent⟩ := h.parent j q l hj
      exact ⟨k, hk, .inl hkpath, .inl hkparent⟩
    · obtain ⟨rfl, -⟩ := append_inj' heq rfl
      exact ⟨i, h.length_eq ▸ hilt, .inl hi, .inr ⟨h.length_eq, rfl⟩⟩
  case root_parent => exact (map_getElem?_grow Node.parent fun _ _ => rfl).mpr (.inl h.root_parent)
  case depth =>
    intro j q hj
    rw [map_getElem?_grow Node.depth fun _ _ => rfl]
    rcases getElem?_concat_eq_some.mp hj with hj | ⟨rfl, rfl⟩
    · exact .inl (h.depth j q hj)
    · obtain ⟨node, hnode, hdepth⟩ := map_eq_some_iff.mp (h.depth i p hi)
      exact .inr ⟨h.length_eq, by simp [hnode, hdepth]⟩

/-- Entering a label finds the child or makes it; no item moves. -/
theorem enter (h : Shape nodes paths) (hi : paths[i]? = some p) (label : L) :
    ∃ more, Shape (enter nodes i label).1 (paths ++ more) ∧
      (paths ++ more)[(enter nodes i label).2]? = some (p ++ [label]) ∧
      (∀ q, q ∈ paths ++ more ↔ q ∈ paths ∨ q = p ++ [label]) ∧
      ∀ j, items (enter nodes i label).1 j = items nodes j := by
  unfold ArenaTrie.enter
  cases hc : child nodes i label with
  | some j =>
    have hj := (h.child_iff i p label j hi).mp hc
    have hmem := mem_of_getElem? hj
    exact ⟨[], by simpa using h, by simpa using hj, fun q => by grind, fun _ => rfl⟩
  | none =>
    refine ⟨[p ++ [label]], h.grow hi hc,
      getElem?_concat_eq_some.mpr (.inr ⟨h.length_eq.symm, rfl⟩), by simp, ?_⟩
    intro j
    rw [items_eq, items_eq, map_grow Node.items fun _ _ => rfl]
    grind

/-- Descending makes the nodes of all prefixes of the path, and no other. -/
theorem descend (h : Shape nodes paths) (hi : paths[i]? = some p) (path : List L) :
    ∃ more, Shape (descend nodes i path).1 (paths ++ more) ∧
      (paths ++ more)[(descend nodes i path).2]? = some (p ++ path) ∧
      (∀ q, q ∈ paths ++ more ↔ q ∈ paths ∨ ∃ front, front <+: path ∧ q = p ++ front) ∧
      ∀ j, items (descend nodes i path).1 j = items nodes j := by
  induction path using List.reverseRecOn with
  | nil =>
    have hmem := mem_of_getElem? hi
    exact ⟨[], by simpa [ArenaTrie.descend] using h, by simpa [ArenaTrie.descend] using hi,
      by simp; grind, fun _ => rfl⟩
  | append_singleton path label ih =>
    obtain ⟨first, hshape, hat, hmem, hitems⟩ := ih
    obtain ⟨more, hshape', hat', hmem', hitems'⟩ := hshape.enter hat label
    have hstep : ArenaTrie.descend nodes i (path ++ [label]) =
        ArenaTrie.enter (ArenaTrie.descend nodes i path).1
        (ArenaTrie.descend nodes i path).2 label := by
      simp [ArenaTrie.descend]
    rw [hstep]
    refine ⟨first ++ more, ?_⟩
    rw [← append_assoc, ← append_assoc]
    refine ⟨hshape', hat', fun q => ?_, fun j => (hitems' j).trans (hitems j)⟩
    simp only [prefix_concat_iff]
    grind

theorem modify_items (h : Shape nodes paths) (i : ℕ) (update : List A → List A) :
    Shape (nodes.modify i fun node => { node with items := update node.items }) paths := by
  refine ⟨by simpa using h.length_eq, h.root, h.nodup, ?_, ?_, ?_, ?_⟩
  · intro k p label j hk
    rw [child_eq, map_modify_items Node.children fun _ _ => rfl, ← child_eq]
    exact h.child_iff k p label j hk
  · intro j p label hj
    rw [map_modify_items Node.parent fun _ _ => rfl]
    exact h.parent j p label hj
  · rw [map_modify_items Node.parent fun _ _ => rfl]
    exact h.root_parent
  · intro j p hj
    rw [map_modify_items Node.depth fun _ _ => rfl]
    exact h.depth j p hj

theorem attach (h : Shape nodes paths) (path : List L) (item : A) :
    ∃ more, Shape (attach nodes path item) (paths ++ more) ∧ (∀ q, q ∈ paths ++ more ↔ q ∈ paths ∨
      q <+: path) ∧
      ∀ j q, (paths ++ more)[j]? = some q →
        items (attach nodes path item) j = items nodes j ++ if q = path then [item] else [] := by
  obtain ⟨more, hshape, hat, hmem, hitems⟩ := h.descend h.root path
  refine ⟨more, hshape.modify_items _ (· ++ [item]), ?_, ?_⟩
  · intro q
    rw [hmem q]
    simp
  · intro j q hj
    have hij : (ArenaTrie.descend nodes 0 path).2 = j ↔ q = path :=
      ⟨fun hij => by simpa [← hij, hat, eq_comm] using hj,
        fun hq => hshape.index_unique hat (hq ▸ hj)⟩
    rw [ArenaTrie.attach, ← hitems j]
    simp only [items, List.getElem?_modify, hij,
      List.getElem?_eq_getElem (hshape.lt_length hj), Option.map_eq_map, Option.map_some,
      Option.elim_some]
    split <;> simp

end Shape

variable (path : A → List L)

/-- The arena after attaching every item of a list at its path. -/
def attachAll (list : List A) : List (Node L A) :=
  list.foldl (fun nodes item => attach nodes (path item) item) start

/-- What the arena holds after attaching a list: a node for every prefix of an
attached path, with the items attached there in order. -/
theorem attachAll_shape (list : List A) :
    ∃ paths, Shape (attachAll path list) paths ∧
      (∀ q, q ∈ paths ↔ q = [] ∨ ∃ item ∈ list, q <+: path item) ∧
      ∀ j q, paths[j]? = some q → items (attachAll path list) j = list.filter fun item =>
        path item = q := by
  induction list using List.reverseRecOn with
  | nil =>
    refine ⟨[[]], shape_start, by simp, fun j q hj => ?_⟩
    obtain ⟨rfl, rfl⟩ := getElem?_root.mp hj
    rfl
  | append_singleton list item ih =>
    obtain ⟨paths, hshape, hmem, hitems⟩ := ih
    obtain ⟨more, hshape', hmem', hitems'⟩ := hshape.attach (path item) item
    have hstep : attachAll path (list ++ [item]) = attach (attachAll path list)
        (path item) item := by
      simp [attachAll]
    rw [hstep]
    refine ⟨paths ++ more, hshape', ?_, ?_⟩
    · intro q
      grind
    · intro j q hj
      rw [hitems' j q hj, filter_append]
      congr 1
      · by_cases hlt : j < paths.length
        · rw [List.getElem?_append_left hlt] at hj
          exact hitems j q hj
        · -- a node made just now held nothing, and nothing attached before has its path
          have hq : q ∉ paths := by
            intro hmemq
            obtain ⟨k, hk⟩ := mem_iff_getElem?.mp hmemq
            have hklt := (List.getElem?_eq_some_iff.mp hk).1
            have := hshape'.index_unique hj (List.getElem?_append_left hklt ▸ hk)
            omega
          rw [items, List.getElem?_eq_none (by rw [← hshape.length_eq]; omega), elim_none, eq_comm,
            filter_eq_nil_iff]
          intro other hother hpath
          exact hq ((hmem q).mpr (Or.inr ⟨other, hother, of_decide_eq_true hpath ▸ prefix_rfl⟩))
      · simp [filter_singleton, eq_comm]

end ArenaTrie
