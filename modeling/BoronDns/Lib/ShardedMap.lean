import BoronDns.Lib.FiniteMap
import Mathlib.Data.List.FinRange
import Mathlib.Tactic.Common

/-!
A hash map kept as a fixed number of smaller maps. A key lives in the map its
slot function names, so the whole behaves as one finite map: reading, writing
and removing a key are independent of how the keys are spread, and the listed
values change by exactly the key that was written.
-/

namespace ShardedMap

open List Function

/-- The maps of one sharded map, with every key in the map of its slot. -/
structure Shards {K : Type*} {n : ℕ} (slot : K → Fin n) (V : Type*) where
  shard : Fin n → AList (fun _ : K => V)
  placed : ∀ i k, k ∈ shard i → slot k = i

namespace Shards

variable {K : Type*} {n : ℕ} {slot : K → Fin n} {V : Type*}

variable (m : Shards slot V) (k : K)

def empty (slot : K → Fin n) (V : Type*) : Shards slot V :=
  ⟨fun _ => ∅, by simp⟩

def values (m : Shards slot V) : List V :=
  (List.finRange n).flatMap fun i => (m.shard i).values

@[simp] theorem values_empty : (empty slot V).values = [] := by
  simp only [values, flatMap_eq_nil_iff]
  intro i _
  rfl

variable [DecidableEq K]

def get (m : Shards slot V) (k : K) : Option V := (m.shard (slot k)).lookup k

def insert (m : Shards slot V) (k : K) (v : V) : Shards slot V where
  shard := update m.shard (slot k) ((m.shard (slot k)).insert k v)
  placed i k' h := by
    by_cases hi : i = slot k
    · subst hi
      rw [update_self, AList.mem_insert] at h
      rcases h with rfl | h
      · rfl
      · exact m.placed _ _ h
    · rw [update_of_ne hi] at h
      exact m.placed _ _ h

def remove (m : Shards slot V) (k : K) : Shards slot V where
  shard := update m.shard (slot k) ((m.shard (slot k)).erase k)
  placed i k' h := by
    by_cases hi : i = slot k
    · subst hi
      rw [update_self, AList.mem_erase] at h
      exact m.placed _ _ h.2
    · rw [update_of_ne hi] at h
      exact m.placed _ _ h

@[simp] theorem get_empty : (empty slot V).get k = none := rfl

theorem get_insert (k' : K) (v : V) :
    (m.insert k v).get k' = if k' = k then some v else m.get k' := by
  by_cases hk : k' = k
  · subst hk
    simp [get, insert]
  · by_cases hs : slot k' = slot k
    · simp [get, insert, hs, hk, AList.lookup_insert_ne]
    · simp [get, insert, update_of_ne hs, hk]

theorem get_remove (k' : K) : (m.remove k).get k' = if k' = k then none else m.get k' := by
  by_cases hk : k' = k
  · subst hk
    simp [get, remove]
  · by_cases hs : slot k' = slot k
    · simp [get, remove, hs, hk, AList.lookup_erase_ne]
    · simp [get, remove, update_of_ne hs, hk]

theorem mem_values (v : V) : v ∈ m.values ↔ ∃ k, m.get k = some v := by
  simp only [values, mem_flatMap, mem_finRange, true_and, AList.mem_values]
  constructor
  · rintro ⟨i, k, hk⟩
    have hslot := m.placed i k (AList.lookup_isSome.mp (by simp [hk]))
    exact ⟨k, by rw [get, hslot]; exact hk⟩
  · rintro ⟨k, hk⟩
    exact ⟨slot k, k, hk⟩

private theorem flatMap_finRange_split (f : Fin n → List V) (i : Fin n) :
    ((List.finRange n).flatMap f).Perm (f i ++ ((List.finRange n).erase i).flatMap f) :=
  (perm_cons_erase (mem_finRange i)).flatMap_right f

theorem values_remove : m.values.Perm ((m.get k).toList ++ (m.remove k).values) := by
  have hrest : ((List.finRange n).erase (slot k)).flatMap (fun i => (m.shard i).values) =
      ((List.finRange n).erase (slot k)).flatMap fun i => ((m.remove k).shard i).values :=
    flatMap_congr fun j hj => by
      simp [remove, update_of_ne ((nodup_finRange n).mem_erase_iff.mp hj).1]
  refine (flatMap_finRange_split (fun i => (m.shard i).values) (slot k)).trans ?_
  refine ((AList.values_perm_erase (m.shard (slot k)) k).append_right _).trans ?_
  rw [hrest, append_assoc]
  refine List.Perm.append_left _ ?_
  have hsame : ((m.shard (slot k)).erase k).values = ((m.remove k).shard (slot k)).values := by
    simp [remove]
  rw [hsame]
  exact (flatMap_finRange_split (fun i => ((m.remove k).shard i).values) (slot k)).symm

theorem values_insert (v : V) : (m.insert k v).values.Perm (v :: (m.remove k).values) := by
  have hremove : (m.insert k v).remove k = m.remove k := by
    simp only [remove, insert, Shards.mk.injEq, update_self, update_idem]
    congr 1
    apply AList.ext
    exact kerase_cons_eq rfl
  have h := (m.insert k v).values_remove k
  rw [hremove, get_insert, if_pos rfl] at h
  exact h

end Shards

end ShardedMap
