import BoronDns.Lib.WordBitmap
import BoronDns.ZoneDirectory
import Mathlib.Data.List.Perm.Basic

/-!
The directory refines a plain list of entries with distinct origins. One
invariant says that the two indexes, the key-length bitmap, the short list and
the counters all describe that list; publication keeps it, and under it both
ways of selecting a zone return the longest visible origin above the name.
-/

namespace BoronDns

open ShardedMap List

/-- A length past the bitmap is never excluded; any other is when its bit is
clear. -/
theorem keyLengthExcluded_eq_false_iff (lengths : Fin 4 → UInt64) (len : ℕ) :
    keyLengthExcluded lengths len = false ↔ len / 64 < 4 → WordBitmap.test lengths len = true := by
  unfold keyLengthExcluded WordBitmap.test
  by_cases h : len / 64 < 4
  · simp [h]
  · simp [h]

variable {Snapshot Image Dirty : Type}

namespace ZoneStoreEntry

theorem originKey_eq_iff (a b : ZoneStoreEntry Snapshot Image Dirty) :
    a.originKey = b.originKey ↔ a.origin.lowerLabels = b.origin.lowerLabels := by
  rw [a.originKey_eq, b.originKey_eq]
  exact DomainName.canonicalKey_inj a.origin b.origin

/-- A key of the suffix index is that of an entry exactly when its labels are. -/
theorem reverseKey_eq_iff (entry : ZoneStoreEntry Snapshot Image Dirty) {labels : List Label}
    (hlabels : ∀ l ∈ labels, l.length ≤ 63) :
    reverseKey labels = canonicalReverseLabelKey entry.origin ↔
      labels = entry.origin.lowerLabels.reverse := by
  rw [canonicalReverseLabelKey_eq, reverseKey_inj _ _ hlabels]
  exact entry.origin.reversed_length_le

instance : Std.Total (@mostSpecificFirst Snapshot Image Dirty) :=
  ⟨fun a b => Nat.le_total b.originLabelCount a.originLabelCount⟩

instance : IsTrans _ (@mostSpecificFirst Snapshot Image Dirty) :=
  ⟨fun _ _ _ hab hbc => Nat.le_trans hbc hab⟩

end ZoneStoreEntry

namespace ZoneDirectory

/-- What the directory holds, as a list: the entries it should serve from, one
for an origin. -/
structure Describes (d : ZoneDirectory (ZoneStoreEntry Snapshot Image Dirty))
    (entries : List (ZoneStoreEntry Snapshot Image Dirty)) : Prop where
  distinct : ∀ a ∈ entries, ∀ b ∈ entries, a.originKey = b.originKey → a = b
  byOrigin : ∀ key entry, d.byOrigin.get key = some entry ↔
    entry ∈ entries ∧ entry.originKey = key
  values : d.byOrigin.values.Perm entries
  suffixIndex : ∀ labels : List Label, (∀ l ∈ labels, l.length ≤ 63) → ∀ entry,
    d.suffixIndex.get (reverseKey labels) = some entry ↔
      entry ∈ entries ∧ entry.origin.lowerLabels.reverse = labels
  keyLengths : ∀ entry ∈ entries,
    keyLengthExcluded d.suffixKeyLengths (canonicalReverseLabelKey entry.origin).length = false
  small : if entries.length ≤ smallZoneDirectoryLimit then
      d.small.Perm entries ∧ d.small.Pairwise ZoneStoreEntry.mostSpecificFirst
    else
      d.small = []
  len : d.len = entries.length
  activeCount : d.activeCount = entries.countP fun entry => entry.servesQueries

variable {d : ZoneDirectory (ZoneStoreEntry Snapshot Image Dirty)}
  {entries : List (ZoneStoreEntry Snapshot Image Dirty)}

theorem describes_empty : Describes (@empty Snapshot Image Dirty) [] where
  distinct := by simp
  byOrigin := by simp [empty]
  values := by simp [empty]
  suffixIndex := by simp [empty]
  keyLengths := by simp
  small := by simp [empty]
  len := rfl
  activeCount := rfl

variable (key : NameKey)

/-- The entries under other keys than `key`. -/
def othersThan (entries : List (ZoneStoreEntry Snapshot Image Dirty)) :
    List (ZoneStoreEntry Snapshot Image Dirty) :=
  entries.filter fun entry => entry.originKey ≠ key

variable (entry : ZoneStoreEntry Snapshot Image Dirty)

theorem mem_othersThan :
    entry ∈ othersThan key entries ↔ entry ∈ entries ∧ entry.originKey ≠ key := by
  simp [othersThan]

/-- Removing a key from the origin index removes exactly its entry. -/
theorem Describes.values_remove (h : Describes d entries) :
    (d.byOrigin.remove key).values.Perm (othersThan key entries) := by
  have hkept : (d.byOrigin.remove key).values.filter (fun entry => entry.originKey ≠ key) =
      (d.byOrigin.remove key).values := by
    rw [filter_eq_self]
    intro entry hmem
    obtain ⟨k, hk⟩ := (Shards.mem_values _ _).mp hmem
    rw [Shards.get_remove] at hk
    by_cases hkey : k = key
    · simp [hkey] at hk
    · rw [if_neg hkey] at hk
      have := ((h.byOrigin k entry).mp hk).2
      simpa [this] using hkey
  have hgone : (d.byOrigin.get key).toList.filter (fun entry => entry.originKey ≠ key) = [] := by
    rw [filter_eq_nil_iff]
    intro entry hmem
    have := ((h.byOrigin key entry).mp (by simpa using hmem)).2
    simp [this]
  have hperm := (d.byOrigin.values_remove key).filter fun entry => entry.originKey ≠ key
  rw [filter_append, hgone, hkept, nil_append] at hperm
  exact hperm.symm.trans (h.values.filter _)

theorem Describes.split (h : Describes d entries) :
    entries.Perm ((d.byOrigin.get key).toList ++ othersThan key entries) :=
  h.values.symm.trans ((d.byOrigin.values_remove key).trans ((h.values_remove key).append_left _))

theorem Describes.length_split (h : Describes d entries) :
    entries.length = (d.byOrigin.get key).toList.length + (othersThan key entries).length := by
  rw [(h.split key).length_eq, length_append]

theorem Describes.countP_split (h : Describes d entries) :
    entries.countP (fun entry => entry.servesQueries) =
      (d.byOrigin.get key).toList.countP (fun entry => entry.servesQueries) +
        (othersThan key entries).countP (fun entry => entry.servesQueries) := by
  rw [(h.split key).countP_eq, countP_append]

/-- The length the directory has after an entry is stored under `key`. -/
theorem Describes.len_insert (h : Describes d entries) :
    (if (d.byOrigin.get key).isSome then d.len else d.len + 1) =
      (othersThan key entries).length + 1 := by
  have hlen := h.length_split key
  rw [h.len]
  cases hget : d.byOrigin.get key with
  | none => simp [hget] at hlen ⊢; omega
  | some p => simp [hget] at hlen ⊢; omega

theorem Describes.insert (h : Describes d entries) :
    Describes (d.insert entry.originKey entry) (entry :: othersThan entry.originKey entries) where
  distinct a ha b hb hab := by
    simp only [mem_cons, mem_othersThan] at ha hb
    rcases ha with rfl | ha <;> rcases hb with rfl | hb
    · rfl
    · exact absurd hab.symm hb.2
    · exact absurd hab ha.2
    · exact h.distinct a ha.1 b hb.1 hab
  byOrigin key other := by
    have hbefore := h.byOrigin key other
    simp only [ZoneDirectory.insert, Shards.get_insert, mem_cons, mem_othersThan]
    grind
  values := (d.byOrigin.values_insert entry.originKey entry).trans
    ((h.values_remove entry.originKey).cons entry)
  suffixIndex labels hlabels other := by
    have hbefore := h.suffixIndex labels hlabels other
    have hkeys := (other.originKey_eq_iff entry).trans reverse_inj.symm
    simp only [ZoneDirectory.insert, Shards.get_insert, entry.reverseKey_eq_iff hlabels, mem_cons,
      mem_othersThan]
    grind
  keyLengths other hmem := by
    rcases mem_cons.mp hmem with rfl | hmem
    · exact (keyLengthExcluded_eq_false_iff _ _).mpr (WordBitmap.test_set_self _)
    · have hother := h.keyLengths other ((mem_othersThan _ _).mp hmem).1
      rw [keyLengthExcluded_eq_false_iff] at hother ⊢
      exact fun hlength => WordBitmap.test_set_of_test _ _ (hother hlength)
  small := by
    have hlen := h.length_split entry.originKey
    have hold := h.small
    simp only [ZoneDirectory.insert, length_cons, h.len_insert]
    by_cases hlimit : (othersThan entry.originKey entries).length + 1 ≤ smallZoneDirectoryLimit
    · have hsmall : entries.length ≤ smallZoneDirectoryLimit := by
        have : (d.byOrigin.get entry.originKey).toList.length ≤ 1 := by
          cases d.byOrigin.get entry.originKey <;> simp
        omega
      rw [if_pos hsmall] at hold
      rw [if_pos hlimit, if_pos hlimit]
      refine ⟨?_, pairwise_insertionSort _ _⟩
      refine (perm_insertionSort _ _).trans ?_
      refine ((hold.1.filter _).append_right _).trans ?_
      exact perm_append_singleton _ _
    · rw [if_neg hlimit, if_neg hlimit]
  len := by
    simp [ZoneDirectory.insert, h.len_insert]
  activeCount := by
    have hcount := h.countP_split entry.originKey
    have hactive := h.activeCount
    simp only [ZoneDirectory.insert, countP_cons]
    cases hget : d.byOrigin.get entry.originKey with
    | none =>
      simp [hget] at hcount
      cases hserve : entry.servesQueries <;> simp [hactive, hcount]
    | some p =>
      rw [hget] at hcount
      cases hp : p.servesQueries <;> cases hserve : entry.servesQueries <;>
        simp [hp] at hcount ⊢ <;> omega

theorem Describes.othersThan_of_get_none (h : Describes d entries) {key : NameKey}
    (hget : d.byOrigin.get key = none) : othersThan key entries = entries := by
  rw [othersThan, filter_eq_self]
  intro entry hmem
  have hne : entry.originKey ≠ key := by
    intro hkey
    have := (h.byOrigin key entry).mpr ⟨hmem, hkey⟩
    rw [hget] at this
    simp at this
  simpa using hne

theorem Describes.remove (h : Describes d entries) :
    Describes (d.remove key).1 (othersThan key entries) := by
  unfold ZoneDirectory.remove
  split
  next hget =>
    rw [h.othersThan_of_get_none hget]
    exact h
  next entry hget =>
    have hentry := (h.byOrigin key entry).mp hget
    have hlen : d.len - 1 = (othersThan key entries).length := by
      have hsplit := h.length_split key
      rw [hget] at hsplit
      rw [h.len, hsplit]
      simp
    dsimp only
    refine ⟨?_, ?_, h.values_remove key, ?_, ?_, ?_, hlen, ?_⟩
    · intro a ha b hb hab
      exact h.distinct a ((mem_othersThan _ _).mp ha).1 b ((mem_othersThan _ _).mp hb).1 hab
    · intro k other
      have hbefore := h.byOrigin k other
      rw [Shards.get_remove, mem_othersThan]
      grind
    · intro labels hlabels other
      have hbefore := h.suffixIndex labels hlabels other
      have hkeys := (other.originKey_eq_iff entry).trans reverse_inj.symm
      simp only [Shards.get_remove, entry.reverseKey_eq_iff hlabels, mem_othersThan]
      grind
    · intro other hmem
      have hother := (mem_othersThan _ _).mp hmem
      have hpos : 0 < (othersThan key entries).length := length_pos_of_mem hmem
      rw [hlen, if_neg (by omega)]
      exact h.keyLengths other hother.1
    · rw [hlen]
      by_cases hlimit : (othersThan key entries).length ≤ smallZoneDirectoryLimit
      · rw [if_pos hlimit, if_pos hlimit]
        exact ⟨(perm_insertionSort _ _).trans (h.values_remove key), pairwise_insertionSort _ _⟩
      · have hbig : ¬ entries.length ≤ smallZoneDirectoryLimit := by
          have := h.length_split key
          omega
        have hsmall := h.small
        rw [if_neg hbig] at hsmall
        rw [if_neg hlimit, if_neg hlimit]
        exact hsmall
    · have hcount := h.countP_split key
      rw [hget] at hcount
      rw [h.activeCount, hcount]
      cases hserve : entry.servesQueries <;> simp [hserve]

end ZoneDirectory

end BoronDns
