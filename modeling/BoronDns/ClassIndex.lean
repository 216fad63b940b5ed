import BoronDns.Ancestors
import BoronDns.Lib.FiniteMap
import BoronDns.Records
import Mathlib.Data.PNat.Basic

/-!
The index from names to the classes they are used in, with a count for each
class. A zone that only has class IN keeps one count a name; the first other
class turns the index into one with a table of classes a name. Whatever the
form, the index is the function that counts insertions less removals, as long as
no count reaches the largest `u32`.
-/

namespace BoronDns

open List AList Option

/-- The largest count a `u32` holds. -/
def maxCount : ℕ := 2 ^ 32 - 1

/-- `u32::saturating_add` on counts, which are never zero. -/
def saturatingAdd (count amount : ℕ+) : ℕ+ :=
  ⟨min (count + amount) maxCount, by
    have := count.pos
    rw [lt_min_iff]
    exact ⟨by omega, by decide⟩⟩

/-- An entry that may be missing, with `amount` more. -/
def incremented (entry : Option ℕ+) (amount : ℕ+) : ℕ+ :=
  match entry with
  | none => amount
  | some count => saturatingAdd count amount

/-- One less, or nothing when the count was one. -/
def decremented (count : ℕ+) : Option ℕ+ :=
  if h : 1 < (count : ℕ) then some ⟨count - 1, by omega⟩ else none

/-- The number behind an entry that may be missing. -/
def countOf (entry : Option ℕ+) : ℕ := entry.elim 0 PNat.val

@[simp] theorem countOf_none : countOf none = 0 := rfl

@[simp] theorem countOf_some (count : ℕ+) : countOf (some count) = count := rfl

variable {entry : Option ℕ+}

theorem countOf_pos_iff : 0 < countOf entry ↔ entry.isSome = true := by
  cases entry with
  | none => simp
  | some count => simp

theorem countOf_decremented (count : ℕ+) : countOf (decremented count) = count - 1 := by
  have := count.pos
  unfold decremented
  split
  · rfl
  · rw [countOf_none]
    omega

theorem coe_incremented {amount : ℕ+} (h : countOf entry + amount ≤ maxCount) :
    (incremented entry amount : ℕ) = countOf entry + amount := by
  cases entry with
  | none => simp [incremented]
  | some count => exact min_eq_left h

/-- The count of a name in a zone whose classes are all IN. -/
structure InClassCounts where
  counts : AList (fun _ : NameKey => ℕ+)
  len : ℕ
  len_eq : len = counts.keys.length

namespace InClassCounts

def empty : InClassCounts := ⟨∅, 0, length_keys_empty⟩

def increment (index : InClassCounts) (name : NameKey) : InClassCounts where
  counts := index.counts.insert name (incremented (index.counts.lookup name) 1)
  len := if (index.counts.lookup name).isSome then index.len else index.len + 1
  len_eq := by
    rw [length_keys_insert, index.len_eq]
    split <;> rfl

def decrement (index : InClassCounts) (name : NameKey) : InClassCounts where
  counts := index.counts.put name ((index.counts.lookup name).bind decremented)
  len :=
    if index.counts.lookup name ≠ none ∧ (index.counts.lookup name).bind decremented = none then
      index.len - 1
    else
      index.len
  len_eq := by
    have hlength := index.counts.length_keys_put name ((index.counts.lookup name).bind decremented)
    rw [index.len_eq]
    cases hlookup : index.counts.lookup name with
    | none => simpa [hlookup] using hlength.symm
    | some count => cases hnext : decremented count <;> simp [hlookup, hnext] at hlength ⊢ <;> omega

def contains (index : InClassCounts) (name : NameKey) : Bool := (index.counts.lookup name).isSome

def keys (index : InClassCounts) : List NameKey := index.counts.keys

def count (index : InClassCounts) (name : NameKey) : ℕ := countOf (index.counts.lookup name)

theorem lookup_increment (index : InClassCounts) (name wanted : NameKey) :
    (index.increment name).counts.lookup wanted = if wanted = name then
      some (incremented (index.counts.lookup name) 1)
      else index.counts.lookup wanted := by
  rw [increment, lookup_insert_ite]

theorem count_increment (index : InClassCounts) (name wanted : NameKey)
    (h : index.count name < maxCount) :
    (index.increment name).count wanted = index.count wanted + if wanted = name then 1 else 0 := by
  rw [count, lookup_increment]
  by_cases hname : wanted = name
  · subst hname
    rw [if_pos rfl, if_pos rfl, countOf_some, count]
    exact coe_incremented h
  · rw [if_neg hname, if_neg hname]
    rfl

theorem count_decrement (index : InClassCounts) (name wanted : NameKey) :
    (index.decrement name).count wanted = index.count wanted - if wanted = name then 1 else 0 := by
  rw [count, decrement, lookup_put]
  by_cases hname : wanted = name
  · subst hname
    rw [if_pos rfl, if_pos rfl, count]
    cases index.counts.lookup wanted with
    | none => rfl
    | some current => exact countOf_decremented current
  · rw [if_neg hname, if_neg hname]
    rfl

end InClassCounts

/-- The counts of one name, one for each class it is used in. -/
abbrev ClassCounts := AList (fun _ : UInt16 => ℕ+)

/-- The counts of a name by class; a name without a class left is dropped. -/
structure MultiClassCounts where
  counts : AList (fun _ : NameKey => ClassCounts)
  len : ℕ
  len_eq : len = counts.keys.length
  inhabited : ∀ name classes, counts.lookup name = some classes → classes ≠ ∅

namespace MultiClassCounts

def empty : MultiClassCounts := ⟨∅, 0, length_keys_empty, by simp⟩

def classesAt (index : MultiClassCounts) (name : NameKey) : ClassCounts :=
  (index.counts.lookup name).getD ∅

def insertCount (index : MultiClassCounts) (name : NameKey) (cls : UInt16) (amount : ℕ+) :
    MultiClassCounts where
  counts := index.counts.insert name ((index.classesAt name).insert cls
    (incremented ((index.classesAt name).lookup cls) amount))
  len := if (index.counts.lookup name).isSome then index.len else index.len + 1
  len_eq := by
    rw [length_keys_insert, index.len_eq]
    split <;> rfl
  inhabited := by
    intro wanted classes h
    rw [lookup_insert_ite] at h
    split at h
    · obtain rfl := some.inj h
      intro hempty
      simpa [entries_insert] using congrArg AList.entries hempty
    · exact index.inhabited wanted classes h

def increment (index : MultiClassCounts) (name : NameKey) (cls : UInt16) : MultiClassCounts :=
  index.insertCount name cls 1

/-- The classes of a name with one less of `cls`, or nothing when none is left. -/
def removedClass (classes : ClassCounts) (cls : UInt16) : Option ClassCounts :=
  let left := classes.put cls ((classes.lookup cls).bind decremented)
  if left.entries.isEmpty then none else some left

def decrement (index : MultiClassCounts) (name : NameKey) (cls : UInt16) : MultiClassCounts where
  counts := index.counts.put name ((index.counts.lookup name).bind (removedClass · cls))
  len :=
    if index.counts.lookup name ≠ none ∧
        (index.counts.lookup name).bind (removedClass · cls) = none then
      index.len - 1
    else
      index.len
  len_eq := by
    have hlength := index.counts.length_keys_put name
      ((index.counts.lookup name).bind (removedClass · cls))
    rw [index.len_eq]
    cases hlookup : index.counts.lookup name with
    | none => simpa [hlookup] using hlength.symm
    | some classes =>
      cases hnext : removedClass classes cls <;> simp [hlookup, hnext] at hlength ⊢ <;> omega
  inhabited := by
    intro wanted classes h
    rw [lookup_put] at h
    split at h
    · obtain ⟨current, -, hleft⟩ := bind_eq_some_iff.mp h
      simp only [removedClass] at hleft
      split at hleft
      · simp at hleft
      next hne =>
        obtain rfl := some.inj hleft
        intro hempty
        rw [hempty] at hne
        exact hne rfl
    · exact index.inhabited wanted classes h

def contains (index : MultiClassCounts) (name : NameKey) (qclass : UInt16) : Bool :=
  (index.counts.lookup name).any fun classes => qclass == 255 || (classes.lookup qclass).isSome

def keys (index : MultiClassCounts) : List NameKey := index.counts.keys

def count (index : MultiClassCounts) (name : NameKey) (cls : UInt16) : ℕ :=
  countOf ((index.classesAt name).lookup cls)

theorem classesAt_insertCount (index : MultiClassCounts) (name : NameKey) (cls : UInt16)
    (amount : ℕ+) (wanted : NameKey) : (index.insertCount name cls amount).classesAt wanted =
      if wanted = name then
        (index.classesAt name).insert cls (incremented ((index.classesAt name).lookup cls) amount)
      else index.classesAt wanted := by
  rw [classesAt, insertCount, lookup_insert_ite]
  split <;> rfl

theorem lookup_removedClass (classes : ClassCounts) (cls wanted : UInt16) :
    ((removedClass classes cls).getD ∅).lookup wanted =
      if wanted = cls then (classes.lookup cls).bind decremented else classes.lookup wanted := by
  rw [← lookup_put]
  unfold removedClass
  dsimp only
  split
  next hempty =>
    have hnone : classes.put cls ((classes.lookup cls).bind decremented) = ∅ :=
      AList.ext (List.isEmpty_iff.mp hempty)
    rw [hnone]
    rfl
  · rfl

theorem count_decrement (index : MultiClassCounts) (name : NameKey) (cls : UInt16)
    (wanted : NameKey) (wantedClass : UInt16) :
    (index.decrement name cls).count wanted wantedClass =
      index.count wanted wantedClass - if wanted = name ∧ wantedClass = cls then 1 else 0 := by
  rw [count, classesAt, decrement, lookup_put]
  by_cases hname : wanted = name
  · subst hname
    rw [if_pos rfl, count, classesAt]
    cases hlook : index.counts.lookup wanted with
    | none => simp
    | some classes =>
      rw [bind_some, lookup_removedClass, getD_some]
      by_cases hclass : wantedClass = cls
      · subst hclass
        rw [if_pos rfl, if_pos ⟨rfl, rfl⟩]
        cases classes.lookup wantedClass with
        | none => rfl
        | some current => exact countOf_decremented current
      · rw [if_neg hclass, if_neg (fun hboth => hclass hboth.2)]
        rfl
  · rw [if_neg hname, if_neg (fun hboth => hname hboth.1)]
    rfl

theorem lookup_isSome_iff (index : MultiClassCounts) (name : NameKey) :
    (index.counts.lookup name).isSome = true ↔ ∃ cls, 0 < index.count name cls := by
  constructor
  · intro h
    obtain ⟨classes, hclasses⟩ := isSome_iff_exists.mp h
    have hne := index.inhabited name classes hclasses
    cases hentries : classes.entries with
    | nil => exact absurd (AList.ext hentries) hne
    | cons entry rest =>
      refine ⟨entry.1, countOf_pos_iff.mpr ?_⟩
      rw [classesAt, hclasses, getD_some]
      exact isSome_iff_exists.mpr ⟨entry.2, mem_lookup_iff.mpr (by simp [hentries])⟩
  · rintro ⟨cls, hpos⟩
    rw [count, classesAt] at hpos
    cases hlook : index.counts.lookup name with
    | none => simp [hlook] at hpos
    | some classes => rfl

end MultiClassCounts

inductive NameClassIndex
  | inOnly (counts : InClassCounts)
  | multiClass (counts : MultiClassCounts)

namespace NameClassIndex

variable (index : NameClassIndex) (change : Change) (rrsets : List Rrset)

/-- An index for RRsets of these classes, with nothing in it. -/
def forRrsets : NameClassIndex :=
  if rrsets.all fun rrset => rrset.cls == 1 then inOnly InClassCounts.empty
  else multiClass MultiClassCounts.empty

def promoteToMultiClass (counts : InClassCounts) : MultiClassCounts :=
  counts.counts.entries.foldl (fun multi entry => multi.insertCount entry.1 1 entry.2)
    MultiClassCounts.empty

def insert (index : NameClassIndex) (name : NameKey) (cls : UInt16) : NameClassIndex :=
  match index with
  | inOnly counts =>
    if cls = 1 then inOnly (counts.increment name)
    else multiClass ((promoteToMultiClass counts).increment name cls)
  | multiClass counts => multiClass (counts.increment name cls)

def remove (index : NameClassIndex) (name : NameKey) (cls : UInt16) : NameClassIndex :=
  match index with
  | inOnly counts => inOnly (counts.decrement name)
  | multiClass counts => multiClass (counts.decrement name cls)

def contains (index : NameClassIndex) (name : NameKey) (qclass : UInt16) : Bool :=
  match index with
  | inOnly counts => (qclass == 1 || qclass == 255) && counts.contains name
  | multiClass counts => counts.contains name qclass

def containsName (index : NameClassIndex) (name : NameKey) : Bool :=
  match index with
  | inOnly counts => (counts.counts.lookup name).isSome
  | multiClass counts => (counts.counts.lookup name).isSome

def len (index : NameClassIndex) : ℕ :=
  match index with
  | inOnly counts => counts.len
  | multiClass counts => counts.len

def keys (index : NameClassIndex) : List NameKey :=
  match index with
  | inOnly counts => counts.keys
  | multiClass counts => counts.keys

/-- `setBytes` is what one class set would take. -/
def valueBytesSaved (setBytes : ℕ) (index : NameClassIndex) : ℕ :=
  match index with
  | inOnly counts => counts.len * setBytes
  | multiClass _ => 0

def isInOnly (index : NameClassIndex) : Bool :=
  match index with
  | inOnly _ => true
  | multiClass _ => false

def count (index : NameClassIndex) (name : NameKey) (cls : UInt16) : ℕ :=
  match index with
  | inOnly counts => if cls = 1 then counts.count name else 0
  | multiClass counts => counts.count name cls

theorem count_forRrsets (name : NameKey) (cls : UInt16) :
    (forRrsets rrsets).count name cls = 0 := by
  unfold forRrsets
  split
  · show (if cls = 1 then 0 else 0) = 0
    split <;> rfl
  · rfl

theorem isInOnly_forRrsets :
    (forRrsets rrsets).isInOnly = rrsets.all fun rrset => rrset.cls == 1 := by
  unfold forRrsets
  split <;> rename_i h
  · exact h.symm
  · simpa [isInOnly] using h

theorem len_eq : index.len = index.keys.length := by
  cases index with
  | inOnly counts => exact counts.len_eq
  | multiClass counts => exact counts.len_eq

theorem keys_nodup : index.keys.Nodup := by
  cases index with
  | inOnly counts => exact counts.counts.keys_nodup
  | multiClass counts => exact counts.counts.keys_nodup

variable (name : NameKey)

theorem containsName_iff : index.containsName name = true ↔ ∃ cls, 0 < index.count name cls := by
  cases index with
  | inOnly counts =>
    rw [containsName, ← countOf_pos_iff]
    constructor
    · exact fun h => ⟨1, h⟩
    · rintro ⟨cls, h⟩
      simp only [count] at h
      split at h
      · exact h
      · exact absurd h (lt_irrefl 0)
  | multiClass counts => exact counts.lookup_isSome_iff name

theorem mem_keys_iff : name ∈ index.keys ↔ index.containsName name = true := by
  cases index with
  | inOnly counts => exact lookup_isSome.symm
  | multiClass counts => exact lookup_isSome.symm

/-- A name is found for a class it is counted in, and for class ANY if it is
counted at all. -/
theorem contains_iff (qclass : UInt16) : index.contains name qclass = true ↔
      0 < index.count name qclass ∨ (qclass = 255 ∧ ∃ cls, 0 < index.count name cls) := by
  rw [← containsName_iff]
  cases index with
  | inOnly counts =>
    have hpos : counts.contains name = true ↔ 0 < counts.count name := countOf_pos_iff.symm
    simp only [contains, count, containsName, Bool.and_eq_true, Bool.or_eq_true, beq_iff_eq]
    rw [show (counts.counts.lookup name).isSome = counts.contains name from rfl, hpos]
    by_cases hone : qclass = 1
    · simp only [hone, if_true, true_or, true_and]
      exact ⟨Or.inl, fun h => h.elim id fun hboth => hboth.2⟩
    · simp [hone]
  | multiClass counts =>
    simp only [contains, MultiClassCounts.contains, count, MultiClassCounts.count, containsName,
      MultiClassCounts.classesAt, countOf_pos_iff]
    cases hlook : counts.counts.lookup name with
    | none => simp
    | some classes =>
      simp only [any_some, Bool.or_eq_true, beq_iff_eq, getD_some, isSome_some, and_true]
      exact or_comm

theorem count_insert {cls : UInt16} (hclass : index.isInOnly = true → cls = 1)
    (hbound : index.count name cls < maxCount) (wanted : NameKey) (wantedClass : UInt16) :
    (index.insert name cls).count wanted wantedClass =
      index.count wanted wantedClass + if wanted = name ∧ wantedClass = cls then 1 else 0 := by
  cases index with
  | inOnly counts =>
    obtain rfl := hclass rfl
    rw [insert, if_pos rfl]
    simp only [count, if_true] at hbound ⊢
    rw [counts.count_increment name wanted hbound]
    by_cases hone : wantedClass = 1 <;> simp [hone]
  | multiClass counts =>
    show (counts.insertCount name cls 1).count wanted wantedClass = _
    rw [MultiClassCounts.count, MultiClassCounts.classesAt_insertCount]
    by_cases hname : wanted = name
    · subst hname
      rw [if_pos rfl, lookup_insert_ite]
      by_cases hclass : wantedClass = cls
      · subst hclass
        rw [if_pos rfl, if_pos ⟨rfl, rfl⟩, countOf_some, coe_incremented (by exact hbound)]
        rfl
      · rw [if_neg hclass, if_neg (fun hboth => hclass hboth.2)]
        rfl
    · rw [if_neg hname, if_neg (fun hboth => hname hboth.1)]
      rfl

theorem count_remove {cls : UInt16} (hclass : index.isInOnly = true → cls = 1) (wanted : NameKey)
    (wantedClass : UInt16) : (index.remove name cls).count wanted wantedClass =
      index.count wanted wantedClass - if wanted = name ∧ wantedClass = cls then 1 else 0 := by
  cases index with
  | inOnly counts =>
    obtain rfl := hclass rfl
    simp only [remove, count, counts.count_decrement]
    by_cases hone : wantedClass = 1 <;> simp [hone]
  | multiClass counts => exact counts.count_decrement name cls wanted wantedClass

/-- One change of the index: a name, a class, and whether it is inserted. -/
abbrev Change := NameKey × UInt16 × Bool

def apply (index : NameClassIndex) (change : Change) : NameClassIndex :=
  if change.2.2 then index.insert change.1 change.2.1 else index.remove change.1 change.2.1

def applyAll (index : NameClassIndex) (changes : List Change) : NameClassIndex :=
  changes.foldl apply index

theorem isInOnly_apply (hclass : index.isInOnly = true → change.2.1 = 1) :
    (index.apply change).isInOnly = index.isInOnly := by
  unfold apply
  split <;> cases index with
  | inOnly counts => first | rfl | rw [insert, if_pos (hclass rfl)]; rfl
  | multiClass counts => rfl

variable (changes : List Change)

theorem isInOnly_applyAll (hclass : index.isInOnly = true → ∀ change ∈ changes, change.2.1 = 1) :
    (index.applyAll changes).isInOnly = index.isInOnly :=
  List.foldlRecOn (motive := fun current => current.isInOnly = index.isInOnly) changes apply rfl
    fun current h change hchange =>
      (current.isInOnly_apply change fun hmode => hclass (h ▸ hmode) change hchange).trans h

/-- How often a name is changed for a class. -/
def occurrences (name : NameKey) (cls : UInt16) : ℕ :=
  changes.countP fun change => change.1 = name ∧ change.2.1 = cls

theorem occurrences_map (names : List NameKey) (cls : UInt16) (added : Bool) (name : NameKey)
    (wanted : UInt16) : occurrences (names.map fun other => (other, cls, added)) name wanted =
      if cls = wanted then names.count name else 0 := by
  rw [occurrences, countP_map]
  split
  next hcls => exact countP_congr fun other _ => by simp [hcls]
  next hcls => exact countP_eq_zero.mpr fun other _ => by simp [hcls]

theorem count_apply (hclass : index.isInOnly = true → change.2.1 = 1)
    (hbound : change.2.2 = true → index.count change.1 change.2.1 < maxCount) (name : NameKey)
    (cls : UInt16) :
    (index.apply change).count name cls = if change.2.2 then
      index.count name cls + occurrences [change] name cls
      else index.count name cls - occurrences [change] name cls := by
  have hone : occurrences [change] name cls = if name = change.1 ∧ cls = change.2.1 then 1
  else 0 := by
    simp [occurrences, eq_comm (a := name), eq_comm (a := cls)]
  rw [apply, hone]
  split <;> rename_i hadded
  · exact index.count_insert _ hclass (hbound hadded) name cls
  · exact index.count_remove _ hclass name cls

theorem count_apply_of_ne (hclass : index.isInOnly = true → change.2.1 = 1) {name : NameKey}
    (hname : name ≠ change.1) (cls : UInt16) :
    (index.apply change).count name cls = index.count name cls := by
  unfold apply
  split
  · cases index with
    | inOnly counts =>
      rw [insert, if_pos (hclass rfl)]
      simp [count, InClassCounts.count, InClassCounts.lookup_increment, if_neg hname]
    | multiClass counts =>
      show countOf (((counts.insertCount change.1 change.2.1 1).classesAt name).lookup cls) = _
      rw [MultiClassCounts.classesAt_insertCount, if_neg hname]
      rfl
  · rw [index.count_remove change.1 hclass, if_neg fun hboth => hname hboth.1, Nat.sub_zero]

theorem count_applyAll_of_notMem (hclass : index.isInOnly = true → ∀ change ∈ changes,
      change.2.1 = 1) {name : NameKey}
    (hname : name ∉ changes.map Prod.fst) (cls : UInt16) :
    (index.applyAll changes).count name cls = index.count name cls := by
  refine (List.foldlRecOn (motive := fun current => current.isInOnly = index.isInOnly ∧
    current.count name cls = index.count name cls) changes apply ⟨rfl, rfl⟩ ?_).2
  rintro current ⟨hmode, hcount⟩ change hchange
  have hhead : current.isInOnly = true → change.2.1 = 1 :=
    fun h => hclass (hmode ▸ h) change hchange
  refine ⟨(current.isInOnly_apply change hhead).trans hmode, Eq.trans ?_ hcount⟩
  exact current.count_apply_of_ne change hhead
    (fun h => hname (mem_map.mpr ⟨change, hchange, h.symm⟩)) cls

theorem applyAll_append (first second : List Change) :
    index.applyAll (first ++ second) = (index.applyAll first).applyAll second :=
  foldl_append

/-- A run of insertions adds what it lists, as long as no count saturates; a run of
removals takes it away. -/
theorem count_applyAll {added : Bool} (hadded : ∀ change ∈ changes, change.2.2 = added)
    (hclass : index.isInOnly = true → ∀ change ∈ changes, change.2.1 = 1)
    (hbound : added = true → ∀ name cls, occurrences changes name cls ≠ 0 →
      index.count name cls + occurrences changes name cls ≤ maxCount) (name : NameKey)
    (cls : UInt16) :
    (index.applyAll changes).count name cls = if added then
      index.count name cls + occurrences changes name cls
      else index.count name cls - occurrences changes name cls := by
  induction changes generalizing index with
  | nil => cases added <;> simp [applyAll, occurrences]
  | cons change rest ih =>
    have hflag := hadded change (mem_cons_self ..)
    have hsplit : ∀ wanted wantedClass, occurrences (change :: rest) wanted wantedClass =
        occurrences [change] wanted wantedClass + occurrences rest wanted wantedClass :=
      fun _ _ => by rw [← singleton_append, occurrences, countP_append]; rfl
    simp only [hsplit] at hbound ⊢
    have hself : occurrences [change] change.1 change.2.1 = 1 := by simp [occurrences]
    have hhead :=
      index.count_apply change (fun h => hclass h change (mem_cons_self ..)) fun htrue => by
      have := hbound (hflag ▸ htrue) change.1 change.2.1 (by omega)
      omega
    have hmode := index.isInOnly_apply change fun h => hclass h change (mem_cons_self ..)
    rw [hflag] at hhead
    have htail :=
      ih (index.apply change) (fun other hother => hadded other (mem_cons_of_mem _ hother))
      (fun h other hother => hclass (hmode ▸ h) other (mem_cons_of_mem _ hother))
      (fun htrue wanted wantedClass hne => by
        have := hbound htrue wanted wantedClass (by omega)
        rw [hhead, if_pos htrue]
        omega)
    rw [show index.applyAll (change :: rest) = (index.apply change).applyAll rest from rfl, htail,
      hhead]
    cases added with
    | true => exact Nat.add_assoc _ _ _
    | false => exact Nat.sub_sub _ _ _

/-- The changes at some names, all of one class. -/
theorem count_applyAll_map (names : List NameKey) (cls : UInt16) (added : Bool)
    (hclass : index.isInOnly = true → cls = 1)
    (hbound : added = true → ∀ name, names.count name ≠ 0 →
      index.count name cls + names.count name ≤ maxCount)
    (name : NameKey) (wanted : UInt16) :
    (index.applyAll (names.map fun other => (other, cls, added))).count name wanted =
      if added then index.count name wanted + if cls = wanted then names.count name else 0
      else index.count name wanted - if cls = wanted then names.count name else 0 := by
  have hchanges : ∀ change ∈ names.map fun other => (other, cls, added), change.2.2 = added ∧
      change.2.1 = cls := by
    intro change hchange
    obtain ⟨other, -, rfl⟩ := mem_map.mp hchange
    exact ⟨rfl, rfl⟩
  rw [count_applyAll index _ (fun change h => (hchanges change h).1)
    (fun hmode change h => (hchanges change h).2.trans (hclass hmode)), occurrences_map]
  intro hadded other otherClass hne
  rw [occurrences_map] at hne ⊢
  split at hne
  next hsame =>
    rw [if_pos hsame, ← hsame]
    exact hbound hadded other hne
  · exact absurd rfl hne

end NameClassIndex

end BoronDns
