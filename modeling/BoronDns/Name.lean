import Mathlib.Data.List.Basic
import Mathlib.Data.List.Infix
import Mathlib.Data.UInt
import Mathlib.Tactic.Common

/-!
Domain names as the server stores them: a list of labels, each of one to 63
octets, compared without regard to ASCII case. The textual canonical key names
an owner in every hash map of the zone store; it escapes the octets that would
make the text ambiguous, and two names have one key exactly when their
lowercased labels are equal.
-/

namespace BoronDns

open List

def toAsciiLowercase (byte : UInt8) : UInt8 :=
  if 65 ≤ byte ∧ byte ≤ 90 then byte + 32 else byte

theorem toAsciiLowercase_idem (byte : UInt8) :
    toAsciiLowercase (toAsciiLowercase byte) = toAsciiLowercase byte := by
  simp only [toAsciiLowercase]
  by_cases h : 65 ≤ byte ∧ byte ≤ 90
  · have hsum : (byte + 32).toNat = byte.toNat + 32 := by
      have := UInt8.le_iff_toNat_le.mp h.2
      simp only [UInt8.toNat_add, UInt8.reduceToNat] at this ⊢
      omega
    have hout : ¬ (65 ≤ byte + 32 ∧ byte + 32 ≤ 90) := by
      rintro ⟨-, hle⟩
      have hlow := UInt8.le_iff_toNat_le.mp h.1
      rw [UInt8.le_iff_toNat_le, hsum] at hle
      simp only [UInt8.reduceToNat] at hlow hle
      omega
    simp [h, hout]
  · simp [h]

abbrev Label := List UInt8

variable (label : Label)

def lowerLabel : Label := label.map toAsciiLowercase

@[simp] theorem length_lowerLabel : (lowerLabel label).length = label.length := by
  simp [lowerLabel]

@[simp] theorem lowerLabel_idem : lowerLabel (lowerLabel label) = lowerLabel label := by
  simp [lowerLabel, Function.comp_def, toAsciiLowercase_idem]

/-- `<[u8]>::eq_ignore_ascii_case`. -/
def eqIgnoreAsciiCase (left right : Label) : Bool :=
  lowerLabel left == lowerLabel right

@[simp] theorem eqIgnoreAsciiCase_iff (left right : Label) :
    eqIgnoreAsciiCase left right = true ↔ lowerLabel left = lowerLabel right := by
  simp [eqIgnoreAsciiCase]

/-- Every constructor of the source reads labels of one to 63 octets; the
bound on the whole name is not kept by `wildcard_child`, so it is not part of
the type. -/
structure DomainName where
  labels : List Label
  labels_valid : ∀ label ∈ labels, 0 < label.length ∧ label.length ≤ 63
  deriving DecidableEq

namespace DomainName

@[ext] theorem ext {a b : DomainName} (h : a.labels = b.labels) : a = b := by
  cases a
  cases b
  simpa using h

def root : DomainName := ⟨[], by simp⟩

variable (name : DomainName)

def labelCount : ℕ := name.labels.length

def isEqualOrSubdomainOf (name zone : DomainName) : Bool :=
  if name.labels.length < zone.labels.length then
    false
  else
    ((name.labels.drop (name.labels.length - zone.labels.length)).zip zone.labels).all
      fun pair => eqIgnoreAsciiCase pair.1 pair.2

def parent : Option DomainName :=
  match name with
  | ⟨[], _⟩ => none
  | ⟨_ :: rest, valid⟩ => some ⟨rest, fun label h => valid label (mem_cons_of_mem _ h)⟩

def toAsciiLowercased : DomainName :=
  ⟨name.labels.map lowerLabel, by
    intro label h
    obtain ⟨original, horiginal, rfl⟩ := mem_map.mp h
    simpa using name.labels_valid original horiginal⟩

def wireLen : ℕ :=
  (name.labels.map fun label => 1 + label.length).sum + 1

/-- `with_replaced_suffix`: the labels in front of `suffix` are kept, in the
case they have, and the result must fit in 255 octets. -/
def withReplacedSuffix (name suffix replacement : DomainName) : Option DomainName :=
  if name.isEqualOrSubdomainOf suffix then
    let result : DomainName :=
      ⟨name.labels.take (name.labels.length - suffix.labels.length) ++ replacement.labels, by
        intro label h
        rcases mem_append.mp h with h | h
        · exact name.labels_valid label (mem_of_mem_take h)
        · exact replacement.labels_valid label h⟩
    if 255 < result.wireLen then none else some result
  else
    none

def lowerLabels : List Label := name.labels.map lowerLabel

@[simp] theorem length_lowerLabels : name.lowerLabels.length = name.labelCount := by
  simp [lowerLabels, labelCount]

theorem lowerLabels_valid : ∀ label ∈ name.lowerLabels, 0 < label.length ∧ label.length ≤ 63 :=
  name.toAsciiLowercased.labels_valid

theorem reversed_length_le : ∀ label ∈ name.lowerLabels.reverse, label.length ≤ 63 :=
  fun label h => (name.lowerLabels_valid label (mem_reverse.mp h)).2

@[simp] theorem toAsciiLowercased_lowerLabels :
    name.toAsciiLowercased.lowerLabels = name.lowerLabels := by
  simp [toAsciiLowercased, lowerLabels, Function.comp_def]

theorem zip_all_eqIgnoreAsciiCase (left right : List Label) (h : left.length = right.length) :
    ((left.zip right).all fun pair => eqIgnoreAsciiCase pair.1 pair.2) = true ↔
      left.map lowerLabel = right.map lowerLabel := by
  induction left generalizing right with
  | nil =>
    cases right with
    | nil => simp
    | cons r rs => simp at h
  | cons l ls ih =>
    cases right with
    | nil => simp at h
    | cons r rs =>
      have hlen : ls.length = rs.length := by simpa using h
      simp [ih rs hlen]

/-- Being at or below a zone is being a suffix once both are lowercased. -/
theorem isEqualOrSubdomainOf_iff (zone : DomainName) :
    name.isEqualOrSubdomainOf zone = true ↔ zone.lowerLabels <:+ name.lowerLabels := by
  unfold isEqualOrSubdomainOf
  split
  next hlen =>
    constructor
    · intro h
      simp at h
    · intro h
      have := h.length_le
      simp only [length_lowerLabels, labelCount] at this
      omega
  next hlen =>
    have hdrop : (name.labels.drop (name.labels.length - zone.labels.length)).length =
        zone.labels.length := by
      rw [length_drop]
      omega
    rw [zip_all_eqIgnoreAsciiCase _ _ hdrop, suffix_iff_eq_drop, map_drop]
    simp only [length_lowerLabels, labelCount]
    exact eq_comm

end DomainName

end BoronDns
