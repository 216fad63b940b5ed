import BoronDns.DenialChain
import BoronDns.Lib.ClosedChain
import BoronDns.Lib.ListCompare
import Mathlib.Data.List.Rotate

/-!
The canonical order of names. Snapshot and image store one key for a name, its
lowercased labels from the root down, each behind its length octet. The image reads
the labels back out of two keys and compares them one by one; the snapshot compares
the keys as octet strings, so that of two labels the shorter one comes first. The
orders agree on two names exactly when the first labels that differ do not tell them
apart, and a chain of NSEC records in canonical order is found whole when they agree
on its owners.
-/

namespace BoronDns

open ListCompare StableSort ZoneImageBuilder List RecordType

def cmpOctets : List UInt8 → List UInt8 → Ordering :=
  compareLists fun left right => compare left.toNat right.toNat

def cmpLabels : List Label → List Label → Ordering := compareLists cmpOctets

variable (storedLowercase queryLabel : Label)

def cmpLowercaseLabelWithAsciiLowercaseHint
    (queryLabelAsciiLowercase : Bool) : Ordering :=
  cmpOctets storedLowercase (if queryLabelAsciiLowercase then queryLabel else lowerLabel queryLabel)

def cmpLowercaseLabel : Ordering :=
  cmpLowercaseLabelWithAsciiLowercaseHint storedLowercase queryLabel false

/-- The label at the front of a key, and the key behind it. -/
def nextCanonicalOrderWireLabel (key : List UInt8) : Option (Label × List UInt8) :=
  match key with
  | [] => none
  | len :: rest =>
    if len = 0 ∨ rest.length < len.toNat then
      none
    else
      some (rest.take len.toNat, rest.drop len.toNat)

theorem length_of_nextCanonicalOrderWireLabel {key rest : List UInt8} {label : Label}
    (h : nextCanonicalOrderWireLabel key = some (label, rest)) : rest.length < key.length := by
  cases key with
  | nil => exact absurd h (by simp [nextCanonicalOrderWireLabel])
  | cons len tail =>
    rw [nextCanonicalOrderWireLabel] at h
    split at h
    · cases h
    · obtain ⟨-, rfl⟩ := Prod.mk.inj (Option.some.inj h)
      rw [length_drop, length_cons]
      omega

def cmpCanonicalOrderKeyWires (left right : List UInt8) : Ordering :=
  match _h : nextCanonicalOrderWireLabel left, nextCanonicalOrderWireLabel right with
  | some (leftLabel, leftRest), some (rightLabel, rightRest) =>
    (cmpLowercaseLabel leftLabel rightLabel).then (cmpCanonicalOrderKeyWires leftRest rightRest)
  | some _, none => .gt
  | none, some _ => .lt
  | none, none => .eq
  termination_by left.length
  decreasing_by exact length_of_nextCanonicalOrderWireLabel ‹_›

/-- A key against the labels of a name, from the root down. -/
def cmpWireKeyToLabels (asciiLowercase : Bool) (key : List UInt8) : List Label → Ordering
  | [] =>
    match nextCanonicalOrderWireLabel key with
    | some _ => .gt
    | none => .eq
  | label :: labels =>
    match nextCanonicalOrderWireLabel key with
    | some (stored, rest) =>
      (cmpLowercaseLabelWithAsciiLowercaseHint stored label asciiLowercase).then
        (cmpWireKeyToLabels asciiLowercase rest labels)
    | none => .lt

/-- `cmp_canonical_order_wire_key_to_label_view`: the label in front comes last. -/
def cmpCanonicalOrderWireKeyToLabelView (key : List UInt8) (view : NameLabelView) : Ordering :=
  cmpWireKeyToLabels view.asciiLowercase key (view.labels.reverse ++ view.front.toList)

variable (labels : List Label)

/-- The key of lowercased labels, from the root down. -/
def orderKeyWire : List UInt8 := reverseKey labels ++ [0]

/-- Labels as they stand in a key. -/
def StoredLabels : Prop :=
  ∀ label ∈ labels, (0 < label.length ∧ label.length ≤ 63) ∧ lowerLabel label = label

theorem storedLabels_lowerLabels (name : DomainName) : StoredLabels name.lowerLabels.reverse := by
  intro label hlabel
  have hmem := mem_reverse.mp hlabel
  obtain ⟨original, -, rfl⟩ := mem_map.mp hmem
  exact ⟨name.lowerLabels_valid _ hmem, lowerLabel_idem original⟩

theorem nextCanonicalOrderWireLabel_nil : nextCanonicalOrderWireLabel (orderKeyWire []) = none :=
  rfl

theorem nextCanonicalOrderWireLabel_cons {label : Label} (h : 0 < label.length ∧ label.length ≤ 63)
    (labels : List Label) :
    nextCanonicalOrderWireLabel (orderKeyWire (label :: labels)) = some
      (label, orderKeyWire labels) := by
  have hlen := toNat_ofNat_length h.2
  have hne : UInt8.ofNat label.length ≠ 0 := by
    intro hzero
    rw [hzero] at hlen
    exact absurd hlen (by simpa using (Nat.ne_of_gt h.1).symm)
  have hkey : orderKeyWire (label :: labels) = UInt8.ofNat label.length ::
      (label ++ orderKeyWire labels) := by
    simp [orderKeyWire, reverseKey, reverseKeyLabel]
  rw [hkey, nextCanonicalOrderWireLabel, if_neg (by simp [hne, hlen]), hlen, take_left, drop_left]

/-- The image compares the labels, from the root down. -/
theorem cmpCanonicalOrderKeyWires_orderKeyWire {left right : List Label} (hleft : StoredLabels left)
    (hright : StoredLabels right) :
    cmpCanonicalOrderKeyWires (orderKeyWire left) (orderKeyWire right) = cmpLabels left right := by
  induction left generalizing right with
  | nil =>
    rw [cmpCanonicalOrderKeyWires]
    cases right with
    | nil => simp [nextCanonicalOrderWireLabel_nil, cmpLabels, compareLists]
    | cons other others =>
      simp [nextCanonicalOrderWireLabel_nil,
        nextCanonicalOrderWireLabel_cons (hright other (mem_cons_self ..)).1,
        cmpLabels, compareLists]
  | cons label rest ih =>
    have hlabel := nextCanonicalOrderWireLabel_cons (hleft label (mem_cons_self ..)).1 rest
    cases right with
    | nil =>
      rw [cmpCanonicalOrderKeyWires]
      split <;> simp_all [nextCanonicalOrderWireLabel_nil, cmpLabels, compareLists]
    | cons other others =>
      have hother := hright other (mem_cons_self ..)
      have hrest :=
        ih (fun l h => hleft l (mem_cons_of_mem _ h)) (fun l h => hright l (mem_cons_of_mem _ h))
      rw [cmpCanonicalOrderKeyWires]
      split <;> simp_all [nextCanonicalOrderWireLabel_cons hother.1 others, cmpLowercaseLabel,
        cmpLowercaseLabelWithAsciiLowercaseHint, cmpLabels, compareLists]

/-- A key against a name, as the searches compare them. -/
theorem cmpWireKeyToLabels_orderKeyWire {stored : List Label} (hstored : StoredLabels stored)
    (asciiLowercase : Bool) (labels : List Label) :
    cmpWireKeyToLabels asciiLowercase (orderKeyWire stored) labels =
      cmpLabels stored
        (labels.map fun label => if asciiLowercase then label else lowerLabel label) := by
  induction labels generalizing stored with
  | nil =>
    cases stored with
    | nil => rfl
    | cons label rest =>
      rw [cmpWireKeyToLabels, nextCanonicalOrderWireLabel_cons (hstored label (mem_cons_self ..)).1]
      rfl
  | cons query queries ih =>
    cases stored with
    | nil => rfl
    | cons label rest =>
      rw [cmpWireKeyToLabels, nextCanonicalOrderWireLabel_cons (hstored label (mem_cons_self ..)).1]
      dsimp only
      rw [ih fun l h => hstored l (mem_cons_of_mem _ h)]
      rfl

section Octets

variable {left right : List UInt8}

theorem lawful_octet : Lawful (α := ℕ) compare :=
  ⟨fun _ _ => Nat.compare_eq_lt, fun _ _ => Nat.compare_eq_gt, fun _ _ => Nat.compare_eq_eq⟩

theorem cmpOctets_eq (left right : List UInt8) :
    cmpOctets left right = compareLists compare (octets left) (octets right) := by
  induction left generalizing right with
  | nil => cases right <;> rfl
  | cons a left ih =>
    cases right with
    | nil => rfl
    | cons b right => exact congrArg _ (ih right)

theorem cmpOctets_eq_lt : cmpOctets left right = .lt ↔ octets left < octets right := by
  rw [cmpOctets_eq]
  exact lawful_octet.lists.lt_iff _ _

theorem cmpOctets_eq_gt : cmpOctets left right = .gt ↔ octets right < octets left := by
  rw [cmpOctets_eq]
  exact lawful_octet.lists.gt_iff _ _

theorem cmpOctets_eq_eq : cmpOctets left right = .eq ↔ left = right := by
  rw [cmpOctets_eq, lawful_octet.lists.eq_iff]
  exact ⟨DenialIndexes.octets_inj, congrArg octets⟩

@[simp] theorem cmpOctets_self (bytes : List UInt8) : cmpOctets bytes bytes = .eq :=
  cmpOctets_eq_eq.mpr rfl

end Octets

namespace DenialIndexes

theorem canonicalOrderKey_eq_orderKeyWire (name : DomainName) :
    canonicalOrderKey name = orderKeyWire name.lowerLabels.reverse := canonicalOrderKey_eq name

section Chain

variable {rrsets : List Rrset} {cls : UInt16}

/-- The order of RFC 4034: the lowercased labels from the root down. -/
def canonicalCompare (left right : DomainName) :
    Ordering := cmpLabels left.lowerLabels.reverse right.lowerLabels.reverse

def nsecRrsets (rrsets : List Rrset) (cls : UInt16) : List Rrset :=
  rrsets.filter fun rrset => rrset.rrType = nsec ∧ rrset.cls = cls

/-- The records of the RRset name the other owner as the next. -/
def NamesNext (rrset next : Rrset) : Prop :=
  rrset.rdatas ≠ [] ∧ ∀ rdata ∈ rrset.rdatas, ∃ name length,
    DomainName.parse rdata 0 = .ok (name, length) ∧ name.lowerLabels = next.owner.lowerLabels

/-- The NSEC RRsets of a class as one chain in canonical order: each names the one after it and the
last one the first. -/
structure CompleteNsecChain (rrsets : List Rrset) (cls : UInt16) (chain : List Rrset) : Prop where
  perm : chain.Perm (nsecRrsets rrsets cls)
  ascending : chain.Pairwise fun left right => canonicalCompare left.owner right.owner = .lt
  links : ∀ pair ∈ chain.zip (chain.rotate 1), NamesNext pair.1 pair.2

theorem cmpLabels_self : cmpLabels labels labels = .eq := by
  induction labels with
  | nil => rfl
  | cons label rest ih =>
    show (cmpOctets label label).then _ = _
    rw [cmpOctets_self]
    exact ih

theorem cmpCanonicalOrderKeyWires_canonicalOrderKey (left right : DomainName) :
    cmpCanonicalOrderKeyWires (canonicalOrderKey left) (canonicalOrderKey right) =
      canonicalCompare left right := by
  rw [canonicalOrderKey_eq_orderKeyWire, canonicalOrderKey_eq_orderKeyWire]
  exact cmpCanonicalOrderKeyWires_orderKeyWire (storedLabels_lowerLabels left)
    (storedLabels_lowerLabels right)

/-- The owners of a chain have different keys. -/
theorem CompleteNsecChain.keys_nodup {chain : List Rrset} (h : CompleteNsecChain rrsets cls chain) :
    (chain.map fun rrset => (nsecEntry rrset).1).Nodup := by
  refine pairwise_map.mpr (h.ascending.imp fun {left right} hlt hsame => ?_)
  rw [← cmpCanonicalOrderKeyWires_canonicalOrderKey, ← octets_inj hsame,
    cmpCanonicalOrderKeyWires_canonicalOrderKey, canonicalCompare, cmpLabels_self] at hlt
  cases hlt

end Chain

/-- A zone `m.` with the names `aa.m.` and `b.m.` -/
def orderSampleApex : DomainName := ⟨[[109]], by decide⟩

def orderSampleLong : DomainName := ⟨[[97, 97], [109]], by decide⟩

def orderSampleShort : DomainName := ⟨[[98], [109]], by decide⟩

/-- An NSEC RRset with one record, for NS alone. -/
def nsecRrset (owner next : DomainName) :
    Rrset := ⟨owner, nsec, 1, 300, [next.toWire ++ [0, 1, 32]]⟩

end DenialIndexes

end BoronDns
