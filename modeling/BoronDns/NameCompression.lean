import BoronDns.Lib.PrefixCode
import BoronDns.NameWire

/-!
The name compressor of the response writer. It remembers, for every suffix it
has written at an offset a pointer can reach, the lowercased wire form of the
suffix and that offset. A name is written as its labels up to the first suffix
that is already remembered, followed by a pointer to it. Writing keeps the
invariant that at every remembered offset the message holds the remembered
name, so what is written reads back as the name up to the case of its letters.
-/

namespace BoronDns

open Bytes List

variable {labels : List Label} {label : Label}

structure WireSuffixOffset where
  key : List UInt8
  offset : UInt16
  deriving DecidableEq

structure WireNameCompressor where
  suffixOffsets : List WireSuffixOffset

def isAsciiUppercase (byte : UInt8) : Bool := decide (65 ≤ byte ∧ byte ≤ 90)

/-- The lowercased wire form of a name given in wire form. -/
def wireSuffixSmallKey : List UInt8 → List UInt8
  | [] => []
  | len :: rest =>
    if len = 0 then
      [len]
    else
      let label := rest.take len.toNat
      len :: (if label.any isAsciiUppercase then label.map toAsciiLowercase else label) ++
        wireSuffixSmallKey (rest.drop len.toNat)
  termination_by wire => wire.length
  decreasing_by simp only [length_drop, length_cons]; omega

def labelSuffixSmallKey (labels : List Label) (labelsAreAsciiLowercase : Bool) : List UInt8 :=
  (if labelsAreAsciiLowercase then labelsWire labels else labelsWire (labels.map lowerLabel)) ++ [0]

def wireLabelMatchesKey (label canonicalKeyLabel : List UInt8) : Bool :=
  label == canonicalKeyLabel || eqIgnoreAsciiCase label canonicalKeyLabel

/-- The label-by-label comparison of `wire_suffix_matches_key`; its two cursors
are the two lists still to be compared. -/
def wireSuffixMatchesKeyLoop : List UInt8 → List UInt8 → Bool
  | [], _ => false
  | _ :: _, [] => false
  | suffixLen :: suffix, keyLen :: key =>
    if suffixLen ≠ keyLen then
      false
    else if suffixLen = 0 then
      suffix.isEmpty && key.isEmpty
    else if suffix.length < suffixLen.toNat ∨ key.length < suffixLen.toNat then
      false
    else if wireLabelMatchesKey (suffix.take suffixLen.toNat) (key.take suffixLen.toNat) then
      wireSuffixMatchesKeyLoop (suffix.drop suffixLen.toNat) (key.drop suffixLen.toNat)
    else
      false
  termination_by suffix => suffix.length
  decreasing_by simp only [length_drop, length_cons]; omega

def wireSuffixMatchesKey (wireSuffix key : List UInt8) : Bool :=
  wireSuffix == key || wireSuffixMatchesKeyLoop wireSuffix key

/-- `(0xc000 | offset).to_be_bytes()`. -/
def pointerBytes (offset : UInt16) : List UInt8 := be16 (0xc000 ||| offset)

namespace WireNameCompressor

def empty : WireNameCompressor := ⟨[]⟩

variable (compressor : WireNameCompressor)

def push (key : List UInt8) (offset : ℕ) : WireNameCompressor :=
  ⟨compressor.suffixOffsets ++ [⟨key, UInt16.ofNat offset⟩]⟩

def registerNameLabelsAtOffset (compressor : WireNameCompressor) (labels : List Label)
    (nameWireLen : ℕ) (labelsAreAsciiLowercase : Bool) (startOffset : ℕ) : WireNameCompressor :=
  match labels with
  | [] => compressor
  | label :: rest =>
    let compressor :=
      if startOffset ≤ 0x3fff ∧ 2 < nameWireLen then
        compressor.push (labelSuffixSmallKey (label :: rest) labelsAreAsciiLowercase) startOffset
      else
        compressor
    compressor.registerNameLabelsAtOffset rest (nameWireLen - (1 + label.length))
      labelsAreAsciiLowercase (startOffset + (1 + label.length))

def wireSuffixOffset (wireSuffix : List UInt8) : Option UInt16 :=
  (compressor.suffixOffsets.find? fun entry => wireSuffixMatchesKey wireSuffix entry.key).map
    WireSuffixOffset.offset

def wireNameWritePlanLoop (compressor : WireNameCompressor) (wireName : List UInt8)
    (checkFullSuffix : Bool) (cursor : ℕ) (pointerSuffix : Option (ℕ × UInt16)) :
    Option (ℕ × Option (ℕ × UInt16)) :=
  match wireName[cursor]? with
  | none => none
  | some len =>
    if len &&& 0xc0 ≠ 0 ∨ 63 < len.toNat then
      none
    else if len = 0 then
      if cursor + 1 ≠ wireName.length then
        none
      else
        some (pointerSuffix.elim cursor Prod.fst, pointerSuffix)
    else
      let pointerSuffix :=
        if (cursor ≠ 0 ∨ checkFullSuffix) ∧ pointerSuffix = none ∧
            2 < wireName.length - cursor then
          (compressor.wireSuffixOffset (wireName.drop cursor)).map fun offset => (cursor, offset)
        else
          pointerSuffix
      if hend : wireName.length ≤ cursor + 1 + len.toNat then
        none
      else
        wireNameWritePlanLoop compressor wireName checkFullSuffix (cursor + 1 + len.toNat)
          pointerSuffix
  termination_by wireName.length - cursor
  decreasing_by omega

/-- How much of the name is written out, and the suffix the pointer behind it
names. A name that is not well formed has no plan. -/
def wireNameWritePlan (wireName : List UInt8) (checkFullSuffix : Bool) :
    Option (ℕ × Option (ℕ × UInt16)) :=
  compressor.wireNameWritePlanLoop wireName checkFullSuffix 0 none

def registerPrePointerWireSuffixes (compressor : WireNameCompressor) (wireName : List UInt8)
    (writeEnd responseStart cursor : ℕ) : WireNameCompressor :=
  if cursor < writeEnd then
    let compressor :=
      if responseStart + cursor ≤ 0x3fff ∧ 2 < wireName.length - cursor then
        compressor.push (wireSuffixSmallKey (wireName.drop cursor)) (responseStart + cursor)
      else
        compressor
    compressor.registerPrePointerWireSuffixes wireName writeEnd responseStart
      (cursor + (1 + (wireName.getD cursor 0).toNat))
  else
    compressor
  termination_by writeEnd - cursor

def writeWireName (wireName response : List UInt8) : WireNameCompressor × List UInt8 :=
  match if 2 < wireName.length then compressor.wireSuffixOffset wireName else none with
  | some offset => (compressor, response ++ pointerBytes offset)
  | none =>
    match compressor.wireNameWritePlan wireName false with
    | none => (compressor, response ++ wireName)
    | some (writeEnd, pointerSuffix) =>
      (compressor.registerPrePointerWireSuffixes wireName writeEnd response.length 0,
        response ++ wireName.take writeEnd ++ match pointerSuffix with
          | some (_, offset) => pointerBytes offset
          | none => [0])

end WireNameCompressor

open PrefixCode

theorem labelWire_selfDelimiting :
    SelfDelimiting (fun label : Label => 0 < label.length ∧ label.length ≤ 63) labelWire := by
  intro a b ha hb x y h
  simp only [labelWire, cons_append, List.cons.injEq] at h
  have hlen : a.length = b.length := by
    have := congrArg UInt8.toNat h.1
    rwa [toNat_ofNat_length ha.2, toNat_ofNat_length hb.2] at this
  exact append_inj h.2 hlen

theorem ofNat_length_ne_zero (h : 0 < label.length ∧ label.length ≤ 63) :
    UInt8.ofNat label.length ≠ 0 := by
  intro h0
  have hzero := congrArg UInt8.toNat h0
  rw [toNat_ofNat_length h.2, UInt8.toNat_zero] at hzero
  omega

theorem nameWire_selfDelimiting :
    SelfDelimiting ValidLabels (fun labels => labelsWire labels ++ [0]) :=
  labelWire_selfDelimiting.terminated 0 fun label h => ⟨UInt8.ofNat label.length, label, rfl,
    ofNat_length_ne_zero h⟩

theorem ValidLabels.cons (h : ValidLabels (label :: labels)) :
    (0 < label.length ∧ label.length ≤ 63) ∧ ValidLabels labels :=
  ⟨h label (mem_cons_self ..), fun other hother => h other (mem_cons_of_mem _ hother)⟩

theorem ValidLabels.map_lowerLabel (h : ValidLabels labels) :
    ValidLabels (labels.map lowerLabel) := by
  intro label hlabel
  obtain ⟨original, horiginal, rfl⟩ := mem_map.mp hlabel
  simpa using h original horiginal

theorem ValidLabels.of_map_lowerLabel_eq {left right : List Label} (h : ValidLabels left)
    (heq : left.map lowerLabel = right.map lowerLabel) : ValidLabels right := by
  intro label hlabel
  have hmem : lowerLabel label ∈ left.map lowerLabel := heq ▸ mem_map_of_mem hlabel
  obtain ⟨original, horiginal, hlower⟩ := mem_map.mp hmem
  have hlen := congrArg List.length hlower
  simp only [length_lowerLabel] at hlen
  rw [← hlen]
  exact h original horiginal

theorem length_labelsWire_map_lowerLabel (labels : List Label) :
    (labelsWire (labels.map lowerLabel)).length = (labelsWire labels).length := by
  induction labels with
  | nil => rfl
  | cons label rest ih => simp [ih]

theorem map_toAsciiLowercase_of_not_any (h : label.any isAsciiUppercase = false) :
    label.map toAsciiLowercase = label := by
  induction label with
  | nil => rfl
  | cons byte rest ih =>
    simp only [any_cons, Bool.or_eq_false_iff] at h
    have hbyte : toAsciiLowercase byte = byte := by
      simp only [isAsciiUppercase, decide_eq_false_iff_not] at h
      simp [toAsciiLowercase, h.1]
    simp [hbyte, ih h.2]

theorem wireSuffixSmallKey_nameWire (h : ValidLabels labels) :
    wireSuffixSmallKey (labelsWire labels ++ [0]) = labelsWire (labels.map lowerLabel) ++ [0] := by
  induction labels with
  | nil => simp [wireSuffixSmallKey]
  | cons label rest ih =>
    obtain ⟨hlabel, hrest⟩ := h.cons
    have hlower : (if label.any isAsciiUppercase then label.map toAsciiLowercase else label) =
        lowerLabel label := by
      split
      · rfl
      next hplain => exact (map_toAsciiLowercase_of_not_any (by simpa using hplain)).symm
    rw [labelsWire_cons, labelWire, cons_append, cons_append, append_assoc,
      wireSuffixSmallKey, if_neg (ofNat_length_ne_zero hlabel), toNat_ofNat_length hlabel.2]
    simp only [take_left, drop_left, hlower, ih hrest]
    simp [labelWire]

theorem wireLabelMatchesKey_iff (label key : Label) :
    wireLabelMatchesKey label key = true ↔ lowerLabel label = lowerLabel key := by
  simp only [wireLabelMatchesKey, Bool.or_eq_true, beq_iff_eq, eqIgnoreAsciiCase_iff]
  constructor
  · rintro (rfl | h)
    · rfl
    · exact h
  · exact Or.inr

variable {keyLabels : List Label}

theorem lower_eq_of_matchesKeyLoop (hlabels : ValidLabels labels)
    (hkey : ValidLabels keyLabels)
    (h : wireSuffixMatchesKeyLoop (labelsWire labels ++ [0]) (labelsWire keyLabels ++ [0]) = true) :
    labels.map lowerLabel = keyLabels.map lowerLabel := by
  induction labels generalizing keyLabels with
  | nil =>
    cases keyLabels with
    | nil => rfl
    | cons key rest =>
      obtain ⟨hlen, -⟩ := hkey.cons
      have hne := ofNat_length_ne_zero hlen
      simp [labelWire, wireSuffixMatchesKeyLoop, hne.symm] at h
  | cons label rest ih =>
    obtain ⟨hlabel, hrest⟩ := hlabels.cons
    have hne := ofNat_length_ne_zero hlabel
    cases keyLabels with
    | nil => simp [labelWire, wireSuffixMatchesKeyLoop, hne] at h
    | cons key keys =>
      obtain ⟨hlen, hkeys⟩ := hkey.cons
      simp only [labelsWire_cons, labelWire, cons_append, append_assoc] at h
      rw [wireSuffixMatchesKeyLoop] at h
      split at h
      · simp at h
      rename_i hsame
      have hlength : label.length = key.length := by
        have := congrArg UInt8.toNat (not_not.mp hsame)
        rwa [toNat_ofNat_length hlabel.2, toNat_ofNat_length hlen.2] at this
      rw [toNat_ofNat_length hlabel.2] at h
      split at h
      · simp at h
      split at h
      next hmatch =>
        rw [take_left, hlength, take_left, wireLabelMatchesKey_iff] at hmatch
        rw [drop_left, hlength, drop_left] at h
        simp [hmatch, ih hrest hkeys h]
      · simp at h

/-- A remembered key matches a well-formed name only if they are one name up to
the case of their letters. -/
theorem lower_eq_of_matchesKey (hlabels : ValidLabels labels) (hkey : ValidLabels keyLabels)
    (h : wireSuffixMatchesKey (labelsWire labels ++ [0]) (labelsWire keyLabels ++ [0]) = true) :
    labels.map lowerLabel = keyLabels.map lowerLabel := by
  simp only [wireSuffixMatchesKey, Bool.or_eq_true, beq_iff_eq] at h
  rcases h with h | h
  · have hsame := nameWire_selfDelimiting labels keyLabels hlabels hkey [] []
      (by simpa using h)
    rw [hsame.1]
  · exact lower_eq_of_matchesKeyLoop hlabels hkey h

end BoronDns
