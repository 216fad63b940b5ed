import BoronDns.Lib.PrefixCode
import BoronDns.Name

/-!
The two keys of a name. `canonicalKey` is the escaped, lowercased text under
which owners and origins are hashed; `canonicalReverseLabelKey` lists the
lowercased labels from the root down, each behind its length octet, so that the
key of an ancestor is a prefix of the key of its descendants.
-/

namespace BoronDns

open PrefixCode List

abbrev NameKey := List UInt8

variable (byte : UInt8)

def needsEscape : Bool :=
  byte == 92 || byte == 46 || byte ≤ 0x20 || 0x7f ≤ byte

/-- An octet of a key: itself, or a backslash and three decimal digits. -/
def escapeByte : List UInt8 :=
  if needsEscape byte then
    [92, 48 + byte / 100, 48 + byte / 10 % 10, 48 + byte % 10]
  else
    [byte]

variable (labels : List Label)

def canonicalNameKeyFromLabels : NameKey :=
  let key := labels.flatMap fun label => (lowerLabel label).flatMap escapeByte ++ [46]
  if key.isEmpty then [46] else key

variable (name : DomainName)

def DomainName.canonicalKey : NameKey :=
  canonicalNameKeyFromLabels name.labels

private theorem digits_inj {a b : UInt8} (h1 : 48 + a / 100 = 48 + b / 100)
    (h2 : 48 + a / 10 % 10 = 48 + b / 10 % 10) (h3 : 48 + a % 10 = 48 + b % 10) : a = b := by
  have e1 := congrArg UInt8.toNat h1
  have e2 := congrArg UInt8.toNat h2
  have e3 := congrArg UInt8.toNat h3
  simp only [UInt8.toNat_add, UInt8.toNat_div, UInt8.toNat_mod, UInt8.reduceToNat] at e1 e2 e3
  have ha := a.toNat_lt
  have hb := b.toNat_lt
  apply UInt8.toNat_inj.mp
  omega

theorem escapeByte_of_needsEscape {byte : UInt8} (h : needsEscape byte = true) :
    escapeByte byte = [92, 48 + byte / 100, 48 + byte / 10 % 10, 48 + byte % 10] := by
  simp [escapeByte, h]

theorem escapeByte_of_plain {byte : UInt8} (h : ¬ needsEscape byte = true) :
    escapeByte byte = [byte] := by
  simp [escapeByte, h]

theorem escapeByte_selfDelimiting : SelfDelimiting (fun _ : UInt8 => True) escapeByte := by
  intro a b _ _ x y h
  by_cases ha : needsEscape a = true <;> by_cases hb : needsEscape b = true
  · rw [escapeByte_of_needsEscape ha, escapeByte_of_needsEscape hb] at h
    simp only [cons_append, nil_append, List.cons.injEq] at h
    exact ⟨digits_inj h.2.1 h.2.2.1 h.2.2.2.1, h.2.2.2.2⟩
  · rw [escapeByte_of_needsEscape ha, escapeByte_of_plain hb] at h
    simp only [cons_append, nil_append, List.cons.injEq] at h
    rw [← h.1] at hb
    exact absurd rfl hb
  · rw [escapeByte_of_plain ha, escapeByte_of_needsEscape hb] at h
    simp only [cons_append, nil_append, List.cons.injEq] at h
    rw [h.1] at ha
    exact absurd rfl ha
  · rw [escapeByte_of_plain ha, escapeByte_of_plain hb] at h
    simpa using h

theorem escapeByte_head_ne_dot : ∃ b rest, escapeByte byte = b :: rest ∧ b ≠ 46 := by
  by_cases h : needsEscape byte = true
  · exact ⟨92, _, escapeByte_of_needsEscape h, by decide⟩
  · refine ⟨byte, [], escapeByte_of_plain h, ?_⟩
    rintro rfl
    exact h rfl

variable (label : Label)

def labelText : List UInt8 := label.flatMap escapeByte ++ [46]

theorem labelText_selfDelimiting : SelfDelimiting (fun _ : Label => True) labelText := by
  intro a b _ _ x y h
  exact escapeByte_selfDelimiting.terminated 46 (fun c _ => escapeByte_head_ne_dot c) a b
    (fun _ _ => trivial) (fun _ _ => trivial) x y h

theorem labelText_ne_nil : labelText label ≠ [] := by simp [labelText]

private theorem labelText_ne_dot (h : 0 < label.length) (rest : List UInt8) :
    labelText label ++ rest ≠ [46] := by
  cases label with
  | nil => simp at h
  | cons c cs =>
    obtain ⟨b, tail, hb, hdot⟩ := escapeByte_head_ne_dot c
    simp [labelText, hb, hdot]

theorem canonicalNameKeyFromLabels_of_ne_nil {labels : List Label} (h : labels ≠ []) :
    canonicalNameKeyFromLabels labels = (labels.map lowerLabel).flatMap labelText := by
  have hkey : (labels.flatMap fun label => (lowerLabel label).flatMap escapeByte ++ [46]) =
      (labels.map lowerLabel).flatMap labelText := by
    simp [flatMap_map, labelText]
  obtain ⟨label, rest, rfl⟩ := exists_cons_of_ne_nil h
  simp [canonicalNameKeyFromLabels, hkey, labelText_ne_nil]

namespace DomainName

theorem canonicalKey_root : root.canonicalKey = [46] := rfl

theorem canonicalKey_eq_flatMap (h : name.labels ≠ []) :
    name.canonicalKey = name.lowerLabels.flatMap labelText :=
  canonicalNameKeyFromLabels_of_ne_nil h

/-- Names share a canonical key exactly when they are equal up to ASCII case. -/
theorem canonicalKey_inj (a b : DomainName) :
    a.canonicalKey = b.canonicalKey ↔ a.lowerLabels = b.lowerLabels := by
  constructor
  · intro h
    by_cases ha : a.labels = [] <;> by_cases hb : b.labels = []
    · simp [lowerLabels, ha, hb]
    · obtain ⟨label, rest, hl⟩ := exists_cons_of_ne_nil hb
      rw [canonicalKey_eq_flatMap b hb, show a = root from DomainName.ext ha,
        canonicalKey_root] at h
      have hpos := b.lowerLabels_valid (lowerLabel label) (by simp [lowerLabels, hl])
      simp only [lowerLabels, hl, map_cons, flatMap_cons] at h
      exact absurd h.symm (labelText_ne_dot _ hpos.1 _)
    · obtain ⟨label, rest, hl⟩ := exists_cons_of_ne_nil ha
      rw [canonicalKey_eq_flatMap a ha, show b = root from DomainName.ext hb,
        canonicalKey_root] at h
      have hpos := a.lowerLabels_valid (lowerLabel label) (by simp [lowerLabels, hl])
      simp only [lowerLabels, hl, map_cons, flatMap_cons] at h
      exact absurd h (labelText_ne_dot _ hpos.1 _)
    · rw [canonicalKey_eq_flatMap a ha, canonicalKey_eq_flatMap b hb] at h
      exact labelText_selfDelimiting.flatMap_inj (fun l _ => labelText_ne_nil l) _ _
        (fun _ _ => trivial) (fun _ _ => trivial) h
  · intro h
    have hnil : a.labels = [] ↔ b.labels = [] := by
      have := congrArg List.length h
      simp only [length_lowerLabels, labelCount] at this
      rw [← length_eq_zero_iff, ← length_eq_zero_iff, this]
    by_cases ha : a.labels = []
    · rw [show a = b from DomainName.ext (ha.trans (hnil.mp ha).symm)]
    · rw [canonicalKey_eq_flatMap a ha, canonicalKey_eq_flatMap b (fun hb => ha (hnil.mpr hb)), h]

end DomainName

variable (labelsAreAsciiLowercase : Bool)

/-- A label behind its length octet, lowercased unless the caller already
knows that it is. -/
def reverseKeyLabel (label : Label) : List UInt8 :=
  UInt8.ofNat label.length :: if labelsAreAsciiLowercase then label else lowerLabel label

/-- The reverse label key and the length it has after each label. -/
def canonicalReverseLabelKeyWithPrefixes : List UInt8 × List ℕ :=
  name.labels.reverse.foldl
    (fun state label =>
      let key := state.1 ++ reverseKeyLabel labelsAreAsciiLowercase label
      (key, state.2 ++ [key.length]))
    ([], [])

def canonicalReverseLabelKey : List UInt8 :=
  (canonicalReverseLabelKeyWithPrefixes name false).1

/-- The reverse label key of lowercased labels listed from the root down. -/
def reverseKey : List UInt8 := labels.flatMap (reverseKeyLabel true)

private theorem ofNat_length_inj {a b : Label} (ha : a.length ≤ 63) (hb : b.length ≤ 63)
    (h : UInt8.ofNat a.length = UInt8.ofNat b.length) : a.length = b.length := by
  have e := congrArg UInt8.toNat h
  simp only [UInt8.toNat_ofNat'] at e
  omega

theorem reverseKeyLabel_selfDelimiting :
    SelfDelimiting (fun label : Label => label.length ≤ 63) (reverseKeyLabel true) := by
  intro a b ha hb x y h
  simp only [reverseKeyLabel, if_true, cons_append, List.cons.injEq] at h
  exact append_inj h.2 (ofNat_length_inj ha hb h.1)

theorem reverseKey_inj (left right : List Label) (hleft : ∀ l ∈ left, l.length ≤ 63)
    (hright : ∀ l ∈ right, l.length ≤ 63) : reverseKey left = reverseKey right ↔ left = right := by
  constructor
  · exact reverseKeyLabel_selfDelimiting.flatMap_inj
      (fun l _ => by simp [reverseKeyLabel]) left right hleft hright
  · rintro rfl
    rfl

private theorem foldl_prefixes (encode : Label → List UInt8) (labels : List Label) :
    labels.foldl (fun (state : List UInt8 × List ℕ) label =>
        (state.1 ++ encode label, state.2 ++ [(state.1 ++ encode label).length])) ([], []) =
      (labels.flatMap encode, (List.range labels.length).map
        fun i => ((labels.take (i + 1)).flatMap encode).length) := by
  induction labels using List.reverseRecOn with
  | nil => rfl
  | append_singleton labels label ih =>
    rw [foldl_append, ih]
    simp only [foldl_cons, foldl_nil, flatMap_append, flatMap_cons,
      flatMap_nil, append_nil, length_append, length_cons, length_nil,
      Nat.zero_add, range_succ, map_append, map_cons, map_nil, Prod.mk.injEq,
      true_and]
    congr 1
    · apply map_congr_left
      intro i hi
      have hlt : i < labels.length := mem_range.mp hi
      rw [take_append_of_le_length (by omega)]
    · rw [take_of_length_le (by simp)]
      simp

/-- A hint that the labels are already lowercase is truthful when they are. -/
def DomainName.LowercaseHint (hint : Bool) : Prop :=
  hint = true → ∀ label ∈ name.labels, lowerLabel label = label

theorem canonicalReverseLabelKeyWithPrefixes_eq (hint : Bool) (htruth : name.LowercaseHint hint) :
    canonicalReverseLabelKeyWithPrefixes name hint =
      (reverseKey name.lowerLabels.reverse, (List.range name.labelCount).map
        fun i => (reverseKey (name.lowerLabels.reverse.take (i + 1))).length) := by
  have hlabel : ∀ label ∈ name.labels.reverse,
      reverseKeyLabel hint label = reverseKeyLabel true (lowerLabel label) := by
    intro label hmem
    have hmem := mem_reverse.mp hmem
    cases hint with
    | false => simp [reverseKeyLabel]
    | true => simp [reverseKeyLabel, htruth rfl label hmem]
  have hflat : ∀ labels : List Label, (∀ l ∈ labels, l ∈ name.labels.reverse) →
      labels.flatMap (reverseKeyLabel hint) = reverseKey (labels.map lowerLabel) := by
    intro labels hsub
    rw [reverseKey, flatMap_map]
    exact flatMap_congr fun l hl => hlabel l (hsub l hl)
  have hfold := foldl_prefixes (reverseKeyLabel hint) name.labels.reverse
  rw [canonicalReverseLabelKeyWithPrefixes, hfold, hflat _ (fun _ h => h)]
  simp only [DomainName.lowerLabels, map_reverse, length_reverse, DomainName.labelCount,
    Prod.mk.injEq, true_and]
  apply map_congr_left
  intro i _
  rw [hflat _ (fun l hl => mem_of_mem_take hl), map_take, map_reverse]

theorem canonicalReverseLabelKey_eq :
    canonicalReverseLabelKey name = reverseKey name.lowerLabels.reverse := by
  rw [canonicalReverseLabelKey, canonicalReverseLabelKeyWithPrefixes_eq name false (by
    intro h
    simp at h)]

theorem reverseKey_take (n : ℕ) :
    (reverseKey labels).take (reverseKey (labels.take n)).length = reverseKey (labels.take n) := by
  have hpre : reverseKey (labels.take n) <+: reverseKey labels := by
    refine ⟨reverseKey (labels.drop n), ?_⟩
    rw [reverseKey, reverseKey, ← flatMap_append, take_append_drop]
    rfl
  exact (prefix_iff_eq_take.mp hpre).symm

end BoronDns
