import BoronDns.NameKey
import Mathlib.Data.List.TakeWhile

/-!
The names above an owner, walked in two ways. The builder of a snapshot climbs
parsed names and stops at the first one outside the zone; an incremental update
climbs the text of the key and stops after the origin. Strictly below an origin
other than the root both walks visit the same names. In the root zone the
textual walk never reaches the root, and from an owner that is not strictly
below the origin it visits names outside the zone.
-/

namespace BoronDns

open List

def stripSuffix (text suffix : List UInt8) : Option (List UInt8) :=
  if suffix <:+ text then some (text.take (text.length - suffix.length)) else none

theorem stripSuffix_eq_some_iff {text suffix rest : List UInt8} :
    stripSuffix text suffix = some rest ↔ text = rest ++ suffix := by
  unfold stripSuffix
  constructor
  · intro h
    split at h
    next hsuffix =>
      obtain ⟨front, rfl⟩ := hsuffix
      simp only [length_append, Nat.add_sub_cancel, take_left, Option.some.injEq] at h
      rw [h]
    · simp at h
  · rintro rfl
    simp

/-- `str::split_once`. -/
def splitOnce (separator : UInt8) : List UInt8 → Option (List UInt8 × List UInt8)
  | [] => none
  | byte :: rest =>
    if byte == separator then some ([], rest)
    else (splitOnce separator rest).map fun parts => (byte :: parts.1, parts.2)

variable {separator : UInt8}

theorem splitOnce_eq_none {text : List UInt8} (h : separator ∉ text) :
    splitOnce separator text = none := by
  induction text with
  | nil => rfl
  | cons byte rest ih =>
    simp only [mem_cons, not_or] at h
    rw [splitOnce, if_neg (by simpa using fun heq => h.1 heq.symm), ih h.2]
    rfl

theorem splitOnce_append {front : List UInt8} (h : separator ∉ front)
    (rest : List UInt8) :
    splitOnce separator (front ++ separator :: rest) = some (front, rest) := by
  induction front with
  | nil => simp [splitOnce]
  | cons byte front ih =>
    simp only [mem_cons, not_or] at h
    rw [cons_append, splitOnce, if_neg (by simpa using fun heq => h.1 heq.symm), ih h.2]
    rfl

def parentNameKey (nameKey : NameKey) : Option NameKey :=
  (stripSuffix nameKey [46]).bind fun withoutRoot => (splitOnce 46 withoutRoot).map fun parts =>
    parts.2 ++ [46]

theorem dot_notMem_escaped (label : Label) : (46 : UInt8) ∉ label.flatMap escapeByte := by
  intro h
  obtain ⟨byte, -, hbyte⟩ := mem_flatMap.mp h
  by_cases hneeds : needsEscape byte = true
  · rw [escapeByte_of_needsEscape hneeds] at hbyte
    have hlt := byte.toNat_lt
    simp only [mem_cons, not_mem_nil, or_false] at hbyte
    rcases hbyte with hbyte | hbyte | hbyte | hbyte
    · exact absurd hbyte (by decide)
    all_goals
      have := congrArg UInt8.toNat hbyte
      simp only [UInt8.toNat_add, UInt8.toNat_div, UInt8.toNat_mod, UInt8.reduceToNat] at this
      omega
  · rw [escapeByte_of_plain hneeds, mem_singleton] at hbyte
    subst hbyte
    exact hneeds (by decide)

theorem canonicalNameKey_endsWithDot (labels : List Label) :
    ∃ body, canonicalNameKeyFromLabels labels = body ++ [46] := by
  rcases eq_nil_or_concat' labels with rfl | ⟨front, last, rfl⟩
  · exact ⟨[], rfl⟩
  · refine ⟨(front.map lowerLabel).flatMap labelText ++ (lowerLabel last).flatMap escapeByte, ?_⟩
    rw [canonicalNameKeyFromLabels_of_ne_nil (by simp), map_append, flatMap_append, append_assoc]
    simp [labelText]

/-- The textual parent is the parent, except that the root is never reached. -/
theorem parentNameKey_cons (label : Label) (labels : List Label) :
    parentNameKey (canonicalNameKeyFromLabels (label :: labels)) =
      if labels = [] then none else some (canonicalNameKeyFromLabels labels) := by
  have hdot := dot_notMem_escaped (lowerLabel label)
  rw [canonicalNameKeyFromLabels_of_ne_nil (cons_ne_nil _ _), map_cons, flatMap_cons, parentNameKey]
  split
  next hnil =>
    rw [hnil, map_nil, flatMap_nil, append_nil, labelText, stripSuffix_eq_some_iff.mpr rfl,
      Option.bind_some, splitOnce_eq_none hdot]
    rfl
  next hne =>
    obtain ⟨body, hbody⟩ := canonicalNameKey_endsWithDot labels
    rw [← canonicalNameKeyFromLabels_of_ne_nil hne, hbody, labelText, ← append_assoc,
      stripSuffix_eq_some_iff.mpr rfl, Option.bind_some, append_assoc, singleton_append,
      splitOnce_append hdot]
    rfl

/-- The walk of `index_empty_non_terminals` from a parent. -/
def indexWalk (origin : DomainName) : ℕ → Option DomainName → List NameKey
  | 0, _ => []
  | _ + 1, none => []
  | fuel + 1, some name =>
    if name.isEqualOrSubdomainOf origin then
      name.canonicalKey :: if name = origin then [] else indexWalk origin fuel name.parent
    else
      []

/-- The keys `index_empty_non_terminals` inserts for an owner; an owner has as
many proper ancestors as labels. -/
def indexedAncestors (origin owner : DomainName) : List NameKey :=
  indexWalk origin owner.labelCount owner.parent

/-- The walk of `with_cow_rrset_replacements` from a parent key. -/
def updateWalk (originKey : NameKey) : ℕ → Option NameKey → List NameKey
  | 0, _ => []
  | _ + 1, none => []
  | fuel + 1, some name =>
    name :: if name == originKey then [] else updateWalk originKey fuel (parentNameKey name)

/-- The keys an update visits above an owner; every parent key is shorter. -/
def updatedAncestors (originKey ownerKey : NameKey) : List NameKey :=
  updateWalk originKey ownerKey.length (parentNameKey ownerKey)

/-- The labels of the names above a name that are in the zone of an origin. -/
def zoneTails (origin : List Label) : List Label → List (List Label)
  | [] => []
  | _ :: rest => if origin <:+ rest then rest :: zoneTails origin rest else []

/-- The labels of the names above a name, without the root, up to the origin. -/
def textTails (origin : List Label) : List Label → List (List Label)
  | [] => []
  | _ :: rest =>
    if rest = [] then [] else rest :: if rest = origin then [] else textTails origin rest

section Tails

variable {origin labels tail : List Label}

theorem zoneTails_of_length_le (h : labels.length ≤ origin.length) :
    zoneTails origin labels = [] := by
  cases labels with
  | nil => rfl
  | cons label rest =>
    refine if_neg fun hsuffix => ?_
    have := hsuffix.length_le
    rw [length_cons] at h
    omega

theorem mem_zoneTails (h : tail ∈ zoneTails origin labels) :
    origin <:+ tail ∧ tail <:+ labels ∧ tail.length < labels.length := by
  induction labels with
  | nil => exact absurd h not_mem_nil
  | cons label rest ih =>
    rw [zoneTails] at h
    split at h
    next hzone =>
      rcases mem_cons.mp h with rfl | h
      · exact ⟨hzone, suffix_cons _ _, Nat.lt_succ_self _⟩
      · obtain ⟨horigin, hsuffix, hlen⟩ := ih h
        exact ⟨horigin, hsuffix.trans (suffix_cons _ _), hlen.trans (Nat.lt_succ_self _)⟩
    · exact absurd h not_mem_nil

theorem mem_textTails (h : tail ∈ textTails origin labels) : tail ≠ [] ∧ tail <:+ labels.tail := by
  induction labels with
  | nil => exact absurd h not_mem_nil
  | cons label rest ih =>
    rw [textTails] at h
    split at h
    · exact absurd h not_mem_nil
    next hne =>
      rcases mem_cons.mp h with rfl | h
      · exact ⟨hne, suffix_refl _⟩
      split at h
      · exact absurd h not_mem_nil
      · exact ⟨(ih h).1, (ih h).2.trans (tail_suffix rest)⟩

theorem zoneTails_nodup (origin labels : List Label) : (zoneTails origin labels).Nodup := by
  induction labels with
  | nil => exact nodup_nil
  | cons label rest ih =>
    rw [zoneTails]
    split
    · exact nodup_cons.mpr ⟨fun h => lt_irrefl _ (mem_zoneTails h).2.2, ih⟩
    · exact nodup_nil

theorem textTails_nodup (origin labels : List Label) : (textTails origin labels).Nodup := by
  induction labels with
  | nil => exact nodup_nil
  | cons label rest ih =>
    rw [textTails]
    split
    · exact nodup_nil
    next hne =>
      split
      · exact nodup_singleton rest
      · refine nodup_cons.mpr ⟨fun h => ?_, ih⟩
        have hlen := (mem_textTails h).2.length_le
        have hpos := length_pos_iff.mpr hne
        rw [length_tail] at hlen
        omega

/-- Below an origin other than the root the text leads to the names of the zone. -/
theorem textTails_of_below (horigin : origin ≠ []) (h : origin <:+ labels.tail) :
    textTails origin labels = zoneTails origin labels := by
  induction labels with
  | nil => rfl
  | cons label rest ih =>
    rw [tail_cons] at h
    have hrest : rest ≠ [] := fun hnil => horigin (suffix_nil.mp (hnil ▸ h))
    rw [textTails, zoneTails, if_neg hrest, if_pos h]
    split
    next hapex => rw [zoneTails_of_length_le (hapex ▸ le_rfl)]
    next hapex =>
      obtain ⟨next, above, rfl⟩ := exists_cons_of_ne_nil hrest
      rw [ih ((suffix_cons_iff.mp h).resolve_left (Ne.symm hapex))]

theorem zoneTails_root (labels : List Label) :
    zoneTails [] labels = textTails [] labels ++ if labels = [] then [] else [[]] := by
  induction labels with
  | nil => rfl
  | cons label rest ih =>
    rw [zoneTails, textTails, if_pos nil_suffix, ih]
    by_cases hrest : rest = []
    · simp [hrest, textTails]
    · simp [hrest]

theorem textTails_of_short (h : labels.length ≤ 1) : textTails origin labels = [] := by
  match labels with
  | [] => rfl
  | [label] => rfl

end Tails

namespace DomainName

/-- The name is below the zone's apex. -/
def isBelow (name origin : DomainName) : Bool :=
  name.parent.any fun above => above.isEqualOrSubdomainOf origin

theorem isBelow_iff (name origin : DomainName) :
    name.isBelow origin = true ↔ name.labels ≠ [] ∧
      origin.lowerLabels <:+ name.lowerLabels.tail := by
  obtain ⟨labels, valid⟩ := name
  cases labels with
  | nil => simp [isBelow, parent]
  | cons label rest => simp [isBelow, parent, isEqualOrSubdomainOf_iff, lowerLabels]

variable {name : DomainName}

/-- The names above a name, by their labels. -/
theorem exists_of_suffix {tail : List Label} (h : tail <:+ name.lowerLabels) :
    ∃ above : DomainName, above.lowerLabels = tail ∧
      canonicalNameKeyFromLabels tail = above.canonicalKey := by
  refine ⟨⟨tail, fun label hlabel => name.lowerLabels_valid label (h.subset hlabel)⟩, ?_, rfl⟩
  refine (map_congr_left fun label hlabel => ?_).trans (map_id tail)
  obtain ⟨original, -, rfl⟩ := mem_map.mp (h.subset hlabel)
  exact lowerLabel_idem original

theorem canonicalKey_eq_lowerLabels (name : DomainName) :
    name.canonicalKey = canonicalNameKeyFromLabels name.lowerLabels :=
  (canonicalKey_inj name name.toAsciiLowercased).mpr name.toAsciiLowercased_lowerLabels.symm

private theorem indexWalk_eq (origin : DomainName) :
    ∀ (fuel : ℕ) (name : DomainName), name.labelCount ≤ fuel →
    indexWalk origin fuel name.parent =
      (zoneTails origin.lowerLabels name.lowerLabels).map canonicalNameKeyFromLabels
  | fuel, ⟨[], _⟩, _ => by cases fuel <;> rfl
  | fuel + 1, ⟨label :: rest, valid⟩, h => by
    let above : DomainName := ⟨rest, fun label h => valid label (mem_cons_of_mem _ h)⟩
    have hrest := indexWalk_eq origin fuel above (Nat.le_of_succ_le_succ h)
    change indexWalk origin (fuel + 1) (some above) =
      (zoneTails origin.lowerLabels (lowerLabel label :: above.lowerLabels)).map
      canonicalNameKeyFromLabels
    rw [indexWalk, zoneTails, hrest, canonicalKey_eq_lowerLabels above]
    simp only [isEqualOrSubdomainOf_iff]
    split
    · rw [map_cons]
      split
      next hapex =>
        rw [hapex, zoneTails_of_length_le le_rfl]
        rfl
      · rfl
    · rfl

theorem indexedAncestors_eq (origin owner : DomainName) : indexedAncestors origin owner =
    (zoneTails origin.lowerLabels owner.lowerLabels).map canonicalNameKeyFromLabels :=
  indexWalk_eq origin owner.labelCount owner le_rfl

private theorem updateWalk_eq (origin : DomainName) :
    ∀ (fuel : ℕ) (name : DomainName), name.labelCount ≤ fuel →
    updateWalk origin.canonicalKey fuel (parentNameKey name.canonicalKey) =
      (textTails origin.lowerLabels name.lowerLabels).map canonicalNameKeyFromLabels
  | fuel, ⟨[], _⟩, _ => by cases fuel <;> rfl
  | fuel + 1, ⟨label :: rest, valid⟩, h => by
    let above : DomainName := ⟨rest, fun label h => valid label (mem_cons_of_mem _ h)⟩
    have hrest := updateWalk_eq origin fuel above (Nat.le_of_succ_le_succ h)
    have hnil : above.lowerLabels = [] ↔ rest = [] := map_eq_nil_iff
    change updateWalk _ (fuel + 1) (parentNameKey (canonicalNameKeyFromLabels (label :: rest))) =
      (textTails origin.lowerLabels (lowerLabel label :: above.lowerLabels)).map
      canonicalNameKeyFromLabels
    rw [parentNameKey_cons, textTails]
    simp only [hnil]
    split
    · rfl
    · change updateWalk _ (fuel + 1) (some above.canonicalKey) = _
      rw [updateWalk, hrest, map_cons, ← canonicalKey_eq_lowerLabels]
      simp only [beq_iff_eq, canonicalKey_inj]
      split <;> rfl

theorem labelCount_le_length_canonicalKey (name : DomainName) :
    name.labelCount ≤ name.canonicalKey.length := by
  by_cases h : name.labels = []
  · simp [labelCount, h]
  · rw [canonicalKey_eq_flatMap name h, ← length_lowerLabels]
    induction name.lowerLabels with
    | nil => simp
    | cons label rest ih =>
      simp only [length_cons, flatMap_cons, length_append, labelText, length_nil]
      omega

theorem updatedAncestors_eq (origin owner : DomainName) :
    updatedAncestors origin.canonicalKey owner.canonicalKey =
      (textTails origin.lowerLabels owner.lowerLabels).map canonicalNameKeyFromLabels :=
  updateWalk_eq origin _ owner owner.labelCount_le_length_canonicalKey

theorem key_inj_of_suffix {left right : List Label} (hleft : left <:+ name.lowerLabels)
    (hright : right <:+ name.lowerLabels)
    (h : canonicalNameKeyFromLabels left = canonicalNameKeyFromLabels right) : left = right := by
  obtain ⟨first, rfl, hfirst⟩ := exists_of_suffix hleft
  obtain ⟨second, rfl, hsecond⟩ := exists_of_suffix hright
  exact (canonicalKey_inj _ _).mp (hfirst.symm.trans (h.trans hsecond))

theorem indexedAncestors_nodup (origin owner : DomainName) :
    (indexedAncestors origin owner).Nodup := by
  rw [indexedAncestors_eq]
  exact (zoneTails_nodup _ _).map_on fun _ hleft _ hright =>
    key_inj_of_suffix (mem_zoneTails hleft).2.1 (mem_zoneTails hright).2.1

theorem updatedAncestors_nodup (origin owner : DomainName) :
    (updatedAncestors origin.canonicalKey owner.canonicalKey).Nodup := by
  rw [updatedAncestors_eq]
  exact (textTails_nodup _ _).map_on fun _ hleft _ hright => key_inj_of_suffix
    ((mem_textTails hleft).2.trans (tail_suffix _)) ((mem_textTails hright).2.trans (tail_suffix _))

variable {key : NameKey}

theorem indexedAncestors_of_not_below {origin owner : DomainName}
    (h : owner.isBelow origin = false) : indexedAncestors origin owner = [] := by
  rw [Bool.eq_false_iff, Ne, isBelow_iff] at h
  rw [indexedAncestors_eq]
  obtain ⟨labels, valid⟩ := owner
  cases labels with
  | nil => rfl
  | cons label rest =>
    exact congrArg (List.map _) (if_neg fun hsuffix => h ⟨cons_ne_nil _ _, hsuffix⟩)

theorem exists_of_mem_updatedAncestors {origin owner : DomainName}
    (h : key ∈ updatedAncestors origin.canonicalKey owner.canonicalKey) : ∃ above : DomainName,
      above.lowerLabels ≠ [] ∧ above.lowerLabels <:+ owner.lowerLabels.tail ∧
      key = above.canonicalKey := by
  rw [updatedAncestors_eq] at h
  obtain ⟨tail, htail, rfl⟩ := mem_map.mp h
  obtain ⟨hne, hsuffix⟩ := mem_textTails htail
  obtain ⟨above, rfl, hkey⟩ := exists_of_suffix (hsuffix.trans (tail_suffix _))
  exact ⟨above, hne, hsuffix, hkey⟩

/-- In the root zone the builder indexes the root above every other name. -/
theorem root_mem_indexedAncestors_iff (owner : DomainName) :
    root.canonicalKey ∈ indexedAncestors root owner ↔ owner.labels ≠ [] := by
  rw [indexedAncestors_eq]
  constructor
  · intro h hnil
    rw [show owner = root from DomainName.ext hnil] at h
    exact absurd h not_mem_nil
  · intro hne
    refine mem_map.mpr ⟨[], ?_, rfl⟩
    rw [show root.lowerLabels = [] from rfl, zoneTails_root]
    simp [lowerLabels, hne]

/-- The update visits what the builder indexes, but for the root. -/
theorem mem_updatedAncestors_iff {origin owner : DomainName} (hok : owner.isBelow origin = true ∨
      owner.labelCount ≤ 1)
    {name : NameKey} (hname : origin.labels ≠ [] ∨ name ≠ root.canonicalKey) :
    name ∈ updatedAncestors origin.canonicalKey owner.canonicalKey ↔
      name ∈ indexedAncestors origin owner := by
  rw [updatedAncestors_eq, indexedAncestors_eq]
  by_cases horigin : origin.labels = []
  · have hne : name ≠ canonicalNameKeyFromLabels [] := hname.resolve_left fun h => h horigin
    rw [lowerLabels, horigin, map_nil, zoneTails_root, map_append, mem_append]
    split <;> simp [hne]
  · have hlower : origin.lowerLabels ≠ [] := fun h => horigin (map_eq_nil_iff.mp h)
    cases hbelow : owner.isBelow origin with
    | true => rw [textTails_of_below hlower ((isBelow_iff _ _).mp hbelow).2]
    | false =>
      have hshort := hok.resolve_left (by rw [hbelow]; decide)
      have hnone := indexedAncestors_of_not_below hbelow
      rw [indexedAncestors_eq] at hnone
      rw [hnone, textTails_of_short (by rwa [length_lowerLabels])]
      rfl

end DomainName

end BoronDns
