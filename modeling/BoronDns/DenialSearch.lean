import BoronDns.CanonicalOrder
import BoronDns.ImageDnssecSoundness
import BoronDns.Lib.BinarySearch
import BoronDns.Lib.ClosedChain

/-!
The searches for denial records, as they run over the keys in the arena: by binary
search in a group whose ranges form a closed chain, and range by range in an NSEC3 group
that is not one. In a closed chain an owner is found as such, and any other name or hash
is covered by one range, which the search returns.
-/

namespace BoronDns

open BinarySearch ClosedChain ListCompare ZoneImageBuilder List
open Option (filter_some)
open DenialIndexes (nsecRrset octets_inj orderSampleApex orderSampleShort)

section Order

variable {left right : List Label}

theorem cmpLabels_eq (left right : List Label) :
    cmpLabels left right = compareLists (compareLists compare) (left.map octets)
      (right.map octets) := by
  induction left generalizing right with
  | nil => cases right <;> rfl
  | cons label rest ih =>
    cases right with
    | nil => rfl
    | cons other others =>
      show (cmpOctets label other).then (cmpLabels rest others) = _
      rw [ih, cmpOctets_eq]
      rfl

theorem cmpLabels_eq_lt : cmpLabels left right = .lt ↔ left.map octets < right.map octets := by
  rw [cmpLabels_eq]
  exact lawful_octet.lists.lists.lt_iff _ _

theorem cmpLabels_eq_gt : cmpLabels left right = .gt ↔ right.map octets < left.map octets := by
  rw [cmpLabels_eq]
  exact lawful_octet.lists.lists.gt_iff _ _

end Order

variable (key : List (List ℕ))

/-- A key as it stands in the arena. -/
def keyWire : List UInt8 := orderKeyWire (key.map fun label => label.map UInt8.ofNat)

def StoredKey : Prop := ∃ labels, StoredLabels labels ∧ key = labels.map octets

theorem keyWire_octets (labels : List Label) :
    keyWire (labels.map octets) = orderKeyWire labels := by
  have hbytes : ∀ label : Label, (octets label).map UInt8.ofNat = label := by
    intro label
    simp [octets, Function.comp_def]
  rw [keyWire, map_map]
  congr 1
  exact map_id'' hbytes labels

theorem storedKey_canonicalOrderKey {labels : List Label} (h : StoredLabels labels.reverse) :
    StoredKey (canonicalOrderKey labels) :=
  ⟨labels.reverse, h, by rw [canonicalOrderKey, map_reverse]⟩

theorem cmpCanonicalOrderKeyWires_keyWire {left right : List (List ℕ)} (hleft : StoredKey left)
    (hright : StoredKey right) :
    (cmpCanonicalOrderKeyWires (keyWire left) (keyWire right) == .lt) = decide (left < right) := by
  obtain ⟨leftLabels, hleft, rfl⟩ := hleft
  obtain ⟨rightLabels, hright, rfl⟩ := hright
  rw [keyWire_octets, keyWire_octets, cmpCanonicalOrderKeyWires_orderKeyWire hleft hright,
    Bool.eq_iff_iff, beq_iff_eq, decide_eq_true_iff]
  exact cmpLabels_eq_lt

theorem cmpView_eq {key : List (List ℕ)} (h : StoredKey key) (view : NameLabelView) :
    (cmpCanonicalOrderWireKeyToLabelView (keyWire key) view = .lt ↔
      key < canonicalOrderKey view.canonicalLabels) ∧
      (cmpCanonicalOrderWireKeyToLabelView (keyWire key) view = .gt ↔
        canonicalOrderKey view.canonicalLabels < key) := by
  obtain ⟨labels, hlabels, rfl⟩ := h
  have hview : canonicalOrderKey view.canonicalLabels =
      ((view.labels.reverse ++ view.front.toList).map fun label =>
        if view.asciiLowercase then label else lowerLabel label).map octets := by
    have hfront : view.front.toList.reverse = view.front.toList := by cases view.front <;> rfl
    rw [canonicalOrderKey, NameLabelView.canonicalLabels, ← map_reverse, ← map_reverse,
      reverse_append, hfront]
  rw [cmpCanonicalOrderWireKeyToLabelView, keyWire_octets, cmpWireKeyToLabels_orderKeyWire hlabels,
    hview]
  exact ⟨cmpLabels_eq_lt, cmpLabels_eq_gt⟩

def nsecRangeKeysCoverLabelView (ownerKey nextKey : List UInt8) (ownerBeforeNext : Bool)
    (view : NameLabelView) : Bool :=
  let ownerVsName := cmpCanonicalOrderWireKeyToLabelView ownerKey view
  let nextVsName := cmpCanonicalOrderWireKeyToLabelView nextKey view
  if ownerBeforeNext then
    ownerVsName == .lt && nextVsName == .gt
  else
    ownerVsName == .lt || nextVsName == .gt

def nsecRangeCovers (range : ImageNsecRange) (view : NameLabelView) : Bool :=
  nsecRangeKeysCoverLabelView (keyWire range.ownerKey) (keyWire range.nextKey)
    (cmpCanonicalOrderKeyWires (keyWire range.ownerKey) (keyWire range.nextKey) == .lt) view

/-- The search of `nsec_rrset_covering_label_view` in one group. -/
def nsecGroupSearch (ranges : List ImageNsecRange) (view : NameLabelView) : Option ImageNsecRange :=
  let insertion := partitionPoint
    (fun range => cmpCanonicalOrderWireKeyToLabelView (keyWire range.ownerKey) view == .lt) ranges
  let candidate := if insertion = 0 then ranges.getLast? else ranges[insertion - 1]?
  candidate.filter fun range => nsecRangeCovers range view

/-- The scan of `nsec3_range_match`, with the first covering range so far. -/
def nsec3Scan (hash : List UInt8) :
    List ImageNsec3Range → Option ImageNsec3Range → Option (ImageNsec3Range × Bool)
  | [], covering => covering.map fun range => (range, false)
  | range :: rest, covering =>
    if hash = range.ownerHash then
      some (range, true)
    else if covering.isNone && nsec3RangeCoversHash range.ownerHash range.nextHash hash then
      nsec3Scan hash rest (some range)
    else
      nsec3Scan hash rest covering

/-- `nsec3_range_match` in one group: the range, and whether the hash is its owner's. -/
def nsec3GroupMatch (group : ImageNsec3RangeGroup) (hash : List UInt8) :
    Option (ImageNsec3Range × Bool) :=
  if group.indexed then
    match binarySearchBy (fun range => cmpOctets range.ownerHash hash) group.ranges with
    | .ok index => group.ranges[index]?.map fun range => (range, true)
    | .error insertion =>
      let candidate := if insertion = 0 then group.ranges.getLast? else group.ranges[insertion - 1]?
      (candidate.filter fun range => nsec3RangeCoversHash range.ownerHash range.nextHash hash).map
        fun range => (range, false)
  else
    nsec3Scan hash group.ranges none

section Closed

theorem closed_of_chainIsClosed {α Key K : Type} [DecidableEq Key] [LinearOrder K]
    {less : Key → Key → Bool} (place : Key → K) (hless : ∀ left right, less left right = true ↔
      place left < place right) {owner next : α → Key}
    {ranges : List α}
    (h : chainIsClosed less (ranges.map fun range => (owner range, next range)) = true) :
    Closed (fun range => place (owner range)) (fun range => place (next range)) ranges := by
  obtain ⟨hnonempty, hall⟩ := Bool.and_eq_true_iff.mp h
  rw [all_eq_true] at hall
  have hstep : ∀ i range after, ranges[i]? = some range →
      ranges[(i + 1) % ranges.length]? = some after →
      (ranges.length ≤ i + 1 ∨ place (owner range) < place (owner after)) ∧
      next range = owner after := by
    intro i range after hrange hafter
    have hbound : i < ranges.length := (List.getElem?_eq_some_iff.mp hrange).1
    have hi := hall i (mem_range.mpr (by rwa [length_map]))
    rw [List.getElem?_map, hrange, length_map, List.getElem?_map, hafter] at hi
    simpa [hless] using hi
  refine ⟨by simpa using hnonempty, ?_, fun i range after hrange hafter => congrArg place
    (hstep i range after hrange hafter).2⟩
  refine isChain_iff_pairwise.mp (isChain_iff_getElem.mpr fun i hi => ?_)
  have hmod : (i + 1) % ranges.length = i + 1 := Nat.mod_eq_of_lt hi
  have hless :=
    (hstep i _ _ (List.getElem?_eq_getElem (by omega))
      (by rw [hmod]; exact List.getElem?_eq_getElem hi)).1
  exact hless.resolve_left (by omega)

theorem closed_of_nsecIndexable {ranges : List ImageNsecRange}
    (h : nsecRangeGroupIsIndexable ranges = true) :
    Closed ImageNsecRange.ownerKey ImageNsecRange.nextKey ranges :=
  closed_of_chainIsClosed (fun key => key) (fun _ _ => decide_eq_true_iff) h

/-- The keys of the ranges are those of names. -/
def StoredRanges (ranges : List ImageNsecRange) : Prop :=
  ∀ range ∈ ranges, StoredKey range.ownerKey ∧ StoredKey range.nextKey

variable {ranges : List ImageNsecRange} {view : NameLabelView}

theorem covers_iff (range : ImageNsecRange) (name : List (List ℕ)) :
    range.covers name = true ↔
      Covers ImageNsecRange.ownerKey ImageNsecRange.nextKey range name := by
  rw [ImageNsecRange.covers, ImageNsecRange.ownerBeforeNext, Covers]
  by_cases hlt : range.ownerKey < range.nextKey
  · simp [hlt]
  · simp [hlt]

theorem nsecRangeCovers_eq {range : ImageNsecRange} (hown : StoredKey range.ownerKey)
    (hnext : StoredKey range.nextKey) :
    nsecRangeCovers range view = range.covers (canonicalOrderKey view.canonicalLabels) := by
  rw [nsecRangeCovers, nsecRangeKeysCoverLabelView, cmpCanonicalOrderKeyWires_keyWire hown hnext,
    ImageNsecRange.covers, ImageNsecRange.ownerBeforeNext]
  have hless := (cmpView_eq hown view).1
  have hgreater := (cmpView_eq hnext view).2
  rw [Bool.eq_iff_iff]
  split <;> simp [hless, hgreater]

/-- The search finds the candidate, which is the range to look at in a closed chain. -/
theorem nsecGroupSearch_eq (hclosed : Closed ImageNsecRange.ownerKey ImageNsecRange.nextKey ranges)
    (hstored : StoredRanges ranges) : nsecGroupSearch ranges view =
      (candidate ImageNsecRange.ownerKey ranges (canonicalOrderKey view.canonicalLabels)).filter
        fun range => range.covers (canonicalOrderKey view.canonicalLabels) := by
  have htest : ∀ range ∈ ranges,
      (cmpCanonicalOrderWireKeyToLabelView (keyWire range.ownerKey) view == .lt) =
        decide (range.ownerKey < canonicalOrderKey view.canonicalLabels) := by
    intro range hrange
    rw [Bool.eq_iff_iff, beq_iff_eq, decide_eq_true_iff]
    exact (cmpView_eq (hstored range hrange).1 view).1
  have hpoint : partitionPoint
      (fun range => cmpCanonicalOrderWireKeyToLabelView (keyWire range.ownerKey) view ==
      .lt) ranges =
        (ranges.takeWhile fun range =>
        decide (range.ownerKey < canonicalOrderKey view.canonicalLabels)).length := by
    rw [partitionPoint_eq, takeWhile_congr htest]
    refine hclosed.ascending.imp_of_mem fun {left right} hleft hright hlt hright' => ?_
    rw [htest right hright, decide_eq_true_iff] at hright'
    rw [htest left hleft, decide_eq_true_iff]
    exact lt_trans hlt hright'
  have hcovers : ∀ range ∈ ranges, nsecRangeCovers range view =
      range.covers (canonicalOrderKey view.canonicalLabels) :=
    fun range hrange => nsecRangeCovers_eq (hstored range hrange).1 (hstored range hrange).2
  rw [nsecGroupSearch, hpoint]
  rw [@candidate_of_test _ _ _ ImageNsecRange.ownerKey ranges _ _ fun _ => decide_eq_true_iff]
  cases hcand : candidate ImageNsecRange.ownerKey ranges
      (canonicalOrderKey view.canonicalLabels) with
  | none => rfl
  | some range => rw [filter_some, filter_some, hcovers range (mem_of_candidate hcand)]

/-- An owner is not covered. -/
theorem nsecGroupSearch_of_owner
    (hclosed : Closed ImageNsecRange.ownerKey ImageNsecRange.nextKey ranges)
    (hstored : StoredRanges ranges) {holder : ImageNsecRange} (hholder : holder ∈ ranges)
    (hkey : holder.ownerKey = canonicalOrderKey view.canonicalLabels) :
    nsecGroupSearch ranges view = none := by
  rw [nsecGroupSearch_eq hclosed hstored, ← hkey]
  cases hcand : candidate ImageNsecRange.ownerKey ranges holder.ownerKey with
  | none => rfl
  | some range =>
    rw [filter_some, if_neg]
    rw [covers_iff]
    exact hclosed.not_covers_owner (mem_of_candidate hcand) hholder

/-- Any other name is covered by the range that is found, and by no other. -/
theorem nsecGroupSearch_of_not_owner
    (hclosed : Closed ImageNsecRange.ownerKey ImageNsecRange.nextKey ranges)
    (hstored : StoredRanges ranges)
    (hkey : ∀ range ∈ ranges, range.ownerKey ≠ canonicalOrderKey view.canonicalLabels) :
    ∃ range ∈ ranges, nsecGroupSearch ranges view = some range ∧
      range.covers (canonicalOrderKey view.canonicalLabels) = true ∧
        ∀ other ∈ ranges, other.covers (canonicalOrderKey view.canonicalLabels) = true →
        other = range := by
  obtain ⟨range, hrange, hcand, hcovers⟩ := hclosed.candidate_covers hkey
  have hcovered := (covers_iff range _).mpr hcovers
  refine ⟨range, hrange, ?_, hcovered, fun other hother hothers => ?_⟩
  · rw [nsecGroupSearch_eq hclosed hstored, hcand, filter_some, if_pos hcovered]
  · exact hclosed.eq_of_covers hother hrange ((covers_iff other _).mp hothers) hcovers

end Closed

section Nsec3

variable {ranges : List ImageNsec3Range} {hash : List UInt8}

theorem coversHash_iff (range : ImageNsec3Range) (hash : List UInt8) :
    nsec3RangeCoversHash range.ownerHash range.nextHash hash = true ↔
      Covers (fun range => octets range.ownerHash)
        (fun range : ImageNsec3Range => octets range.nextHash) range (octets hash) := by
  rw [nsec3RangeCoversHash, Covers]
  by_cases hlt : octets range.ownerHash < octets range.nextHash
  · simp [hlt]
  · by_cases hgt : octets range.nextHash < octets range.ownerHash
    · simp [hlt, hgt]
    · have heq : octets range.nextHash = octets range.ownerHash :=
        le_antisymm (not_lt.mp hlt) (not_lt.mp hgt)
      rw [if_neg hlt, if_neg hgt, if_neg hlt, heq, bne_iff_ne]
      refine Iff.trans ?_ (ne_comm.trans ne_iff_lt_or_gt)
      exact not_congr ⟨congrArg octets, octets_inj⟩

theorem ordered_ownerHash
    (hclosed : Closed (fun range => octets range.ownerHash) (fun range : ImageNsec3Range =>
      octets range.nextHash) ranges)
    (hash : List UInt8) :
    Ordered (fun range : ImageNsec3Range => cmpOctets range.ownerHash hash) ranges := by
  refine hclosed.ascending.imp fun {left right} hlt => ⟨fun hgt => ?_, fun hless => ?_⟩
  · exact cmpOctets_eq_gt.mpr (lt_trans (cmpOctets_eq_gt.mp hgt) hlt)
  · exact cmpOctets_eq_lt.mpr (lt_trans hlt (cmpOctets_eq_lt.mp hless))

variable {group : ImageNsec3RangeGroup}

/-- The hash of an owner is found as such. -/
theorem nsec3GroupMatch_of_owner (hindexed : group.indexed = true)
    (hclosed : Closed (fun range => octets range.ownerHash) (fun range : ImageNsec3Range =>
      octets range.nextHash) group.ranges) {holder : ImageNsec3Range}
    (hholder : holder ∈ group.ranges) :
    nsec3GroupMatch group holder.ownerHash = some (holder, true) := by
  rw [nsec3GroupMatch, if_pos hindexed]
  cases hsearch : binarySearchBy (fun range : ImageNsec3Range =>
      cmpOctets range.ownerHash holder.ownerHash) group.ranges with
  | ok index =>
    obtain ⟨range, hrange, heq⟩ := eq_of_binarySearchBy_ok hsearch
    have hsame : range = holder := by
      obtain ⟨k, hk⟩ := mem_iff_getElem?.mp hholder
      have hown : octets range.ownerHash = octets holder.ownerHash :=
        congrArg octets (cmpOctets_eq_eq.mp heq)
      rcases Nat.lt_trichotomy index k with hlt | rfl | hgt
      · exact absurd hown (ne_of_lt (hclosed.owner_lt hlt hrange hk))
      · exact Option.some.inj (hrange.symm.trans hk)
      · exact absurd hown.symm (ne_of_lt (hclosed.owner_lt hgt hk hrange))
    dsimp only
    rw [hrange, hsame]
    rfl
  | error insertion =>
    have hnone := (of_binarySearchBy_error (ordered_ownerHash hclosed _) hsearch).2 holder hholder
    exact absurd (cmpOctets_self _) hnone

/-- Any other hash is covered by the range that is found, and by no other. -/
theorem nsec3GroupMatch_of_not_owner (hindexed : group.indexed = true)
    (hclosed : Closed (fun range => octets range.ownerHash) (fun range : ImageNsec3Range =>
      octets range.nextHash) group.ranges)
    (hhash : ∀ range ∈ group.ranges, range.ownerHash ≠ hash) :
    ∃ range ∈ group.ranges, nsec3GroupMatch group hash = some (range, false) ∧
      nsec3RangeCoversHash range.ownerHash range.nextHash hash = true ∧
        ∀ other ∈ group.ranges, nsec3RangeCoversHash other.ownerHash other.nextHash hash = true →
        other = range := by
  have hkey : ∀ range ∈ group.ranges, octets range.ownerHash ≠ octets hash :=
    fun range hrange heq => hhash range hrange (octets_inj heq)
  obtain ⟨range, hrange, hcand, hcovers⟩ := hclosed.candidate_covers hkey
  have hcovered := (coversHash_iff range hash).mpr hcovers
  refine ⟨range, hrange, ?_, hcovered, fun other hother hothers =>
    hclosed.eq_of_covers hother hrange ((coversHash_iff other hash).mp hothers) hcovers⟩
  rw [nsec3GroupMatch, if_pos hindexed]
  cases hsearch : binarySearchBy (fun range : ImageNsec3Range => cmpOctets range.ownerHash hash)
      group.ranges with
  | ok index =>
    obtain ⟨found, hfound, heq⟩ := eq_of_binarySearchBy_ok hsearch
    exact absurd (cmpOctets_eq_eq.mp heq) (hhash found (mem_of_getElem? hfound))
  | error insertion =>
    have hpoint := (of_binarySearchBy_error (ordered_ownerHash hclosed hash) hsearch).1
    have htest : ∀ range : ImageNsec3Range,
        (cmpOctets range.ownerHash hash == .lt) = true ↔ octets range.ownerHash < octets hash := by
      intro range
      rw [beq_iff_eq]
      exact cmpOctets_eq_lt
    subst hpoint
    dsimp only
    rw [candidate_of_test htest, hcand, filter_some, if_pos hcovered]
    rfl

/-- The scan returns an owner of the hash if there is one. -/
theorem nsec3Scan_of_owner (hhash : ∃ range ∈ ranges, range.ownerHash = hash)
    (covering : Option ImageNsec3Range) :
    ∃ range ∈ ranges, range.ownerHash = hash ∧ nsec3Scan hash ranges covering = some
      (range, true) := by
  induction ranges generalizing covering with
  | nil => exact absurd hhash (by simp)
  | cons first rest ih =>
    by_cases hfirst : hash = first.ownerHash
    · exact ⟨first, mem_cons_self .., hfirst.symm, by rw [nsec3Scan, if_pos hfirst]⟩
    · obtain ⟨holder, hholder, hown⟩ := hhash
      have hrest : ∃ range ∈ rest, range.ownerHash = hash := by
        rcases mem_cons.mp hholder with rfl | hholder
        · exact absurd hown.symm hfirst
        · exact ⟨holder, hholder, hown⟩
      rw [nsec3Scan, if_neg hfirst]
      split
      · obtain ⟨range, hrange, hscan⟩ := ih hrest (some first)
        exact ⟨range, mem_cons_of_mem _ hrange, hscan⟩
      · obtain ⟨range, hrange, hscan⟩ := ih hrest covering
        exact ⟨range, mem_cons_of_mem _ hrange, hscan⟩

/-- Otherwise it returns the first range that covers the hash, if there is one. -/
theorem nsec3Scan_of_not_owner (hhash : ∀ range ∈ ranges, range.ownerHash ≠ hash)
    (covering : Option ImageNsec3Range) : nsec3Scan hash ranges covering =
      (covering.or (ranges.find? fun range => nsec3RangeCoversHash range.ownerHash
        range.nextHash hash)).map fun range => (range, false) := by
  induction ranges generalizing covering with
  | nil => cases covering <;> rfl
  | cons first rest ih =>
    have hrest : ∀ range ∈ rest, range.ownerHash ≠ hash :=
      fun range h => hhash range (mem_cons_of_mem _ h)
    rw [nsec3Scan, if_neg (hhash first (mem_cons_self ..)).symm, ih hrest, ih hrest]
    cases covering with
    | some range => rfl
    | none =>
      cases hcovers : nsec3RangeCoversHash first.ownerHash first.nextHash hash with
      | true =>
        rw [List.find?_cons, hcovers]
        rfl
      | false =>
        rw [List.find?_cons, hcovers]
        rfl

end Nsec3

namespace ZoneImage

variable {image : ZoneImage}

theorem canonicalOrderKey_inj {left right : List Label}
    (h : canonicalOrderKey left = canonicalOrderKey right) : left = right :=
  map_injective_iff.mpr (fun _ _ => octets_inj) (reverse_injective h)

theorem storedKey_nextKey {range : ImageNsecRange} (h : range ∈ image.nsecRanges) :
    StoredKey range.nextKey := by
  obtain ⟨-, -, -, -, -, rdata, next, hnext, hkey⟩ := nsecRanges_spec h
  rw [hkey]
  refine storedKey_canonicalOrderKey fun label hlabel => ?_
  obtain ⟨original, horiginal, rfl⟩ := mem_map.mp (mem_reverse.mp hlabel)
  have hvalid := (canonicalWireLabelsLoop_sound hnext).1 original horiginal
  exact ⟨by simpa using hvalid, lowerLabel_idem original⟩

variable {group : ImageNsecRangeGroup}

theorem storedRanges_of_group (hgroup : group ∈ image.nsecRangeGroups) :
    StoredRanges group.ranges := by
  intro range hrange
  have hmem := mem_nsecRanges_of_group hgroup hrange
  obtain ⟨rrset, -, -, -, hown, -⟩ := nsecRanges_spec hmem
  exact ⟨hown ▸ storedKey_canonicalOrderKey (storedLabels_lowerLabels rrset.owner),
    storedKey_nextKey hmem⟩

theorem closed_of_nsecGroup (hgroup : group ∈ image.nsecRangeGroups)
    (hindexed : group.indexed = true) :
    Closed ImageNsecRange.ownerKey ImageNsecRange.nextKey group.ranges := by
  obtain ⟨ranges, -, rfl⟩ := mem_map.mp hgroup
  exact closed_of_nsecIndexable hindexed

theorem closed_of_nsec3Group {group : ImageNsec3RangeGroup}
    (hgroup : group ∈ image.nsec3RangeGroups) (hindexed : group.indexed = true) :
    Closed (fun range => octets range.ownerHash)
      (fun range : ImageNsec3Range => octets range.nextHash) group.ranges := by
  obtain ⟨ranges, -, rfl⟩ := mem_map.mp hgroup
  exact closed_of_chainIsClosed octets (fun _ _ => decide_eq_true_iff) hindexed

def IsNsecOwner (image : ZoneImage) (group : ImageNsecRangeGroup) (name : DomainName) : Prop :=
  ∃ range ∈ group.ranges, ∃ rrset, image.rrsets[range.rrsetId]? = some rrset ∧
    rrset.owner.lowerLabels = name.lowerLabels

theorem isNsecOwner_iff (hgroup : group ∈ image.nsecRangeGroups) (name : DomainName) :
    image.IsNsecOwner group name ↔ ∃ range ∈ group.ranges,
      range.ownerKey = canonicalOrderKey name.lowerLabels := by
  constructor
  · rintro ⟨range, hrange, rrset, hrrset, hname⟩
    obtain ⟨found, hfound, -, -, hown, -⟩ :=
      nsecRanges_spec (mem_nsecRanges_of_group hgroup hrange)
    obtain rfl := Option.some.inj (hrrset.symm.trans hfound)
    exact ⟨range, hrange, by rw [hown, hname]⟩
  · rintro ⟨range, hrange, hkey⟩
    obtain ⟨rrset, hrrset, -, -, hown, -⟩ :=
      nsecRanges_spec (mem_nsecRanges_of_group hgroup hrange)
    exact ⟨range, hrange, rrset, hrrset, canonicalOrderKey_inj (hown.symm.trans hkey)⟩

/-- In a closed chain, the search agrees with what the augmentation uses. -/
theorem nsec3RangeMatch_eq {group : ImageNsec3RangeGroup} (hgroup : group ∈ image.nsec3RangeGroups)
    (hindexed : group.indexed = true) (hash : List UInt8) :
    nsec3RangeMatch group.ranges hash = (nsec3GroupMatch group hash).map fun found =>
      (found.1.rrsetId, found.2) := by
  have hclosed := closed_of_nsec3Group hgroup hindexed
  rw [nsec3RangeMatch]
  cases hfind : group.ranges.find? fun range => range.ownerHash == hash with
  | some holder =>
    have hown := List.find?_some hfind
    obtain rfl := eq_of_beq hown
    rw [nsec3GroupMatch_of_owner hindexed hclosed (mem_of_find?_eq_some hfind)]
    rfl
  | none =>
    have hhash : ∀ range ∈ group.ranges, range.ownerHash ≠ hash := by
      intro range hrange heq
      exact List.find?_eq_none.mp hfind range hrange (beq_iff_eq.mpr heq)
    obtain ⟨range, hrange, hmatch, hcovers, honly⟩ :=
      nsec3GroupMatch_of_not_owner hindexed hclosed hhash
    have hkey : ∀ range ∈ group.ranges, octets range.ownerHash ≠ octets hash :=
      fun range hrange heq => hhash range hrange (octets_inj heq)
    obtain ⟨found, hfound, hcand, hfoundCovers⟩ := hclosed.candidate_covers hkey
    obtain rfl := honly found hfound ((coversHash_iff found hash).mpr hfoundCovers)
    dsimp only
    rw [@candidate_of_test _ _ _ (fun range : ImageNsec3Range => octets range.ownerHash) _ _ _
      fun _ => decide_eq_true_iff, hcand, hmatch, Option.bind_some, if_pos hcovers]
    rfl

theorem nsecRrsetCoveringLabelView_eq (view : NameLabelView) (qclass : UInt16) :
    image.nsecRrsetCoveringLabelView view qclass = image.nsecRangeGroups.findSome? fun group =>
      if !group.indexed || !qclassMatches group.cls qclass then none else
        (nsecGroupSearch group.ranges view).map ImageNsecRange.rrsetId := by
  rw [nsecRrsetCoveringLabelView, ← List.head?_filterMap, ← List.head?_filterMap]
  congr 1
  refine filterMap_congr fun group hgroup => ?_
  cases hindexed : group.indexed with
  | false => rfl
  | true =>
    rw [nsecGroupSearch_eq (closed_of_nsecGroup hgroup hindexed) (storedRanges_of_group hgroup),
      nsecCandidate, @candidate_of_test _ _ _ ImageNsecRange.ownerKey group.ranges _ _ fun _ =>
      decide_eq_true_iff]
    congr 1
    cases candidate ImageNsecRange.ownerKey group.ranges
        (canonicalOrderKey view.canonicalLabels) with
    | none => rfl
    | some range =>
      rw [Option.bind_some, filter_some]
      split <;> rfl

structure DenialSearches (image : ZoneImage) : Prop where
  /-- The lookup goes through the closed NSEC groups of the class. -/
  nsecLookup : ∀ view qclass, image.nsecRrsetCoveringLabelView view qclass =
    image.nsecRangeGroups.findSome? fun group =>
      if !group.indexed || !qclassMatches group.cls qclass then
        none
      else
        (nsecGroupSearch group.ranges view).map ImageNsecRange.rrsetId
  nsecOwner : ∀ group ∈ image.nsecRangeGroups, group.indexed = true →
    ∀ (view : NameLabelView) (name : DomainName), view.canonicalLabels = name.lowerLabels →
      image.IsNsecOwner group name → nsecGroupSearch group.ranges view = none
  nsecCovered : ∀ group ∈ image.nsecRangeGroups, group.indexed = true →
    ∀ (view : NameLabelView) (name : DomainName), view.canonicalLabels = name.lowerLabels →
      ¬ image.IsNsecOwner group name → ∃ range ∈ group.ranges,
      nsecGroupSearch group.ranges view = some range ∧
          range.covers (canonicalOrderKey name.lowerLabels) = true ∧
            ∀ other ∈ group.ranges, other.covers (canonicalOrderKey name.lowerLabels) = true →
            other = range
  /-- The lookups use the search of a closed NSEC3 group. -/
  nsec3Lookup : ∀ group ∈ image.nsec3RangeGroups, group.indexed = true → ∀ hash,
    nsec3RangeMatch group.ranges hash = (nsec3GroupMatch group hash).map fun found =>
    (found.1.rrsetId, found.2)
  nsec3Owner : ∀ group ∈ image.nsec3RangeGroups, group.indexed = true → ∀ range ∈ group.ranges,
    nsec3GroupMatch group range.ownerHash = some (range, true)
  nsec3Covered : ∀ group ∈ image.nsec3RangeGroups, group.indexed = true → ∀ hash,
    (∀ range ∈ group.ranges, range.ownerHash ≠ hash) →
      ∃ range ∈ group.ranges, nsec3GroupMatch group hash = some (range, false) ∧
        nsec3RangeCoversHash range.ownerHash range.nextHash hash = true ∧
          ∀ other ∈ group.ranges, nsec3RangeCoversHash other.ownerHash other.nextHash hash = true →
          other = range
  /-- The scan of another NSEC3 group prefers an owner. -/
  scanOwner : ∀ group ∈ image.nsec3RangeGroups, group.indexed = false → ∀ hash,
    (∃ range ∈ group.ranges, range.ownerHash = hash) →
      ∃ range ∈ group.ranges, range.ownerHash = hash ∧
      nsec3GroupMatch group hash = some (range, true)
  scanCovered : ∀ group ∈ image.nsec3RangeGroups, group.indexed = false → ∀ hash,
    (∀ range ∈ group.ranges, range.ownerHash ≠ hash) →
      nsec3GroupMatch group hash =
        (group.ranges.find? fun range => nsec3RangeCoversHash range.ownerHash
        range.nextHash hash).map
          fun range => (range, false)

/-- In a closed group the searches find the owner or the one range that covers; the scan of
another NSEC3 group finds an owner, or else the first range that covers. -/
theorem denialSearches (image : ZoneImage) : DenialSearches image where
  nsecLookup := nsecRrsetCoveringLabelView_eq
  nsecOwner := by
    intro group hgroup hindexed view name hview howner
    obtain ⟨holder, hholder, hkey⟩ := (isNsecOwner_iff hgroup name).mp howner
    exact nsecGroupSearch_of_owner (closed_of_nsecGroup hgroup hindexed)
      (storedRanges_of_group hgroup) hholder (hkey.trans (congrArg canonicalOrderKey hview.symm))
  nsecCovered := by
    intro group hgroup hindexed view name hview howner
    rw [← hview]
    refine nsecGroupSearch_of_not_owner (closed_of_nsecGroup hgroup hindexed)
      (storedRanges_of_group hgroup) ?_
    intro range hrange hkey
    exact howner ((isNsecOwner_iff hgroup name).mpr ⟨range, hrange,
      hkey.trans (congrArg canonicalOrderKey hview)⟩)
  nsec3Lookup := fun _ hgroup hindexed hash => nsec3RangeMatch_eq hgroup hindexed hash
  nsec3Owner := fun _ hgroup hindexed _ hrange =>
    nsec3GroupMatch_of_owner hindexed (closed_of_nsec3Group hgroup hindexed) hrange
  nsec3Covered := fun _ hgroup hindexed _ hhash =>
    nsec3GroupMatch_of_not_owner hindexed (closed_of_nsec3Group hgroup hindexed) hhash
  scanOwner := by
    intro group _ hindexed hash hhash
    rw [nsec3GroupMatch, if_neg (by rw [hindexed]; exact Bool.false_ne_true)]
    exact nsec3Scan_of_owner hhash none
  scanCovered := by
    intro group _ hindexed hash hhash
    rw [nsec3GroupMatch, if_neg (by rw [hindexed]; exact Bool.false_ne_true),
      nsec3Scan_of_not_owner hhash]
    rfl

/-- The chain `m.`, `b.m.` is closed, and of its two ranges the first covers `a.m.` -/
theorem denialSearches_sample : ∃ image, compileRrsets orderSampleApex none
        [nsecRrset orderSampleApex orderSampleShort, nsecRrset orderSampleShort orderSampleApex] =
          .ok image ∧
      ∃ group ∈ image.nsecRangeGroups, group.indexed = true ∧ group.ranges.length = 2 ∧
        ∃ range ∈ group.ranges, nsecGroupSearch group.ranges
          ⟨none, [[97], [109]], false⟩ = some range ∧
          range.covers (canonicalOrderKey [[97], [109]]) = true ∧
            ∀ other ∈ group.ranges, other.covers (canonicalOrderKey [[97], [109]]) = true →
            other = range := by
  have hgroup : ∃ image, compileRrsets orderSampleApex none
        [nsecRrset orderSampleApex orderSampleShort, nsecRrset orderSampleShort orderSampleApex] =
        .ok image ∧
      ∃ group ∈ image.nsecRangeGroups, group.indexed = true ∧ group.ranges.length = 2 ∧
        ∀ range ∈ group.ranges, range.ownerKey ≠ canonicalOrderKey [[97], [109]] := by
    refine ⟨_, rfl, ?_⟩
    decide +kernel
  obtain ⟨image, himage, group, hmem, hindexed, hlength, hkeys⟩ := hgroup
  refine ⟨image, himage, group, hmem, hindexed, hlength, ?_⟩
  refine (denialSearches image).nsecCovered group hmem hindexed ⟨none, [[97], [109]],
    false⟩ ⟨[[97], [109]], by decide⟩ rfl ?_
  rintro howner
  obtain ⟨range, hrange, hkey⟩ := (isNsecOwner_iff hmem _).mp howner
  exact hkeys range hrange hkey

/-- A chain of one record, `m.`, that names `aa.m.` as the next: the range covers `a.m.`, but
the group is not searched. -/
theorem nsecRrsetCovering_skips_open_group : ∃ image, compileRrsets orderSampleApex none
        [nsecRrset orderSampleApex DenialIndexes.orderSampleLong] = .ok image ∧
      (∃ group ∈ image.nsecRangeGroups, group.cls = 1 ∧ group.indexed = false ∧
        ∃ range ∈ group.ranges, range.covers (canonicalOrderKey [[97], [109]]) = true) ∧
      image.nsecRrsetCoveringLabelView ⟨none, [[97], [109]], false⟩ 1 = none := by
  refine ⟨_, rfl, ?_, by decide +kernel⟩
  decide +kernel

end ZoneImage

end BoronDns
