import BoronDns.ImageDnssec
import BoronDns.ImageShape
import Mathlib.Data.List.SplitBy

/-!
What an augmentation adds to a plan. Denial records come out of the zone's ranges, which were
read off its RRsets. A property of plans that keeps when an RRset of the zone is added to the
authority section, and when a proof fails, keeps through every proof.
-/

namespace BoronDns

open ZoneImageLookupPlan List Option

variable {qclass : UInt16} {state next : ZoneImageDnssecState} {rrsetId : ℕ} {view : NameLabelView}
  {name : DomainName} {asciiLowercase : Bool} {found : Option ℕ} {entry : ℕ × ImageRrset}
  {range : ImageNsecRange}

namespace ZoneImage

variable {image : ZoneImage}

theorem mem_rrsetsOfType {rrType : UInt16} (h : entry ∈ image.rrsetsOfType rrType) :
    image.rrsets[entry.1]? = some entry.2 ∧ entry.2.rrType = rrType := by
  obtain ⟨hmem, htype⟩ := mem_filter.mp h
  obtain ⟨⟨rrset, index⟩, hzip, rfl⟩ := mem_map.mp hmem
  exact ⟨mem_zipIdx_iff_getElem?.mp hzip, by simpa using htype⟩

/-- A range was read off a record of an NSEC RRset. -/
theorem nsecRanges_spec (h : range ∈ image.nsecRanges) :
    ∃ rrset, image.rrsets[range.rrsetId]? = some rrset ∧ rrset.rrType = RecordType.nsec ∧
      range.cls = rrset.cls ∧
      range.ownerKey = canonicalOrderKey rrset.owner.lowerLabels ∧
      ∃ rdata next, canonicalWireLabelRanges rdata = some next ∧
        range.nextKey = canonicalOrderKey (next.1.map lowerLabel) := by
  have hmem := (perm_insertionSort _ _).mem_iff.mp h
  obtain ⟨entry, hentry, hmem⟩ := mem_flatMap.mp hmem
  obtain ⟨hget, htype⟩ := mem_rrsetsOfType hentry
  split at hmem
  · simp at hmem
  · obtain ⟨record, -, hrange⟩ := mem_filterMap.mp hmem
    obtain ⟨next, hnext, rfl⟩ := map_eq_some_iff.mp hrange
    exact ⟨entry.2, hget, htype, rfl, rfl, record.rdata, next, hnext, rfl⟩

theorem mem_nsecRanges_of_group {group : ImageNsecRangeGroup}
    (hgroup : group ∈ image.nsecRangeGroups) (hrange : range ∈ group.ranges) :
    range ∈ image.nsecRanges := by
  obtain ⟨ranges, hranges, rfl⟩ := mem_map.mp hgroup
  rw [← flatten_splitBy (fun left right : ImageNsecRange => left.cls == right.cls) image.nsecRanges]
  exact mem_flatten.mpr ⟨ranges, hranges, hrange⟩

variable {range : ImageNsec3Range}

theorem nsec3Ranges_spec (h : range ∈ image.nsec3Ranges) : image.IsRrset range.rrsetId := by
  have hmem := (perm_insertionSort _ _).mem_iff.mp h
  refine List.foldlRecOn
    (motive := fun state : List Nsec3Params × List ImageNsec3Range => ∀ range ∈ state.2,
    image.IsRrset range.rrsetId)
    _ _ ?_ ?_ range hmem
  · simp
  · intro state hstate entry hentry range hrange
    unfold addNsec3Range at hrange
    split at hrange
    · exact hstate range hrange
    split at hrange
    · rcases mem_append.mp hrange with hrange | hrange
      · exact hstate range hrange
      · rw [mem_singleton.mp hrange]
        exact isRrset_of_getElem? (mem_rrsetsOfType hentry).1
    · exact hstate range hrange

theorem mem_nsec3Ranges_of_group {group : ImageNsec3RangeGroup}
    (hgroup : group ∈ image.nsec3RangeGroups) (hrange : range ∈ group.ranges) :
    range ∈ image.nsec3Ranges := by
  obtain ⟨ranges, hranges, rfl⟩ := mem_map.mp hgroup
  rw [← flatten_splitBy (fun left right : ImageNsec3Range =>
    left.cls == right.cls && left.paramSet == right.paramSet) image.nsec3Ranges]
  exact mem_flatten.mpr ⟨ranges, hranges, hrange⟩

theorem mem_of_before {α : Type} {items : List α} {insertion : ℕ} {item : α}
    (h : (if insertion = 0 then items.getLast? else items[insertion - 1]?) = some item) :
    item ∈ items := by
  split at h
  · exact mem_of_getLast? h
  · exact mem_of_getElem? h

/-- What is found for a name is a range that covers it. -/
theorem nsecRrsetCovering_covers (h : image.nsecRrsetCoveringLabelView view qclass = some rrsetId) :
    ∃ range ∈ image.nsecRanges, range.rrsetId = rrsetId ∧
      range.covers (canonicalOrderKey view.canonicalLabels) = true := by
  obtain ⟨group, hgroup, h⟩ := exists_of_findSome?_eq_some h
  split at h
  · simp at h
  · obtain ⟨range, hcand, h⟩ := bind_eq_some_iff.mp h
    split at h
    next hcovers =>
      exact ⟨range, mem_nsecRanges_of_group hgroup (mem_of_before hcand), some.inj h, hcovers⟩
    · simp at h

variable {exact : Bool}

theorem nsec3RangeMatch_mem {ranges : List ImageNsec3Range} {hash : List UInt8}
    (h : nsec3RangeMatch ranges hash = some (rrsetId, exact)) :
    ∃ range ∈ ranges, range.rrsetId = rrsetId ∧
      (exact = false → nsec3RangeCoversHash range.ownerHash range.nextHash hash = true) := by
  unfold nsec3RangeMatch at h
  split at h
  next range hfound =>
    obtain ⟨hid, rfl⟩ := Prod.mk.inj (some.inj h)
    exact ⟨range, mem_of_find?_eq_some hfound, hid, nofun⟩
  · obtain ⟨range, hcand, h⟩ := bind_eq_some_iff.mp h
    split at h
    next hcovers =>
      exact ⟨range, mem_of_before hcand, (Prod.mk.inj (some.inj h)).1, fun _ => hcovers⟩
    · simp at h

variable {sha1 : List UInt8 → List UInt8} {maxIterations : UInt16} {exceeded : Bool}

/-- The group in which a search finds its RRset, and how. -/
theorem nsec3SearchGroups_some {groups : List ImageNsec3RangeGroup}
    (h : (image.nsec3SearchGroups sha1 exact view qclass maxIterations groups exceeded).1 =
      some rrsetId) :
    ∃ group ∈ groups, ∃ params hash, image.nsec3ParamSets[group.paramSet]? = some params ∧
      nsec3HashLabelView sha1 view params = some hash ∧ nsec3RangeMatch group.ranges hash = some
        (rrsetId, exact) := by
  induction groups generalizing exceeded with
  | nil => simp [nsec3SearchGroups] at h
  | cons group rest ih =>
    have hlater : ∀ {exceeded : Bool},
        (image.nsec3SearchGroups sha1 exact view qclass maxIterations rest exceeded).1 =
        some rrsetId → _ :=
      fun h => (ih h).imp fun _ hfound => hfound.imp_left (mem_cons_of_mem group)
    simp only [nsec3SearchGroups] at h
    split at h
    · exact hlater h
    split at h
    · exact hlater h
    rename_i params hparams
    split at h
    · exact hlater h
    split at h
    next found isExact hmatch =>
      split at h
      next hexact =>
        obtain rfl := some.inj h
        obtain ⟨hash, hhash, hmatch⟩ := bind_eq_some_iff.mp hmatch
        exact ⟨group, mem_cons_self, params, hash, hparams, hhash, hexact ▸ hmatch⟩
      · exact hlater h
    · exact hlater h

theorem nsec3SearchGroups_spec
    (h : (image.nsec3SearchGroups sha1 exact view qclass maxIterations
      image.nsec3RangeGroups exceeded).1 = some rrsetId) : image.IsRrset rrsetId := by
  obtain ⟨group, hgroup, _, _, -, -, hmatch⟩ := nsec3SearchGroups_some h
  obtain ⟨range, hrange, rfl, -⟩ := nsec3RangeMatch_mem hmatch
  exact nsec3Ranges_spec (mem_nsec3Ranges_of_group hgroup hrange)

theorem precomputedReferralDnssec_isRrset {nsRrset : ℕ} {dnssec : DelegationDnssec}
    (h : image.precomputedReferralDnssecRrset nsRrset = some dnssec)
    (hdnssec : dnssec = .ds rrsetId ∨ dnssec = .nsec rrsetId) : image.IsRrset rrsetId := by
  unfold precomputedReferralDnssecRrset at h
  split at h
  · simp at h
  split at h
  · simp at h
  split at h
  next found hfound =>
    obtain rfl := some.inj h
    obtain rfl : found = rrsetId := by simpa using hdnssec
    exact findRrsetByKey_isRrset hfound
  · obtain ⟨found, hfound, rfl⟩ := map_eq_some_iff.mp h
    obtain rfl : found = rrsetId := by simpa using hdnssec
    exact findRrsetByKey_isRrset hfound

/-- The searches for a proof change nothing in the state but the note on iterations. -/
def OnlyIterations (before after : ZoneImageDnssecState) : Prop :=
  after = { before with nsec3IterationsExceeded := after.nsec3IterationsExceeded }

theorem OnlyIterations.trans {first second third : ZoneImageDnssecState}
    (h : OnlyIterations first second) (hnext : OnlyIterations second third) :
    OnlyIterations first third := by
  rw [OnlyIterations] at h hnext ⊢
  rw [hnext, h]

/-- What a search gives are RRsets of the zone. -/
structure Searched (image : ZoneImage) (state : ZoneImageDnssecState) (rrsetIds : List ℕ)
    (next : ZoneImageDnssecState) : Prop where
  rrsets : ∀ rrsetId ∈ rrsetIds, image.IsRrset rrsetId
  noted : OnlyIterations state next

theorem searched_none : image.Searched state [] state := ⟨by simp, rfl⟩

theorem Searched.isRrset (h : image.Searched state [rrsetId] next) : image.IsRrset rrsetId :=
  h.rrsets rrsetId (mem_singleton_self _)

theorem Searched.append {middle : ZoneImageDnssecState} {first second : List ℕ}
    (h : image.Searched state first middle) (hnext : image.Searched middle second next) :
    image.Searched state (first ++ second) next :=
  ⟨fun rrsetId hmem => (mem_append.mp hmem).elim (h.rrsets rrsetId) (hnext.rrsets rrsetId),
    h.noted.trans hnext.noted⟩

theorem nsec3Exact_searched (h : image.nsec3Exact sha1 view qclass state = (found, next)) :
    image.Searched state found.toList next := by
  obtain ⟨rfl, rfl⟩ := Prod.mk.inj h
  exact ⟨fun rrsetId hmem => nsec3SearchGroups_spec (mem_toList.mp hmem), rfl⟩

theorem nsec3Covering_searched (h : image.nsec3Covering sha1 view qclass state = (found, next)) :
    image.Searched state found.toList next := by
  obtain ⟨rfl, rfl⟩ := Prod.mk.inj h
  exact ⟨fun rrsetId hmem => nsec3SearchGroups_spec (mem_toList.mp hmem), rfl⟩

theorem nsec3ClosestEncloser_searched {labels : List Label} {candidates : List ℕ}
    {found : Option (ℕ × ℕ)}
    (h : image.nsec3ClosestEncloser sha1 labels asciiLowercase qclass candidates state =
      (found, next)) :
    image.Searched state (found.map Prod.snd).toList next := by
  induction candidates generalizing state with
  | nil =>
    obtain ⟨rfl, rfl⟩ := Prod.mk.inj h
    exact searched_none
  | cons candidate rest ih =>
    rw [nsec3ClosestEncloser] at h
    split at h
    next middle hexact => exact (nsec3Exact_searched hexact).append (ih h)
    next exact middle hexact =>
      obtain ⟨rfl, rfl⟩ := Prod.mk.inj h
      exact nsec3Exact_searched hexact

theorem nsec3NextCloserCover_searched {closestLabels : List Label}
    (h : image.nsec3NextCloserCover sha1 name closestLabels asciiLowercase qclass state =
      (found, next)) :
    image.Searched state found.toList next := by
  unfold nsec3NextCloserCover at h
  split at h
  · obtain ⟨rfl, rfl⟩ := Prod.mk.inj h
    exact searched_none
  · exact nsec3Covering_searched h

theorem nsec3NameErrorProof_searched {found : Option (List ℕ)}
    (h : image.nsec3NameErrorProof sha1 name qclass asciiLowercase state = (found, next)) :
    image.Searched state (found.getD []) next := by
  unfold nsec3NameErrorProof at h
  split at h
  next middle hclosest =>
    obtain ⟨rfl, rfl⟩ := Prod.mk.inj h
    exact nsec3ClosestEncloser_searched hclosest
  next removed exactClosest middle hclosest =>
    split at h
    rename_i hcovering
    split at h
    rename_i hwildcard
    have hall := ((nsec3ClosestEncloser_searched hclosest).append
      (nsec3Covering_searched hcovering)).append (nsec3Covering_searched hwildcard)
    split at h
    · obtain ⟨rfl, rfl⟩ := Prod.mk.inj h
      exact hall
    · obtain ⟨rfl, rfl⟩ := Prod.mk.inj h
      exact ⟨by simp, hall.noted⟩

/-- A property of a plan under augmentation that the proofs keep. -/
structure ProofRule (image : ZoneImage) (P : Augmentation → Prop) : Prop where
  servfail : ∀ {augmentation}, P augmentation → P augmentation.servfail
  authority : ∀ {augmentation rrsetId}, P augmentation → image.IsRrset rrsetId →
    P (image.pushDnssecAuthorityRrset rrsetId augmentation)
  noted : ∀ {augmentation state}, P augmentation → OnlyIterations augmentation.2 state →
    P (augmentation.1, state)

namespace ProofRule

variable {P : Augmentation → Prop} {augmentation : Augmentation} {wildcardName : DomainName}
  {node : Option ℕ}

theorem authorities (hrule : image.ProofRule P) (h : P augmentation) {rrsetIds : List ℕ}
    (hrrsets : ∀ rrsetId ∈ rrsetIds, image.IsRrset rrsetId) :
    P (image.pushDnssecAuthorityRrsets rrsetIds augmentation) :=
  List.foldlRecOn _ _ h fun _ hsound _ hmem => hrule.authority hsound (hrrsets _ hmem)

theorem nsecCovering (hrule : image.ProofRule P) (h : P augmentation) (view : NameLabelView)
    (qclass : UInt16) : P (image.pushNsecCoveringLabelView view qclass augmentation) := by
  unfold pushNsecCoveringLabelView
  split
  · split
    · exact h
    next nsec hnsec =>
      obtain ⟨range, hrange, rfl, -⟩ := nsecRrsetCovering_covers hnsec
      obtain ⟨rrset, hget, -⟩ := nsecRanges_spec hrange
      exact hrule.authority h (isRrset_of_getElem? hget)
  · exact h

theorem unsignedReferral (hrule : image.ProofRule P) (h : P augmentation) :
    P (image.addNsec3UnsignedReferralProof sha1 name qclass augmentation) := by
  unfold addNsec3UnsignedReferralProof
  dsimp only
  split
  · exact hrule.servfail h
  split
  next exact state hexact =>
    have hfound := nsec3Exact_searched hexact
    have hnoted := hrule.noted h hfound.noted
    split
    · exact hrule.authority hnoted hfound.isRrset
    · exact hrule.servfail hnoted
  next state hexact =>
    have hsearched := hrule.noted h (nsec3Exact_searched hexact).noted
    split
    next next hclosest =>
      have hnoted := hrule.noted hsearched (nsec3ClosestEncloser_searched hclosest).noted
      exact hrule.servfail hnoted
    next removed exactClosest next hclosest =>
      split
      all_goals
        rename_i hcovering
        have hboth :=
        (nsec3ClosestEncloser_searched hclosest).append (nsec3Covering_searched hcovering)
        have hcovered := hrule.noted hsearched hboth.noted
      · split
        · exact hrule.authorities hcovered hboth.rrsets
        · exact hrule.servfail hcovered
      · exact hrule.servfail hcovered

theorem referral (hrule : image.ProofRule P) (h : P augmentation) :
    P (image.addReferralDnssecAugmentations sha1 augmentation) := by
  unfold addReferralDnssecAugmentations
  split
  · exact h
  unfold addReferralDnssecForNsRrset
  split
  · exact h
  rename_i nsRrset _ rrset _
  have hfallback : P
      (if image.dnssecDenialBroken = true then augmentation.servfail
      else if image.nsec3DenialActive = true then
        image.addNsec3UnsignedReferralProof sha1 rrset.owner rrset.cls augmentation
      else augmentation) := by
    split
    · exact hrule.servfail h
    split
    · exact hrule.unsignedReferral h
    · exact h
  dsimp only
  split
  next ds hds => exact hrule.authority h (precomputedReferralDnssec_isRrset hds (Or.inl rfl))
  next nsec hnsec =>
    split
    · exact hrule.authority h (precomputedReferralDnssec_isRrset hnsec (Or.inr rfl))
    · exact hfallback
  · exact hfallback

theorem nodata (hrule : image.ProofRule P) (h : P augmentation) :
    P (image.addNodataNsecAugmentations sha1 name qclass node asciiLowercase augmentation) := by
  unfold addNodataNsecAugmentations
  split
  · exact h
  split
  · split
    next nsec hnsec => exact hrule.authority h (findRrsetAtNode_isRrset hnsec)
    · exact hrule.servfail h
  split
  · split
    next nsec3 state hexact =>
      have hfound := nsec3Exact_searched hexact
      exact hrule.authority (hrule.noted h hfound.noted) hfound.isRrset
    next state hexact =>
      exact hrule.unsignedReferral (hrule.noted h (nsec3Exact_searched hexact).noted)
  · exact h

theorem nxdomain (hrule : image.ProofRule P) (h : P augmentation) :
    P (image.addNxdomainNsecAugmentations sha1 name qclass node asciiLowercase augmentation) := by
  have hname := hrule.nsecCovering h (.ofName name false) qclass
  unfold addNxdomainNsecAugmentations
  dsimp only
  split
  · split
    · exact hrule.servfail hname
    · exact hname
  next closestLabels _ =>
    have hboth := hrule.nsecCovering hname
      (.wildcardChild closestLabels asciiLowercase) qclass
    split
    · split
      next proof state hproof =>
        have hfound := nsec3NameErrorProof_searched hproof
        exact hrule.authorities (hrule.noted hboth hfound.noted) hfound.rrsets
      next state hproof =>
        exact hrule.servfail (hrule.noted hboth (nsec3NameErrorProof_searched hproof).noted)
    · exact hboth

theorem wildcardNsec (hrule : image.ProofRule P) (h : P augmentation) :
    P (image.pushWildcardNsec name wildcardName qclass augmentation) := by
  have hname := hrule.nsecCovering h (.ofName name false) qclass
  unfold pushWildcardNsec
  split
  · split
    · exact hname
    next nsec hfound =>
      obtain ⟨node, -, hfound⟩ := bind_eq_some_iff.mp hfound
      exact hrule.authority hname (findRrsetAtNode_isRrset hfound)
  · exact h

theorem wildcardNodata (hrule : image.ProofRule P) (h : P augmentation) :
    P
      (image.addWildcardNodataNsecAugmentations sha1 name wildcardName qclass node
        augmentation) := by
  unfold addWildcardNodataNsecAugmentations
  extract_lets pushed
  have hnsec : P pushed := hrule.wildcardNsec h
  clear_value pushed
  split
  · split
    · exact hrule.servfail hnsec
    split
    split
    rename_i hclosest
    split
    rename_i hnext
    split
    rename_i hwildcard
    have hall :=
      ((nsec3Exact_searched hclosest).append (nsec3NextCloserCover_searched hnext)).append
      (nsec3Exact_searched hwildcard)
    have hnoted := hrule.noted hnsec hall.noted
    split
    · exact hrule.authorities hnoted hall.rrsets
    · exact hrule.servfail hnoted
  · exact hnsec

theorem wildcardProof (hrule : image.ProofRule P) (h : P augmentation) :
    P (image.addWildcardNsecAugmentations sha1 name qclass asciiLowercase augmentation) := by
  have hname := hrule.nsecCovering h (.ofName name false) qclass
  unfold addWildcardNsecAugmentations
  dsimp only
  split
  · split
    · exact hrule.servfail hname
    · split
      next nextCloser state hnext =>
        have hfound := nsec3NextCloserCover_searched hnext
        exact hrule.authority (hrule.noted hname hfound.noted) hfound.isRrset
      next state hnext =>
        exact hrule.servfail (hrule.noted hname (nsec3NextCloserCover_searched hnext).noted)
  · exact hname

theorem denial (hrule : image.ProofRule P) (h : P augmentation) {nodata nxdomain : Bool}
    {context : Option ZoneImageDenialContext} :
    P
      (image.addDenialAugmentations sha1 name qclass asciiLowercase nodata nxdomain context
        augmentation) := by
  unfold addDenialAugmentations
  split
  · dsimp only
    split
    · split
      · exact hrule.nodata h
      · exact h
    · split
      · exact hrule.nxdomain h
      · exact h
    · split
      · exact hrule.wildcardNodata h
      · exact h
    · split
      · exact hrule.nodata h
      · exact hrule.nxdomain h
  · exact h

theorem wildcards (hrule : image.ProofRule P) (h : P augmentation) :
    P (image.addWildcardAugmentations sha1 name qclass asciiLowercase augmentation) := by
  unfold addWildcardAugmentations
  split
  · exact List.foldlRecOn _ _ h fun _ hnext _ _ => hrule.wildcardProof hnext
  · exact hrule.wildcardProof h

/-- What the proofs and the signatures keep, an augmentation keeps. -/
theorem all (hrule : image.ProofRule P) (h : P augmentation)
    {referral nodata nxdomain wildcard : Bool}
    (hrrsigs : ∀ augmentation, P augmentation → P (image.addRrsigAugmentations augmentation)) :
    P
      (image.addAugmentations sha1 name qclass asciiLowercase referral nodata nxdomain wildcard
        augmentation) := by
  unfold addAugmentations
  dsimp only
  have hreferral : P
      (if referral = true then image.addReferralDnssecAugmentations sha1 augmentation
      else augmentation) := by
    split
    · exact hrule.referral h
    · exact h
  generalize (if referral = true then image.addReferralDnssecAugmentations sha1 augmentation
    else augmentation) = referred at hreferral ⊢
  have hdenial : P (image.addDenialAugmentations sha1 name qclass
      asciiLowercase nodata nxdomain augmentation.1.denialContext referred) :=
    hrule.denial hreferral
  generalize image.addDenialAugmentations sha1 name qclass asciiLowercase nodata nxdomain
    augmentation.1.denialContext referred = denied at hdenial ⊢
  have hwildcard : P
      (if wildcard = true then
        image.addWildcardAugmentations sha1 name qclass asciiLowercase denied
      else denied) := by
    split
    · exact hrule.wildcards hdenial
    · exact hdenial
  split
  · exact hrrsigs _ hwildcard
  · exact hwildcard

end ProofRule

end ZoneImage

end BoronDns
