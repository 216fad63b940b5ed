import BoronDns.AugmentationRule
import BoronDns.ImageLookupSoundness

/-!
Augmentation keeps a plan sound: it adds RRsets of the zone, and every signature that
is selected is a record of the RRSIG RRset beside the one it covers.
-/

namespace BoronDns

open ZoneImageLookupPlan

namespace ZoneImage

variable {image : ZoneImage} {qname : DomainName} {plan : ZoneImageLookupPlan}
  {augmentation : Augmentation} {owners : List (List UInt8)} {sec : DnssecSection}

variable {selected : ZoneImageSelectedRecord}

theorem selectedRecordFromRelation_exists {relation : ℕ × ℕ}
    (h : image.selectedRecordFromRelation relation = some selected) :
    image.SelectedExists selected := by
  obtain ⟨rrset, hrrset, h⟩ := Option.bind_eq_some_iff.mp h
  obtain ⟨record, hrec, rfl⟩ := Option.map_eq_some_iff.mp h
  exact ⟨wireRecord rrset.owner.toWire (recordFixedFields record rrset.fixedFields) record,
    by simp [selectedWireRecord, hrrset, hrec], rfl, rfl⟩

theorem pushSelected_owners (plan : ZoneImageLookupPlan) (sec : DnssecSection)
    (ownerIndex : Option ℕ) (selected : ZoneImageSelectedRecord) :
    (pushSelected plan sec ownerIndex selected).ownerOverrides = plan.ownerOverrides := by
  cases ownerIndex <;> cases sec <;>
    simp [pushSelected, pushSelectedRecordSection, pushSelectedAnswerRecordWithOwner,
      pushSelectedAdditionalRecordWithOwner, ensureAnswerItems_owners]

variable {ownerIndex : Option ℕ}

theorem sound_pushSelected (h : plan.Sound image qname)
    (hown : ∀ index, ownerIndex = some index → index < plan.ownerOverrides.length)
    (hselected : image.SelectedExists selected) (hbacked : sec = .additional → plan.Backed image) :
    (pushSelected plan sec ownerIndex selected).Sound image qname := by
  cases ownerIndex with
  | none => exact h.pushSelectedRecordSection hselected hbacked
  | some index =>
    have hindex := hown index rfl
    cases sec with
    | answer => exact h.pushSelectedAnswerRecordWithOwner hselected hindex
    | authority => exact h.pushSelectedRecordSection hselected hbacked
    | additional => exact h.pushSelectedAdditionalRecordWithOwner hselected hindex (hbacked rfl)

/-- A sound plan with the given owners to which signatures may be added in a section. -/
structure SignedSound (image : ZoneImage) (qname : DomainName) (owners : List (List UInt8))
    (sec : DnssecSection) (augmentation : Augmentation) : Prop where
  sound : augmentation.1.Sound image qname
  owners_eq : augmentation.1.ownerOverrides = owners
  backed : sec = .additional → augmentation.1.Backed image

theorem signedSound_rrsig (h : SignedSound image qname owners sec augmentation)
    (hown : ∀ index, ownerIndex = some index → index < owners.length) (coveredRrsetId : ℕ) :
    SignedSound image qname owners sec
      (image.pushRrsigForRrset sec ownerIndex augmentation coveredRrsetId) := by
  refine List.foldlRecOn (motive := SignedSound image qname owners sec) _ _ h ?_
  intro next hnext selected hmem
  obtain ⟨relation, -, hselected⟩ := List.mem_filterMap.mp hmem
  dsimp only
  split
  · refine ⟨sound_pushSelected hnext.sound (fun index hindex => ?_)
      (selectedRecordFromRelation_exists hselected) hnext.backed,
      (pushSelected_owners _ _ _ _).trans hnext.owners_eq, ?_⟩
    · rw [hnext.owners_eq]
      exact hown index hindex
    · rintro rfl
      cases ownerIndex <;> exact hnext.backed rfl
  · exact ⟨hnext.sound, hnext.owners_eq, hnext.backed⟩

theorem signedSound_answers (h : SignedSound image qname owners .answer augmentation) :
    SignedSound image qname owners .answer (image.addAnswerRrsigs augmentation) := by
  unfold addAnswerRrsigs
  split
  · exact List.foldlRecOn _ _ h fun next hnext rrsetId _ =>
      signedSound_rrsig hnext (by simp) rrsetId
  · refine List.foldlRecOn (motive := SignedSound image qname owners .answer) _ _ h ?_
    intro next hnext item hitem
    have hvalid := h.sound.items_valid item hitem
    rw [ItemValid.eq_def, h.owners_eq] at hvalid
    cases item with
    | rrset rrsetId => exact signedSound_rrsig hnext (by simp) rrsetId
    | rrsetWithOwner rrsetId ownerIndex =>
      refine signedSound_rrsig hnext ?_ rrsetId
      rintro index ⟨⟩
      exact hvalid.2
    | dynamicRecord index => exact hnext
    | selectedRecord selected => exact hnext
    | selectedRecordWithOwner selected ownerIndex => exact hnext

theorem signedSound_rrsets (h : SignedSound image qname owners sec augmentation) (rrsets : List ℕ) :
    SignedSound image qname owners sec
      (rrsets.foldl (image.pushRrsigForRrset sec none) augmentation) :=
  List.foldlRecOn _ _ h fun _ hnext rrsetId _ => signedSound_rrsig hnext (by simp) rrsetId

/-- An RRset of the additional section is one that something else in the plan
asked for. -/
theorem backed_of_additionals (h : augmentation.1.Sound image qname)
    (hsome : augmentation.1.additionalRrsets ≠ [] ∨ augmentation.1.additionalRrsetsWithOwner ≠ []) :
    augmentation.1.Backed image := by
  rcases h.supported with ⟨hrrsets, -, hwith, -⟩ | hbacked
  · simp [hrrsets, hwith] at hsome
  · exact hbacked

theorem sound_additionalRrsigs (h : augmentation.1.Sound image qname) :
    (augmentation.1.additionalRrsets.foldl
      (image.pushRrsigForRrset .additional none) augmentation).1.Sound image qname := by
  by_cases hnil : augmentation.1.additionalRrsets = []
  · rw [hnil]
    exact h
  have hstart : SignedSound image qname augmentation.1.ownerOverrides .additional augmentation :=
    ⟨h, rfl, fun _ => backed_of_additionals h (Or.inl hnil)⟩
  exact (signedSound_rrsets hstart augmentation.1.additionalRrsets).sound

theorem sound_ownedAdditionalRrsigs (h : augmentation.1.Sound image qname) :
    (augmentation.1.additionalRrsetsWithOwner.foldl (fun augmentation entry =>
        image.pushRrsigForRrset .additional (some entry.2) augmentation entry.1)
          augmentation).1.Sound image qname := by
  by_cases hnil : augmentation.1.additionalRrsetsWithOwner = []
  · rw [hnil]
    exact h
  have hstart : SignedSound image qname augmentation.1.ownerOverrides .additional augmentation :=
    ⟨h, rfl, fun _ => backed_of_additionals h (Or.inr hnil)⟩
  refine (List.foldlRecOn (motive := SignedSound image qname augmentation.1.ownerOverrides
    .additional) _ _ hstart ?_).sound
  intro next hnext entry hentry
  have hvalid := h.additionals_valid.2.2.1 entry hentry
  refine signedSound_rrsig hnext ?_ entry.1
  rintro index ⟨⟩
  exact hvalid.2

theorem sound_rrsigs (h : augmentation.1.Sound image qname) :
    (image.addRrsigAugmentations augmentation).1.Sound image qname := by
  have hans := signedSound_answers (⟨h, rfl, by simp⟩ :
    SignedSound image qname augmentation.1.ownerOverrides .answer augmentation)
  have hready : SignedSound image qname augmentation.1.ownerOverrides .authority
      (image.addAnswerRrsigs augmentation) := ⟨hans.sound, hans.owners_eq, by simp⟩
  have hauths := signedSound_rrsets hready
    (image.addAnswerRrsigs augmentation).1.authorityRrsets
  exact sound_ownedAdditionalRrsigs (sound_additionalRrsigs hauths.sound)

theorem sound_proofRule : image.ProofRule fun augmentation => augmentation.1.Sound image qname where
  servfail := fun h => h.setDnssecProofServfail
  authority := by
    intro augmentation rrsetId h hrrset
    unfold pushDnssecAuthorityRrset
    dsimp only
    split
    · exact h
    · exact h.pushAuthorityRrset hrrset
  noted := fun h _ => h

theorem augmentLookupPlanWithDnssec_sound {sha1 : List UInt8 → List UInt8}
    (h : plan.Sound image qname) (name : DomainName) (qclass nsec3MaxIterations : UInt16)
    (asciiLowercase : Bool) :
    (image.augmentLookupPlanWithDnssec sha1 plan name qclass nsec3MaxIterations
      asciiLowercase).Sound image qname := by
  unfold augmentLookupPlanWithDnssec
  split
  · exact h
  dsimp only
  split
  · exact h.setDnssecProofServfail
  split
  · exact h
  have hstart : (image.startAugmentation plan nsec3MaxIterations).1.Sound image qname := h
  have hs : (image.addAugmentations sha1 name qclass asciiLowercase
      (image.dnssecReferralAugmentationPossible && plan.referralNs.isSome)
      (image.dnssecDenialAugmentationPossible && planIsNodataCandidate plan)
      (image.dnssecDenialAugmentationPossible && planIsNxdomainCandidate plan)
      (image.dnssecDenialAugmentationPossible && planIsWildcardSynthesisCandidate plan)
      (image.startAugmentation plan nsec3MaxIterations)).1.Sound image qname :=
    sound_proofRule.all hstart fun _ hsound => sound_rrsigs hsound
  refine { hs with direct := fun hdirect => ?_ }
  have hshape := hs.direct hdirect
  exact ⟨hshape.rcode_eq, hshape.authoritative, hshape.answer, hshape.items_nil,
    hshape.authority_nil, hshape.additional_nil⟩

end ZoneImage

end BoronDns
