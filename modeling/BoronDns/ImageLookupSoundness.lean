import BoronDns.LookupRule
import BoronDns.PlanSoundness

/-!
The lookups of a compiled zone make sound plans. Every RRset a plan names comes
from a search of the image, every owner it adds is the queried name or an alias
target, and only a plan with one RRset of the queried name itself is offered for
direct copying.
-/

namespace BoronDns

open ZoneImageLookupPlan Option

variable {rrset rrsetId : ℕ} {hint : Bool} {result : ZoneImageLookupPlan}

/-- A sound plan that is still being built, so not yet offered for copying. -/
structure ZoneImageLookupPlan.Building (image : ZoneImage) (qname : DomainName)
    (plan : ZoneImageLookupPlan) : Prop where
  sound : plan.Sound image qname
  not_direct : plan.directAnswerCandidate = false

namespace ZoneImage

variable {image : ZoneImage} {qname : DomainName} {plan : ZoneImageLookupPlan}

theorem building_positive : positive.Building image qname := ⟨sound_positive, rfl⟩

/-- A plan that names the same records under the same counts is as sound. -/
theorem building_congr (h : plan.Building image qname) {other : ZoneImageLookupPlan}
    (hother : other = { plan with
      rcode := other.rcode
      referralNsRrset := other.referralNsRrset
      authoritative := other.authoritative
      termination := other.termination
      continuation := other.continuation
      denialContext := other.denialContext
      wildcardProofNames := other.wildcardProofNames
      directAnswerCandidate := false }) : other.Building image qname := by
  rw [hother]
  exact ⟨{ h.sound with direct := nofun }, rfl⟩

theorem building_proofName (h : plan.Building image qname) (owner : DomainName) :
    (recordWildcardProofName plan owner).Building image qname :=
  building_congr h (by simp [recordWildcardProofName, h.not_direct])

theorem building_answer (h : plan.Building image qname) (hrrset : image.IsRrset rrset) :
    (image.pushAnswerRrsetToPlan plan rrset).Building image qname := by
  refine ⟨h.sound.pushAnswerRrset hrrset, ?_⟩
  unfold pushAnswerRrsetToPlan pushAnswerRrset
  split
  · exact h.not_direct
  · rfl

theorem building_authority (h : plan.Building image qname) (hrrset : image.IsRrset rrset) :
    (image.pushAuthorityRrsetToPlan plan rrset).Building image qname :=
  ⟨h.sound.pushAuthorityRrset hrrset, rfl⟩

/-- A plan that holds the records of an RRset outside of its additional section,
so that what the RRset asks for may be added there. -/
def CarryingBuilding (image : ZoneImage) (qname : DomainName) (rrsetId : ℕ)
    (plan : ZoneImageLookupPlan) : Prop :=
  plan.Building image qname ∧ (0 < image.rrsetRecordCount rrsetId → plan.Backed image)

theorem carrying_answer (h : plan.Building image qname) (hrrset : image.IsRrset rrset) :
    CarryingBuilding image qname rrset (image.pushAnswerRrsetToPlan plan rrset) :=
  ⟨building_answer h hrrset, fun hrecs => h.sound.backed_of_answer hrecs⟩

theorem carrying_authority (h : plan.Building image qname) (hrrset : image.IsRrset rrset) :
    CarryingBuilding image qname rrset (image.pushAuthorityRrsetToPlan plan rrset) := by
  refine ⟨building_authority h hrrset, fun hrecs => Or.inr ?_⟩
  rw [authoritySizes_eq]
  simp [pushAuthorityRrsetToPlan, pushAuthorityRrset, rrsetSizes_ne_nil hrecs]

theorem carrying_additional {additional : ℕ} (h : CarryingBuilding image qname rrsetId plan)
    (hrecs : 0 < image.rrsetRecordCount rrsetId) (hadditional : image.IsRrset additional) :
    CarryingBuilding image qname rrsetId (image.pushAdditionalRrsetToPlan plan additional) :=
  ⟨⟨h.1.sound.pushAdditionalRrset h.1.not_direct hadditional (h.2 hrecs), h.1.not_direct⟩, h.2⟩

variable {owner : DomainName}

theorem building_withOwner (h : plan.Building image qname) (hrrset : image.IsRrset rrset)
    (hown : owner.wireLen ≤ 255) :
    (image.pushAnswerRrsetWithOwnerToPlan plan rrset owner).1.Building image qname ∧
      (image.pushAnswerRrsetWithOwnerToPlan plan rrset owner).2 <
        (image.pushAnswerRrsetWithOwnerToPlan plan rrset owner).1.ownerOverrides.length := by
  have hnamed := building_proofName h owner
  obtain ⟨hsound, hopen, hindex⟩ := hnamed.sound.pushAnswerRrsetWithOwnerWire hnamed.not_direct
    hrrset ⟨owner, hown, rfl⟩ rfl
  exact ⟨⟨hsound, hopen⟩, hindex⟩

theorem building_glue {nsRrset : ℕ} (h : CarryingBuilding image qname nsRrset plan) :
    (image.addGlueForNsRrset nsRrset plan).Building image qname := by
  have hall : CarryingBuilding image qname nsRrset (image.addGlueForNsRrset nsRrset plan) :=
    List.foldlRecOn _ _ h fun _ hbuilt _ hmem =>
      carrying_additional hbuilt (records_of_mem_glueRelations hmem)
        (precomputedReferralGlueRelations_isRrset hmem)
  exact hall.1

theorem building_additionals (h : CarryingBuilding image qname rrsetId plan) :
    (image.addPrecomputedAdditionalsForSingleAnswerRrset rrsetId plan).1.Building image qname := by
  have hall : CarryingBuilding image qname rrsetId
      (image.addPrecomputedAdditionalsForSingleAnswerRrset rrsetId plan).1 :=
    List.foldlRecOn _ _ h fun _ hbuilt relation hmem =>
      carrying_additional hbuilt (records_of_mem_additionalRelations hmem)
        (precomputedAdditionalRelations_all rrsetId relation hmem)
  exact hall.1

theorem building_fullAny (h : plan.Building image qname) (node : ℕ) (qclass : UInt16) :
    (image.pushFullAnyRrsetsAtNode node qclass plan).Building image qname := by
  refine List.foldlRecOn
    (motive := fun state : List ℕ × ZoneImageLookupPlan => state.2.Building image qname) _ _ h ?_
  intro state hstate rrset hmem
  refine (List.foldlRecOn (motive := fun state : List ℕ × ZoneImageLookupPlan =>
    CarryingBuilding image qname rrset state.2) _ _
      (carrying_answer hstate (anyRrsetsAtNode_isRrset hmem)) ?_).1
  intro state hstate relation hmem
  split
  · exact hstate
  · exact carrying_additional hstate (records_of_mem_additionalRelations hmem)
      (precomputedAdditionalRelations_all rrset relation hmem)

/-- A plan that carries an RRset under owners of which one is used. -/
def OwnedCarrying (image : ZoneImage) (qname : DomainName) (rrsetId : ℕ)
    (owners : List (List UInt8)) (plan : ZoneImageLookupPlan) : Prop :=
  CarryingBuilding image qname rrsetId plan ∧ plan.ownerOverrides = owners

theorem ownedCarrying_targets {ownerIndex : ℕ} {owners : List (List UInt8)}
    {state : List (ℕ × Bool) × ZoneImageLookupPlan}
    (h : OwnedCarrying image qname rrsetId owners state.2) (hown : ownerIndex < owners.length) :
    OwnedCarrying image qname rrsetId owners
      (image.pushAdditionalsForRrsetTargetsWithEffectiveOwner rrsetId ownerIndex state).2 := by
  refine List.foldlRecOn (motive := fun state : List (ℕ × Bool) × ZoneImageLookupPlan =>
    OwnedCarrying image qname rrsetId owners state.2) _ _ h ?_
  intro state hstate relation hmem
  have hrecs := records_of_mem_additionalRelations hmem
  have hrrset := precomputedAdditionalRelations_all rrsetId relation hmem
  obtain ⟨hcarrying, rfl⟩ := hstate
  split
  · exact ⟨hcarrying, rfl⟩
  split
  · have hget : state.2.ownerOverrides[ownerIndex]? =
        some (state.2.ownerOverrides.getD ownerIndex []) := by
      rw [List.getD_eq_getElem _ _ hown, List.getElem?_eq_getElem hown]
    exact ⟨⟨⟨hcarrying.1.sound.pushAdditionalRrsetWithOwner hcarrying.1.not_direct hrrset hget
      (hcarrying.2 hrecs), hcarrying.1.not_direct⟩, hcarrying.2⟩, rfl⟩
  · exact ⟨carrying_additional hcarrying hrecs hrrset, rfl⟩

theorem building_fullAnyWithOwner (node : ℕ) (qclass : UInt16) (hown : owner.wireLen ≤ 255) :
    (image.pushFullAnyRrsetsWithOwnerAtNode node qclass owner positive).Building image qname := by
  unfold pushFullAnyRrsetsWithOwnerAtNode
  dsimp only
  split
  · exact building_positive
  have hnamed : (recordWildcardProofName positive owner).Building image qname :=
    building_proofName building_positive owner
  refine (List.foldlRecOn (motive := fun state : List (ℕ × Bool) × ZoneImageLookupPlan =>
    (state.2.Building image qname ∧ state.2.ownerOverrides = [owner.toWire]) ∧
      state.2.answerRrsets = []) _ _ ⟨?_, rfl⟩ ?_).1.1
  · exact ⟨⟨hnamed.sound.pushOwner hnamed.not_direct ⟨owner, hown, rfl⟩, hnamed.not_direct⟩, rfl⟩
  rintro state ⟨⟨hbuilding, howners⟩, hnil⟩ rrset hmem
  have hindex : state.2.ownerOverrides[0]? = some owner.toWire := by rw [howners]; rfl
  have hpushed : (state.2.pushAnswerRrsetWithOwnerIndex rrset 0
      (image.rrsetPlanMetricsWithOwnerLen rrset owner.toWire.length)).Sound image qname :=
    hbuilding.sound.pushAnswerRrsetWithOwnerIndex (anyRrsetsAtNode_isRrset hmem) hindex
      (fun _ => hnil)
  constructor
  · have howned : OwnedCarrying image qname rrset [owner.toWire]
        (state.1, state.2.pushAnswerRrsetWithOwnerIndex rrset 0
          (image.rrsetPlanMetricsWithOwnerLen rrset owner.toWire.length)).2 := by
      refine ⟨⟨⟨hpushed, rfl⟩, fun hrecs => ?_⟩, howners⟩
      exact backed_of_item (List.mem_append_right _ (List.mem_singleton_self _))
        (visitWithOwner_ne_nil hrecs hindex)
    have hall := ownedCarrying_targets howned Nat.zero_lt_one
    exact ⟨hall.1.1, hall.2⟩
  · exact (ownerTargets_sameAnswers rrset 0 _).1.trans hnil

theorem building_rule (qclass : UInt16) : image.LookupRule qclass (Building image qname) where
  start := building_positive
  rcode := fun h _ => building_congr h (by simp [h.not_direct])
  servfail := fun h termination => ⟨h.sound.setServfail termination, rfl⟩
  continuation :=
    fun h _ _ => building_congr h (by simp [withIndirectionContinuation, h.not_direct])
  denial := fun h _ _ => building_congr h (by simp [withDenialContext, h.not_direct])
  authority := fun h hrrset => building_authority h hrrset
  cut := by
    intro plan delegation h hdelegation
    exact building_glue (carrying_authority (building_congr h (by simp [h.not_direct])) hdelegation)
  answer := fun h hrrset => building_answer h hrrset
  additionals := fun h hrrset => building_additionals (carrying_answer h hrrset)
  synthesized := by
    intro plan dname current target h hdname hcur htarget
    exact ⟨(building_answer h hdname).sound.pushSynthesizedAnswer hcur htarget _,
      pushSynthesizedAnswer_direct _ _ _ _ _⟩
  expanded := fun h hexpansion => (building_withOwner h hexpansion.isRrset hexpansion.fits).1
  expandedAdditionals := by
    intro plan rrset owner h hexpansion
    obtain ⟨hbuilt, hindex⟩ := building_withOwner h hexpansion.isRrset hexpansion.fits
    have howned : OwnedCarrying image qname rrset _
        (([], (image.pushAnswerRrsetWithOwnerToPlan plan rrset owner).1) : List
        (ℕ × Bool) × ZoneImageLookupPlan).2 :=
      ⟨⟨hbuilt, fun hrecs => backed_of_ownedAnswer hrecs owner.toWire _⟩, rfl⟩
    exact (ownedCarrying_targets howned hindex).1.1
  expandedAny := fun hown _ => building_fullAnyWithOwner _ qclass hown

section Lookups

variable {qtype qclass : UInt16} {anyResponse : AnyResponseMode}

/-- A plan of one RRset of the queried name may be marked for copying. -/
theorem sound_markDirect {rrset : ImageRrset} (hget : image.rrsets[rrsetId]? = some rrset)
    (hown : rrset.owner.lowerLabels = qname.lowerLabels) :
    (image.pushAnswerRrsetToPlan positive rrsetId).markDirectAnswerCandidate.Sound image qname := by
  have hsound : (image.pushAnswerRrsetToPlan positive rrsetId).Sound image qname :=
    (building_answer building_positive (isRrset_of_getElem? hget)).sound
  exact { hsound with direct := fun _ =>
    ⟨rfl, rfl, ⟨rrsetId, rrset, rfl, hget, hown⟩, rfl, ⟨rfl, rfl⟩, rfl, rfl, rfl, rfl⟩ }

theorem exactAnswerPlan_sound (hbuilt : image.WellBuilt) (hhint : qname.LowercaseHint hint)
    {node : ℕ} (hnode : image.findNodeWithAsciiLowercaseHint qname hint = some node)
    (h : image.exactAnswerPlan node qtype qclass anyResponse = some result) :
    result.Sound image qname := by
  unfold exactAnswerPlan at h
  split at h
  · split at h
    · obtain ⟨rrset, hrrset, rfl⟩ := map_eq_some_iff.mp h
      exact (building_additionals
        (carrying_answer building_positive
        (anyRrsetsAtNode_isRrset (List.mem_of_mem_head? hrrset)))).sound
    · dsimp only at h
      split at h
      · obtain rfl := some.inj h
        exact (building_fullAny building_positive node qclass).sound
      · simp at h
  split at h
  · obtain ⟨rrsetId, hrrset, rfl⟩ := map_eq_some_iff.mp h
    obtain ⟨rrset, hmem, hget, -⟩ := findRrsetAtNode_spec hrrset
    obtain ⟨paths, hpaths⟩ := hbuilt.exists_paths
    have hown := hpaths.owner_of_found hbuilt hhint hnode hmem
    have hadded : (image.addPrecomputedAdditionalsForSingleAnswerRrset rrsetId
        (image.pushAnswerRrsetToPlan positive rrsetId)).1.Building image qname :=
      building_additionals (carrying_answer building_positive (isRrset_of_getElem? hget))
    dsimp only
    split
    · exact hadded.sound
    next hnone =>
      have hnil : image.precomputedAdditionalRelations rrsetId = [] := by
        simpa [addPrecomputedAdditionalsForSingleAnswerRrset] using hnone
      simp only [addPrecomputedAdditionalsForSingleAnswerRrset, hnil, List.foldl_nil]
      exact sound_markDirect hget hown
  · simp at h

theorem lookupResponsePlan_sound (hbuilt : image.WellBuilt) (hqname : qname.wireLen ≤ 255)
    (hhint : qname.LowercaseHint hint) (qtype qclass : UInt16) (maxCnameChain : ℕ)
    (anyResponse : AnyResponseMode) :
    (image.lookupResponsePlan qname qtype qclass maxCnameChain anyResponse hint).Sound
      image qname := by
  refine (building_rule qclass).lookupResponsePlan (fun _ h => h.sound) hbuilt hqname hhint ?_ ?_
  · intro delegation hdelegation
    have hstart : Building image qname
        { positive with authoritative := false, referralNsRrset := some delegation } :=
      building_congr building_positive rfl
    exact (building_glue (carrying_authority hstart hdelegation)).sound
  · intro node result hnode hresult
    exact exactAnswerPlan_sound hbuilt hhint hnode hresult

theorem lookupDirectAnswerPlan_sound (hbuilt : image.WellBuilt) (hhint : qname.LowercaseHint hint)
    (h : image.lookupDirectAnswerPlan qname qtype qclass hint = some result) :
    result.Sound image qname := by
  unfold lookupDirectAnswerPlan at h
  split at h
  · simp at h
  split at h
  · simp at h
  rename_i node hnode
  split at h
  · simp at h
  split at h
  · simp at h
  rename_i rrsetId hrrset
  split at h
  · simp at h
  obtain rfl := some.inj h
  obtain ⟨rrset, hmem, hget, -⟩ := findRrsetAtNode_spec hrrset
  obtain ⟨paths, hpaths⟩ := hbuilt.exists_paths
  exact sound_markDirect hget (hpaths.owner_of_found hbuilt hhint hnode hmem)

theorem lookupExactPlan_sound (h : image.lookupExactPlan qname qtype qclass = .found result) :
    result.Sound image qname := by
  unfold lookupExactPlan at h
  split at h
  · simp at h
  split at h
  · split at h <;> simp at h
  split at h
  · simp at h
  split at h
  · simp at h
  split at h
  · split at h
    next rrset hrrset =>
      obtain rfl := ZoneImageLookupOutcome.found.inj h
      exact (building_answer building_positive (findRrsetAtNode_isRrset hrrset)).sound
    · simp at h
  · dsimp only at h
    split at h
    · simp at h
    · obtain rfl := ZoneImageLookupOutcome.found.inj h
      refine (List.foldlRecOn (motive := Building image qname) _ _ building_positive ?_).sound
      intro plan hplan entry hentry
      exact building_answer hplan
        (isRrset_of_getElem? (mem_rrsetsAtNode (List.mem_filter.mp hentry).1))

end Lookups

end ZoneImage

end BoronDns
