import BoronDns.DenialRanges
import BoronDns.ImageLookup

/-!
Adding DNSSEC records to a plan: the proof that a delegation is signed or not,
the denial of a name, a type or a wildcard, and the signatures of every RRset
the plan already has.
-/

namespace BoronDns

open ZoneImageLookupPlan RecordType

structure ZoneImageDnssecState where
  appendedAuthorityRrsets : List ℕ
  originalAuthorityRrsetCount : ℕ
  seenSelectedRecords : List ZoneImageSelectedRecord
  dnssecAugmented : Bool
  nsec3IterationsExceeded : Bool
  nsec3MaxIterations : UInt16

/-- A plan under augmentation. -/
abbrev Augmentation := ZoneImageLookupPlan × ZoneImageDnssecState

/-- What a delegation has beside its NS RRset. -/
inductive DelegationDnssec
  | ds (rrsetId : ℕ)
  | nsec (rrsetId : ℕ)

variable (sha1 : List UInt8 → List UInt8)

variable (image : ZoneImage) (view : NameLabelView) (plan : ZoneImageLookupPlan)
  (qname : DomainName) (qclass : UInt16) (qnameAsciiLowercase : Bool) (rrsetId : ℕ)
  (augmentation : Augmentation) (state : ZoneImageDnssecState)

def planIsNodataCandidate : Bool :=
  plan.rcode == .noError && plan.authoritative &&
    match plan.denialContext with
    | some ⟨_, .noData⟩ => true
    | some ⟨_, .wildcardNoData _⟩ => true
    | some ⟨_, .nameError⟩ => false
    | none => !plan.answerHasRecords

def planIsNxdomainCandidate : Bool :=
  plan.rcode == .nxDomain && plan.authoritative &&
    match plan.denialContext with
    | some ⟨_, .nameError⟩ => true
    | some ⟨_, .noData⟩ => false
    | some ⟨_, .wildcardNoData _⟩ => false
    | none => !plan.answerHasRecords

def planIsWildcardSynthesisCandidate : Bool :=
  plan.rcode == .noError && plan.authoritative && plan.answerHasRecords &&
    plan.wildcardSynthesized

def insertSelectedRecord (seen : List ZoneImageSelectedRecord)
    (selected : ZoneImageSelectedRecord) : List ZoneImageSelectedRecord × Bool :=
  if seen.contains selected then (seen, false) else (seen ++ [selected], true)

/-- `record_plan_selected_identities`. -/
def planSelectedRecordIdentities : List ZoneImageSelectedRecord :=
  let answers := plan.answerItems.filterMap fun
    | .selectedRecord selected => some selected
    | .selectedRecordWithOwner selected _ => some selected
    | _ => none
  (answers ++ plan.selectedAuthorities ++ plan.selectedAdditionals ++
    plan.selectedAdditionalsWithOwner.map Prod.fst).foldl
      (fun seen selected => (insertSelectedRecord seen selected).1) []

def Augmentation.servfail : Augmentation :=
  (augmentation.1.setDnssecProofServfail, augmentation.2)

namespace ZoneImage

/-- `push_referral_dnssec_relations_for_rrset`. -/
def precomputedReferralDnssecRrset : Option DelegationDnssec :=
  match image.rrsets[rrsetId]? with
  | none => none
  | some rrset =>
    if rrset.rrType ≠ ns ∨ image.ownerIsOrigin rrset = true ∨
        255 < rrset.owner.wireLen then
      none
    else
      match image.findRrsetByKey ⟨rrset.owner.canonicalKey, ds, rrset.cls⟩ with
      | some ds => some (.ds ds)
      | none => (image.findRrsetByKey ⟨rrset.owner.canonicalKey, nsec, rrset.cls⟩).map .nsec

def dnssecDenialAugmentationPossible : Bool :=
  image.nsec3DenialActive || image.nsecDenialActive || image.dnssecDenialBroken

def dnssecRrsigAugmentationPossible : Bool :=
  (List.range image.rrsets.length).any fun rrsetId =>
    !(image.precomputedRrsigRelations rrsetId).isEmpty

def dnssecReferralAugmentationPossible : Bool :=
  ((List.range image.rrsets.length).any fun rrsetId =>
    (image.precomputedReferralDnssecRrset rrsetId).isSome) ||
      image.nsec3DenialActive || image.dnssecDenialBroken

def dnssecAugmentationPossible : Bool :=
  image.dnssecDenialAugmentationPossible || image.dnssecReferralAugmentationPossible ||
    image.dnssecRrsigAugmentationPossible

/-- The labels of the name at a node that encloses `qname`. -/
def closestEncloserLabelsFromNode (closestNode : Option ℕ) : Option (List Label) :=
  match closestNode.bind fun node => image.nodes[node]? with
  | none => none
  | some entry =>
    if qname.labelCount < image.origin.labelCount ∨
        qname.labelCount - image.origin.labelCount < entry.build.depth then
      none
    else
      some (qname.labels.drop (qname.labelCount - image.origin.labelCount - entry.build.depth))

def closestEncloserLoop (image : ZoneImage) : List Label → ℕ → ℕ
  | [], node => node
  | label :: rest, node =>
    match image.findChild node label with
    | none => node
    | some child => image.closestEncloserLoop rest child

/-- The closest node above the name, whether or not the name has one itself. -/
def closestEncloserNode : Option ℕ :=
  match relativeLabelSlice qname image.origin with
  | none => none
  | some labels =>
    if labels.isEmpty then
      none
    else
      some (image.closestEncloserLoop (labels.reverse.take (labels.length - 1)) 0)

/-- `push_authority_rrset`: an RRset that the section already has is not added
again. -/
def pushDnssecAuthorityRrset : Augmentation :=
  let (plan, state) := augmentation
  if state.appendedAuthorityRrsets.contains rrsetId ||
      (plan.authorityRrsets.take state.originalAuthorityRrsetCount).contains rrsetId then
    (plan, state)
  else
    (image.pushAuthorityRrsetToPlan plan rrsetId, { state with
        appendedAuthorityRrsets := state.appendedAuthorityRrsets ++ [rrsetId]
        dnssecAugmented := true })

def pushDnssecAuthorityRrsets (rrsetIds : List ℕ) (augmentation : Augmentation) : Augmentation :=
  rrsetIds.foldl (fun augmentation rrsetId => image.pushDnssecAuthorityRrset rrsetId augmentation)
    augmentation

def pushNsecCoveringLabelView : Augmentation :=
  if image.nsecDenialActive then
    match image.nsecRrsetCoveringLabelView view qclass with
    | none => augmentation
    | some nsec => image.pushDnssecAuthorityRrset nsec augmentation
  else
    augmentation

def pushNsecCoveringName (name : DomainName) (qclass : UInt16) (augmentation : Augmentation) :
    Augmentation :=
  image.pushNsecCoveringLabelView (.ofName name false) qclass augmentation

/-- The NSEC RRset that covers the name and the one of the wildcard itself. -/
def pushWildcardNsec (wildcardName : DomainName) (qclass : UInt16) (augmentation : Augmentation) :
    Augmentation :=
  if image.nsecDenialActive then
    let augmentation := image.pushNsecCoveringName qname qclass augmentation
    match (image.findNode wildcardName).bind fun node => image.findRrsetAtNode node nsec qclass with
    | none => augmentation
    | some nsec => image.pushDnssecAuthorityRrset nsec augmentation
  else
    augmentation

/-- The records of an NSEC3 RRset that belong to the selected chain. -/
def selectedNsec3RrsetRdatas : List Rdata :=
  match image.rrsets[rrsetId]?, image.activeNsec3ParamSet with
  | some rrset, some (_, paramSet) =>
    (rrset.records.map ImageRecord.rdata).filter fun rdata =>
      (nsec3ParamsFromRdata rdata).isSome &&
        nsec3ParamsFromRdata rdata == image.nsec3ParamSets[paramSet]?
  | _, _ => []

def selectedNsec3RrsetIsOptout : Bool :=
  (image.selectedNsec3RrsetRdatas rrsetId).any fun rdata =>
    match rdata[1]? with
    | none => false
    | some flags => flags &&& 1 != 0

def selectedNsec3RrsetHasTypes (requireNs requireDs : Bool) : Bool :=
  (image.selectedNsec3RrsetRdatas rrsetId).any fun rdata =>
    nsec3TypeBitmapContains rdata ns == some requireNs &&
      nsec3TypeBitmapContains rdata ds == some requireDs

/-- A search for the exact NSEC3 RRset of a name, with its note on iterations. -/
def nsec3Exact : Option ℕ × ZoneImageDnssecState :=
  let found := image.nsec3ExactRrsetForLabelView sha1 view qclass state.nsec3IterationsExceeded
    state.nsec3MaxIterations
  (found.1, { state with nsec3IterationsExceeded := found.2 })

/-- A search for the NSEC3 RRset that covers a name. -/
def nsec3Covering : Option ℕ × ZoneImageDnssecState :=
  let found := image.nsec3CoveringRrsetForLabelView sha1 view qclass state.nsec3IterationsExceeded
    state.nsec3MaxIterations
  (found.1, { state with nsec3IterationsExceeded := found.2 })

/-- The closest encloser with an NSEC3 record of its own: the number of labels
taken off the name, and that RRset. -/
def nsec3ClosestEncloser (image : ZoneImage) (labels : List Label) (asciiLowercase : Bool)
    (qclass : UInt16) : List ℕ → ZoneImageDnssecState → Option (ℕ × ℕ) × ZoneImageDnssecState
  | [], state => (none, state)
  | removed :: rest, state =>
    match image.nsec3Exact sha1 ⟨none, labels.drop removed, asciiLowercase⟩ qclass state with
    | (none, state) => nsec3ClosestEncloser image labels asciiLowercase qclass rest state
    | (some exact, state) => (some (removed, exact), state)

/-- The numbers of labels that can be taken off a name without leaving the zone. -/
def enclosersWithin (labels : List Label) : List ℕ :=
  (List.range (labels.length - image.origin.labelCount)).map (· + 1)

/-- The proof that a delegation has no DS: its own NSEC3 record, or the opt-out
range that covers the next closer name. The source reads the names above the
delegation out of its wire form. -/
def addNsec3UnsignedReferralProof (delegation : DomainName) (qclass : UInt16)
    (augmentation : Augmentation) : Augmentation :=
  let (plan, state) := augmentation
  if 255 < delegation.wireLen then
    Augmentation.servfail (plan, state)
  else
    match image.nsec3Exact sha1 (.ofName delegation false) qclass state with
    | (some exact, state) =>
      if image.selectedNsec3RrsetHasTypes exact true false then
        image.pushDnssecAuthorityRrset exact (plan, state)
      else
        Augmentation.servfail (plan, state)
    | (none, state) =>
      match image.nsec3ClosestEncloser sha1 delegation.labels false qclass
          (image.enclosersWithin delegation.labels) state with
      | (none, state) => Augmentation.servfail (plan, state)
      | (some (removed, exactClosest), state) =>
        match image.nsec3Covering sha1 ⟨none, delegation.labels.drop (removed - 1), false⟩ qclass
            state with
        | (some coveringNext, state) =>
          if image.selectedNsec3RrsetIsOptout coveringNext then
            image.pushDnssecAuthorityRrsets [exactClosest, coveringNext] (plan, state)
          else
            Augmentation.servfail (plan, state)
        | (none, state) => Augmentation.servfail (plan, state)

def addReferralDnssecForNsRrset (nsRrset : ℕ) (augmentation : Augmentation) : Augmentation :=
  match image.rrsets[nsRrset]? with
  | none => augmentation
  | some rrset =>
    let fallback :=
      if image.dnssecDenialBroken then
        augmentation.servfail
      else if image.nsec3DenialActive then
        image.addNsec3UnsignedReferralProof sha1 rrset.owner rrset.cls augmentation
      else
        augmentation
    match image.precomputedReferralDnssecRrset nsRrset with
    | some (.ds ds) => image.pushDnssecAuthorityRrset ds augmentation
    | some (.nsec nsec) =>
      if image.nsecDenialActive then image.pushDnssecAuthorityRrset nsec augmentation else fallback
    | none => fallback

def addReferralDnssecAugmentations : Augmentation :=
  match augmentation.1.referralNs with
  | none => augmentation
  | some nsRrset => image.addReferralDnssecForNsRrset sha1 nsRrset augmentation

def addNodataNsecAugmentations (exactQnameNode : Option ℕ) (qnameAsciiLowercase : Bool)
    (augmentation : Augmentation) : Augmentation :=
  match exactQnameNode with
  | none => augmentation
  | some qnameNode =>
    if image.nsecDenialActive then
      match image.findRrsetAtNode qnameNode nsec qclass with
      | some nsec => image.pushDnssecAuthorityRrset nsec augmentation
      | none => augmentation.servfail
    else if image.nsec3DenialActive then
      match image.nsec3Exact sha1 (.ofName qname qnameAsciiLowercase) qclass augmentation.2 with
      | (some nsec3, state) => image.pushDnssecAuthorityRrset nsec3 (augmentation.1, state)
      | (none, state) =>
        image.addNsec3UnsignedReferralProof sha1 qname qclass (augmentation.1, state)
    else
      augmentation

/-- The three NSEC3 RRsets that deny a name: its closest encloser, the next
closer name and the wildcard. -/
def nsec3NameErrorProof : Option (List ℕ) × ZoneImageDnssecState :=
  match image.nsec3ClosestEncloser sha1 qname.labels qnameAsciiLowercase qclass
      (image.enclosersWithin qname.labels) state with
  | (none, state) => (none, state)
  | (some (removed, exactClosest), state) =>
    let (nextCloser, state) := image.nsec3Covering sha1
      ⟨none, qname.labels.drop (removed - 1), qnameAsciiLowercase⟩ qclass state
    let (wildcard, state) := image.nsec3Covering sha1
      (.wildcardChild (qname.labels.drop removed) qnameAsciiLowercase) qclass state
    match nextCloser, wildcard with
    | some nextCloser, some wildcard => (some [exactClosest, nextCloser, wildcard], state)
    | _, _ => (none, state)

def addNxdomainNsecAugmentations (closestQnameNode : Option ℕ) (qnameAsciiLowercase : Bool)
    (augmentation : Augmentation) : Augmentation :=
  let augmentation := image.pushNsecCoveringName qname qclass augmentation
  match image.closestEncloserLabelsFromNode qname closestQnameNode with
  | none => if image.nsec3DenialActive then augmentation.servfail else augmentation
  | some closestLabels =>
    let (plan, state) := image.pushNsecCoveringLabelView
      (.wildcardChild closestLabels qnameAsciiLowercase) qclass augmentation
    if image.nsec3DenialActive then
      match image.nsec3NameErrorProof sha1 qname qclass qnameAsciiLowercase state with
      | (some proof, state) => image.pushDnssecAuthorityRrsets proof (plan, state)
      | (none, state) => Augmentation.servfail (plan, state)
    else
      (plan, state)

/-- The NSEC3 RRset that covers the name one label below its closest encloser. -/
def nsec3NextCloserCover (closestLabels : List Label) (asciiLowercase : Bool) (qclass : UInt16)
    (state : ZoneImageDnssecState) : Option ℕ × ZoneImageDnssecState :=
  if qname.labelCount < closestLabels.length + 1 then
    (none, state)
  else
    image.nsec3Covering sha1
      ⟨none, qname.labels.drop (qname.labelCount - (closestLabels.length + 1)), asciiLowercase⟩
      qclass state

def addWildcardNodataNsecAugmentations (wildcardName : DomainName) (qclass : UInt16)
    (closestQnameNode : Option ℕ) (augmentation : Augmentation) : Augmentation :=
  let augmentation := image.pushWildcardNsec qname wildcardName qclass augmentation
  if image.nsec3DenialActive then
    match image.closestEncloserLabelsFromNode qname closestQnameNode with
    | none => augmentation.servfail
    | some closestLabels =>
      let (plan, state) := augmentation
      let (exactClosest, state) := image.nsec3Exact sha1 ⟨none, closestLabels, false⟩ qclass state
      let (nextCloser, state) := image.nsec3NextCloserCover sha1 qname closestLabels false qclass
        state
      let (exactWildcard, state) := image.nsec3Exact sha1 (.ofName wildcardName false) qclass state
      match exactClosest, nextCloser, exactWildcard with
      | some exactClosest, some nextCloser, some exactWildcard =>
        image.pushDnssecAuthorityRrsets [exactClosest, nextCloser, exactWildcard] (plan, state)
      | _, _, _ => Augmentation.servfail (plan, state)
  else
    augmentation

def addWildcardNsecAugmentations : Augmentation :=
  let (plan, state) := image.pushNsecCoveringName qname qclass augmentation
  if image.nsec3DenialActive then
    match (image.closestEncloserNode qname).bind fun node =>
        image.closestEncloserLabelsFromNode qname (some node) with
    | none => Augmentation.servfail (plan, state)
    | some closestLabels =>
      match image.nsec3NextCloserCover sha1 qname closestLabels qnameAsciiLowercase
          qclass state with
      | (some nextCloser, state) => image.pushDnssecAuthorityRrset nextCloser (plan, state)
      | (none, state) => Augmentation.servfail (plan, state)
  else
    (plan, state)

def selectedRecordFromRelation (relation : ℕ × ℕ) : Option ZoneImageSelectedRecord :=
  image.rrsets[relation.1]?.bind fun rrset =>
    rrset.records[relation.2]?.map fun record =>
      { rrsetId := relation.1
        recordIndex := relation.2
        wireLen := rrset.owner.toWire.length + 10 + record.rdata.length
        rdataLen := record.rdata.length
        fixedFields := recordFixedFields record rrset.fixedFields }

variable (sec : DnssecSection)

def pushSelected (ownerIndex : Option ℕ) (selected : ZoneImageSelectedRecord) :
    ZoneImageLookupPlan :=
  match ownerIndex, sec with
  | some ownerIndex, .answer => plan.pushSelectedAnswerRecordWithOwner selected ownerIndex
  | some ownerIndex, .additional => plan.pushSelectedAdditionalRecordWithOwner selected ownerIndex
  | _, sec => plan.pushSelectedRecordSection sec selected

def pushRrsigForRrset (ownerIndex : Option ℕ) (augmentation : Augmentation)
    (coveredRrsetId : ℕ) : Augmentation :=
  ((image.precomputedRrsigRelations coveredRrsetId).filterMap
      image.selectedRecordFromRelation).foldl (fun (augmentation : Augmentation) selected =>
        let (plan, state) := augmentation
        let (seen, fresh) := insertSelectedRecord state.seenSelectedRecords selected
        if fresh then
          (pushSelected plan sec ownerIndex selected,
            { state with seenSelectedRecords := seen, dnssecAugmented := true })
        else
          (plan, state))
      augmentation

/-- The signatures of the answers, under the owners the answers have. -/
def addAnswerRrsigs : Augmentation :=
  if augmentation.1.answerItems.isEmpty then
    augmentation.1.answerRrsets.foldl (image.pushRrsigForRrset .answer none) augmentation
  else
    augmentation.1.answerItems.foldl
      (fun augmentation item =>
        match item with
        | .rrset rrsetId => image.pushRrsigForRrset .answer none augmentation rrsetId
        | .rrsetWithOwner rrsetId ownerIndex =>
          image.pushRrsigForRrset .answer (some ownerIndex) augmentation rrsetId
        | _ => augmentation)
      augmentation

def addRrsigAugmentations : Augmentation :=
  let augmentation := image.addAnswerRrsigs augmentation
  let augmentation := augmentation.1.authorityRrsets.foldl
    (image.pushRrsigForRrset .authority none) augmentation
  let augmentation := augmentation.1.additionalRrsets.foldl
    (image.pushRrsigForRrset .additional none) augmentation
  augmentation.1.additionalRrsetsWithOwner.foldl
    (fun augmentation entry => image.pushRrsigForRrset .additional
    (some entry.2) augmentation entry.1) augmentation

section Augment

/-- The denial of a name or a type, when the plan carries the zone's SOA. -/
def addDenialAugmentations (nodataCandidate nxdomainCandidate : Bool)
    (denialContext : Option ZoneImageDenialContext) (augmentation : Augmentation) : Augmentation :=
  if (nodataCandidate || nxdomainCandidate) && augmentation.1.authorityHasSoa then
    let proofName := match denialContext with
      | none => qname
      | some context => context.terminalName
    let asciiLowercase := denialContext.isSome || qnameAsciiLowercase
    let (exactNode, closestNode) := image.queryNodeHandles proofName asciiLowercase
    match denialContext with
    | some ⟨_, .noData⟩ =>
      if nodataCandidate then
        image.addNodataNsecAugmentations sha1 proofName qclass exactNode asciiLowercase
          augmentation
      else
        augmentation
    | some ⟨_, .nameError⟩ =>
      if nxdomainCandidate then
        image.addNxdomainNsecAugmentations sha1 proofName qclass closestNode asciiLowercase
          augmentation
      else
        augmentation
    | some ⟨_, .wildcardNoData wildcardName⟩ =>
      if nodataCandidate then
        image.addWildcardNodataNsecAugmentations sha1 proofName wildcardName qclass closestNode
          augmentation
      else
        augmentation
    | none =>
      if nodataCandidate then
        image.addNodataNsecAugmentations sha1 qname qclass exactNode qnameAsciiLowercase
          augmentation
      else
        image.addNxdomainNsecAugmentations sha1 qname qclass closestNode qnameAsciiLowercase
          augmentation
  else
    augmentation

def addWildcardAugmentations : Augmentation :=
  match augmentation.1.wildcardProofNames with
  | some names =>
    names.foldl
      (fun augmentation name => image.addWildcardNsecAugmentations sha1 name qclass
      true augmentation) augmentation
  | none => image.addWildcardNsecAugmentations sha1 qname qclass qnameAsciiLowercase augmentation

variable (nsec3MaxIterations : UInt16)

def startAugmentation : Augmentation :=
  (plan,
    { appendedAuthorityRrsets := []
      originalAuthorityRrsetCount := min plan.authorityRrsets.length u16Max
      seenSelectedRecords :=
        if image.dnssecRrsigAugmentationPossible && plan.dnssecAugmented then
          planSelectedRecordIdentities plan
        else
          []
      dnssecAugmented := false
      nsec3IterationsExceeded := false
      nsec3MaxIterations })

/-- The additions in their order: the referral, the denial, the wildcards and
the signatures of all that is there by then. -/
def addAugmentations (referralCandidate nodataCandidate nxdomainCandidate wildcardCandidate : Bool)
    (start : Augmentation) : Augmentation :=
  let augmentation :=
    if referralCandidate then image.addReferralDnssecAugmentations sha1 start else start
  let augmentation := image.addDenialAugmentations sha1 qname qclass qnameAsciiLowercase
    nodataCandidate nxdomainCandidate start.1.denialContext augmentation
  let augmentation :=
    if wildcardCandidate then
      image.addWildcardAugmentations sha1 qname qclass qnameAsciiLowercase augmentation
    else
      augmentation
  if image.dnssecRrsigAugmentationPossible then image.addRrsigAugmentations augmentation
  else augmentation

/-- `augment_lookup_plan_with_dnssec_ascii_lowercase_hint`. -/
def augmentLookupPlanWithDnssec (qnameAsciiLowercase : Bool) : ZoneImageLookupPlan :=
  if !image.dnssecAugmentationPossible then
    plan
  else
    let referralCandidate := image.dnssecReferralAugmentationPossible && plan.referralNs.isSome
    let denialPossible := image.dnssecDenialAugmentationPossible
    let nodataCandidate := denialPossible && planIsNodataCandidate plan
    let nxdomainCandidate := denialPossible && planIsNxdomainCandidate plan
    let wildcardCandidate := denialPossible && planIsWildcardSynthesisCandidate plan
    if image.dnssecDenialBroken && (nodataCandidate || nxdomainCandidate || wildcardCandidate) then
      plan.setDnssecProofServfail
    else if !referralCandidate && !image.dnssecRrsigAugmentationPossible && !nodataCandidate &&
        !nxdomainCandidate && !wildcardCandidate then
      plan
    else
      let augmentation := image.addAugmentations sha1 qname qclass qnameAsciiLowercase
        referralCandidate nodataCandidate nxdomainCandidate wildcardCandidate
        (image.startAugmentation plan nsec3MaxIterations)
      { augmentation.1 with
        dnssecAugmented := augmentation.2.dnssecAugmented
        nsec3IterationsExceeded := augmentation.2.nsec3IterationsExceeded }

end Augment

end ZoneImage

end BoronDns
