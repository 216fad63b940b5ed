import BoronDns.ImageSearch

/-!
The lookups of a compiled zone. An answer is found at the node of the name, at
a wildcard, behind an alias or at a zone cut; an alias is followed inside the
zone as long as the chain limit allows, and a target outside the zone is left
to the caller.
-/

namespace BoronDns

open RecordType

inductive ZoneImageLookupOutcome
  | found (plan : ZoneImageLookupPlan)
  | noData
  | nameError
  | outOfZone
  | unsupported

structure ChainState where
  originalQname : DomainName
  originalNode : Option ℕ
  visitedTargetNodes : List ℕ
  anyResponse : AnyResponseMode

variable (image : ZoneImage) (qname : DomainName) (qtype qclass : UInt16) (resume : Option Resume)
  (rrsetId closestNode : ℕ) (plan : ZoneImageLookupPlan) (rrset : ℕ)

def chainStateStart (originalNode : Option ℕ) (anyResponse : AnyResponseMode) : ChainState :=
  ⟨qname, originalNode, [], anyResponse⟩

/-- The target's wire form that the source passes along is the target's own. -/
def targetMatchesOriginalQuery (target : DomainName) (targetNode : ImageTargetNode)
    (state : ChainState) : Bool :=
  match targetNode, state.originalNode with
  | .inZoneNode targetNode, some originalNode => targetNode == originalNode
  | _, _ => target.lowerLabels == state.originalQname.lowerLabels

namespace ZoneImage

def pushAnswerRrsetToPlan : ZoneImageLookupPlan :=
  plan.pushAnswerRrset rrset (image.rrsetPlanMetrics rrset)

def pushAuthorityRrsetToPlan : ZoneImageLookupPlan :=
  plan.pushAuthorityRrset rrset (image.rrsetPlanMetrics rrset)

def pushAdditionalRrsetToPlan : ZoneImageLookupPlan :=
  plan.pushAdditionalRrset rrset (image.rrsetPlanMetrics rrset)

variable (ownerIndex : ℕ)

def pushAdditionalRrsetWithOwnerToPlan : ZoneImageLookupPlan :=
  plan.pushAdditionalRrsetWithOwner rrset ownerIndex
    (image.rrsetPlanMetricsWithOwnerLen rrset (plan.ownerOverrides.getD ownerIndex []).length)

/-- The owners under which a wildcard was expanded, in canonical form. -/
def recordWildcardProofName (owner : DomainName) : ZoneImageLookupPlan :=
  let proofName := owner.toAsciiLowercased
  let proofNames := plan.wildcardProofNames.getD []
  { plan with
    wildcardProofNames :=
      some (if proofNames.contains proofName then proofNames else proofNames ++ [proofName]) }

def pushAnswerRrsetWithOwnerToPlan (owner : DomainName) : ZoneImageLookupPlan × ℕ :=
  (recordWildcardProofName plan owner).pushAnswerRrsetWithOwnerWire rrset owner.toWire
    (image.rrsetPlanMetricsWithOwnerLen rrset owner.toWire.length)

def pushSoaToPlan (qclass : UInt16) : ZoneImageLookupPlan :=
  match image.soaRrset qclass with
  | none => plan
  | some soa => image.pushAuthorityRrsetToPlan plan soa

variable (terminalName : DomainName)

def nodataPlan (qclass : UInt16) : ZoneImageLookupPlan :=
  (image.pushSoaToPlan .nodata qclass).withDenialContext terminalName .noData

def nxdomainPlan (qclass : UInt16) : ZoneImageLookupPlan :=
  (image.pushSoaToPlan .nxdomain qclass).withDenialContext terminalName .nameError

def addGlueForNsRrset (nsRrset : ℕ) (plan : ZoneImageLookupPlan) : ZoneImageLookupPlan :=
  (image.precomputedReferralGlueRelations nsRrset).foldl image.pushAdditionalRrsetToPlan plan

/-- The second component says whether anything was added. -/
def addPrecomputedAdditionalsForSingleAnswerRrset : ZoneImageLookupPlan × Bool :=
  let relations := image.precomputedAdditionalRelations rrsetId
  (relations.foldl (fun plan relation => image.pushAdditionalRrsetToPlan plan relation.1) plan,
    !relations.isEmpty)

def pushAdditionalsForRrsetTargets (state : List ℕ × ZoneImageLookupPlan) :
    List ℕ × ZoneImageLookupPlan :=
  (image.precomputedAdditionalRelations rrsetId).foldl
    (fun state relation =>
      if state.1.contains relation.1 then
        state
      else
        (state.1 ++ [relation.1], image.pushAdditionalRrsetToPlan state.2 relation.1))
    state

def pushAdditionalsForRrsetTargetsWithEffectiveOwner
    (state : List (ℕ × Bool) × ZoneImageLookupPlan) : List (ℕ × Bool) × ZoneImageLookupPlan :=
  (image.precomputedAdditionalRelations rrsetId).foldl
    (fun state relation =>
      if state.1.contains relation then
        state
      else if relation.2 then
        (state.1 ++ [relation],
          image.pushAdditionalRrsetWithOwnerToPlan state.2 relation.1 ownerIndex)
      else
        (state.1 ++ [relation], image.pushAdditionalRrsetToPlan state.2 relation.1))
    state

def addPrecomputedAdditionalsForWildcardAnswerRrset (plan : ZoneImageLookupPlan) :
    ZoneImageLookupPlan :=
  (image.pushAdditionalsForRrsetTargetsWithEffectiveOwner rrsetId ownerIndex ([], plan)).2

variable (node : ℕ)

def pushFullAnyRrsetsAtNode (qclass : UInt16) (plan : ZoneImageLookupPlan) : ZoneImageLookupPlan :=
  ((image.anyRrsetsAtNode node qclass).foldl (fun (state : List ℕ × ZoneImageLookupPlan) rrset =>
      image.pushAdditionalsForRrsetTargets rrset
        (state.1, image.pushAnswerRrsetToPlan state.2 rrset))
    ([], plan)).2

/-- The owner is put into the plan before the first RRset, and only if there is
one. -/
def pushFullAnyRrsetsWithOwnerAtNode (qclass : UInt16) (owner : DomainName)
    (plan : ZoneImageLookupPlan) : ZoneImageLookupPlan :=
  let rrsets := image.anyRrsetsAtNode node qclass
  if rrsets.isEmpty then
    plan
  else
    let ownerIndex := plan.ownerOverrides.length
    let plan := recordWildcardProofName plan owner
    let plan :=
      { plan with
        wildcardSynthesized := true
        ownerOverrides := plan.ownerOverrides ++ [owner.toWire] }
    (rrsets.foldl (fun (state : List (ℕ × Bool) × ZoneImageLookupPlan) rrset =>
        image.pushAdditionalsForRrsetTargetsWithEffectiveOwner rrset ownerIndex
          (state.1, state.2.pushAnswerRrsetWithOwnerIndex rrset ownerIndex
            (image.rrsetPlanMetricsWithOwnerLen rrset owner.toWire.length)))
      ([], plan)).2

/-- The closest encloser's labels with a wildcard label in front. -/
def wildcardNameAtClosestNode : Option DomainName :=
  match image.nodes[closestNode]? with
  | none => none
  | some entry =>
    if qname.labelCount < image.origin.labelCount ∨
        qname.labelCount - image.origin.labelCount < entry.build.depth then
      none
    else
      let closestLabels :=
        qname.labels.drop (qname.labelCount - image.origin.labelCount - entry.build.depth)
      DomainName.fromUncompressedWire (labelsWire ([42] :: closestLabels) ++ [0])

/-- Where an alias chain goes on, with the budget it has left. -/
abbrev Resume := DomainName → ImageTargetNode → ZoneImageLookupPlan → ChainState →
  ZoneImageLookupPlan

def rrsetOwner : DomainName :=
  match image.rrsets[rrsetId]? with
  | none => .root
  | some rrset => rrset.owner

def synthesizedCnameFixedFields : ZoneImageRecordFixedFields :=
  match image.rrsets[rrsetId]? with
  | none => ⟨cname, 0, 0⟩
  | some rrset => { rrset.fixedFields with rrType := cname }

variable (current : DomainName)

/-- What a DNAME makes of a name below it: the plan with the DNAME and the
synthesized CNAME, and the name to go on with. -/
def followDname (qtype qclass : UInt16) (malformed unrepresentable plan : ZoneImageLookupPlan)
    (dname : ℕ)
    (resume : DomainName → ImageTargetNode → ZoneImageLookupPlan → ZoneImageLookupPlan) :
    ZoneImageLookupPlan :=
  if image.rrsetRecordCount dname ≠ 1 then
    image.pushAnswerRrsetToPlan malformed dname
  else
    match image.singleNameRrsetTarget dname with
    | none => image.pushAnswerRrsetToPlan malformed dname
    | some target =>
      let owner := image.rrsetOwner dname
      match current.withReplacedSuffix owner target.name with
      | none => image.pushSoaToPlan (image.pushAnswerRrsetToPlan unrepresentable dname) qclass
      | some synthesizedTarget =>
        let plan := (image.pushAnswerRrsetToPlan plan dname).pushSynthesizedAnswer current
          (image.synthesizedCnameFixedFields dname) .singleName synthesizedTarget.toWire
        if qtype = cname ∨ qtype = RecordType.any then
          plan
        else
          resume synthesizedTarget
            (image.dnameSynthesizedTargetNodeHint target synthesizedTarget current
              (current.labelCount - owner.labelCount))
            plan

def resolveDnameAt (plan : ZoneImageLookupPlan) (state : ChainState) (dname : ℕ) :
    ZoneImageLookupPlan :=
  match resume with
  | none => plan.setServfail .cnameChainLimit
  | some resume =>
    image.followDname current qtype qclass (plan.setServfail .malformedDname)
      { plan with rcode := .yxDomain } plan dname
      fun target hint plan => resume target hint plan state

def resolveCnameAt (state : ChainState) (cname : ℕ) : ZoneImageLookupPlan :=
  match resume with
  | none => plan.setServfail .cnameChainLimit
  | some resume =>
    let plan := image.pushAnswerRrsetToPlan plan cname
    match image.singleNameRrsetTarget cname with
    | none => plan
    | some target => resume target.name target.nodeHint plan state

/-- A wildcard below the closest existing node of an alias target. -/
def resolveWildcardContinuationAt (target : DomainName) (plan : ZoneImageLookupPlan)
    (state : ChainState) : Option ZoneImageLookupPlan :=
  match image.findChild closestNode [42] with
  | none => none
  | some wildcardNode =>
    let (answered, plan) :=
      if qtype = RecordType.any then
        match state.anyResponse with
        | .minimal =>
          match image.minimalAnyRrsetAtNode wildcardNode qclass with
          | none => (false, plan)
          | some rrset =>
            let (plan, ownerIndex) := image.pushAnswerRrsetWithOwnerToPlan plan rrset target
            (true, image.addPrecomputedAdditionalsForWildcardAnswerRrset rrset ownerIndex plan)
        | .full =>
          let full := image.pushFullAnyRrsetsWithOwnerAtNode wildcardNode qclass target plan
          (full.answerRecordCount != plan.answerRecordCount, full)
      else
        (false, plan)
    if answered then
      some plan
    else
      let exact :=
        if image.lowRrtypeMayExist qtype then image.findRrsetAtNode wildcardNode qtype qclass
        else none
      match exact with
      | some rrset =>
        let (plan, ownerIndex) := image.pushAnswerRrsetWithOwnerToPlan plan rrset target
        some (image.addPrecomputedAdditionalsForWildcardAnswerRrset rrset ownerIndex plan)
      | none =>
        let cname :=
          if qtype ≠ cname ∧ image.lowRrtypeMayExist cname = true then
            image.findRrsetAtNode wildcardNode cname qclass
          else
            none
        match cname with
        | some cname =>
          match resume with
          | none => some (plan.setServfail .cnameChainLimit)
          | some resume =>
            let (plan, _) := image.pushAnswerRrsetWithOwnerToPlan plan cname target
            (image.singleNameRrsetTarget cname).map fun cnameTarget =>
              resume cnameTarget.name cnameTarget.nodeHint plan state
        | none =>
          if image.ordinaryNameExists wildcardNode then
            let plan := image.pushSoaToPlan { plan with rcode := .noError } qclass
            (image.wildcardNameAtClosestNode target closestNode).map fun wildcardName =>
              plan.withDenialContext target (.wildcardNoData wildcardName)
          else
            none

/-- A target node counts only if its name exists in the zone's own data. -/
def ordinaryTargetNode : ImageTargetNode → ImageTargetNode
  | .inZoneNode node => if image.ordinaryNameExists node then .inZoneNode node else .inZoneMissing
  | other => other

/-- The DNAME above a queried name. -/
def queryDname (exactNode closestNode : Option ℕ) (qclass : UInt16) : Option ℕ :=
  if image.lowRrtypeMayExist dname then
    closestNode.bind fun node => image.dnameForNode exactNode node qclass
  else
    none

/-- The zone cut a query stops at: the one above the name, unless a DNAME comes
first or the parent's own DS at the cut is asked for. -/
def queryCut (exactNode closestNode : Option ℕ) (qtype qclass : UInt16) (dname : Option ℕ) :
    Option ℕ :=
  closestNode.bind fun node =>
    (image.delegationForNode node qclass).bind fun delegation =>
      if image.delegationPrecedesDname delegation dname &&
          !image.queryIsDsAtDelegationOwner exactNode node qtype delegation then
        some delegation
      else
        none

/-- `resolve_indirection_target`, with `remaining` steps of the chain left and
`resume` for the next of them. -/
def resolveStep (remaining : ℕ) (resume : Option Resume) (target : DomainName)
    (hint : ImageTargetNode) (plan : ZoneImageLookupPlan) (state : ChainState) :
    ZoneImageLookupPlan :=
  let targetNode := image.ordinaryTargetNode hint
  if targetMatchesOriginalQuery target targetNode state then
    plan.setServfail .cnameLoop
  else if targetNode = .outOfZone ∨ targetNode = .outOfZoneParentSuffix then
    plan.withIndirectionContinuation target remaining
  else
    let (exactTargetNode, closestTargetNode) := image.queryNodeHandles target false
    let dname := image.queryDname exactTargetNode closestTargetNode qclass
    match image.queryCut exactTargetNode closestTargetNode qtype qclass dname with
    | some delegation =>
      let plan := image.pushAuthorityRrsetToPlan
        { plan with referralNsRrset := some delegation } delegation
      (image.addGlueForNsRrset delegation plan).withIndirectionContinuation target remaining
    | none =>
      match dname with
      | some dname => image.resolveDnameAt qtype qclass resume target plan state dname
      | none =>
        let wildcardPlan :=
          if exactTargetNode.isNone then
            closestTargetNode.bind fun node =>
              image.resolveWildcardContinuationAt qtype qclass resume node target plan state
          else
            none
        match wildcardPlan with
        | some plan => plan
        | none =>
          match targetNode with
          | .inZoneNode node =>
            if state.visitedTargetNodes.contains node then
              plan.setServfail .cnameLoop
            else
              let state :=
                { state with visitedTargetNodes := state.visitedTargetNodes ++ [node] }
              let (answered, plan) :=
                if qtype = RecordType.any then
                  match state.anyResponse with
                  | .minimal =>
                    match image.minimalAnyRrsetAtNode node qclass with
                    | none => (false, plan)
                    | some rrset => (true, (image.addPrecomputedAdditionalsForSingleAnswerRrset
                        rrset (image.pushAnswerRrsetToPlan plan rrset)).1)
                  | .full =>
                    let full := image.pushFullAnyRrsetsAtNode node qclass plan
                    (full.answerRecordCount != plan.answerRecordCount, full)
                else
                  (false, plan)
              if answered then
                plan
              else
                let exact :=
                  if image.lowRrtypeMayExist qtype then image.findRrsetAtNode node qtype qclass
                  else none
                match exact with
                | some rrset => (image.addPrecomputedAdditionalsForSingleAnswerRrset rrset
                    (image.pushAnswerRrsetToPlan plan rrset)).1
                | none =>
                  let cname :=
                    if qtype ≠ cname ∧
                        image.lowRrtypeMayExist cname = true then
                      image.findRrsetAtNode node cname qclass
                    else
                      none
                  match cname with
                  | some cname => image.resolveCnameAt resume plan state cname
                  | none => (image.pushSoaToPlan { plan with rcode := .noError }
                      qclass).withDenialContext target .noData
          | _ => (image.pushSoaToPlan { plan with rcode := .nxDomain } qclass).withDenialContext
              target .nameError

def resolveIndirectionTarget (image : ZoneImage) (qtype qclass : UInt16) : ℕ → Resume
  | 0 => image.resolveStep qtype qclass 0 none
  | remaining + 1 => image.resolveStep qtype qclass (remaining + 1)
      (some (image.resolveIndirectionTarget qtype qclass remaining))

/-- The continuation a chain of `maxCnameChain` steps may still take. -/
def chainResume : ℕ → Option Resume
  | 0 => none
  | remaining + 1 => some (image.resolveIndirectionTarget qtype qclass remaining)

variable (maxCnameChain : ℕ)

def lookupDname (exactNode : Option ℕ) (dname : ℕ) (anyResponse : AnyResponseMode) :
    ZoneImageLookupPlan :=
  match image.chainResume qtype qclass maxCnameChain with
  | none => .servfail .cnameChainLimit
  | some resume =>
    image.followDname qname qtype qclass (.servfail .malformedDname) .yxdomain .positive dname
      fun target hint plan => resume target hint plan (chainStateStart qname exactNode anyResponse)

def lookupWildcardAtClosestNode (qname : DomainName) (qtype qclass : UInt16) (maxCnameChain : ℕ)
    (anyResponse : AnyResponseMode) : Option ZoneImageLookupPlan :=
  match image.findChild closestNode [42] with
  | none => none
  | some wildcardNode =>
    let answered : Option ZoneImageLookupPlan :=
      if qtype = RecordType.any then
        match anyResponse with
        | .minimal =>
          (image.minimalAnyRrsetAtNode wildcardNode qclass).map fun rrset =>
            let (plan, ownerIndex) := image.pushAnswerRrsetWithOwnerToPlan .positive rrset qname
            image.addPrecomputedAdditionalsForWildcardAnswerRrset rrset ownerIndex plan
        | .full =>
          let full := image.pushFullAnyRrsetsWithOwnerAtNode wildcardNode qclass qname .positive
          if full.answerHasRecords then some full else none
      else if image.lowRrtypeMayExist qtype then
        (image.findRrsetAtNode wildcardNode qtype qclass).map fun rrset =>
          let (plan, ownerIndex) := image.pushAnswerRrsetWithOwnerToPlan .positive rrset qname
          image.addPrecomputedAdditionalsForWildcardAnswerRrset rrset ownerIndex plan
      else
        none
    match answered with
    | some plan => some plan
    | none =>
      let cname :=
        if qtype ≠ cname ∧ image.lowRrtypeMayExist cname = true then
          image.findRrsetAtNode wildcardNode cname qclass
        else
          none
      match cname with
      | some cname =>
        match image.chainResume qtype qclass maxCnameChain with
        | none => some (.servfail .cnameChainLimit)
        | some resume =>
          let (plan, _) := image.pushAnswerRrsetWithOwnerToPlan .positive cname qname
          match image.singleNameRrsetTarget cname with
          | none => some plan
          | some target =>
            some (resume target.name target.nodeHint plan (chainStateStart qname none anyResponse))
      | none =>
        if image.ordinaryNameExists wildcardNode then
          (image.wildcardNameAtClosestNode qname closestNode).map fun wildcardName =>
            (image.nodataPlan qname qclass).withDenialContext qname (.wildcardNoData wildcardName)
        else
          none

def lookupExactPlan : ZoneImageLookupOutcome :=
  if qtype = RecordType.any then
    .unsupported
  else
    match image.findNode qname with
    | none => if qname.isEqualOrSubdomainOf image.origin then .nameError else .outOfZone
    | some node =>
      if !image.ordinaryNameExists node then
        .nameError
      else if !image.lowRrtypeMayExist qtype then
        .noData
      else if qclass ≠ classAny then
        match image.findRrsetAtNode node qtype qclass with
        | some rrset => .found (image.pushAnswerRrsetToPlan .positive rrset)
        | none => .noData
      else
        let plan := ((image.rrsetsAtNode node).filter fun entry =>
          entry.2.rrType == qtype && qclassMatches entry.2.cls qclass).foldl
            (fun plan entry => image.pushAnswerRrsetToPlan plan entry.1)
            ZoneImageLookupPlan.positive
        if plan.answerRrsets.isEmpty then .noData else .found plan

def lookupDirectAnswerPlan (qnameAsciiLowercase : Bool) : Option ZoneImageLookupPlan :=
  if qtype = RecordType.any ∨ rrTypeMayHaveAdditionalAddressTarget qtype = true ∨
      image.lowRrtypeMayExist qtype = false then
    none
  else
    match image.findNodeWithAsciiLowercaseHint qname qnameAsciiLowercase with
    | none => none
    | some node =>
      if !image.ordinaryNameExists node then
        none
      else
        match image.findRrsetAtNode node qtype qclass with
        | none => none
        | some rrset =>
          if image.coveringDelegationBlocksDirectAnswer node qtype qclass ||
              image.coveringDnameBlocksDirectAnswer node qclass then
            none
          else
            some (image.pushAnswerRrsetToPlan .positive rrset).markDirectAnswerCandidate

/-- The answer at the node of the name itself, if there is one. -/
def exactAnswerPlan (qtype qclass : UInt16) (anyResponse : AnyResponseMode) :
    Option ZoneImageLookupPlan :=
  if qtype = RecordType.any then
    match anyResponse with
    | .minimal =>
      (image.minimalAnyRrsetAtNode node qclass).map fun rrset =>
        (image.addPrecomputedAdditionalsForSingleAnswerRrset rrset
          (image.pushAnswerRrsetToPlan .positive rrset)).1
    | .full =>
      let full := image.pushFullAnyRrsetsAtNode node qclass .positive
      if full.answerHasRecords then some full else none
  else if image.lowRrtypeMayExist qtype then
    (image.findRrsetAtNode node qtype qclass).map fun rrset =>
      let (plan, addedAdditionals) := image.addPrecomputedAdditionalsForSingleAnswerRrset rrset
        (image.pushAnswerRrsetToPlan .positive rrset)
      if addedAdditionals then plan else plan.markDirectAnswerCandidate
  else
    none

def lookupResponsePlan (anyResponse : AnyResponseMode) (qnameAsciiLowercase : Bool) :
    ZoneImageLookupPlan :=
  let (exactNode, closestOrExactNode) := image.queryNodeHandles qname qnameAsciiLowercase
  let dname := image.queryDname exactNode closestOrExactNode qclass
  match image.queryCut exactNode closestOrExactNode qtype qclass dname with
  | some delegation =>
    image.addGlueForNsRrset delegation (.referral delegation (image.rrsetPlanMetrics delegation))
  | none =>
    match dname with
    | some dname => image.lookupDname qname qtype qclass maxCnameChain exactNode dname anyResponse
    | none =>
      match exactNode with
      | some node =>
        match image.exactAnswerPlan node qtype qclass anyResponse with
        | some plan => plan
        | none =>
          let cname :=
            if qtype ≠ cname ∧ image.lowRrtypeMayExist cname = true then
              image.findRrsetAtNode node cname qclass
            else
              none
          match cname with
          | some cname => image.resolveCnameAt (image.chainResume qtype qclass maxCnameChain)
              .positive (chainStateStart qname exactNode anyResponse) cname
          | none => image.nodataPlan qname qclass
      | none =>
        let wildcardPlan := closestOrExactNode.bind fun node =>
          image.lookupWildcardAtClosestNode node qname qtype qclass maxCnameChain anyResponse
        match wildcardPlan with
        | some plan => plan
        | none => image.nxdomainPlan qname qclass

end ZoneImage

end BoronDns
