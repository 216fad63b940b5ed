import BoronDns.ResponseMessage
import BoronDns.ZoneImage

/-!
A lookup plan names the records of a response by their place in the image. It
is built by a handful of operations that also keep the record counts of the
three sections; the visitors turn a plan into the records it stands for.
-/

namespace BoronDns

variable (plan : ZoneImageLookupPlan) (rrset : ℕ) (record : ZoneImageSelectedRecord)
  (ownerIndex : ℕ) (metrics : ZoneImageRrsetPlanMetrics)

inductive LookupTermination
  | cnameChainLimit
  | cnameLoop
  | malformedDname
  deriving DecidableEq, Repr

/-- One record of an RRset of the image, with the fixed fields it is sent with. -/
structure ZoneImageSelectedRecord where
  rrsetId : ℕ
  recordIndex : ℕ
  wireLen : ℕ
  rdataLen : ℕ
  fixedFields : ZoneImageRecordFixedFields
  deriving DecidableEq

/-- A record that is made up for the answer has the fields of a wire record. -/
abbrev ZoneImageSynthesizedRecord := ZoneImageWireRecord

inductive PlanAnswer
  | rrset (rrsetId : ℕ)
  | rrsetWithOwner (rrsetId ownerIndex : ℕ)
  | dynamicRecord (index : ℕ)
  | selectedRecord (record : ZoneImageSelectedRecord)
  | selectedRecordWithOwner (record : ZoneImageSelectedRecord) (ownerIndex : ℕ)
  deriving DecidableEq

inductive ZoneImageDenialKind
  | noData
  | nameError
  | wildcardNoData (wildcardName : DomainName)
  deriving DecidableEq

structure ZoneImageDenialContext where
  terminalName : DomainName
  kind : ZoneImageDenialKind
  deriving DecidableEq

structure ZoneImageIndirectionContinuation where
  target : DomainName
  remaining : ℕ
  deriving DecidableEq

structure ZoneImageLookupPlan where
  rcode : Rcode
  answerRrsets : List ℕ
  answerItems : List PlanAnswer
  authorityRrsets : List ℕ
  additionalRrsets : List ℕ
  additionalRrsetsWithOwner : List (ℕ × ℕ)
  ownerOverrides : List (List UInt8)
  dynamicAnswers : List ZoneImageSynthesizedRecord
  selectedAuthorities : List ZoneImageSelectedRecord
  selectedAdditionals : List ZoneImageSelectedRecord
  selectedAdditionalsWithOwner : List (ZoneImageSelectedRecord × ℕ)
  answerRecordCount : ℕ
  authorityRecordCount : ℕ
  additionalRecordCount : ℕ
  answerWireUpperBound : ℕ
  bodyWireUpperBound : ℕ
  referralNsRrset : Option ℕ
  authoritySoaIndex : Option ℕ
  answerHasRecords : Bool
  authorityHasSoa : Bool
  wildcardSynthesized : Bool
  dnssecAugmented : Bool
  nsec3IterationsExceeded : Bool
  directAnswerCandidate : Bool
  authoritative : Bool
  authorityFirstRrsetIsSoa : Bool
  termination : Option LookupTermination
  continuation : Option ZoneImageIndirectionContinuation
  denialContext : Option ZoneImageDenialContext
  wildcardProofNames : Option (List DomainName)
  deriving DecidableEq

structure ZoneImageRrsetPlanMetrics where
  rrType : UInt16
  recordCount : ℕ
  wireUpperBound : ℕ

def u32Max : ℕ := 4294967295

def u16Max : ℕ := 65535

/-- `add_plan_record_count`: the counts saturate at the largest `u32`. -/
def addPlanRecordCount (count recordCount : ℕ) : ℕ := min (count + min recordCount u32Max) u32Max

/-- `add_plan_wire_upper_bound`: so do the bounds on the octets. -/
def addPlanWireUpperBound (bytes wireUpperBound : ℕ) : ℕ :=
  min (bytes + min wireUpperBound u32Max) u32Max

inductive DnssecSection
  | answer
  | authority
  | additional
  deriving DecidableEq

namespace ZoneImageLookupPlan

def positive : ZoneImageLookupPlan where
  rcode := .noError
  answerRrsets := []
  answerItems := []
  authorityRrsets := []
  additionalRrsets := []
  additionalRrsetsWithOwner := []
  ownerOverrides := []
  dynamicAnswers := []
  selectedAuthorities := []
  selectedAdditionals := []
  selectedAdditionalsWithOwner := []
  answerRecordCount := 0
  authorityRecordCount := 0
  additionalRecordCount := 0
  answerWireUpperBound := 0
  bodyWireUpperBound := 0
  referralNsRrset := none
  authoritySoaIndex := none
  answerHasRecords := false
  authorityHasSoa := false
  wildcardSynthesized := false
  dnssecAugmented := false
  nsec3IterationsExceeded := false
  directAnswerCandidate := false
  authoritative := true
  authorityFirstRrsetIsSoa := false
  termination := none
  continuation := none
  denialContext := none
  wildcardProofNames := none

def ensureAnswerItems : ZoneImageLookupPlan :=
  if plan.answerItems.isEmpty then
    { plan with answerItems := plan.answerRrsets.map .rrset }
  else
    plan

def pushAnswerRrset : ZoneImageLookupPlan :=
  if plan.answerRrsets.contains rrset then
    plan
  else
    { plan with
      directAnswerCandidate := false
      answerHasRecords := true
      answerRecordCount := addPlanRecordCount plan.answerRecordCount metrics.recordCount
      answerWireUpperBound := addPlanWireUpperBound plan.answerWireUpperBound metrics.wireUpperBound
      bodyWireUpperBound := addPlanWireUpperBound plan.bodyWireUpperBound metrics.wireUpperBound
      answerRrsets := plan.answerRrsets ++ [rrset]
      answerItems :=
        if plan.answerItems.isEmpty then plan.answerItems else plan.answerItems ++ [.rrset rrset] }

def pushAnswerRrsetWithOwnerIndex : ZoneImageLookupPlan :=
  { plan with
    directAnswerCandidate := false
    answerHasRecords := true
    answerRecordCount := addPlanRecordCount plan.answerRecordCount metrics.recordCount
    answerWireUpperBound := addPlanWireUpperBound plan.answerWireUpperBound metrics.wireUpperBound
    bodyWireUpperBound := addPlanWireUpperBound plan.bodyWireUpperBound metrics.wireUpperBound
    answerItems := plan.answerItems ++ [.rrsetWithOwner rrset ownerIndex] }

variable (ownerWire : List UInt8)

/-- The answer item that already puts this RRset under this owner. -/
def findAnswerWithOwner : Option ℕ :=
  plan.answerItems.findSome? fun
    | .rrsetWithOwner rrsetId ownerIndex =>
      if rrsetId = rrset ∧ plan.ownerOverrides[ownerIndex]? = some ownerWire then
        some ownerIndex
      else
        none
    | _ => none

def pushAnswerRrsetWithOwnerWire (metrics : ZoneImageRrsetPlanMetrics) :
    ZoneImageLookupPlan × ℕ :=
  let plan := plan.ensureAnswerItems
  match plan.findAnswerWithOwner rrset ownerWire with
  | some ownerIndex => (plan, ownerIndex)
  | none =>
    let ownerIndex := plan.ownerOverrides.length
    let plan :=
      { plan with
        wildcardSynthesized := true
        ownerOverrides := plan.ownerOverrides ++ [ownerWire] }
    (plan.pushAnswerRrsetWithOwnerIndex rrset ownerIndex metrics, ownerIndex)

/-- The index of the answer is also what the source returns; callers only use
it to find the target again. -/
def pushSynthesizedAnswer (owner : DomainName) (fixedFields : ZoneImageRecordFixedFields)
    (rdataEncoding : PackedRdataEncoding) (rdata : Rdata) : ZoneImageLookupPlan :=
  let plan := { plan with directAnswerCandidate := false }.ensureAnswerItems
  if plan.dynamicAnswers.any fun answer => answer.ownerWire == owner.toWire &&
      answer.fixedFields == fixedFields && answer.rdataEncoding == rdataEncoding &&
      answer.rdata == rdata then
    plan
  else
    let wireUpperBound := owner.toWire.length + 10 + rdata.length
    { plan with
      answerHasRecords := true
      answerRecordCount := addPlanRecordCount plan.answerRecordCount 1
      answerWireUpperBound := addPlanWireUpperBound plan.answerWireUpperBound wireUpperBound
      bodyWireUpperBound := addPlanWireUpperBound plan.bodyWireUpperBound wireUpperBound
      dynamicAnswers := plan.dynamicAnswers ++
        [⟨owner.toWire, fixedFields, UInt16.ofNat rdata.length, rdataEncoding, rdata⟩]
      answerItems := plan.answerItems ++ [.dynamicRecord plan.dynamicAnswers.length] }

def pushSelectedRecordSection (sec : DnssecSection) (record : ZoneImageSelectedRecord) :
    ZoneImageLookupPlan :=
  match sec with
  | .answer =>
    let plan := { plan with directAnswerCandidate := false }.ensureAnswerItems
    { plan with
      answerHasRecords := true
      answerRecordCount := addPlanRecordCount plan.answerRecordCount 1
      answerWireUpperBound := addPlanWireUpperBound plan.answerWireUpperBound record.wireLen
      bodyWireUpperBound := addPlanWireUpperBound plan.bodyWireUpperBound record.wireLen
      answerItems := plan.answerItems ++ [.selectedRecord record] }
  | .authority =>
    { plan with
      directAnswerCandidate := false
      authorityRecordCount := addPlanRecordCount plan.authorityRecordCount 1
      bodyWireUpperBound := addPlanWireUpperBound plan.bodyWireUpperBound record.wireLen
      selectedAuthorities := plan.selectedAuthorities ++ [record] }
  | .additional =>
    { plan with
      directAnswerCandidate := false
      additionalRecordCount := addPlanRecordCount plan.additionalRecordCount 1
      bodyWireUpperBound := addPlanWireUpperBound plan.bodyWireUpperBound record.wireLen
      selectedAdditionals := plan.selectedAdditionals ++ [record] }

/-- The octets of a selected record that is sent under an owner override. -/
def selectedWireLenWithOwner : ℕ :=
  (plan.ownerOverrides.getD ownerIndex []).length + 10 + record.rdataLen

def pushSelectedAnswerRecordWithOwner : ZoneImageLookupPlan :=
  let plan := { plan with directAnswerCandidate := false }.ensureAnswerItems
  let wireLen := plan.selectedWireLenWithOwner record ownerIndex
  { plan with
    answerHasRecords := true
    answerRecordCount := addPlanRecordCount plan.answerRecordCount 1
    answerWireUpperBound := addPlanWireUpperBound plan.answerWireUpperBound wireLen
    bodyWireUpperBound := addPlanWireUpperBound plan.bodyWireUpperBound wireLen
    answerItems := plan.answerItems ++ [.selectedRecordWithOwner record ownerIndex] }

def pushSelectedAdditionalRecordWithOwner : ZoneImageLookupPlan :=
  { plan with
    directAnswerCandidate := false
    additionalRecordCount := addPlanRecordCount plan.additionalRecordCount 1
    bodyWireUpperBound := addPlanWireUpperBound plan.bodyWireUpperBound
      (plan.selectedWireLenWithOwner record ownerIndex)
    selectedAdditionalsWithOwner := plan.selectedAdditionalsWithOwner ++ [(record, ownerIndex)] }

/-- The index of the SOA is a `u16` with the largest value for "none". -/
def pushAuthorityRrset : ZoneImageLookupPlan :=
  let isSoa := metrics.rrType == RecordType.soa
  { plan with
    directAnswerCandidate := false
    authorityRecordCount := addPlanRecordCount plan.authorityRecordCount metrics.recordCount
    bodyWireUpperBound := addPlanWireUpperBound plan.bodyWireUpperBound metrics.wireUpperBound
    authoritySoaIndex :=
      if isSoa then
        if plan.authorityRrsets.length < u16Max then some plan.authorityRrsets.length else none
      else
        plan.authoritySoaIndex
    authorityHasSoa := isSoa || plan.authorityHasSoa
    authorityFirstRrsetIsSoa :=
      if isSoa then plan.authorityRrsets.isEmpty else plan.authorityFirstRrsetIsSoa
    authorityRrsets := plan.authorityRrsets ++ [rrset] }

def pushAdditionalRrset : ZoneImageLookupPlan :=
  { plan with
    additionalRecordCount := addPlanRecordCount plan.additionalRecordCount metrics.recordCount
    bodyWireUpperBound := addPlanWireUpperBound plan.bodyWireUpperBound metrics.wireUpperBound
    additionalRrsets := plan.additionalRrsets ++ [rrset] }

def pushAdditionalRrsetWithOwner : ZoneImageLookupPlan :=
  { plan with
    additionalRecordCount := addPlanRecordCount plan.additionalRecordCount metrics.recordCount
    bodyWireUpperBound := addPlanWireUpperBound plan.bodyWireUpperBound metrics.wireUpperBound
    additionalRrsetsWithOwner := plan.additionalRrsetsWithOwner ++ [(rrset, ownerIndex)] }

def markDirectAnswerCandidate : ZoneImageLookupPlan :=
  { plan with directAnswerCandidate := true }

def referral (nsRrset : ℕ) (metrics : ZoneImageRrsetPlanMetrics) : ZoneImageLookupPlan :=
  { positive with authoritative := false, referralNsRrset := some nsRrset }.pushAuthorityRrset
    nsRrset metrics

def nodata : ZoneImageLookupPlan := positive

def nxdomain : ZoneImageLookupPlan := { positive with rcode := .nxDomain }

def yxdomain : ZoneImageLookupPlan := { positive with rcode := .yxDomain }

variable (termination : LookupTermination)

def servfail : ZoneImageLookupPlan :=
  { positive with rcode := .servFail, termination := some termination }

/-- `set_servfail`: only the answers found so far are kept. -/
def setServfail : ZoneImageLookupPlan :=
  { plan with
    rcode := .servFail
    authoritative := true
    termination := some termination
    referralNsRrset := none
    authorityRrsets := []
    authorityRecordCount := 0
    bodyWireUpperBound := plan.answerWireUpperBound
    authoritySoaIndex := none
    authorityHasSoa := false
    authorityFirstRrsetIsSoa := false
    directAnswerCandidate := false
    additionalRrsets := []
    additionalRrsetsWithOwner := []
    additionalRecordCount := 0
    selectedAuthorities := []
    selectedAdditionals := []
    selectedAdditionalsWithOwner := []
    continuation := none
    denialContext := none }

def setDnssecProofServfail : ZoneImageLookupPlan :=
  { plan.setServfail .malformedDname with termination := none }

def withIndirectionContinuation (target : DomainName) (remaining : ℕ) : ZoneImageLookupPlan :=
  { plan with continuation := some ⟨target, remaining⟩ }

def withDenialContext (terminalName : DomainName) (kind : ZoneImageDenialKind) :
    ZoneImageLookupPlan :=
  let kind := match kind with
    | .wildcardNoData wildcardName => .wildcardNoData wildcardName.toAsciiLowercased
    | other => other
  { plan with denialContext := some ⟨terminalName.toAsciiLowercased, kind⟩ }

/-- `referral_ns_rrset`. -/
def referralNs : Option ℕ :=
  if plan.authoritative then none else plan.referralNsRrset

/-- `authority_soa_index`. -/
def soaIndex : Option ℕ :=
  if plan.authorityHasSoa then plan.authoritySoaIndex else none

end ZoneImageLookupPlan

structure ZoneImagePlanResponseShape where
  responseFlagBits : UInt16
  answerCount : UInt16
  authorityCount : UInt16
  additionalCount : UInt16
  sectionCountHeaderBytes : List UInt8
  bodyWireUpperBound : ℕ

/-- `response_shape`: there is none when a count does not fit in 16 bits. -/
def ZoneImageLookupPlan.responseShape : Option ZoneImagePlanResponseShape :=
  if plan.answerRecordCount ≤ u16Max ∧ plan.authorityRecordCount ≤ u16Max ∧
      plan.additionalRecordCount ≤ u16Max then
    let answerCount := UInt16.ofNat plan.answerRecordCount
    let authorityCount := UInt16.ofNat plan.authorityRecordCount
    let additionalCount := UInt16.ofNat plan.additionalRecordCount
    some
      { responseFlagBits := plan.rcode.responseFlagBits plan.authoritative
        answerCount
        authorityCount
        additionalCount
        sectionCountHeaderBytes :=
          sectionCountHeaderBytes answerCount authorityCount additionalCount
        bodyWireUpperBound := plan.bodyWireUpperBound }
  else
    none

def ZoneImagePlanResponseShape.sectionCountHeaderBytesWithExtraAdditional
    (shape : ZoneImagePlanResponseShape) (extraAdditionalCount : UInt16) : Option (List UInt8) :=
  if extraAdditionalCount = 0 then
    some shape.sectionCountHeaderBytes
  else if u16Max < shape.additionalCount.toNat + extraAdditionalCount.toNat then
    none
  else
    some (BoronDns.sectionCountHeaderBytes shape.answerCount shape.authorityCount
      (shape.additionalCount + extraAdditionalCount))

end BoronDns
