import BoronDns.PlanRecords

/-!
Searching a compiled zone: the node of a name, the RRsets at a node, the cut
and the DNAME above it, and the RRsets that go along with another one (the
target of an alias, addresses, glue, signatures).
-/

namespace BoronDns

open RecordType

inductive ImageTargetNode
  | outOfZone
  | outOfZoneParentSuffix
  | inZoneMissing
  | inZoneNode (node : ℕ)
  deriving DecidableEq

structure ImageSingleNameTarget where
  name : DomainName
  nodeHint : ImageTargetNode

def domainIsSuffixParentOfOrigin (name origin : DomainName) : Bool :=
  if origin.labelCount ≤ name.labelCount then
    false
  else
    (name.labels.zip (origin.labels.drop (origin.labelCount - name.labelCount))).all
      fun pair => eqIgnoreAsciiCase pair.1 pair.2

/-- The loop of `find_rrset_at_node`. The RRsets of a node are sorted by class
and type, so it may stop early. -/
def scanRrset (rrType qclass : UInt16) : List (ℕ × ImageRrset) → Option ℕ
  | [] => none
  | (rrsetId, rrset) :: rest =>
    if qclass ≠ classAny ∧ rrset.cls < qclass then
      scanRrset rrType qclass rest
    else if qclass ≠ classAny ∧
        (qclass < rrset.cls ∨ (rrset.cls = qclass ∧ rrType < rrset.rrType)) then
      none
    else if rrset.rrType = rrType ∧ qclassMatches rrset.cls qclass = true then
      some rrsetId
    else
      scanRrset rrType qclass rest

/-- The loop of `for_each_any_rrset_at_node`. -/
def scanAnyRrsets (qclass : UInt16) : List (ℕ × ImageRrset) → List ℕ
  | [] => []
  | (rrsetId, rrset) :: rest =>
    if qclass ≠ classAny ∧ rrset.cls < qclass then
      scanAnyRrsets qclass rest
    else if qclass ≠ classAny ∧ qclass < rrset.cls then
      []
    else if qclassMatches rrset.cls qclass = true ∧
        isDnssecProofOrSignatureType rrset.rrType = false then
      rrsetId :: scanAnyRrsets qclass rest
    else
      scanAnyRrsets qclass rest

namespace ZoneImage

def ordinaryNameExists (image : ZoneImage) (node : ℕ) : Bool :=
  match image.nodes[node]? with
  | none => false
  | some entry => entry.ordinaryNameExists

variable (image : ZoneImage) (node rrsetId : ℕ) (rrset : ImageRrset) (qname : DomainName)
  (qclass : UInt16)

def findChildWithAsciiLowercaseHint (label : Label) (labelAsciiLowercase : Bool) : Option ℕ :=
  match image.nodes[node]? with
  | none => none
  | some entry =>
    entry.build.children.lookup (if labelAsciiLowercase then label else lowerLabel label)

def findChild (label : Label) : Option ℕ :=
  image.findChildWithAsciiLowercaseHint node label false

variable (qnameAsciiLowercase : Bool)

def findNodeWithAsciiLowercaseHint : Option ℕ :=
  match relativeLabelSlice qname image.origin with
  | none => none
  | some labels => labels.reverse.foldlM
      (fun node label => image.findChildWithAsciiLowercaseHint node label qnameAsciiLowercase) 0

def findNode : Option ℕ :=
  image.findNodeWithAsciiLowercaseHint qname false

def queryNodeLoop (image : ZoneImage) (qnameAsciiLowercase : Bool) :
    List Label → ℕ → Option ℕ → Option ℕ × Option ℕ
  | [], node, closest => (if image.ordinaryNameExists node then some node else none, closest)
  | label :: rest, node, closest =>
    match image.findChildWithAsciiLowercaseHint node label qnameAsciiLowercase with
    | none => (none, closest)
    | some child => image.queryNodeLoop qnameAsciiLowercase rest child
        (if image.ordinaryNameExists child then some child else closest)

/-- The node of the name, if it exists, and the closest existing one above. -/
def queryNodeHandles : Option ℕ × Option ℕ :=
  match relativeLabelSlice qname image.origin with
  | none => (none, none)
  | some labels => image.queryNodeLoop qnameAsciiLowercase labels.reverse 0
      (if image.ordinaryNameExists 0 then some 0 else none)

def rrsetsAtNode : List (ℕ × ImageRrset) :=
  match image.nodes[node]? with
  | none => []
  | some entry => ZoneImageBuilder.nodeRrsets image.rrsets entry.build

def findRrsetAtNode (rrType qclass : UInt16) : Option ℕ :=
  scanRrset rrType qclass (image.rrsetsAtNode node)

def anyRrsetsAtNode : List ℕ :=
  scanAnyRrsets qclass (image.rrsetsAtNode node)

def minimalAnyRrsetAtNode : Option ℕ :=
  (image.anyRrsetsAtNode node qclass).head?

/-- The bitmap of the types below 256 that occur in the zone. -/
def lowRrtypeMayExist (rrType : UInt16) : Bool :=
  256 ≤ rrType || image.rrsets.any fun rrset => rrset.rrType == rrType

def findRrsetByKey (key : RrsetKey) : Option ℕ :=
  image.rrsets.findIdx? fun rrset => rrset.key == key

def soaRrset : Option ℕ :=
  let cls := if qclass = classAny then classIn else qclass
  if cls = classIn then
    image.findRrsetByKey ⟨image.origin.canonicalKey, soa, classIn⟩
  else
    image.findRrsetAtNode 0 soa cls

def rrsetLabelCount : ℕ :=
  match image.rrsets[rrsetId]? with
  | none => 0
  | some rrset => rrset.ownerLabelCount

def nodeParent : ℕ :=
  match image.nodes[node]? with
  | none => 0
  | some entry => entry.build.parent

def anyClassPolicyIsInOnly (firstNode : ℕ) (rrType : UInt16) : Bool :=
  (image.nodes.drop firstNode).all fun entry =>
    (ZoneImageBuilder.nodeRrsets image.rrsets entry.build).all fun owned =>
      !(owned.2.rrType == rrType && owned.2.cls != classIn)

/-- An apex NS RRset is not a cut, so the root node does not count. -/
def anyClassDelegationPolicyIsInOnly : Bool :=
  image.anyClassPolicyIsInOnly 1 ns

def anyClassDnamePolicyIsInOnly : Bool :=
  image.anyClassPolicyIsInOnly 0 dname

/-- The walk from a node to the root, which keeps the last NS RRset it meets; a
parent has a smaller number than its child. -/
def delegationWalk (image : ZoneImage) (qclass : UInt16) : ℕ → ℕ → Option ℕ → Option ℕ
  | 0, _, firstCut => firstCut
  | fuel + 1, node, firstCut =>
    if node = 0 then
      firstCut
    else
      image.delegationWalk qclass fuel (image.nodeParent node)
        ((image.findRrsetAtNode node ns qclass).or firstCut)

def delegationForNode : Option ℕ :=
  if qclass = classIn ∨ (qclass = classAny ∧ image.anyClassDelegationPolicyIsInOnly = true) then
    image.nodes[node]?.bind NameNode.nearestInDelegation
  else
    image.delegationWalk qclass node node none

def nearestInheritedInDname : Option ℕ :=
  let parent := image.nodeParent node
  if parent = node then none else image.nodes[parent]?.bind NameNode.nearestInDname

def dnameWalk (image : ZoneImage) (exactNode : Option ℕ) (qclass : UInt16) :
    ℕ → ℕ → Option ℕ → Option ℕ
  | 0, _, firstDname => firstDname
  | fuel + 1, node, firstDname =>
    let firstDname :=
      if some node = exactNode then
        firstDname
      else
        (image.findRrsetAtNode node dname qclass).or firstDname
    if node = 0 then
      firstDname
    else
      image.dnameWalk exactNode qclass fuel (image.nodeParent node) firstDname

variable (exactNode : Option ℕ)

def dnameForNode (node : ℕ) (qclass : UInt16) : Option ℕ :=
  if qclass = classIn ∨ (qclass = classAny ∧ image.anyClassDnamePolicyIsInOnly = true) then
    if some node = exactNode then
      image.nearestInheritedInDname node
    else
      image.nodes[node]?.bind NameNode.nearestInDname
  else
    image.dnameWalk exactNode qclass (node + 1) node none

def delegationPrecedesDname (delegation : ℕ) (dname : Option ℕ) : Bool :=
  match dname with
  | none => true
  | some dname => image.rrsetLabelCount delegation ≤ image.rrsetLabelCount dname

def nodeOwnsPolicyRrset : Bool :=
  match image.nodes[node]? with
  | none => false
  | some entry => image.rrsetLabelCount rrsetId == image.origin.labelCount + entry.build.depth

def queryIsDsAtDelegationOwner (node : ℕ) (qtype : UInt16) (delegation : ℕ) : Bool :=
  qtype == ds && exactNode == some node && image.nodeOwnsPolicyRrset node delegation

def coveringDelegationBlocksDirectAnswer (qtype qclass : UInt16) : Bool :=
  match image.delegationForNode node qclass with
  | none => false
  | some delegation =>
    if qtype ≠ ds then
      true
    else if qclass = classIn ∨
        (qclass = classAny ∧ image.anyClassDelegationPolicyIsInOnly = true) then
      !image.nodeOwnsPolicyRrset node delegation
    else
      image.findRrsetAtNode node ns qclass != some delegation

/-- The walk never looks at the root node itself. -/
def dnameBlocksWalk (image : ZoneImage) (qclass : UInt16) : ℕ → ℕ → Bool
  | 0, _ => false
  | fuel + 1, node =>
    if node = 0 then
      false
    else if (image.findRrsetAtNode node dname qclass).isSome then
      true
    else
      image.dnameBlocksWalk qclass fuel (image.nodeParent node)

def coveringDnameBlocksDirectAnswer : Bool :=
  if !image.lowRrtypeMayExist dname then
    false
  else if qclass = classIn ∨ (qclass = classAny ∧ image.anyClassDnamePolicyIsInOnly = true) then
    (image.nearestInheritedInDname node).isSome
  else
    image.dnameBlocksWalk qclass (image.nodeParent node) (image.nodeParent node)

def buildTargetNodeHint (name : DomainName) : ImageTargetNode :=
  match relativeLabelSlice name image.origin with
  | none =>
    if domainIsSuffixParentOfOrigin name image.origin then .outOfZoneParentSuffix else .outOfZone
  | some labels =>
    match labels.reverse.foldlM (fun node label => image.findChild node label) 0 with
    | none => .inZoneMissing
    | some node => .inZoneNode node

/-- The target of a CNAME or DNAME is read from its first record. -/
def singleNameRrsetTarget : Option ImageSingleNameTarget :=
  match image.rrsets[rrsetId]? with
  | none => none
  | some rrset =>
    if rrset.rrType = cname ∨ rrset.rrType = dname then
      match rrset.records.head?.bind fun record => singleNameRdataBytes record.rdata with
      | none => none
      | some name => some ⟨name, image.buildTargetNodeHint name⟩
    else
      none

def targetNodeHint : ImageTargetNode :=
  if !qname.isEqualOrSubdomainOf image.origin then
    if domainIsSuffixParentOfOrigin qname image.origin then .outOfZoneParentSuffix else .outOfZone
  else
    match image.findNode qname with
    | none => .inZoneMissing
    | some node => if image.ordinaryNameExists node then .inZoneNode node else .inZoneMissing

def dnameSynthesizedTargetNodeHint (target : ImageSingleNameTarget)
    (synthesizedTarget originalQname : DomainName) (prefixLen : ℕ) : ImageTargetNode :=
  match target.nodeHint with
  | .inZoneNode node =>
    match (originalQname.labels.take prefixLen).reverse.foldlM
        (fun node label => image.findChild node label) node with
    | none => .inZoneMissing
    | some node => .inZoneNode node
  | .inZoneMissing => .inZoneMissing
  | .outOfZoneParentSuffix => image.targetNodeHint synthesizedTarget
  | .outOfZone => .outOfZone

variable (resolved : List (ℕ × Bool))

def addResolved (entry : ℕ × Bool) : List (ℕ × Bool) :=
  if resolved.contains entry then resolved else resolved ++ [entry]

def pushAddressRelation (target : DomainName) (cls : UInt16) (effectiveOwner : Bool)
    (resolved : List (ℕ × Bool)) (addressType : UInt16) : List (ℕ × Bool) :=
  match image.findRrsetByKey ⟨target.canonicalKey, addressType, cls⟩ with
  | none => resolved
  | some rrsetId => addResolved resolved (rrsetId, effectiveOwner)

variable (targetWire : List UInt8)

/-- The address RRsets of a target, A before AAAA. -/
def pushAddressRelationsForTargetWire (cls : UInt16) (effectiveOwner : Bool)
    (resolved : List (ℕ × Bool)) : List (ℕ × Bool) :=
  match DomainName.fromUncompressedWire targetWire with
  | none => resolved
  | some target =>
    [RecordType.a, aaaa].foldl (image.pushAddressRelation target cls effectiveOwner)
      resolved

def occludedWalk (image : ZoneImage) (cls : UInt16) : List Label → ℕ → Bool
  | [], _ => false
  | label :: rest, node =>
    match image.findChild node label with
    | none => false
    | some child =>
      if (image.nodes[child]?.bind fun entry =>
          ZoneImageBuilder.findBuildNodeInRrset image.rrsets entry.build ns).isSome ∧
          cls = classIn then
        true
      else
        image.occludedWalk cls rest child

/-- `target_wire_is_occluded_by_delegation`: only a cut of class IN occludes. -/
def targetWireIsOccludedByDelegation (cls : UInt16) : Bool :=
  match DomainName.fromUncompressedWire targetWire with
  | none => false
  | some target =>
    match relativeLabelSlice target image.origin with
    | none => false
    | some labels => image.occludedWalk cls labels.reverse 0

def wireNameIsEqualOrSubdomainOfDomain (nameWire : List UInt8) (origin : DomainName) : Bool :=
  match DomainName.fromUncompressedWire nameWire with
  | none => false
  | some name => name.isEqualOrSubdomainOf origin

def isSvcbType (rrType : UInt16) : Bool := rrType == svcb || rrType == https

/-- An SVCB record in service mode with the root as its target means its own
owner. -/
def targetsEffectiveOwner (record : ImageRecord) (targetWire : List UInt8) : Bool :=
  isSvcbType rrset.rrType && rdataU16 record.rdata != some 0 && targetWire == [0]

/-- The additional RRsets one record asks for. -/
def pushAdditionalRelationsForRecord (record : ImageRecord) : List (ℕ × Bool) :=
  match additionalAddressTargetWireRdata rrset.rrType record.rdata with
  | none => resolved
  | some targetWire =>
    let effectiveOwner := targetsEffectiveOwner rrset record targetWire
    let targetWire := if effectiveOwner then rrset.owner.toWire else targetWire
    if !wireNameIsEqualOrSubdomainOfDomain targetWire image.origin then
      resolved
    else if image.targetWireIsOccludedByDelegation targetWire rrset.cls then
      resolved
    else
      let resolved :=
        if isSvcbType rrset.rrType then
          match DomainName.fromUncompressedWire targetWire with
          | none => resolved
          | some target =>
            match image.findRrsetByKey ⟨target.canonicalKey, rrset.rrType, rrset.cls⟩ with
            | none => resolved
            | some targetRrset =>
              if targetRrset = rrsetId then
                resolved
              else
                addResolved resolved (targetRrset, effectiveOwner)
        else
          resolved
      image.pushAddressRelationsForTargetWire targetWire rrset.cls effectiveOwner resolved

def precomputedAdditionalRelations : List (ℕ × Bool) :=
  match image.rrsets[rrsetId]? with
  | none => []
  | some rrset =>
    if rrTypeMayHaveAdditionalAddressTarget rrset.rrType then
      rrset.records.foldl (image.pushAdditionalRelationsForRecord rrsetId rrset) []
    else
      []

def ownerIsOrigin : Bool :=
  rrset.owner.lowerLabels == image.origin.lowerLabels

def pushGlueRelationsForRecord (cls : UInt16) (resolved : List (ℕ × Bool)) (record : ImageRecord) :
    List (ℕ × Bool) :=
  match singleNameRdataWire record.rdata with
  | none => resolved
  | some targetWire =>
    if wireNameIsEqualOrSubdomainOfDomain targetWire image.origin then
      image.pushAddressRelationsForTargetWire targetWire cls false resolved
    else
      resolved

def precomputedReferralGlueRelations : List ℕ :=
  match image.rrsets[rrsetId]? with
  | none => []
  | some rrset =>
    if rrset.rrType ≠ ns ∨ image.ownerIsOrigin rrset = true then
      []
    else
      (rrset.records.foldl (image.pushGlueRelationsForRecord rrset.cls) []).map Prod.fst

/-- The signatures of an RRset: the records of the RRSIG RRset at its owner that
cover its type. -/
def precomputedRrsigRelations : List (ℕ × ℕ) :=
  match image.rrsets[rrsetId]? with
  | none => []
  | some rrset =>
    if rrset.rrType = rrsig then
      []
    else
      match image.findRrsetByKey ⟨rrset.owner.canonicalKey, rrsig, rrset.cls⟩ with
      | none => []
      | some rrsigRrsetId =>
        match image.rrsets[rrsigRrsetId]? with
        | none => []
        | some rrsigRrset =>
          (rrsigRrset.records.zipIdx.filter fun entry =>
            rrsigTypeCoveredRdata entry.1.rdata == some rrset.rrType).map
              fun entry => (rrsigRrsetId, entry.2)

end ZoneImage

end BoronDns
