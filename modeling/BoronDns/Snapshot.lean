import BoronDns.ClassIndex
import BoronDns.DenialIndex

/-!
The zone snapshot: its RRsets by key, and the indexes, counts and size summary
that are kept with them. `active` builds everything from a list of RRsets.
`withCowRrsetReplacements` changes the snapshot by a list of replacements, and
adjusts every index and count by what the replaced keys had before and have now.
-/

namespace BoronDns

open RecordType

structure ZoneShapeSummary where
  rrsetCount : ℕ
  rdataCount : ℕ
  singleRdataRrsetCount : ℕ
  multiRdataRrsetCount : ℕ
  spilledRdataRrsetCount : ℕ
  maxRdataPerRrset : ℕ
  ownerNameCount : ℕ
  emptyNonTerminalNameCount : ℕ
  rdataPayloadBytes : ℕ
  nameKeyLogicalBytes : ℕ
  nameKeyUniqueBytes : ℕ
  nameKeyDeduplicatedBytes : ℕ
  inOnlyClassIndexBytesSaved : ℕ
  deriving DecidableEq

/-- Where a snapshot comes from; identities are compared as pointers. -/
structure ZoneSnapshotLineage where
  identity : ℕ
  parentIdentity : Option ℕ
  changedRrsetKeys : List RrsetKey

structure ZoneSnapshot (platform : Platform) where
  origin : DomainName
  state : ZoneState
  serial : Option UInt32
  soaTimers : Option SoaTimers
  soaRecordCount : ℕ
  dnssecRrsetCount : ℕ
  rdataRecordCount : ℕ
  denialIndexes : DenialIndexes platform
  shapeSummary : ZoneShapeSummary
  rdataCountFrequencies : AList (fun _ : ℕ => ℕ)
  lineage : ZoneSnapshotLineage
  originKey : NameKey
  rrsets : RrsetMap
  shardCount : ℕ
  nameClasses : NameClassIndex
  emptyNonTerminalClasses : NameClassIndex
  delegationRrsets : Finset RrsetKey
  dnameRrsets : Finset RrsetKey

def soaTimersFromRdata (rdata : Rdata) : Option SoaTimers :=
  match DomainName.parse rdata 0 with
  | .error _ => none
  | .ok (_, rnameOffset) =>
    match DomainName.parse rdata rnameOffset with
    | .error _ => none
    | .ok (_, consumedRname) =>
      match rdata.drop (rnameOffset + consumedRname) with
      | [_, _, _, _, r0, r1, r2, r3, t0, t1, t2, t3, e0, e1, e2, e3, m0, m1, m2, m3] =>
        some ⟨Bytes.fromBe32 r0 r1 r2 r3, Bytes.fromBe32 t0 t1 t2 t3, Bytes.fromBe32 e0 e1 e2 e3,
          Bytes.fromBe32 m0 m1 m2 m3⟩
      | _ => none

variable (originKey : NameKey)

def soaTimersFromRrsets (rrsets : RrsetMap) : Option SoaTimers :=
  (rrsets.lookup ⟨originKey, soa, 1⟩).bind fun soa => soa.rdatas.head?.bind soaTimersFromRdata

def isDnssecRrType (rrType : UInt16) : Bool :=
  rrType == ds || rrType == rrsig || rrType == nsec ||
    rrType == dnskey || rrType == nsec3 || rrType == nsec3Param

def payloadBytes (rrset : Rrset) : ℕ := (rrset.rdatas.map List.length).sum

def rrsetShardMinTotalLen : ℕ := 65536

def rrsetShardTargetLen : ℕ := 256

def rrsetShardMaxCount : ℕ := 262144

/-- The number of shards for this many RRsets, a power of two. -/
def rrsetShardCount (rrsetCount : ℕ) : ℕ :=
  if rrsetCount < rrsetShardMinTotalLen then 1
  else min ((rrsetCount + rrsetShardTargetLen - 1) / rrsetShardTargetLen).nextPowerOfTwo
    rrsetShardMaxCount

theorem rrsetShardCount_pos (rrsetCount : ℕ) : 0 < rrsetShardCount rrsetCount := by
  unfold rrsetShardCount
  split
  · exact Nat.one_pos
  · exact lt_min (Nat.pos_of_isPowerOfTwo (Nat.isPowerOfTwo_nextPowerOfTwo _)) (by decide)

/-- Of two RRsets with one key the later one stays. -/
def rrsetsByKey (rrsets : List Rrset) : RrsetMap :=
  rrsets.foldl (fun byKey rrset => byKey.insert rrset.key rrset) ∅

def rrsetRdataCountFrequencies (rrsets : RrsetMap) : AList (fun _ : ℕ => ℕ) :=
  rrsets.values.foldl (fun frequencies rrset => AList.countUp id frequencies rrset.rdatas.length) ∅

variable (key : RrsetKey)

def isDelegationKey : Bool :=
  key.rrType == ns && key.owner != originKey

def isDnameKey : Bool := key.rrType == dname

/-- `SmallVec::spilled` of data whose vector had no spare capacity: one record fits inline. -/
def Rrset.spilled (rrset : Rrset) : Bool := 1 < rrset.rdatas.length

namespace ZoneSnapshot

variable {platform : Platform}

def computeShapeSummary (snapshot : ZoneSnapshot platform) : ZoneShapeSummary :=
  let values := snapshot.rrsets.values
  let owners := snapshot.rrsets.keys.map RrsetKey.owner
  let logical :=
    (owners.map List.length).sum + (snapshot.nameClasses.keys.map List.length).sum +
      (snapshot.emptyNonTerminalClasses.keys.map List.length).sum +
      (∑ key ∈ snapshot.delegationRrsets, key.owner.length) +
      ∑ key ∈ snapshot.dnameRrsets, key.owner.length
  let unique := ∑ name ∈ owners.toFinset ∪ snapshot.nameClasses.keys.toFinset ∪
      snapshot.emptyNonTerminalClasses.keys.toFinset ∪ snapshot.delegationRrsets.image
      RrsetKey.owner ∪ snapshot.dnameRrsets.image RrsetKey.owner, name.length
  { rrsetCount := snapshot.rrsets.entries.length
    rdataCount := (values.map fun rrset => rrset.rdatas.length).sum
    singleRdataRrsetCount := values.countP fun rrset => rrset.rdatas.length = 1
    multiRdataRrsetCount := values.countP fun rrset => 1 < rrset.rdatas.length
    spilledRdataRrsetCount := values.countP Rrset.spilled
    maxRdataPerRrset := (values.map fun rrset => rrset.rdatas.length).foldl max 0
    ownerNameCount := snapshot.nameClasses.len
    emptyNonTerminalNameCount := snapshot.emptyNonTerminalClasses.len
    rdataPayloadBytes := (values.map payloadBytes).sum
    nameKeyLogicalBytes := logical
    nameKeyUniqueBytes := unique
    nameKeyDeduplicatedBytes := logical - unique
    inOnlyClassIndexBytesSaved :=
      snapshot.nameClasses.valueBytesSaved platform.classSetBytes +
        snapshot.emptyNonTerminalClasses.valueBytesSaved platform.classSetBytes }

/-- The changes of the empty non-terminal index for the RRsets of a new zone. -/
def indexChanges (origin : DomainName) (rrsets : RrsetMap) : List NameClassIndex.Change :=
  rrsets.entries.flatMap fun entry =>
    (indexedAncestors origin entry.2.owner).map fun name => (name, entry.2.cls, true)

def active (identity : ℕ) (origin : DomainName) (serial : Option UInt32) (rrsets : List Rrset) :
    ZoneSnapshot platform :=
  let originKey := origin.canonicalKey
  let byKey := rrsetsByKey rrsets
  let snapshot : ZoneSnapshot platform :=
    { origin
      state := .active
      serial
      soaTimers := soaTimersFromRrsets originKey byKey
      soaRecordCount := ((byKey.values.filter fun rrset => rrset.rrType = soa).map
        fun rrset => rrset.rdatas.length).sum
      dnssecRrsetCount := byKey.values.countP fun rrset => isDnssecRrType rrset.rrType
      rdataRecordCount := (byKey.values.map fun rrset => rrset.rdatas.length).sum
      denialIndexes := DenialIndexes.build byKey origin
      shapeSummary := ⟨0, 0, 0, 0, 0, 0, 0, 0, 0, 0, 0, 0, 0⟩
      rdataCountFrequencies := rrsetRdataCountFrequencies byKey
      lineage := ⟨identity, none, []⟩
      originKey
      rrsets := byKey
      shardCount := rrsetShardCount rrsets.length
      nameClasses := (NameClassIndex.forRrsets byKey.values).applyAll
        (byKey.entries.map fun entry => (entry.1.owner, entry.2.cls, true))
      emptyNonTerminalClasses := (NameClassIndex.forRrsets byKey.values).applyAll
        (indexChanges origin byKey)
      delegationRrsets := ((byKey.entries.filter fun entry =>
        entry.2.rrType = ns ∧ entry.1.owner ≠ originKey).map Sigma.fst).toFinset
      dnameRrsets :=
        ((byKey.entries.filter fun entry => entry.2.rrType = dname).map Sigma.fst).toFinset }
  { snapshot with shapeSummary := snapshot.computeShapeSummary }

end ZoneSnapshot

def removeRrsetFromShape (summary : ZoneShapeSummary) (rrset : Rrset) : ZoneShapeSummary :=
  { summary with
    rrsetCount := summary.rrsetCount - 1
    rdataCount := summary.rdataCount - rrset.rdatas.length
    rdataPayloadBytes := summary.rdataPayloadBytes - payloadBytes rrset
    nameKeyLogicalBytes := summary.nameKeyLogicalBytes - rrset.owner.canonicalKey.length
    singleRdataRrsetCount :=
      summary.singleRdataRrsetCount - if rrset.rdatas.length = 1 then 1 else 0
    multiRdataRrsetCount := summary.multiRdataRrsetCount - if 1 < rrset.rdatas.length then 1 else 0
    spilledRdataRrsetCount := summary.spilledRdataRrsetCount - if rrset.spilled then 1 else 0 }

def addRrsetToShape (summary : ZoneShapeSummary) (rrset : Rrset) : ZoneShapeSummary :=
  { summary with
    rrsetCount := summary.rrsetCount + 1
    rdataCount := summary.rdataCount + rrset.rdatas.length
    rdataPayloadBytes := summary.rdataPayloadBytes + payloadBytes rrset
    nameKeyLogicalBytes := summary.nameKeyLogicalBytes + rrset.owner.canonicalKey.length
    singleRdataRrsetCount :=
      summary.singleRdataRrsetCount + if rrset.rdatas.length = 1 then 1 else 0
    multiRdataRrsetCount := summary.multiRdataRrsetCount + if 1 < rrset.rdatas.length then 1 else 0
    spilledRdataRrsetCount := summary.spilledRdataRrsetCount + if rrset.spilled then 1 else 0 }

/-- What the first loop of an update has counted so far, with the changes of
presence it leaves to the later loops. -/
structure CowProgress where
  soaRecordCount : ℕ
  dnssecRrsetCount : ℕ
  rdataRecordCount : ℕ
  shapeSummary : ZoneShapeSummary
  rdataCountFrequencies : AList (fun _ : ℕ => ℕ)
  rrsetPresenceChanges : List NameClassIndex.Change
  /-- the key, whether it is added, and whether it is a delegation -/
  specialIndexChanges : List (RrsetKey × Bool × Bool)

/-- A replacement: the key, and the RRset it has now or nothing. -/
abbrev Replacement := RrsetKey × Option Rrset

def shapeAfter (summary : ZoneShapeSummary) (previous next : Option Rrset) : ZoneShapeSummary :=
  let removed := previous.elim summary (removeRrsetFromShape summary)
  next.elim removed (addRrsetToShape removed)

variable (frequencies : AList (fun _ : ℕ => ℕ))

def frequenciesAfter (previous next : Option Rrset) : AList (fun _ : ℕ => ℕ) :=
  let removed :=
    previous.elim frequencies fun rrset => AList.countDown frequencies rrset.rdatas.length
  next.elim removed fun rrset => AList.countUp id removed rrset.rdatas.length

/-- A count of RRsets that is kept by their presence. -/
def presenceCount (count : ℕ) (previous next : Option Rrset) : ℕ :=
  if previous.isSome = next.isSome then count else if next.isSome then count + 1 else count - 1

def recordsOf (rrset : Option Rrset) : ℕ := rrset.elim 0 fun rrset => rrset.rdatas.length

/-- The change of presence at a key, if there is one. -/
def presenceChange (previous next : Option Rrset) : List NameClassIndex.Change :=
  if previous.isSome != next.isSome then [(key.owner, key.cls, next.isSome)] else []

/-- The change of the delegation or DNAME set at a key, if there is one. -/
def specialChange (previous next : Option Rrset) : List (RrsetKey × Bool × Bool) :=
  if previous.isSome != next.isSome && (isDelegationKey originKey key || isDnameKey key) then
    [(key, next.isSome, isDelegationKey originKey key)]
  else []

/-- One pass of the first loop of `with_cow_rrset_replacements`. -/
def cowStep (originKey : NameKey) (progress : CowProgress) (change : Replacement)
    (previous : Option Rrset) : CowProgress :=
  let key := change.1
  let next := change.2
  { soaRecordCount :=
      if key.rrType = soa then progress.soaRecordCount - recordsOf previous + recordsOf next
      else progress.soaRecordCount
    dnssecRrsetCount :=
      if isDnssecRrType key.rrType then presenceCount progress.dnssecRrsetCount previous next
      else progress.dnssecRrsetCount
    rdataRecordCount := progress.rdataRecordCount - recordsOf previous + recordsOf next
    shapeSummary := shapeAfter progress.shapeSummary previous next
    rdataCountFrequencies := frequenciesAfter progress.rdataCountFrequencies previous next
    rrsetPresenceChanges := progress.rrsetPresenceChanges ++ presenceChange key previous next
    specialIndexChanges :=
      progress.specialIndexChanges ++ specialChange originKey key previous next }

def updateNameShapeMembership (summary : ZoneShapeSummary) (name : NameKey)
    (oldOwner newOwner oldEmptyNonTerminal newEmptyNonTerminal : Bool) : ZoneShapeSummary :=
  { summary with
    nameKeyLogicalBytes := summary.nameKeyLogicalBytes -
        (oldOwner.toNat + oldEmptyNonTerminal.toNat) * name.length +
      (newOwner.toNat + newEmptyNonTerminal.toNat) * name.length
    nameKeyUniqueBytes :=
      match oldOwner || oldEmptyNonTerminal, newOwner || newEmptyNonTerminal with
      | false, true => summary.nameKeyUniqueBytes + name.length
      | true, false => summary.nameKeyUniqueBytes - name.length
      | _, _ => summary.nameKeyUniqueBytes }

/-- The summary and the two sets of special keys in the last loop of an update. -/
structure SpecialIndexes where
  nameKeyLogicalBytes : ℕ
  delegationRrsets : Finset RrsetKey
  dnameRrsets : Finset RrsetKey

def specialStep (indexes : SpecialIndexes) (change : RrsetKey × Bool × Bool) : SpecialIndexes :=
  let key := change.1
  let bytes :=
    if change.2.1 then indexes.nameKeyLogicalBytes + key.owner.length
    else indexes.nameKeyLogicalBytes - key.owner.length
  let update := fun keys : Finset RrsetKey => if change.2.1 then insert key keys else keys.erase key
  if change.2.2 then ⟨bytes, update indexes.delegationRrsets, indexes.dnameRrsets⟩
  else ⟨bytes, indexes.delegationRrsets, update indexes.dnameRrsets⟩

/-- The last key of the map from rdata counts to frequencies. -/
def lastFrequencyKey : ℕ := frequencies.keys.foldl max 0

namespace ZoneSnapshot

variable {platform : Platform}

/-- The changes an update makes in the empty non-terminal index. -/
def ancestorChanges (originKey : NameKey) (changes : List NameClassIndex.Change) :
    List NameClassIndex.Change :=
  changes.flatMap fun change => (updatedAncestors originKey change.1).map fun name =>
    (name, change.2.1, change.2.2)

def affectedNames (originKey : NameKey) (changes : List NameClassIndex.Change) : List NameKey :=
  (changes.flatMap fun change => change.1 :: updatedAncestors originKey change.1).dedup

variable (snapshot : ZoneSnapshot platform)

def cowProgress (replacements : List Replacement) : CowProgress :=
  replacements.foldl
    (fun progress change =>
      cowStep snapshot.originKey progress change (snapshot.rrsets.lookup change.1))
    { soaRecordCount := snapshot.soaRecordCount
      dnssecRrsetCount := snapshot.dnssecRrsetCount
      rdataRecordCount := snapshot.rdataRecordCount
      shapeSummary := snapshot.shapeSummary
      rdataCountFrequencies := snapshot.rdataCountFrequencies
      rrsetPresenceChanges := []
      specialIndexChanges := [] }

def withCowRrsetReplacements (identity : ℕ) (serial : UInt32)
    (replacements : List Replacement) : ZoneSnapshot platform :=
  let progress := snapshot.cowProgress replacements
  let changes := progress.rrsetPresenceChanges
  let rrsets := snapshot.rrsets.putAll replacements
  let nameClasses := snapshot.nameClasses.applyAll changes
  let emptyNonTerminalClasses :=
    snapshot.emptyNonTerminalClasses.applyAll (ancestorChanges snapshot.originKey changes)
  let named := (affectedNames snapshot.originKey changes).foldl
    (fun summary name => updateNameShapeMembership summary name
      (snapshot.nameClasses.containsName name) (nameClasses.containsName name)
      (snapshot.emptyNonTerminalClasses.containsName name)
      (emptyNonTerminalClasses.containsName name))
    progress.shapeSummary
  let special := progress.specialIndexChanges.foldl specialStep
    ⟨named.nameKeyLogicalBytes, snapshot.delegationRrsets, snapshot.dnameRrsets⟩
  { origin := snapshot.origin
    state := .active
    serial := some serial
    soaTimers := soaTimersFromRrsets snapshot.originKey rrsets
    soaRecordCount := progress.soaRecordCount
    dnssecRrsetCount := progress.dnssecRrsetCount
    rdataRecordCount := progress.rdataRecordCount
    denialIndexes := snapshot.denialIndexes.updated snapshot.rrsets rrsets snapshot.origin
      snapshot.shardCount snapshot.shardCount
      (platform.sharesShard snapshot.shardCount replacements)
    shapeSummary :=
      { named with
        maxRdataPerRrset := lastFrequencyKey progress.rdataCountFrequencies
        ownerNameCount := nameClasses.len
        emptyNonTerminalNameCount := emptyNonTerminalClasses.len
        nameKeyLogicalBytes := special.nameKeyLogicalBytes
        nameKeyDeduplicatedBytes := special.nameKeyLogicalBytes - named.nameKeyUniqueBytes
        inOnlyClassIndexBytesSaved :=
          nameClasses.valueBytesSaved platform.classSetBytes +
            emptyNonTerminalClasses.valueBytesSaved platform.classSetBytes }
    rdataCountFrequencies := progress.rdataCountFrequencies
    lineage := ⟨identity, some snapshot.lineage.identity, replacements.map Prod.fst⟩
    originKey := snapshot.originKey
    rrsets
    shardCount := snapshot.shardCount
    nameClasses
    emptyNonTerminalClasses
    delegationRrsets := special.delegationRrsets
    dnameRrsets := special.dnameRrsets }

end ZoneSnapshot

end BoronDns
